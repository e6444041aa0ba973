import ReverseMode.Proofs.Algebra.Contents

namespace ReverseMode.Form

open Nest

variable {D : Composition} {K : Nest → Prop}

mutual

theorem Composed.expand {f : Form Int} (composed : Composed D K f) : Composed D K (expand f) := by
  match f with
  | number _ | symbol _ | unknown _ _ _ | extremum _ _ | inverse _ => exact composed
  | power base e =>
      have inside := (composed_power.1 composed).1
      have whole : Form.expand (power base e) = Form.distributePower (Form.expand base) e := by
        cases base with
        | inverse _ => exact (not_composed_inverse inside).elim
        | _ => rfl
      rw [whole]
      exact (Composed.expand inside).distributePower e
  | product c fs =>
      rw [Form.expand]
      exact (composed_expandProduct (composed_product.1 composed).1).scale c
  | sum ts =>
      rw [Form.expand]
      exact composed_expandSum (composed_sum.1 composed)

theorem composed_expandProduct {fs : List (Form Int)} (composed : ∀ f ∈ fs, Composed D K f) :
    Composed D K (expandProduct fs) := by
  match fs with
  | [] => exact composed_number 1
  | f :: rest =>
      obtain ⟨first, others⟩ := List.forall_mem_cons.1 composed
      exact (Composed.expand first).distribute (composed_expandProduct others)

theorem composed_expandSum {ts : List (Form Int)} (composed : ∀ t ∈ ts, Composed D K t) :
    Composed D K (expandSum ts) := by
  match ts with
  | [] => exact composed_number 0
  | t :: rest =>
      obtain ⟨first, others⟩ := List.forall_mem_cons.1 composed
      exact (Composed.expand first).add (composed_expandSum others)

end

mutual

theorem represents_multiplyOut {f : Form Int} (composed : Composed D K f) :
    Represents D K (value · f) (multiplyOut f) := by
  match f with
  | number _ | symbol _ | unknown _ _ _ | extremum _ _ | inverse _ => exact .self composed
  | power base e =>
      have inside := (composed_power.1 composed).1
      have whole : multiplyOut (power base e) = pow (multiplyOut base) e := by
        cases base with
        | inverse _ => exact (not_composed_inverse inside).elim
        | _ => rfl
      rw [whole]
      exact ((represents_multiplyOut inside).pow e).of_eq fun σ => (value_power base e).symm
  | product c fs =>
      rw [multiplyOut]
      exact ((represents_multiplyOutProduct (composed_product.1 composed).1).scale c).of_eq
        fun σ => (value_product c fs).symm
  | sum ts =>
      rw [multiplyOut]
      exact (represents_multiplyOutSum (composed_sum.1 composed)).of_eq
        fun σ => (value_sum ts).symm

theorem represents_multiplyOutProduct {fs : List (Form Int)}
    (composed : ∀ f ∈ fs, Composed D K f) :
    Represents D K (fun σ => (fs.map (value σ)).prod) (multiplyOutProduct fs) := by
  match fs with
  | [] => exact .number 1
  | f :: rest =>
      obtain ⟨first, others⟩ := List.forall_mem_cons.1 composed
      exact (represents_multiplyOut first).distribute (represents_multiplyOutProduct others)

theorem represents_multiplyOutSum {ts : List (Form Int)} (composed : ∀ t ∈ ts, Composed D K t) :
    Represents D K (fun σ => (ts.map (value σ)).sum) (multiplyOutSum ts) := by
  match ts with
  | [] => exact .number 0
  | t :: rest =>
      obtain ⟨first, others⟩ := List.forall_mem_cons.1 composed
      exact (represents_multiplyOut first).add (represents_multiplyOutSum others)

end

theorem coefficientPower_int (c : Int) (e : Nat) : coefficientPower c e = c ^ e := by
  induction e with
  | zero => simp [coefficientPower]
  | succ e ih => rw [coefficientPower, ih, mul_int, pow_succ]

theorem content_sum {ts : List (Form Int)} {v : Assignment → Int}
    (represents : Represents D.loose K v (sum ts)) :
    Composed D.loose K (primitiveTerms Coefficient.content ts).2 ∧
      ∀ σ, (primitiveTerms Coefficient.content ts).1 *
        value σ (primitiveTerms Coefficient.content ts).2 = v σ := by
  have isCommon : (Coefficient.content : List Int → Int) = commonDivisor := rfl
  rw [isCommon]
  refine ⟨composed_primitiveTerms (composed_sum.1 represents.composed) _, fun σ => ?_⟩
  rw [value_primitiveTerms, ← represents.value σ, value_sum]

mutual

theorem represents_takeOutContent {f : Form Int} (composed : Composed D.loose K f) :
    Represents D.loose K (value · f) (takeOutContent f) := by
  match f with
  | number _ | symbol _ | unknown _ _ _ | extremum _ _ | inverse _ => exact .self composed
  | power base e =>
      obtain ⟨inside, several, _⟩ := composed_power.1 composed
      match base with
      | sum ts =>
          have terms := represents_takeOutContentTerms (composed_sum.1 inside)
          rw [takeOutContent]
          split
          next us isSum =>
            rw [isSum] at terms
            obtain ⟨primitive, content⟩ := content_sum terms
            change Represents D.loose K _
              (scale (coefficientPower (primitiveTerms Coefficient.content us).1 e)
                (ofPower (primitiveTerms Coefficient.content us).2 e))
            refine ⟨(primitive.ofPower (by omega) False.elim).scale _, fun σ => ?_⟩
            rw [value_scale, value_ofPower, coefficientPower_int, ← mul_pow, content, value_power,
              value_sum]
          next =>
            exact (terms.pow e).of_eq fun σ => by rw [value_power, value_sum]
      | number _ | symbol _ | unknown _ _ _ | extremum _ _ | inverse _ | power _ _ | product _ _ =>
          exact .self composed
  | product c fs =>
      rw [takeOutContent]
      exact ((represents_takeOutContentFactors (composed_product.1 composed).1).scale c).of_eq
        fun σ => (value_product c fs).symm
  | sum ts =>
      rw [takeOutContent]
      exact (represents_takeOutContentTerms (composed_sum.1 composed)).of_eq
        fun σ => (value_sum ts).symm

theorem represents_takeOutContentTerms {ts : List (Form Int)}
    (composed : ∀ t ∈ ts, Composed D.loose K t) :
    Represents D.loose K (fun σ => (ts.map (value σ)).sum) (takeOutContentTerms ts) := by
  match ts with
  | [] => exact .number 0
  | t :: rest =>
      obtain ⟨first, others⟩ := List.forall_mem_cons.1 composed
      exact (represents_takeOutContent first).add (represents_takeOutContentTerms others)

theorem represents_takeOutContentFactors {fs : List (Form Int)}
    (composed : ∀ f ∈ fs, Composed D.loose K f) :
    Represents D.loose K (fun σ => (fs.map (value σ)).prod) (takeOutContentFactors fs) := by
  match fs with
  | [] => exact .number 1
  | f :: rest =>
      obtain ⟨first, others⟩ := List.forall_mem_cons.1 composed
      have tail := represents_takeOutContentFactors others
      match f with
      | sum ts =>
          have terms := represents_takeOutContentTerms (composed_sum.1 first)
          rw [takeOutContentFactors]
          split
          next us isSum =>
            rw [isSum] at terms
            obtain ⟨primitive, content⟩ := content_sum terms
            have front : Represents D.loose K (value · (sum ts))
                (join (primitiveTerms Coefficient.content us).1
                  [(primitiveTerms Coefficient.content us).2]) := by
              refine ⟨primitive.singleton.join _, fun σ => ?_⟩
              rw [value_join, List.map_singleton, List.prod_singleton, content, value_sum]
            exact front.mul tail
          next =>
            exact (terms.of_eq fun σ => (value_sum (σ := σ) ts).symm).mul tail
      | number _ | symbol _ | unknown _ _ _ | extremum _ _ | inverse _ | power _ _ | product _ _ =>
          exact (represents_takeOutContent first).mul tail

end

mutual

theorem represents_multiplyIn {f : Form Int} (composed : Composed D.loose K f) :
    Represents D.loose K (value · f) (multiplyIn f) := by
  match f with
  | number _ | symbol _ | unknown _ _ _ | extremum _ _ | inverse _ => exact .self composed
  | power base e =>
      obtain ⟨inside, several, _⟩ := composed_power.1 composed
      have multiplied := represents_multiplyIn inside
      rw [multiplyIn]
      refine ⟨composed_power.2 ⟨multiplied.composed, several, False.elim⟩, fun σ => ?_⟩
      rw [value_power, multiplied.value, value_power]
  | product c fs =>
      have each := (composed_product.1 composed).1
      have whole : Represents D.loose K (value · (product c fs)) (join c (multiplyInAll fs)) := by
        obtain ⟨multiplied, same⟩ := multiplyInAll_sound each
        refine ⟨FactorList.join ⟨multiplied, False.elim⟩ c, fun σ => ?_⟩
        rw [value_join, same, value_product]
      match fs with
      | [sum ts] =>
          have terms := represents_multiplyInTerms (composed_sum.1 (each _ (.head _)))
          rw [multiplyIn]
          refine (terms.scale c).of_eq fun σ => ?_
          simp
      | _ :: _ :: _ => simpa only [multiplyIn] using whole
      | [] | [number _] | [symbol _] | [unknown _ _ _] | [extremum _ _] | [inverse _] | [power _ _]
      | [product _ _] => exact whole
  | sum ts =>
      rw [multiplyIn]
      exact (represents_multiplyInTerms (composed_sum.1 composed)).of_eq
        fun σ => (value_sum ts).symm

theorem represents_multiplyInTerms {ts : List (Form Int)}
    (composed : ∀ t ∈ ts, Composed D.loose K t) :
    Represents D.loose K (fun σ => (ts.map (value σ)).sum) (multiplyInTerms ts) := by
  match ts with
  | [] => exact .number 0
  | t :: rest =>
      obtain ⟨first, others⟩ := List.forall_mem_cons.1 composed
      exact (represents_multiplyIn first).add (represents_multiplyInTerms others)

theorem multiplyInAll_sound {fs : List (Form Int)} (composed : ∀ f ∈ fs, Composed D.loose K f) :
    (∀ f ∈ multiplyInAll fs, Composed D.loose K f) ∧
      ∀ σ, (multiplyInAll fs).map (value σ) = fs.map (value σ) := by
  match fs with
  | [] => exact ⟨fun f member => (nomatch member), fun σ => rfl⟩
  | f :: rest =>
      obtain ⟨first, others⟩ := List.forall_mem_cons.1 composed
      have multiplied := represents_multiplyIn first
      obtain ⟨each, same⟩ := multiplyInAll_sound others
      rw [multiplyInAll]
      refine ⟨List.forall_mem_cons.2 ⟨multiplied.composed, each⟩, fun σ => ?_⟩
      rw [List.map_cons, multiplied.value, same, List.map_cons]

end

theorem represents_normalizeFactorSign {f : Form Int} (composed : Composed D.loose K f) :
    Represents D.loose K (value · f) (normalizeFactorSign f) := by
  obtain ⟨inside, positive, _⟩ := composed.basePower
  have whole (σ : Assignment) := value_basePower (σ := σ) f
  rw [normalizeFactorSign, composed.signedPower]
  generalize f.basePower = pair at inside positive whole
  match pair with
  | (sum ts, e) =>
      dsimp only at inside whole ⊢
      split
      next =>
        refine ⟨FactorList.join ⟨composed_ofSignedPower inside.neg False.elim e, False.elim⟩ _,
          fun σ => ?_⟩
        rw [value_join, value_ofSignedPower, value_neg, whole]
        rcases Nat.even_or_odd e with even | odd
        · have isEven : (e : Int) % 2 = 0 := by exact_mod_cast Nat.even_iff.1 even
          rw [if_pos isEven, even.neg_pow, ofInt_int, one_mul]
        · have isOdd : ¬ (e : Int) % 2 = 0 := by
            have := Nat.odd_iff.1 odd
            omega
          rw [if_neg isOdd, odd.neg_pow, ofInt_int, neg_one_mul, neg_neg]
      next => exact .self composed
  | (number _, e) | (symbol _, e) | (unknown _ _ _, e) | (extremum _ _, e) | (inverse _, e)
  | (power _ _, e) | (product _ _, e) => exact .self composed

theorem represents_normalizeTermSigns {t : Form Int} (composed : Composed D.loose K t) :
    Represents D.loose K (value · t) (normalizeTermSigns t) := by
  have general : Represents D.loose K (value · t)
      (scale t.split.1 ((t.split.2.map normalizeFactorSign).foldl mul (ofInt 1))) := by
    have normalized (f : Form Int) (member : f ∈ t.split.2) :=
      represents_normalizeFactorSign (composed.factors.each f member)
    refine ⟨Composed.scale (Composed.foldl_mul (composed_number 1) fun g member => ?_) _,
      fun σ => ?_⟩
    · obtain ⟨f, among, rfl⟩ := List.mem_map.1 member
      exact (normalized f among).composed
    · rw [value_scale, value_foldl_mul, value_ofInt, one_mul, List.map_map, value_split t]
      exact congrArg (t.split.1 * ·) (congrArg List.prod (List.map_congr_left fun f member =>
        (normalized f member).value σ))
  unfold normalizeTermSigns
  split
  · exact .self composed
  · exact .self composed
  · exact general

theorem represents_normalizeSigns {f : Form Int} (composed : Composed D.loose K f) :
    Represents D.loose K (value · f) (normalizeSigns f) := by
  unfold normalizeSigns
  split
  next ts =>
    have normalized (t : Form Int) (member : t ∈ ts) :=
      represents_normalizeTermSigns (composed_sum.1 composed t member)
    refine ⟨Composed.foldl_add (h := id) (composed_number 0) fun g member => ?_, fun σ => ?_⟩
    · obtain ⟨t, among, rfl⟩ := List.mem_map.1 member
      exact (normalized t among).composed
    · have total := value_foldl_add (σ := σ) id (ts.map normalizeTermSigns) (ofInt 0)
      refine total.trans ?_
      rw [value_ofInt, zero_add, List.map_map, value_sum]
      exact congrArg List.sum (List.map_congr_left fun t member => (normalized t member).value σ)
  next => exact represents_normalizeTermSigns composed

theorem Represents.shorter {v : Assignment → Int} {f g : Form Int}
    (first : Represents D K v f) (second : Represents D K v g) :
    Represents D K v (shorter f g) := by
  unfold Form.shorter
  split
  · exact second
  · exact first

theorem represents_choose {f : Form Int} (composed : Composed D.loose K f) :
    Represents D.loose K (value · f) (choose f) := by
  have taken {g : Form Int} (represents : Represents D.loose K (value · f) g) :
      Represents D.loose K (value · f) (takeOut g) := by
    have collected :=
      represents_takeOut (D := { D with collected := True }) trivial represents.composed
    exact represents.trans ⟨collected.composed.toLoose, collected.value⟩
  have isExpand : (Literals.multipliedOut : Form Int → Form Int) = expand := rfl
  have isTogether : (Literals.together : Form Int → Form Int) = takeOut := rfl
  have isTakenOut : (Literals.takenOut : Form Int → Form Int) = takeOut := rfl
  have isCombined : (Literals.combined : Form Int → Form Int) = id := rfl
  rw [choose]
  split
  next => exact .self composed
  next =>
    have initial := represents_normalizeSigns composed
    simp only [isExpand, isTogether, isTakenOut, isCombined, id]
    generalize normalizeSigns f = start at initial
    have expanded := initial.trans ⟨initial.composed.expand, fun σ => value_expand start⟩
    generalize expand start = wide at expanded
    split
    next => exact expanded
    next =>
      have whole := initial.trans (represents_takeOutContent initial.composed)
      generalize takeOutContent start = content at whole
      have best := (((taken whole).shorter (taken expanded)).shorter expanded).shorter whole
      have settled := (taken best).shorter expanded
      generalize Form.shorter (takeOut (Form.shorter (Form.shorter (Form.shorter (takeOut content)
        (takeOut wide)) wide) content)) wide = narrow at settled
      have short := (settled.shorter (taken settled)).shorter
        (settled.trans (represents_multiplyOut settled.composed))
      have plain := short.trans (represents_multiplyIn short.composed)
      generalize multiplyIn (Form.shorter (Form.shorter narrow (takeOut narrow))
        (multiplyOut narrow)) = result at plain
      have signed : Represents D.loose K (value · f)
          (if result.hasLeadingMinus then normalizeSigns result else result) := by
        split
        · exact plain.trans (represents_normalizeSigns plain.composed)
        · exact plain
      generalize (if result.hasLeadingMinus then normalizeSigns result else result) = last at signed
      split
      · exact initial
      · exact signed

theorem settleAll_eq (fs : List (Form Int)) :
    settleAll fs = fs.map fun f => choose (settleAtoms f) := by
  induction fs with
  | nil => rfl
  | cons f rest ih => rw [settleAll, ih, List.map_cons]

mutual

theorem represents_settleAtoms {K : Nest → Prop} {f : Form Int} (composed : Composed D.loose K f) :
    Represents D.loose K (value · f) (settleAtoms f) := by
  match f with
  | number _ | symbol _ | unknown _ _ _ | inverse _ => exact .self composed
  | extremum greatest args =>
      obtain ⟨settled, guest, admits, seated⟩ := composed_extremum.1 composed
      have shaped := represents_settleAll args
      have isComposed (g : Form Int) (member : g ∈ args.map fun f => choose (settleAtoms f)) :
          Composed D.loose (Pure greatest) g ∨
            guest.map (fun f => choose (settleAtoms f)) = some g ∧
              Composed D.loose (Mixed greatest) g := by
        obtain ⟨f, among, rfl⟩ := List.mem_map.1 member
        rcases seated f among with ⟨_, isPure⟩ | ⟨isGuest, _, isMixed⟩
        · exact .inl (shaped f among isPure).composed
        · exact .inr ⟨by rw [isGuest, Option.map_some], (shaped f among isMixed).composed⟩
      have same (σ : Assignment) :
          (args.map fun f => choose (settleAtoms f)).map (value σ) = args.map (value σ) := by
        rw [List.map_map]
        exact List.map_congr_left fun f among => (shaped f among (seated f among).mixed).value σ
      obtain ⟨whole, extreme⟩ := composed_extreme (by rwa [Option.isSome_map])
        (by simpa using settled.nonempty) isComposed
      rw [settleAtoms, settleAll_eq]
      exact ⟨whole, fun σ => by rw [extreme, same, value_extremum]⟩
  | power base e =>
      have inside := (composed_power.1 composed).1
      have whole : settleAtoms (power base e) = pow (settleAtoms base) e := by
        cases base with
        | inverse _ => exact (not_composed_inverse inside).elim
        | _ => rfl
      rw [whole]
      exact ((represents_settleAtoms inside).pow e).of_eq fun σ => (value_power base e).symm
  | product c fs =>
      rw [settleAtoms]
      exact ((represents_settleProduct (composed_product.1 composed).1).scale c).of_eq
        fun σ => (value_product c fs).symm
  | sum ts =>
      rw [settleAtoms]
      exact (represents_settleSum (composed_sum.1 composed)).of_eq fun σ => (value_sum ts).symm

theorem represents_settleAll (fs : List (Form Int)) :
    ∀ f ∈ fs, ∀ {K : Nest → Prop}, Composed D.loose K f →
      Represents D.loose K (value · f) (choose (settleAtoms f)) := by
  match fs with
  | [] => exact fun _ member => (nomatch member)
  | f :: rest =>
      refine List.forall_mem_cons.2 ⟨fun composed => ?_, represents_settleAll rest⟩
      have settled := represents_settleAtoms composed
      exact settled.trans (represents_choose settled.composed)

theorem represents_settleProduct {K : Nest → Prop} {fs : List (Form Int)}
    (composed : ∀ f ∈ fs, Composed D.loose K f) :
    Represents D.loose K (fun σ => (fs.map (value σ)).prod) (settleProduct fs) := by
  match fs with
  | [] => exact .number 1
  | f :: rest =>
      obtain ⟨first, others⟩ := List.forall_mem_cons.1 composed
      exact (represents_settleAtoms first).mul (represents_settleProduct others)

theorem represents_settleSum {K : Nest → Prop} {ts : List (Form Int)}
    (composed : ∀ t ∈ ts, Composed D.loose K t) :
    Represents D.loose K (fun σ => (ts.map (value σ)).sum) (settleSum ts) := by
  match ts with
  | [] => exact .number 0
  | t :: rest =>
      obtain ⟨first, others⟩ := List.forall_mem_cons.1 composed
      exact (represents_settleAtoms first).add (represents_settleSum others)

end

theorem represents_simplest {f : Form Int} (composed : Composed D.loose K f) :
    Represents D.loose K (value · f) f.simplest := by
  have settled := represents_settleAtoms composed
  exact settled.trans (represents_choose settled.composed)

end ReverseMode.Form
