import ReverseMode.Algebra.Simplify
import ReverseMode.Proofs.Algebra.Composed

namespace ReverseMode

theorem commonDivisor_ne_zero (numbers : List Int) : commonDivisor numbers ≠ 0 := by
  simp only [commonDivisor]
  split
  next => exact Int.one_ne_zero
  next nonzero => exact Int.natCast_ne_zero.2 nonzero

namespace Form

variable {D : Composition} {K : Nest → Prop} {σ : Assignment}

theorem value_divideTerm {divisor : Int} {t : Form Int} (nonzero : divisor ≠ 0)
    (divides : divisor ∣ t.split.1) : divisor * value σ (divideTerm divisor t) = value σ t := by
  have quotient : Coefficient.divide? t.split.1 divisor = some (t.split.1 / divisor) :=
    if_pos ⟨nonzero, Int.emod_eq_zero_of_dvd divides⟩
  rw [divideTerm]
  simp only [quotient, value_join]
  rw [← mul_assoc, Int.mul_ediv_cancel' divides, ← value_split]

theorem Composed.divideTerm {t : Form Int} (composed : Composed D K t) (divisor : Int) :
    Composed D K (divideTerm divisor t) := by
  rw [Form.divideTerm]
  dsimp only
  split
  · exact composed.factors.join _
  · exact composed

theorem value_primitiveTerms (ts : List (Form Int)) :
    (primitiveTerms commonDivisor ts).1 * value σ (primitiveTerms commonDivisor ts).2 =
      (ts.map (value σ)).sum := by
  unfold primitiveTerms
  dsimp only
  split
  next one =>
    have isOne : commonDivisor (ts.map fun t => t.split.1) = 1 := by simpa using one
    rw [isOne, one_mul, value_ofTerms]
  next =>
    rw [value_ofTerms, ← List.sum_map_mul_left, List.map_map]
    refine congrArg List.sum (List.map_congr_left fun t member => ?_)
    exact value_divideTerm (commonDivisor_ne_zero _) (commonDivisor_dvd (List.mem_map_of_mem member))

theorem composed_primitiveTerms {ts : List (Form Int)} (composed : ∀ t ∈ ts, Composed D K t)
    (common : List Int → Int) : Composed D K (primitiveTerms common ts).2 := by
  unfold primitiveTerms
  dsimp only
  split
  · exact composed_ofTerms composed
  · refine composed_ofTerms fun t member => ?_
    obtain ⟨s, among, rfl⟩ := List.mem_map.1 member
    exact (composed s among).divideTerm _

theorem value_ofSignedPower (base : Form Int) (e : Nat) :
    ((ofSignedPower base e).map (value σ)).prod = value σ base ^ e := by
  unfold ofSignedPower
  split
  next zero =>
    have isZero : e = 0 := Int.ofNat_eq_zero.1 zero
    simp [isZero]
  next nonzero =>
    rw [if_pos (by omega)]
    simp

theorem composed_ofSignedPower {base : Form Int} (composed : Composed D K base)
    (plain : D.collected → base.isPower = false) (e : Nat) :
    ∀ f ∈ ofSignedPower base e, Composed D K f := by
  intro f member
  unfold ofSignedPower at member
  split at member
  next => cases member
  next nonzero =>
    rw [if_pos (by omega)] at member
    rw [List.mem_singleton.1 member]
    exact composed.ofPower (by omega) plain

def Divide (common fs : List (Form Int)) : Prop :=
  ∀ g ∈ common, ∃ f ∈ fs, f.basePower.1 = g.basePower.1 ∧ g.basePower.2 ≤ f.basePower.2

theorem lowerExponent_other {first others : List (Form Int)} {g f : Form Int}
    (differ : g.signedPower.1.same f.signedPower.1 = false) :
    lowerExponent (first ++ g :: others) f = lowerExponent (first ++ others) f := by
  simp only [lowerExponent, List.find?_append, List.find?_cons, differ]

theorem FactorList.sublist {fs gs : List (Form Int)} (list : FactorList D K gs)
    (sublist : fs.Sublist gs) : FactorList D K fs :=
  ⟨fun f member => list.each f (sublist.subset member),
    fun collected => (sublist.map _).nodup (list.distinct collected)⟩

/-- Collected factors, some of them divided by powers with different bases. -/
structure Divided (D : Composition) (K : Nest → Prop) (common fs lowered : List (Form Int)) :
    Prop where
  each : ∀ f ∈ lowered, Composed D K f
  bases : (powerBases lowered).Sublist (powerBases fs)
  value : ∀ σ, (lowered.map (value σ)).prod * (common.map (value σ)).prod = (fs.map (value σ)).prod

theorem divided_factor {f g : Form Int} (collected : D.collected) (composed : Composed D K f)
    (sameBase : f.basePower.1 = g.basePower.1) (low : g.basePower.2 ≤ f.basePower.2) :
    Divided D K [g] [f]
      (ofSignedPower f.basePower.1 ((f.basePower.2 : Int) - (g.basePower.2 : Int))) := by
  obtain ⟨inside, _, plain⟩ := composed.basePower
  rw [← Int.ofNat_sub low]
  refine ⟨composed_ofSignedPower inside plain _, ?_, fun σ => ?_⟩
  · unfold ofSignedPower
    split
    next => exact List.nil_sublist _
    next nonzero =>
      rw [if_pos (by omega)]
      simp [powerBases, basePower_ofPower (plain collected)]
  · rw [value_ofSignedPower, List.map_singleton, List.prod_singleton, List.map_singleton,
      List.prod_singleton, value_basePower f, value_basePower g, ← sameBase, ← pow_add,
      Nat.sub_add_cancel low]

theorem divided_lowerExponent {common fs : List (Form Int)} (collected : D.collected)
    (list : FactorList D K fs) (commons : FactorList D K common) (divide : Divide common fs) :
    Divided D K common fs (fs.flatMap (lowerExponent common)) := by
  induction fs generalizing common with
  | nil =>
      match common with
      | [] => exact ⟨fun f member => (nomatch member), List.Sublist.refl _, fun σ => rfl⟩
      | g :: _ =>
          obtain ⟨f, absurd, _⟩ := divide g (.head _)
          cases absurd
  | cons f rest ih =>
      obtain ⟨composed, others⟩ := List.forall_mem_cons.1 list.each
      obtain ⟨new, distinct⟩ := List.nodup_cons.1 (list.distinct collected)
      have tail : FactorList D K rest := ⟨others, fun _ => distinct⟩
      have base {g : Form Int} (member : g ∈ common) :
          g.signedPower = (g.basePower.1, (g.basePower.2 : Int)) :=
        (commons.each g member).signedPower
      rw [List.flatMap_cons]
      cases found : common.find? fun g => g.signedPower.1.same f.signedPower.1 with
      | none =>
          have unchanged : lowerExponent common f = [f] := by simp only [lowerExponent, found]
          have divideRest : Divide common rest := by
            intro g member
            obtain ⟨h, among, sameBase, low⟩ := divide g member
            rcases List.mem_cons.1 among with rfl | later
            · refine absurd (List.find?_eq_none.1 found g member) (not_not.2 (same_iff.2 ?_))
              rw [base member, composed.signedPower, sameBase]
            · exact ⟨h, later, sameBase, low⟩
          obtain ⟨each, bases, value⟩ := ih tail commons divideRest
          rw [unchanged]
          refine ⟨List.forall_mem_cons.2 ⟨composed, each⟩, bases.cons_cons _, fun σ => ?_⟩
          rw [List.singleton_append, List.map_cons, List.prod_cons, mul_assoc, value, List.map_cons,
            List.prod_cons]
      | some g =>
          have member := List.mem_of_find?_eq_some found
          have matched : g.signedPower.1.same f.signedPower.1 = true :=
            List.find?_some (p := fun g : Form Int => g.signedPower.1.same f.signedPower.1) found
          have isSame : g.basePower.1 = f.basePower.1 := by
            simpa only [base member, composed.signedPower] using same_iff.1 matched
          have lowered : lowerExponent common f =
              ofSignedPower f.basePower.1 ((f.basePower.2 : Int) - (g.basePower.2 : Int)) := by
            simp only [lowerExponent, found]
            rw [composed.signedPower, base member]
          -- only this factor has the base of `g`, so the rest is divided by the other powers
          have own (h : Form Int) (later : h ∈ rest) : h.basePower.1 ≠ g.basePower.1 := by
            intro sameBase
            exact new (List.mem_map.2 ⟨h, later, sameBase.trans isSame⟩)
          have low : g.basePower.2 ≤ f.basePower.2 := by
            obtain ⟨h, among, sameBase, low⟩ := divide g member
            rcases List.mem_cons.1 among with rfl | later
            · exact low
            · exact absurd sameBase (own h later)
          obtain ⟨first, last, rfl⟩ := List.append_of_mem member
          have shorter : (first ++ last).Sublist (first ++ g :: last) :=
            (List.sublist_cons_self g last).append_left first
          have perm : (first ++ g :: last).Perm (g :: (first ++ last)) := List.perm_middle
          have apart : g.basePower.1 ∉ powerBases (first ++ last) :=
            (List.nodup_cons.1 ((commons.perm perm).distinct collected)).1
          have divideRest : Divide (first ++ last) rest := by
            intro h inside
            obtain ⟨k, among, sameBase, low⟩ := divide h (shorter.subset inside)
            rcases List.mem_cons.1 among with rfl | later
            · refine absurd (List.mem_map_of_mem (f := fun g => g.basePower.1) inside) ?_
              rw [← sameBase, ← isSame]
              exact apart
            · exact ⟨k, later, sameBase, low⟩
          have unchanged : rest.flatMap (lowerExponent (first ++ g :: last)) =
              rest.flatMap (lowerExponent (first ++ last)) := by
            refine List.flatMap_congr fun h later => lowerExponent_other ?_
            rw [base member, (others h later).signedPower, Bool.eq_false_iff]
            exact fun same => own h later (same_iff.1 same).symm
          obtain ⟨each, bases, value⟩ := ih tail (commons.sublist shorter) divideRest
          obtain ⟨eachFirst, basesFirst, valueFirst⟩ :=
            divided_factor collected composed isSame.symm low
          rw [unchanged, lowered]
          refine ⟨List.forall_mem_append.2 ⟨eachFirst, each⟩, ?_, fun σ => ?_⟩
          · rw [powerBases, List.map_append]
            exact basesFirst.append bases
          · have one := valueFirst σ
            have more := value σ
            rw [(perm.map _).prod_eq, List.map_append, List.prod_append, List.map_cons,
              List.prod_cons, List.map_cons, List.prod_cons, ← more]
            simp only [List.map_cons, List.map_nil, List.prod_cons, List.prod_nil, mul_one] at one
            rw [← one]
            ring

theorem bases_eq {t : Form Int} (composed : Composed D K t) : t.bases = powerBases t.split.2 :=
  List.map_congr_left fun f member => by rw [(composed.factors.each f member).signedPower]

theorem factor_of_exponentOf {t base : Form Int} {e : Int} (composed : Composed D K t)
    (positive : 0 < e) (low : e ≤ t.exponentOf base) :
    ∃ f ∈ t.split.2, f.basePower.1 = base ∧ e ≤ f.basePower.2 := by
  unfold exponentOf at low
  split at low
  next f found =>
    have member := List.mem_of_find?_eq_some found
    have matched : f.signedPower.1.same base = true :=
      List.find?_some (p := fun g : Form Int => g.signedPower.1.same base) found
    rw [(composed.factors.each f member).signedPower] at matched low
    exact ⟨f, member, same_iff.1 matched, low⟩
  next => omega

theorem foldl_min_le (ts : List (Form Int)) (base : Form Int) (start : Int) :
    ∀ t ∈ ts, ts.foldl (fun m t => min m (t.exponentOf base)) start ≤ t.exponentOf base := by
  have low (ts : List (Form Int)) (start : Int) :
      ts.foldl (fun m t => min m (t.exponentOf base)) start ≤ start := by
    induction ts generalizing start with
    | nil => exact le_refl start
    | cons t rest ih => exact (ih _).trans (min_le_left _ _)
  induction ts generalizing start with
  | nil => exact fun t member => (nomatch member)
  | cons t rest ih =>
      refine List.forall_mem_cons.2 ⟨?_, ih _⟩
      exact (low rest _).trans (min_le_right _ _)

theorem powerBases_filterMap {h : Form Int → Option (Form Int)} {bs : List (Form Int)}
    (keeps : ∀ b ∈ bs, ∀ g, h b = some g → g.basePower.1 = b) :
    (powerBases (bs.filterMap h)).Sublist bs := by
  induction bs with
  | nil => exact List.Sublist.refl _
  | cons b rest ih =>
      obtain ⟨first, others⟩ := List.forall_mem_cons.1 keeps
      rw [List.filterMap_cons]
      split
      next => exact (ih others).cons b
      next g answer =>
        rw [powerBases, List.map_cons, first g answer]
        exact (ih others).cons_cons b

theorem commonFactors_sound {ts : List (Form Int)} (collected : D.collected)
    (composed : ∀ t ∈ ts, Composed D K t) :
    FactorList D K (commonFactors ts) ∧ ∀ t ∈ ts, Divide (commonFactors ts) t.split.2 := by
  match ts with
  | [] => exact ⟨.nil, fun t member => (nomatch member)⟩
  | first :: rest =>
      have composedFirst := composed first (.head _)
      have origin (g : Form Int) (member : g ∈ commonFactors (first :: rest)) :
          ∃ f ∈ first.split.2, ∃ e : Nat, g = ofPower f.basePower.1 e ∧ 1 ≤ e ∧
            ∀ t ∈ first :: rest, (e : Int) ≤ t.exponentOf f.basePower.1 := by
        rw [commonFactors, bases_eq composedFirst] at member
        obtain ⟨base, inside, answer⟩ := List.mem_filterMap.1 member
        obtain ⟨f, among, rfl⟩ := List.mem_map.1 inside
        dsimp only at answer
        split at answer
        next positive =>
          refine ⟨f, among, _, (Option.some.inj answer).symm, by omega, fun t inside => ?_⟩
          rw [Int.toNat_of_nonneg (by omega)]
          exact foldl_min_le _ _ _ t inside
        next => cases answer
      have power {f : Form Int} (among : f ∈ first.split.2) (e : Nat) :
          (ofPower f.basePower.1 e).basePower = (f.basePower.1, e) :=
        basePower_ofPower ((composedFirst.factors.each f among).basePower.2.2 collected) e
      refine ⟨⟨fun g member => ?_, fun _ => ?_⟩, fun t inside g member => ?_⟩
      · obtain ⟨f, among, e, rfl, positive, _⟩ := origin g member
        obtain ⟨inside, _, plain⟩ := (composedFirst.factors.each f among).basePower
        exact inside.ofPower positive plain
      · rw [commonFactors, bases_eq composedFirst]
        refine (powerBases_filterMap fun base inside g answer => ?_).nodup
          (composedFirst.factors.distinct collected)
        obtain ⟨f, among, rfl⟩ := List.mem_map.1 inside
        dsimp only at answer
        split at answer
        · rw [← Option.some.inj answer, power among]
        · cases answer
      · obtain ⟨f, among, e, rfl, positive, low⟩ := origin g member
        obtain ⟨h, found, sameBase, lowFactor⟩ :=
          factor_of_exponentOf (composed t inside) (by omega) (low t inside)
        refine ⟨h, found, ?_, ?_⟩ <;> rw [power among]
        · exact sameBase
        · exact Int.ofNat_le.1 lowFactor

theorem divideFactors_sound {common : List (Form Int)} {t : Form Int} (collected : D.collected)
    (composed : Composed D K t) (commons : FactorList D K common)
    (divide : Divide common t.split.2) :
    Composed D K (divideFactors common t) ∧
      ∀ σ, value σ (divideFactors common t) * (common.map (value σ)).prod = value σ t := by
  have list := composed.factors
  obtain ⟨each, bases, divided⟩ := divided_lowerExponent collected list commons divide
  rw [divideFactors]
  refine ⟨FactorList.join ⟨each, fun isCollected => bases.nodup (list.distinct isCollected)⟩ _,
    fun σ => ?_⟩
  rw [value_join, mul_assoc, divided σ, ← value_split]

theorem represents_takeOutOfSum {ts : List (Form Int)} (collected : D.collected)
    (composed : ∀ t ∈ ts, Composed D K t) :
    Represents D K (fun σ => (ts.map (value σ)).sum) (takeOutOfSum ts) := by
  have primitive := composed_primitiveTerms composed commonDivisor
  have content (σ : Assignment) := value_primitiveTerms (σ := σ) ts
  have isCommon : (Coefficient.commonFactor : List Int → Int) = commonDivisor := rfl
  simp only [takeOutOfSum, isCommon]
  generalize primitiveTerms commonDivisor ts = parts at primitive content
  obtain ⟨commons, divide⟩ := commonFactors_sound collected primitive.terms
  generalize commonFactors parts.2.terms = common at commons divide
  split
  next =>
    refine ⟨primitive.singleton.join _, fun σ => ?_⟩
    rw [value_join, List.map_singleton, List.prod_singleton, content]
  next =>
    have divided (t : Form Int) (member : t ∈ parts.2.terms) :=
      divideFactors_sound collected (primitive.terms t member) commons (divide t member)
    have inner : Composed D K (ofTerms (parts.2.terms.map (divideFactors common))) := by
      refine composed_ofTerms fun t member => ?_
      obtain ⟨s, among, rfl⟩ := List.mem_map.1 member
      exact (divided s among).1
    have total (σ : Assignment) :
        value σ (ofTerms (parts.2.terms.map (divideFactors common))) * (common.map (value σ)).prod =
          value σ parts.2 := by
      rw [value_ofTerms, ← value_terms parts.2, ← List.sum_map_mul_right, List.map_map]
      exact congrArg List.sum (List.map_congr_left fun t member => (divided t member).2 σ)
    generalize ofTerms (parts.2.terms.map (divideFactors common)) = rest at inner total
    refine ⟨(FactorList.mergeFactors commons.each inner.factors).join _, fun σ => ?_⟩
    rw [value_join, value_mergeFactors, ← content σ, ← total σ, value_split rest, mul_int]
    ring

mutual

theorem represents_takeOut {f : Form Int} (collected : D.collected)
    (composed : Composed D.loose K f) : Represents D K (value · f) (takeOut f) := by
  match f with
  | number c => exact .number c
  | symbol _ | unknown _ _ _ =>
      refine ⟨?_, fun σ => rfl⟩
      simp only [takeOut, Composed] at composed ⊢
      exact composed
  | extremum _ _ =>
      obtain ⟨settled, guest, admits, seated⟩ := composed_extremum.1 composed
      exact ⟨composed_extremum.2 ⟨settled, guest, admits, seated⟩, fun σ => rfl⟩
  | inverse _ => exact (not_composed_inverse composed).elim
  | power base e =>
      have inside := (composed_power.1 composed).1
      have whole : takeOut (power base e) = pow (takeOut base) e := by
        cases base with
        | inverse _ => exact (not_composed_inverse inside).elim
        | _ => rfl
      rw [whole]
      exact ((represents_takeOut collected inside).pow e).of_eq fun σ => (value_power base e).symm
  | product c fs =>
      rw [takeOut]
      exact ((represents_takeOutFactors collected (composed_product.1 composed).1).scale c).of_eq
        fun σ => (value_product c fs).symm
  | sum ts =>
      have taken := represents_takeOutTerms collected (composed_sum.1 composed)
      rw [takeOut]
      refine (represents_takeOutOfSum collected taken.composed.terms).of_eq fun σ => ?_
      rw [value_terms, taken.value, value_sum]

theorem represents_takeOutTerms {ts : List (Form Int)} (collected : D.collected)
    (composed : ∀ t ∈ ts, Composed D.loose K t) :
    Represents D K (fun σ => (ts.map (value σ)).sum) (takeOutTerms ts) := by
  match ts with
  | [] => exact .number 0
  | t :: rest =>
      obtain ⟨first, others⟩ := List.forall_mem_cons.1 composed
      exact (represents_takeOut collected first).add (represents_takeOutTerms collected others)

theorem represents_takeOutFactors {fs : List (Form Int)} (collected : D.collected)
    (composed : ∀ f ∈ fs, Composed D.loose K f) :
    Represents D K (fun σ => (fs.map (value σ)).prod) (takeOutFactors fs) := by
  match fs with
  | [] => exact .number 1
  | f :: rest =>
      obtain ⟨first, others⟩ := List.forall_mem_cons.1 composed
      exact (represents_takeOut collected first).mul (represents_takeOutFactors collected others)

end

end Form

end ReverseMode
