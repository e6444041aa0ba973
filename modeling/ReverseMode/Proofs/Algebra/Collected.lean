import ReverseMode.Proofs.Algebra.Sorting

namespace ReverseMode

namespace Form

def symbol? (t : Form Int) : Option String :=
  match t.split.2 with
  | [symbol name] => some name
  | _ => none

inductive AffineTerm : Form Int → Prop where
  | constant {c : Int} : c ≠ 0 → AffineTerm (number c)
  | bare {name : String} : AffineTerm (symbol name)
  | multiple {c : Int} {name : String} : c ≠ 0 → c ≠ 1 → AffineTerm (product c [symbol name])

namespace AffineTerm

variable {s t : Form Int}

theorem factors (term : AffineTerm t) : t.split.2 = (t.symbol?.map symbol).toList := by
  cases term <;> rfl

theorem nonzero (term : AffineTerm t) : t.split.1 ≠ 0 := by
  cases term with
  | constant isNonzero => exact isNonzero
  | bare => exact Int.one_ne_zero
  | multiple isNonzero _ => exact isNonzero

theorem eq (left : AffineTerm s) (right : AffineTerm t) (same : s.symbol? = t.symbol?)
    (coefficient : s.split.1 = t.split.1) : s = t := by
  cases left <;> cases right <;> simp_all [symbol?, split]

theorem same_factors (left : AffineTerm s) (right : AffineTerm t) :
    allSame s.split.2 t.split.2 = true ↔ s.symbol? = t.symbol? := by
  refine ⟨fun same => ?_, fun same => ?_⟩
  · simp only [symbol?, eq_of_allSame _ _ same]
  · rw [left.factors, right.factors, same]
    exact allSame_self _

theorem join (term : AffineTerm t) {c : Int} (isNonzero : c ≠ 0) :
    AffineTerm (Form.join c t.split.2) ∧ (Form.join c t.split.2).symbol? = t.symbol? ∧
      (Form.join c t.split.2).split.1 = c := by
  have ofSymbol (name : String) : AffineTerm (Form.join c [symbol name]) ∧
      (Form.join c [symbol name]).symbol? = some name ∧
        (Form.join c [symbol name]).split.1 = c := by
    by_cases isOne : c = 1
    · subst isOne
      exact ⟨.bare, rfl, rfl⟩
    · have joined : Form.join c [symbol name] = product c [symbol name] := by
        simp [Form.join, isNonzero, isOne]
      rw [joined]
      exact ⟨.multiple isNonzero isOne, rfl, rfl⟩
  cases term with
  | constant _ =>
      have joined : Form.join c [] = number c := by simp [Form.join]
      exact joined ▸ ⟨.constant isNonzero, rfl, rfl⟩
  | bare => exact ofSymbol _
  | multiple _ _ => exact ofSymbol _

theorem terms (term : AffineTerm t) : t.terms = [t] := by
  cases term with
  | constant isNonzero => simp [Form.terms, isNonzero]
  | bare | multiple _ _ => rfl

end AffineTerm

structure Collected (ts : List (Form Int)) : Prop where
  terms : ∀ t ∈ ts, AffineTerm t
  distinct : (ts.map symbol?).Nodup

namespace Collected

variable {t : Form Int} {ts us : List (Form Int)}

theorem nil : Collected [] := ⟨fun _ member => (nomatch member), List.nodup_nil⟩

theorem cons_iff : Collected (t :: ts) ↔
    AffineTerm t ∧ t.symbol? ∉ ts.map symbol? ∧ Collected ts :=
  ⟨fun collected => ⟨collected.terms t (.head _), (List.nodup_cons.1 collected.distinct).1,
    fun s member => collected.terms s (.tail _ member), (List.nodup_cons.1 collected.distinct).2⟩,
    fun ⟨term, new, collected⟩ => ⟨List.forall_mem_cons.2 ⟨term, collected.terms⟩,
      List.nodup_cons.2 ⟨new, collected.distinct⟩⟩⟩

theorem singleton (term : AffineTerm t) : Collected [t] :=
  cons_iff.2 ⟨term, List.not_mem_nil, nil⟩

theorem perm (collected : Collected ts) (perm : ts.Perm us) : Collected us :=
  ⟨fun t member => collected.terms t (perm.mem_iff.2 member),
    (perm.map symbol?).nodup_iff.1 collected.distinct⟩

theorem eq_of_symbol (collected : Collected ts) {s : Form Int} (left : s ∈ ts) (right : t ∈ ts)
    (same : s.symbol? = t.symbol?) : s = t := List.inj_on_of_nodup_map collected.distinct left right same

theorem mergeTerm (term : AffineTerm t) (collected : Collected ts) :
    Collected (Form.mergeTerm t ts) ∧
      ∀ m ∈ (Form.mergeTerm t ts).map symbol?, m = t.symbol? ∨ m ∈ ts.map symbol? := by
  induction ts with
  | nil => exact ⟨singleton term, fun m member => .inl (by simpa [Form.mergeTerm] using member)⟩
  | cons s rest ih =>
      obtain ⟨termHead, new, collectedRest⟩ := cons_iff.1 collected
      simp only [Form.mergeTerm, add_int, isZeroNumber_int, beq_iff_eq]
      split
      next =>
        split
        next => exact ⟨collectedRest, fun m member => .inr (.tail _ member)⟩
        next isNonzero =>
          obtain ⟨joined, sameSymbol, _⟩ := termHead.join isNonzero
          refine ⟨cons_iff.2 ⟨joined, sameSymbol ▸ new, collectedRest⟩, fun m member => .inr ?_⟩
          rwa [List.map_cons, sameSymbol] at member
      next differ =>
        obtain ⟨merged, origin⟩ := ih collectedRest
        refine ⟨cons_iff.2 ⟨termHead, fun member => ?_, merged⟩, fun m member => ?_⟩
        · rcases origin _ member with same | old
          · exact differ ((term.same_factors termHead).2 same.symm)
          · exact new old
        · rw [List.map_cons, List.mem_cons] at member ⊢
          rcases member with rfl | later
          · exact .inr (.inl rfl)
          · exact (origin m later).imp_right .inr

theorem mergeTerms (added : Collected us) (collected : Collected ts) :
    Collected (us.foldl (fun collected t => Form.mergeTerm t collected) ts) := by
  have each := added.terms
  clear added
  induction us generalizing ts with
  | nil => exact collected
  | cons u rest ih =>
      obtain ⟨first, others⟩ := List.forall_mem_cons.1 each
      exact ih (mergeTerm first collected).1 others

end Collected

section

variable {t : Form Int} {ts us : List (Form Int)}

theorem AffineTerm.bases (term : AffineTerm t) : t.bases = (t.symbol?.map symbol).toList := by
  cases term <;> rfl

theorem AffineTerm.exponentOf (term : AffineTerm t) (name : String) :
    t.exponentOf (symbol name) = if t.symbol? = some name then 1 else 0 := by
  have single (other : String) :
      (symbol other : Form Int).exponentOf (symbol name) = if other = name then 1 else 0 := by
    by_cases isName : other = name <;>
      simp [Form.exponentOf, split, signedPower, basePower, same, isName]
  cases term with
  | constant _ => rfl
  | bare => simp [single, symbol?, split]
  | @multiple c other _ _ =>
      have multiple : (product c [symbol other] : Form Int).exponentOf (symbol name) =
          (symbol other : Form Int).exponentOf (symbol name) := rfl
      simp [multiple, single, symbol?, split]

theorem Collected.allBases (collected : Collected ts) :
    allBases ts = (sorted (fun a b => decide (a ≤ b)) (ts.filterMap symbol?)).map symbol := by
  have bases : ts.flatMap bases = (ts.filterMap symbol?).map symbol := by
    have terms := collected.terms
    clear collected
    induction ts with
    | nil => rfl
    | cons t rest ih =>
        obtain ⟨first, others⟩ := List.forall_mem_cons.1 terms
        rw [List.flatMap_cons, first.bases, ih others, List.filterMap_cons]
        cases t.symbol? <;> rfl
  have distinct : ((ts.filterMap symbol?).map symbol : List (Form Int)).Nodup := by
    refine List.Nodup.map (fun a b same => Form.symbol.inj same) ?_
    have filtered : ts.filterMap symbol? = (ts.map symbol?).filterMap id := by
      rw [List.filterMap_map]
      rfl
    rw [filtered]
    refine List.Nodup.filterMap (fun a b c inA inB => ?_) collected.distinct
    exact inA.trans inB.symm
  have folded : Form.allBases ts = sorted before (dedupe (ts.flatMap Form.bases)) := rfl
  rw [folded, bases, dedupe_of_nodup distinct]
  exact sorted_map before_symbol _

theorem difference_cases (difference : isDifferenceFromNumber ts = true) :
    ∃ c d f, ts = [number c, product d [f]] ∨ ts = [product d [f], number c] := by
  unfold isDifferenceFromNumber at difference
  split at difference
  next c d f => exact ⟨c, d, f, .inl rfl⟩
  next d f c => exact ⟨c, d, f, .inr rfl⟩
  next => cases difference

theorem sortTerms_of_difference (difference : isDifferenceFromNumber ts = true)
    (perm : ts.Perm us) : isDifferenceFromNumber us = true ∧ sortTerms ts = sortTerms us := by
  have ordered {c d : Int} {f : Form Int} {ts : List (Form Int)}
      (difference : isDifferenceFromNumber ts = true)
      (isPair : ts = [number c, product d [f]] ∨ ts = [product d [f], number c]) :
      sortTerms ts = [number c, product d [f]] := by
    rw [sortTerms, if_pos difference]
    rcases isPair with rfl | rfl <;> rfl
  obtain ⟨c, d, f, isPair⟩ := difference_cases difference
  have isPair' : us = [number c, product d [f]] ∨ us = [product d [f], number c] := by
    rcases isPair with rfl | rfl
    · exact List.pair_perm.1 perm
    · exact (List.pair_perm.1 perm).symm
  have difference' : isDifferenceFromNumber us = true := by
    rcases isPair with rfl | rfl <;> rcases isPair' with rfl | rfl <;> exact difference
  exact ⟨difference', (ordered difference isPair).trans (ordered difference' isPair').symm⟩

theorem Collected.sortTerms_eq (collected : Collected ts) (perm : ts.Perm us) :
    sortTerms ts = sortTerms us := by
  by_cases difference : isDifferenceFromNumber ts = true
  · exact (sortTerms_of_difference difference perm).2
  · have noDifference : ¬ isDifferenceFromNumber us = true := fun same =>
      difference (sortTerms_of_difference same perm.symm).1
    have sameBases : Form.allBases ts = Form.allBases us := by
      rw [collected.allBases, (collected.perm perm).allBases]
      refine congrArg (List.map symbol) (sorted_congr ?_ ?_ ?_ (perm.filterMap symbol?))
      · exact fun a b => by simpa using le_total a b
      · exact fun a b c first second => by simpa using le_trans (by simpa using first) (by simpa using second)
      · exact fun a _ b _ first second => le_antisymm (by simpa using first) (by simpa using second)
    rw [sortTerms, sortTerms, if_neg difference, if_neg noDifference, ← sameBases]
    refine sorted_congr (fun s t => leads_total _ _ _) (fun s t u => leads_trans) ?_ perm
    intro s inS t inT first second
    have sameExponents := leads_antisymm first second
    have reflected {name : String} (known : some name ∈ ts.map symbol?) :
        s.symbol? = some name ↔ t.symbol? = some name := by
      have isBase : (symbol name : Form Int) ∈ Form.allBases ts := by
        rw [collected.allBases]
        refine List.mem_map_of_mem ((sorted_perm _ _).mem_iff.2 (List.mem_filterMap.2 ?_))
        exact List.mem_map.1 known
      have same := sameExponents _ isBase
      rw [(collected.terms s inS).exponentOf, (collected.terms t inT).exponentOf] at same
      split at same <;> split at same <;> simp_all
    refine collected.eq_of_symbol inS inT (Option.ext fun name => ⟨fun isName => ?_, fun isName => ?_⟩)
    · exact (reflected (isName ▸ List.mem_map_of_mem inS)).1 isName
    · exact (reflected (isName ▸ List.mem_map_of_mem inT)).2 isName

theorem Collected.ofTerms_eq (collected : Collected ts) (perm : ts.Perm us) :
    ofTerms ts = ofTerms us := by
  match ts, us, perm.length_eq with
  | [], [], _ => rfl
  | [t], [u], _ => exact List.singleton_perm_singleton.1 perm
  | _ :: _ :: _, _ :: _ :: _, _ => exact congrArg sum (collected.sortTerms_eq perm)

theorem Collected.terms_ofTerms (collected : Collected ts) : (ofTerms ts).terms.Perm ts := by
  match ts with
  | [] => exact .refl _
  | [t] => exact .of_eq (collected.terms t (.head _)).terms
  | _ :: _ :: _ => exact perm_sortTerms _

end

/-- A form whose terms are collected and stand in the order in which they are written. -/
structure Canonical (f : Form Int) : Prop where
  collected : Collected f.terms
  ordered : ofTerms f.terms = f

section

variable {f g t : Form Int} {ts : List (Form Int)}

theorem Collected.canonical (collected : Collected ts) : Canonical (ofTerms ts) where
  collected := collected.perm collected.terms_ofTerms.symm
  ordered := (collected.ofTerms_eq collected.terms_ofTerms.symm).symm

theorem AffineTerm.canonical (term : AffineTerm t) : Canonical t := (Collected.singleton term).canonical

theorem canonical_number (c : Int) : Canonical (number c) := by
  by_cases isZero : c = 0
  · subst isZero
    exact Collected.nil.canonical
  · exact (AffineTerm.constant isZero).canonical

namespace Canonical

theorem cases (canonical : Canonical f) :
    f = number 0 ∨ AffineTerm f ∨ ∃ ts, f = sum ts ∧ Collected ts := by
  obtain ⟨collected, _⟩ := canonical
  match f with
  | sum ts => exact .inr (.inr ⟨ts, rfl, collected⟩)
  | number c =>
      by_cases isZero : c = 0
      · exact .inl (by rw [isZero])
      · exact .inr (.inl (.constant isZero))
  | symbol _ | unknown _ _ _ | extremum _ _ | inverse _ | power _ _ | product _ _ =>
      exact .inr (.inl (collected.terms _ (.head _)))

theorem add (left : Canonical f) (right : Canonical g) : Canonical (f.add g) := by
  unfold Form.add
  split
  · exact canonical_number _
  · exact (Collected.mergeTerms right.collected left.collected).canonical

theorem scale (canonical : Canonical f) (c : Int) : Canonical (Form.scale c f) := by
  unfold Form.scale
  split
  next => exact canonical_number 0
  next isNonzero =>
    have nonzero : c ≠ 0 := by simpa using isNonzero
    have scaled {t : Form Int} (term : AffineTerm t) :
        AffineTerm (scaleTerm c t) ∧ (scaleTerm c t).symbol? = t.symbol? :=
      have joined := term.join (mul_ne_zero nonzero term.nonzero)
      ⟨joined.1, joined.2.1⟩
    rcases canonical.cases with rfl | term | ⟨ts, rfl, collected⟩
    · have scaledZero : scaleTerm c (number 0) = number 0 := by simp [scaleTerm, split, Form.join]
      dsimp only
      rw [scaledZero]
      exact canonical_number 0
    · have isTerm := (scaled term).1.canonical
      cases term <;> exact isTerm
    · have kept : (ts.map (scaleTerm c)).filter (fun t => !t.terms.isEmpty) = ts.map (scaleTerm c) := by
        refine List.filter_eq_self.2 fun t member => ?_
        obtain ⟨s, inside, rfl⟩ := List.mem_map.1 member
        rw [(scaled (collected.terms s inside)).1.terms]
        rfl
      dsimp only
      rw [kept]
      refine Collected.canonical ⟨fun t member => ?_, ?_⟩
      · obtain ⟨s, inside, rfl⟩ := List.mem_map.1 member
        exact (scaled (collected.terms s inside)).1
      · have symbols : (ts.map (scaleTerm c)).map symbol? = ts.map symbol? := by
          rw [List.map_map]
          exact List.map_congr_left fun s inside => (scaled (collected.terms s inside)).2
        rw [symbols]
        exact collected.distinct

theorem sub (left : Canonical f) (right : Canonical g) : Canonical (f.sub g) := by
  unfold Form.sub
  split
  · exact canonical_number _
  · exact left.add (right.scale (-1))

theorem number_mul (canonical : Canonical f) (c : Int) : Canonical ((number c).mul f) :=
  canonical.scale c

theorem mul_number (canonical : Canonical f) (c : Int) : Canonical (f.mul (number c)) := by
  change Canonical (if f.split.2.isEmpty then Form.scale f.split.1 (number c) else Form.scale c f)
  split
  · exact (canonical_number c).scale _
  · exact canonical.scale c

end Canonical

def unitOf (m : Option String) : String → Int := fun name => if m = some name then 1 else 0

def coefficient (m : Option String) (f : Form Int) : Int :=
  match m with
  | none => value (unitOf none) f
  | some name => value (unitOf (some name)) f - value (unitOf none) f

theorem AffineTerm.coefficient (term : AffineTerm t) (m : Option String) :
    coefficient m t = if t.symbol? = m then t.split.1 else 0 := by
  cases term <;> cases m <;> simp [Form.coefficient, unitOf, symbol?, split, eq_comm]

theorem coefficient_terms (m : Option String) (f : Form Int) :
    coefficient m f = (f.terms.map (coefficient m)).sum := by
  cases m with
  | none => exact (value_terms f).symm
  | some name =>
      have difference (σ τ : String → Int) (ts : List (Form Int)) :
          (ts.map (value σ)).sum - (ts.map (value τ)).sum =
            (ts.map fun t => value σ t - value τ t).sum := by
        induction ts with
        | nil => rfl
        | cons t rest ih =>
            simp only [List.map_cons, List.sum_cons, ← ih]
            ring
      exact (congrArg₂ (· - ·) (value_terms f) (value_terms f)).symm.trans (difference _ _ _)

theorem Collected.coefficient (collected : Collected ts) (m : Option String) :
    (m ∉ ts.map symbol? → (ts.map (coefficient m)).sum = 0) ∧
      ∀ t ∈ ts, t.symbol? = m → (ts.map (coefficient m)).sum = t.split.1 := by
  induction ts with
  | nil => exact ⟨fun _ => rfl, fun t member => (nomatch member)⟩
  | cons s rest ih =>
      obtain ⟨term, new, collectedRest⟩ := cons_iff.1 collected
      obtain ⟨absent, present⟩ := ih collectedRest
      rw [List.map_cons, List.map_cons, List.sum_cons, term.coefficient]
      refine ⟨fun missing => ?_, fun t member isSymbol => ?_⟩
      · rw [List.mem_cons, not_or] at missing
        rw [if_neg (Ne.symm missing.1), absent missing.2, add_zero]
      · rcases List.mem_cons.1 member with rfl | later
        · rw [if_pos isSymbol, absent (isSymbol ▸ new), add_zero]
        · have differ : s.symbol? ≠ m := fun same =>
            new (same ▸ isSymbol ▸ List.mem_map_of_mem later)
          rw [if_neg differ, zero_add, present t later isSymbol]

theorem Canonical.eq_of_value (left : Canonical f) (right : Canonical g)
    (same : ∀ σ : String → Int, value σ f = value σ g) : f = g := by
  have sameCoefficient (m : Option String) :
      (f.terms.map (coefficient m)).sum = (g.terms.map (coefficient m)).sum := by
    rw [← coefficient_terms, ← coefficient_terms]
    cases m <;> simp only [coefficient, same]
  have among {f g : Form Int} (left : Canonical f) (right : Canonical g)
      (same : ∀ m, (f.terms.map (coefficient m)).sum = (g.terms.map (coefficient m)).sum)
      {t : Form Int} (member : t ∈ f.terms) : t ∈ g.terms := by
    have term := left.collected.terms t member
    have isCoefficient := (left.collected.coefficient t.symbol?).2 t member rfl
    rw [same] at isCoefficient
    have known : t.symbol? ∈ g.terms.map symbol? := by
      by_contra missing
      exact term.nonzero (isCoefficient.symm.trans ((right.collected.coefficient _).1 missing))
    obtain ⟨u, inside, sameSymbol⟩ := List.mem_map.1 known
    have sameNumber := (right.collected.coefficient t.symbol?).2 u inside sameSymbol
    rw [← (right.collected.terms u inside).eq term sameSymbol (sameNumber.symm.trans isCoefficient)]
    exact inside
  have perm : f.terms.Perm g.terms := by
    refine (List.perm_ext_iff_of_nodup (List.Nodup.of_map _ left.collected.distinct)
      (List.Nodup.of_map _ right.collected.distinct)).2 fun t => ⟨?_, ?_⟩
    · exact among left right sameCoefficient
    · exact among right left fun m => (sameCoefficient m).symm
  rw [← left.ordered, ← right.ordered, left.collected.ofTerms_eq perm]

end

end Form

end ReverseMode
