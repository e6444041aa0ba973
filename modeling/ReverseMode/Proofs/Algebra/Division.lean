import ReverseMode.Proofs.Algebra.Coefficients

namespace ReverseMode.Form

open MvPolynomial

variable {f g t : Form Int} {ts : List (Form Int)} {P : MvPolynomial String Int}

theorem signedPower_symbolPower (p : String × Nat) :
    (symbolPower p).signedPower = (symbol p.1, (p.2 : Int)) := by
  unfold signedPower
  rw [basePower_symbolPower]

theorem IsTerm.exponentOf (term : IsTerm t) (name : String) :
    t.exponentOf (symbol name) = degrees t name := by
  obtain ⟨ps, monomial, factors⟩ := term.monomial
  have named (p : String × Nat) : (symbol p.1 : Form Int).same (symbol name) = (p.1 == name) := by
    rw [same]
  rw [degrees_monomial factors, Form.exponentOf, factors, List.find?_map]
  simp only [Function.comp_def, signedPower_symbolPower, named]
  cases found : ps.find? fun p => p.1 == name with
  | none =>
      rw [Option.map_none]
      dsimp only
      rw [exponents_absent fun known => ?_, Nat.cast_zero]
      obtain ⟨p, member, same⟩ := List.mem_map.1 known
      exact List.find?_eq_none.1 found p member (beq_iff_eq.2 same)
  | some p =>
      obtain rfl : p.1 = name := by simpa using List.find?_some found
      rw [Option.map_some]
      dsimp only
      rw [signedPower_symbolPower, monomial.powers.exponents_eq (List.mem_of_find?_eq_some found)]

theorem mem_allBases {base : Form Int} : base ∈ allBases ts ↔ ∃ t ∈ ts, base ∈ t.bases := by
  have folded : allBases ts = sorted before (dedupe (ts.flatMap bases)) := rfl
  rw [folded, (sorted_perm _ _).mem_iff, mem_dedupe, List.mem_flatMap]

theorem IsTerm.mem_bases (term : IsTerm t) {base : Form Int} :
    base ∈ t.bases ↔ ∃ name, base = symbol name ∧ degrees t name ≠ 0 := by
  obtain ⟨ps, monomial, factors⟩ := term.monomial
  rw [bases, factors, List.map_map, degrees_monomial factors, List.mem_map]
  simp only [Function.comp_def, signedPower_symbolPower]
  constructor
  · rintro ⟨p, member, rfl⟩
    have positive := monomial.positive p member
    exact ⟨p.1, rfl, by rw [monomial.powers.exponents_eq member]; omega⟩
  · rintro ⟨name, rfl, occurs⟩
    have known : name ∈ ps.map Prod.fst := by
      by_contra absent
      exact occurs (exponents_absent absent)
    obtain ⟨p, member, rfl⟩ := List.mem_map.1 known
    exact ⟨p, member, rfl⟩

theorem prod_toFinset_le (bound : String → Nat) (names : List String) :
    ∏ name ∈ names.toFinset, (bound name + 1) ≤ (names.map fun name => bound name + 1).prod := by
  induction names with
  | nil => simp
  | cons name rest ih =>
      rw [List.toFinset_cons, List.map_cons, List.prod_cons]
      by_cases known : name ∈ rest.toFinset
      · rw [Finset.insert_eq_self.2 known]
        exact ih.trans (Nat.le_mul_of_pos_left _ (Nat.succ_pos _))
      · rw [Finset.prod_insert known]
        exact Nat.mul_le_mul_left _ ih

theorem card_le_prod {names : List String} {bound : String → Nat} {support : Finset (String →₀ Nat)}
    (known : ∀ m ∈ support, ∀ name, m name ≠ 0 → name ∈ names)
    (bounded : ∀ m ∈ support, ∀ name, m name ≤ bound name) :
    support.card ≤ (names.map fun name => bound name + 1).prod := by
  classical
  let most : String →₀ Nat := Finsupp.indicator names.toFinset fun name _ => bound name
  have below : support ⊆ Finset.Iic most := by
    intro m member
    rw [Finset.mem_Iic]
    intro name
    by_cases occurs : m name = 0
    · rw [occurs]
      exact Nat.zero_le _
    · have inside : name ∈ names.toFinset := List.mem_toFinset.2 (known m member name occurs)
      rw [Finsupp.indicator_of_mem inside]
      exact bounded m member name
  calc support.card ≤ (Finset.Iic most).card := Finset.card_le_card below
    _ = ∏ name ∈ most.support, (most name + 1) := by simp [Finsupp.card_Iic]
    _ ≤ ∏ name ∈ names.toFinset, (most name + 1) :=
        Finset.prod_le_prod_of_subset_of_one_le' (Finsupp.support_indicator_subset _ _)
          fun _ _ _ => Nat.le_add_left _ _
    _ = ∏ name ∈ names.toFinset, (bound name + 1) := Finset.prod_congr rfl fun name inside => by
        rw [Finsupp.indicator_of_mem inside]
    _ ≤ _ := prod_toFinset_le bound names

theorem length_le_steps (expanded : Expanded f) (denotes : Denotes f P) (k : Int) :
    f.terms.length ≤ (allBases (f.terms ++ (number k).terms)).foldl (fun n base =>
      n * (f.terms.foldl (fun m t => max m (t.exponentOf base).toNat) 0 + 1)) 1 := by
  generalize isOrder : allBases (f.terms ++ (number k).terms) = order
  have numbers : ∀ t ∈ (number k).terms, IsTerm t := (expanded_number k).terms
  have terms : ∀ t ∈ f.terms ++ (number k).terms, IsTerm t := fun t member =>
    (List.mem_append.1 member).elim (expanded.terms t) (numbers t)
  have isBase {base : Form Int} : base ∈ order ↔
      ∃ t ∈ f.terms ++ (number k).terms, ∃ name, base = symbol name ∧ degrees t name ≠ 0 := by
    rw [← isOrder, mem_allBases]
    exact exists_congr fun t => and_congr_right fun member => (terms t member).mem_bases
  obtain ⟨names, rfl⟩ : ∃ names : List String, names.map symbol = order := by
    refine (Set.range_list_map (f := Form.symbol)).ge fun base member => ?_
    obtain ⟨_, _, name, rfl, _⟩ := isBase.1 member
    exact ⟨name, rfl⟩
  have monomials {m : String →₀ Nat} (member : m ∈ P.support) : ∃ t ∈ f.terms, degrees t = m :=
    (expanded.mem_support denotes m).1 member
  rw [List.foldl_map, expanded.length_terms denotes]
  refine (@card_le_prod names (fun name => f.terms.foldl
    (fun m t => max m (t.exponentOf (symbol name)).toNat) 0) P.support ?_ ?_).trans_eq ?_
  · intro m member name occurs
    obtain ⟨t, inside, rfl⟩ := monomials member
    have known := isBase.2 ⟨t, List.mem_append_left _ inside, name, rfl, occurs⟩
    obtain ⟨other, among, same⟩ := List.mem_map.1 known
    exact Form.symbol.inj same ▸ among
  · intro m member name
    obtain ⟨t, inside, rfl⟩ := monomials member
    have bounded := le_foldl_max (g := fun t => (t.exponentOf (symbol name)).toNat) inside
    rwa [(expanded.terms t inside).exponentOf, Int.toNat_natCast] at bounded
  · rw [List.prod_eq_foldl, List.foldl_map]

theorem Expanded.add_ne (left : Expanded f) (right : Expanded g) : f.add g ≠ sum [] := by
  unfold Form.add
  split
  · exact fun absurd => nomatch absurd
  · have merged := Multiples.mergeTerms right.terms left
    generalize (g.terms.foldl (fun collected t => mergeTerm t collected) f.terms) = ts at merged
    match ts with
    | [] => exact fun absurd => nomatch absurd
    | [t] => exact (merged.terms t (.head _)).ne_sum []
    | s :: t :: rest =>
        intro empty
        have none : sortTerms (s :: t :: rest) = [] := Form.sum.inj empty
        have perm := perm_sortTerms (s :: t :: rest)
        rw [none] at perm
        exact nomatch List.nil_perm.1 perm

theorem divideMonomial?_unit (term : IsTerm t) {k : Int} (isUnit : k = 1 ∨ k = -1) :
    ∃ quotient, divideMonomial? t (number k) = some quotient ∧ IsTerm quotient ∧
      Denotes quotient (C k * termPolynomial t) := by
  have unchanged : t.split.2.flatMap (lowerExponent []) = t.split.2 := by
    change t.split.2.flatMap (fun f => [f]) = t.split.2
    simp
  have divided : Coefficient.divide? t.split.1 k = some (k * t.split.1) := by
    change (if k ≠ 0 ∧ t.split.1 % k = 0 then some (t.split.1 / k) else none) = _
    rcases isUnit with rfl | rfl <;> simp
  have nonzero : k * t.split.1 ≠ 0 := by
    rcases isUnit with rfl | rfl <;> simpa using term.nonzero
  obtain ⟨joined, isSplit⟩ := term.join nonzero
  refine ⟨join (k * t.split.1) t.split.2, ?_, joined, fun names => ?_⟩
  · change ((Coefficient.divide? t.split.1 k).bind fun q =>
      some (join q (t.split.2.flatMap (lowerExponent [])))) = _
    rw [divided, unchanged, Option.bind_some]
  · rw [value_join, map_mul, eval_C, ← term.denotes names, value_split t, mul_assoc]

theorem card_support_sub {t : Form Int} (coefficient : coeff (degrees t) P = t.split.1)
    (nonzero : t.split.1 ≠ 0) : (P - termPolynomial t).support.card < P.support.card := by
  have occurs : degrees t ∈ P.support := by rwa [mem_support_iff, coefficient]
  refine Finset.card_lt_card (Finset.ssubset_iff_subset_ne.2 ⟨fun m inside => ?_, fun same => ?_⟩)
  · rw [mem_support_iff, MvPolynomial.coeff_sub, termPolynomial, coeff_monomial] at inside
    by_cases isDegrees : degrees t = m
    · exact isDegrees ▸ occurs
    · rwa [if_neg isDegrees, sub_zero, ← mem_support_iff] at inside
  · rw [← same, mem_support_iff, MvPolynomial.coeff_sub, termPolynomial, coeff_monomial,
      if_pos rfl, coefficient, sub_self] at occurs
    exact occurs rfl

theorem divideSteps_unit (order : List (Form Int)) {k : Int} (isUnit : k = 1 ∨ k = -1) (steps : Nat)
    (expanded : Expanded f) (denotes : Denotes f P) (enough : f.terms.length ≤ steps) :
    ∃ quotient, divideSteps order (number k) steps f = some quotient ∧ Expanded quotient ∧
      quotient ≠ sum [] ∧ Denotes quotient (C k * P) := by
  have nonzero : k ≠ 0 := by rcases isUnit with rfl | rfl <;> decide
  have square : k * k = 1 := by rcases isUnit with rfl | rfl <;> rfl
  have divisor : (number k).terms = [number k] := if_neg (by simpa using nonzero)
  induction steps generalizing f P with
  | zero =>
      have empty := List.length_eq_zero_iff.1 (Nat.le_zero.1 enough)
      refine ⟨ofInt 0, ?_, expanded_number 0, fun absurd => (nomatch absurd), ?_⟩
      · rw [divideSteps, empty]
        rfl
      · rw [denotes.eq_zero empty, mul_zero, ← C_0]
        exact Denotes.number 0
  | succ steps ih =>
      rw [divideSteps]
      cases found : leadingTerm? order f.terms with
      | none =>
          refine ⟨ofInt 0, rfl, expanded_number 0, fun absurd => (nomatch absurd), ?_⟩
          rw [denotes.eq_zero (leadingTerm?_eq_none found), mul_zero, ← C_0]
          exact Denotes.number 0
      | some t =>
          have member := leadingTerm?_mem found
          have term := expanded.terms t member
          obtain ⟨quotient, divided, isTerm, denotesQuotient⟩ := divideMonomial?_unit term isUnit
          have smaller := expanded.sub (isTerm.expanded.distribute (expanded_number k))
          have remainder : Denotes (f.sub (distribute quotient (number k))) (P - termPolynomial t) := by
            intro names
            rw [value_sub, value_distribute, denotes, denotesQuotient, value_number, map_sub, map_mul,
              eval_C, mul_right_comm, square, one_mul]
          have fewer := card_support_sub (expanded.coeff_term denotes member) term.nonzero
          rw [← smaller.length_terms remainder, ← expanded.length_terms denotes] at fewer
          obtain ⟨rest, isRest, expandedRest, _, denotesRest⟩ := ih smaller remainder (by omega)
          refine ⟨quotient.add rest, ?_, isTerm.expanded.add expandedRest,
            isTerm.expanded.add_ne expandedRest, ?_⟩
          · simp only [divisor, leadingTerm?, divided, isRest, Option.bind_eq_bind, Option.bind_some]
          · have sum := denotesQuotient.add denotesRest
            rwa [← mul_add, add_sub_cancel] at sum

theorem divide?_unit {k : Int} (isUnit : k = 1 ∨ k = -1) (expanded : Expanded f)
    (denotes : Denotes f P) : ∃ quotient, f.divide? (number k) = some quotient ∧
      Expanded quotient ∧ quotient ≠ sum [] ∧ Denotes quotient (C k * P) := by
  have nonzero : k ≠ 0 := by rcases isUnit with rfl | rfl <;> decide
  have present : (number k).terms.isEmpty = false := by
    rw [Form.terms, if_neg (by simpa using nonzero)]
    rfl
  rw [divide?, present, if_neg Bool.false_ne_true]
  exact divideSteps_unit _ isUnit _ expanded denotes (length_le_steps expanded denotes k)

end ReverseMode.Form
