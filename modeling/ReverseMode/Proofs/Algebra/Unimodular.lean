import Mathlib.Algebra.MvPolynomial.Nilpotent
import Mathlib.Algebra.MvPolynomial.PDeriv
import ReverseMode.Proofs.Algebra.Division

namespace ReverseMode.Form

open MvPolynomial

variable {f g : Form Int} {fresh name : String} {P Q A : MvPolynomial String Int}

theorem pderiv_coefficient {k : Nat} (differ : fresh ≠ name) (free : fresh ∉ A.vars)
    (isCoefficient : IsCoefficient name k (X fresh - A) Q) :
    pderiv fresh Q = if k = 0 then 1 else 0 := by
  have apart (m : String →₀ Nat) (occurs : m name ≠ 0) : Finsupp.single fresh 1 ≠ m := by
    rintro rfl
    exact occurs (Finsupp.single_eq_of_ne differ.symm)
  have rest : fresh ∉ (Q - if k = 0 then X fresh else 0).vars := by
    refine notMem_vars fun m occurs => ?_
    have absent : coeff (m + Finsupp.single name k) A = 0 := by
      refine coeff_of_notMem_vars free ?_
      rwa [Finsupp.add_apply, Finsupp.single_eq_of_ne differ, add_zero]
    rw [MvPolynomial.coeff_sub, isCoefficient m, MvPolynomial.coeff_sub, absent, sub_zero, coeff_X]
    by_cases constant : k = 0
    · rw [if_pos constant, coeff_X, constant, Finsupp.single_zero, add_zero]
      by_cases inside : m name = 0
      · rw [if_pos inside, sub_self]
      · rw [if_neg inside, if_neg (apart m inside), sub_zero]
    · have deeper : (m + Finsupp.single name k) name ≠ 0 := by
        rw [Finsupp.add_apply, Finsupp.single_eq_same]
        omega
      rw [if_neg constant, if_neg (apart _ deeper), ite_self, MvPolynomial.coeff_zero, sub_zero]
  have sum : Q = (if k = 0 then X fresh else 0) + (Q - if k = 0 then X fresh else 0) := by ring
  rw [sum, map_add, pderiv_eq_zero_of_notMem_vars rest, add_zero]
  split
  · exact pderiv_X_self fresh
  · exact map_zero _

/-- The variable occurs once in the polynomial, and its coefficient is a unit. -/
def Unimodular (name : String) (P : MvPolynomial String Int) : Prop :=
  ∃ (c : Int) (q : MvPolynomial String Int), (c = 1 ∨ c = -1) ∧ name ∉ q.vars ∧ P = C c * X name + q

theorem unit_of_divides {R : MvPolynomial String Int} (divides : R * P = Q)
    (free : pderiv fresh P = 0) (once : pderiv fresh Q = 1 ∨ pderiv fresh Q = -1) : IsUnit P := by
  rw [← divides, pderiv_mul, free, mul_zero, add_zero] at once
  rcases once with one | minus
  · exact IsUnit.of_mul_eq_one _ ((mul_comm _ _).trans one)
  · exact IsUnit.of_mul_eq_one (-pderiv fresh R) (by rw [mul_neg, mul_comm, minus, neg_neg])

theorem int_of_isUnit (isUnit : IsUnit P) : ∃ c : Int, (c = 1 ∨ c = -1) ∧ P = C c := by
  obtain ⟨c, unit, isConstant⟩ := isUnit_iff_eq_C_of_isReduced.1 isUnit
  exact ⟨c, Int.isUnit_iff.1 unit, isConstant⟩

theorem unimodular_of_coefficient {c : Int} (unit : c = 1 ∨ c = -1) (differ : fresh ≠ name)
    (isCoefficient : IsCoefficient name 1 (X fresh - A) (C c))
    (degree : ∀ m, 2 ≤ m name → coeff m (X fresh - A) = 0) : Unimodular name A := by
  refine ⟨-c, A - C (-c) * X name, by omega, notMem_vars fun m occurs => ?_, by ring⟩
  have apart : Finsupp.single fresh 1 ≠ m := by
    rintro rfl
    exact occurs (Finsupp.single_eq_of_ne differ.symm)
  have coefficient : coeff m (X fresh - A) = if Finsupp.single name 1 = m then c else 0 := by
    by_cases single : m name = 1
    · have told := isCoefficient (m.erase name)
      rw [Finsupp.erase_same, if_pos rfl, coeff_C] at told
      have whole : m.erase name + Finsupp.single name 1 = m := by
        rw [← single]
        exact Finsupp.erase_add_single name m
      rw [whole] at told
      rw [← told]
      refine if_congr ⟨fun empty => ?_, fun same => ?_⟩ rfl rfl
      · rw [← whole, ← empty, zero_add]
      · rw [← same, Finsupp.erase_single]
    · rw [degree m (by omega), if_neg]
      rintro rfl
      exact single Finsupp.single_eq_same
  rw [MvPolynomial.coeff_sub, coeff_X, if_neg apart, zero_sub] at coefficient
  rw [MvPolynomial.coeff_sub, coeff_C_mul, coeff_X]
  split at coefficient
  next same => rw [if_pos same]; omega
  next different => rw [if_neg different]; omega

theorem value_repeatedRoot? {root : Form Int} {cs : List (Form Int)} {σ : Assignment}
    (found : repeatedRoot? name f cs = some root) : ∃ leading, cs[cs.length - 1]? = some leading ∧
      value σ leading * (σ name - value σ root) ^ (cs.length - 1) = value σ f := by
  simp only [repeatedRoot?, Option.bind_eq_bind, Option.bind_eq_some_iff] at found
  obtain ⟨leading, last, next, _, candidate, _, answer⟩ := found
  split at answer
  next vanishes =>
    rw [← Option.some.inj answer]
    refine ⟨leading, by rw [← List.getLast?_eq_getElem?, last], ?_⟩
    have zero : value σ ((distribute leading
        (distributePower ((symbol name).sub candidate) (cs.length - 1))).sub f) = 0 :=
      value_eq_zero_of_terms (List.isEmpty_iff.1 vanishes)
    rw [value_sub, value_distribute, value_distributePower, value_sub, value_symbol] at zero
    exact sub_eq_zero.1 zero
  next => cases answer

theorem not_repeated {L R : MvPolynomial String Int} {d : Nat} (several : 2 ≤ d)
    (free : pderiv fresh L = 0) (absent : fresh ∉ A.vars) (differ : fresh ≠ name) :
    L * (X name - R) ^ d ≠ X fresh - A := by
  intro repeated
  have derived := congrArg (pderiv fresh) repeated
  rw [pderiv_mul, free, zero_mul, zero_add, pderiv_pow, map_sub, map_sub, pderiv_X_self,
    pderiv_X_of_ne differ.symm, pderiv_eq_zero_of_notMem_vars absent] at derived
  have isUnit : IsUnit (C (d : Int) : MvPolynomial String Int) := by
    refine IsUnit.of_mul_eq_one (L * (X name - R) ^ (d - 1) * (0 - pderiv fresh R)) ?_
    rw [← sub_zero (1 : MvPolynomial String Int), ← derived, map_natCast]
    ring
  obtain ⟨c, unit, same⟩ := int_of_isUnit isUnit
  have := C_injective _ _ same
  omega

theorem onlyRoot?_unimodular {whole : Bool} {root : Form Int} (expanded : Expanded f)
    (denotes : Denotes f (X fresh - A)) (differ : fresh ≠ name) (free : fresh ∉ A.vars)
    (found : onlyRoot? name whole f = some root) (polynomial : root.isIntegerPolynomial = true) :
    Unimodular name A := by
  have coefficients := coefficientsIn_sound expanded denotes name
  obtain ⟨R, denotesRoot⟩ := denotes_of_isIntegerPolynomial polynomial
  unfold onlyRoot? at found
  dsimp only at found
  generalize coefficientsIn name f = cs at coefficients found
  -- The fresh name occurs in the constant coefficient alone, and once.
  have derived {k : Nat} {c : Form Int} (known : cs[k]? = some c) :
      ∃ Q, Denotes c Q ∧ pderiv fresh Q = (if k = 0 then 1 else 0) ∧
        IsCoefficient name k (X fresh - A) Q := by
    obtain ⟨_, Q, denotesC, isCoefficient⟩ := coefficients.each k c known
    exact ⟨Q, denotesC, pderiv_coefficient differ free isCoefficient, isCoefficient⟩
  match cs with
  | [] => exact (coefficients.nonempty rfl).elim
  | b :: rest =>
    obtain ⟨B, denotesB, once, _⟩ := derived (k := 0) (c := b) rfl
    rw [if_pos rfl] at once
    have nonzero : isZeroForm b = false := by
      rw [Bool.eq_false_iff]
      intro isZero
      rw [denotesB.eq_zero (List.isEmpty_iff.1 isZero), map_zero] at once
      exact zero_ne_one once
    have whole : (b :: rest).dropWhile isZeroForm = b :: rest := by
      rw [List.dropWhile_cons, nonzero, if_neg Bool.false_ne_true]
    rw [whole] at found
    simp only [lt_irrefl, if_false] at found
    have notNumber : integerValue? b = none := by
      cases b with
      | number n =>
          rw [denotesB.unique (Denotes.number n), pderiv_C] at once
          exact (zero_ne_one once).elim
      | _ => rfl
    match rest with
    | [] => cases found
    | [a] =>
        obtain ⟨A', denotesA, absent, isCoefficient⟩ := derived (k := 1) (c := a) rfl
        have product : R * A' = -B := MvPolynomial.funext fun names => by
          rw [map_mul, ← denotesRoot, ← denotesA, value_divide? found, value_neg, denotesB, map_neg]
        obtain ⟨c, unit, rfl⟩ := int_of_isUnit
          (unit_of_divides product absent (.inr (by rw [map_neg, once])))
        exact unimodular_of_coefficient unit differ isCoefficient fun m high =>
          coefficients.degree m high
    | a :: a' :: more =>
        have notNumbers : (b :: a :: a' :: more).mapM integerValue? = none := by
          rw [List.mapM_cons, notNumber]
          rfl
        rw [notNumbers] at found
        have found : repeatedRoot? name f (b :: a :: a' :: more) = some root := found
        obtain ⟨leading, last, _⟩ := value_repeatedRoot? (σ := fun _ : String => (0 : Int)) found
        obtain ⟨L, denotesL, absent, _⟩ := derived last
        rw [if_neg (by simp)] at absent
        refine (not_repeated (R := R) (d := more.length + 2) (by omega) absent free differ ?_).elim
        refine MvPolynomial.funext fun names => ?_
        obtain ⟨leading', last', isRoot⟩ := value_repeatedRoot? (σ := names) found
        obtain rfl : leading = leading' := Option.some.inj (last.symm.trans last')
        rw [map_mul, map_pow, map_sub, eval_X, ← denotesL, ← denotesRoot, ← denotes]
        exact isRoot

theorem onlyRoot?_of_linear {whole : Bool} {c : Int} {q : MvPolynomial String Int}
    (expanded : Expanded f) (denotes : Denotes f (C c * X name + q)) (unit : c = 1 ∨ c = -1)
    (free : name ∉ q.vars) (nonzero : q ≠ 0) : ∃ root, onlyRoot? name whole f = some root ∧
      Expanded root ∧ root ≠ sum [] ∧ Denotes root (C c * -q) := by
  have isNonzero : c ≠ 0 := by rcases unit with rfl | rfl <;> decide
  obtain ⟨b, pair⟩ := coefficientsIn_linear expanded denotes isNonzero free
  have coefficients := coefficientsIn_sound expanded denotes name
  rw [pair] at coefficients
  obtain ⟨expandedB, B, denotesB, isConstant⟩ := coefficients.each 0 b rfl
  obtain rfl : B = q := by
    ext m
    rw [isConstant m, Finsupp.single_zero, add_zero, MvPolynomial.coeff_add, coeff_C_mul, coeff_X]
    by_cases inside : m name = 0
    · have differ : Finsupp.single name 1 ≠ m := by
        rintro rfl
        rw [Finsupp.single_eq_same] at inside
        exact one_ne_zero inside
      rw [if_pos inside, if_neg differ, mul_zero, zero_add]
    · rw [if_neg inside, coeff_of_notMem_vars free inside]
  have present : isZeroForm b = false := by
    rw [Bool.eq_false_iff]
    exact fun isZero => nonzero (denotesB.eq_zero (List.isEmpty_iff.1 isZero))
  obtain ⟨root, divided, expandedRoot, notEmpty, denotesRoot⟩ :=
    divide?_unit unit (expandedB.scale (-1)) denotesB.neg
  refine ⟨root, ?_, expandedRoot, notEmpty, denotesRoot⟩
  have divided : b.neg.divide? (number c) = some root := divided
  simp [onlyRoot?, pair, present, divided]

theorem solveFor?_eq_some {left right root : Form Int} {whole : Bool} :
    left.solveFor? name whole right = some root ↔
      (expand (left.sub right)).hides name = false ∧
        onlyRoot? name whole ((expand (left.sub right)).mapCoefficients fun n => n) = some root ∧
          root.isIntegerPolynomial = true := by
  change (if (expand (left.sub right)).hides name then none
    else (onlyRoot? name whole ((expand (left.sub right)).mapCoefficients fun n => n)).bind
      fun root => _) = some root ↔ _
  simp only [hasReal_int, Bool.not_false, Bool.and_self, if_true]
  cases (expand (left.sub right)).hides name with
  | true => simp
  | false =>
      rw [if_neg Bool.false_ne_true, Option.bind_eq_some_iff]
      constructor
      · rintro ⟨candidate, found, accepted⟩
        split at accepted
        next => cases accepted
        next polynomial =>
          rw [← Option.some.inj accepted]
          exact ⟨rfl, found, by simpa using polynomial⟩
      · rintro ⟨_, found, polynomial⟩
        refine ⟨root, found, ?_⟩
        rw [polynomial]
        rfl

theorem unimodular_of_solveFor? {whole : Bool} {root : Form Int} (symbolic : Symbolic g) (denotes : Denotes g A)
    (differ : fresh ≠ name) (free : fresh ∉ A.vars)
    (found : (symbol fresh).solveFor? name whole g = some root) : Unimodular name A := by
  obtain ⟨_, isRoot, polynomial⟩ := solveFor?_eq_some.1 found
  have expanded := expanded_expand ((composed_symbol.2 trivial : Symbolic (symbol fresh)).sub symbolic)
  have difference : Denotes (expand ((symbol fresh).sub g)) (X fresh - A) := fun names => by
    rw [value_expand, (Denotes.symbol fresh).sub denotes]
  obtain ⟨expandedAgain, denotesAgain⟩ := expanded.mapCoefficients difference
  exact onlyRoot?_unimodular expandedAgain denotesAgain differ free isRoot polynomial

theorem solveFor?_of_unimodular (whole : Bool) (symbolic : Symbolic g) (denotes : Denotes g A)
    (differ : fresh ≠ name) (free : fresh ∉ A.vars) (unimodular : Unimodular name A) :
    ∃ root R, (symbol fresh).solveFor? name whole g = some root ∧ Expanded root ∧ root ≠ sum [] ∧
      Denotes root R ∧ (∀ other ∈ R.vars, other ≠ name ∧ (other = fresh ∨ other ∈ A.vars)) ∧
        ∀ names, names fresh = eval names A ↔ names name = eval names R := by
  obtain ⟨c, q, unit, absent, rfl⟩ := unimodular
  have expanded := expanded_expand ((composed_symbol.2 trivial : Symbolic (symbol fresh)).sub symbolic)
  have difference : Denotes (expand ((symbol fresh).sub g)) (C (-c) * X name + (X fresh - q)) :=
    fun names => by
      rw [value_expand, (Denotes.symbol fresh).sub denotes]
      simp only [map_add, map_sub, map_mul, map_neg]
      ring
  obtain ⟨expandedAgain, denotesAgain⟩ := expanded.mapCoefficients difference
  have apart (m : String →₀ Nat) (inside : m name ≠ 0) : coeff m (X fresh - q) = 0 := by
    have other : Finsupp.single fresh 1 ≠ m := by
      rintro rfl
      exact inside (Finsupp.single_eq_of_ne differ.symm)
    rw [MvPolynomial.coeff_sub, coeff_X, if_neg other, coeff_of_notMem_vars absent inside, sub_zero]
  have nonzero : X fresh - q ≠ 0 := by
    intro zero
    have derived := pderiv_eq_zero_of_notMem_vars free
    rw [← sub_eq_zero.1 zero, map_add, pderiv_C_mul, pderiv_X_of_ne differ.symm, mul_zero, zero_add,
      pderiv_X_self] at derived
    exact one_ne_zero derived
  obtain ⟨root, isRoot, expandedRoot, notEmpty, denotesRoot⟩ := onlyRoot?_of_linear expandedAgain
    denotesAgain (by omega) (notMem_vars apart) nonzero
  refine ⟨root, _, solveFor?_eq_some.2 ⟨expanded.hides name, isRoot, expandedRoot.isIntegerPolynomial⟩,
    expandedRoot, notEmpty, denotesRoot, fun other known => ?_, fun names => ?_⟩
  · have isOther : other ≠ name := by
      rintro rfl
      refine notMem_vars (fun m inside => ?_) known
      rw [coeff_C_mul, MvPolynomial.coeff_neg, apart m inside, neg_zero, mul_zero]
    refine ⟨isOther, ?_⟩
    by_contra unknown
    rw [not_or] at unknown
    refine notMem_vars (fun m inside => ?_) known
    have whole := coeff_of_notMem_vars unknown.2 inside
    have first : Finsupp.single fresh 1 ≠ m := by
      rintro rfl
      exact inside (Finsupp.single_eq_of_ne unknown.1)
    have second : Finsupp.single name 1 ≠ m := by
      rintro rfl
      exact inside (Finsupp.single_eq_of_ne isOther)
    rw [MvPolynomial.coeff_add, coeff_C_mul, coeff_X, if_neg second, mul_zero, zero_add] at whole
    rw [coeff_C_mul, MvPolynomial.coeff_neg, MvPolynomial.coeff_sub, coeff_X, if_neg first, whole,
      sub_zero, neg_zero, mul_zero]
  · simp only [map_add, map_sub, map_mul, map_neg, eval_C, eval_X]
    rcases unit with rfl | rfl
    · constructor <;> intro equal <;> linarith
    · constructor <;> intro equal <;> linarith

end ReverseMode.Form
