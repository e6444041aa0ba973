import Mathlib.Tactic.Linarith
import ReverseMode.Proofs.Algebra.Linear

namespace ReverseMode.Form

variable {S : String → Prop} {K : Bool → Prop} {σ : Assignment}

def Without (S : String → Prop) (name : String) : String → Prop := fun other => S other ∧ other ≠ name

mutual

theorem linear_without {S : String → Prop} {K : Bool → Prop} {name : String} {f : Form Int}
    (linear : Linear S K f) (absent : f.mentions name = false) :
    Linear (Without S name) K f := by
  match f with
  | number c => exact linear_number c
  | symbol other =>
      simp only [mentions, beq_eq_false_iff_ne] at absent
      exact linear_symbol.2 ⟨linear_symbol.1 linear, absent⟩
  | extremum greatest args =>
      rw [Linear] at linear ⊢
      obtain ⟨kind, several, distinct, plain, each⟩ := linear
      exact ⟨kind, several, distinct, plain, allLinear_without each (by rwa [mentions] at absent)⟩
  | product _ [f] =>
      rw [Linear] at linear ⊢
      simp only [mentions, anyMentions, Bool.or_false] at absent
      exact ⟨linear.1, linear_without linear.2 absent⟩
  | unknown _ _ _ | inverse _ | power _ _ | product _ [] | product _ (_ :: _ :: _) =>
      rw [Linear] at linear
      exact linear.elim
  | sum ts =>
      rw [Linear] at linear ⊢
      exact ⟨allLinear_without linear.1 (by rwa [mentions] at absent), linear.2⟩

theorem allLinear_without {S : String → Prop} {K : Bool → Prop} {name : String}
    {fs : List (Form Int)} (linear : AllLinear S K fs) (absent : anyMentions name fs = false) :
    AllLinear (Without S name) K fs := by
  match fs with
  | [] => trivial
  | f :: rest =>
      rw [AllLinear] at linear ⊢
      simp only [anyMentions, Bool.or_eq_false_iff] at absent
      exact ⟨linear_without linear.1 absent.1, allLinear_without linear.2 absent.2⟩

end

def SplitTerm (S : String → Prop) (K : Bool → Prop) (name : String) (t : Form Int) : Prop :=
  t.split.2 = [symbol name] ∨ LinearTerm (Without S name) K t

theorem anyHides_eq_false {name : String} {ts : List (Form Int)} (shown : anyHides name ts = false) :
    ∀ t ∈ ts, t.hides name = false := by
  induction ts with
  | nil => simp
  | cons t rest ih =>
      simp only [anyHides, Bool.or_eq_false_iff] at shown
      exact List.forall_mem_cons.2 ⟨shown.1, ih shown.2⟩

theorem splitTerm_of_shown {name : String} {t : Form Int} (term : LinearTerm S K t)
    (shown : t.hides name = false) : SplitTerm S K name t := by
  have atom (f : Form Int) (isAtom : f.isAtom = true) (linear : Linear S K f)
      (open' : f.hides name = false) : f = symbol name ∨ Linear (Without S name) K f := by
    match f with
    | symbol other =>
        by_cases same : other = name
        · exact .inl (by rw [same])
        · exact .inr (linear_symbol.2 ⟨linear_symbol.1 linear, same⟩)
    | extremum _ _ =>
        exact .inr (linear_without linear (by rwa [hides] at open'))
    | unknown _ _ _ =>
        rw [Linear] at linear
        exact linear.elim
    | number _ | inverse _ | power _ _ | product _ _ | sum _ => cases isAtom
  obtain ⟨linear, flat⟩ := term
  match t with
  | number c => exact .inr ⟨linear_number c, rfl⟩
  | symbol other =>
      rcases atom _ rfl linear shown with same | free
      · exact .inl (by rw [same]; rfl)
      · exact .inr ⟨free, rfl⟩
  | extremum _ _ =>
      rcases atom _ rfl linear shown with same | free
      · cases same
      · exact .inr ⟨free, rfl⟩
  | product c [f] =>
      rw [Linear] at linear
      simp only [hides, anyHides, Bool.or_false] at shown
      rcases atom f linear.1 linear.2 shown with same | free
      · exact .inl (by rw [same]; rfl)
      · exact .inr ⟨by rw [Linear]; exact ⟨linear.1, free⟩, rfl⟩
  | unknown _ _ _ | inverse _ | power _ _ | product _ [] | product _ (_ :: _ :: _) =>
      rw [Linear] at linear
      exact linear.elim
  | sum ts => cases flat

theorem splitTerms_of_shown {name : String} {f : Form Int} (linear : Linear S K f)
    (shown : f.hides name = false) : ∀ t ∈ f.terms, SplitTerm S K name t := by
  intro t member
  refine splitTerm_of_shown (linear.terms t member) ?_
  cases f with
  | sum ts => exact anyHides_eq_false (by rwa [hides] at shown) t member
  | number c =>
      simp only [Form.terms] at member
      split at member
      · cases member
      · rw [List.mem_singleton.1 member]
        exact shown
  | _ =>
      rw [List.mem_singleton.1 member]
      exact shown

theorem separate_cases {name : String} {t : Form Int} (split : SplitTerm S K name t) :
    (∃ c, separate name t = (1, number c) ∧ ∀ σ, value σ t = c * σ name) ∨
      (separate name t = (0, t) ∧ LinearTerm (Without S name) K t) := by
  rcases split with multiple | free
  · refine .inl ⟨t.split.1, ?_, fun σ => ?_⟩
    · have joined (c : Int) : join c ([] : List (Form Int)) = number c := by
        unfold Form.join
        split <;> rfl
      simp [separate, multiple, basePower, joined]
    · rw [value_split, multiple]
      simp
  · refine .inr ⟨?_, free⟩
    rcases free.split_cases with none | ⟨f, single, atom, linear⟩
    · simp [separate, none]
    · cases f with
      | symbol other =>
          have different : other ≠ name := (linear_symbol.1 linear).2
          simp [separate, single, basePower, different]
      | extremum => simp [separate, single, basePower]
      | unknown =>
          rw [Linear] at linear
          exact linear.elim
      | number | inverse | power | product | sum => cases atom

theorem collect_separate {name : String} {ts : List (Form Int)}
    (split : ∀ t ∈ ts, SplitTerm S K name t) :
    (∀ part ∈ ts.map (separate name), part.1 = 0 ∨ part.1 = 1) ∧
      ∀ start : Form Int, Linear (Without S name) K start → ∀ n : Int, ∃ m : Int,
        Linear (Without S name) K
          ((((ts.map (separate name)).filter fun part => part.1 = 0).map fun part =>
            part.2).foldl add start) ∧
        ((((ts.map (separate name)).filter fun part => part.1 = 1).map fun part =>
          part.2).foldl add (number n)) = number m ∧
        (∀ σ, (ts.map (value σ)).sum =
          value σ ((((ts.map (separate name)).filter fun part => part.1 = 0).map fun part =>
            part.2).foldl add start) - value σ start + (m - n) * σ name) ∧
        ((∀ part ∈ ts.map (separate name), part.1 = 0) → m = n) := by
  induction ts with
  | nil =>
      refine ⟨by simp, fun start linear n => ⟨n, linear, rfl, fun σ => ?_, fun _ => rfl⟩⟩
      simp
  | cons t rest ih =>
      obtain ⟨first, others⟩ := List.forall_mem_cons.1 split
      obtain ⟨degrees, collected⟩ := ih others
      rcases separate_cases first with ⟨c, isMultiple, multiple⟩ | ⟨isFree, free⟩
      · refine ⟨by simpa [isMultiple] using degrees, fun start linear n => ?_⟩
        obtain ⟨m, rest0, rest1, total, _⟩ := collected start linear (n + c)
        refine ⟨m, by simpa [isMultiple] using rest0, by simpa [isMultiple, add] using rest1,
          fun τ => ?_, fun none => ?_⟩
        · have step := total τ
          simp only [List.map_cons, List.sum_cons, isMultiple, multiple]
          simp
          linarith
        · have absurd := none _ (List.mem_map_of_mem (.head _))
          rw [isMultiple] at absurd
          simp at absurd
      · refine ⟨by simpa [isFree] using degrees, fun start linear n => ?_⟩
        obtain ⟨m, rest0, rest1, total, unused⟩ := collected (start.add t) (linear.add free.1) n
        refine ⟨m, by simpa [isFree] using rest0, by simpa [isFree] using rest1,
          fun τ => ?_, fun none => unused fun part member => none part (.tail _ member)⟩
        have step := total τ
        rw [value_add] at step
        simp only [List.map_cons, List.sum_cons, isFree]
        simp
        linarith

theorem foldl_max_le_iff {α : Type} {g : α → Nat} {as : List α} {bound start : Nat} :
    as.foldl (fun most a => max most (g a)) start ≤ bound ↔
      start ≤ bound ∧ ∀ a ∈ as, g a ≤ bound := by
  induction as generalizing start with
  | nil => simp
  | cons a rest ih => rw [List.foldl_cons, ih, List.forall_mem_cons, max_le_iff, and_assoc]

theorem le_foldl_max {α : Type} {g : α → Nat} {as : List α} {a : α} (member : a ∈ as) :
    g a ≤ as.foldl (fun most a => max most (g a)) 0 :=
  (foldl_max_le_iff.1 le_rfl).2 a member

theorem coefficientsIn_cases {name : String} {f : Form Int}
    (split : ∀ t ∈ f.terms, SplitTerm S K name t) :
    (∃ b, coefficientsIn name f = [b]) ∨
      ∃ b m, coefficientsIn name f = [b, number m] ∧ Linear (Without S name) K b ∧
        ∀ σ, value σ f = value σ b + m * σ name := by
  obtain ⟨degrees, collected⟩ := collect_separate split
  obtain ⟨m, linear, coefficient, total, _⟩ := collected (ofInt 0) (linear_number 0) 0
  have bounded : (f.terms.map (separate name)).foldl (fun d part => max d part.1) 0 ≤ 1 :=
    foldl_max_le_iff.2 ⟨Nat.zero_le 1, fun part member => by
      rcases degrees part member with h | h <;> omega⟩
  unfold coefficientsIn
  dsimp only
  generalize (f.terms.map (separate name)).foldl (fun d part => max d part.1) 0 = degree at bounded
  match degree with
  | 0 => exact .inl ⟨_, rfl⟩
  | 1 =>
      refine .inr ⟨_, m, ?_, linear, fun σ => ?_⟩
      · rw [← coefficient]
        rfl
      · rw [← value_terms f, total σ]
        simp
  | _ + 2 => omega

theorem leadingTerm?_mem {order ts : List (Form Int)} {t : Form Int}
    (leading : leadingTerm? order ts = some t) : t ∈ ts := by
  induction ts generalizing t with
  | nil => cases leading
  | cons u rest ih =>
      rw [leadingTerm?] at leading
      split at leading
      next => exact Option.some.inj leading ▸ List.mem_cons_self
      next v found =>
        split at leading
        next => exact Option.some.inj leading ▸ List.mem_cons_self
        next => exact .tail _ (ih (Option.some.inj leading ▸ found))

theorem leadingTerm?_eq_none {order ts : List (Form Int)} (none : leadingTerm? order ts = none) :
    ts = [] := by
  cases ts with
  | nil => rfl
  | cons u rest =>
      rw [leadingTerm?] at none
      split at none
      · cases none
      · split at none <;> cases none

theorem divideMonomial?_number {t d quotient : Form Int} {n : Int} (term : LinearTerm S K t)
    (isNumber : d = number n) (divided : divideMonomial? t d = some quotient) :
    LinearTerm S K quotient := by
  subst isNumber
  have unchanged : t.split.2.flatMap (lowerExponent []) = t.split.2 := by
    change t.split.2.flatMap (fun f => [f]) = t.split.2
    simp
  change ((Coefficient.divide? t.split.1 n).bind fun q =>
    some (Form.join q (t.split.2.flatMap (lowerExponent [])))) = some quotient at divided
  obtain ⟨c, _, answer⟩ := Option.bind_eq_some_iff.1 divided
  rw [← Option.some.inj answer, unchanged]
  exact term.join c

theorem value_divideSteps {order : List (Form Int)} {f divisor quotient : Form Int}
    (steps : Nat) (divided : divideSteps order divisor steps f = some quotient) :
    value σ quotient * value σ divisor = value σ f := by
  have finished (empty : f.terms = []) : value σ (ofInt 0) * value σ divisor = value σ f := by
    rw [value_ofInt, zero_mul, value_eq_zero_of_terms empty]
  induction steps generalizing f quotient with
  | zero =>
      rw [divideSteps] at divided
      split at divided
      next none => exact Option.some.inj divided ▸ finished (leadingTerm?_eq_none none)
      next => cases divided
  | succ steps ih =>
      rw [divideSteps] at divided
      split at divided
      next none => exact Option.some.inj divided ▸ finished (leadingTerm?_eq_none none)
      next t leading =>
        simp only [Option.bind_eq_bind, Option.bind_eq_some_iff] at divided
        obtain ⟨d, _, q, _, rest, deeper, answer⟩ := divided
        have remaining := ih deeper fun empty => by
          rw [value_ofInt, zero_mul, value_eq_zero_of_terms empty]
        rw [← Option.some.inj answer, value_add, add_mul, remaining, value_sub, value_distribute]
        ring

theorem value_divide? {f divisor quotient : Form Int}
    (divided : f.divide? divisor = some quotient) :
    value σ quotient * value σ divisor = value σ f := by
  unfold divide? at divided
  split at divided
  next => cases divided
  next => exact value_divideSteps _ divided

theorem linear_divideSteps {order : List (Form Int)} {n : Int} (steps : Nat)
    {dividend quotient : Form Int} (linear : Linear S K dividend)
    (divided : divideSteps order (number n) steps dividend = some quotient) :
    Linear S K quotient := by
  induction steps generalizing dividend quotient with
  | zero =>
      rw [divideSteps] at divided
      split at divided
      next => exact Option.some.inj divided ▸ linear_number 0
      next => cases divided
  | succ steps ih =>
      rw [divideSteps] at divided
      split at divided
      next => exact Option.some.inj divided ▸ linear_number 0
      next t leading =>
        simp only [Option.bind_eq_bind, Option.bind_eq_some_iff] at divided
        obtain ⟨d, found, q, monomial, rest, deeper, answer⟩ := divided
        have isNumber : d = number n := by
          have member := leadingTerm?_mem found
          simp only [Form.terms] at member
          split at member
          · cases member
          · exact List.mem_singleton.1 member
        have term := divideMonomial?_number (linear.terms t (leadingTerm?_mem leading)) isNumber
          monomial
        rw [← Option.some.inj answer]
        exact term.1.add (ih (linear.sub (term.1.distribute_number n)) deeper)

theorem isZeroForm_number {m : Int} : isZeroForm (number m) = true ↔ m = 0 := by
  by_cases zero : m = 0 <;> simp [isZeroForm, Form.terms, zero]

theorem onlyRoot?_sound {name : String} {whole : Bool} {f root : Form Int}
    (split : ∀ t ∈ f.terms, SplitTerm S K name t) (found : onlyRoot? name whole f = some root) :
    Linear (Without S name) K root ∧ ∀ σ, value σ f = 0 ↔ σ name = value σ root := by
  rcases coefficientsIn_cases split with ⟨b, single⟩ | ⟨b, m, pair, linear, total⟩
  · simp only [onlyRoot?, single, List.dropWhile] at found
    cases zero : isZeroForm b <;> simp [zero] at found
  · have solves (q : Form Int) (nonzero : m ≠ 0) (isRoot : ∀ σ, value σ q * m = -value σ b)
        (σ : Assignment) : value σ f = 0 ↔ σ name = value σ q := by
      have root := isRoot σ
      rw [total σ]
      constructor
      · intro zero
        have product : m * (σ name - value σ q) = 0 := by linarith
        rcases mul_eq_zero.1 product with absurd | equal
        · exact (nonzero absurd).elim
        · linarith
      · intro equal
        rw [equal]
        linarith
    simp only [onlyRoot?, pair, List.dropWhile] at found
    cases zeroB : isZeroForm b with
    | true =>
        rw [zeroB] at found
        dsimp only at found
        have constant (σ : Assignment) : value σ b = 0 :=
          value_eq_zero_of_terms (by simpa [isZeroForm] using zeroB)
        cases zeroM : isZeroForm (number m) with
        | true => simp [zeroM] at found
        | false =>
            simp [zeroM] at found
            rw [← found]
            have nonzero : m ≠ 0 := fun zero => by simp [isZeroForm_number.2 zero] at zeroM
            exact ⟨linear_number 0, solves (number 0) nonzero fun σ => by simp [constant σ]⟩
    | false =>
        rw [zeroB] at found
        simp only [List.length_cons, List.length_nil, Nat.lt_irrefl, if_false, divide?] at found
        split at found
        · cases found
        · next nonempty =>
            have nonzero : m ≠ 0 := by
              rintro rfl
              simp [Form.terms] at nonempty
            refine ⟨linear_divideSteps _ linear.neg found, solves root nonzero fun σ => ?_⟩
            rw [← value_neg, ← value_divideSteps _ found, value_number]

mutual

theorem hasReal_int (f : Form Int) : f.hasReal = false := by
  match f with
  | number _ | symbol _ | unknown _ _ _ => rfl
  | extremum _ args => rw [hasReal, anyReal_int args]
  | inverse base => rw [hasReal, hasReal_int base]
  | power base _ => rw [hasReal, hasReal_int base]
  | product _ factors =>
      rw [hasReal, anyReal_int factors]
      rfl
  | sum ts => rw [hasReal, anyReal_int ts]

theorem anyReal_int (fs : List (Form Int)) : anyReal fs = false := by
  match fs with
  | [] => rfl
  | f :: rest => rw [anyReal, hasReal_int f, anyReal_int rest, Bool.false_or]

end

theorem splitTerm_changed {name : String} {t : Form Int} (split : SplitTerm S K name t) :
    SplitTerm S K name
        (if t.split.2.isEmpty then number t.split.1 else product t.split.1 t.split.2) ∧
      ∀ σ, value σ (if t.split.2.isEmpty then number t.split.1
        else product t.split.1 t.split.2) = value σ t := by
  constructor
  · rcases split with multiple | free
    · rw [multiple]
      exact .inl rfl
    · rcases free.split_cases with none | ⟨f, single, atom, linear⟩
      · rw [none]
        exact .inr ⟨linear_number _, rfl⟩
      · rw [single]
        exact .inr ⟨by rw [List.isEmpty_cons, if_neg (by simp), Linear]; exact ⟨atom, linear⟩, rfl⟩
  · intro σ
    rw [value_split t]
    split
    next empty => simp [List.isEmpty_iff.1 empty]
    next => rw [value_product]

theorem mapCoefficients_id {name : String} {f : Form Int}
    (split : ∀ t ∈ f.terms, SplitTerm S K name t) :
    (∀ t ∈ (f.mapCoefficients fun n => n).terms, SplitTerm S K name t) ∧
      ∀ σ, value σ (f.mapCoefficients fun n => n) = value σ f := by
  match f with
  | sum ts =>
      constructor
      · intro t member
        obtain ⟨u, among, rfl⟩ := List.mem_map.1 member
        exact (splitTerm_changed (split u among)).1
      · intro σ
        simp only [mapCoefficients, value_sum, List.map_map]
        exact congrArg List.sum (List.map_congr_left fun u among =>
          (splitTerm_changed (split u among)).2 σ)
  | number c => exact ⟨split, fun σ => rfl⟩
  | symbol _ | unknown _ _ _ | extremum _ _ | inverse _ | power _ _ | product _ _ =>
      have changed := splitTerm_changed (split _ (.head _))
      constructor
      · intro t member
        simp only [mapCoefficients] at member
        split at member
        next empty =>
          simp only [Form.terms] at member
          split at member
          · cases member
          · rw [List.mem_singleton.1 member]
            rw [if_pos empty] at changed
            exact changed.1
        next nonempty =>
          rw [List.mem_singleton.1 member]
          rw [if_neg nonempty] at changed
          exact changed.1
      · exact changed.2

theorem isIntegerPolynomial_plain {root : Form Int} (polynomial : root.isIntegerPolynomial = true) :
    ∀ t ∈ root.terms, ∀ g ∈ t.split.2, ∃ name, g.basePower.1 = symbol name := by
  intro t member g factor
  have both := List.all_eq_true.1 polynomial t member
  have factors := List.all_eq_true.1 (Bool.and_eq_true_iff.1 both).2 g factor
  split at factors
  next name isSymbol => exact ⟨name, isSymbol⟩
  next => cases factors

theorem solveFor?_sound {name : String} {whole : Bool} {left right root : Form Int}
    (linearLeft : Linear S K left) (linearRight : Linear S K right)
    (found : left.solveFor? name whole right = some root) :
    Linear (Without S name) K root ∧ root.isIntegerPolynomial = true ∧
      ∀ σ, value σ left = value σ right ↔ σ name = value σ root := by
  have linear := (linearLeft.sub linearRight).expand
  have difference (σ : Assignment) :
      value σ (expand (left.sub right)) = value σ left - value σ right := by simp
  unfold solveFor? at found
  generalize expand (left.sub right) = d at linear difference found
  dsimp only at found
  split at found
  next => cases found
  next shown =>
    have split := splitTerms_of_shown linear (Bool.eq_false_iff.2 shown)
    obtain ⟨splitAgain, sameValue⟩ := mapCoefficients_id split
    simp only [Option.bind_eq_bind, Option.bind_eq_some_iff] at found
    obtain ⟨candidate, isRoot, accepted⟩ := found
    obtain ⟨linearRoot, solves⟩ := onlyRoot?_sound splitAgain isRoot
    simp only [hasReal_int, Bool.not_false, Bool.and_self, if_true] at accepted
    split at accepted
    next => cases accepted
    next polynomial =>
      rw [← Option.some.inj accepted]
      refine ⟨linearRoot, by simpa using polynomial, fun σ => ?_⟩
      rw [← solves σ, sameValue, difference, sub_eq_zero]

theorem mem_smallDivisors {n d count x : Nat} :
    x ∈ smallDivisors n d count ↔ d ≤ x ∧ x < d + count ∧ x * x ≤ n ∧ x ∣ n := by
  induction count generalizing d with
  | zero => simp [smallDivisors]; omega
  | succ count ih =>
      have later : d + 1 ≤ x ∧ x < d + 1 + count ∧ x * x ≤ n ∧ x ∣ n ↔
          x ≠ d ∧ d ≤ x ∧ x < d + (count + 1) ∧ x * x ≤ n ∧ x ∣ n := by
        omega
      unfold smallDivisors
      split
      next exceeded =>
        refine iff_of_false List.not_mem_nil fun ⟨atLeast, _, square, _⟩ => ?_
        exact absurd (Nat.mul_self_le_mul_self atLeast) (by omega)
      next within =>
        split
        next divides =>
          have isDivisor : d ∣ n := Nat.dvd_of_mod_eq_zero divides
          rw [List.mem_cons, ih, later]
          refine ⟨?_, fun isSmall => or_iff_not_imp_left.2 fun other => ⟨other, isSmall⟩⟩
          rintro (rfl | ⟨_, isSmall⟩)
          · exact ⟨Nat.le_refl _, by omega, by omega, isDivisor⟩
          · exact isSmall
        next divides =>
          rw [ih, later]
          refine and_iff_right_of_imp fun ⟨_, _, _, isDivisor⟩ same => divides ?_
          exact Nat.mod_eq_zero_of_dvd (same ▸ isDivisor)

theorem small_or_cofactor {n x : Nat} (positive : 0 < n) (isDivisor : x ∣ n) :
    ∃ d ∈ smallDivisors n 1 n, x = d ∨ x = n / d := by
  obtain ⟨y, rfl⟩ := isDivisor
  have left : 0 < x := Nat.pos_of_mul_pos_right positive
  have right : 0 < y := Nat.pos_of_mul_pos_left positive
  rcases Nat.le_total x y with atMost | atLeast
  · refine ⟨x, mem_smallDivisors.2 ⟨left, ?_, Nat.mul_le_mul_left x atMost, Nat.dvd_mul_right x y⟩,
      .inl rfl⟩
    nlinarith
  · refine ⟨y, mem_smallDivisors.2 ⟨right, ?_, Nat.mul_le_mul_right y atLeast, Nat.dvd_mul_left y x⟩,
      .inr (Nat.mul_div_cancel x right).symm⟩
    nlinarith

theorem mem_integerRoots {coefficients : List Int} (constant : coefficients.headD 0 ≠ 0) {x : Int} :
    x ∈ integerRoots coefficients ↔ evaluate coefficients x = 0 := by
  simp only [integerRoots, List.mem_eraseDups, List.mem_filter, decide_eq_true_eq, and_iff_right_iff_imp]
  intro vanishes
  have divides : x ∣ coefficients.headD 0 := by
    cases coefficients with
    | nil => exact absurd rfl constant
    | cons c rest =>
        have cancels : c + x * evaluate rest x = 0 := vanishes
        exact ⟨-evaluate rest x, by rw [List.headD_cons]; linarith⟩
  obtain ⟨d, isSmall, among⟩ :=
    small_or_cofactor (Int.natAbs_pos.2 constant) (Int.natAbs_dvd_natAbs.2 divides)
  refine List.mem_flatMap.2 ⟨d, isSmall, ?_⟩
  simp only [List.mem_cons, List.not_mem_nil, or_false]
  omega
end ReverseMode.Form
