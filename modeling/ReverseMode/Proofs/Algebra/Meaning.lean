import Mathlib.Algebra.BigOperators.Group.List.Basic
import Mathlib.Algebra.BigOperators.Ring.List
import Mathlib.Algebra.Order.Ring.Int
import Mathlib.Tactic.Ring
import ReverseMode.Algebra.Division
import ReverseMode.Algebra.Solve

namespace ReverseMode

@[simp] theorem isZeroNumber_int (n : Int) : Form.isZeroNumber n = (n == 0) := rfl

@[simp] theorem isOneNumber_int (n : Int) : Form.isOneNumber n = (n == 1) := rfl

@[simp] theorem vanishes_int (n : Int) : Form.vanishes n = (n == 0) := rfl

@[simp] theorem add_int (m n : Int) : Coefficient.add m n = m + n := rfl

@[simp] theorem mul_int (m n : Int) : Coefficient.mul m n = m * n := rfl

@[simp] theorem neg_int (n : Int) : Coefficient.neg n = -n := rfl

@[simp] theorem ofInt_int (n : Int) : (Coefficient.ofInt n : Int) = n := rfl

@[simp] theorem toNumber_int (n : Int) : Coefficient.toNumber n = .int n := rfl

namespace Form

def extremeOf (greatest : Bool) : List Int → Int
  | [] => 0
  | [a] => a
  | a :: rest => if greatest then max a (extremeOf greatest rest) else min a (extremeOf greatest rest)

/-- Integers for symbols, by name, and for unknowns, by rank. -/
structure Assignment where
  symbol : String → Int
  unknown : Nat → Int

instance : CoeFun Assignment fun _ => String → Int := ⟨Assignment.symbol⟩

instance : Coe (String → Int) Assignment := ⟨fun names => ⟨names, fun _ => 0⟩⟩

mutual

def value (σ : Assignment) : Form Int → Int
  | number c => c
  | symbol name => σ name
  | unknown _ rank _ => σ.unknown rank
  | extremum greatest args => extremeOf greatest (values σ args)
  | inverse _ => 0
  | power base e => value σ base ^ e
  | product c factors => c * (values σ factors).prod
  | sum ts => (values σ ts).sum

def values (σ : Assignment) : List (Form Int) → List Int
  | [] => []
  | f :: rest => value σ f :: values σ rest

end

variable {σ : Assignment}

theorem values_eq_map (fs : List (Form Int)) : values σ fs = fs.map (value σ) := by
  induction fs with
  | nil => rfl
  | cons f rest ih => exact congrArg (value σ f :: ·) ih

@[simp] theorem value_number (c : Int) : value σ (number c) = c := rfl

@[simp] theorem value_symbol (name : String) : value σ (symbol name) = σ name := rfl

@[simp] theorem value_unknown (kind : String) (rank : Nat) (whole : Bool) :
    value σ (unknown kind rank whole) = σ.unknown rank := rfl

@[simp] theorem value_product (c : Int) (fs : List (Form Int)) :
    value σ (product c fs) = c * (fs.map (value σ)).prod :=
  congrArg (fun vs => c * List.prod vs) (values_eq_map fs)

@[simp] theorem value_sum (ts : List (Form Int)) :
    value σ (sum ts) = (ts.map (value σ)).sum :=
  congrArg List.sum (values_eq_map ts)

@[simp] theorem value_power (base : Form Int) (e : Nat) :
    value σ (power base e) = value σ base ^ e := rfl

@[simp] theorem value_extremum (greatest : Bool) (args : List (Form Int)) :
    value σ (extremum greatest args) = extremeOf greatest (args.map (value σ)) :=
  congrArg (extremeOf greatest) (values_eq_map args)

@[simp] theorem value_ofInt (n : Int) : value σ (ofInt n) = n := value_number n

mutual

theorem eq_of_same (f g : Form Int) (isSame : f.same g = true) : f = g := by
  cases f <;> cases g <;> simp only [same, Number.same, toNumber_int, Bool.and_eq_true, beq_iff_eq,
    Bool.false_eq_true] at isSame
  case number.number => rw [isSame]
  case symbol.symbol => rw [isSame]
  case unknown.unknown => rw [isSame.1.1, isSame.1.2, isSame.2]
  case extremum.extremum as _ bs => rw [isSame.1, eq_of_allSame as bs isSame.2]
  case inverse.inverse a b => rw [eq_of_same a b isSame]
  case power.power a _ b _ => rw [isSame.1, eq_of_same a b isSame.2]
  case product.product as _ bs => rw [isSame.1, eq_of_allSame as bs isSame.2]
  case sum.sum as bs => rw [eq_of_allSame as bs isSame]

theorem eq_of_allSame (fs gs : List (Form Int)) (areSame : allSame fs gs = true) : fs = gs := by
  cases fs <;> cases gs <;> simp only [allSame, Bool.and_eq_true, Bool.false_eq_true] at areSame
  case nil.nil => rfl
  case cons.cons f fs g gs =>
    rw [eq_of_same f g areSame.1, eq_of_allSame fs gs areSame.2]

end

mutual

theorem same_self (f : Form Int) : f.same f = true := by
  cases f <;> simp only [same, Number.same, toNumber_int, beq_self_eq_true, Bool.true_and]
  case extremum args => exact allSame_self args
  case inverse base => exact same_self base
  case power base e => exact same_self base
  case product c factors => exact allSame_self factors
  case sum ts => exact allSame_self ts

theorem allSame_self (fs : List (Form Int)) : allSame fs fs = true := by
  cases fs with
  | nil => rfl
  | cons f rest => rw [allSame, same_self f, allSame_self rest, Bool.true_and]

end

theorem same_iff {f g : Form Int} : f.same g = true ↔ f = g :=
  ⟨eq_of_same f g, fun equal => equal ▸ same_self f⟩

theorem value_split (f : Form Int) :
    value σ f = f.split.1 * (f.split.2.map (value σ)).prod := by
  cases f <;> simp [split]

@[simp] theorem value_join (c : Int) (fs : List (Form Int)) :
    value σ (join c fs) = c * (fs.map (value σ)).prod := by
  unfold join
  split
  next zero => simp_all
  next =>
    split
    next => simp
    next f =>
      split
      next one => simp_all
      next => simp
    next => simp

theorem value_basePower (f : Form Int) :
    value σ f = value σ f.basePower.1 ^ f.basePower.2 := by
  cases f <;> simp [basePower]

@[simp] theorem value_ofPower (base : Form Int) (e : Nat) :
    value σ (ofPower base e) = value σ base ^ e := by
  unfold ofPower
  split <;> simp

theorem value_mergeFactor (f : Form Int) (gs : List (Form Int)) :
    ((mergeFactor f gs).map (value σ)).prod = value σ f * (gs.map (value σ)).prod := by
  induction gs with
  | nil => simp [mergeFactor]
  | cons g rest ih =>
      simp only [mergeFactor]
      split
      next isSame =>
        have base := same_iff.1 isSame
        rw [List.map_cons, List.prod_cons, List.map_cons, List.prod_cons, value_ofPower, pow_add,
          ← value_basePower, base, ← value_basePower, mul_assoc]
      next =>
        rw [List.map_cons, List.prod_cons, ih, List.map_cons, List.prod_cons, mul_left_comm]

theorem mergeFactors_int (fs gs : List (Form Int)) :
    mergeFactors fs gs = sortFactors (fs.foldl (fun collected f => mergeFactor f collected) gs) :=
  rfl

theorem value_mergeFactors (fs gs : List (Form Int)) :
    ((mergeFactors fs gs).map (value σ)).prod =
      (fs.map (value σ)).prod * (gs.map (value σ)).prod := by
  rw [mergeFactors_int, sortFactors, ((sorted_perm _ _).map _).prod_eq]
  induction fs generalizing gs with
  | nil => simp
  | cons f rest ih =>
      rw [List.foldl_cons, ih, value_mergeFactor, List.map_cons, List.prod_cons, ← mul_assoc,
        mul_comm (value σ f)]

theorem perm_sortTerms (ts : List (Form Int)) : (sortTerms ts).Perm ts := by
  unfold sortTerms
  split
  · have apart := List.filter_append_perm (fun t : Form Int => t.isNumber) ts
    simpa using apart
  · exact sorted_perm _ _

theorem value_terms (f : Form Int) : (f.terms.map (value σ)).sum = value σ f := by
  cases f with
  | number c =>
      by_cases zero : c = 0 <;> simp [terms, zero]
  | _ => simp [terms]

theorem value_mergeTerm (t : Form Int) (ts : List (Form Int)) :
    ((mergeTerm t ts).map (value σ)).sum = value σ t + (ts.map (value σ)).sum := by
  induction ts with
  | nil => simp [mergeTerm]
  | cons s rest ih =>
      simp only [mergeTerm, add_int, isZeroNumber_int, beq_iff_eq]
      split
      next areSame =>
        have factors := eq_of_allSame _ _ areSame
        have combined : value σ t + value σ s =
            (s.split.1 + t.split.1) * (s.split.2.map (value σ)).prod := by
          rw [value_split t, value_split s, factors]
          ring
        split
        next zero =>
          rw [zero, zero_mul] at combined
          rw [List.map_cons, List.sum_cons, ← add_assoc, combined, zero_add]
        next =>
          rw [List.map_cons, List.sum_cons, value_join, ← combined, List.map_cons, List.sum_cons,
            add_assoc]
      next =>
        rw [List.map_cons, List.sum_cons, ih, List.map_cons, List.sum_cons, add_left_comm]

@[simp] theorem value_ofTerms (ts : List (Form Int)) :
    value σ (ofTerms ts) = (ts.map (value σ)).sum := by
  unfold ofTerms
  split
  · simp
  · simp
  · rw [value_sum, ((perm_sortTerms _).map _).sum_eq]

theorem value_foldl_mergeTerm (added ts : List (Form Int)) :
    ((added.foldl (fun collected t => mergeTerm t collected) ts).map (value σ)).sum =
      (added.map (value σ)).sum + (ts.map (value σ)).sum := by
  induction added generalizing ts with
  | nil => simp
  | cons t rest ih =>
      rw [List.foldl_cons, ih, value_mergeTerm, List.map_cons, List.sum_cons]
      ring

@[simp] theorem value_add (f g : Form Int) : value σ (f.add g) = value σ f + value σ g := by
  unfold add
  split
  · simp
  · rw [value_ofTerms, value_foldl_mergeTerm, value_terms, value_terms, add_comm]

theorem value_scaleTerm (c : Int) (t : Form Int) :
    value σ (scaleTerm c t) = c * value σ t := by
  unfold scaleTerm
  rw [value_split t]
  simp [mul_assoc]

theorem value_eq_zero_of_terms {f : Form Int} (empty : f.terms = []) : value σ f = 0 := by
  rw [← value_terms, empty]
  rfl

@[simp] theorem value_scale (c : Int) (f : Form Int) : value σ (scale c f) = c * value σ f := by
  unfold scale
  split
  next zero => simp_all
  next =>
    split
    next ts =>
      rw [value_ofTerms, value_sum]
      induction ts with
      | nil => simp
      | cons t rest ih =>
          simp only [List.map_cons, List.sum_cons, List.filter_cons, mul_add]
          rw [← ih, ← value_scaleTerm]
          split
          next => rw [List.map_cons, List.sum_cons]
          next vanishing =>
            have empty : (scaleTerm c t).terms = [] := by simpa using vanishing
            rw [value_eq_zero_of_terms empty, zero_add]
    next => exact value_scaleTerm c _

@[simp] theorem value_neg (f : Form Int) : value σ f.neg = -value σ f := by
  simp [neg]

@[simp] theorem value_sub (f g : Form Int) : value σ (f.sub g) = value σ f - value σ g := by
  unfold sub
  split
  · simp [sub_eq_add_neg]
  · rw [value_add, value_neg, sub_eq_add_neg]

@[simp] theorem value_ofFactors (c : Int) (fs : List (Form Int)) :
    value σ (ofFactors c fs) = c * (fs.map (value σ)).prod := by
  unfold ofFactors
  split
  · simp
  · exact value_join c fs

@[simp] theorem value_mul (f g : Form Int) : value σ (f.mul g) = value σ f * value σ g := by
  simp only [mul]
  split
  next empty =>
    rw [value_scale, value_split f, List.isEmpty_iff.1 empty]
    simp
  next =>
    split
    next empty =>
      rw [value_scale, value_split g, List.isEmpty_iff.1 empty]
      simp [mul_comm]
    next =>
      rw [value_ofFactors, value_mergeFactors, value_split f, value_split g, mul_int]
      ring

@[simp] theorem value_pow (f : Form Int) (e : Nat) : value σ (pow f e) = value σ f ^ e := by
  induction e with
  | zero => simp [pow]
  | succ e ih => rw [pow, value_mul, ih, pow_succ]

theorem value_foldl_mul (fs : List (Form Int)) (total : Form Int) :
    value σ (fs.foldl mul total) = value σ total * (fs.map (value σ)).prod := by
  induction fs generalizing total with
  | nil => simp
  | cons f rest ih =>
      rw [List.foldl_cons, ih, value_mul, List.map_cons, List.prod_cons, mul_assoc]

theorem value_foldl_add {β : Type} (g : β → Form Int) (bs : List β) (total : Form Int) :
    value σ (bs.foldl (fun total b => total.add (g b)) total) =
      value σ total + (bs.map fun b => value σ (g b)).sum := by
  induction bs generalizing total with
  | nil => simp
  | cons b rest ih =>
      rw [List.foldl_cons, ih, value_add, List.map_cons, List.sum_cons, add_assoc]

@[simp] theorem value_distribute (f g : Form Int) :
    value σ (distribute f g) = value σ f * value σ g := by
  have row (s : Form Int) (total : Form Int) :
      value σ (g.terms.foldl (fun total t => total.add (s.mul t)) total) =
        value σ total + value σ s * value σ g := by
    rw [value_foldl_add, ← value_terms g, ← List.sum_map_mul_left]
    simp only [value_mul]
  have rows (ts : List (Form Int)) (total : Form Int) :
      value σ (ts.foldl (fun total s =>
        g.terms.foldl (fun total t => total.add (s.mul t)) total) total) =
        value σ total + (ts.map (value σ)).sum * value σ g := by
    induction ts generalizing total with
    | nil => simp
    | cons s rest ih =>
        rw [List.foldl_cons, ih, row, List.map_cons, List.sum_cons]
        ring
  rw [distribute, rows, value_terms]
  simp

@[simp] theorem value_distributePower (f : Form Int) (e : Nat) :
    value σ (distributePower f e) = value σ f ^ e := by
  induction e with
  | zero => simp [distributePower]
  | succ e ih => rw [distributePower, value_distribute, ih, pow_succ]

mutual

@[simp] theorem value_expand (f : Form Int) : value σ (expand f) = value σ f := by
  match f with
  | power base e =>
      cases base with
      | inverse base => simp [expand]
      | _ =>
          rw [value_power, expand, value_distributePower, value_expand]
          intro inverted isInverse
          cases isInverse
  | product c factors => simp [expand, value_expandProduct factors]
  | sum ts => simp [expand, value_expandSum ts]
  | number _ | symbol _ | unknown _ _ _ | extremum _ _ | inverse _ => simp [expand]

theorem value_expandProduct (fs : List (Form Int)) :
    value σ (expandProduct fs) = (fs.map (value σ)).prod := by
  match fs with
  | [] => simp [expandProduct]
  | f :: rest => simp [expandProduct, value_expand f, value_expandProduct rest]

theorem value_expandSum (ts : List (Form Int)) :
    value σ (expandSum ts) = (ts.map (value σ)).sum := by
  match ts with
  | [] => simp [expandSum]
  | t :: rest => simp [expandSum, value_expand t, value_expandSum rest]

end

end Form

end ReverseMode
