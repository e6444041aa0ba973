import Mathlib.Tactic.NormNum
import ReverseMode.Proofs.Realize.Stages

/-!
# Indices that keep their value

A write counts its coordinates from the least index of the region, in the type they are given in.
Where that type has 64 bits, or is a signed type and the index is at least `-1`, what is left within
the extent is the distance of the index from the least one: nothing wraps around into the region.
-/

namespace ReverseMode

open Expr

def Element.isWhole : Element → Bool
  | .real _ => false
  | _ => true

/-- The value of the expression is a number or has 64 bits, whatever the types of the variables
listed. -/
def Expr.isWide (narrow : List String) : Expr → Bool
  | .node _ (.var name _) _ _ => !narrow.contains name
  | .reduction _ domain axis _ _ => !narrow.contains (axisName domain axis)
  | .node _ (.binary op) _ [a, b] => !op.isBoolean && (isWide narrow a || isWide narrow b)
  | .node _ .select _ [_, a, b] => isWide narrow a || isWide narrow b
  | .node _ (.letIn name) _ (value :: body :: _) =>
      isWide (if isWide narrow value then narrow.filter (· != name) else name :: narrow) body
  | .node _ (.call (.image source)) _ _ =>
      source.data.type = .int64 && source.data.data.all Element.isWhole
  | _ => false

def ElementType.isSigned (t : ElementType) : Bool :=
  match t.family with
  | .truth | .signed _ => true
  | _ => false

def Element.isDistance (t : ElementType) (e : Element) : Bool :=
  e.isWhole && t.contains e.toInt && -1 ≤ e.toInt

/-- Whether an index expression keeps its value when it is counted from another least index. -/
def Expr.isSteadyIndex : Expr → Bool
  | .node _ (.const (.int k)) _ _ => -1 ≤ k
  | .node _ (.call (.image source)) _ _ =>
      let t := source.data.type
      (t.isSigned && source.data.data.all (Element.isDistance t)) ||
        (t = .int64 && source.data.data.all Element.isWhole)
  | e => e.isWide []

namespace Tensor

def Wide (t : Tensor) : Prop :=
  t.type.isReal ∨ t.type = .int64 ∧ ∀ e ∈ t.data, e.isWhole

def Indexes (t : Tensor) : Prop :=
  t.Wide ∨ t.type.isSigned ∧ ∀ e ∈ t.data, e.isDistance t.type

theorem wide_scalar (i : Int) : (scalar .int64 (.int i)).Wide :=
  .inr ⟨rfl, by simp [scalar, Element.isWhole]⟩

theorem indexes_scalar {t : ElementType} {e : Element} (signed : t.isSigned)
    (isDistance : e.isDistance t) : (scalar t e).Indexes :=
  .inr ⟨signed, by simpa [scalar] using isDistance⟩

end Tensor

theorem Element.isDistance_default {t : ElementType} (signed : t.isSigned) :
    Element.isDistance t default := by
  cases t with
  | bool | int8 | int16 | int32 | int64 => decide
  | _ => cases signed

theorem ElementType.join_wide {a b : ElementType}
    (wide : (a.isReal ∨ a = .int64) ∨ (b.isReal ∨ b = .int64)) :
    (a.join b).isReal ∨ a.join b = .int64 := by
  revert wide
  cases a <;> cases b <;> decide

theorem Element.convert_int64 (e : Element) : ∃ i, e.convert .int64 = .int i := by
  cases e <;> exact ⟨_, rfl⟩

namespace Tensor

theorem Wide.type {t : Tensor} (wide : t.Wide) : t.type.isReal ∨ t.type = .int64 :=
  wide.imp_right And.left

section

variable {a b t : Tensor} {type : ElementType} (fits : a.Fits []) (fits' : b.Fits [])
include fits fits'

theorem wide_zipWith {f : Element → Element → Element} (wide : type.isReal ∨ type = .int64)
    (integer : type = .int64 → ∀ i j : Int, (f (.int i) (.int j)).isWhole)
    (run : zipWith type f (a.convert type) (b.convert type) = .ok t) : t.Wide := by
  obtain ⟨shape, common, made⟩ := Except.bind_ok.1 run
  have isType : t.type = type := by cases made; rfl
  refine (isType.symm ▸ wide).imp id fun isWide => ⟨isWide, fun e member => ?_⟩
  rw [isType] at isWide
  cases made
  obtain ⟨k, rfl⟩ := Array.mem_ofFn.1 member
  have ofScalar {c : Tensor} (fits : c.Fits []) : ∃ i, (c.convert type).entry k = .int i := by
    have scalar : (c.convert type).shape = [] := fits.shape.elim id id
    rw [entry_of_scalar scalar k 0, entry_convert fits Nat.one_pos, isWide]
    exact Element.convert_int64 _
  obtain ⟨i, isLeft⟩ := ofScalar fits
  obtain ⟨j, isRight⟩ := ofScalar fits'
  rw [isLeft, isRight]
  exact integer isWide i j

theorem wide_joined {f : ElementType → Element → Element → Element} (wide : a.Wide ∨ b.Wide)
    (integer : ∀ i j : Int, (f .int64 (.int i) (.int j)).isWhole)
    (run : joined f a b = .ok t) : t.Wide :=
  wide_zipWith fits fits' (ElementType.join_wide (wide.imp Wide.type Wide.type))
    (fun is64 => is64 ▸ integer) run

theorem wide_binary {op : BinaryOp} {real : Bool} (numeric : op.isBoolean = false)
    (wide : a.Wide ∨ b.Wide) (run : binary op real a b = .ok t) : t.Wide := by
  have joins := ElementType.join_wide (wide.imp Wide.type Wide.type)
  cases op with
  | add => exact wide_joined fits fits' wide (fun _ _ => rfl) run
  | sub =>
      unfold binary subtract at run
      dsimp only at run
      split at run
      · cases run
      · exact wide_joined fits fits' wide (fun _ _ => rfl) run
  | mul => exact wide_joined fits fits' wide (fun _ _ => rfl) run
  | div =>
      cases real with
      | true =>
          refine wide_zipWith fits fits' (.inl ?_) (fun is64 => ?_) run
          · split
            next isReal => exact isReal
            next => rfl
          · split at is64
            next isReal => rw [is64] at isReal; cases isReal
            next => cases is64
      | false =>
          refine wide_zipWith fits fits' ?_ (fun _ _ _ => rfl) run
          have notBool : a.type.join b.type ≠ .bool := by
            intro isBool
            simp [isBool, ElementType.isReal, ElementType.family] at joins
          rwa [if_neg notBool]
  | min =>
      have run : joined (fun _ => Element.min) a b = .ok t := run
      exact wide_joined fits fits' wide (fun _ _ => rfl) run
  | max =>
      have run : joined (fun _ => Element.max) a b = .ok t := run
      exact wide_joined fits fits' wide (fun _ _ => rfl) run
  | _ => cases numeric

theorem wide_choose {condition : Tensor} (wide : a.Wide ∨ b.Wide)
    (run : choose condition a b = .ok t) : t.Wide := by
  obtain ⟨shape, common, made⟩ := Except.bind_ok.1 run
  have isType : t.type = a.type.join b.type := by cases made; rfl
  have joins := ElementType.join_wide (wide.imp Wide.type Wide.type)
  refine (isType.symm ▸ joins).imp id fun isWide => ⟨isWide, fun e member => ?_⟩
  rw [isType] at isWide
  cases made
  obtain ⟨k, rfl⟩ := Array.mem_ofFn.1 member
  have ofScalar {c : Tensor} (fits : c.Fits []) :
      ((c.convert (a.type.join b.type)).entry k).isWhole := by
    have scalar : (c.convert (a.type.join b.type)).shape = [] := fits.shape.elim id id
    rw [entry_of_scalar scalar k 0, entry_convert fits Nat.one_pos, isWide]
    obtain ⟨i, isInt⟩ := Element.convert_int64 (c.entry 0)
    rw [isInt]
    rfl
  split
  · exact ofScalar fits
  · exact ofScalar fits'

end

theorem readImage_each {P : Element → Prop} {source : Image} (each : ∀ e ∈ source.data.data, P e)
    (isDefault : P default) {shape : List Nat} {coordinates : List Tensor} {t : Tensor}
    (run : Eval.readImage source shape coordinates = .ok t) :
    t.type = source.data.type ∧ ∀ e ∈ t.data, P e := by
  obtain ⟨_, _, made⟩ := Except.bind_ok.1 run
  cases made
  refine ⟨rfl, fun e member => ?_⟩
  obtain ⟨place, _, rfl⟩ := Array.mem_map.1 member
  have stored (position : Nat) : P (source.data.data.getD position default) := by
    rw [Array.getD_eq_getD_getElem?]
    cases found : source.data.data[position]? with
    | none => exact isDefault
    | some e => exact each e (Array.mem_of_getElem? found)
  unfold entry
  split <;> exact stored _

end Tensor

namespace Fields

variable {kernels : Kernels} {fields : Fields}

theorem wide_eval (e : Expr) {narrow : List String} {env : Environment} (fits : env.Fits [])
    (wide : ∀ name, name ∉ narrow → ∀ t, Eval.lookUp env name = .ok t → t.Wide)
    (isWide : e.isWide narrow) {t : Tensor} (run : fields.eval kernels env e = .ok t) : t.Wide := by
  induction e using Expr.induction generalizing narrow env t with
  | node id head dtype operands ih =>
      unfold Expr.isWide at isWide
      split at isWide
      next isNode =>
        cases isNode
        rw [eval] at run
        exact wide _ (by simpa using isWide) t run
      next isNode => cases isNode
      next op a b isNode =>
        cases isNode
        rw [Bool.and_eq_true, Bool.or_eq_true, Bool.not_eq_true'] at isWide
        simp only [eval] at run
        obtain ⟨values, operands, run⟩ := Except.bind_ok.1 run
        cases evalAll_eq_ok.1 operands with
        | @cons _ x _ _ isLeft others =>
            cases others with
            | @cons _ y _ _ isRight others =>
                cases others
                refine Tensor.wide_binary (eval_elementwise a fits isLeft).1
                  (eval_elementwise b fits isRight).1 isWide.1 (isWide.2.imp ?_ ?_) run
                · exact fun isWide => ih a (.head _) fits wide isWide isLeft
                · exact fun isWide => ih b (.tail _ (.head _)) fits wide isWide isRight
      next condition a b isNode =>
        cases isNode
        rw [Bool.or_eq_true] at isWide
        simp only [eval] at run
        obtain ⟨values, operands, run⟩ := Except.bind_ok.1 run
        cases evalAll_eq_ok.1 operands with
        | cons _ others =>
            cases others with
            | @cons _ x _ _ isTrue others =>
                cases others with
                | @cons _ y _ _ isFalse others =>
                    cases others
                    refine Tensor.wide_choose (eval_elementwise a fits isTrue).1
                      (eval_elementwise b fits isFalse).1 (isWide.imp ?_ ?_) run
                    · exact fun isWide => ih a (.tail _ (.head _)) fits wide isWide isTrue
                    · exact fun isWide => ih b (.tail _ (.tail _ (.head _))) fits wide isWide isFalse
      next name _ value body _ isNode =>
        cases isNode
        simp only [eval] at run
        obtain ⟨bound, isBound, run⟩ := Except.bind_ok.1 run
        refine ih body (.tail _ (.head _)) (fits.cons (eval_elementwise value fits isBound).1 name)
          ?_ isWide run
        -- Where the value may be narrow, its name counts as narrow in the body.
        intro other allowed t known
        unfold Eval.lookUp at known
        rw [List.lookup_cons] at known
        by_cases isName : other = name
        · subst isName
          rw [beq_self_eq_true] at known
          cases known
          refine ih value (.head _) fits wide ?_ isBound
          by_contra isNarrow
          simp [isNarrow] at allowed
        · rw [beq_eq_false_iff_ne.2 isName] at known
          refine wide other (fun isNarrow => allowed ?_) t known
          split <;> simp [isName, isNarrow]
      next source args isNode =>
        cases isNode
        simp only [eval] at run
        obtain ⟨values, _, run⟩ := Except.bind_ok.1 run
        obtain ⟨_, _, run⟩ := Except.bind_ok.1 run
        rw [Bool.and_eq_true, decide_eq_true_eq, Array.all_eq_true_iff_forall_mem] at isWide
        obtain ⟨sameType, whole⟩ := Tensor.readImage_each isWide.2 rfl run
        exact .inr ⟨sameType.trans isWide.1, whole⟩
      next => cases isWide
  | reduction id domain axis least extent =>
      rw [eval] at run
      exact wide _ (by simpa [Expr.isWide] using isWide) t run

theorem indexes_eval {e : Expr} {env : Environment} (fits : env.Fits [])
    (wide : ∀ name t, Eval.lookUp env name = .ok t → t.Wide) (steady : e.isSteadyIndex) {t : Tensor}
    (run : fields.eval kernels env e = .ok t) : t.Indexes := by
  unfold isSteadyIndex at steady
  split at steady
  next id k dtype operands =>
    simp only [eval, Eval.constant] at run
    split at run
    next contained =>
      cases run
      have isDistance : (Element.int k).isDistance (.ofDType dtype) := by
        simp only [Element.isDistance, Bool.and_eq_true]
        exact ⟨⟨rfl, contained⟩, steady⟩
      cases dtype with
      | float32 => exact .inl (.inl rfl)
      | int32 => exact Tensor.indexes_scalar rfl isDistance
      | bool => exact Tensor.indexes_scalar rfl isDistance
    next => cases run
  next source args =>
    simp only [eval] at run
    obtain ⟨values, _, run⟩ := Except.bind_ok.1 run
    obtain ⟨_, _, run⟩ := Except.bind_ok.1 run
    rw [Bool.or_eq_true, Bool.and_eq_true, Bool.and_eq_true, Array.all_eq_true_iff_forall_mem,
      Array.all_eq_true_iff_forall_mem, decide_eq_true_eq] at steady
    rcases steady with ⟨signed, each⟩ | ⟨is64, each⟩
    · obtain ⟨sameType, each⟩ := Tensor.readImage_each each (Element.isDistance_default signed) run
      rw [← sameType] at signed each
      exact .inr ⟨signed, each⟩
    · obtain ⟨sameType, each⟩ := Tensor.readImage_each each rfl run
      exact .inl (.inr ⟨sameType.trans is64, each⟩)
  next => exact .inl (wide_eval e fits (fun name _ => wide name) steady run)

end Fields

namespace ElementType

theorem wrap_sub_int64 {v least : Int} {extent : Nat} (low : -2 ^ 63 ≤ least)
    (high : least + extent ≤ 2 ^ 63) (above : 0 ≤ int64.wrap (v - least))
    (below : int64.wrap (v - least) < extent) : least + int64.wrap (v - least) = int64.wrap v := by
  have modulus : Nat.pow 2 64 = 18446744073709551616 := by norm_num
  simp only [wrap, family, modulus, Int.bmod_def] at *
  omega

theorem wrap_sub_signed {t : ElementType} {v least : Int} (signed : t.isSigned) (notTruth : t ≠ .bool)
    (contained : t.contains v) (bound : -1 ≤ v) (containsLeast : t.contains least)
    (above : 0 ≤ t.wrap (v - least)) : least + t.wrap (v - least) = int64.wrap v := by
  have powers : Nat.pow 2 8 = 256 ∧ Nat.pow 2 16 = 65536 ∧ Nat.pow 2 32 = 4294967296 ∧
      Nat.pow 2 64 = 18446744073709551616 := by norm_num
  cases t with
  | bool => exact absurd rfl notTruth
  | int8 | int16 | int32 | int64 =>
      simp only [contains, wrap, family, powers, decide_eq_true_eq, Int.bmod_def] at *
      omega
  | _ => cases signed

end ElementType

theorem Element.toInt_convert {e : Element} (whole : e.isWhole) :
    (e.convert .int64).toInt = ElementType.int64.wrap e.toInt := by
  cases e with
  | bool b => cases b <;> decide
  | int i => rfl
  | real x => cases whole

namespace Tensor

theorem offsets_of_whole {c o : Tensor} {least : Int} (run : c.offsets least = .ok o)
    (whole : o.type.isReal = false) : c.type.isReal = false ∧ ∃ kind : ElementType,
      (if c.type = .bool then .int64 else c.type) = kind ∧ kind.contains least ∧
        o = c.map kind fun e => .int (kind.wrap (e.toInt - least)) := by
  unfold offsets at run
  split at run
  next isReal =>
    cases run
    exact absurd isReal (by simpa [map] using whole)
  next notReal =>
    generalize (if c.type = .bool then ElementType.int64 else c.type) = kind at run
    dsimp only at run
    split at run
    next containsLeast =>
      cases run
      exact ⟨Bool.eq_false_iff.2 notReal, kind, rfl, containsLeast, rfl⟩
    next => cases run

theorem offsets_entry {c o : Tensor} {grid : List Nat} {least : Int} {extent position : Nat}
    (fits : c.Fits grid) (within : position < shapeSize grid) (indexes : (c.pick position).Indexes)
    (run : c.offsets least = .ok o) (whole : o.type.isReal = false)
    (inside : o.leaves 0 extent = false) (low : -2 ^ 63 ≤ least) (high : least + extent ≤ 2 ^ 63) :
    Box.OnAxis ((c.entry position).convert .int64).toInt (least, extent) ∧
      (o.entry position).toInt = ((c.entry position).convert .int64).toInt - least := by
  obtain ⟨notReal, kind, isKind, containsLeast, rfl⟩ := offsets_of_whole run whole
  have entry : (c.map kind fun e => .int (kind.wrap (e.toInt - least))).entry position =
      .int (kind.wrap ((c.entry position).toInt - least)) := entry_map fits within
  have bounds := leaves_eq_false.1 inside _ (entry_mem (fits_map _ _ fits) within)
  rw [entry] at bounds ⊢
  obtain ⟨above, below⟩ : 0 ≤ kind.wrap ((c.entry position).toInt - least) ∧
      kind.wrap ((c.entry position).toInt - least) < 0 + extent := bounds
  have keeps : least + kind.wrap ((c.entry position).toInt - least) =
      ((c.entry position).convert .int64).toInt := by
    have isEntry : c.entry position ∈ (c.pick position).data := by simp [pick, scalar]
    rcases indexes with (isReal | ⟨is64, whole⟩) | ⟨signed, distances⟩
    · exact absurd isReal (Bool.eq_false_iff.1 notReal)
    · have isWhole := whole _ isEntry
      obtain rfl : kind = .int64 := by rw [← isKind, show c.type = .int64 from is64]; rfl
      rw [Element.toInt_convert isWhole]
      exact ElementType.wrap_sub_int64 low high above (by omega)
    · have isDistance := distances _ isEntry
      simp only [Element.isDistance, Bool.and_eq_true, decide_eq_true_eq] at isDistance
      obtain ⟨⟨isWhole, contained⟩, bound⟩ := isDistance
      rw [Element.toInt_convert isWhole]
      split at isKind
      next =>
        subst isKind
        exact ElementType.wrap_sub_int64 low high above (by omega)
      next notTruth =>
        subst isKind
        exact ElementType.wrap_sub_signed signed notTruth contained bound containsLeast above
  change (least ≤ _ ∧ _ < least + (extent : Int)) ∧ kind.wrap _ = _
  omega

end Tensor

end ReverseMode
