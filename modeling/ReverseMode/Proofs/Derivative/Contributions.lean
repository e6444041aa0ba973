import ReverseMode.Derivative.Accumulation
import ReverseMode.Proofs.Derivative.Masks
import ReverseMode.Proofs.Exact.Sensitivity

namespace ReverseMode

def Produces {α : Type} (action : NodeM α) (P : α → Prop) : Prop :=
  ∀ supply, P (action.run supply).1

namespace Produces

variable {α β : Type} {P Q : α → Prop} {R : β → Prop}

theorem pure {a : α} (answer : P a) : Produces (Pure.pure a) P := fun _ => answer

theorem bind {action : NodeM α} {rest : α → NodeM β} (first : Produces action P)
    (second : ∀ a, P a → Produces (rest a) R) : Produces (action >>= rest) R :=
  fun supply => second _ (first supply) _

theorem mono {action : NodeM α} (produces : Produces action P) (implies : ∀ a, P a → Q a) :
    Produces action Q := fun supply => implies _ (produces supply)

theorem new {head : Head} {dtype : DType} {operands : List Expr} {P : Expr → Prop}
    (answer : ∀ id, P (.node id head dtype operands)) : Produces (Expr.new head dtype operands) P :=
  fun supply => answer supply.nodes

end Produces

theorem Expr.exactIn_of_isZero {answers : CallValues ℚ} {env : String → ℚ} {e : Expr}
    (isZero : e.isZero = true) : e.exactIn answers env = 0 := by
  cases e with
  | node id head dtype operands =>
      cases head <;> try cases isZero
      rw [exactIn_head (by simp)]
      exact Constant.exact_of_isZero isZero
  | reduction => cases isZero

structure Amounts (answers : CallValues ℚ) (env : String → ℚ) (v : ℚ) (e : Expr) : Prop where
  isFloat : e.dtype = .float32
  exact : e.exactIn answers env = v

namespace Amounts

variable {answers : CallValues ℚ} {env : String → ℚ} {v w : ℚ} {a b condition value : Expr}

variable (answers env) in
theorem zero : Produces (Expr.float 0.0) (Amounts answers env 0) :=
  .new fun id => ⟨rfl, by simp [headExact, Constant.exact_zero]⟩

theorem binary {op : BinaryOp} (amounts : Amounts answers env v a)
    (arithmetic : op.isBoolean = false)
    (b : Expr) :
    Produces (Expr.mkBinary op a b)
      (Amounts answers env (op.exact .float32 v (b.exactIn answers env))) := by
  have isFloat : (if op.isBoolean then DType.bool else a.dtype.promote b.dtype) = .float32 := by
    simp [arithmetic, DType.promote, amounts.isFloat]
  unfold Expr.mkBinary
  rw [isFloat]
  refine .new fun id => ⟨rfl, ?_⟩
  rw [Expr.exactIn_head (by simp), ← amounts.exact]
  rfl

theorem add (amounts : Amounts answers env w b) (a : Expr) :
    Produces (a.add b) (Amounts answers env (a.exactIn answers env + w)) := by
  refine .new fun id => ⟨?_, ?_⟩
  · change a.dtype.promote b.dtype = .float32
    simp [DType.promote, amounts.isFloat]
  · rw [Expr.exactIn_head (by simp), ← amounts.exact]
    rfl

theorem neg (amounts : Amounts answers env v a) : Produces a.neg (Amounts answers env (-v)) := by
  unfold Expr.neg
  rw [amounts.isFloat]
  refine (zero answers env).bind fun zero isZero => (isZero.binary rfl a).mono fun _ result => ?_
  rwa [amounts.exact, BinaryOp.exact, zero_sub] at result

theorem whereHolds (amounts : Amounts answers env v a) (condition : Expr) :
    Produces (adjointWhere condition a)
      (Amounts answers env (truth (condition.exactIn answers env ≠ 0) * v)) := by
  refine (zero answers env).bind fun zero isZero => .new fun id => ⟨?_, ?_⟩
  · change a.dtype.promote zero.dtype = .float32
    simp [DType.promote, amounts.isFloat]
  · rw [Expr.exactIn_head (by simp)]
    simp [headExact, truth, isZero.exact, amounts.exact]

theorem unlessHolds (amounts : Amounts answers env v a) (condition : Expr) :
    Produces (adjointUnless condition a)
      (Amounts answers env (truth (condition.exactIn answers env = 0) * v)) := by
  refine (zero answers env).bind fun zero isZero => .new fun id => ⟨?_, ?_⟩
  · change zero.dtype.promote a.dtype = .float32
    simp [DType.promote, amounts.isFloat]
  · rw [Expr.exactIn_head (by simp)]
    simp [headExact, truth, isZero.exact, amounts.exact]

theorem letIn {name : String} (amounts : Amounts answers env v a)
    (bound : env name = value.exactIn answers env) :
    Produces (Expr.letIn name value a) (Amounts answers env v) := by
  refine .new fun id => ⟨amounts.isFloat, ?_⟩
  rw [Expr.exactIn_let, ← bound, Function.update_eq_self]
  exact amounts.exact

end Amounts

section

variable {answers : CallValues ℚ} {env : String → ℚ} {v : ℚ} {a b adjoint : Expr}

variable (answers env a b) in
theorem mkBinary_exact (op : BinaryOp) :
    Produces (Expr.mkBinary op a b) fun e => ∃ dtype, e.exactIn answers env =
      op.exact dtype (a.exactIn answers env) (b.exactIn answers env) :=
  .new fun _ => ⟨_, Expr.exactIn_head (by simp)⟩

theorem mkBinary_truth {op : BinaryOp} {p : Prop} [Decidable p]
    (decides : ∀ dtype, op.exact dtype (a.exactIn answers env) (b.exactIn answers env) = truth p) :
    Produces (Expr.mkBinary op a b) fun e => e.exactIn answers env = truth p := by
  refine (mkBinary_exact answers env a b op).mono fun _ made => ?_
  obtain ⟨dtype, value⟩ := made
  exact value.trans (decides dtype)

theorem le_exact :
    Produces (a.le b) fun e => e.exactIn answers env =
      truth (a.exactIn answers env ≤ b.exactIn answers env) := by
  unfold Expr.le Expr.compare
  split
  · exact mkBinary_truth fun _ => rfl
  · exact mkBinary_truth fun _ => rfl

theorem ge_exact :
    Produces (a.ge b) fun e => e.exactIn answers env =
      truth (b.exactIn answers env ≤ a.exactIn answers env) := by
  unfold Expr.ge Expr.compare
  split
  · exact mkBinary_truth fun _ => rfl
  · exact mkBinary_truth fun _ => rfl

theorem Amounts.compared {p : Prop} [Decidable p] {condition : Expr}
    (amounts : Amounts answers env v adjoint) (decides : condition.exactIn answers env = truth p) :
    Produces (adjointWhere condition adjoint) (Amounts answers env (truth p * v)) :=
  (amounts.whereHolds condition).mono fun e result => by simpa [decides] using result

theorem binaryContributions_slopes (op : BinaryOp) (amounts : Amounts answers env v adjoint) :
    Produces (binaryContributions op a b adjoint) fun contributions =>
      List.Forall₂ (fun contribution (c, slope) => contribution.1 = c ∧
          Amounts answers env (slope * v) contribution.2) contributions
        ([a, b].zip (Expr.binarySlopes op (a.exactIn answers env) (b.exactIn answers env))) := by
  unfold binaryContributions
  cases op with
  | add => exact .pure (.cons ⟨rfl, by simpa⟩ (.cons ⟨rfl, by simpa⟩ .nil))
  | sub =>
      exact amounts.neg.bind fun _ second =>
        .pure (.cons ⟨rfl, by simpa⟩ (.cons ⟨rfl, by simpa⟩ .nil))
  | mul =>
      refine (amounts.binary rfl b).bind fun _ first =>
        (amounts.binary rfl a).bind fun _ second => ?_
      rw [BinaryOp.exact, mul_comm] at first second
      exact .pure (.cons ⟨rfl, first⟩ (.cons ⟨rfl, second⟩ .nil))
  | div =>
      refine (amounts.binary rfl b).bind fun _ first => amounts.neg.bind fun _ negated =>
        (negated.binary rfl a).bind fun _ weighted => (mkBinary_exact answers env b b .mul).bind
        fun square isSquare => (weighted.binary rfl square).bind fun _ second => ?_
      obtain ⟨_, isSquare⟩ := isSquare
      rw [isSquare] at second
      refine .pure (.cons ⟨rfl, ?_⟩ (.cons ⟨rfl, ?_⟩ .nil))
      · convert first using 1
        simp only [BinaryOp.exact, DType.isFloat, if_true]
        ring
      · convert second using 1
        simp only [BinaryOp.exact, DType.isFloat, if_true]
        ring
  | min =>
      refine le_exact.bind fun _ ordered => (amounts.compared ordered).bind fun _ first => ?_
      exact le_exact.bind fun _ ordered => (amounts.compared ordered).bind fun _ second =>
        .pure (.cons ⟨rfl, first⟩ (.cons ⟨rfl, second⟩ .nil))
  | max =>
      refine ge_exact.bind fun _ ordered => (amounts.compared ordered).bind fun _ first => ?_
      exact ge_exact.bind fun _ ordered => (amounts.compared ordered).bind fun _ second =>
        .pure (.cons ⟨rfl, first⟩ (.cons ⟨rfl, second⟩ .nil))
  | _ => exact .pure .nil

end

end ReverseMode
