import ReverseMode.Derivative.Scatter
import ReverseMode.Proofs.Exact.Program
import ReverseMode.Proofs.Nodes.Building

namespace ReverseMode

open Expr

def IsZeroFloat (e : Expr) : Prop := ∃ id, e = .node id (.const (.float 0.0)) .float32 []

def IsMasked (condition adjoint e : Expr) : Prop :=
  ∃ id dtype zero, IsZeroFloat zero ∧ e = .node id .select dtype [condition, adjoint, zero]

theorem zero_sound {r : Registry} :
    Builds (Expr.float 0.0) r fun later e => later.Holds e ∧ IsZeroFloat e :=
  (Builds.const (.float 0.0)).mono fun _ _ _ made => made

theorem adjointWhere_sound {r : Registry} {condition adjoint : Expr} (held : r.Holds condition)
    (heldAdjoint : r.Holds adjoint) :
    Builds (adjointWhere condition adjoint) r fun later e =>
      later.Holds e ∧ IsMasked condition adjoint e := by
  refine Builds.bind zero_sound fun r1 zero ext1 ⟨heldZero, isZero⟩ => ?_
  exact (Builds.select (held.extend ext1) (heldAdjoint.extend ext1) heldZero).mono
    fun r2 e _ ⟨heldResult, i, isNode⟩ => ⟨heldResult, i, _, zero, isZero, isNode⟩

namespace IsMasked

variable {condition adjoint e : Expr}

theorem shaped (masked : IsMasked condition adjoint e) (first : Shaped condition)
    (second : Shaped adjoint) : Shaped e := by
  obtain ⟨id, dtype, zero, ⟨id', rfl⟩, rfl⟩ := masked
  simp [shaped_node, Head.arity?, first, second]

theorem binds (masked : IsMasked condition adjoint e) {name : String} :
    Binds e name ↔ Binds condition name ∨ Binds adjoint name := by
  obtain ⟨id, dtype, zero, ⟨id', rfl⟩, rfl⟩ := masked
  simp [binds_node]

theorem free (masked : IsMasked condition adjoint e) {name : String} :
    Free name e ↔ Free name condition ∨ Free name adjoint := by
  obtain ⟨id, dtype, zero, ⟨id', rfl⟩, rfl⟩ := masked
  simp [free_operands]

theorem subnode (masked : IsMasked condition adjoint e) {y : Expr} {name : String}
    (isVariable : y.variableName? = some name) :
    Subnode y e ↔ Subnode y condition ∨ Subnode y adjoint := by
  obtain ⟨id, dtype, zero, ⟨id', rfl⟩, rfl⟩ := masked
  have notZero : ¬ Subnode y (.node id' (.const (.float 0.0)) .float32 []) := by
    rw [subnode_node]
    rintro (rfl | ⟨x, member, _⟩)
    · cases isVariable
    · cases member
  rw [subnode_node]
  constructor
  · rintro (rfl | ⟨x, member, within⟩)
    · cases isVariable
    · simp only [List.mem_cons, List.not_mem_nil, or_false] at member
      rcases member with rfl | rfl | rfl
      · exact .inl within
      · exact .inr within
      · exact absurd within notZero
  · rintro (within | within)
    · exact .inr ⟨condition, by simp, within⟩
    · exact .inr ⟨adjoint, by simp, within⟩

theorem calls (masked : IsMasked condition adjoint e) {callee : FuncId} :
    e.Calls callee ↔ condition.Calls callee ∨ adjoint.Calls callee := by
  obtain ⟨id, dtype, zero, ⟨id', rfl⟩, rfl⟩ := masked
  simp [calls_node]

theorem exact {α : Type} [Scalar α] (masked : IsMasked condition adjoint e) (answers : CallValues α)
    (env : Env) : Expr.exact answers env e =
      if standard (Expr.exact answers env condition) ≠ 0 then Expr.exact answers env adjoint
      else 0 := by
  obtain ⟨id, dtype, zero, ⟨id', rfl⟩, rfl⟩ := masked
  simp [headExact, Constant.exact_zero]

end IsMasked

def IsAtLeast (a b e : Expr) : Prop :=
  (∃ id, e = .node id (.binary .ge) .bool [a, b]) ∨ ∃ id, e = .node id (.binary .le) .bool [b, a]

theorem ge_sound {r : Registry} {a b : Expr} (left : r.Holds a) (right : r.Holds b) :
    Builds (Expr.ge a b) r fun later e => later.Holds e ∧ IsAtLeast a b e := by
  unfold Expr.ge Expr.compare
  split
  next =>
    exact (Builds.binary _ right left).mono fun _ _ _ ⟨held, isNode⟩ => ⟨held, .inr isNode⟩
  next =>
    exact (Builds.binary _ left right).mono fun _ _ _ ⟨held, isNode⟩ => ⟨held, .inl isNode⟩

theorem le_sound {r : Registry} {a b : Expr} (left : r.Holds a) (right : r.Holds b) :
    Builds (Expr.le a b) r fun later e => later.Holds e ∧ IsAtLeast b a e := by
  unfold Expr.le Expr.compare
  split
  next =>
    exact (Builds.binary _ right left).mono fun _ _ _ ⟨held, isNode⟩ => ⟨held, .inl isNode⟩
  next =>
    exact (Builds.binary _ left right).mono fun _ _ _ ⟨held, isNode⟩ => ⟨held, .inr isNode⟩

theorem plain_pair {id : NodeId} {op : BinaryOp} {dtype : DType} {a b : Expr} :
    Plain (.node id (.binary op) dtype [a, b]) ↔ Plain a ∧ Plain b := by
  simp [plain_node, IsPlain, Head.arity?]

theorem calls_pair {id : NodeId} {op : BinaryOp} {dtype : DType} {a b : Expr} {callee : FuncId} :
    (Expr.node id (.binary op) dtype [a, b]).Calls callee ↔ a.Calls callee ∨ b.Calls callee := by
  simp [calls_node]

theorem subnode_pair {id : NodeId} {op : BinaryOp} {dtype : DType} {a b y : Expr} {name : String}
    (isVariable : y.variableName? = some name) :
    Subnode y (.node id (.binary op) dtype [a, b]) ↔ Subnode y a ∨ Subnode y b := by
  rw [subnode_node]
  constructor
  · rintro (rfl | ⟨x, member, within⟩)
    · cases isVariable
    · simp only [List.mem_cons, List.not_mem_nil, or_false] at member
      rcases member with rfl | rfl
      · exact .inl within
      · exact .inr within
  · rintro (within | within)
    · exact .inr ⟨a, by simp, within⟩
    · exact .inr ⟨b, by simp, within⟩

namespace IsAtLeast

variable {a b e : Expr}

theorem dtype (atLeast : IsAtLeast a b e) : e.dtype = .bool := by
  rcases atLeast with ⟨id, rfl⟩ | ⟨id, rfl⟩ <;> rfl

theorem plain (atLeast : IsAtLeast a b e) (first : Plain a) (second : Plain b) : Plain e := by
  rcases atLeast with ⟨id, rfl⟩ | ⟨id, rfl⟩
  · exact plain_pair.2 ⟨first, second⟩
  · exact plain_pair.2 ⟨second, first⟩

theorem subnode (atLeast : IsAtLeast a b e) {y : Expr} {name : String}
    (isVariable : y.variableName? = some name) :
    Subnode y e ↔ Subnode y a ∨ Subnode y b := by
  rcases atLeast with ⟨id, rfl⟩ | ⟨id, rfl⟩
  · exact subnode_pair isVariable
  · exact (subnode_pair isVariable).trans or_comm

theorem calls (atLeast : IsAtLeast a b e) {callee : FuncId} :
    e.Calls callee ↔ a.Calls callee ∨ b.Calls callee := by
  rcases atLeast with ⟨id, rfl⟩ | ⟨id, rfl⟩
  · exact calls_pair
  · exact calls_pair.trans or_comm

theorem exact {α : Type} [Scalar α] (atLeast : IsAtLeast a b e) (answers : CallValues α) (env : Env) :
    Expr.exact answers env e =
      truth (standard (Expr.exact answers env b) ≤ standard (Expr.exact answers env a)) := by
  rcases atLeast with ⟨id, rfl⟩ | ⟨id, rfl⟩ <;> simp [headExact, BinaryOp.exact]

end IsAtLeast

@[simp] theorem truth_ne_zero {p : Prop} [Decidable p] : (truth p : ℚ) ≠ 0 ↔ p := by
  unfold truth
  split <;> simp_all

end ReverseMode
