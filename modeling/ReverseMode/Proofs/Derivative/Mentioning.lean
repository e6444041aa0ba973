import ReverseMode.Proofs.Derivative.Partials
import ReverseMode.Proofs.Exact.Elementary

namespace ReverseMode

open Expr

theorem mkBinary_over (op : BinaryOp) (a b : Expr) :
    Produces (Expr.mkBinary op a b) fun e => Subnode a e ∧ Subnode b e :=
  .new fun _ => ⟨.operand (.head _) .here, .operand (.tail _ (.head _)) .here⟩

theorem compare_over (op : BinaryOp) (a b : Expr) :
    Produces (Expr.compare op a b) fun e => Subnode a e ∧ Subnode b e := by
  unfold Expr.compare
  split
  · exact (mkBinary_over _ b a).mono fun _ both => both.symm
  · exact mkBinary_over _ a b

theorem neg_over (a : Expr) : Produces a.neg fun e => Subnode a e := by
  have subtracted (c : Constant) : Produces (do (← Expr.const c).sub a) fun e => Subnode a e :=
    Produces.bind (P := fun _ => True) (fun _ => trivial) fun zero _ =>
      (mkBinary_over .sub zero a).mono fun _ => And.right
  unfold Expr.neg
  split
  · exact subtracted _
  · exact subtracted _

theorem adjointWhere_over (condition adjoint : Expr) :
    Produces (adjointWhere condition adjoint) fun e => Subnode condition e ∧ Subnode adjoint e :=
  Produces.bind (P := fun _ => True) (fun _ => trivial) fun _ _ =>
    .new fun _ => ⟨.operand (.head _) .here, .operand (.tail _ (.head _)) .here⟩

theorem adjointUnless_over (condition adjoint : Expr) :
    Produces (adjointUnless condition adjoint) fun e => Subnode condition e ∧ Subnode adjoint e :=
  Produces.bind (P := fun _ => True) (fun _ => trivial) fun _ _ =>
    .new fun _ => ⟨.operand (.head _) .here, .operand (.tail _ (.tail _ (.head _))) .here⟩

def Over (adjoint : Expr) (contribution : Expr × Expr) (branch : Expr × List Expr) : Prop :=
  contribution.1 = branch.1 ∧ ∀ w ∈ adjoint :: branch.2, Subnode w contribution.2

section

variable {a b adjoint : Expr}

theorem over_alone {e : Expr} (within : Subnode adjoint e) : Over adjoint (a, e) (a, []) :=
  ⟨rfl, List.forall_mem_singleton.2 within⟩

theorem over_one {e : Expr} (within : Subnode adjoint e ∧ Subnode b e) : Over adjoint (a, e) (a, [b]) :=
  ⟨rfl, List.forall_mem_cons.2 ⟨within.1, List.forall_mem_singleton.2 within.2⟩⟩

theorem over_both {c e : Expr} (within : Subnode adjoint e) (left : Subnode a e) (right : Subnode b e) :
    Over adjoint (c, e) (c, [a, b]) :=
  ⟨rfl, List.forall_mem_cons.2 ⟨within, List.forall_mem_cons.2 ⟨left, List.forall_mem_singleton.2 right⟩⟩⟩

theorem compared_over (op : BinaryOp) : Produces (do
      let first ← adjointWhere (← Expr.compare op a b) adjoint
      let second ← adjointWhere (← Expr.compare op b a) adjoint
      return [(a, first), (b, second)]) fun contributions =>
        List.Forall₂ (Over adjoint) contributions [(a, [a, b]), (b, [a, b])] := by
  refine (compare_over op a b).bind fun _ isFirst => (adjointWhere_over _ adjoint).bind fun _ first => ?_
  refine (compare_over op b a).bind fun _ isSecond => (adjointWhere_over _ adjoint).bind fun _ second => ?_
  exact .pure (.cons (over_both first.2 (isFirst.1.trans first.1) (isFirst.2.trans first.1))
    (.cons (over_both second.2 (isSecond.2.trans second.1) (isSecond.1.trans second.1)) .nil))

variable (a b adjoint) in
theorem binaryContributions_over (op : BinaryOp) :
    Produces (binaryContributions op a b adjoint) fun contributions =>
      List.Forall₂ (Over adjoint) contributions (binaryWeights op a b) := by
  unfold binaryContributions
  cases op with
  | add => exact .pure (.cons (over_alone .here) (.cons (over_alone .here) .nil))
  | sub =>
      exact (neg_over adjoint).bind fun _ negated =>
        .pure (.cons (over_alone .here) (.cons (over_alone negated) .nil))
  | mul =>
      exact (mkBinary_over .mul adjoint b).bind fun _ first =>
        (mkBinary_over .mul adjoint a).bind fun _ second =>
        .pure (.cons (over_one first) (.cons (over_one second) .nil))
  | div =>
      refine (mkBinary_over .div adjoint b).bind fun _ first => (neg_over adjoint).bind fun _ negated =>
        (mkBinary_over .mul _ a).bind fun _ weighted => (mkBinary_over .mul b b).bind fun _ square =>
        (mkBinary_over .div _ _).bind fun _ second => ?_
      exact .pure (.cons (over_one first) (.cons (over_both ((negated.trans weighted.1).trans second.1)
        (weighted.2.trans second.1) (square.1.trans second.2)) .nil))
  | min => exact compared_over .le
  | max => exact compared_over .ge
  | _ => exact .pure .nil

end

/-- The variable stands in the adjoint of the node. -/
def Accumulation.Mentions (s : Accumulation) (id : NodeId) (name : String) : Prop :=
  ∃ a, s.adjoints[id]? = some a ∧ Expr.Mentions a name

def Accumulation.Weighed (s : Accumulation) (x adjoint : Expr) : Prop :=
  ∀ branch ∈ x.weights, ∀ w ∈ adjoint :: branch.2, ∀ name, Expr.Mentions w name →
    s.Mentions branch.1.id name

theorem Accumulation.Weighed.of_weightless {s : Accumulation} {x adjoint : Expr}
    (weightless : x.weights = []) : s.Weighed x adjoint := by
  rw [Accumulation.Weighed, weightless]
  simp

theorem Over.mentions {adjoint w : Expr} {contribution : Expr × Expr} {branch : Expr × List Expr}
    {name : String} (built : Over adjoint contribution branch) (member : w ∈ adjoint :: branch.2)
    (mentioned : Mentions w name) : Mentions contribution.2 name :=
  mentioned.sub (built.2 w member)

theorem Builds.produces {α : Type} {action : NodeM α} {r : Registry} {Q : Registry → α → Prop}
    {P : α → Prop} (built : Builds action r Q) (produced : Produces action P) :
    Builds action r fun later a => Q later a ∧ P a := by
  intro supply fits
  obtain ⟨later, extended, fits', answer⟩ := built supply fits
  exact ⟨later, extended, fits', answer, produced supply⟩

end ReverseMode
