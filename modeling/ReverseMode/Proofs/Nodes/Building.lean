import Mathlib.Data.List.Forall2
import ReverseMode.Proofs.Nodes.Registry

namespace ReverseMode

open Expr

def Registry.Has (r : Registry) (head : Head) (dtype : DType) (operands : List Expr) (e : Expr) :
    Prop := r.Holds e ∧ ∃ id, e = .node id head dtype operands

theorem Registry.HoldsAll.nil {r : Registry} : r.HoldsAll [] := fun _ member => nomatch member

theorem Registry.HoldsAll.cons {r : Registry} {e : Expr} {es : List Expr} (first : r.Holds e)
    (rest : r.HoldsAll es) : r.HoldsAll (e :: es) := by
  intro x member
  cases member with
  | head => exact first
  | tail _ later => exact rest x later

theorem Registry.HoldsAll.pair {r : Registry} {a b : Expr} (left : r.Holds a) (right : r.Holds b) :
    r.HoldsAll [a, b] := .cons left (.cons right .nil)

theorem forall₂_mem_left {α β : Type} {R : α → β → Prop} {as : List α} {bs : List β} {a : α}
    (related : List.Forall₂ R as bs) (member : a ∈ as) : ∃ b ∈ bs, R a b := by
  induction related with
  | nil => cases member
  | cons first _ ih =>
      cases member with
      | head => exact ⟨_, .head _, first⟩
      | tail _ later =>
          obtain ⟨b, inside, holds⟩ := ih later
          exact ⟨b, .tail _ inside, holds⟩

theorem forall₂_mem_right {α β : Type} {R : α → β → Prop} {as : List α} {bs : List β} {b : β}
    (related : List.Forall₂ R as bs) (member : b ∈ bs) : ∃ a, R a b := by
  induction related with
  | nil => cases member
  | cons first _ ih =>
      cases member with
      | head => exact ⟨_, first⟩
      | tail _ later => exact ih later

theorem forall₂_imp_mem {α β : Type} {R S : α → β → Prop} {as : List α} {bs : List β}
    (related : List.Forall₂ R as bs) (implies : ∀ a ∈ as, ∀ b ∈ bs, R a b → S a b) :
    List.Forall₂ S as bs := by
  induction related with
  | nil => exact .nil
  | cons first _ ih =>
      exact .cons (implies _ (.head _) _ (.head _) first)
        (ih fun a memberA b memberB => implies a (.tail _ memberA) b (.tail _ memberB))

namespace Builds

variable {r : Registry}

theorem new_id {head : Head} {dtype : DType} {operands : List Expr} (held : r.HoldsAll operands) :
    Builds (Expr.new head dtype operands) r fun later e =>
      later.Has head dtype operands e ∧ r.next ≤ e.id := by
  intro supply fits
  refine ⟨r.push (.node r.next head dtype operands), r.extends_push _, ?_, ⟨?_, r.next, ?_⟩, ?_⟩
  · exact ⟨congrArg (· + 1) fits.nodes, fits.names⟩
  · change Registry.Holds _ (.node supply.nodes head dtype operands)
    rw [fits.nodes]
    exact Registry.holds_push held
  · change Expr.node supply.nodes head dtype operands = _
    rw [fits.nodes]
  · exact Nat.le_of_eq fits.nodes.symm

theorem new {head : Head} {dtype : DType} {operands : List Expr} (held : r.HoldsAll operands) :
    Builds (Expr.new head dtype operands) r fun later => later.Has head dtype operands :=
  (new_id held).mono fun _ _ _ made => made.1

theorem const (c : Constant) :
    Builds (Expr.const c) r fun later => later.Has (.const c) c.dtype [] := new .nil

theorem binary (op : BinaryOp) {a b : Expr} (left : r.Holds a) (right : r.Holds b) :
    Builds (Expr.mkBinary op a b) r fun later =>
      later.Has (.binary op) (if op.isBoolean then .bool else a.dtype.promote b.dtype) [a, b] :=
  new (.pair left right)

theorem select {condition ifTrue ifFalse : Expr} (first : r.Holds condition)
    (second : r.Holds ifTrue) (third : r.Holds ifFalse) :
    Builds (Expr.select condition ifTrue ifFalse) r fun later =>
      later.Has .select (ifTrue.dtype.promote ifFalse.dtype) [condition, ifTrue, ifFalse] :=
  new (.cons first (.pair second third))

theorem rebuild_id {id : NodeId} {head : Head} {dtype : DType} {old operands : List Expr}
    (held : r.Holds (.node id head dtype old)) (heldNew : r.HoldsAll operands)
    (sameLength : operands.length = old.length) :
    Builds (Expr.rebuild (.node id head dtype old) operands) r fun later e =>
      later.Has head dtype operands e ∧ (e.id = id ∨ r.next ≤ e.id) := by
  simp only [Expr.rebuild]
  split
  next allSame =>
    have unchanged : operands = old := by
      have heldOld := held.operands
      clear held
      induction operands generalizing old with
      | nil => exact (List.length_eq_zero_iff.1 sameLength.symm).symm
      | cons x rest ih =>
          cases old with
          | nil => simp at sameLength
          | cons y others =>
              simp only [List.zip_cons_cons, List.all_cons, Bool.and_eq_true, Expr.same,
                beq_iff_eq] at allSame
              have first := (heldNew x (.head _)).eq_of_id (heldOld y (.head _)) allSame.1
              rw [first, ih (fun z member => heldNew z (.tail _ member)) (by simpa using sameLength)
                allSame.2 fun z member => heldOld z (.tail _ member)]
    exact pure ⟨⟨held, id, by rw [unchanged]⟩, .inl rfl⟩
  next => exact (new_id heldNew).mono fun _ _ _ made => made.imp_right .inr

theorem rebuild {id : NodeId} {head : Head} {dtype : DType} {old operands : List Expr}
    (held : r.Holds (.node id head dtype old)) (heldNew : r.HoldsAll operands)
    (sameLength : operands.length = old.length) :
    Builds (Expr.rebuild (.node id head dtype old) operands) r fun later =>
      later.Has head dtype operands :=
  (rebuild_id held heldNew sameLength).mono fun _ _ _ made => made.1

theorem rebuild_self (id : NodeId) (head : Head) (dtype : DType) (operands : List Expr) :
    Expr.rebuild (.node id head dtype operands) operands =
      Pure.pure (.node id head dtype operands) := by
  refine if_pos ?_
  induction operands with
  | nil => rfl
  | cons x rest ih => simpa [Expr.same] using ih

theorem rebuild_same {id : NodeId} {head : Head} {dtype : DType} {old operands : List Expr}
    (held : r.Holds (.node id head dtype old)) (heldNew : r.HoldsAll operands)
    (sameLength : operands.length = old.length) :
    Builds (Expr.rebuild (.node id head dtype old) operands) r fun later e =>
      later.Has head dtype operands e ∧ (operands = old → e.id = id) := by
  by_cases same : operands = old
  · subst same
    rw [rebuild_self]
    exact pure ⟨⟨held, id, rfl⟩, fun _ => rfl⟩
  · exact (rebuild held heldNew sameLength).mono fun _ _ _ made =>
      ⟨made, fun unchanged => absurd unchanged same⟩

theorem freshName (stem : String) :
    Builds (ReverseMode.freshName stem) r fun later name =>
      r.names < later.names ∧ name = generatedName stem r.names := by
  intro supply fits
  refine ⟨{ r with names := r.names + 1 }, ⟨Nat.le_refl _, Nat.le_succ _, fun _ _ => rfl⟩,
    ⟨fits.nodes, congrArg (· + 1) fits.names⟩, Nat.lt_succ_self _, ?_⟩
  change generatedName stem supply.names = _
  rw [fits.names]

theorem index {name : String} (named : name ≠ "") :
    Builds (Expr.index (some name)) r fun later => later.Has (.var name true) .int32 [] := by
  have given : nameOr "v" (some name) = Pure.pure name := by
    unfold nameOr
    split
    next same => cases same
    next same => exact absurd (Option.some.inj same) named
    next same => rw [Option.some.inj same]
  unfold Expr.index
  rw [given]
  rw [pure_bind]
  exact new .nil

end Builds

def BuildsOk {ε α : Type} (action : ExceptT ε NodeM α) (r : Registry) (Q : Registry → α → Prop) :
    Prop := Builds action.run r fun later result => ∀ a, result = .ok a → Q later a

namespace BuildsOk

variable {ε α β : Type} {r : Registry} {Q : Registry → α → Prop} {R : Registry → β → Prop}

theorem pure {a : α} (answer : Q r a) : BuildsOk (Pure.pure a : ExceptT ε NodeM α) r Q := by
  refine Builds.pure (a := (.ok a : Except ε α)) fun b same => ?_
  cases same
  exact answer

theorem throw {fault : ε} : BuildsOk (throw fault : ExceptT ε NodeM α) r Q :=
  Builds.pure (a := (.error fault : Except ε α)) fun _ absurd => nomatch absurd

theorem ofBuilds {action : NodeM α} (built : Builds action r Q) :
    BuildsOk (liftM action : ExceptT ε NodeM α) r Q := by
  intro supply fits
  obtain ⟨later, extended, fitsLater, answer⟩ := built supply fits
  refine ⟨later, extended, fitsLater, fun a same => ?_⟩
  cases same
  exact answer

theorem bind {action : ExceptT ε NodeM α} {rest : α → ExceptT ε NodeM β}
    (first : BuildsOk action r Q)
    (second : ∀ later a, r.Extends later → Q later a → BuildsOk (rest a) later R) :
    BuildsOk (action >>= rest) r R := by
  unfold BuildsOk at first second ⊢
  rw [ExceptT.run_bind]
  refine Builds.bind first fun later result extended answer => ?_
  cases result with
  | error fault => exact Builds.pure (a := (.error fault : Except ε β)) fun _ absurd => nomatch absurd
  | ok a => exact second later a extended (answer a rfl)

theorem mono {action : ExceptT ε NodeM α} {Q' : Registry → α → Prop} (built : BuildsOk action r Q)
    (implies : ∀ later a, r.Extends later → Q later a → Q' later a) : BuildsOk action r Q' :=
  Builds.mono built fun later _ extended answer a same => implies later a extended (answer a same)

end BuildsOk

namespace Achieves

variable {r : Registry} {program : Program}

theorem mapM {α β : Type} {f : α → ProgramM β} {P : Registry → α → β → Prop}
    (stays : ∀ r later a b, r.Extends later → P r a b → P later a b) (as : List α)
    (each : ∀ a ∈ as, ∀ later left, r.Extends later → left.funcs = program.funcs →
      Achieves (f a) later left fun last after b => after.funcs = left.funcs ∧ P last a b) :
    Achieves (as.mapM f) r program fun later left bs =>
      left.funcs = program.funcs ∧ List.Forall₂ (P later) as bs := by
  induction as generalizing r program with
  | nil => exact pure ⟨rfl, .nil⟩
  | cons a rest ih =>
      rw [List.mapM_cons]
      refine bind (each a (.head _) r program (.refl r) rfl)
        fun later left b extended first => ?_
      refine bind (ih fun x member last after extendedAgain same => each x (.tail _ member) last
        after (extended.trans extendedAgain) (same.trans first.1))
        fun last after bs extendedAgain others => ?_
      exact pure ⟨others.1.trans first.1, .cons (stays _ _ _ _ extendedAgain first.2) others.2⟩

theorem builds {α : Type} {action : NodeM α} {P : Registry → α → Prop}
    (built : Builds action r P) :
    Achieves (liftM action : ProgramM α) r program fun later left a =>
      left.funcs = program.funcs ∧ P later a :=
  ofBuilds built fun _ _ _ _ answer => ⟨rfl, answer⟩

theorem buildsOk {α : Type} {action : BuildM α} {P : Registry → α → Prop}
    (built : BuildsOk action r P) :
    Achieves (liftM action : ProgramM α) r program fun later left a =>
      left.funcs = program.funcs ∧ P later a := by
  intro fits a left run
  obtain ⟨later, extended, fitsLater, answer⟩ := built program.supply fits
  change ((action.run.run program.supply).1,
    { program with supply := (action.run.run program.supply).2 }) = (.ok a, left) at run
  obtain ⟨sameResult, rfl⟩ := Prod.mk.inj run
  exact ⟨later, extended, fitsLater, rfl, answer a sameResult⟩

theorem report {reported : Tracing → Bool} {line : String} :
    Achieves (ReverseMode.report reported line) r program fun _ left _ =>
      left.funcs = program.funcs := by
  intro fits a left run
  cases run
  refine ⟨r, .refl r, ?_, ?_⟩ <;> dsimp only <;> split
  · exact fits
  · exact fits
  · rfl
  · rfl

end Achieves

end ReverseMode
