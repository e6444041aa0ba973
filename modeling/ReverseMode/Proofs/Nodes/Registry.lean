import ReverseMode.Program.Basic
import ReverseMode.Proofs.Nodes.Subnode

namespace ReverseMode

/-- The node of every identity below `next`, and how many names were handed out. -/
structure Registry where
  node : NodeId → Expr
  next : NodeId
  names : Nat

namespace Registry

def IsRegistered (r : Registry) (x : Expr) : Prop := x.id < r.next ∧ r.node x.id = x

def Holds (r : Registry) (e : Expr) : Prop := Expr.Every r.IsRegistered e

def HoldsAll (r : Registry) (es : List Expr) : Prop := ∀ e ∈ es, r.Holds e

structure Extends (r later : Registry) : Prop where
  next_le : r.next ≤ later.next
  names_le : r.names ≤ later.names
  node_eq : ∀ i, i < r.next → later.node i = r.node i

structure Fits (r : Registry) (supply : Supply) : Prop where
  nodes : supply.nodes = r.next
  names : supply.names = r.names

theorem Extends.refl (r : Registry) : r.Extends r := ⟨Nat.le_refl _, Nat.le_refl _, fun _ _ => rfl⟩

theorem Extends.trans {r s t : Registry} (first : r.Extends s) (second : s.Extends t) :
    r.Extends t where
  next_le := Nat.le_trans first.next_le second.next_le
  names_le := Nat.le_trans first.names_le second.names_le
  node_eq i old := by
    rw [second.node_eq i (Nat.lt_of_lt_of_le old first.next_le), first.node_eq i old]

theorem Holds.extend {r later : Registry} {e : Expr} (held : r.Holds e)
    (extended : r.Extends later) : later.Holds e := by
  intro x within
  obtain ⟨old, known⟩ := held x within
  exact ⟨Nat.lt_of_lt_of_le old extended.next_le, by rw [extended.node_eq _ old, known]⟩

theorem HoldsAll.extend {r later : Registry} {es : List Expr} (held : r.HoldsAll es)
    (extended : r.Extends later) : later.HoldsAll es :=
  fun e member => (held e member).extend extended

theorem Holds.sub {r : Registry} {e x : Expr} (held : r.Holds e) (within : Expr.Subnode x e) :
    r.Holds x := Expr.Every.sub held within

theorem Holds.operands {r : Registry} {id : NodeId} {head : Head} {dtype : DType}
    {operands : List Expr} (held : r.Holds (.node id head dtype operands)) :
    r.HoldsAll operands := (Expr.every_node.1 held).2

theorem Holds.eq_of_id {r : Registry} {a b : Expr} (left : r.Holds a) (right : r.Holds b)
    (same : a.id = b.id) : a = b := by
  rw [← left.here.2, ← right.here.2, same]

def push (r : Registry) (e : Expr) : Registry where
  node i := if i = r.next then e else r.node i
  next := r.next + 1
  names := r.names

theorem extends_push (r : Registry) (e : Expr) : r.Extends (r.push e) where
  next_le := Nat.le_succ _
  names_le := Nat.le_refl _
  node_eq i old := by simp [push, Nat.ne_of_lt old]

theorem holds_push {r : Registry} {head : Head} {dtype : DType} {operands : List Expr}
    (held : r.HoldsAll operands) :
    (r.push (.node r.next head dtype operands)).Holds (.node r.next head dtype operands) := by
  refine Expr.every_node.2 ⟨⟨Nat.lt_succ_self _, ?_⟩, held.extend (r.extends_push _)⟩
  simp [push, Expr.id]

end Registry

/-- Run where the registry fits, the action extends it and its answer has the property. -/
def Builds {α : Type} (action : NodeM α) (r : Registry) (Q : Registry → α → Prop) : Prop :=
  ∀ supply, r.Fits supply → ∃ later, r.Extends later ∧ later.Fits (action.run supply).2 ∧
    Q later (action.run supply).1

namespace Builds

variable {α β : Type} {r : Registry} {Q : Registry → α → Prop} {R : Registry → β → Prop}

theorem pure {a : α} (answer : Q r a) : Builds (Pure.pure a) r Q :=
  fun _ fits => ⟨r, .refl r, fits, answer⟩

theorem bind {action : NodeM α} {rest : α → NodeM β} (first : Builds action r Q)
    (second : ∀ later a, r.Extends later → Q later a → Builds (rest a) later R) :
    Builds (action >>= rest) r R := by
  intro supply fits
  obtain ⟨later, extended, fitsLater, answer⟩ := first supply fits
  obtain ⟨last, extendedAgain, fitsLast, done⟩ := second later _ extended answer _ fitsLater
  exact ⟨last, extended.trans extendedAgain, fitsLast, done⟩

theorem mono {action : NodeM α} {Q' : Registry → α → Prop} (built : Builds action r Q)
    (implies : ∀ later a, r.Extends later → Q later a → Q' later a) : Builds action r Q' := by
  intro supply fits
  obtain ⟨later, extended, fitsLater, answer⟩ := built supply fits
  exact ⟨later, extended, fitsLater, implies later _ extended answer⟩

end Builds

def Achieves {α : Type} (action : ProgramM α) (r : Registry) (program : Program)
    (Q : Registry → Program → α → Prop) : Prop :=
  r.Fits program.supply → ∀ a left, action.run.run program = (.ok a, left) →
    ∃ later, r.Extends later ∧ later.Fits left.supply ∧ Q later left a

namespace Achieves

variable {α β : Type} {r : Registry} {program : Program} {Q : Registry → Program → α → Prop}
  {R : Registry → Program → β → Prop}

theorem pure {a : α} (answer : Q r program a) : Achieves (Pure.pure a) r program Q := by
  intro fits b left run
  cases run
  exact ⟨r, .refl r, fits, answer⟩

theorem throw {fault : Fault} : Achieves (throw fault : ProgramM α) r program Q := by
  intro _ b left run
  cases run

theorem throw_bind {fault : Fault} {rest : α → ProgramM β} :
    Achieves ((MonadExcept.throw fault : ProgramM α) >>= rest) r program R := by
  intro _ b left run
  cases run

theorem bind {action : ProgramM α} {rest : α → ProgramM β} (first : Achieves action r program Q)
    (second : ∀ later left a, r.Extends later → Q later left a → Achieves (rest a) later left R) :
    Achieves (action >>= rest) r program R := by
  intro fits b left run
  cases outcome : action.run.run program with
  | mk result middle =>
      rw [ExceptT.run_bind, StateT.run_bind, outcome] at run
      cases result with
      | error fault => cases run
      | ok a =>
          obtain ⟨later, extended, fitsLater, answer⟩ := first fits a middle outcome
          obtain ⟨last, extendedAgain, fitsLast, done⟩ :=
            second later middle a extended answer fitsLater b left run
          exact ⟨last, extended.trans extendedAgain, fitsLast, done⟩

theorem mono {action : ProgramM α} {Q' : Registry → Program → α → Prop}
    (achieved : Achieves action r program Q)
    (implies : ∀ later left a, r.Extends later → Q later left a → Q' later left a) :
    Achieves action r program Q' := by
  intro fits a left run
  obtain ⟨later, extended, fitsLater, answer⟩ := achieved fits a left run
  exact ⟨later, extended, fitsLater, implies later left a extended answer⟩

theorem ofBuilds {action : NodeM α} {P : Registry → α → Prop} (built : Builds action r P)
    (implies : ∀ later supply a, r.Extends later → P later a →
      Q later { program with supply } a) :
    Achieves (liftM action : ProgramM α) r program Q := by
  intro fits a left run
  obtain ⟨later, extended, fitsLater, answer⟩ := built program.supply fits
  cases run
  exact ⟨later, extended, fitsLater, implies later _ _ extended answer⟩

theorem ofExcept {result : Except Fault α}
    (answer : ∀ a, result = .ok a → Q r program a) :
    Achieves (liftM result : ProgramM α) r program Q := by
  intro fits a left run
  cases result with
  | error fault => cases run
  | ok b =>
      cases run
      exact ⟨r, .refl r, fits, answer _ rfl⟩

theorem getFunc {id : FuncId} {Q : Registry → Program → Func → Prop}
    (answer : Q r program (program.func id)) :
    Achieves (getFunc id) r program Q := by
  intro fits a left run
  cases run
  exact ⟨r, .refl r, fits, answer⟩

end Achieves

end ReverseMode
