import Mathlib.Data.List.Perm.Subperm
import Mathlib.Data.List.Range
import ReverseMode.Program.Graph
import ReverseMode.Proofs.Nodes.Subnode

namespace ReverseMode

namespace Expr

/-- `x` is `e` or stands below it outside of the arguments of function calls. -/
inductive Outer (x : Expr) : Expr → Prop where
  | here : Outer x x
  | operand {id : NodeId} {head : Head} {dtype : DType} {operands : List Expr} {y : Expr} :
      (∀ callee name, head ≠ .call (.func callee name)) → y ∈ operands → Outer x y →
      Outer x (.node id head dtype operands)

def CallsHere (x : Expr) (id : FuncId) : Prop := ∃ name, x.callee? = some (.func id name)

def Meets (e : Expr) (id : FuncId) : Prop := ∃ x, Outer x e ∧ x.CallsHere id

theorem Outer.trans {x y z : Expr} (first : Outer x y) (second : Outer y z) : Outer x z := by
  induction second with
  | here => exact first
  | operand other member _ ih => exact .operand other member ih

theorem Outer.subnode {x e : Expr} (outer : Outer x e) : Subnode x e := by
  induction outer with
  | here => exact .here
  | operand _ member _ ih => exact .operand member ih

theorem outer_node {x : Expr} {id : NodeId} {head : Head} {dtype : DType} {operands : List Expr} :
    Outer x (.node id head dtype operands) ↔ x = .node id head dtype operands ∨
      (∀ callee name, head ≠ .call (.func callee name)) ∧ ∃ y ∈ operands, Outer x y := by
  constructor
  · intro outer
    cases outer with
    | here => exact .inl rfl
    | operand other member deeper => exact .inr ⟨other, _, member, deeper⟩
  · rintro (rfl | ⟨other, y, member, deeper⟩)
    · exact .here
    · exact .operand other member deeper

theorem Outer.meets {x e : Expr} {id : FuncId} (outer : Outer x e) (meets : x.Meets id) :
    e.Meets id := by
  obtain ⟨call, within, calls⟩ := meets
  exact ⟨call, within.trans outer, calls⟩

theorem meets_call {node : NodeId} {callee id : FuncId} {name : String} {dtype : DType}
    {operands : List Expr} :
    Meets (.node node (.call (.func callee name)) dtype operands) id ↔ id = callee := by
  constructor
  · rintro ⟨x, within, called, isCall⟩
    cases within with
    | here =>
        cases isCall
        rfl
    | operand other => exact absurd rfl (other callee name)
  · rintro rfl
    exact ⟨_, .here, name, rfl⟩

theorem not_meets_reduction {node : NodeId} {domain : String} {axis : Nat} {least extent : Expr}
    {id : FuncId} : ¬ Meets (.reduction node domain axis least extent) id := by
  rintro ⟨x, within, name, isCall⟩
  cases within
  cases isCall

theorem meets_operands {node : NodeId} {head : Head} {dtype : DType} {operands : List Expr}
    {id : FuncId} (other : ∀ callee name, head ≠ .call (.func callee name)) :
    Meets (.node node head dtype operands) id ↔ ∃ y ∈ operands, y.Meets id := by
  constructor
  · rintro ⟨x, within, name, isCall⟩
    cases within with
    | here =>
        cases head <;> cases isCall
        exact absurd rfl (other id name)
    | operand _ member deeper => exact ⟨_, member, x, deeper, name, isCall⟩
  · rintro ⟨y, member, meets⟩
    exact (Outer.operand other member .here).meets meets


end Expr

open Expr

theorem mem_stages {f : Func} {stage : Int} {definition : Definition} :
    (stage, definition) ∈ f.stages ↔ ∃ initial, f.init = some initial ∧
      (stage = -1 ∧ definition = initial ∨
        ∃ i : Nat, stage = i ∧ f.updates[i]? = some definition) := by
  unfold Func.stages
  cases f.init with
  | none => simp
  | some initial =>
      simp only [List.mem_cons, Prod.mk.injEq, List.mem_map, Prod.exists, Option.some.injEq,
        exists_eq_left']
      refine or_congr Iff.rfl ⟨?_, ?_⟩
      · rintro ⟨update, i, member, same, rfl⟩
        exact ⟨i, same.symm, List.mem_zipIdx_iff_getElem?.1 member⟩
      · rintro ⟨i, rfl, found⟩
        exact ⟨definition, i, List.mem_zipIdx_iff_getElem?.2 found, rfl, rfl⟩

theorem mem_stages_le {f : Func} {entry : Int × Definition} (member : entry ∈ f.stages) :
    entry.1 ≤ f.lastStage := by
  obtain ⟨initial, _, ⟨isFirst, _⟩ | ⟨i, isStage, found⟩⟩ := mem_stages.1 member
  · rw [isFirst, Func.lastStage]
    omega
  · obtain ⟨below, _⟩ := List.getElem?_eq_some_iff.1 found
    rw [isStage, Func.lastStage]
    omega

theorem stage_unique {f : Func} {stage : Int} {a b : Definition} (first : (stage, a) ∈ f.stages)
    (second : (stage, b) ∈ f.stages) : a = b := by
  obtain ⟨initial, defined, isFirst⟩ := mem_stages.1 first
  obtain ⟨initial', defined', isSecond⟩ := mem_stages.1 second
  cases defined.symm.trans defined'
  rcases isFirst with ⟨isInitial, rfl⟩ | ⟨i, isUpdate, found⟩ <;>
    rcases isSecond with ⟨isInitial', rfl⟩ | ⟨j, isUpdate', found'⟩
  · rfl
  · omega
  · omega
  · obtain rfl : i = j := by omega
    exact Option.some.inj (found.symm.trans found')

theorem stages_consecutive (f : Func) : f.stages.reverse.IsChain fun a b => a.1 = b.1 + 1 := by
  rw [List.isChain_reverse]
  unfold Func.stages
  cases f.init with
  | none => exact .nil
  | some initial =>
      have positions : (f.updates.zipIdx.map Prod.snd).IsChain (fun i j => j = i + 1) := by
        rw [List.zipIdx_map_snd]
        exact List.isChain_range' 0 _ 1
      refine List.IsChain.cons ?_ fun entry first => ?_
      · rw [List.isChain_map]
        exact ((List.isChain_map _).1 positions).imp fun _ _ next => by simp [next]
      · cases updates : f.updates with
        | nil => simp [updates] at first
        | cons update rest =>
            simp only [updates, List.zipIdx_cons, List.map_cons, List.head?_cons, Option.mem_def,
              Option.some.injEq] at first
            rw [← first]
            rfl

theorem stages_descending (f : Func) : f.stages.reverse.Pairwise fun a b => b.1 < a.1 := by
  rw [List.pairwise_reverse]
  unfold Func.stages
  cases f.init with
  | none => exact .nil
  | some initial =>
      refine List.pairwise_cons.2 ⟨?_, ?_⟩
      · intro entry member
        obtain ⟨⟨update, i⟩, _, rfl⟩ := List.mem_map.1 member
        simp only
        omega
      · rw [List.pairwise_map]
        have positions : (f.updates.zipIdx.map Prod.snd).Pairwise (· < ·) := by
          rw [List.zipIdx_map_snd]
          exact List.pairwise_lt_range' _ Nat.one_pos
        exact (List.pairwise_map.1 positions).imp fun {a b} less => by simpa using less

theorem last_walked_first {f : Func} {entry : Int × Definition}
    (first : entry ∈ f.stages.reverse.head?) : entry.1 = f.lastStage := by
  have isStage : entry ∈ f.stages := List.mem_reverse.1 (List.mem_of_mem_head? first)
  obtain ⟨initial, defined, _⟩ := mem_stages.1 isStage
  have last : ∃ definition, (f.lastStage, definition) ∈ f.stages := by
    by_cases none : f.updates = []
    · exact ⟨initial, mem_stages.2 ⟨initial, defined, .inl ⟨by simp [Func.lastStage, none], rfl⟩⟩⟩
    · have positive : 0 < f.updates.length := List.length_pos_iff.2 none
      have inRange : f.updates.length - 1 < f.updates.length := by omega
      refine ⟨f.updates[f.updates.length - 1], mem_stages.2 ⟨initial, defined,
        .inr ⟨f.updates.length - 1, ?_, List.getElem?_eq_getElem inRange⟩⟩⟩
      rw [Func.lastStage]
      omega
  obtain ⟨definition, isLast⟩ := last
  obtain ⟨rest, split⟩ := List.head?_eq_some_iff.1 first
  have descending := split ▸ stages_descending f
  have walked : (f.lastStage, definition) ∈ entry :: rest := split ▸ List.mem_reverse.2 isLast
  rcases List.mem_cons.1 walked with rfl | later
  · rfl
  · have below : f.lastStage < entry.1 := (List.pairwise_cons.1 descending).1 _ later
    have atMost := mem_stages_le isStage
    omega

namespace Program

def StandsIn (program : Program) (root : Expr) : Option FuncId → Expr → Prop
  | none, x => Outer x root
  | some f, x => ∃ entry ∈ (program.func f).stages, Outer x entry.2.value

/-- The root and the functions it reaches through calls that are met. -/
inductive Home (program : Program) (root : Expr) : Option FuncId → Prop where
  | root : Home program root none
  | call {home : Option FuncId} {x : Expr} {id : FuncId} : Home program root home →
      program.StandsIn root home x → x.CallsHere id → Home program root (some id)

structure Linked (program : Program) (root : Expr) : Prop where
  known : ∀ id, program.Home root (some id) → id < program.funcs.size
  distinct : ∀ id id', program.Home root (some id) → program.Home root (some id') →
    (program.func id).name = (program.func id').name → id = id'
  /-- A call bears the name of its function. -/
  named : ∀ home x id name, program.Home root home → program.StandsIn root home x →
    x.callee? = some (.func id name) → name = (program.func id).name
  /-- Nodes of one identity are one node. -/
  coherent : ∀ home home' x x', program.Home root home → program.Home root home' →
    program.StandsIn root home x → program.StandsIn root home' x' → x.id = x'.id → x = x'

section

variable {program : Program} {root : Expr}

theorem StandsIn.meets {home : Option FuncId} {x : Expr} {id : FuncId}
    (stands : program.StandsIn root home x) (meets : x.Meets id) (isHome : program.Home root home) :
    program.Home root (some id) := by
  obtain ⟨call, outer, calls⟩ := meets
  refine .call isHome ?_ calls
  cases home with
  | none => exact Outer.trans (z := root) outer stands
  | some f =>
      obtain ⟨entry, member, within⟩ := stands
      exact ⟨entry, member, outer.trans within⟩

theorem Home.of_root {id : FuncId} (meets : root.Meets id) : program.Home root (some id) :=
  have atRoot : program.StandsIn root none root := Outer.here
  atRoot.meets meets .root

theorem Home.of_stage {f id : FuncId} {entry : Int × Definition}
    (isHome : program.Home root (some f)) (isStage : entry ∈ (program.func f).stages)
    (meets : entry.2.value.Meets id) : program.Home root (some id) :=
  have inStage : program.StandsIn root (some f) entry.2.value := ⟨entry, isStage, .here⟩
  inStage.meets meets isHome

theorem StandsIn.outer {home : Option FuncId} {x y : Expr} (stands : program.StandsIn root home x)
    (outer : Outer y x) : program.StandsIn root home y := by
  cases home with
  | none => exact Outer.trans (z := root) outer stands
  | some f =>
      obtain ⟨entry, member, within⟩ := stands
      exact ⟨entry, member, outer.trans within⟩

end

end Program

abbrev CallWalk.after (walk : CallWalk) (action : StateM CallWalk Unit) : CallWalk :=
  (action.run walk).2

def CallWalk.visit (walk : CallWalk) (node : NodeId) : CallWalk :=
  { walk with visited := walk.visited.insert node }

section

variable {enter : FuncId → StateM CallWalk Unit} {walk : CallWalk} {node : NodeId} {head : Head}
  {dtype : DType} {operands : List Expr}

theorem after_walkCalls_visited (visited : walk.visited.contains node) :
    walk.after (Expr.walkCalls enter (.node node head dtype operands)) = walk := by
  unfold CallWalk.after Expr.walkCalls
  rw [StateT.run_bind, StateT.run_get]
  simp only [pure_bind, visited, if_true]
  rfl

theorem after_walkCalls_call {callee : FuncId} {name : String}
    (unvisited : ¬ walk.visited.contains node) :
    walk.after (Expr.walkCalls enter (.node node (.call (.func callee name)) dtype operands)) =
      if walk.entered.contains name then walk.visit node
      else (walk.visit node).after (enter callee) := by
  unfold CallWalk.after Expr.walkCalls
  rw [StateT.run_bind, StateT.run_get]
  simp only [pure_bind, unvisited, Bool.false_eq_true, if_false]
  rw [StateT.run_bind, StateT.run_modify, pure_bind, StateT.run_bind, StateT.run_get, pure_bind]
  by_cases entered : walk.entered.contains name
  · simp only [entered, if_true]
    rfl
  · simp only [entered, Bool.false_eq_true, if_false]
    rfl

theorem after_walkCalls_operands (unvisited : ¬ walk.visited.contains node)
    (other : ∀ callee name, head ≠ .call (.func callee name)) :
    walk.after (Expr.walkCalls enter (.node node head dtype operands)) =
      (walk.visit node).after (Expr.walkAllCalls enter operands) := by
  unfold CallWalk.after Expr.walkCalls
  rw [StateT.run_bind, StateT.run_get]
  simp only [pure_bind, unvisited, Bool.false_eq_true, if_false]
  rfl

end

namespace CallWalk

structure Placed (walk : CallWalk) (program : Program) (root : Expr) (busy : List FuncId) :
    Prop where
  placed : ∀ id, program.Home root (some id) → (program.func id).name ∈ walk.entered →
    id ∈ busy ∨ id ∈ walk.finished
  entered : ∀ id, id ∈ busy ∨ id ∈ walk.finished → (program.func id).name ∈ walk.entered
  home : ∀ id ∈ walk.finished, program.Home root (some id)
  unfinished : ∀ id ∈ busy, id ∉ walk.finished
  nodup : walk.finished.Nodup

def enter (walk : CallWalk) (name : String) : CallWalk :=
  { walk with entered := name :: walk.entered }

def finish (walk : CallWalk) (id : FuncId) : CallWalk :=
  { walk with finished := id :: walk.finished }

structure Grows (walk later : CallWalk) : Prop where
  visited : ∀ node, walk.visited.contains node → later.visited.contains node
  entered : walk.entered ⊆ later.entered

def Passed (walk : CallWalk) : Expr → Prop
  | .node known .. => walk.visited.contains known
  | .reduction .. => True

def Settled (walk : CallWalk) (program : Program) : Expr → Prop
  | .node _ (.call (.func callee _)) _ _ => (program.func callee).name ∈ walk.entered
  | .node _ _ _ operands => ∀ y ∈ operands, walk.Passed y
  | .reduction .. => True

structure Tracked (walk : CallWalk) (program : Program) (root : Expr) (busy : List FuncId)
    (pending : Expr → Prop) : Prop extends walk.Placed program root busy where
  settled : ∀ home x, program.Home root home → program.StandsIn root home x → walk.Passed x →
    pending x ∨ walk.Settled program x
  stages : ∀ id ∈ walk.finished, ∀ entry ∈ (program.func id).stages, walk.Passed entry.2.value

section

variable {program : Program} {root : Expr} {busy : List FuncId} {walk later last : CallWalk}
  {f : FuncId}

theorem Placed.enter (linked : program.Linked root) (isHome : program.Home root (some f))
    (placed : walk.Placed program root busy) (absent : (program.func f).name ∉ walk.entered) :
    (walk.enter (program.func f).name).Placed program root (f :: busy) where
  placed id isHome' entered := by
    rcases List.mem_cons.1 entered with same | before
    · exact .inl (linked.distinct id f isHome' isHome same ▸ .head _)
    · exact (placed.placed id isHome' before).imp_left (.tail _)
  entered id inPlace := by
    rcases inPlace with inBusy | finished
    · rcases List.mem_cons.1 inBusy with rfl | below
      · exact .head _
      · exact .tail _ (placed.entered id (.inl below))
    · exact .tail _ (placed.entered id (.inr finished))
  home := placed.home
  unfinished := List.forall_mem_cons.2
    ⟨fun finished => absent (placed.entered f (.inr finished)), placed.unfinished⟩
  nodup := placed.nodup

theorem Placed.finish (isHome : program.Home root (some f)) (new : f ∉ busy)
    (placed : walk.Placed program root (f :: busy)) :
    (walk.finish f).Placed program root busy where
  placed id isHome' entered := by
    rcases placed.placed id isHome' entered with inBusy | finished
    · rcases List.mem_cons.1 inBusy with rfl | below
      · exact .inr (.head _)
      · exact .inl below
    · exact .inr (.tail _ finished)
  entered id inPlace := by
    refine placed.entered id ?_
    rcases inPlace with inBusy | finished
    · exact .inl (.tail _ inBusy)
    · rcases List.mem_cons.1 finished with rfl | before
      · exact .inl (.head _)
      · exact .inr before
  home := List.forall_mem_cons.2 ⟨isHome, placed.home⟩
  unfinished id inBusy finished := by
    rcases List.mem_cons.1 finished with rfl | before
    · exact new inBusy
    · exact placed.unfinished id (.tail _ inBusy) before
  nodup := List.nodup_cons.2 ⟨placed.unfinished f (.head _), placed.nodup⟩

theorem Placed.not_busy (placed : walk.Placed program root busy)
    (absent : (program.func f).name ∉ walk.entered) : f ∉ busy :=
  fun inBusy => absent (placed.entered f (.inl inBusy))

theorem Grows.refl : walk.Grows walk := ⟨fun _ => id, fun _ => id⟩

theorem Grows.trans (first : walk.Grows later) (second : later.Grows last) : walk.Grows last :=
  ⟨fun node visited => second.visited node (first.visited node visited),
    List.Subset.trans first.entered second.entered⟩

theorem grows_visit {node : NodeId} : walk.Grows (walk.visit node) := by
  refine ⟨fun other visited => ?_, fun _ => id⟩
  unfold visit
  rw [Std.TreeSet.contains_insert, visited, Bool.or_true]

theorem grows_enter {name : String} : walk.Grows (walk.enter name) :=
  ⟨fun _ => id, List.subset_cons_self _ _⟩

theorem grows_finish : walk.Grows (walk.finish f) := ⟨fun _ => id, fun _ => id⟩

theorem Passed.mono {e : Expr} (passed : walk.Passed e) (grows : walk.Grows later) :
    later.Passed e := by
  cases e with
  | node node => exact grows.visited node passed
  | reduction => trivial

theorem passed_enter {e : Expr} {name : String} : (walk.enter name).Passed e ↔ walk.Passed e := by
  cases e <;> rfl

theorem passed_finish {e : Expr} : (walk.finish f).Passed e ↔ walk.Passed e := by
  cases e <;> rfl

theorem settled_operands {node : NodeId} {head : Head} {dtype : DType} {operands : List Expr}
    (other : ∀ callee name, head ≠ .call (.func callee name)) :
    walk.Settled program (.node node head dtype operands) ↔ ∀ y ∈ operands, walk.Passed y := by
  rw [Settled]
  exact fun callee name => other callee name

theorem settled_call {callee : FuncId} {e : Expr} (settled : walk.Settled program e)
    (calls : e.CallsHere callee) : (program.func callee).name ∈ walk.entered := by
  obtain ⟨name, isCall⟩ := calls
  cases e with
  | reduction => cases isCall
  | node node head dtype operands =>
      cases head <;> cases isCall
      exact settled

theorem Settled.mono {e : Expr} (settled : walk.Settled program e) (grows : walk.Grows later) :
    later.Settled program e := by
  cases e with
  | reduction => trivial
  | node node head dtype operands =>
      by_cases isCall : ∃ callee name, head = .call (.func callee name)
      · obtain ⟨callee, name, rfl⟩ := isCall
        exact grows.entered settled
      · have other : ∀ callee name, head ≠ .call (.func callee name) :=
          fun callee name same => isCall ⟨callee, name, same⟩
        rw [settled_operands other] at settled ⊢
        exact fun y member => (settled y member).mono grows

variable {pending : Expr → Prop}

theorem Tracked.visit (linked : program.Linked root) {home : Option FuncId} {node : NodeId}
    {head : Head} {dtype : DType} {operands : List Expr} (isHome : program.Home root home)
    (stands : program.StandsIn root home (.node node head dtype operands))
    (tracked : walk.Tracked program root busy pending) :
    (walk.visit node).Tracked program root busy
      fun x => pending x ∨ x = .node node head dtype operands where
  toPlaced := ⟨tracked.placed, tracked.entered, tracked.home, tracked.unfinished, tracked.nodup⟩
  settled home' x isHome' stands' passed := by
    cases x with
    | reduction => exact .inr trivial
    | node other head' dtype' operands' =>
        unfold Passed CallWalk.visit at passed
        simp only at passed
        rw [Std.TreeSet.contains_insert, Bool.or_eq_true] at passed
        rcases passed with same | before
        · have same := Std.LawfulEqCmp.eq_of_compare (beq_iff_eq.1 same)
          exact .inl (.inr (linked.coherent home' home _ _ isHome' isHome stands' stands same.symm))
        · exact (tracked.settled home' _ isHome' stands' before).imp .inl (·.mono grows_visit)
  stages id finished entry isStage := (tracked.stages id finished entry isStage).mono grows_visit

theorem Tracked.settle {e : Expr}
    (tracked : walk.Tracked program root busy fun x => pending x ∨ x = e)
    (settled : walk.Settled program e) : walk.Tracked program root busy pending :=
  { tracked with
    settled := fun home x isHome stands passed => by
      rcases tracked.settled home x isHome stands passed with (isPending | rfl) | known
      · exact .inl isPending
      · exact .inr settled
      · exact .inr known }

theorem Tracked.enter (linked : program.Linked root) (isHome : program.Home root (some f))
    (tracked : walk.Tracked program root busy pending)
    (absent : (program.func f).name ∉ walk.entered) :
    (walk.enter (program.func f).name).Tracked program root (f :: busy) pending where
  toPlaced := tracked.toPlaced.enter linked isHome absent
  settled home x isHome' stands passed :=
    (tracked.settled home x isHome' stands (passed_enter.1 passed)).imp_right (·.mono grows_enter)
  stages id finished entry isStage := (tracked.stages id finished entry isStage).mono grows_enter

theorem Tracked.finish (isHome : program.Home root (some f)) (new : f ∉ busy)
    (tracked : walk.Tracked program root (f :: busy) pending)
    (passed : ∀ entry ∈ (program.func f).stages, walk.Passed entry.2.value) :
    (walk.finish f).Tracked program root busy pending where
  toPlaced := tracked.toPlaced.finish isHome new
  settled home x isHome' stands passed' :=
    (tracked.settled home x isHome' stands (passed_finish.1 passed')).imp_right (·.mono grows_finish)
  stages := List.forall_mem_cons.2 ⟨fun entry isStage => (passed entry isStage).mono grows_finish,
    fun id finished entry isStage => (tracked.stages id finished entry isStage).mono grows_finish⟩

end

end CallWalk

section

variable {program : Program} {root : Expr}

def Tracks (program : Program) (root : Expr) (walking : StateM CallWalk Unit) (busy : List FuncId)
    (es : List Expr) : Prop :=
  ∀ (pending : Expr → Prop) (walk : CallWalk), walk.Tracked program root busy pending →
    (walk.after walking).Tracked program root busy pending ∧ walk.Grows (walk.after walking) ∧
      ∀ e ∈ es, (walk.after walking).Passed e

def EntersTracked (program : Program) (root : Expr) (enter : FuncId → StateM CallWalk Unit)
    (busy : List FuncId) (id : FuncId) : Prop :=
  ∀ (pending : Expr → Prop) (walk : CallWalk), walk.Tracked program root busy pending →
    (program.func id).name ∉ walk.entered →
    (walk.after (enter id)).Tracked program root busy pending ∧
      walk.Grows (walk.after (enter id)) ∧
      (program.func id).name ∈ (walk.after (enter id)).entered

theorem walkAllCalls_tracks {enter : FuncId → StateM CallWalk Unit} {busy : List FuncId}
    {es : List Expr} (each : ∀ e ∈ es, Tracks program root (e.walkCalls enter) busy [e]) :
    Tracks program root (Expr.walkAllCalls enter es) busy es := by
  induction es with
  | nil => exact fun pending walk tracked => ⟨tracked, .refl, by simp⟩
  | cons e rest ih =>
      obtain ⟨first, others⟩ := List.forall_mem_cons.1 each
      intro pending walk tracked
      obtain ⟨tracked1, grows1, passed1⟩ := first pending walk tracked
      obtain ⟨tracked2, grows2, passed2⟩ := ih others pending _ tracked1
      exact ⟨tracked2, grows1.trans grows2,
        List.forall_mem_cons.2 ⟨(passed1 e (.head _)).mono grows2, passed2⟩⟩

theorem walkCalls_tracks (linked : program.Linked root) {enter : FuncId → StateM CallWalk Unit}
    {busy : List FuncId} {home : Option FuncId} (isHome : program.Home root home) {e : Expr}
    (stands : program.StandsIn root home e)
    (enters : ∀ callee, e.Meets callee → EntersTracked program root enter busy callee) :
    Tracks program root (e.walkCalls enter) busy [e] := by
  induction e using Expr.induction with
  | reduction => exact fun pending walk tracked =>
      ⟨tracked, .refl, List.forall_mem_singleton.2 trivial⟩
  | node node head dtype operands ih =>
      intro pending walk tracked
      by_cases visited : walk.visited.contains node
      · rw [after_walkCalls_visited visited]
        exact ⟨tracked, .refl, List.forall_mem_singleton.2 visited⟩
      have visiting := tracked.visit linked isHome stands
      -- whatever settles the node ends its visit
      have done {later : CallWalk} (grows : (walk.visit node).Grows later)
          (tracked' : later.Tracked program root busy
            fun x => pending x ∨ x = .node node head dtype operands)
          (settled : later.Settled program (.node node head dtype operands)) :
          later.Tracked program root busy pending ∧ walk.Grows later ∧
            ∀ e ∈ [Expr.node node head dtype operands], later.Passed e :=
        ⟨tracked'.settle settled, CallWalk.grows_visit.trans grows,
          List.forall_mem_singleton.2 (grows.visited node Std.TreeSet.contains_insert_self)⟩
      by_cases isCall : ∃ callee name, head = .call (.func callee name)
      · obtain ⟨callee, name, rfl⟩ := isCall
        have sameName := linked.named home _ callee name isHome stands rfl
        rw [after_walkCalls_call visited]
        split
        next entered =>
          rw [List.contains_iff_mem, sameName] at entered
          exact done .refl visiting entered
        next absent =>
          rw [List.contains_iff_mem, sameName] at absent
          obtain ⟨tracked', grows, entered⟩ := enters callee (meets_call.2 rfl) _ _ visiting absent
          exact done grows tracked' entered
      · have other : ∀ callee name, head ≠ .call (.func callee name) :=
          fun callee name same => isCall ⟨callee, name, same⟩
        rw [after_walkCalls_operands visited other]
        obtain ⟨tracked', grows, passed⟩ := walkAllCalls_tracks (fun y member => ih y member
          (stands.outer (.operand other member .here))
          (fun callee meets => enters callee ((meets_operands other).2 ⟨y, member, meets⟩)))
          _ _ visiting
        exact done grows tracked' ((CallWalk.settled_operands other).2 passed)

theorem length_busy_le {busy : List FuncId} (distinct : busy.Nodup)
    (below : ∀ b ∈ busy, b < program.funcs.size) : busy.length ≤ program.funcs.size := by
  have within : busy ⊆ List.range program.funcs.size :=
    fun b inBusy => List.mem_range.2 (below b inBusy)
  simpa using (List.Nodup.subperm distinct within).length_le

theorem enterFunc_tracks (linked : program.Linked root) {depth : Nat} {busy : List FuncId}
    {f : FuncId} (isHome : program.Home root (some f)) (distinct : busy.Nodup)
    (below : ∀ b ∈ busy, b < program.funcs.size)
    (deep : program.funcs.size < depth + busy.length) :
    EntersTracked program root (program.enterFunc depth) busy f := by
  induction depth generalizing busy f with
  | zero =>
      -- the depth exceeds the functions that are not busy
      have fits := length_busy_le distinct below
      omega
  | succ depth ih =>
      intro pending walk tracked absent
      have new : f ∉ busy := tracked.not_busy absent
      let values := (program.func f).stages.reverse.map fun entry => entry.2.value
      let entered := walk.enter (program.func f).name
      let walked := entered.after (Expr.walkAllCalls (program.enterFunc depth) values)
      have unfolded : walk.after (program.enterFunc (depth + 1) f) = walked.finish f := rfl
      have walks : Tracks program root (Expr.walkAllCalls (program.enterFunc depth) values)
          (f :: busy) values := by
        refine walkAllCalls_tracks fun value member => ?_
        obtain ⟨entry, isStage, rfl⟩ := List.mem_map.1 member
        have stands : program.StandsIn root (some f) entry.2.value :=
          ⟨entry, List.mem_reverse.1 isStage, .here⟩
        refine walkCalls_tracks linked isHome stands fun callee meets => ?_
        exact ih (stands.meets meets isHome) (List.nodup_cons.2 ⟨new, distinct⟩)
          (List.forall_mem_cons.2 ⟨linked.known f isHome, below⟩)
          (by simp only [List.length_cons]; omega)
      obtain ⟨tracked', grows, passed⟩ :=
        walks pending entered (tracked.enter linked isHome absent)
      rw [unfolded]
      refine ⟨tracked'.finish isHome new fun entry isStage => ?_,
        (CallWalk.grows_enter.trans grows).trans CallWalk.grows_finish, grows.entered (.head _)⟩
      exact passed _ (List.mem_map.2 ⟨entry, List.mem_reverse.2 isStage, rfl⟩)

theorem reachable_tracked (linked : program.Linked root) :
    let walk := CallWalk.after {} (root.walkCalls (program.enterFunc (program.funcs.size + 1)))
    walk.Tracked program root [] (fun _ => False) ∧ walk.Passed root := by
  have start : CallWalk.Tracked {} program root [] fun _ => False :=
    { placed := fun _ _ entered => nomatch entered
      entered := by simp
      home := by simp
      unfinished := by simp
      nodup := .nil
      settled := fun home x _ _ passed => by
        cases x with
        | node => exact absurd passed (by simp [CallWalk.Passed])
        | reduction => exact .inr trivial
      stages := by simp }
  have walks : Tracks program root
      (root.walkCalls (program.enterFunc (program.funcs.size + 1))) [] [root] := by
    have atRoot : program.StandsIn root none root := Outer.here
    refine walkCalls_tracks linked .root atRoot fun callee meets => ?_
    exact enterFunc_tracks linked (.of_root meets) .nil (by simp) (by simp)
  obtain ⟨tracked, _, passed⟩ := walks _ {} start
  exact ⟨tracked, passed root (.head _)⟩

theorem CallWalk.Tracked.passed {walk : CallWalk} {busy : List FuncId}
    (tracked : walk.Tracked program root busy fun _ => False) {home : Option FuncId}
    (isHome : program.Home root home) {e x : Expr} (stands : program.StandsIn root home e)
    (passed : walk.Passed e) (outer : Outer x e) : walk.Passed x := by
  induction outer with
  | here => exact passed
  | operand other member _ ih =>
      have settled := (tracked.settled home _ isHome stands passed).resolve_left id
      exact ih (stands.outer (.operand other member .here))
        ((CallWalk.settled_operands other).1 settled _ member)

theorem CallWalk.Tracked.mem_finished {walk : CallWalk}
    (tracked : walk.Tracked program root [] fun _ => False) (passedRoot : walk.Passed root)
    {id : FuncId} (isHome : program.Home root (some id)) : id ∈ walk.finished := by
  generalize same : some id = home at isHome
  induction isHome generalizing id with
  | root => cases same
  | @call home x callee isHome stands calls ih =>
      cases same
      have passed : walk.Passed x := by
        cases home with
        | none =>
            have atRoot : program.StandsIn root none root := Outer.here
            exact tracked.passed .root atRoot passedRoot stands
        | some f =>
            obtain ⟨entry, isStage, outer⟩ := stands
            have atStage : program.StandsIn root (some f) entry.2.value := ⟨entry, isStage, .here⟩
            exact tracked.passed isHome atStage (tracked.stages f (ih rfl) entry isStage) outer
      have settled := (tracked.settled home x isHome stands passed).resolve_left id
      exact (tracked.placed callee (.call isHome stands calls)
        (CallWalk.settled_call settled calls)).resolve_left (by simp)

namespace Program.Linked

theorem mem_reachable (linked : program.Linked root) {id : FuncId} :
    id ∈ program.reachable root ↔ program.Home root (some id) := by
  obtain ⟨tracked, passed⟩ := reachable_tracked linked
  exact ⟨tracked.home id, tracked.mem_finished passed⟩

theorem nodup_reachable (linked : program.Linked root) : (program.reachable root).Nodup :=
  (reachable_tracked linked).1.nodup

end Program.Linked

end

end ReverseMode
