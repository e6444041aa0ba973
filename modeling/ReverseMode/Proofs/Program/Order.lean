import Mathlib.Data.List.Nodup
import Mathlib.Logic.Relation
import ReverseMode.Proofs.Program.Reached

/-!
# Consumers come before producers

The walk over the call graph passes over a node that was met before, also while the nodes below it
are still being walked. That happens inside a function whose update shares a node with the place the
function was entered from; the calls below that node are then met too late. In layered programs such
a node is at most the call the function was entered by, and every function is listed before all
others that its stages meet.
-/

namespace ReverseMode

open Expr

theorem Expr.ne_of_member {node : NodeId} {head : Head} {dtype : DType} {operands : List Expr}
    {x y : Expr} (member : y ∈ operands) (above : Outer (.node node head dtype operands) x) :
    x ≠ y := by
  rintro rfl
  have smaller := List.sizeOf_lt_of_mem member
  have within := above.subnode.sizeOf_le
  simp only [Expr.node.sizeOf_spec] at within
  omega

namespace Program

/-- A stage of the function meets another function. -/
def Leads (program : Program) (id callee : FuncId) : Prop :=
  callee ≠ id ∧ ∃ entry ∈ (program.func id).stages, entry.2.value.Meets callee

def Shallow (program : Program) : Nat → FuncId → Prop
  | 0, _ => False
  | depth + 1, f => f < program.funcs.size ∧
      ∀ callee, program.Leads f callee → program.Shallow depth callee

structure Acyclic (program : Program) (root : Expr) : Prop where
  known : ∀ id, program.Home root (some id) → id < program.funcs.size
  acyclic : ∀ id, program.Home root (some id) → ¬ Relation.TransGen program.Leads id id

structure Stratified (program : Program) (root : Expr) : Prop extends program.Acyclic root where
  distinct : ∀ id id', program.Home root (some id) → program.Home root (some id') →
    (program.func id).name = (program.func id').name → id = id'
  /-- A call bears the name of its function. -/
  named : ∀ home x id name, program.Home root home → program.StandsIn root home x →
    x.callee? = some (.func id name) → name = (program.func id).name

/-- A stratified program where a node by which a function reads itself stands in no other function
and not in the root. -/
structure Layered (program : Program) (root : Expr) : Prop extends program.Stratified root where
  /-- Nodes of one identity are one node. -/
  coherent : ∀ home home' x x', program.Home root home → program.Home root home' →
    program.StandsIn root home x → program.StandsIn root home' x' → x.id = x'.id → x = x'
  /-- The calls themselves may be shared. -/
  apart : ∀ id home x, program.Home root (some id) → program.Home root home →
    program.StandsIn root (some id) x → program.StandsIn root home x → x.Meets id →
    ¬ x.CallsHere id → home = some id

section

variable {program : Program} {root : Expr}

theorem StandsIn.leads {f callee : FuncId} {x : Expr} (stands : program.StandsIn root (some f) x)
    (meets : x.Meets callee) (other : callee ≠ f) : program.Leads f callee := by
  obtain ⟨entry, member, outer⟩ := stands
  exact ⟨other, entry, member, outer.meets meets⟩

theorem Home.reaches {f id : FuncId} (isHome : program.Home root (some f))
    (reaches : Relation.ReflTransGen program.Leads f id) : program.Home root (some id) := by
  induction reaches with
  | refl => exact isHome
  | tail _ leads ih =>
      obtain ⟨_, entry, member, meets⟩ := leads
      exact ih.of_stage member meets

theorem Acyclic.shallow_below (isAcyclic : program.Acyclic root) {entered : List FuncId}
    {id : FuncId} {depth : Nat} (isHome : program.Home root (some id))
    (homes : ∀ f ∈ entered, program.Home root (some f))
    (leads : ∀ f ∈ entered, Relation.TransGen program.Leads f id) (distinct : entered.Nodup)
    (room : program.funcs.size ≤ entered.length + depth) : program.Shallow depth id := by
  have entered_id : (id :: entered).Nodup :=
    List.nodup_cons.2 ⟨fun member => isAcyclic.acyclic id isHome (leads id member), distinct⟩
  induction depth generalizing entered id with
  | zero =>
      have known : id :: entered ⊆ List.range program.funcs.size := by
        intro f member
        rcases List.mem_cons.1 member with rfl | above
        · exact List.mem_range.2 (isAcyclic.known f isHome)
        · exact List.mem_range.2 (isAcyclic.known f (homes f above))
      have fits := (entered_id.subperm known).length_le
      rw [List.length_cons, List.length_range] at fits
      omega
  | succ depth ih =>
      refine ⟨isAcyclic.known id isHome, fun callee next => ?_⟩
      have isCallee : program.Home root (some callee) := isHome.reaches (.single next)
      have leadsNext : ∀ f ∈ id :: entered, Relation.TransGen program.Leads f callee :=
        List.forall_mem_cons.2 ⟨.single next, fun f above => (leads f above).tail next⟩
      refine ih isCallee (List.forall_mem_cons.2 ⟨isHome, homes⟩) leadsNext entered_id ?_ ?_
      · rw [List.length_cons]
        omega
      · exact List.nodup_cons.2
          ⟨fun member => isAcyclic.acyclic callee isCallee (leadsNext callee member), entered_id⟩

theorem Acyclic.shallow (isAcyclic : program.Acyclic root) {id : FuncId}
    (isHome : program.Home root (some id)) {depth : Nat} (room : program.funcs.size ≤ depth) :
    program.Shallow depth id :=
  isAcyclic.shallow_below isHome (by simp) (by simp) List.nodup_nil (by simpa using room)

theorem Layered.linked (layered : program.Layered root) : program.Linked root :=
  ⟨layered.known, layered.distinct, layered.named, layered.coherent⟩

end

end Program

def CallWalk.Knows (walk : CallWalk) (program : Program) (e : Expr) : Prop :=
  ∀ callee, e.Meets callee → (program.func callee).name ∈ walk.entered

/-- A walk while functions are busy and nodes are pending: the nodes that are done with meet entered
functions alone, and finished functions are listed before those they lead to. -/
structure CallWalk.Orderly (walk : CallWalk) (program : Program) (root : Expr)
    (busy : List FuncId) (pending : Expr → Prop) : Prop extends walk.Placed program root busy where
  met : ∀ home x, program.Home root home → program.StandsIn root home x →
    walk.visited.contains x.id → pending x ∨ walk.Knows program x
  sorted : ∀ id callee, id ∈ walk.finished → program.Leads id callee →
    [id, callee].Sublist walk.finished

namespace CallWalk

variable {program : Program} {root : Expr} {busy : List FuncId} {pending : Expr → Prop}
  {walk walk' : CallWalk}

theorem Knows.mono {e : Expr} (knows : walk.Knows program e)
    (grows : walk.entered ⊆ walk'.entered) : walk'.Knows program e :=
  fun callee meets => grows (knows callee meets)

theorem Orderly.settle {e : Expr}
    (orderly : walk.Orderly program root busy fun x => pending x ∨ x = e)
    (knows : walk.Knows program e) : walk.Orderly program root busy pending :=
  { orderly with
    met := fun home x isHome stands visited => by
      rcases orderly.met home x isHome stands visited with (isPending | rfl) | known
      · exact .inl isPending
      · exact .inr knows
      · exact .inr known }

theorem Orderly.visit (layered : program.Layered root) {home : Option FuncId} {e : Expr}
    (isHome : program.Home root home) (stands : program.StandsIn root home e)
    (orderly : walk.Orderly program root busy pending) :
    Orderly { walk with visited := walk.visited.insert e.id } program root busy
      fun x => pending x ∨ x = e :=
  { orderly with
    met := fun home' x isHome' stands' visited => by
      rw [Std.TreeSet.contains_insert, Bool.or_eq_true] at visited
      rcases visited with same | before
      · have same := Std.LawfulEqCmp.eq_of_compare (beq_iff_eq.1 same)
        exact .inl (.inr (layered.coherent home' home x e isHome' isHome stands' stands same.symm))
      · exact (orderly.met home' x isHome' stands' before).imp_left .inl }

end CallWalk

section

variable {program : Program} {root : Expr}

def EntersOrderly (program : Program) (root : Expr) (enter : FuncId → StateM CallWalk Unit)
    (busy : List FuncId) (id : FuncId) : Prop :=
  ∀ (pending : Expr → Prop) (walk : CallWalk), walk.Orderly program root busy pending →
    (program.func id).name ∉ walk.entered →
    (∀ x, pending x → ∃ callee home, x.Meets callee ∧
      Relation.ReflTransGen program.Leads callee id ∧ program.Home root home ∧
      program.StandsIn root home x ∧ ∀ f, home = some f → f ∈ busy) →
    (walk.after (enter id)).Orderly program root busy pending ∧
      walk.entered ⊆ (walk.after (enter id)).entered ∧
      (program.func id).name ∈ (walk.after (enter id)).entered

def Above (program : Program) (root : Expr) (busy : List FuncId) (home : Option FuncId) (e : Expr)
    (x : Expr) : Prop :=
  (x ≠ e ∧ Outer e x ∧ program.StandsIn root home x) ∨
    ∃ f callee home', home = some f ∧ x.Meets callee ∧
      Relation.ReflTransGen program.Leads callee f ∧ program.Home root home' ∧
      program.StandsIn root home' x ∧ home' ≠ home ∧ ∀ f, home' = some f → f ∈ busy

theorem knows_of_pending (layered : program.Layered root) {busy : List FuncId}
    {pending : Expr → Prop} {walk : CallWalk} {home : Option FuncId} {e : Expr}
    (isHome : program.Home root home) (stands : program.StandsIn root home e)
    (isBusy : ∀ f, home = some f → f ∈ busy)
    (orderly : walk.Orderly program root busy pending)
    (above : Above program root busy home e e) : walk.Knows program e := by
  rcases above with ⟨differs, _⟩ | ⟨f, callee, home', rfl, meets, leads, isHome', stands', differs, _⟩
  · exact absurd rfl differs
  · by_cases isSelf : callee = f
    · subst isSelf
      have isCall : e.CallsHere callee := by
        by_contra noCall
        exact differs (layered.apart callee home' e isHome isHome' stands stands' meets noCall)
      obtain ⟨name, isCall⟩ := isCall
      intro other metToo
      have same : other = callee := by
        cases e with
        | node node head dtype operands =>
            cases head <;> cases isCall
            exact meets_call.1 metToo
        | reduction => cases isCall
      rw [same]
      exact orderly.entered callee (.inl (isBusy callee rfl))
    · have cycle := Relation.TransGen.head' (stands.leads meets isSelf) leads
      exact absurd cycle (layered.acyclic f isHome)

def WalksOrderly (program : Program) (root : Expr) (walking : StateM CallWalk Unit)
    (busy : List FuncId) (home : Option FuncId) (es : List Expr) : Prop :=
  ∀ (pending : Expr → Prop) (walk : CallWalk), walk.Orderly program root busy pending →
    (∀ e ∈ es, ∀ x, pending x → Above program root busy home e x) →
    (walk.after walking).Orderly program root busy pending ∧
      walk.entered ⊆ (walk.after walking).entered ∧
      ∀ e ∈ es, (walk.after walking).Knows program e

theorem walkAllCalls_orderly {enter : FuncId → StateM CallWalk Unit} {busy : List FuncId}
    {home : Option FuncId} {es : List Expr}
    (each : ∀ e ∈ es, WalksOrderly program root (e.walkCalls enter) busy home [e]) :
    WalksOrderly program root (Expr.walkAllCalls enter es) busy home es := by
  induction es with
  | nil => exact fun pending walk orderly _ => ⟨orderly, fun _ => id, by simp⟩
  | cons e rest ih =>
      obtain ⟨first, others⟩ := List.forall_mem_cons.1 each
      intro pending walk orderly above
      obtain ⟨aboveFirst, aboveRest⟩ := List.forall_mem_cons.1 above
      obtain ⟨orderly1, grows1, knows1⟩ :=
        first pending walk orderly (List.forall_mem_singleton.2 aboveFirst)
      obtain ⟨orderly2, grows2, knows2⟩ := ih others pending _ orderly1 aboveRest
      refine ⟨orderly2, List.Subset.trans grows1 grows2, List.forall_mem_cons.2 ⟨?_, knows2⟩⟩
      exact (knows1 e (.head _)).mono grows2

theorem Above.operand {busy : List FuncId} {home : Option FuncId} {node : NodeId} {head : Head}
    {dtype : DType} {operands : List Expr} {x y : Expr}
    (other : ∀ callee name, head ≠ .call (.func callee name)) (member : y ∈ operands)
    (stands : program.StandsIn root home (.node node head dtype operands))
    (above : Above program root busy home (.node node head dtype operands) x ∨
      x = .node node head dtype operands) : Above program root busy home y x := by
  have outer : Outer y (.node node head dtype operands) := .operand other member .here
  rcases above with (⟨_, outerX, standsX⟩ | elsewhere) | rfl
  · exact .inl ⟨ne_of_member member outerX, outer.trans outerX, standsX⟩
  · exact .inr elsewhere
  · exact .inl ⟨ne_of_member member .here, outer, stands⟩

theorem walkCalls_orderly (layered : program.Layered root)
    {enter : FuncId → StateM CallWalk Unit} {busy : List FuncId} {home : Option FuncId}
    (isHome : program.Home root home) (isBusy : ∀ f, home = some f → f ∈ busy) {e : Expr}
    (stands : program.StandsIn root home e)
    (enters : ∀ callee, e.Meets callee → home ≠ some callee →
      EntersOrderly program root enter busy callee) :
    WalksOrderly program root (e.walkCalls enter) busy home [e] := by
  induction e using Expr.induction with
  | reduction node domain axis least extent =>
      exact fun pending walk orderly _ => ⟨orderly, fun _ => id, List.forall_mem_singleton.2
        fun _ meets => absurd meets not_meets_reduction⟩
  | node node head dtype operands ih =>
      intro pending walk orderly above
      have above := above _ (.head _)
      by_cases visited : walk.visited.contains node
      · rw [after_walkCalls_visited visited]
        refine ⟨orderly, fun _ => id, List.forall_mem_singleton.2 ?_⟩
        rcases orderly.met home _ isHome stands visited with isPending | known
        · exact knows_of_pending layered isHome stands isBusy orderly (above _ isPending)
        · exact known
      have visiting : (walk.visit node).Orderly program root busy
          fun x => pending x ∨ x = .node node head dtype operands :=
        orderly.visit layered isHome stands
      by_cases isCall : ∃ callee name, head = .call (.func callee name)
      · obtain ⟨callee, name, rfl⟩ := isCall
        have sameName := layered.named home _ callee name isHome stands rfl
        rw [after_walkCalls_call visited]
        split
        next entered =>
          have knows : (walk.visit node).Knows program
              (.node node (.call (.func callee name)) dtype operands) := by
            intro other meets
            rw [meets_call.1 meets, ← sameName]
            exact List.contains_iff_mem.1 entered
          exact ⟨visiting.settle knows, fun _ => id, List.forall_mem_singleton.2 knows⟩
        next absent =>
          rw [List.contains_iff_mem, sameName] at absent
          have foreign : home ≠ some callee := by
            rintro rfl
            exact absent (orderly.entered callee (.inl (isBusy callee rfl)))
          have meets : Meets (.node node (.call (.func callee name)) dtype operands) callee :=
            meets_call.2 rfl
          -- Every pending node leads to the callee, this one by calling it.
          obtain ⟨orderly', grows, entered⟩ := enters callee meets foreign _ _ visiting absent <| by
            rintro x (isPending | rfl)
            · rcases above x isPending with
                ⟨_, outer, standsX⟩ | ⟨f, met, home', rfl, meetsX, leads, isHome', standsX, _, inBusy⟩
              · exact ⟨callee, home, outer.meets meets, .refl, isHome, standsX, isBusy⟩
              · have next := stands.leads meets fun same => foreign (congrArg some same.symm)
                exact ⟨met, home', meetsX, leads.tail next, isHome', standsX, inBusy⟩
            · exact ⟨callee, home, meets, .refl, isHome, stands, isBusy⟩
          have knows : ((walk.visit node).after (enter callee)).Knows program
              (.node node (.call (.func callee name)) dtype operands) := by
            intro other metToo
            rw [meets_call.1 metToo]
            exact entered
          exact ⟨orderly'.settle knows, grows, List.forall_mem_singleton.2 knows⟩
      · have other : ∀ callee name, head ≠ .call (.func callee name) :=
          fun callee name same => isCall ⟨callee, name, same⟩
        rw [after_walkCalls_operands visited other]
        obtain ⟨orderly', grows, known⟩ := walkAllCalls_orderly (fun y member => ih y member
          (stands.outer (.operand other member .here))
          (fun callee meets => enters callee ((meets_operands other).2 ⟨y, member, meets⟩)))
          _ _ visiting fun y member x isPending =>
            .operand other member stands (isPending.imp_left (above x))
        have knows : ((walk.visit node).after (Expr.walkAllCalls enter operands)).Knows program
            (.node node head dtype operands) := by
          intro callee meets
          obtain ⟨y, member, meetsY⟩ := (meets_operands other).1 meets
          exact known y member callee meetsY
        exact ⟨orderly'.settle knows, grows, List.forall_mem_singleton.2 knows⟩

theorem CallWalk.Orderly.finish (layered : program.Layered root) {busy : List FuncId}
    {pending : Expr → Prop} {walk : CallWalk} {f : FuncId}
    (isHome : program.Home root (some f)) (new : f ∉ busy)
    (chain : ∀ b ∈ busy, Relation.TransGen program.Leads b f)
    (orderly : walk.Orderly program root (f :: busy) pending)
    (known : ∀ entry ∈ (program.func f).stages, walk.Knows program entry.2.value) :
    (walk.finish f).Orderly program root busy pending where
  toPlaced := orderly.toPlaced.finish isHome new
  met := orderly.met
  sorted id callee finished leads := by
    rcases List.mem_cons.1 finished with rfl | before
    · obtain ⟨other, entry, member, meets⟩ := leads
      have isHome' : program.Home root (some callee) := isHome.of_stage member meets
      rcases orderly.placed callee isHome' (known entry member callee meets) with inBusy | listed
      · rcases List.mem_cons.1 inBusy with same | below
        · exact absurd same other
        · exact absurd ((chain callee below).tail ⟨other, entry, member, meets⟩)
            (layered.acyclic callee isHome')
      · exact .cons_cons _ (List.singleton_sublist.2 listed)
    · exact (orderly.sorted id callee before leads).cons _

theorem CallWalk.Orderly.enter (layered : program.Layered root) {busy : List FuncId}
    {pending : Expr → Prop} {walk : CallWalk} {f : FuncId}
    (isHome : program.Home root (some f))
    (orderly : walk.Orderly program root busy pending)
    (absent : (program.func f).name ∉ walk.entered) :
    (walk.enter (program.func f).name).Orderly program root (f :: busy) pending where
  toPlaced := orderly.toPlaced.enter layered.linked isHome absent
  met home x isHome' stands visited := (orderly.met home x isHome' stands visited).imp_right
    fun knows => knows.mono (List.subset_cons_self _ _)
  sorted := orderly.sorted

theorem enterFunc_orderly (layered : program.Layered root) {depth : Nat} {busy : List FuncId}
    {f : FuncId} (isHome : program.Home root (some f))
    (chain : ∀ b ∈ busy, Relation.TransGen program.Leads b f) (distinct : busy.Nodup)
    (below : ∀ b ∈ busy, b < program.funcs.size)
    (deep : program.funcs.size < depth + busy.length) :
    EntersOrderly program root (program.enterFunc depth) busy f := by
  induction depth generalizing busy f with
  | zero =>
      have fits := length_busy_le distinct below
      omega
  | succ depth ih =>
      intro pending walk orderly absent places
      have new : f ∉ busy := orderly.not_busy absent
      have enters (callee : FuncId) (leads : program.Leads f callee)
          (isHome' : program.Home root (some callee)) :
          EntersOrderly program root (program.enterFunc depth) (f :: busy) callee := by
        refine ih isHome' ?_ (List.nodup_cons.2 ⟨new, distinct⟩)
          (List.forall_mem_cons.2 ⟨layered.known f isHome, below⟩)
          (by simp only [List.length_cons]; omega)
        exact List.forall_mem_cons.2 ⟨.single leads, fun b inBusy => (chain b inBusy).tail leads⟩
      let entered := walk.enter (program.func f).name
      let values := (program.func f).stages.reverse.map fun entry => entry.2.value
      let walked := entered.after (Expr.walkAllCalls (program.enterFunc depth) values)
      have unfolded : walk.after (program.enterFunc (depth + 1) f) = walked.finish f := rfl
      have stands : ∀ value ∈ values, program.StandsIn root (some f) value := by
        intro value member
        obtain ⟨entry, isStage, rfl⟩ := List.mem_map.1 member
        exact ⟨entry, List.mem_reverse.1 isStage, .here⟩
      have walks : WalksOrderly program root (Expr.walkAllCalls (program.enterFunc depth) values)
          (f :: busy) (some f) values := by
        refine walkAllCalls_orderly fun value member => ?_
        refine walkCalls_orderly layered isHome (by rintro _ ⟨⟩; exact .head _)
          (stands value member) fun callee meets foreign => ?_
        exact enters callee ((stands value member).leads meets fun same => foreign (same ▸ rfl))
          ((stands value member).meets meets isHome)
      obtain ⟨orderly', grows, known⟩ := walks pending entered (orderly.enter layered isHome absent)
        fun value member x isPending => by
          obtain ⟨callee, home, meets, leads, isHome', standsX, inBusy⟩ := places x isPending
          refine .inr ⟨f, callee, home, rfl, meets, leads, isHome', standsX, ?_, fun g same =>
            .tail _ (inBusy g same)⟩
          rintro rfl
          exact new (inBusy f rfl)
      rw [unfolded]
      refine ⟨orderly'.finish layered isHome new chain fun entry member => ?_, fun name old =>
        grows (.tail _ old), grows (.head _)⟩
      exact known _ (List.mem_map.2 ⟨entry, List.mem_reverse.2 member, rfl⟩)

theorem reachable_orderly (layered : program.Layered root) :
    let walk := CallWalk.after {} (root.walkCalls (program.enterFunc (program.funcs.size + 1)))
    walk.Orderly program root [] (fun _ => False) ∧ walk.Knows program root := by
  have start : CallWalk.Orderly {} program root [] fun _ => False :=
    { met := fun _ _ _ _ visited => absurd visited (by simp)
      placed := fun _ _ entered => nomatch entered
      entered := by simp
      home := by simp
      unfinished := by simp
      nodup := .nil
      sorted := by simp }
  have walks : WalksOrderly program root
      (root.walkCalls (program.enterFunc (program.funcs.size + 1))) [] none [root] := by
    refine walkCalls_orderly layered .root (by rintro _ ⟨⟩) .here fun callee meets _ => ?_
    exact enterFunc_orderly layered (.of_root meets) (by simp) .nil (by simp) (by simp)
  obtain ⟨orderly, _, knows⟩ := walks _ {} start (by simp)
  exact ⟨orderly, knows root (.head _)⟩

namespace Program

theorem mem_reachable (layered : program.Layered root) {id : FuncId} :
    id ∈ program.reachable root ↔ program.Home root (some id) := layered.linked.mem_reachable

theorem nodup_reachable (layered : program.Layered root) : (program.reachable root).Nodup :=
  layered.linked.nodup_reachable

theorem reachable_sorted (layered : program.Layered root) {id callee : FuncId}
    (listed : id ∈ program.reachable root) (leads : program.Leads id callee) :
    [id, callee].Sublist (program.reachable root) :=
  (reachable_orderly layered).1.sorted id callee listed leads

end Program

end

end ReverseMode