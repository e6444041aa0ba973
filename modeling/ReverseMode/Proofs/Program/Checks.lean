import ReverseMode.Proofs.Program.Order

namespace ReverseMode

namespace Expr

mutual

def outers : Expr → List Expr
  | node id (.call (.func callee name)) dtype operands =>
      [node id (.call (.func callee name)) dtype operands]
  | node id head dtype operands => node id head dtype operands :: allOuters operands
  | reduction id domain axis least extent => [reduction id domain axis least extent]

def allOuters : List Expr → List Expr
  | [] => []
  | e :: rest => outers e ++ allOuters rest

end

theorem mem_allOuters {x : Expr} {es : List Expr} : x ∈ allOuters es ↔ ∃ e ∈ es, x ∈ e.outers := by
  induction es with
  | nil => simp [allOuters]
  | cons e rest ih => simp [allOuters, ih]

theorem mem_outers {x e : Expr} : x ∈ e.outers ↔ Outer x e := by
  induction e using induction with
  | node id head dtype operands ih =>
      rw [outer_node]
      by_cases isCall : ∃ callee name, head = .call (.func callee name)
      · obtain ⟨callee, name, rfl⟩ := isCall
        simp [outers]
      · have other : ∀ callee name, head ≠ .call (.func callee name) :=
          fun callee name same => isCall ⟨callee, name, same⟩
        rw [outers, List.mem_cons, mem_allOuters]
        · refine or_congr Iff.rfl ⟨?_, ?_⟩
          · rintro ⟨y, member, inside⟩
            exact ⟨other, y, member, (ih y member).1 inside⟩
          · rintro ⟨_, y, member, inside⟩
            exact ⟨y, member, (ih y member).2 inside⟩
        · exact other
  | reduction id domain axis least extent =>
      rw [outers, List.mem_singleton]
      constructor
      · rintro rfl
        exact .here
      · intro outer
        cases outer
        rfl

def met (e : Expr) : List (FuncId × String) :=
  e.outers.filterMap fun x => x.callee?.bind fun
    | .func id name => some (id, name)
    | _ => none

theorem mem_met {e : Expr} {id : FuncId} {name : String} :
    (id, name) ∈ e.met ↔ ∃ x, Outer x e ∧ x.callee? = some (.func id name) := by
  unfold met
  rw [List.mem_filterMap]
  refine exists_congr fun x => and_congr mem_outers ?_
  cases x.callee? with
  | none => simp
  | some callee => cases callee <;> simp

def calls (e : Expr) : List (FuncId × List Expr) :=
  e.outers.filterMap fun x => x.callee?.bind fun
    | .func callee _ => some (callee, x.operands)
    | _ => none

theorem mem_calls {e : Expr} {callee : FuncId} {args : List Expr} :
    (callee, args) ∈ e.calls ↔
      ∃ x name, Outer x e ∧ x.callee? = some (.func callee name) ∧ x.operands = args := by
  unfold calls
  rw [List.mem_filterMap]
  refine exists_congr fun x => ?_
  rw [mem_outers]
  cases x.callee? with
  | none => simp
  | some read => cases read <;> simp

theorem calls_call {node : NodeId} {callee : FuncId} {name : String} {dtype : DType}
    {operands : List Expr} :
    calls (.node node (.call (.func callee name)) dtype operands) = [(callee, operands)] := rfl

theorem calls_operands {node : NodeId} {head : Head} {dtype : DType} {operands : List Expr}
    (other : ∀ callee name, head ≠ .call (.func callee name)) :
    calls (.node node head dtype operands) = operands.flatMap calls := by
  have below (es : List Expr) : (allOuters es).filterMap (fun x => x.callee?.bind fun
      | .func callee _ => some (callee, x.operands)
      | _ => none) = es.flatMap calls := by
    induction es with
    | nil => rfl
    | cons e rest ih => rw [allOuters, List.filterMap_append, ih, List.flatMap_cons, calls]
  rw [calls, outers, List.filterMap_cons_none, below]
  · cases head with
    | call callee =>
        cases callee with
        | func id name => exact absurd rfl (other id name)
        | _ => rfl
    | _ => rfl
  · exact other

theorem meets_of_mem_calls {e : Expr} {call : FuncId × List Expr} (member : call ∈ e.calls) :
    e.Meets call.1 := by
  obtain ⟨x, name, outer, isCall, _⟩ := mem_calls.1 member
  exact ⟨x, outer, name, isCall⟩

end Expr

open Expr

namespace Program

def MeetsAmong (program : Program) (ids : List FuncId) (e : Expr) : Prop :=
  ∀ call ∈ e.met, call.1 ∈ ids ∧ call.2 = (program.func call.1).name

instance (program : Program) (ids : List FuncId) (e : Expr) : Decidable (program.MeetsAmong ids e) :=
  inferInstanceAs (Decidable (∀ call ∈ e.met, _))

structure Encloses (program : Program) (root : Expr) (ids : List FuncId) : Prop where
  root : program.MeetsAmong ids root
  stages : ∀ f ∈ ids, ∀ entry ∈ (program.func f).stages, program.MeetsAmong ids entry.2.value

def Ordered (program : Program) : List FuncId → Prop
  | [] => True
  | f :: rest => f < program.funcs.size ∧
      (∀ entry ∈ (program.func f).stages, program.MeetsAmong (f :: rest) entry.2.value) ∧
      (∀ g ∈ rest, (program.func g).name ≠ (program.func f).name) ∧ program.Ordered rest

instance decidableOrdered (program : Program) : ∀ order, Decidable (program.Ordered order)
  | [] => isTrue trivial
  | _ :: rest =>
      have := decidableOrdered program rest
      inferInstanceAs (Decidable (_ ∧ _ ∧ _ ∧ _))

section

variable {program : Program} {root : Expr} {order : List FuncId}

theorem Ordered.known (ordered : program.Ordered order) :
    ∀ f ∈ order, f < program.funcs.size := by
  induction order with
  | nil => simp
  | cons g rest ih => exact List.forall_mem_cons.2 ⟨ordered.1, ih ordered.2.2.2⟩

theorem Ordered.meets (ordered : program.Ordered order) {f : FuncId} (member : f ∈ order)
    {entry : Int × Definition} (isStage : entry ∈ (program.func f).stages) :
    program.MeetsAmong order entry.2.value := by
  induction order with
  | nil => cases member
  | cons g rest ih =>
      obtain ⟨_, here, _, later⟩ := ordered
      rcases List.mem_cons.1 member with rfl | inRest
      · exact here entry isStage
      · exact fun call isCall => (ih later inRest call isCall).imp_left (.tail _)

theorem Ordered.distinct (ordered : program.Ordered order) {f g : FuncId} (isF : f ∈ order)
    (isG : g ∈ order) (same : (program.func f).name = (program.func g).name) : f = g := by
  induction order with
  | nil => cases isF
  | cons h rest ih =>
      obtain ⟨_, _, differ, later⟩ := ordered
      rcases List.mem_cons.1 isF with rfl | inRest <;> rcases List.mem_cons.1 isG with rfl | inRest'
      · rfl
      · exact absurd same.symm (differ g inRest')
      · exact absurd same (differ f inRest)
      · exact ih later inRest inRest'

theorem Ordered.acyclic (ordered : program.Ordered order) {f : FuncId} (member : f ∈ order) :
    ¬ Relation.TransGen program.Leads f f := by
  induction order with
  | nil => cases member
  | cons g rest ih =>
      have later := ordered.2.2.2
      rcases List.mem_cons.1 member with rfl | inRest
      · have next {h callee : FuncId} (isH : h ∈ f :: rest) (leads : program.Leads h callee)
            (inLater : h = f ∨ h ∈ rest) : callee ∈ rest := by
          obtain ⟨other, entry, isStage, x, outer, name, isCall⟩ := leads
          have isMet : (callee, name) ∈ entry.2.value.met := mem_met.2 ⟨x, outer, isCall⟩
          rcases inLater with rfl | inRest
          · exact (List.mem_cons.1 (ordered.meets isH isStage _ isMet).1).resolve_left other
          · exact (later.meets inRest isStage _ isMet).1
        have ends {h : FuncId} (reaches : Relation.TransGen program.Leads f h) : h ∈ rest := by
          induction reaches with
          | single leads => exact next (.head _) leads (.inl rfl)
          | tail _ leads ih => exact next (.tail _ ih) leads (.inr ih)
        exact fun cycle => ordered.2.2.1 f (ends cycle) rfl
      · exact ih later inRest

theorem Ordered.encloses (ordered : program.Ordered order)
    (fromRoot : program.MeetsAmong order root) : program.Encloses root order :=
  ⟨fromRoot, fun _ member _ isStage => ordered.meets member isStage⟩

theorem Encloses.home (encloses : program.Encloses root order) {home : Option FuncId}
    (isHome : program.Home root home) : ∀ f, home = some f → f ∈ order := by
  induction isHome with
  | root => exact fun _ isSome => nomatch isSome
  | @call home x id _ stands calls ih =>
      intro f isSome
      cases isSome
      obtain ⟨name, isCall⟩ := calls
      cases home with
      | none => exact (encloses.root (id, name) (mem_met.2 ⟨x, stands, isCall⟩)).1
      | some f =>
          obtain ⟨entry, isStage, outer⟩ := stands
          exact (encloses.stages f (ih f rfl) entry isStage (id, name)
            (mem_met.2 ⟨x, outer, isCall⟩)).1

theorem Encloses.named (encloses : program.Encloses root order) {home : Option FuncId} {x : Expr}
    {id : FuncId} {name : String} (isHome : program.Home root home)
    (stands : program.StandsIn root home x) (isCall : x.callee? = some (.func id name)) :
    name = (program.func id).name := by
  cases home with
  | none => exact (encloses.root (id, name) (mem_met.2 ⟨x, stands, isCall⟩)).2
  | some f =>
      obtain ⟨entry, isStage, outer⟩ := stands
      exact (encloses.stages f (encloses.home isHome f rfl) entry isStage (id, name)
        (mem_met.2 ⟨x, outer, isCall⟩)).2

def nodesOf (program : Program) (root : Expr) (ids : List FuncId) : List Expr :=
  root.outers ++ ids.flatMap fun f => (program.func f).stages.flatMap fun entry =>
    entry.2.value.outers

theorem Encloses.mem_nodesOf (encloses : program.Encloses root order) {home : Option FuncId}
    {x : Expr} (isHome : program.Home root home) (stands : program.StandsIn root home x) :
    x ∈ program.nodesOf root order := by
  rw [nodesOf, List.mem_append]
  cases home with
  | none => exact .inl (mem_outers.2 stands)
  | some f =>
      obtain ⟨entry, isStage, outer⟩ := stands
      exact .inr (List.mem_flatMap.2 ⟨f, encloses.home isHome f rfl,
        List.mem_flatMap.2 ⟨entry, isStage, mem_outers.2 outer⟩⟩)

theorem Ordered.stratified (ordered : program.Ordered order)
    (fromRoot : program.MeetsAmong order root) : program.Stratified root where
  known id isHome := ordered.known id ((ordered.encloses fromRoot).home isHome id rfl)
  distinct id id' isHome isHome' :=
    ordered.distinct ((ordered.encloses fromRoot).home isHome id rfl)
      ((ordered.encloses fromRoot).home isHome' id' rfl)
  acyclic id isHome := ordered.acyclic ((ordered.encloses fromRoot).home isHome id rfl)
  named _ _ _ _ := (ordered.encloses fromRoot).named

end

end Program

end ReverseMode
