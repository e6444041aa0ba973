import ReverseMode.Proofs.Bounds.Hull
import ReverseMode.Proofs.Program.Checks

/-!
# The walk over boxes

What inference does to the boxes of stages, without the expressions that stand for their ends: every
call joins its box to that of the stage it reads, and every function that is called is entered. A
walk fails if an index has no span or spans boxes of different dimensions.

While functions are entered from within each other, all calls of functions that are not busy land in
the recorded boxes, and no recorded box reaches beyond the calls; leaving a function, its calls land
as well. Entering a function where all that it leads to is covered already changes nothing.
-/

namespace ReverseMode

open Expr

structure CallSite where
  key : StageKey
  declared : List String
  box : List (Int × Int)

namespace Program

def record (program : Program) (site : CallSite) (boxes : Boxes) (call : FuncId × List Expr) :
    Option Boxes := do
  let given ← call.2.mapM (Expr.span site.declared site.box)
  let key := calledStage site.key (program.func call.1)
  if (boxes key).all (·.length = given.length) then some (boxes.join key given) else none

def visit (program : Program) (enter : FuncId → Boxes → Option Boxes) (site : CallSite)
    (boxes : Boxes) (call : FuncId × List Expr) : Option Boxes := do
  let recorded ← program.record site boxes call
  if site.key.name = (program.func call.1).name then some recorded else enter call.1 recorded

end Program

def Boxes.inherit (boxes : Boxes) (key : StageKey) (later : Option StageKey) : Option Boxes :=
  match boxes key with
  | some _ => some boxes
  | none => (later.bind boxes).map fun box => Function.update boxes key (some box)

namespace Program

def walkStages (program : Program) (enter : FuncId → Boxes → Option Boxes) (f : Func) :
    Option StageKey → List (Int × Definition) → Boxes → Option Boxes
  | _, [], boxes => some boxes
  | later, (stage, definition) :: earlier, boxes => do
      let key : StageKey := ⟨f.name, stage⟩
      let known ← boxes.inherit key later
      let box ← known key
      let walked ← definition.value.calls.foldlM (program.visit enter ⟨key, f.declared, box⟩) known
      walkStages program enter f (some key) earlier walked

def enterBoxes (program : Program) : Nat → FuncId → Boxes → Option Boxes
  | 0, _, _ => none
  | depth + 1, callee, boxes =>
      let f := program.func callee
      if f.init.isSome then
        program.walkStages (enterBoxes program depth) f none f.stages.reverse boxes
      else none

def inferBoxes (program : Program) (root : Expr) : Option Boxes :=
  root.calls.foldlM (program.visit (program.enterBoxes program.funcs.size)
    ⟨CallContext.root.key, [], []⟩) fun _ => none

end Program

section

variable {program : Program} {root : Expr}

theorem callsStage_iff {caller key : StageKey} {value : Expr} {args : List Expr} :
    program.CallsStage caller value args key ↔
      ∃ callee, (callee, args) ∈ value.calls ∧ calledStage caller (program.func callee) = key := by
  constructor
  · rintro ⟨x, callee, name, outer, isCall, isArgs, isKey⟩
    exact ⟨callee, mem_calls.2 ⟨x, name, outer, isCall, isArgs⟩, isKey⟩
  · rintro ⟨callee, member, isKey⟩
    obtain ⟨x, name, outer, isCall, isArgs⟩ := mem_calls.1 member
    exact ⟨x, callee, name, outer, isCall, isArgs, isKey⟩

theorem mem_calls_callsStage {caller : StageKey} {value : Expr} {call : FuncId × List Expr}
    (member : call ∈ value.calls) :
    program.CallsStage caller value call.2 (calledStage caller (program.func call.1)) :=
  callsStage_iff.2 ⟨call.1, member, rfl⟩

theorem spans_iff_mapM {declared : List String} {box given : List (Int × Int)} {args : List Expr} :
    args.mapM (Expr.span declared box) = some given ↔ Spans declared box args given := by
  unfold Spans
  induction args generalizing given with
  | nil => simp [eq_comm]
  | cons arg rest ih =>
      rw [List.mapM_cons, List.forall₂_cons_left_iff]
      simp only [Option.bind_eq_bind, Option.bind_eq_some_iff, ih, Option.pure_def,
        Option.some.injEq]
      constructor
      · rintro ⟨ends, isSpan, others, areSpans, rfl⟩
        exact ⟨ends, others, isSpan, areSpans, rfl⟩
      · rintro ⟨ends, others, isSpan, areSpans, rfl⟩
        exact ⟨ends, isSpan, others, areSpans, rfl⟩

theorem record_eq_some {site : CallSite} {before after : Boxes} {call : FuncId × List Expr} :
    program.record site before call = some after ↔
      ∃ given, Spans site.declared site.box call.2 given ∧
        (∀ earlier, before (calledStage site.key (program.func call.1)) = some earlier →
          earlier.length = given.length) ∧
        before.join (calledStage site.key (program.func call.1)) given = after := by
  unfold Program.record
  simp only [Option.bind_eq_bind, Option.bind_eq_some_iff, spans_iff_mapM,
    Option.ite_none_right_eq_some, Option.all_eq_true, decide_eq_true_eq, Option.some.injEq]

def LandsCall (program : Program) (boxes : Boxes) (site : CallSite) (call : FuncId × List Expr) :
    Prop :=
  ∃ target given, boxes (calledStage site.key (program.func call.1)) = some target ∧
    Spans site.declared site.box call.2 given ∧ Wider given target

theorem LandsCall.widen {boxes boxes' : Boxes} {site : CallSite} {call : FuncId × List Expr}
    (lands : LandsCall program boxes site call) (widens : boxes.Widens boxes') :
    LandsCall program boxes' site call := by
  obtain ⟨target, given, known, isSpans, wider⟩ := lands
  obtain ⟨target', known', wider'⟩ := widens _ _ known
  exact ⟨target', given, known', isSpans, wider.trans wider'⟩

theorem lands_iff_calls {boxes : Boxes} {site : CallSite} {value : Expr} :
    Lands program boxes site.key site.declared site.box value ↔
      ∀ call ∈ value.calls, LandsCall program boxes site call := by
  constructor
  · exact fun lands call member => lands call.2 _ (mem_calls_callsStage member)
  · intro lands args key calls
    obtain ⟨callee, member, rfl⟩ := callsStage_iff.1 calls
    exact lands (callee, args) member

structure Covered (program : Program) (boxes : Boxes) (id : FuncId) : Prop where
  defined : (program.func id).init.isSome
  stages : ∀ entry ∈ (program.func id).stages, ∃ box,
    boxes ⟨(program.func id).name, entry.1⟩ = some box ∧
    Lands program boxes ⟨(program.func id).name, entry.1⟩ (program.func id).declared box
      entry.2.value

/-- Between any two steps of the walk, functions that are recorded and not busy are covered, and no
box reaches beyond the calls. -/
structure Tracked (program : Program) (root : Expr) (busy : FuncId → Prop) (boxes : Boxes) :
    Prop where
  covered : ∀ id, program.Home root (some id) → ¬ busy id →
    (∃ stage box, boxes ⟨(program.func id).name, stage⟩ = some box) → Covered program boxes id
  backed : Backed program root boxes

namespace Tracked

variable {busy busy' : FuncId → Prop} {boxes boxes' : Boxes}

theorem mono (tracked : Tracked program root busy boxes) (implies : ∀ id, busy id → busy' id) :
    Tracked program root busy' boxes :=
  ⟨fun id isHome idle => tracked.covered id isHome fun isBusy => idle (implies id isBusy),
    tracked.backed⟩

theorem change (tracked : Tracked program root busy boxes) (widens : boxes.Widens boxes')
    (same : ∀ id, program.Home root (some id) → ¬ busy id → ∀ stage,
      boxes' ⟨(program.func id).name, stage⟩ = boxes ⟨(program.func id).name, stage⟩)
    (backed : Backed program root boxes') : Tracked program root busy boxes' := by
  refine ⟨?_, backed⟩
  rintro id isHome idle ⟨stage, box, known⟩
  rw [same id isHome idle] at known
  have covered := tracked.covered id isHome idle ⟨stage, box, known⟩
  refine ⟨covered.defined, fun entry member => ?_⟩
  obtain ⟨box', known', lands⟩ := covered.stages entry member
  exact ⟨box', (same id isHome idle _).trans known', lands.widen widens⟩

end Tracked

def Untouched (program : Program) (caller : StageKey) (callee : FuncId) (key : StageKey) : Prop :=
  key ≠ calledStage caller (program.func callee) ∧
    ((program.func callee).name ≠ caller.name →
      ∀ x, Relation.ReflTransGen program.Leads callee x → key.name ≠ (program.func x).name)

/-- What a walk over calls does to the boxes. -/
structure Walked (program : Program) (root : Expr) (site : CallSite)
    (calls : List (FuncId × List Expr)) (busy : FuncId → Prop) (before after : Boxes) : Prop where
  tracked : Tracked program root busy after
  widens : before.Widens after
  kept : ∀ key, (∀ call ∈ calls, Untouched program site.key call.1 key) → after key = before key
  lands : ∀ call ∈ calls, LandsCall program after site call

def Enters (program : Program) (root : Expr) (enter : FuncId → Boxes → Option Boxes)
    (callee : FuncId) : Prop :=
  ∀ busy before after, Tracked program root (fun id => busy id ∨ id = callee) before →
    (∀ x, Relation.ReflTransGen program.Leads callee x → ¬ busy x) →
    enter callee before = some after →
    Tracked program root busy after ∧ before.Widens after ∧
      ∀ key, (∀ x, Relation.ReflTransGen program.Leads callee x →
        key.name ≠ (program.func x).name) →
        after key = before key

def Walkable (program : Program) (root : Expr) (enter : FuncId → Boxes → Option Boxes)
    (site : CallSite) (busy : FuncId → Prop) (value : Expr) : Prop :=
  ∀ callee, value.Meets callee → (program.func callee).name ≠ site.key.name →
    Enters program root enter callee ∧
      ∀ x, Relation.ReflTransGen program.Leads callee x → ¬ busy x

structure Stands (program : Program) (root : Expr) (boxes : Boxes) (site : CallSite)
    (value : Expr) : Prop where
  place : program.Place root site.key site.declared value
  known : ∃ box, boxes.place site.key = some box ∧ Wider site.box box

theorem Stands.widen {boxes boxes' : Boxes} {site : CallSite} {value : Expr}
    (stands : Stands program root boxes site value) (widens : boxes.Widens boxes') :
    Stands program root boxes' site value := by
  obtain ⟨box, known, wider⟩ := stands.known
  obtain ⟨box', known', wider'⟩ := widens.place known
  exact ⟨stands.place, box', known', wider.trans wider'⟩

theorem Program.Place.calls {caller : StageKey} {declared : List String} {value x : Expr}
    (place : program.Place root caller declared value) (outer : Outer x value) :
    ∃ home, program.Home root home ∧ program.StandsIn root home x := by
  cases place with
  | root => exact ⟨none, .root, outer⟩
  | stage isHome member => exact ⟨_, isHome, _, member, outer⟩

theorem Program.Place.home {caller : StageKey} {declared : List String} {value : Expr}
    (place : program.Place root caller declared value) {id : FuncId} (meets : value.Meets id) :
    program.Home root (some id) := by
  obtain ⟨x, outer, name, isCall⟩ := meets
  obtain ⟨home, atHome, inHome⟩ := place.calls outer
  exact .call atHome inHome ⟨name, isCall⟩

theorem calledStage_name (caller : StageKey) (f : Func) : (calledStage caller f).name = f.name := by
  unfold calledStage
  split <;> rfl

theorem present_of_called {boxes : Boxes} {caller : StageKey} {f : Func} {box : List (Int × Int)}
    (known : boxes (calledStage caller f) = some box) :
    ∃ stage box, boxes ⟨f.name, stage⟩ = some box := by
  refine ⟨(calledStage caller f).stage, box, ?_⟩
  rw [← known, ← calledStage_name caller f]

section

variable {enter : FuncId → Boxes → Option Boxes} {site : CallSite} {value : Expr}
  {busy : FuncId → Prop} {before after : Boxes} {call : FuncId × List Expr}

theorem record_widens (run : program.record site before call = some after) :
    before.Widens after := by
  obtain ⟨given, _, fits, rfl⟩ := record_eq_some.1 run
  exact Boxes.widens_join fits

theorem record_lands (run : program.record site before call = some after) :
    LandsCall program after site call := by
  obtain ⟨given, isSpans, fits, rfl⟩ := record_eq_some.1 run
  obtain ⟨target, isTarget, within⟩ := Boxes.join_here fits
  exact ⟨target, given, isTarget, isSpans, within⟩

theorem record_other (run : program.record site before call = some after) {key : StageKey}
    (notRead : key ≠ calledStage site.key (program.func call.1)) : after key = before key := by
  obtain ⟨given, _, _, rfl⟩ := record_eq_some.1 run
  exact Boxes.join_other notRead

theorem record_tracked (stratified : program.Stratified root) (member : call ∈ value.calls)
    (tracked : Tracked program root busy before) (stands : Stands program root before site value)
    (self : ∀ id, program.Home root (some id) → (program.func id).name = site.key.name → busy id)
    (other : site.key.name ≠ (program.func call.1).name → busy call.1)
    (run : program.record site before call = some after) : Tracked program root busy after := by
  have isHome : program.Home root (some call.1) := stands.place.home (meets_of_mem_calls member)
  have backed : Backed program root after := by
    obtain ⟨given, isSpans, fits, rfl⟩ := record_eq_some.1 run
    obtain ⟨box, isBox, wider⟩ := stands.known
    exact tracked.backed.join stands.place (mem_calls_callsStage member) isBox wider isSpans fits
  refine tracked.change (record_widens run) (fun id isHome' idle stage => record_other run
    fun isKey => idle ?_) backed
  have sameName : (program.func id).name = (program.func call.1).name := by
    rw [← calledStage_name site.key (program.func call.1), ← isKey]
  by_cases isSelf : site.key.name = (program.func call.1).name
  · exact self id isHome' (sameName.trans isSelf.symm)
  · rw [stratified.distinct id call.1 isHome' isHome sameName]
    exact other isSelf

theorem visit_walked (stratified : program.Stratified root)
    (self : ∀ id, program.Home root (some id) → (program.func id).name = site.key.name → busy id)
    (walkable : Walkable program root enter site busy value) (member : call ∈ value.calls)
    (tracked : Tracked program root busy before) (stands : Stands program root before site value)
    (run : program.visit enter site before call = some after) :
    Walked program root site [call] busy before after := by
  obtain ⟨recorded, isRecorded, entered⟩ := Option.bind_eq_some_iff.1 run
  have widens := record_widens isRecorded
  have lands := record_lands isRecorded
  split at entered
  next isSelf =>
    cases entered
    exact ⟨record_tracked stratified member tracked stands self (absurd isSelf) isRecorded, widens,
      fun key untouched => record_other isRecorded (untouched _ (.head _)).1,
      List.forall_mem_singleton.2 lands⟩
  next isOther =>
    obtain ⟨enters, idleBelow⟩ := walkable call.1 (meets_of_mem_calls member) (Ne.symm isOther)
    have trackedRecorded : Tracked program root (fun id => busy id ∨ id = call.1) recorded :=
      record_tracked stratified member (tracked.mono fun _ => .inl) stands
        (fun id isHome sameName => .inl (self id isHome sameName)) (fun _ => .inr rfl) isRecorded
    obtain ⟨trackedAfter, widensAfter, kept⟩ :=
      enters busy _ after trackedRecorded idleBelow entered
    refine ⟨trackedAfter, widens.trans widensAfter, fun key untouched => ?_,
      List.forall_mem_singleton.2 (lands.widen widensAfter)⟩
    obtain ⟨notRead, notBelow⟩ := untouched _ (.head _)
    rw [kept key (notBelow (Ne.symm isOther)), record_other isRecorded notRead]

theorem calls_walked (stratified : program.Stratified root)
    (self : ∀ id, program.Home root (some id) → (program.func id).name = site.key.name → busy id)
    (walkable : Walkable program root enter site busy value) {calls : List (FuncId × List Expr)}
    (within : ∀ call ∈ calls, call ∈ value.calls) (tracked : Tracked program root busy before)
    (stands : Stands program root before site value)
    (run : calls.foldlM (program.visit enter site) before = some after) :
    Walked program root site calls busy before after := by
  induction calls generalizing before with
  | nil =>
      cases run
      exact ⟨tracked, .refl _, fun _ _ => rfl, by simp⟩
  | cons call rest ih =>
      obtain ⟨inValue, restInValue⟩ := List.forall_mem_cons.1 within
      rw [List.foldlM_cons] at run
      obtain ⟨middle, first, later⟩ := Option.bind_eq_some_iff.1 run
      have here := visit_walked stratified self walkable inValue tracked stands first
      have others := ih restInValue here.tracked (stands.widen here.widens) later
      refine ⟨others.tracked, here.widens.trans others.widens, fun key untouched => ?_,
        List.forall_mem_cons.2 ⟨(here.lands call (.head _)).widen others.widens, others.lands⟩⟩
      obtain ⟨untouchedHere, untouchedRest⟩ := List.forall_mem_cons.1 untouched
      rw [others.kept key untouchedRest, here.kept key (List.forall_mem_singleton.2 untouchedHere)]

end

theorem callsStage_early (stratified : program.Stratified root)
    (titled : ∀ id, program.Home root (some id) → (program.func id).name ≠ "") {id : FuncId}
    {stage : Int} (isHome : program.Home root (some id))
    (early : stage < (program.func id).lastStage)
    {caller : StageKey} {declared : List String} {value : Expr} {args : List Expr}
    (place : program.Place root caller declared value)
    (calls : program.CallsStage caller value args ⟨(program.func id).name, stage⟩) :
    (id, args) ∈ value.calls ∧ caller = ⟨(program.func id).name, stage + 1⟩ ∧
      declared = (program.func id).declared ∧
      ∃ definition, (stage + 1, definition) ∈ (program.func id).stages ∧
        definition.value = value := by
  obtain ⟨x, callee, name, outer, isCall, isArgs, isKey⟩ := calls
  have calleeHome : program.Home root (some callee) := place.home ⟨x, outer, name, isCall⟩
  have sameName : (program.func callee).name = (program.func id).name := by
    rw [← calledStage_name caller, isKey]
  obtain rfl := stratified.distinct callee id calleeHome isHome sameName
  unfold calledStage at isKey
  split at isKey
  next isSelf =>
    cases place with
    | root => exact absurd isSelf.symm (titled callee calleeHome)
    | @stage f entry isHome' member =>
        obtain rfl := stratified.distinct f callee isHome' calleeHome isSelf
        obtain ⟨_, definition⟩ := entry
        obtain rfl := eq_add_of_sub_eq (congrArg StageKey.stage isKey)
        exact ⟨mem_calls.2 ⟨x, name, outer, isCall, isArgs⟩, rfl, rfl, definition, member, rfl⟩
  next => exact absurd (congrArg StageKey.stage isKey) (ne_of_gt early)

theorem not_called_of_unknown {boxes : Boxes} {id : FuncId} {stage : Int}
    (stratified : program.Stratified root)
    (titled : ∀ id, program.Home root (some id) → (program.func id).name ≠ "")
    (isHome : program.Home root (some id)) (early : stage < (program.func id).lastStage)
    (walked : ∀ entry ∈ (program.func id).stages, stage < entry.1 → ∃ box,
      Lands program boxes ⟨(program.func id).name, entry.1⟩ (program.func id).declared box
        entry.2.value)
    (unknown : boxes ⟨(program.func id).name, stage⟩ = none) :
    ¬ program.IsCalled root ⟨(program.func id).name, stage⟩ := by
  rintro ⟨caller, declared, value, args, place, calls⟩
  obtain ⟨_, rfl, rfl, definition, isStage, rfl⟩ :=
    callsStage_early stratified titled isHome early place calls
  obtain ⟨box, lands⟩ := walked _ isStage (lt_add_one stage)
  obtain ⟨target, _, known, _⟩ := lands args _ calls
  rw [unknown] at known
  cases known

theorem inherit_some {boxes known : Boxes} {key : StageKey} {later : Option StageKey}
    (inherits : boxes.inherit key later = some known) :
    ∃ box, known key = some box ∧ (known = boxes ∨ boxes key = none ∧
      later.bind boxes = some box ∧ known = Function.update boxes key (some box)) := by
  unfold Boxes.inherit at inherits
  split at inherits
  next box found =>
    cases inherits
    exact ⟨box, found, .inl rfl⟩
  next unknown =>
    obtain ⟨box, isLater, rfl⟩ := Option.map_eq_some_iff.1 inherits
    exact ⟨box, Function.update_self .., .inr ⟨unknown, isLater, rfl⟩⟩

theorem inherit_widens {boxes known : Boxes} {key : StageKey} {later : Option StageKey}
    (inherits : boxes.inherit key later = some known) : boxes.Widens known := by
  obtain ⟨_, _, rfl | ⟨unknown, _, rfl⟩⟩ := inherit_some inherits
  · exact .refl _
  · refine fun other box found => ⟨box, (Function.update_of_ne ?_ _ _).trans found, .refl box⟩
    rintro rfl
    rw [unknown] at found
    cases found

theorem inherit_other {boxes known : Boxes} {key other : StageKey} {later : Option StageKey}
    (inherits : boxes.inherit key later = some known) (different : other ≠ key) :
    known other = boxes other := by
  obtain ⟨_, _, rfl | ⟨_, _, rfl⟩⟩ := inherit_some inherits
  · rfl
  · exact Function.update_of_ne different _ _

structure Midway (program : Program) (root : Expr) (busy : FuncId → Prop) (id : FuncId)
    (later : Option StageKey) (stages : List (Int × Definition)) (boxes : Boxes) : Prop where
  tracked : Tracked program root busy boxes
  within : ∀ entry ∈ stages, entry ∈ (program.func id).stages
  descending : stages.Pairwise fun a b => b.1 < a.1
  resumed : later = none ∨ ∀ entry ∈ stages, entry.1 < (program.func id).lastStage
  walked : ∀ entry ∈ (program.func id).stages, entry ∉ stages → ∃ box,
    Lands program boxes ⟨(program.func id).name, entry.1⟩ (program.func id).declared box
      entry.2.value

section

variable {enter : FuncId → Boxes → Option Boxes} {busy : FuncId → Prop} {id : FuncId}
  {later : Option StageKey} {stage : Int} {definition : Definition}
  {rest : List (Int × Definition)} {before known here : Boxes} {box : List (Int × Int)}

theorem Midway.stands
    (midway : Midway program root busy id later ((stage, definition) :: rest) before)
    (titled : ∀ id, program.Home root (some id) → (program.func id).name ≠ "")
    (isHome : program.Home root (some id))
    (isBox : known ⟨(program.func id).name, stage⟩ = some box) :
    Stands program root known
      ⟨⟨(program.func id).name, stage⟩, (program.func id).declared, box⟩ definition.value := by
  refine ⟨.stage isHome (midway.within _ (.head _)), box, ?_, .refl _⟩
  rw [Boxes.place, if_neg, isBox]
  exact fun isRoot => titled id isHome (congrArg StageKey.name isRoot)

theorem Midway.inherit
    (midway : Midway program root busy id later ((stage, definition) :: rest) before)
    (stratified : program.Stratified root)
    (titled : ∀ id, program.Home root (some id) → (program.func id).name ≠ "")
    (isHome : program.Home root (some id)) (isBusy : busy id)
    (inherits : before.inherit ⟨(program.func id).name, stage⟩ later = some known) :
    Tracked program root busy known := by
  have widens := inherit_widens inherits
  refine midway.tracked.change widens (fun x xHome idle s => inherit_other inherits fun isKey =>
    idle ?_) (midway.tracked.backed.change widens (fun _ => inherit_other inherits)
      fun target found called => ?_)
  · rw [stratified.distinct x id xHome isHome (congrArg StageKey.name isKey)]
    exact isBusy
  · obtain ⟨_, _, rfl | ⟨unknown, isLater, _⟩⟩ := inherit_some inherits
    · exact midway.tracked.backed _ target found called
    · refine absurd called (not_called_of_unknown stratified titled isHome
        (midway.resumed.resolve_left ?_ _ (.head _)) (fun entry member after => ?_) unknown)
      · rintro rfl
        cases isLater
      · refine midway.walked entry member fun listed => ?_
        rcases List.mem_cons.1 listed with rfl | listed
        · exact absurd after (lt_irrefl _)
        · exact absurd after (lt_asymm ((List.pairwise_cons.1 midway.descending).1 entry listed))

theorem Midway.next
    (midway : Midway program root busy id later ((stage, definition) :: rest) before)
    (widens : before.Widens known)
    (walked : Walked program root ⟨⟨(program.func id).name, stage⟩, (program.func id).declared, box⟩
      definition.value.calls busy known here) :
    Midway program root busy id (some ⟨(program.func id).name, stage⟩) rest here where
  tracked := walked.tracked
  within x member := midway.within x (.tail _ member)
  descending := (List.pairwise_cons.1 midway.descending).2
  resumed := .inr fun x member => ((List.pairwise_cons.1 midway.descending).1 x member).trans_le
    (mem_stages_le (midway.within _ (.head _)))
  walked x member unlisted := by
    by_cases isHere : x = (stage, definition)
    · subst isHere
      exact ⟨_, lands_iff_calls.2 walked.lands⟩
    · obtain ⟨box, lands⟩ := midway.walked x member (by simp [isHere, unlisted])
      exact ⟨box, lands.widen (widens.trans walked.widens)⟩

def Callable (program : Program) (root : Expr) (enter : FuncId → Boxes → Option Boxes)
    (busy : FuncId → Prop) (id : FuncId) : Prop :=
  ∀ callee, program.Leads id callee → Enters program root enter callee ∧
    ∀ x, Relation.ReflTransGen program.Leads callee x → ¬ busy x

theorem Callable.walkable (callable : Callable program root enter busy id)
    (isStage : (stage, definition) ∈ (program.func id).stages) :
    Walkable program root enter
      ⟨⟨(program.func id).name, stage⟩, (program.func id).declared, box⟩ busy definition.value :=
  fun callee met other => callable callee
    ⟨fun same => other (congrArg (fun id => (program.func id).name) same), _, isStage, met⟩

theorem Callable.untouched (callable : Callable program root enter busy id)
    (stratified : program.Stratified root) (isHome : program.Home root (some id)) (isBusy : busy id)
    (isStage : (stage, definition) ∈ (program.func id).stages) {other : Int}
    (different : other ≠ stage - 1) {callee : FuncId} (met : definition.value.Meets callee) :
    Untouched program ⟨(program.func id).name, stage⟩ callee ⟨(program.func id).name, other⟩ := by
  refine ⟨fun same => ?_, fun foreign x below sameName => ?_⟩
  · have sameName : (program.func callee).name = (program.func id).name := by
      rw [← calledStage_name ⟨(program.func id).name, stage⟩, ← same]
    rw [calledStage, if_pos sameName.symm] at same
    exact different (congrArg StageKey.stage same)
  · have leads : program.Leads id callee :=
      ⟨fun same => foreign (congrArg (fun id => (program.func id).name) same), _, isStage, met⟩
    refine (callable callee leads).2 x below ?_
    rw [← stratified.distinct id x isHome (isHome.reaches (.head leads below)) sameName]
    exact isBusy

theorem walkStages_walked {stages : List (Int × Definition)} {after : Boxes}
    (stratified : program.Stratified root)
    (titled : ∀ id, program.Home root (some id) → (program.func id).name ≠ "")
    (isHome : program.Home root (some id)) (isBusy : busy id)
    (callable : Callable program root enter busy id)
    (midway : Midway program root busy id later stages before)
    (run : program.walkStages enter (program.func id) later stages before = some after) :
    Tracked program root busy after ∧ before.Widens after ∧
      (∀ key, (∀ entry ∈ stages, key ≠ ⟨(program.func id).name, entry.1⟩ ∧
        ∀ callee, entry.2.value.Meets callee →
          Untouched program ⟨(program.func id).name, entry.1⟩ callee key) →
        after key = before key) ∧
      ∀ entry ∈ stages, ∃ box, after ⟨(program.func id).name, entry.1⟩ = some box ∧
        Lands program after ⟨(program.func id).name, entry.1⟩ (program.func id).declared box
          entry.2.value := by
  induction stages generalizing later before with
  | nil =>
      cases run
      exact ⟨midway.tracked, .refl _, fun _ _ => rfl, by simp⟩
  | cons entry rest ih =>
      obtain ⟨stage, definition⟩ := entry
      rw [Program.walkStages] at run
      obtain ⟨known, inherits, run⟩ := Option.bind_eq_some_iff.1 run
      obtain ⟨box, isBox, run⟩ := Option.bind_eq_some_iff.1 run
      obtain ⟨here, walksHere, walksRest⟩ := Option.bind_eq_some_iff.1 run
      have widens := inherit_widens inherits
      have isStage := midway.within _ (.head _)
      have walkedHere := calls_walked stratified (fun x xHome sameName => by
        rw [stratified.distinct x id xHome isHome sameName]
        exact isBusy) (callable.walkable isStage) (fun _ member => member)
        (midway.inherit stratified titled isHome isBusy inherits)
          (midway.stands titled isHome isBox)
        walksHere
      have landsHere := lands_iff_calls.2 walkedHere.lands
      obtain ⟨trackedAfter, widensAfter, kept, covered⟩ :=
        ih (midway.next widens walkedHere) walksRest
      refine ⟨trackedAfter, (widens.trans walkedHere.widens).trans widensAfter,
        fun key untouched => ?_, List.forall_mem_cons.2
          ⟨⟨box, ?_, landsHere.widen widensAfter⟩, covered⟩⟩
      · obtain ⟨untouchedHere, untouchedRest⟩ := List.forall_mem_cons.1 untouched
        rw [kept key untouchedRest, walkedHere.kept key fun call member =>
          untouchedHere.2 call.1 (meets_of_mem_calls member),
          inherit_other inherits untouchedHere.1]
      · have earlier := (List.pairwise_cons.1 midway.descending).1
        rw [kept _ fun x member => ?_, walkedHere.kept _ fun call member =>
          callable.untouched stratified isHome isBusy isStage (by omega)
            (meets_of_mem_calls member),
          isBox]
        have before := earlier x member
        refine ⟨fun same => ?_, fun callee met => callable.untouched stratified isHome isBusy
          (midway.within x (.tail _ member)) (by omega) met⟩
        have sameStage : stage = x.1 := congrArg StageKey.stage same
        omega

theorem midway_start {boxes : Boxes} (tracked : Tracked program root busy boxes) :
    Midway program root busy id none (program.func id).stages.reverse boxes where
  tracked := tracked
  within _ := List.mem_reverse.1
  descending := stages_descending _
  resumed := .inl rfl
  walked _ member unlisted := absurd (List.mem_reverse.2 member) unlisted

theorem callable_below {depth : Nat} (stratified : program.Stratified root)
    (isHome : program.Home root (some id))
    (enters : ∀ callee, program.Leads id callee →
      Enters program root (program.enterBoxes depth) callee)
    (idle : ∀ x, Relation.ReflTransGen program.Leads id x → ¬ busy x) :
    Callable program root (program.enterBoxes depth) (fun x => busy x ∨ x = id) id := by
  refine fun callee leads => ⟨enters callee leads, fun x below isBusy => ?_⟩
  rcases isBusy with isBusy | rfl
  · exact idle x (.head leads below) isBusy
  · exact stratified.acyclic x isHome (.head' leads below)

end

theorem enterBoxes_enters (stratified : program.Stratified root)
    (titled : ∀ id, program.Home root (some id) → (program.func id).name ≠ "") (depth : Nat)
    {id : FuncId} (isHome : program.Home root (some id)) :
    Enters program root (program.enterBoxes depth) id := by
  induction depth generalizing id with
  | zero => exact fun _ _ _ _ _ run => nomatch run
  | succ depth ih =>
      intro busy before after tracked idle run
      rw [Program.enterBoxes] at run
      obtain ⟨defined, walks⟩ := Option.ite_none_right_eq_some.1 run
      have callable := callable_below stratified isHome
        (fun callee leads => ih (isHome.reaches (.single leads))) idle
      obtain ⟨trackedAfter, widens, kept, covered⟩ := walkStages_walked stratified titled isHome
        (.inr rfl) callable (midway_start tracked) walks
      refine ⟨⟨fun x xHome xIdle present => ?_, trackedAfter.backed⟩, widens,
        fun key untouched => kept key fun entry member => ⟨?_, fun callee met => ⟨?_, ?_⟩⟩⟩
      · by_cases isHere : x = id
        · subst isHere
          exact ⟨defined, fun entry member => covered entry (List.mem_reverse.2 member)⟩
        · exact trackedAfter.covered x xHome (fun either => either.elim xIdle isHere) present
      · exact fun same => untouched id .refl (congrArg StageKey.name same)
      · intro same
        have sameName := congrArg StageKey.name same
        rw [calledStage_name] at sameName
        by_cases isSelf : callee = id
        · exact untouched id .refl (isSelf ▸ sameName)
        · exact untouched callee (.single ⟨isSelf, entry, List.mem_reverse.1 member, met⟩) sameName
      · intro other x below
        have leads : program.Leads id callee :=
          ⟨fun same => other (congrArg (fun id => (program.func id).name) same), entry,
            List.mem_reverse.1 member, met⟩
        exact untouched x (.head leads below)

/-- The boxes of a whole program: every stage that is reached has one in which its calls land, and
those of stages that are called are the hulls of the calls. -/
structure Fitting (program : Program) (root : Expr) (boxes : Boxes) : Prop where
  places : ∀ caller declared value, program.Place root caller declared value →
    ∃ box, boxes.place caller = some box ∧ Lands program boxes caller declared box value
  hulls : ∀ key, program.IsCalled root key →
    ∃ box, boxes key = some box ∧ IsHull (program.Spanned root boxes key) box

theorem covered_of_home {boxes : Boxes} (tracked : Tracked program root (fun _ => False) boxes)
    (landsRoot : Lands program boxes CallContext.root.key [] [] root) {id : FuncId}
    (isHome : program.Home root (some id)) : Covered program boxes id := by
  have recorded {caller : StageKey} {declared : List String} {box : List (Int × Int)}
      {value x : Expr} {id : FuncId} (lands : Lands program boxes caller declared box value)
      (outer : Outer x value) (called : x.CallsHere id) :
      ∃ stage box, boxes ⟨(program.func id).name, stage⟩ = some box := by
    obtain ⟨name, isCall⟩ := called
    obtain ⟨target, _, known, _⟩ := lands _ _ ⟨x, id, name, outer, isCall, rfl, rfl⟩
    exact present_of_called known
  generalize isSome : some id = home at isHome
  induction isHome generalizing id with
  | root => cases isSome
  | @call home x callee atHome inHome called ih =>
      cases isSome
      refine tracked.covered callee (.call atHome inHome called) not_false ?_
      cases home with
      | none => exact recorded landsRoot inHome called
      | some f =>
          obtain ⟨entry, member, outer⟩ := inHome
          obtain ⟨box, _, lands⟩ := (ih rfl).stages entry member
          exact recorded lands outer called

theorem tracked_none : Tracked program root (fun _ => False) fun _ => none := by
  refine ⟨?_, fun _ _ known => nomatch known⟩
  rintro id _ _ ⟨stage, box, known⟩
  cases known

theorem inferBoxes_fitting (stratified : program.Stratified root)
    (titled : ∀ id, program.Home root (some id) → (program.func id).name ≠ "") {boxes : Boxes}
    (run : program.inferBoxes root = some boxes) : Fitting program root boxes := by
  have stands : Stands program root (fun _ => none) ⟨CallContext.root.key, [], []⟩ root :=
    ⟨.root, [], if_pos rfl, .nil⟩
  have walked := calls_walked stratified (fun id isHome sameName => titled id isHome sameName)
    (fun callee met _ =>
      ⟨enterBoxes_enters stratified titled _ (.of_root met), fun _ _ => not_false⟩)
    (fun _ member => member) tracked_none stands run
  have landsRoot := lands_iff_calls.2 walked.lands
  have places (caller : StageKey) (declared : List String) (value : Expr)
      (place : program.Place root caller declared value) :
      ∃ box, boxes.place caller = some box ∧ Lands program boxes caller declared box value := by
    cases place with
    | root => exact ⟨[], if_pos rfl, landsRoot⟩
    | stage isHome member =>
        obtain ⟨box, known, lands⟩ :=
          (covered_of_home walked.tracked landsRoot isHome).stages _ member
        refine ⟨box, ?_, lands⟩
        rw [Boxes.place, if_neg, known]
        exact fun isRoot => titled _ isHome (congrArg StageKey.name isRoot)
  exact ⟨places, fun _ called => walked.tracked.backed.isHull places called⟩

theorem visit_of_lands {enter : FuncId → Boxes → Option Boxes} {site : CallSite} {boxes : Boxes}
    {call : FuncId × List Expr} (lands : LandsCall program boxes site call)
    (enters : site.key.name ≠ (program.func call.1).name → enter call.1 boxes = some boxes) :
    program.visit enter site boxes call = some boxes := by
  obtain ⟨target, given, known, isSpans, wider⟩ := lands
  have records : program.record site boxes call = some boxes := by
    refine record_eq_some.2
      ⟨given, isSpans, fun earlier found => ?_, Boxes.join_of_wider known wider⟩
    cases known.symm.trans found
    exact wider.length_eq.symm
  rw [Program.visit, records, Option.bind_eq_bind, Option.bind_some]
  split
  next => rfl
  next other => exact enters other

theorem walkStages_of_covered {enter : FuncId → Boxes → Option Boxes} {boxes : Boxes} {f : Func}
    {later : Option StageKey} {stages : List (Int × Definition)}
    (covered : ∀ entry ∈ stages, ∃ box, boxes ⟨f.name, entry.1⟩ = some box ∧
      Lands program boxes ⟨f.name, entry.1⟩ f.declared box entry.2.value)
    (enters : ∀ entry ∈ stages, ∀ callee, entry.2.value.Meets callee →
      f.name ≠ (program.func callee).name → enter callee boxes = some boxes) :
    program.walkStages enter f later stages boxes = some boxes := by
  induction stages generalizing later with
  | nil => rfl
  | cons entry rest ih =>
      obtain ⟨stage, definition⟩ := entry
      obtain ⟨⟨box, known, lands⟩, coveredRest⟩ := List.forall_mem_cons.1 covered
      obtain ⟨entersHere, entersRest⟩ := List.forall_mem_cons.1 enters
      have inherits : boxes.inherit ⟨f.name, stage⟩ later = some boxes := by
        unfold Boxes.inherit
        rw [known]
      have calls (calls : List (FuncId × List Expr))
          (within : ∀ call ∈ calls, call ∈ definition.value.calls) :
          calls.foldlM (program.visit enter ⟨⟨f.name, stage⟩, f.declared, box⟩) boxes =
            some boxes := by
        induction calls with
        | nil => rfl
        | cons call others ih =>
            obtain ⟨inValue, othersInValue⟩ := List.forall_mem_cons.1 within
            rw [List.foldlM_cons, visit_of_lands (lands_iff_calls.1 lands call inValue)
              (entersHere call.1 (meets_of_mem_calls inValue))]
            exact ih othersInValue
      rw [Program.walkStages, inherits]
      simp only [Option.bind_eq_bind, Option.bind_some, known]
      rw [calls _ fun _ member => member]
      exact ih coveredRest entersRest

theorem enterBoxes_of_covered {boxes : Boxes} {depth : Nat} {id : FuncId}
    (shallow : program.Shallow depth id)
    (covered : ∀ x, Relation.ReflTransGen program.Leads id x → Covered program boxes x) :
    program.enterBoxes depth id boxes = some boxes := by
  induction depth generalizing id with
  | zero => exact shallow.elim
  | succ depth ih =>
      obtain ⟨defined, stages⟩ := covered id .refl
      rw [Program.enterBoxes, if_pos defined]
      refine walkStages_of_covered (fun entry member => stages entry (List.mem_reverse.1 member))
        fun entry member callee met other => ?_
      have leads : program.Leads id callee :=
        ⟨fun same => other (same ▸ rfl), entry, List.mem_reverse.1 member, met⟩
      exact ih (shallow.2 callee leads) fun x below => covered x (.head leads below)

theorem Tracked.covered_below {busy : FuncId → Prop} {boxes : Boxes}
    (tracked : Tracked program root busy boxes) {id : FuncId}
    (isHome : program.Home root (some id))
    (idle : ∀ x, Relation.ReflTransGen program.Leads id x → ¬ busy x)
    (present : ∃ stage box, boxes ⟨(program.func id).name, stage⟩ = some box) {x : FuncId}
    (below : Relation.ReflTransGen program.Leads id x) : Covered program boxes x := by
  induction below with
  | refl => exact tracked.covered id isHome (idle id .refl) present
  | @tail f callee above leads covered =>
      have belowToo := above.tail leads
      obtain ⟨_, entry, member, y, outer, name, isCall⟩ := leads
      obtain ⟨box, _, lands⟩ := covered.stages entry member
      obtain ⟨target, _, known, _⟩ := lands _ _ ⟨y, callee, name, outer, isCall, rfl, rfl⟩
      exact tracked.covered callee (isHome.reaches belowToo) (idle callee belowToo)
        (present_of_called known)

end

end ReverseMode
