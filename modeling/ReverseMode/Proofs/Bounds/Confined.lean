import ReverseMode.Proofs.Bounds.Growth
import ReverseMode.Proofs.Bounds.Inherited

namespace ReverseMode

open Expr

/-- Boxes that no call leaves. Where a stage does not read the one before it, that one has the box
of this stage. -/
structure Program.Confined (program : Program) (base : Registry) (root : Expr) (rooms : Boxes) :
    Prop where
  titled : ∀ id, program.Home root (some id) → (program.func id).name ≠ ""
  defined : ∀ id, program.Home root (some id) → (program.func id).init.isSome
  indices : ∀ home x id name, program.Home root home → program.StandsIn root home x →
    x.callee? = some (.func id name) → ∀ arg ∈ x.operands, base.HoldsIndex arg ∧ arg.Populated
  places : ∀ caller declared value, program.Place root caller declared value →
    ∃ room, rooms.place caller = some room ∧ Lands program rooms caller declared room value
  inherits : ∀ id stage, program.Unread root id stage → ∀ inner outer,
    rooms ⟨(program.func id).name, stage + 1⟩ = some inner →
    rooms ⟨(program.func id).name, stage⟩ = some outer → Wider inner outer

def Housed (rooms boxes : Boxes) : Prop :=
  ∀ key box, boxes key = some box → Proper box ∧ ∃ room, rooms key = some room ∧ Wider box room

theorem Housed.update {rooms boxes : Boxes} (housed : Housed rooms boxes) {key : StageKey}
    {box room : List (Int × Int)} (proper : Proper box) (isRoom : rooms key = some room)
    (within : Wider box room) : Housed rooms (Function.update boxes key (some box)) := by
  intro other box' found
  by_cases isKey : other = key
  · subst isKey
    rw [Function.update_self] at found
    cases found
    exact ⟨proper, room, isRoom, within⟩
  · rw [Function.update_of_ne isKey] at found
    exact housed other box' found

structure Lodges (program : Program) (root : Expr) (rooms : Boxes) (site : CallSite)
    (value : Expr) :
    Prop where
  place : program.Place root site.key site.declared value
  proper : Proper site.box
  within : ∃ room, rooms.place site.key = some room ∧ Wider site.box room

section

variable {program : Program} {root : Expr} {base : Registry} {rooms before : Boxes}
  {site : CallSite} {value : Expr} {call : FuncId × List Expr}

theorem record_housed (confined : program.Confined base root rooms)
    (lodges : Lodges program root rooms site value) (member : call ∈ value.calls)
    (housed : Housed rooms before) :
    ∃ after, program.record site before call = some after ∧ Housed rooms after := by
  obtain ⟨callee, args⟩ := call
  obtain ⟨room, isRoom, within⟩ := lodges.within
  obtain ⟨room', isRoom', lands⟩ := confined.places _ _ _ lodges.place
  cases isRoom.symm.trans isRoom'
  obtain ⟨target, _, isTarget, isSpans, wider⟩ :=
    (@lands_iff_calls _ _ ⟨_, _, room⟩ _).1 lands _ member
  obtain ⟨given, isSpans', wider'⟩ := isSpans.narrow within
  have givenWithin : Wider given target := wider'.trans wider
  obtain ⟨x, name, outer, isCall, rfl⟩ := mem_calls.1 member
  obtain ⟨home, atHome, inHome⟩ := lodges.place.calls outer
  have properGiven := isSpans'.proper lodges.proper fun arg isArg =>
    (confined.indices home x callee name atHome inHome isCall arg isArg).2
  have inRoom {earlier : List (Int × Int)}
      (found : before (calledStage site.key (program.func callee)) = some earlier) :
      Proper earlier ∧ Wider earlier target := by
    obtain ⟨proper, target', isTarget', earlierWithin⟩ := housed _ earlier found
    cases isTarget.symm.trans isTarget'
    exact ⟨proper, earlierWithin⟩
  refine ⟨_, record_eq_some.2 ⟨given, isSpans', fun earlier found =>
    (inRoom found).2.length_eq.trans givenWithin.length_eq.symm, rfl⟩, ?_⟩
  cases found : before (calledStage site.key (program.func callee)) with
  | none =>
      refine housed.update ?_ isTarget ?_ <;> rw [found]
      · exact properGiven
      · exact givenWithin
  | some earlier =>
      refine housed.update ?_ isTarget ?_ <;> rw [found]
      · exact (inRoom found).1.hull
      · exact (inRoom found).2.hull givenWithin

end

structure Resting (program : Program) (base : Registry) (rooms : Boxes) (r : Registry) (p : Program)
    (state : Inference) : Prop where
  extended : base.Extends r
  sameFuncs : p.funcs = program.funcs
  held : r.HoldsTable state.intervals
  housed : Housed rooms (boxesOf state.intervals)

structure Advances (rooms : Boxes) (keys : List StageKey)
    (table table' : StageTable (List Interval)) :
    Prop where
  housed : Housed rooms (boxesOf table')
  widens : (boxesOf table).Widens (boxesOf table')
  fewer : table'.changesLeft rooms keys ≤ table.changesLeft rooms keys

def Recorded (program : Program) (caller : StageKey) (calls : List (FuncId × List Expr))
    (boxes : Boxes) : Prop :=
  ∀ call ∈ calls, ∃ box, boxes (calledStage caller (program.func call.1)) = some box

def EntersHoused (program : Program) (base : Registry) (rooms : Boxes) (keys : List StageKey)
    (enter : FuncId → InferenceM Unit) (bound : Nat) (callee : FuncId) : Prop :=
  ∀ r p state, Resting program base rooms r p state →
    state.intervals.changesLeft rooms keys < bound →
    (∃ box, boxesOf state.intervals ⟨(program.func callee).name, (program.func callee).lastStage⟩ =
      some box) →
    Infers True (enter callee) r p state (some ())
      fun _ state' _ _ => Advances rooms keys state.intervals state'.intervals

section

variable {program : Program} {root : Expr} {base : Registry} {rooms : Boxes} {keys : List StageKey}
  {skips : Skipping} {enter : FuncId → InferenceM Unit} {bound : Nat} {r : Registry} {p : Program}
  {state state' : Inference} {table table' table'' : StageTable (List Interval)} {ctx : CallContext}
  {value : Expr}

namespace Advances

theorem refl (housed : Housed rooms (boxesOf table)) : Advances rooms keys table table :=
  ⟨housed, .refl _, le_refl _⟩

theorem trans (first : Advances rooms keys table table')
    (second : Advances rooms keys table' table'') :
    Advances rooms keys table table'' :=
  ⟨second.housed, first.widens.trans second.widens, second.fewer.trans first.fewer⟩

theorem resting {r' : Registry} {p' : Program}
    (advances : Advances rooms keys state.intervals state'.intervals)
    (resting : Resting program base rooms r p state) (extended : r.Extends r')
    (same : p'.funcs = p.funcs) (held : r'.HoldsTable state'.intervals) :
    Resting program base rooms r' p' state' :=
  ⟨resting.extended.trans extended, same.trans resting.sameFuncs, held, advances.housed⟩

end Advances

theorem recordCall_advances (sharp : skips.Sharp) (confined : program.Confined base root rooms)
    (listed : ∀ key, (rooms key).isSome → key ∈ keys) {callee : FuncId} {args : List Expr}
    (lodges : Lodges program root rooms ctx.site value) (member : (callee, args) ∈ value.calls)
    (resting : Resting program base rooms r p state) (heldDomain : r.HoldsDomain ctx.domain) :
    Infers True (Inference.recordCallBy skips ctx callee args) r p state (some ())
      fun _ state' entered _ => Advances rooms keys state.intervals state'.intervals ∧
        (∃ box, boxesOf state'.intervals (calledStage ctx.key (program.func callee)) = some box) ∧
        (entered = true → ctx.key.name ≠ (program.func callee).name ∧
          state'.intervals.changesLeft rooms keys < state.intervals.changesLeft rooms keys) := by
  obtain ⟨x, name, outer, isCall, isArgs⟩ := mem_calls.1 member
  obtain ⟨home, atHome, inHome⟩ := lodges.place.calls outer
  have held : ∀ arg ∈ args, r.HoldsIndex arg := fun arg isArg =>
    (confined.indices home x callee name atHome inHome isCall arg (isArgs ▸ isArg)).1.extend
      resting.extended
  obtain ⟨after, records, housed⟩ := record_housed confined lodges member resting.housed
  have infers : Infers True (Inference.recordCallBy skips ctx callee args) r p state _ _ :=
    recordCall_renews sharp.answers (func_eq_of_funcs resting.sameFuncs callee) held heldDomain resting.held
  rw [records] at infers
  refine infers.known fun later state' entered _ ⟨isBoxes, intervals, _, inserted, renewed⟩ => ?_
  subst isBoxes
  have widens := record_widens records
  have isBox : boxesOf state'.intervals (calledStage ctx.key (program.func callee)) =
      some (intervals.map Interval.ends) := by
    rw [inserted, boxesOf_insert, Function.update_self]
  obtain ⟨proper, room, isRoom, within⟩ := housed _ _ isBox
  have grows (earlier : List Interval)
      (found : state.intervals.find? (calledStage ctx.key (program.func callee)) = some earlier) :
      Wider (earlier.map Interval.ends) (intervals.map Interval.ends) := by
    obtain ⟨_, isBox', wider⟩ := widens (calledStage ctx.key (program.func callee))
      (earlier.map Interval.ends) (by rw [boxesOf, found]; rfl)
    cases isBox.symm.trans isBox'
    exact wider
  have fewer := changesLeft_insert (listed _ (by rw [isRoom]; rfl)) isRoom
    (renewed.changesLeft sharp grows proper within)
  rw [← inserted] at fewer
  refine ⟨⟨housed, widens, le_of_add_le_left fewer⟩, ⟨_, isBox⟩, ?_⟩
  rintro rfl
  exact ⟨of_decide_eq_false (renewed.not_self rfl), fewer⟩

theorem visit_advances (sharp : skips.Sharp) (confined : program.Confined base root rooms)
    (listed : ∀ key, (rooms key).isSome → key ∈ keys)
    (enters : ∀ callee, program.Home root (some callee) →
      EntersHoused program base rooms keys enter bound callee)
    (lodges : Lodges program root rooms ctx.site value) {call : FuncId × List Expr}
    (member : call ∈ value.calls) (resting : Resting program base rooms r p state)
    (heldDomain : r.HoldsDomain ctx.domain)
    (left : state.intervals.changesLeft rooms keys ≤ bound) :
    Infers True (Inference.visitBy skips enter ctx call) r p state (some ()) fun _ state' _ _ =>
      Advances rooms keys state.intervals state'.intervals ∧
        ∃ box, boxesOf state'.intervals (calledStage ctx.key (program.func call.1)) = some box := by
  obtain ⟨callee, args⟩ := call
  have isHome : program.Home root (some callee) := lodges.place.home (meets_of_mem_calls member)
  unfold Inference.visitBy
  refine Infers.bind_some
    (recordCall_advances sharp confined listed lodges member resting heldDomain)
    fun r1 p1 s1 entered ext1 same1 held1 answer => ?_
  obtain ⟨advances, present, ofTrue⟩ := answer
  cases entered with
  | true =>
      -- the record has used up a change, which leaves room for one level less
      obtain ⟨other, fewer⟩ := ofTrue rfl
      rw [calledStage, if_neg other] at present ⊢
      refine Infers.bind_some (b := ()) (Q := fun _ state' _ _ => state'.intervals = s1.intervals)
        (Follows.pure ⟨held1, rfl⟩) fun r2 p2 s2 _ ext2 same2 held2 sameTable => ?_
      rw [← sameTable] at advances present fewer
      have resting2 := advances.resting resting (ext1.trans ext2) (same2.trans same1) held2
      refine Infers.bind_last (enters callee isHome r2 p2 s2 resting2 (fewer.trans_le left) present)
        fun r3 p3 s3 _ _ ext3 same3 held3 _ advances3 =>
          Follows.pure ⟨held3, advances.trans advances3, ?_⟩
      obtain ⟨box, found⟩ := present
      obtain ⟨box', found', _⟩ := advances3.widens _ box found
      exact ⟨box', found'⟩
  | false => exact Infers.pure held1 ⟨advances, present⟩

theorem visits_advance (sharp : skips.Sharp) (confined : program.Confined base root rooms)
    (listed : ∀ key, (rooms key).isSome → key ∈ keys)
    (enters : ∀ callee, program.Home root (some callee) →
      EntersHoused program base rooms keys enter bound callee)
    (lodges : Lodges program root rooms ctx.site value) {calls : List (FuncId × List Expr)}
    (within : ∀ call ∈ calls, call ∈ value.calls) (resting : Resting program base rooms r p state)
    (heldDomain : r.HoldsDomain ctx.domain)
    (left : state.intervals.changesLeft rooms keys ≤ bound) :
    Infers True (calls.forM (Inference.visitBy skips enter ctx)) r p state (some ())
      fun _ state' _ _ => Advances rooms keys state.intervals state'.intervals ∧
        Recorded program ctx.key calls (boxesOf state'.intervals) := by
  induction calls generalizing r p state with
  | nil => exact Infers.pure resting.held ⟨.refl resting.housed, fun _ absurd => nomatch absurd⟩
  | cons call rest ih =>
      obtain ⟨member, others⟩ := List.forall_mem_cons.1 within
      refine Infers.bind_some
        (visit_advances sharp confined listed enters lodges member resting heldDomain left)
        fun r1 p1 s1 _ ext1 same1 held1 answer => ?_
      obtain ⟨advances, box, found⟩ := answer
      refine (ih others (advances.resting resting ext1 same1 held1) (heldDomain.extend ext1)
        (advances.fewer.trans left)).mono fun _ s2 _ _ _ answer => ?_
      obtain ⟨advances', recorded⟩ := answer
      obtain ⟨box', found', _⟩ := advances'.widens _ box found
      exact ⟨advances.trans advances', List.forall_mem_cons.2 ⟨⟨box', found'⟩, recorded⟩⟩

theorem recordCalls_advances (sharp : skips.Sharp) (confined : program.Confined base root rooms)
    (listed : ∀ key, (rooms key).isSome → key ∈ keys)
    (enters : ∀ callee, program.Home root (some callee) →
      EntersHoused program base rooms keys enter bound callee)
    (lodges : Lodges program root rooms ctx.site value)
    (resting : Resting program base rooms r p state)
    (heldDomain : r.HoldsDomain ctx.domain)
    (left : state.intervals.changesLeft rooms keys ≤ bound) :
    Infers True (value.recordCallsBy skips enter ctx) r p state (some ()) fun _ state' _ _ =>
      Advances rooms keys state.intervals state'.intervals ∧
        Recorded program ctx.key value.calls (boxesOf state'.intervals) := by
  rw [recordCallsBy_eq]
  exact visits_advance sharp confined listed enters lodges (fun _ member => member) resting
    heldDomain
    left

theorem Program.Confined.lodges (confined : program.Confined base root rooms) {id : FuncId}
    {stage : Int} {definition : Definition} (isHome : program.Home root (some id))
    (isStage : (stage, definition) ∈ (program.func id).stages) {boxes : Boxes}
    {box : List (Int × Int)}
    (housed : Housed rooms boxes) (isBox : boxes ⟨(program.func id).name, stage⟩ = some box) :
    Lodges program root rooms ⟨⟨(program.func id).name, stage⟩, (program.func id).declared, box⟩
      definition.value := by
  obtain ⟨proper, room, isRoom, within⟩ := housed _ box isBox
  refine ⟨.stage isHome isStage, proper, room, ?_, within⟩
  rw [Boxes.place, if_neg, isRoom]
  exact fun isRoot => confined.titled id isHome (congrArg StageKey.name isRoot)

def Resumes (program : Program) (root : Expr) (id : FuncId) (later : Option StageKey)
    (stages : List (Int × Definition)) (boxes : Boxes) : Prop :=
  ∀ entry ∈ stages.head?, boxes ⟨(program.func id).name, entry.1⟩ = none →
    program.Unread root id entry.1 ∧ later = some ⟨(program.func id).name, entry.1 + 1⟩ ∧
      ∃ box, boxes ⟨(program.func id).name, entry.1 + 1⟩ = some box

theorem inherit_housed (confined : program.Confined base root rooms) {id : FuncId} {stage : Int}
    {definition : Definition} {later : Option StageKey} {stages : List (Int × Definition)}
    (isHome : program.Home root (some id))
    (isStage : (stage, definition) ∈ (program.func id).stages)
    {boxes : Boxes} (housed : Housed rooms boxes)
    (resumes : Resumes program root id later ((stage, definition) :: stages) boxes) :
    ∃ known, boxes.inherit ⟨(program.func id).name, stage⟩ later = some known ∧
      Housed rooms known := by
  unfold Boxes.inherit
  cases found : boxes ⟨(program.func id).name, stage⟩ with
  | some box => exact ⟨boxes, rfl, housed⟩
  | none =>
      obtain ⟨unread, rfl, box, isBox⟩ := resumes _ rfl found
      obtain ⟨proper, inner, isInner, within⟩ := housed _ box isBox
      obtain ⟨outer, isOuter, _⟩ := confined.places _ _ _ (.stage isHome isStage)
      rw [Boxes.place, if_neg fun isRoot => confined.titled id isHome
        (congrArg StageKey.name isRoot)]
        at isOuter
      refine ⟨_, by rw [Option.bind_some, isBox]; rfl, housed.update proper isOuter ?_⟩
      exact within.trans (confined.inherits id stage unread inner outer isInner isOuter)

theorem stageIntervals_advances (sharp : skips.Sharp) (confined : program.Confined base root rooms)
    (listed : ∀ key, (rooms key).isSome → key ∈ keys) {id : FuncId} {stage : Int}
    {definition : Definition} {later : Option StageKey} {stages : List (Int × Definition)}
    (isHome : program.Home root (some id))
    (isStage : (stage, definition) ∈ (program.func id).stages)
    (resting : Resting program base rooms r p state)
    (resumes : Resumes program root id later ((stage, definition) :: stages)
      (boxesOf state.intervals)) :
    Infers True (Inference.stageIntervals ⟨(program.func id).name, stage⟩ later) r p state (some ())
      fun last state' intervals _ => Advances rooms keys state.intervals state'.intervals ∧
        (∀ i ∈ intervals, i.HeldBy last) ∧
        boxesOf state'.intervals ⟨(program.func id).name, stage⟩ =
          some (intervals.map Interval.ends) := by
  obtain ⟨known, inherits, housed⟩ := inherit_housed confined isHome isStage resting.housed resumes
  have infers : Infers True (Inference.stageIntervals ⟨(program.func id).name, stage⟩ later) r p
    state _ _ := stageIntervals_follows resting.held
  rw [inherits] at infers
  refine infers.known fun last state' intervals _ ⟨isKnown, held, isBox, changed⟩ => ?_
  subst isKnown
  refine ⟨⟨housed, inherit_widens inherits, ?_⟩, held, isBox⟩
  rcases changed with same | ⟨unknown, inserted⟩
  · rw [same]
  · obtain ⟨proper, room, isRoom, within⟩ := housed _ _ isBox
    have renewed : Renewed skips true none intervals false := .first
    rw [inserted]
    exact changesLeft_insert (listed _ (by rw [isRoom]; rfl)) isRoom
      (unknown ▸ renewed.changesLeft sharp (fun _ absurd => nomatch absurd) proper within)

theorem walkStages_advances (sharp : skips.Sharp) (confined : program.Confined base root rooms)
    (listed : ∀ key, (rooms key).isSome → key ∈ keys)
    (enters : ∀ callee, program.Home root (some callee) →
      EntersHoused program base rooms keys enter bound callee) {id : FuncId}
    (isHome : program.Home root (some id)) {args : List Expr}
    (declared : args.map Expr.name = (program.func id).declared) {later : Option StageKey}
    {stages : List (Int × Definition)} (descends : Descends (program.func id) later stages)
    (resumes : Resumes program root id later stages (boxesOf state.intervals))
    (resting : Resting program base rooms r p state)
    (left : state.intervals.changesLeft rooms keys ≤ bound) :
    Infers True (Inference.walkStages (Expr.recordCallsBy skips enter) (program.func id) args later
        stages) r p state (some ()) fun _ state' _ _ =>
      Advances rooms keys state.intervals state'.intervals := by
  induction stages generalizing later r p state with
  | nil =>
      rw [Inference.walkStages]
      exact Infers.pure resting.held (.refl resting.housed)
  | cons entry rest ih =>
      obtain ⟨stage, definition⟩ := entry
      have isStage := descends.within _ (.head _)
      rw [Inference.walkStages]
      refine Infers.bind_some
        (stageIntervals_advances sharp confined listed isHome isStage resting resumes)
        fun r1 p1 s1 intervals ext1 same1 held1 answer => ?_
      obtain ⟨advances1, heldIntervals, isBox⟩ := answer
      refine Infers.bind_some (Infers.lift held1 (toDomain_follows intervals heldIntervals))
        fun r2 p2 s2 domain ext2 same2 held2 answer => ?_
      obtain ⟨isState2, heldDomain, isDomain⟩ := answer
      subst isState2
      have resting2 := advances1.resting resting (ext1.trans ext2) (same2.trans same1) held2
      have lodges := confined.lodges isHome isStage advances1.housed isBox
      rw [← isDomain, ← declared] at lodges
      change Lodges program root rooms (CallContext.site ⟨_, args, domain⟩) _ at lodges
      have walks := recordCalls_advances sharp confined listed enters lodges resting2 heldDomain
        (advances1.fewer.trans left)
      refine Infers.bind_some walks fun r3 p3 s3 _ ext3 same3 held3 answer => ?_
      obtain ⟨advances3, recorded⟩ := answer
      refine (ih descends.next ?_ (advances3.resting resting2 ext3 same3 held3)
        ((advances3.fewer.trans advances1.fewer).trans left)).mono fun _ _ _ _ _ advances =>
          (advances1.trans advances3).trans advances
      -- the stage before is not read if walking this one did not record it
      intro entry first unknown
      have isNext : stage = entry.1 + 1 := (List.isChain_cons.1 descends.consecutive).1 entry first
      subst isNext
      obtain ⟨box, found, _⟩ := advances3.widens _ _ isBox
      refine ⟨⟨isHome, definition, isStage, ?_⟩, rfl, box, found⟩
      rintro ⟨x, outer, name, isCall⟩
      obtain ⟨_, isRead⟩ := recorded (id, x.operands) (mem_calls.2 ⟨x, name, outer, isCall, rfl⟩)
      rw [calledStage, if_pos rfl, add_sub_cancel_right, unknown] at isRead
      cases isRead

theorem enterFunc_advances (sharp : skips.Sharp) (confined : program.Confined base root rooms)
    (listed : ∀ key, (rooms key).isSome → key ∈ keys) (limit : Nat) {id : FuncId}
    (isHome : program.Home root (some id)) :
    EntersHoused program base rooms keys (Inference.enterFuncBy skips limit) limit id := by
  induction limit generalizing id with
  | zero => exact fun _ _ _ _ absurd => (Nat.not_lt_zero _ absurd).elim
  | succ limit ih =>
      intro r p state resting left present
      have defined := confined.defined id isHome
      have sameFunc := func_eq_of_funcs resting.sameFuncs id
      rw [Inference.enterFuncBy]
      refine Infers.bind_some (Infers.lift resting.held Follows.getFunc)
        fun r1 p1 s1 f ext1 same1 held1 answer => ?_
      obtain ⟨isState1, isFunc⟩ := answer
      rw [sameFunc] at isFunc
      subst isState1 isFunc
      obtain ⟨args, isArgs⟩ : ∃ args, (program.func id).args.toOption = some args := by
        unfold Func.args Func.initial
        obtain ⟨initial, isInit⟩ := Option.isSome_iff_exists.1 defined
        rw [isInit]
        exact ⟨_, rfl⟩
      have ofArgs : Follows True (liftM (program.func id).args : ProgramM (List Expr)) r1 p1 _ _ :=
        Follows.ofExcept
      rw [isArgs] at ofArgs
      refine Infers.bind_some (Infers.lift held1 ofArgs)
        fun r2 p2 s2 args' ext2 same2 held2 answer => ?_
      obtain ⟨isState2, sameArgs⟩ := answer
      subst isState2 sameArgs
      refine walkStages_advances sharp confined listed (fun callee isCallee => ih isCallee) isHome
        (declared_of_args isArgs) (descends_start _) (fun entry first unknown => ?_)
        ⟨(resting.extended.trans ext1).trans ext2, (same2.trans same1).trans resting.sameFuncs,
          held2,
          resting.housed⟩ (Nat.lt_succ_iff.1 left)
      obtain ⟨_, isBox⟩ := present
      rw [last_walked_first first, isBox] at unknown
      cases unknown

theorem inferBounds_confined (sharp : skips.Sharp) (confined : program.Confined base root rooms)
    (listed : ∀ key, (rooms key).isSome → key ∈ keys) {limit : Nat}
    (enough : StageTable.changesLeft rooms keys [] ≤ limit) :
    Follows True (inferBoundsBy skips limit root) base program (some ()) fun _ domains _ =>
      Housed rooms (spans domains) := by
  have resting : Resting program base rooms base program {} :=
    ⟨.refl base, rfl, fun _ member => (nomatch member), fun _ _ found => (nomatch found)⟩
  have lodges : Lodges program root rooms CallContext.root.site root := by
    exact ⟨.root, fun _ absurd => (nomatch absurd), [], if_pos rfl, .nil⟩
  unfold inferBoundsBy
  refine Follows.bind_some (recordCalls_advances sharp confined listed
    (fun callee isHome => enterFunc_advances sharp confined listed limit isHome) lodges resting
    (fun _ member => nomatch member) enough) fun r1 p1 result ext1 _ ⟨held1, advances, _⟩ => ?_
  refine (domains_follows _ held1).known fun _ domains _ ⟨_, isSpans⟩ => ?_
  rw [isSpans]
  exact advances.housed

end

end ReverseMode
