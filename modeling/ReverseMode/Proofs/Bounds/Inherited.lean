import ReverseMode.Proofs.Bounds.Skipping

namespace ReverseMode

open Expr

/-- The next stage of the function does not read this one. -/
structure Program.Unread (program : Program) (root : Expr) (id : FuncId) (stage : Int) : Prop where
  home : program.Home root (some id)
  next : ∃ definition, (stage + 1, definition) ∈ (program.func id).stages ∧
    ¬ definition.value.Meets id

def Nested (program : Program) (root : Expr) (boxes : Boxes) : Prop :=
  ∀ id stage, program.Unread root id stage → ∀ inner,
    boxes ⟨(program.func id).name, stage⟩ = some inner →
    ∃ outer, boxes ⟨(program.func id).name, stage + 1⟩ = some outer ∧ Wider inner outer

/-- What becomes of boxes: they grow, those of stages that are not read are never changed once they
are known, and these come to lie within the boxes of the next stages. -/
structure Proceeds (program : Program) (root : Expr) (before after : Boxes) : Prop where
  widens : before.Widens after
  settled : ∀ id stage, program.Unread root id stage → ∀ box,
    before ⟨(program.func id).name, stage⟩ = some box →
    after ⟨(program.func id).name, stage⟩ = some box
  nests : Nested program root before → Nested program root after

def LetsProceed (program : Program) (root : Expr) (enter : FuncId → Boxes → Option Boxes)
    (callee : FuncId) : Prop :=
  ∀ before after, enter callee before = some after → Proceeds program root before after

structure Descends (f : Func) (later : Option StageKey) (stages : List (Int × Definition)) :
    Prop where
  within : ∀ entry ∈ stages, entry ∈ f.stages
  consecutive : stages.IsChain fun a b => a.1 = b.1 + 1
  resumed : ∀ entry ∈ stages.head?, ∀ key, later = some key → key = ⟨f.name, entry.1 + 1⟩

section

variable {program : Program} {root : Expr} {enter : FuncId → Boxes → Option Boxes}
  {before middle after known boxes : Boxes} {site : CallSite} {value : Expr} {id : FuncId}
  {later : Option StageKey} {stages : List (Int × Definition)}

theorem descends_start (f : Func) : Descends f none f.stages.reverse :=
  ⟨fun _ => List.mem_reverse.1, stages_consecutive f, fun _ _ _ absurd => nomatch absurd⟩

theorem Descends.next {f : Func} {stage : Int} {definition : Definition}
    (descends : Descends f later ((stage, definition) :: stages)) :
    Descends f (some ⟨f.name, stage⟩) stages where
  within x member := descends.within x (.tail _ member)
  consecutive := (List.isChain_cons.1 descends.consecutive).2
  resumed := by
    rintro entry first _ ⟨⟩
    exact congrArg (StageKey.mk f.name) ((List.isChain_cons.1 descends.consecutive).1 entry first)

namespace Proceeds

theorem refl (boxes : Boxes) : Proceeds program root boxes boxes :=
  ⟨.refl boxes, fun _ _ _ _ found => found, fun nested => nested⟩

theorem trans (first : Proceeds program root before middle)
    (second : Proceeds program root middle after) : Proceeds program root before after :=
  ⟨first.widens.trans second.widens, fun id stage unread box found =>
    second.settled id stage unread box (first.settled id stage unread box found),
    fun nested => second.nests (first.nests nested)⟩

end Proceeds

variable (stratified : program.Stratified root)
  (titled : ∀ id, program.Home root (some id) → (program.func id).name ≠ "")

include stratified titled

theorem Program.Unread.not_called {stage : Int} (unread : program.Unread root id stage) :
    ¬ program.IsCalled root ⟨(program.func id).name, stage⟩ := by
  obtain ⟨isHome, definition, isNext, notMet⟩ := unread
  rintro ⟨caller, declared, value, args, place, calls⟩
  have early : stage < (program.func id).lastStage :=
    (lt_add_one stage).trans_le (mem_stages_le isNext)
  obtain ⟨inValue, _, _, definition', isStage, rfl⟩ :=
    callsStage_early stratified titled isHome early place calls
  rw [stage_unique isNext isStage] at notMet
  exact notMet (meets_of_mem_calls inValue)

theorem record_unread {call : FuncId × List Expr}
    (place : program.Place root site.key site.declared value) (member : call ∈ value.calls)
    (run : program.record site before call = some after) {stage : Int}
    (unread : program.Unread root id stage) :
    after ⟨(program.func id).name, stage⟩ = before ⟨(program.func id).name, stage⟩ := by
  refine record_other run fun isKey => unread.not_called stratified titled ?_
  rw [isKey]
  exact ⟨site.key, site.declared, value, call.2, place, mem_calls_callsStage member⟩

theorem record_proceeds {call : FuncId × List Expr}
    (place : program.Place root site.key site.declared value) (member : call ∈ value.calls)
    (run : program.record site before call = some after) : Proceeds program root before after := by
  have widens := record_widens run
  refine ⟨widens, fun id stage unread box found =>
    (record_unread stratified titled place member run unread).trans found,
    fun nested id stage unread inner found => ?_⟩
  rw [record_unread stratified titled place member run unread] at found
  obtain ⟨outer, isOuter, wider⟩ := nested id stage unread inner found
  obtain ⟨outer', isOuter', wider'⟩ := widens _ outer isOuter
  exact ⟨outer', isOuter', wider.trans wider'⟩

omit titled in
theorem inherit_proceeds {stage : Int} (isHome : program.Home root (some id))
    (resumed : ∀ key, later = some key → key = ⟨(program.func id).name, stage + 1⟩)
    (run : before.inherit ⟨(program.func id).name, stage⟩ later = some known) :
    Proceeds program root before known := by
  have widens := inherit_widens run
  obtain ⟨box, isBox, rfl | ⟨unknown, isLater, rfl⟩⟩ := inherit_some run
  · exact .refl _
  · refine
      ⟨widens, fun id' stage' _ box' found => ?_, fun nested id' stage' unread inner found => ?_⟩
    · refine (Function.update_of_ne (fun isKey => ?_) _ _).trans found
      rw [isKey, unknown] at found
      cases found
    · by_cases isKey : (⟨(program.func id').name, stage'⟩ : StageKey) =
        ⟨(program.func id).name, stage⟩
      · obtain ⟨key, isKnown, fromLater⟩ := Option.bind_eq_some_iff.1 isLater
        obtain rfl := resumed key isKnown
        obtain rfl := stratified.distinct id' id unread.home isHome (congrArg StageKey.name isKey)
        obtain rfl : stage' = stage := congrArg StageKey.stage isKey
        rw [Function.update_self] at found
        cases found
        refine ⟨box, (Function.update_of_ne (fun same => ?_) _ _).trans fromLater, .refl box⟩
        exact absurd (congrArg StageKey.stage same) (by simp)
      · rw [Function.update_of_ne isKey] at found
        obtain ⟨outer, isOuter, wider⟩ := nested id' stage' unread inner found
        obtain ⟨outer', isOuter', wider'⟩ := widens _ outer isOuter
        exact ⟨outer', isOuter', wider.trans wider'⟩

theorem calls_proceed {calls : List (FuncId × List Expr)}
    (place : program.Place root site.key site.declared value)
    (enters : ∀ callee, value.Meets callee → site.key.name ≠ (program.func callee).name →
      LetsProceed program root enter callee)
    (within : ∀ call ∈ calls, call ∈ value.calls)
    (run : calls.foldlM (program.visit enter site) before = some after) :
    Proceeds program root before after ∧ ∀ call ∈ calls, LandsCall program after site call := by
  induction calls generalizing before with
  | nil =>
      cases run
      exact ⟨.refl _, by simp⟩
  | cons call rest ih =>
      obtain ⟨inValue, restInValue⟩ := List.forall_mem_cons.1 within
      rw [List.foldlM_cons] at run
      obtain ⟨middle, visits, others⟩ := Option.bind_eq_some_iff.1 run
      obtain ⟨recorded, isRecorded, entered⟩ := Option.bind_eq_some_iff.1 visits
      obtain ⟨later, lands⟩ := ih restInValue others
      have first := record_proceeds stratified titled place inValue isRecorded
      have entering : Proceeds program root recorded middle := by
        split at entered
        next =>
          cases entered
          exact .refl _
        next other => exact enters call.1 (meets_of_mem_calls inValue) other _ _ entered
      refine ⟨(first.trans entering).trans later, List.forall_mem_cons.2 ⟨?_, lands⟩⟩
      exact (record_lands isRecorded).widen (entering.widens.trans later.widens)

theorem walkStages_proceed (isHome : program.Home root (some id))
    (enters : ∀ callee, program.Leads id callee → LetsProceed program root enter callee)
    (descends : Descends (program.func id) later stages)
    (run : program.walkStages enter (program.func id) later stages before = some after) :
    Proceeds program root before after := by
  induction stages generalizing later before with
  | nil =>
      cases run
      exact .refl _
  | cons entry rest ih =>
      obtain ⟨stage, definition⟩ := entry
      have isStage := descends.within _ (.head _)
      rw [Program.walkStages] at run
      obtain ⟨known, inherits, run⟩ := Option.bind_eq_some_iff.1 run
      obtain ⟨box, _, run⟩ := Option.bind_eq_some_iff.1 run
      obtain ⟨here, walksHere, walksRest⟩ := Option.bind_eq_some_iff.1 run
      have inherited := inherit_proceeds stratified isHome (descends.resumed _ rfl) inherits
      obtain ⟨walked, _⟩ := calls_proceed stratified titled (.stage isHome isStage)
        (fun callee met other => enters callee ⟨fun same => other (same ▸ rfl), _, isStage, met⟩)
        (fun _ member => member) walksHere
      exact (inherited.trans walked).trans (ih descends.next walksRest)

theorem enterBoxes_proceeds (depth : Nat) (isHome : program.Home root (some id)) :
    LetsProceed program root (program.enterBoxes depth) id := by
  induction depth generalizing id with
  | zero => exact fun _ _ run => nomatch run
  | succ depth ih =>
      intro before after run
      obtain ⟨_, walks⟩ := Option.ite_none_right_eq_some.1 run
      exact walkStages_proceed stratified titled isHome
        (fun callee leads => ih (isHome.reaches (.single leads))) (descends_start _) walks

end

def Program.Upstream (program : Program) (root : Expr) (id g : FuncId) : Prop :=
  program.Home root (some g) ∧ Relation.ReflTransGen program.Leads g id

/-- All calls of these functions from others span the same box. -/
def Program.CalledOverOne (program : Program) (root : Expr) (boxes : Boxes) (id : FuncId) : Prop :=
  ∀ g, program.Upstream root id g → ∀ given,
    program.Spanned root boxes ⟨(program.func g).name, (program.func g).lastStage⟩ given →
      boxes ⟨(program.func g).name, (program.func g).lastStage⟩ = some given

def Copied (program : Program) (root : Expr) (final : Boxes) (id : FuncId) (boxes : Boxes) : Prop :=
  ∀ g stage, program.Upstream root id g → program.Unread root g stage → ∀ inner,
    boxes ⟨(program.func g).name, stage⟩ = some inner →
    final ⟨(program.func g).name, stage + 1⟩ = some inner

def KeepsCopied (program : Program) (root : Expr) (final : Boxes) (id : FuncId)
    (enter : FuncId → Boxes → Option Boxes) (callee : FuncId) : Prop :=
  ∀ before after, enter callee before = some after → Proceeds program root after final →
    (program.Upstream root id callee →
      before ⟨(program.func callee).name, (program.func callee).lastStage⟩ =
        final ⟨(program.func callee).name, (program.func callee).lastStage⟩) →
    Copied program root final id before → Copied program root final id after

section

variable {program : Program} {root : Expr} {enter : FuncId → Boxes → Option Boxes}
  {before middle after known final : Boxes} {site : CallSite} {value : Expr} {id g : FuncId}
  {later : Option StageKey} {stages : List (Int × Definition)}

theorem Proceeds.between {key : StageKey} {box : List (Int × Int)}
    (first : Proceeds program root before middle) (second : Proceeds program root middle final)
    (isBox : before key = some box) (isFinal : before key = final key) :
    middle key = final key := by
  obtain ⟨box', isBox', wider⟩ := first.widens key box isBox
  obtain ⟨box'', isBox'', wider'⟩ := second.widens key box' isBox'
  rw [← isFinal, isBox] at isBox''
  cases isBox''
  rw [isBox', ← isFinal, isBox, wider.antisymm wider']

theorem Program.Upstream.of_leads {callee : FuncId} (isHome : program.Home root (some g))
    (leads : program.Leads g callee) (upstream : program.Upstream root id callee) :
    program.Upstream root id g := ⟨isHome, .head leads upstream.2⟩

theorem record_final {call : FuncId × List Expr} (overOne : program.CalledOverOne root final id)
    (place : program.Place root site.key site.declared value) (member : call ∈ value.calls)
    (other : site.key.name ≠ (program.func call.1).name)
    (upstream : program.Upstream root id call.1) (isFinal : final.place site.key = some site.box)
    (run : program.record site before call = some after)
    (proceeds : Proceeds program root after final) :
    after ⟨(program.func call.1).name, (program.func call.1).lastStage⟩ =
      final ⟨(program.func call.1).name, (program.func call.1).lastStage⟩ := by
  obtain ⟨target, given, isTarget, isSpans, within⟩ := record_lands run
  have calls : program.CallsStage site.key value call.2
    (calledStage site.key (program.func call.1)) :=
    mem_calls_callsStage member
  rw [calledStage, if_neg other] at calls isTarget
  have isGiven := overOne call.1 upstream given
    ⟨site.key, site.declared, value, call.2, site.box, place, calls, isFinal, isSpans⟩
  obtain ⟨final', isFinal', within'⟩ := proceeds.widens _ target isTarget
  rw [isGiven] at isFinal'
  cases isFinal'
  rw [isTarget, isGiven, within.antisymm within']

theorem inherit_copied (stratified : program.Stratified root) {stage : Int}
    (isHome : program.Home root (some g))
    (resumed : ∀ key, later = some key → key = ⟨(program.func g).name, stage + 1⟩)
    (isFinal : program.Upstream root id g → ∀ key, later = some key → before key = final key)
    (copied : Copied program root final id before)
    (inherits : before.inherit ⟨(program.func g).name, stage⟩ later = some known) :
    Copied program root final id known := by
  obtain ⟨box, isBox, rfl | ⟨_, isLater, rfl⟩⟩ := inherit_some inherits
  · exact copied
  · intro g' stage' upstream unread inner found
    by_cases isKey : (⟨(program.func g').name, stage'⟩ : StageKey) = ⟨(program.func g).name, stage⟩
    · obtain rfl := stratified.distinct g' g upstream.1 isHome (congrArg StageKey.name isKey)
      obtain rfl : stage' = stage := congrArg StageKey.stage isKey
      obtain ⟨key, isKnown, fromLater⟩ := Option.bind_eq_some_iff.1 isLater
      have fromFinal := isFinal upstream key isKnown
      rw [Function.update_self] at found
      cases found
      rw [← resumed key isKnown, ← fromFinal, fromLater]
    · rw [Function.update_of_ne isKey] at found
      exact copied g' stage' upstream unread inner found

variable (stratified : program.Stratified root)
  (titled : ∀ id, program.Home root (some id) → (program.func id).name ≠ "")
  (overOne : program.CalledOverOne root final id) (fitting : Fitting program root final)

include stratified titled overOne

theorem calls_copied {calls : List (FuncId × List Expr)}
    (place : program.Place root site.key site.declared value)
    (proceed : ∀ callee, value.Meets callee → site.key.name ≠ (program.func callee).name →
      LetsProceed program root enter callee)
    (enters : ∀ callee, value.Meets callee → site.key.name ≠ (program.func callee).name →
      KeepsCopied program root final id enter callee)
    (isFinal : ∀ callee, value.Meets callee → program.Upstream root id callee →
      final.place site.key = some site.box)
    (within : ∀ call ∈ calls, call ∈ value.calls) (copied : Copied program root final id before)
    (proceeds : Proceeds program root after final)
    (run : calls.foldlM (program.visit enter site) before = some after) :
    Copied program root final id after := by
  induction calls generalizing before with
  | nil =>
      cases run
      exact copied
  | cons call rest ih =>
      obtain ⟨inValue, restInValue⟩ := List.forall_mem_cons.1 within
      have met := meets_of_mem_calls inValue
      rw [List.foldlM_cons] at run
      obtain ⟨middle, visits, others⟩ := Option.bind_eq_some_iff.1 run
      obtain ⟨recorded, isRecorded, entered⟩ := Option.bind_eq_some_iff.1 visits
      have proceedsMiddle :=
        ((calls_proceed stratified titled place proceed restInValue others).1).trans
        proceeds
      have copiedRecorded : Copied program root final id recorded :=
        fun g stage upstream unread inner found => copied g stage upstream unread inner
          ((record_unread stratified titled place inValue isRecorded unread).symm.trans found)
      refine ih restInValue ?_ others
      split at entered
      next =>
        cases entered
        exact copiedRecorded
      next other =>
        have proceedsRecorded := (proceed call.1 met other _ _ entered).trans proceedsMiddle
        exact enters call.1 met other _ _ entered proceedsMiddle (fun upstream =>
          record_final overOne place inValue other upstream (isFinal call.1 met upstream) isRecorded
            proceedsRecorded) copiedRecorded

omit overOne in
include fitting in
theorem read_final {stage : Int} {definition : Definition} {box : List (Int × Int)}
    (isHome : program.Home root (some g))
    (isStage : (stage + 1, definition) ∈ (program.func g).stages)
    (reads : definition.value.Meets g)
    (isFinal : final ⟨(program.func g).name, stage + 1⟩ = some box)
    (lands : ∀ call ∈ definition.value.calls, LandsCall program before
      ⟨⟨(program.func g).name, stage + 1⟩, (program.func g).declared, box⟩ call)
    (proceeds : Proceeds program root before final) :
    before ⟨(program.func g).name, stage⟩ = final ⟨(program.func g).name, stage⟩ := by
  have early : stage < (program.func g).lastStage :=
    (lt_add_one stage).trans_le (mem_stages_le isStage)
  have isRead : calledStage ⟨(program.func g).name, stage + 1⟩ (program.func g) =
      ⟨(program.func g).name, stage⟩ := by
    rw [calledStage, if_pos rfl]
    simp
  obtain ⟨x, outer, name, isCall⟩ := reads
  have member : (g, x.operands) ∈ definition.value.calls :=
    mem_calls.2 ⟨x, name, outer, isCall, rfl⟩
  have place : program.Place root ⟨(program.func g).name, stage + 1⟩ _ _ := .stage isHome isStage
  have inFinal : final.place ⟨(program.func g).name, stage + 1⟩ = some box := by
    rw [Boxes.place, if_neg, isFinal]
    exact fun isRoot => titled g isHome (congrArg StageKey.name isRoot)
  have calls : program.CallsStage ⟨(program.func g).name, stage + 1⟩ definition.value x.operands
      (calledStage ⟨(program.func g).name, stage + 1⟩ (program.func g)) :=
        mem_calls_callsStage member
  obtain ⟨target, given, isTarget, isSpans, within⟩ := lands _ member
  rw [isRead] at calls isTarget
  obtain ⟨hullBox, isHullBox, isHull⟩ := fitting.hulls _ ⟨_, _, _, _, place, calls⟩
  obtain ⟨hullBox', isHullBox', within'⟩ := proceeds.widens _ target isTarget
  cases isHullBox.symm.trans isHullBox'
  -- no other stage calls this one, so the hull of its calls lies in what has been recorded
  have contains : Wider hullBox target := by
    refine isHull.wider ⟨_, _, _, _, box, place, calls, inFinal, isSpans⟩ ?_
    rintro given' ⟨caller, declared, value, args, box', place', calls', inFinal', isSpans'⟩
    obtain ⟨inValue, rfl, rfl, definition', isStage', rfl⟩ :=
      callsStage_early stratified titled isHome early place' calls'
    cases stage_unique isStage isStage'
    cases inFinal.symm.trans inFinal'
    obtain ⟨target', given'', isTarget', isSpans'', within''⟩ := lands _ inValue
    rw [isRead] at isTarget'
    cases isTarget.symm.trans isTarget'
    rwa [isSpans'.unique isSpans'']
  rw [isTarget, isHullBox, within'.antisymm contains]

structure Arrives (program : Program) (root : Expr) (final : Boxes) (g : FuncId)
    (later : Option StageKey) (stages : List (Int × Definition)) (boxes : Boxes) : Prop where
  later : ∀ key, later = some key → boxes key = final key
  first : ∀ entry ∈ stages.head?, ¬ program.Unread root g entry.1 →
    boxes ⟨(program.func g).name, entry.1⟩ = final ⟨(program.func g).name, entry.1⟩

omit stratified titled overOne in
theorem Arrives.here {stage : Int} {definition : Definition} {box : List (Int × Int)}
    (arrives : Arrives program root final g later ((stage, definition) :: stages) before)
    (inherits : before.inherit ⟨(program.func g).name, stage⟩ later = some known)
    (isBox : known ⟨(program.func g).name, stage⟩ = some box)
    (proceeds : Proceeds program root known final) :
    final ⟨(program.func g).name, stage⟩ = some box := by
  by_cases unread : program.Unread root g stage
  · exact proceeds.settled g stage unread box isBox
  · have isFinal := arrives.first _ rfl unread
    obtain ⟨box', isBox', _⟩ := proceeds.widens _ box isBox
    obtain ⟨_, _, rfl | ⟨unknown, _⟩⟩ := inherit_some inherits
    · exact isFinal.symm.trans isBox
    · rw [← isFinal] at isBox'
      cases unknown.symm.trans isBox'

include fitting in
theorem walkStages_copied (isHome : program.Home root (some g))
    (proceed : ∀ callee, program.Leads g callee → LetsProceed program root enter callee)
    (enters : ∀ callee, program.Leads g callee → KeepsCopied program root final id enter callee)
    (descends : Descends (program.func g) later stages)
    (arrives : program.Upstream root id g → Arrives program root final g later stages before)
    (copied : Copied program root final id before) (proceeds : Proceeds program root after final)
    (run : program.walkStages enter (program.func g) later stages before = some after) :
    Copied program root final id after := by
  induction stages generalizing later before with
  | nil =>
      cases run
      exact copied
  | cons entry rest ih =>
      obtain ⟨stage, definition⟩ := entry
      have isStage := descends.within _ (.head _)
      have place : program.Place root ⟨(program.func g).name, stage⟩ _ _ := .stage isHome isStage
      have leads {callee : FuncId} (met : definition.value.Meets callee)
          (other : (program.func g).name ≠ (program.func callee).name) : program.Leads g callee :=
        ⟨fun same => other (same ▸ rfl), _, isStage, met⟩
      rw [Program.walkStages] at run
      obtain ⟨known, inherits, run⟩ := Option.bind_eq_some_iff.1 run
      obtain ⟨box, isBox, run⟩ := Option.bind_eq_some_iff.1 run
      obtain ⟨here, walksHere, walksRest⟩ := Option.bind_eq_some_iff.1 run
      have proceedsHere := (walkStages_proceed stratified titled isHome proceed descends.next
        walksRest).trans proceeds
      obtain ⟨walked, lands⟩ := calls_proceed stratified titled place
        (fun callee met other => proceed callee (leads met other)) (fun _ member => member)
          walksHere
      have proceedsKnown := walked.trans proceedsHere
      have isFinal (upstream : program.Upstream root id g) :
          final ⟨(program.func g).name, stage⟩ = some box :=
        (arrives upstream).here inherits isBox proceedsKnown
      refine ih descends.next (fun upstream => ⟨?_, fun entry first read => ?_⟩) ?_ walksRest
      · rintro _ ⟨⟩
        exact walked.between proceedsHere isBox (isBox.trans (isFinal upstream).symm)
      · -- a stage that is read is recorded by now, from the final box of this one
        have isNext : entry.1 + 1 = stage :=
          ((List.isChain_cons.1 descends.consecutive).1 entry first).symm
        subst isNext
        refine read_final stratified titled fitting isHome isStage ?_ (isFinal upstream) lands
          proceedsHere
        by_contra notMet
        exact read ⟨isHome, definition, isStage, notMet⟩
      · refine calls_copied stratified titled overOne place
          (fun callee met other => proceed callee (leads met other))
          (fun callee met other => enters callee (leads met other)) (fun callee met upstream => ?_)
          (fun _ member => member) (inherit_copied stratified isHome (descends.resumed _ rfl)
            (fun upstream => (arrives upstream).later) copied inherits) proceedsHere walksHere
        rw [Boxes.place, if_neg fun isRoot => titled g isHome (congrArg StageKey.name isRoot)]
        by_cases same : callee = g
        · exact isFinal (same ▸ upstream)
        · exact isFinal (upstream.of_leads isHome ⟨same, _, isStage, met⟩)

include fitting in
theorem enterBoxes_copied (depth : Nat) (isHome : program.Home root (some g)) :
    KeepsCopied program root final id (program.enterBoxes depth) g := by
  induction depth generalizing g with
  | zero => exact fun _ _ run => nomatch run
  | succ depth ih =>
      intro before after run proceeds isFinal copied
      obtain ⟨defined, walks⟩ := Option.ite_none_right_eq_some.1 run
      refine walkStages_copied stratified titled overOne fitting isHome
        (fun callee leads => enterBoxes_proceeds stratified titled depth
          (isHome.reaches (.single leads)))
        (fun callee leads => ih (isHome.reaches (.single leads))) (descends_start _)
        (fun upstream => ⟨fun _ absurd => (nomatch absurd), fun entry first _ => ?_⟩) copied
          proceeds
        walks
      rw [last_walked_first first, isFinal upstream]

omit overOne in
theorem inferBoxes_inherited {boxes : Boxes} (run : program.inferBoxes root = some boxes)
    {stage : Int}
    {definition next : Definition} (isHome : program.Home root (some id))
    (isStage : (stage, definition) ∈ (program.func id).stages)
    (isNext : (stage + 1, next) ∈ (program.func id).stages) (notRead : ¬ next.value.Meets id) :
    ∃ inner outer, boxes ⟨(program.func id).name, stage⟩ = some inner ∧
      boxes ⟨(program.func id).name, stage + 1⟩ = some outer ∧ Wider inner outer ∧
      (program.CalledOverOne root boxes id → inner = outer) := by
  have fitting := inferBoxes_fitting stratified titled run
  have unread : program.Unread root id stage := ⟨isHome, next, isNext, notRead⟩
  let site : CallSite := ⟨CallContext.root.key, [], []⟩
  have atRoot : program.Place root site.key site.declared root := .root
  obtain ⟨inner, inPlace, _⟩ := fitting.places _ _ _ (.stage isHome isStage)
  have isInner : boxes ⟨(program.func id).name, stage⟩ = some inner := by
    rw [Boxes.place, if_neg] at inPlace
    · exact inPlace
    · exact fun isRoot => titled id isHome (congrArg StageKey.name isRoot)
  have enters (callee : FuncId) (met : root.Meets callee) :
      LetsProceed program root (program.enterBoxes program.funcs.size) callee :=
    enterBoxes_proceeds stratified titled _ (.of_root met)
  obtain ⟨proceeds, _⟩ := calls_proceed stratified titled atRoot
    (fun callee met _ => enters callee met) (fun _ member => member) run
  have nested : Nested program root fun _ => none := by
    rintro _ _ _ _ ⟨⟩
  obtain ⟨outer, isOuter, wider⟩ := proceeds.nests nested id stage unread inner isInner
  refine ⟨inner, outer, isInner, isOuter, wider, fun overOne => ?_⟩
  have nothing : Copied program root boxes id fun _ => none := by
    rintro _ _ _ _ _ ⟨⟩
  have copied := calls_copied stratified titled overOne atRoot
    (fun callee met _ => enters callee met)
    (fun callee met _ => enterBoxes_copied stratified titled overOne fitting _ (.of_root met))
    (fun _ _ _ => if_pos rfl) (fun _ member => member) nothing (.refl boxes) run
  exact Option.some.inj ((copied id stage ⟨isHome, .refl⟩ unread inner isInner).symm.trans isOuter)

omit stratified titled overOne fitting in
/-- The inferred domain of a stage that the next one does not read lies within that of the next one,
and it is the same where all calls of the function, and of those that lead to it, span one box. -/
theorem unread_stages_inherit (apart : program.TellsTextsApart Sha256.hexDigest root)
    {base : Registry} (fits : base.Fits program.supply) (indexed : program.Indexed base root)
    {domains : StageTable Domain} {left : Program}
    (run : (inferBounds root).run.run program = (.ok domains, left)) {stage : Int}
    {definition next : Definition} (isHome : program.Home root (some id))
    (isStage : (stage, definition) ∈ (program.func id).stages)
    (isNext : (stage + 1, next) ∈ (program.func id).stages) (notRead : ¬ next.value.Meets id) :
    ∃ inner outer, spans domains ⟨(program.func id).name, stage⟩ = some inner ∧
      spans domains ⟨(program.func id).name, stage + 1⟩ = some outer ∧ Wider inner outer ∧
      (program.CalledOverOne root (spans domains) id → inner = outer) := by
  have follows : Follows False (inferBounds root) base program _ _ :=
    inferBoundsWith_follows apart indexed False.elim
  obtain ⟨_, _, _, _, boxes, isBoxes, _, rfl⟩ := follows.answers fits domains left run
  exact inferBoxes_inherited indexed.toStratified indexed.titled isBoxes isHome isStage isNext
    notRead

end

/-! The update of `f` reads `g` one further and not `f`, which the root reads over `0` to `2`. -/

namespace Shifted

open Revisited

def shifted : Program :=
  { funcs := #[{ name := "f", init := some ⟨[x], here⟩, updates := [⟨[x], further⟩] },
      { name := "g", init := some ⟨[x], value⟩ }]
    supply := { nodes := 14 } }

theorem ordered : shifted.Ordered [0, 1] := by decide

theorem encloses : shifted.Encloses readF [0, 1] := ordered.encloses (by decide)

theorem indexed : shifted.Indexed registry readF := by
  have arguments : shifted.argumentsOf readF [0, 1] ⊆ [x, next, axis, five] := by
    change [axis, x, next] ⊆ _
    simp
  exact ordered.indexed (by decide) (by decide) fun arg member => holds_index (arguments member)

theorem called_over_one {boxes : Boxes} (known : boxes ⟨"f", 0⟩ = some [(0, 2)]) :
    shifted.CalledOverOne readF boxes 0 := by
  rintro g ⟨isHome, reaches⟩ given
    ⟨caller, declared, body, args, box, place, calls, inPlace, isSpans⟩
  have isF : g = 0 := by
    have listed : g ∈ [0, 1] := encloses.home isHome g rfl
    rcases reaches.cases_head with same | ⟨callee, ⟨_, entry, isStage, met⟩, _⟩
    · exact same
    · rcases List.mem_pair.1 listed with rfl | rfl
      · rfl
      · obtain rfl : entry = (-1, ⟨[x], value⟩) := List.mem_singleton.1 isStage
        obtain ⟨y, outer, name, isCall⟩ := met
        cases mem_met.2 ⟨y, outer, isCall⟩
  subst isF
  obtain ⟨callee, member, isKey⟩ := callsStage_iff.1 calls
  have listed : (caller, declared, body) ∈ [(CallContext.root.key, [], readF),
      (⟨"f", -1⟩, ["x"], here), (⟨"f", 0⟩, ["x"], further), (⟨"g", -1⟩, ["x"], value)] :=
    encloses.mem_placesOf place
  simp only [List.mem_cons, Prod.mk.injEq, List.not_mem_nil, or_false] at listed
  rcases listed with ⟨rfl, rfl, rfl⟩ | ⟨rfl, rfl, rfl⟩ | ⟨rfl, rfl, rfl⟩ | ⟨rfl, rfl, rfl⟩
  · obtain rfl : box = [] := (Option.some.inj inPlace).symm
    cases List.mem_singleton.1 (show (callee, args) ∈ [(0, [axis])] from member)
    have isGiven : some [(0, 2)] = some given := spans_iff_mapM.2 isSpans
    rw [← isGiven]
    exact known
  · cases List.mem_singleton.1 (show (callee, args) ∈ [(1, [x])] from member)
    exact absurd isKey (by decide)
  · cases List.mem_singleton.1 (show (callee, args) ∈ [(1, [next])] from member)
    exact absurd isKey (by decide)
  · cases member

theorem same_over_one : ∃ domains left,
    (inferBounds readF).run.run shifted = (.ok domains, left) ∧
      spans domains ⟨"f", -1⟩ = some [(0, 2)] ∧ spans domains ⟨"f", 0⟩ = some [(0, 2)] := by
  have answers : ((inferBoundsBy (.watched Sha256.hexDigest .unreadStage) Inference.nestingLimit
      readF).run.run shifted).1.toOption.map (fun domains => spans domains ⟨"f", 0⟩) =
        some (some [(0, 2)]) := by
    rw [Sha256.hexDigest_eq]
    decide +kernel
  cases run : (inferBoundsBy (.watched Sha256.hexDigest .unreadStage) Inference.nestingLimit
      readF).run.run shifted with
  | mk result left =>
      rw [run] at answers
      cases result with
      | error => cases answers
      | ok domains =>
          obtain ⟨apart, infers⟩ := inferBounds_watched run
          have known : spans domains ⟨"f", 0⟩ = some [(0, 2)] := Option.some.inj answers
          have isHome : shifted.Home readF (some 0) := .of_root ⟨readF, .here, "f", rfl⟩
          have notRead : ¬ further.Meets 0 := by
            rintro ⟨y, outer, name, isCall⟩
            have listed : (0, name) ∈ [(1, "g")] := mem_met.2 ⟨y, outer, isCall⟩
            simp at listed
          have inherits : ∃ inner outer, spans domains ⟨"f", -1⟩ = some inner ∧
              spans domains ⟨"f", 0⟩ = some outer ∧ Wider inner outer ∧
              (shifted.CalledOverOne readF (spans domains) 0 → inner = outer) :=
            unread_stages_inherit apart ⟨rfl, rfl⟩ indexed infers isHome (.head _)
              (.tail _ (.head _)) notRead
          obtain ⟨inner, outer, isInner, isOuter, _, same⟩ := inherits
          cases isOuter.symm.trans known
          exact ⟨domains, left, infers, same (called_over_one known) ▸ isInner, isOuter⟩

def readFive : Expr := .node 12 (.call (.func 0 "f")) .float32 [five]

def readBoth : Expr := .node 13 (.binary .add) .float32 [readF, readFive]

-- a second call widens the box of the update only
example : ((inferBounds readBoth).run.run shifted).1.toOption.map (fun domains =>
    (spans domains ⟨"f", -1⟩, spans domains ⟨"f", 0⟩)) = some (some [(0, 2)], some [(0, 5)]) := by
  rw [inferBounds, Sha256.hexDigest_eq]
  decide +kernel

end Shifted

end ReverseMode
