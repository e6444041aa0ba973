import ReverseMode.Proofs.Bounds.Hull
import ReverseMode.Proofs.Program.Steady

/-!
# The stages that inference finds

A call gives intervals to the stage that it reads, and a stage that none reads gets those of the
next one. Other stages get none. A function that any call read is entered at once or was entered
before, and whoever enters it leaves with intervals for all of its stages and for all that these
read. This also holds where functions call each other in cycles, as long as inference returns: a
function that is busy need not be entered from within itself. So in the end the stages with
intervals are the stages of the functions that the root reaches.
-/

namespace ReverseMode

open Expr

namespace StageTable

variable {α : Type}

theorem isSome_find? (table : StageTable α) (key : StageKey) :
    (table.find? key).isSome ↔ key ∈ table.map Prod.fst := by
  unfold find?
  rw [List.lookup_isSome_iff, List.mem_map]
  exact exists_congr fun entry => and_congr Iff.rfl (beq_iff_eq.trans eq_comm)

theorem keys_insert (table : StageTable α) (key : StageKey) (value : α) :
    (table.insert key value).map Prod.fst =
      if key ∈ table.map Prod.fst then table.map Prod.fst else table.map Prod.fst ++ [key] := by
  induction table with
  | nil => rfl
  | cons entry rest ih =>
      obtain ⟨k, v⟩ := entry
      unfold insert
      by_cases same : k = key
      · simp [same]
      · rw [if_neg same, List.map_cons, ih, List.map_cons]
        have differs : key ≠ k := fun h => same h.symm
        by_cases present : key ∈ rest.map Prod.fst
        · rw [if_pos present, if_pos (.tail _ present)]
        · rw [if_neg present, if_neg (by simpa [differs] using present)]
          rfl

end StageTable

namespace Func

def key (f : Func) (entry : Int × Definition) : StageKey := ⟨f.name, entry.1⟩

def keys (f : Func) : List StageKey := f.stages.map f.key

def HasStage (f : Func) (key : StageKey) : Prop :=
  key.name = f.name ∧ -1 ≤ key.stage ∧ key.stage < f.updates.length

theorem mem_keys {f : Func} {initial : Definition} (defined : f.init = some initial)
    {key : StageKey} : key ∈ f.keys ↔ f.HasStage key := by
  obtain ⟨name, stage⟩ := key
  unfold keys Func.key HasStage
  rw [List.mem_map]
  constructor
  · rintro ⟨entry, isStage, same⟩
    cases same
    obtain ⟨_, _, ⟨isFirst, _⟩ | ⟨i, isUpdate, found⟩⟩ := mem_stages.1 isStage
    · simp only [isFirst]
      exact ⟨trivial, Int.le_refl _, by omega⟩
    · obtain ⟨below, _⟩ := List.getElem?_eq_some_iff.1 found
      simp only [isUpdate]
      exact ⟨trivial, by omega, by omega⟩
  · rintro ⟨rfl, least, below⟩
    by_cases isFirst : stage = -1
    · exact ⟨(stage, initial), mem_stages.2 ⟨initial, defined, .inl ⟨isFirst, rfl⟩⟩, rfl⟩
    · obtain ⟨i, rfl⟩ := Int.eq_ofNat_of_zero_le (show 0 ≤ stage by simp only at least; omega)
      have inRange : i < f.updates.length := by simpa using below
      exact ⟨(i, f.updates[i]), mem_stages.2 ⟨initial, defined, .inr ⟨i, rfl,
        List.getElem?_eq_getElem inRange⟩⟩, rfl⟩

end Func

/-- Linked programs whose functions bear names. A function can be read only once it is defined, so
none reads itself in its initial definition. -/
structure Program.Built (program : Program) (root : Expr) : Prop extends program.Linked root where
  titled : ∀ id, program.Home root (some id) → (program.func id).name ≠ ""
  initial : ∀ id definition, program.Home root (some id) →
    (program.func id).init = some definition → ¬ definition.value.Meets id

namespace Inference

abbrev keys (state : Inference) : List StageKey := state.intervals.map Prod.fst

structure Covers (state : Inference) (program : Program) (f : FuncId) : Prop where
  defined : ∃ initial, (program.func f).init = some initial
  own : ∀ key, (program.func f).HasStage key → key ∈ state.keys
  called : ∀ entry ∈ (program.func f).stages, ∀ callee, entry.2.value.Meets callee →
    calledStage ((program.func f).key entry) (program.func callee) ∈ state.keys

/-- A table while functions are busy: its keys are stages of functions that are reached, and these
are covered unless they are busy. The known keys are among its keys. -/
structure Keyed (state : Inference) (program : Program) (root : Expr) (busy : List FuncId)
    (known : StageKey → Prop) : Prop where
  nodup : state.keys.Nodup
  sound : ∀ key ∈ state.keys, ∃ f, program.Home root (some f) ∧ (program.func f).HasStage key
  covered : ∀ f, program.Home root (some f) → ∀ key ∈ state.keys,
    key.name = (program.func f).name → f ∈ busy ∨ state.Covers program f
  known : ∀ key, known key → key ∈ state.keys

section

variable {program : Program} {root : Expr} {busy : List FuncId} {known : StageKey → Prop}
  {state later : Inference} {f : FuncId}

theorem Covers.mono (covers : state.Covers program f) (grows : state.keys ⊆ later.keys) :
    later.Covers program f where
  defined := covers.defined
  own key isStage := grows (covers.own key isStage)
  called entry isStage callee meets := grows (covers.called entry isStage callee meets)

theorem Keyed.mono {busy' : List FuncId} {known' : StageKey → Prop}
    (keyed : state.Keyed program root busy known) (busier : busy ⊆ busy')
    (implies : ∀ key, known' key → known key) : state.Keyed program root busy' known' :=
  { keyed with
    covered := fun f isHome key member same =>
      (keyed.covered f isHome key member same).imp_left fun inBusy => busier inBusy
    known := fun key isKnown => keyed.known key (implies key isKnown) }

theorem Keyed.atDepth (keyed : state.Keyed program root busy known) (depth : Nat) :
    Keyed { state with depth } program root busy known :=
  ⟨keyed.nodup, keyed.sound, fun f isHome key member same =>
    (keyed.covered f isHome key member same).imp_right (·.mono (List.Subset.refl _)), keyed.known⟩

theorem Keyed.record (linked : program.Linked root) (keyed : state.Keyed program root busy known)
    (isHome : program.Home root (some f)) {key : StageKey} (isStage : (program.func f).HasStage key)
    (entered : f ∈ busy ∨ key ∈ state.keys) (intervals : List Interval) :
    Keyed { state with intervals := state.intervals.insert key intervals } program root busy
      fun other => known other ∨ other = key := by
  have mem_keys (other : StageKey) :
      other ∈ (state.intervals.insert key intervals).map Prod.fst ↔
        other ∈ state.keys ∨ other = key := by
    rw [StageTable.keys_insert]
    split
    next present => exact ⟨.inl, fun member => member.elim id fun same => same ▸ present⟩
    next => simp
  have grows : state.keys ⊆ (state.intervals.insert key intervals).map Prod.fst :=
    fun other member => (mem_keys other).2 (.inl member)
  refine ⟨?_, fun other member => ?_, fun g isHome' other member same => ?_,
    fun other isKnown => ?_⟩
  · change ((state.intervals.insert key intervals).map Prod.fst).Nodup
    rw [StageTable.keys_insert]
    split
    next => exact keyed.nodup
    next absent => exact keyed.nodup.append (List.nodup_singleton key) (by simpa using absent)
  · rcases (mem_keys other).1 member with before | rfl
    · exact keyed.sound other before
    · exact ⟨f, isHome, isStage⟩
  · have recorded : g ∈ busy ∨ other ∈ state.keys := by
      rcases (mem_keys other).1 member with before | rfl
      · exact .inr before
      · exact entered.imp_left fun inBusy =>
          linked.distinct f g isHome isHome' (isStage.1.symm.trans same) ▸ inBusy
    rcases recorded with inBusy | before
    · exact .inl inBusy
    · exact (keyed.covered g isHome' other before same).imp_right (·.mono grows)
  · exact (mem_keys other).2 (isKnown.imp_left (keyed.known other))

theorem Keyed.leave (keyed : state.Keyed program root (f :: busy) known)
    (covers : state.Covers program f) : state.Keyed program root busy known :=
  { keyed with
    covered := fun g isHome key member same => by
      rcases keyed.covered g isHome key member same with inBusy | covered
      · rcases List.mem_cons.1 inBusy with rfl | below
        · exact .inr covers
        · exact .inl below
      · exact .inr covered }

end

end Inference

structure CallContext.Reads (ctx : CallContext) (program : Program) (root : Expr)
    (busy : List FuncId) (id : FuncId) : Prop where
  home : program.Home root (some id)
  stage : (program.func id).HasStage (calledStage ctx.key (program.func id))
  own : ctx.key.name = (program.func id).name → id ∈ busy

def ReadBy (program : Program) (caller : StageKey) (e : Expr) (key : StageKey) : Prop :=
  ∃ callee, e.Meets callee ∧ key = calledStage caller (program.func callee)

section

variable {bad : Fault → Prop} {program : Program} {root : Expr} {hash : String → String}
  {busy : List FuncId} {known : StageKey → Prop}

theorem hasStage_last (f : Func) : f.HasStage ⟨f.name, f.lastStage⟩ := by
  refine ⟨rfl, ?_, ?_⟩ <;> simp only [Func.lastStage] <;> omega

namespace Program.Built

theorem reads_of_root (built : program.Built root) {id : FuncId} (meets : root.Meets id) :
    CallContext.root.Reads program root busy id := by
  have isHome : program.Home root (some id) := .of_root meets
  have foreign : CallContext.root.key.name ≠ (program.func id).name := (built.titled id isHome).symm
  refine ⟨isHome, ?_, fun same => absurd same foreign⟩
  rw [calledStage, if_neg foreign]
  exact hasStage_last _

theorem reads_of_stage (built : program.Built root) {f : FuncId}
    (isHome : program.Home root (some f))
    (isBusy : f ∈ busy) {entry : Int × Definition} (isStage : entry ∈ (program.func f).stages)
    {args : List Expr} {domain : Domain} {id : FuncId} (meets : entry.2.value.Meets id) :
    CallContext.Reads ⟨(program.func f).key entry, args, domain⟩ program root busy id := by
  have calleeHome := isHome.of_stage isStage meets
  have isSelf (same : (program.func f).name = (program.func id).name) : id = f :=
    built.distinct id f calleeHome isHome same.symm
  refine ⟨calleeHome, ?_, fun same => isSelf same ▸ isBusy⟩
  unfold calledStage
  split
  next same =>
    -- an initial definition cannot read its own function
    obtain rfl := isSelf same
    obtain ⟨initial, defined, ⟨_, isInitial⟩ | ⟨i, isUpdate, found⟩⟩ := mem_stages.1 isStage
    · exact absurd (isInitial ▸ meets) (built.initial id initial isHome defined)
    · obtain ⟨below, _⟩ := List.getElem?_eq_some_iff.1 found
      refine ⟨rfl, ?_, ?_⟩ <;> simp only [Func.key, isUpdate] <;> omega
  next => exact hasStage_last _

end Program.Built

def RecordsKeys (bad : Fault → Prop) (program : Program) (root : Expr) (busy : List FuncId)
    (ctx : CallContext) (action : InferenceM Unit) (es : List Expr) : Prop :=
  ∀ known, SparingRun bad program (Inference.Keyed · program root busy known) action fun _ state =>
    state.Keyed program root busy fun key => known key ∨ ∃ e ∈ es, ReadBy program ctx.key e key

def EntersKeyed (bad : Fault → Prop) (program : Program) (root : Expr)
    (enter : FuncId → InferenceM Unit) (id : FuncId) : Prop :=
  ∀ busy known,
    SparingRun bad program (Inference.Keyed · program root (id :: busy) known) (enter id)
    fun _ state => state.Keyed program root busy known

variable [Bookkeeping bad]

theorem recordCall_keyed (linked : program.Linked root) {ctx : CallContext} {id : FuncId}
    {args : List Expr} (reads : ctx.Reads program root busy id) :
    SparingRun bad program (Inference.Keyed · program root busy known)
      (Inference.recordCall hash ctx id args) fun enters state =>
        state.Keyed program root (if enters then id :: busy else busy)
          fun key => known key ∨ key = calledStage ctx.key (program.func id) := by
  refine recordCall_sparing fun f state given enters isFunc keyed _ stays => ?_
  rw [isFunc (linked.known id reads.home)] at stays ⊢
  cases enters with
  | true =>
      exact (keyed.mono (List.subset_cons_self id busy) fun _ isKnown => isKnown).record linked
        reads.home reads.stage (.inl (.head _)) given
  | false =>
      refine keyed.record linked reads.home reads.stage ?_ given
      exact (stays rfl).imp reads.own (StageTable.isSome_find? _ _).1

theorem visit_keyed (linked : program.Linked root) {enter : FuncId → InferenceM Unit}
    {ctx : CallContext} {call : FuncId × List Expr}
    (enters : EntersKeyed bad program root enter call.1)
    (reads : ctx.Reads program root busy call.1) :
    SparingRun bad program (Inference.Keyed · program root busy known)
      (Inference.visitBy (.unchanged hash) enter ctx call) fun _ state =>
        state.Keyed program root busy
          fun key => known key ∨ key = calledStage ctx.key (program.func call.1) := by
  unfold Inference.visitBy
  rw [← recordCall_unchanged]
  refine (recordCall_keyed linked reads).bind fun entered => ?_
  cases entered with
  | false => exact .pure fun state keyed => keyed
  | true =>
      refine SparingRun.bind (Q := fun _ state => state.Keyed program root (call.1 :: busy)
        fun key => known key ∨ key = calledStage ctx.key (program.func call.1))
        (.modify fun state keyed => keyed.atDepth _) fun _ => ?_
      exact (enters busy _).bind fun _ => .modify fun state keyed => keyed.atDepth _

theorem visits_keyed (linked : program.Linked root) {enter : FuncId → InferenceM Unit}
    {ctx : CallContext} {calls : List (FuncId × List Expr)}
    (enters : ∀ call ∈ calls, EntersKeyed bad program root enter call.1)
    (reads : ∀ call ∈ calls, ctx.Reads program root busy call.1) :
    SparingRun bad program (Inference.Keyed · program root busy known)
      (calls.forM (Inference.visitBy (.unchanged hash) enter ctx)) fun _ state =>
        state.Keyed program root busy fun key =>
          known key ∨ ∃ call ∈ calls, key = calledStage ctx.key (program.func call.1) := by
  induction calls generalizing known with
  | nil => exact .pure fun state keyed => keyed.mono (List.Subset.refl _) (by simp)
  | cons call rest ih =>
      obtain ⟨enterFirst, enterOthers⟩ := List.forall_mem_cons.1 enters
      obtain ⟨readFirst, readOthers⟩ := List.forall_mem_cons.1 reads
      refine ((visit_keyed linked enterFirst readFirst).bind fun _ =>
        ih enterOthers readOthers).mono (fun _ => id) fun _ state keyed => ?_
      exact keyed.mono (List.Subset.refl _) (by simp [or_assoc])

theorem recordCalls_keyed (linked : program.Linked root) {enter : FuncId → InferenceM Unit}
    {ctx : CallContext} {e : Expr}
    (enters : ∀ id, e.Meets id → EntersKeyed bad program root enter id)
    (reads : ∀ id, e.Meets id → ctx.Reads program root busy id) :
    RecordsKeys bad program root busy ctx (e.recordCalls hash enter ctx) [e] := by
  intro known
  rw [recordCalls_unchanged, recordCallsBy_eq]
  refine (visits_keyed linked (fun call member => enters _ (meets_of_mem_calls member))
    fun call member => reads _ (meets_of_mem_calls member)).mono (fun _ => id)
    fun _ state keyed => keyed.mono (List.Subset.refl _) ?_
  rintro key (isKnown | ⟨e, isE, callee, ⟨x, outer, name, isCall⟩, same⟩)
  · exact .inl isKnown
  · obtain rfl := List.mem_singleton.1 isE
    exact .inr ⟨(callee, x.operands), mem_calls.2 ⟨x, name, outer, isCall, rfl⟩, same⟩

theorem walkStages_keyed (linked : program.Linked root) {f : FuncId}
    (isHome : program.Home root (some f)) (isBusy : f ∈ busy)
    {walk : CallContext → Expr → InferenceM Unit} {args : List Expr} (later : Option StageKey)
    (stages : List (Int × Definition)) (among : stages ⊆ (program.func f).stages)
    (defined : ∃ initial, (program.func f).init = some initial)
    (walks : ∀ entry ∈ stages, ∀ domain, RecordsKeys bad program root busy
      ⟨(program.func f).key entry, args, domain⟩
      (walk ⟨(program.func f).key entry, args, domain⟩ entry.2.value) [entry.2.value]) :
    SparingRun bad program (Inference.Keyed · program root busy known)
      (Inference.walkStages walk (program.func f) args later stages) fun _ state =>
      state.Keyed program root busy fun key => known key ∨ ∃ entry ∈ stages,
        key = (program.func f).key entry ∨
          ReadBy program ((program.func f).key entry) entry.2.value key := by
  obtain ⟨initial, isInitial⟩ := defined
  induction stages generalizing known later with
  | nil => exact .pure fun state keyed => keyed.mono (List.Subset.refl _) (by simp)
  | cons entry rest ih =>
      obtain ⟨stage, definition⟩ := entry
      obtain ⟨isStage, inRest⟩ := List.cons_subset.1 among
      obtain ⟨first, others⟩ := List.forall_mem_cons.1 walks
      have hasStage : (program.func f).HasStage ⟨(program.func f).name, stage⟩ :=
        (Func.mem_keys isInitial).1 (List.mem_map.2 ⟨_, isStage, rfl⟩)
      unfold Inference.walkStages
      refine SparingRun.bind (Q := fun _ state => state.Keyed program root busy fun key =>
        known key ∨ key = ⟨(program.func f).name, stage⟩) ?_ fun intervals => ?_
      · refine stageIntervals_sparing (fun state intervals keyed found => { keyed with
          known := ?_ }) fun state intervals keyed =>
            keyed.record linked isHome hasStage (.inl isBusy) intervals
        rintro key (isKnown | rfl)
        · exact keyed.known key isKnown
        · exact (StageTable.isSome_find? _ _).1 (by rw [found]; rfl)
      · refine .bind_lift (Sparing.toDomain intervals) fun domain _ =>
          ((first domain _).bind fun _ => ih _ inRest others).mono (fun _ keyed => keyed)
            fun _ state keyed => keyed.mono (List.Subset.refl _) ?_
        rintro key (isKnown | ⟨entry, isEntry, reads⟩)
        · exact .inl (.inl (.inl isKnown))
        · rcases List.mem_cons.1 isEntry with rfl | later
          · exact .inl (reads.imp .inr fun readBy => ⟨_, .head _, readBy⟩)
          · exact .inr ⟨entry, later, reads⟩

theorem enterFunc_keyed (built : program.Built root) (depth : Nat) {f : FuncId}
    (isHome : program.Home root (some f)) :
    EntersKeyed bad program root (Inference.enterFunc hash depth) f := by
  induction depth generalizing f with
  | zero => exact fun _ _ => .throw_good (mt (Bookkeeping.isBookkeeping _) not_false)
  | succ depth ih =>
      intro busy known
      unfold Inference.enterFunc
      refine .bind_lift Sparing.getFunc fun g isFunc => ?_
      rw [isFunc (built.known f isHome)]
      refine .bind_lift (Sparing.args _) fun args defined => ?_
      refine (walkStages_keyed built.toLinked isHome (.head _) none _
        (fun entry member => List.mem_reverse.1 member) defined fun entry member domain => ?_).mono
        (fun _ keyed => keyed) fun _ state keyed => ?_
      · have isStage := List.mem_reverse.1 member
        exact recordCalls_keyed built.toLinked (fun id meets => ih (isHome.of_stage isStage meets))
          fun id meets => built.reads_of_stage isHome (.head _) isStage meets
      · obtain ⟨initial, isInitial⟩ := defined
        -- its stages have been walked, so the function is covered and need not be busy
        have covers : state.Covers program f := by
          refine ⟨⟨initial, isInitial⟩, fun key hasStage => ?_,
            fun entry isStage callee meets => ?_⟩
          · obtain ⟨entry, isStage, same⟩ := List.mem_map.1 ((Func.mem_keys isInitial).2 hasStage)
            exact keyed.known key (.inr ⟨entry, List.mem_reverse.2 isStage, .inl same.symm⟩)
          · exact keyed.known _
              (.inr ⟨entry, List.mem_reverse.2 isStage, .inr ⟨callee, meets, rfl⟩⟩)
        exact (keyed.mono (List.Subset.refl _) fun _ isKnown => .inl isKnown).leave covers

structure Program.Enumerated (program : Program) (root : Expr) (keys : List StageKey) : Prop where
  nodup : keys.Nodup
  mem_iff : ∀ key, key ∈ keys ↔ ∃ f, program.Home root (some f) ∧ (program.func f).HasStage key
  defined : ∀ f, program.Home root (some f) → ∃ initial, (program.func f).init = some initial

theorem Inference.Keyed.enumerated {state : Inference}
    (keyed : state.Keyed program root [] fun key => ReadBy program CallContext.root.key root key) :
    program.Enumerated root state.keys := by
  have covered {f : FuncId} (isHome : program.Home root (some f)) : state.Covers program f := by
    have ofRead {caller : StageKey} {callee : FuncId} (isHome : program.Home root (some callee))
        (read : calledStage caller (program.func callee) ∈ state.keys) :
        state.Covers program callee := by
      have sameName :
          (calledStage caller (program.func callee)).name = (program.func callee).name := by
        unfold calledStage
        split <;> rfl
      exact (keyed.covered callee isHome _ read sameName).resolve_left (by simp)
    -- nothing is busy, so whatever the root reaches is covered, call by call
    generalize same : some f = home at isHome
    induction isHome generalizing f with
    | root => cases same
    | @call home x callee isHome stands calls ih =>
        cases same
        have calleeHome := Program.Home.call isHome stands calls
        cases home with
        | none => exact ofRead calleeHome (keyed.known _ ⟨callee, ⟨x, stands, calls⟩, rfl⟩)
        | some g =>
            obtain ⟨entry, isStage, outer⟩ := stands
            exact ofRead calleeHome ((ih rfl).called entry isStage callee ⟨x, outer, calls⟩)
  refine ⟨keyed.nodup, fun key => ⟨keyed.sound key, ?_⟩, fun f isHome => (covered isHome).defined⟩
  rintro ⟨f, isHome, isStage⟩
  exact (covered isHome).own key isStage

theorem inferBounds_keyed (built : program.Built root) :
    Sparing bad program (inferBoundsWith hash root) fun domains =>
      program.Enumerated root (domains.map Prod.fst) := by
  have start : Inference.Keyed {} program root [] fun _ => False :=
    ⟨.nil, by simp [Inference.keys], by simp [Inference.keys], fun _ => False.elim⟩
  have walked : RecordsKeys bad program root [] CallContext.root
      (root.recordCalls hash (Inference.enterFunc hash Inference.nestingLimit) CallContext.root)
      [root] :=
    recordCalls_keyed built.toLinked (fun id meets => enterFunc_keyed built _ (.of_root meets))
      fun id meets => built.reads_of_root meets
  unfold inferBoundsWith
  refine (walked _ {} start).bind fun result keyed => ?_
  refine (domains_sparing _).mono fun domains same => ?_
  rw [same]
  exact (keyed.mono (List.Subset.refl _) fun key readBy => .inr ⟨root, .head _, readBy⟩).enumerated

end

end ReverseMode
