import ReverseMode.Proofs.Program.Assembled
import ReverseMode.Proofs.Realize.Coincidence
import ReverseMode.Proofs.Realize.Requests

/-!
# Realization ends

Functions may read each other in cycles, and what is computed is kept only once it is complete. Still
no function is computed while its updates run, and none while its initial definition is evaluated,
unless the updates of another function were started meanwhile. Realizers that refuse both therefore
answer the same, whatever depth they are given beyond `nestingBound`.
-/

namespace ReverseMode

namespace Realizer

def computeWith (readInitial readUpdates : FuncReader) (id : FuncId) (mins sizes : List Int) :
    RealizeM Region := do
  let f := (← readThe Realization).program.func id
  let initial ← (f.initial : RealizeM Definition)
  let box : Box := ⟨mins, sizes.map Int.toNat⟩
  if sizes.any (· < 0) then throw .negativeExtent
  let env : Environment := (initial.args.map Expr.name).zip box.coordinates
  let values ← initial.value.evaluate readInitial env
  let type := ElementType.ofDType initial.value.dtype
  let start : Region := ⟨mins, (values.convert type).broadcast box.sizes⟩
  whileRunning id start (runUpdates readUpdates id f.name env f.updates.zipIdx)

def freshWith (readInitial readUpdates : FuncReader) (id : FuncId) (mins sizes : List Int) :
    RealizeM Region := do
  let f := (← readThe Realization).program.func id
  let box := s!"mins={bracketed (mins.map toString)} sizes={bracketed (sizes.map toString)}"
  RealizeM.reportLine Tracing.execution s!"[Realizer._realize_box] {f.name} {box}"
  let region ← computeWith readInitial readUpdates id mins sizes
  modifyThe Realizer fun state => { state with cache := keep id region state.cache }
  return region

theorem fresh_eq_freshWith (reader : FuncReader) : fresh reader = freshWith reader reader := rfl

/-- Refuses a function whose updates run, and one whose initial definition is being evaluated. -/
def refuse (refused : Fault) (initializing : List FuncId) (id : FuncId) : RealizeM Unit := do
  let isRunning := ((← getThe Realizer).running.lookup id).isSome
  if isRunning || initializing.contains id then throw refused

/-- `realizeBox` for a realizer that computes no function whose updates run, and no function of
`initializing`, whose initial definitions are being evaluated since updates were last started. -/
def realizeGuarded (refused : Fault) :
    Nat → List FuncId → FuncId → List Int → List Int → RealizeM Region
  | 0, _, _, _, _ => throw refused
  | depth + 1, initializing, id, mins, sizes => do
      let known := (← getThe Realizer).cache.lookup id
      let readInitial := readFrom (realizeGuarded refused depth (id :: initializing))
      let readUpdates := readFrom (realizeGuarded refused depth [])
      match known with
      | some region =>
          if region.covers mins sizes then return region
          let (least, extents) := region.union mins sizes
          refuse refused initializing id
          freshWith readInitial readUpdates id least extents
      | none => do
          refuse refused initializing id
          freshWith readInitial readUpdates id mins sizes

def realizeBy (realizeBox : Program → FuncId → List Int → List Int → RealizeM Region) (id : FuncId)
    (sizes : List Int) (mins? : Option (List Int)) : RealizeM Tensor := do
  let program := (← readThe Realization).program
  let f := program.func id
  let mins := mins?.getD (sizes.map fun _ => 0)
  let dimensions ← (f.dimensions : RealizeM Nat)
  if sizes.length ≠ dimensions ∨ mins.length ≠ dimensions then
    throw (.boxArity f.name dimensions sizes mins)
  let region ← realizeBox program id mins sizes
  return region.window mins sizes

theorem realize_eq_realizeBy :
    realize = realizeBy fun program => realizeBox (nestingBound program) := rfl

def Runs (running : List FuncId) (s : Realizer) : Prop := s.running.map Prod.fst = running

section

variable {running : List FuncId} {s : Realizer} {id : FuncId}

theorem Runs.lookup_eq_none (runs : Runs running s) : s.running.lookup id = none ↔ id ∉ running := by
  rw [List.lookup_eq_none_iff, ← runs, List.mem_map]
  refine ⟨fun differ ⟨entry, member, isId⟩ => ?_, fun absent entry member => ?_⟩
  · simpa [isId] using differ entry member
  · exact bne_iff_ne.2 fun isId => absent ⟨entry, member, isId.symm⟩

theorem Runs.keep (runs : Runs running s) (new : id ∉ running) (region : Region) :
    Runs (id :: running) { s with running := keep id region s.running } := by
  have absent := runs.lookup_eq_none.2 new
  exact congrArg (List.cons id) ((congrArg (List.map Prod.fst) (drop_of_absent absent)).trans runs)

theorem Runs.drop (runs : Runs (id :: running) s) (new : id ∉ running) :
    Runs running { s with running := drop id s.running } := by
  have isFilter : (Realizer.drop id s.running).map Prod.fst =
      (s.running.map Prod.fst).filter (· != id) := by
    rw [List.filter_map]
    rfl
  have others : running.filter (· != id) = running :=
    List.filter_eq_self.2 fun other member => bne_iff_ne.2 (ne_of_mem_of_not_mem member new)
  exact isFilter.trans (by rw [runs, List.filter_cons_of_neg (by simp), others])

end

section

variable {setting : Realization} {s : Realizer} {id : FuncId} {running : List FuncId}

theorem outcome_whileRunning {region : Region} {action : RealizeM Unit} :
    (whileRunning id region action).outcome setting s =
      match action.outcome setting { s with running := keep id region s.running } with
      | (.ok _, left) => (.ok ((left.running.lookup id).getD region),
          { left with running := drop id left.running })
      | (.error fault, left) => (.error fault, { left with running := drop id left.running }) := by
  unfold whileRunning
  rw [RealizeM.outcome_bind]
  change RealizeM.outcome setting _ { s with running := keep id region s.running } = _
  rw [RealizeM.outcome_bind, RealizeM.outcome_tryCatch]
  cases action.outcome setting { s with running := keep id region s.running } with
  | mk result left => cases result <;> rfl

def boxes (s : Realizer) : List (FuncId × Box) :=
  s.running.map fun entry => (entry.1, entry.2.box)

/-- The property is a matter of the functions that run and of their boxes alone. -/
def OnRunning (P : Realizer → Prop) : Prop := ∀ s t, boxes t = boxes s → P s → P t

structure Starting (P P' : Realizer → Prop) (id : FuncId) (box : Box) : Prop where
  outer : OnRunning P
  inner : OnRunning P'
  starts : ∀ region s, region.box = box → P s →
    P' { s with running := keep id region s.running }
  ends : ∀ s, P' s → P { s with running := drop id s.running }

theorem Runs.onRunning : OnRunning (Runs running) := by
  intro s t same runs
  have names : t.running.map Prod.fst = s.running.map Prod.fst := by
    have := congrArg (List.map Prod.fst) same
    simpa [boxes, Function.comp_def] using this
  exact names.trans runs

theorem Runs.starting (new : id ∉ running) {box : Box} :
    Starting (Runs running) (Runs (id :: running)) id box :=
  ⟨Runs.onRunning, Runs.onRunning, fun region _ _ runs => runs.keep new region,
    fun _ runs => runs.drop new⟩

variable {bad : Fault → Prop} {P P' : Realizer → Prop} {box : Box}

theorem whileRunning_coincide {region : Region} {action action' : RealizeM Unit}
    (starting : Starting P P' id region.box) (same : Coincide bad setting P' action action') :
    Coincide bad setting P (whileRunning id region action) (whileRunning id region action') := by
  intro s before
  obtain ⟨same, spares, after⟩ := same _ (starting.starts region s rfl before)
  rw [outcome_whileRunning, outcome_whileRunning, same]
  generalize action.outcome setting _ = outcome at spares after
  obtain ⟨result, left⟩ := outcome
  cases result with
  | ok _ => exact ⟨rfl, .ok, starting.ends left after⟩
  | error fault => exact ⟨rfl, .error (spares fault rfl), starting.ends left after⟩

variable [Procedural bad]

theorem writeUpdate_coincide (onRunning : OnRunning P) {name : String} {stage : Nat}
    {value : Tensor} {indices : List Tensor} :
    Coincide bad setting P (writeUpdate id name stage indices value)
      (writeUpdate id name stage indices value) := by
  unfold writeUpdate
  refine .bind_get fun s before => ?_
  split
  next =>
    refine .bind_except (.broadcastAll _) fun out _ => ?_
    refine (Coincide.mapM (fun _ => .offsets) _).bind fun offsets => ?_
    split
    next => dsimp only; split <;> exact .throw_bind not_false
    split
    next => exact .throw_bind not_false
    refine .modify fun s before => onRunning s _ ?_ before
    unfold boxes
    rw [List.map_map]
    refine List.map_congr_left fun entry _ => ?_
    dsimp only [Function.comp_apply]
    split <;> rfl
  next => exact .pure

section

variable {reader reader' : FuncReader} (onRunning : OnRunning P)
  (alike : ∀ callee, ReadAlike bad setting P reader reader' callee)

include alike

theorem concrete_coincide {e : Expr} :
    Coincide bad setting P (concrete reader e) (concrete reader' e) := by
  unfold concrete
  split
  next => exact .throw not_false
  next =>
    exact (evaluate_coincide (fun callee _ => alike callee) []).bind fun _ =>
      .ofExcept (.wholeNumber _)

theorem concreteRanges_coincide {entries : List (String × Expr × Expr)} :
    Coincide bad setting P (concreteRanges reader entries) (concreteRanges reader' entries) := by
  induction entries with
  | nil => exact .pure
  | cons entry rest ih =>
      exact (concrete_coincide alike).bind fun _ => (concrete_coincide alike).bind fun _ =>
        ih.bind fun _ => .pure

include onRunning

theorem updateAt_coincide {name : String} {stage : Nat} {definition : Definition}
    {env : Environment} :
    Coincide bad setting P (updateAt reader id name stage definition env)
      (updateAt reader' id name stage definition env) := by
  unfold updateAt
  refine Coincide.bind ?_ fun _ => writeUpdate_coincide onRunning
  rw [StateT.run_bind, StateT.run_bind]
  refine (eval_coincide _ (fun callee _ => alike callee) env {}).bind fun value => ?_
  rw [StateT.run_bind, StateT.run_bind]
  exact (evalAll_coincide (fun e _ => eval_coincide e (fun callee _ => alike callee) env) _).bind
    fun _ => .pure

theorem runUpdate_coincide {name : String} {stage : Nat} {definition : Definition}
    {env : Environment} :
    Coincide bad setting P (runUpdate reader id name env stage definition)
      (runUpdate reader' id name env stage definition) := by
  unfold runUpdate
  refine (concreteRanges_coincide alike).bind fun ranges => ?_
  exact (Coincide.forEach fun point => updateAt_coincide onRunning alike).bind fun _ => .pure

theorem runUpdates_coincide {name : String} {env : Environment}
    {updates : List (Definition × Nat)} :
    Coincide bad setting P (runUpdates reader id name env updates)
      (runUpdates reader' id name env updates) := by
  induction updates with
  | nil => exact .pure
  | cons entry rest ih => exact (runUpdate_coincide onRunning alike).bind fun _ => ih

end

theorem box_start {mins sizes : List Int} {values : Tensor} :
    Region.box ⟨mins, values.broadcast (sizes.map Int.toNat)⟩ = requestBox mins sizes :=
  congrArg (Box.mk mins) (Tensor.broadcast_shape _ _)

theorem computeWith_coincide {readInitial readInitial' readUpdates readUpdates' : FuncReader}
    {mins sizes : List Int} (starting : Starting P P' id (requestBox mins sizes))
    (initially : ∀ initial, (setting.program.func id).init = some initial →
      ∀ callee, initial.value.Calls callee →
        ReadAlike bad setting P readInitial readInitial' callee)
    (updating : (setting.program.func id).init.isSome →
      ∀ callee, ReadAlike bad setting P' readUpdates readUpdates' callee) :
    Coincide bad setting P (computeWith readInitial readUpdates id mins sizes)
      (computeWith readInitial' readUpdates' id mins sizes) := by
  unfold computeWith
  refine .bind_read (.bind_except (.initial _) fun initial isInitial => ?_)
  have defined := (Func.initial_eq_ok isInitial).1
  dsimp only
  split
  next => exact .throw not_false
  next =>
    refine (evaluate_coincide (initially initial defined) _).bind fun values => ?_
    refine whileRunning_coincide (box_start ▸ starting)
      (runUpdates_coincide starting.inner (updating (by simp [defined])))

theorem freshWith_coincide {readInitial readInitial' readUpdates readUpdates' : FuncReader}
    {mins sizes : List Int} (starting : Starting P P' id (requestBox mins sizes))
    (initially : ∀ initial, (setting.program.func id).init = some initial →
      ∀ callee, initial.value.Calls callee →
        ReadAlike bad setting P readInitial readInitial' callee)
    (updating : (setting.program.func id).init.isSome →
      ∀ callee, ReadAlike bad setting P' readUpdates readUpdates' callee) :
    Coincide bad setting P (freshWith readInitial readUpdates id mins sizes)
      (freshWith readInitial' readUpdates' id mins sizes) := by
  unfold freshWith
  refine .bind_read ((Coincide.report fun s log => starting.outer s _ rfl).bind fun _ => ?_)
  refine (computeWith_coincide starting initially updating).bind fun region =>
    Coincide.bind ?_ fun _ => .pure
  exact .modify fun s => starting.outer s _ rfl

theorem readFrom_coincide {realizeBox realizeBox' : FuncId → List Int → List Int → RealizeM Region}
    (boxes : id ∉ running → ∀ mins sizes, Coincide Fault.IsNesting setting (Runs running)
      (realizeBox id mins sizes) (realizeBox' id mins sizes)) :
    ReadAlike Fault.IsNesting setting (Runs running) (readFrom realizeBox) (readFrom realizeBox')
      id := by
  intro shape coordinates
  unfold readFrom
  refine .bind_read (.bind_get fun s runs => ?_)
  cases found : s.running.lookup id with
  | some region =>
      dsimp only
      split
      next => exact .throw not_false
      next => exact .pure
  | none =>
      dsimp only
      split
      next => exact .bind_except (.dtype _) fun _ _ => .pure
      next =>
        refine (Coincide.report fun s log runs => runs).bind fun _ => ?_
        exact (boxes (runs.lookup_eq_none.1 found) _ _).bind fun _ => .pure

theorem refuse_coincide {α : Type} {refused : Fault} {initializing : List FuncId}
    {action action' : RealizeM α} (idle : id ∉ running) (apart : id ∉ initializing)
    (same : Coincide Fault.IsNesting setting (Runs running) action action') :
    Coincide Fault.IsNesting setting (Runs running) action
      (refuse refused initializing id >>= fun _ => action') := by
  intro s runs
  have passes : (refuse refused initializing id).outcome setting s = (.ok (), s) := by
    have absent := runs.lookup_eq_none.2 idle
    unfold refuse
    rw [RealizeM.outcome_bind]
    change RealizeM.outcome setting (if (s.running.lookup id).isSome || _ then _ else _) s = _
    rw [absent, if_neg (by simpa using apart)]
    rfl
  rw [RealizeM.outcome_bind, passes]
  exact same s runs

end

/-- A depth at which a function is entered while some of the functions in `order` run, and initial
definitions lead to those of `rest`: starting updates leaves one function less to start, and an
initial definition leads further on in `rest`. -/
def room (order running rest : List FuncId) : Nat :=
  (order.length - running.length) * (order.length + 1) + rest.length + 1

structure Entering (program : Program) (order running rest initializing : List FuncId)
    (id : FuncId) : Prop where
  ordered : program.DefinedInOrder rest
  within : rest ⊆ order
  distinct : running.Nodup
  known : running ⊆ order
  idle : id ∉ running
  reached : (program.func id).init.isSome → id ∈ rest
  earlier : ∀ other ∈ initializing, (program.func other).init.isSome ∧ other ∉ rest

section

variable {setting : Realization} {order running rest initializing : List FuncId} {id : FuncId}
  {refused : Fault} (ordered : setting.program.DefinedInOrder order)
  (complete : ∀ id, (setting.program.func id).init.isSome → id ∈ order)

theorem Entering.callee {initial : Definition} {callee : FuncId}
    (entering : Entering setting.program order running rest initializing id)
    (defined : (setting.program.func id).init = some initial)
    (called : initial.value.Calls callee) (idle : callee ∉ running) :
    ∃ later, room order running later < room order running rest ∧
      Entering setting.program order running later (id :: initializing) callee := by
  have isSome : (setting.program.func id).init.isSome := by simp [defined]
  obtain ⟨initial', later, defined', ordered, within, new, shorter, callees⟩ :=
    entering.ordered.split (entering.reached isSome)
  obtain rfl : initial = initial' := Option.some.inj (defined.symm.trans defined')
  refine ⟨later, by unfold room; omega, ordered, List.Subset.trans within entering.within, entering.distinct,
    entering.known, idle, fun _ => callees callee called, List.forall_mem_cons.2 ⟨⟨isSome, new⟩, ?_⟩⟩
  exact fun other member =>
    (entering.earlier other member).imp_right fun absent isLater => absent (within isLater)

include ordered complete in
theorem Entering.updating (entering : Entering setting.program order running rest initializing id)
    (isSome : (setting.program.func id).init.isSome) :
    room order (id :: running) order < room order running rest ∧
      ∀ callee, callee ∉ id :: running →
        Entering setting.program order (id :: running) order [] callee := by
  have distinct : (id :: running).Nodup := List.nodup_cons.2 ⟨entering.idle, entering.distinct⟩
  have known : id :: running ⊆ order := List.cons_subset.2 ⟨complete id isSome, entering.known⟩
  have fits : running.length + 1 ≤ order.length := (distinct.subperm known).length_le
  refine ⟨?_, fun callee idle =>
    ⟨ordered, List.Subset.refl order, distinct, known, idle, complete callee, by simp⟩⟩
  have split : order.length - running.length = (order.length - (running.length + 1)) + 1 := by omega
  unfold room
  rw [split, List.length_cons, Nat.add_mul]
  have isMember := List.length_pos_of_mem (entering.reached isSome)
  omega

include ordered complete in
theorem realizeBox_coincide {depth depth' : Nat}
    (entering : Entering setting.program order running rest initializing id)
    (deep : room order running rest ≤ depth) (deep' : room order running rest ≤ depth')
    (mins sizes : List Int) :
    Coincide Fault.IsNesting setting (Runs running) (realizeBox depth id mins sizes)
      (realizeGuarded refused depth' initializing id mins sizes) := by
  induction depth generalizing depth' running rest initializing id mins sizes with
  | zero => cases deep
  | succ depth ih =>
      cases depth' with
      | zero => cases deep'
      | succ depth' =>
          have apart : id ∉ initializing := fun member =>
            have ⟨isSome, absent⟩ := entering.earlier id member
            absent (entering.reached isSome)
          have computed (mins sizes : List Int) : Coincide Fault.IsNesting setting (Runs running)
              (fresh (readFrom (realizeBox depth)) id mins sizes)
              (do refuse refused initializing id
                  freshWith (readFrom (realizeGuarded refused depth' (id :: initializing)))
                    (readFrom (realizeGuarded refused depth' [])) id mins sizes) := by
            refine refuse_coincide entering.idle apart
              (freshWith_coincide (Runs.starting entering.idle) ?_ ?_)
            · intro initial defined callee called
              refine readFrom_coincide fun idle => ?_
              obtain ⟨later, less, entering⟩ := entering.callee defined called idle
              exact ih entering (by omega) (by omega)
            · intro isSome callee
              obtain ⟨less, entering⟩ := entering.updating ordered complete isSome
              exact readFrom_coincide fun idle => ih (entering callee idle) (by omega) (by omega)
          unfold realizeBox realizeGuarded
          refine .bind_get fun s _ => ?_
          cases s.cache.lookup id with
          | some region =>
              dsimp only
              split
              next => exact .pure
              next => exact computed _ _
          | none => exact computed _ _

end

theorem room_le_nestingBound {program : Program} {order : List FuncId}
    (ordered : program.DefinedInOrder order) : room order [] order ≤ nestingBound program := by
  have few := ordered.length_le
  have square : (order.length + 1) * (order.length + 1) ≤
      (program.funcs.size + 1) * (program.funcs.size + 1) :=
    Nat.mul_le_mul (by omega) (by omega)
  have split : (order.length + 1) * (order.length + 1) =
      order.length * (order.length + 1) + (order.length + 1) := Nat.succ_mul ..
  unfold room nestingBound
  rw [List.length_nil, Nat.sub_zero]
  omega

end Realizer

open Realizer

section

variable {setting : Realization} {depth depth' : Nat} {refused : Fault} {s : Realizer}

theorem realizeBy_coincide {bad : Fault → Prop} [Procedural bad] {P : Realizer → Prop}
    {realizeBox realizeBox' : Program → FuncId → List Int → List Int → RealizeM Region}
    {id : FuncId} {sizes : List Int} {mins? : Option (List Int)}
    (boxes : ∀ mins sizes, Coincide bad setting P (realizeBox setting.program id mins sizes)
      (realizeBox' setting.program id mins sizes)) :
    Coincide bad setting P (realizeBy realizeBox id sizes mins?)
      (realizeBy realizeBox' id sizes mins?) := by
  unfold realizeBy
  refine .bind_read (.bind_except (.dimensions _) fun dimensions _ => ?_)
  dsimp only
  split
  next => exact .throw_bind not_false
  next => exact (boxes _ _).bind fun _ => .pure

theorem boxes_coincide (assembled : setting.program.Assembled)
    (deep : nestingBound setting.program ≤ depth) (deep' : nestingBound setting.program ≤ depth')
    (id : FuncId) (mins sizes : List Int) :
    Coincide Fault.IsNesting setting (Runs []) (realizeBox depth id mins sizes)
      (realizeGuarded refused depth' [] id mins sizes) := by
  obtain ⟨order, ordered, complete⟩ := assembled.order
  have entering : Entering setting.program order [] order [] id :=
    ⟨ordered, List.Subset.refl order, List.nodup_nil, List.nil_subset order, List.not_mem_nil,
      complete id, by simp⟩
  have isRoom := room_le_nestingBound ordered
  exact realizeBox_coincide ordered complete entering (isRoom.trans deep) (isRoom.trans deep')
    mins sizes

theorem serve_coincide (refused : Fault) (assembled : setting.program.Assembled)
    (deep : nestingBound setting.program ≤ depth) (q : Request) :
    Coincide Fault.IsNesting setting (Runs []) (realize q.id q.sizes q.mins?)
      (realizeBy (fun _ => realizeGuarded refused depth []) q.id q.sizes q.mins?) := by
  rw [realize_eq_realizeBy]
  exact realizeBy_coincide fun mins sizes =>
    boxes_coincide assembled (Nat.le_refl _) deep q.id mins sizes

theorem runs_nil : Runs [] s ↔ s.running = [] := List.map_eq_nil_iff

/-- A request to a realizer where no updates run is answered or fails within the nesting bound. No
function is computed while its updates run or while its initial definition is evaluated, unless other
updates were started meanwhile: realizers that refuse this, with whatever fault, and may nest as
deeply as they like, do the same. -/
theorem realize_ends (assembled : setting.program.Assembled) (idle : s.running = []) (q : Request) :
    Spares Fault.IsNesting (q.serve setting s).1 ∧ (q.serve setting s).2.running = [] ∧
      ∀ depth, nestingBound setting.program ≤ depth →
        (realizeBy (fun _ => realizeBox depth) q.id q.sizes q.mins?).outcome setting s =
            q.serve setting s ∧
          ∀ refused, (realizeBy (fun _ => realizeGuarded refused depth [])
            q.id q.sizes q.mins?).outcome setting s = q.serve setting s := by
  have runs := runs_nil.2 idle
  obtain ⟨_, spares, after⟩ :=
    serve_coincide .nestingTooDeep assembled (Nat.le_refl _) q s runs
  refine ⟨spares, runs_nil.1 after, fun depth deep => ?_⟩
  have guarded (refused : Fault) := (serve_coincide refused assembled deep q s runs).1
  have unguarded : Coincide Fault.IsNesting setting (Runs [])
      (realizeBy (fun _ => realizeBox depth) q.id q.sizes q.mins?)
      (realizeBy (fun _ => realizeGuarded .nestingTooDeep depth []) q.id q.sizes q.mins?) :=
    realizeBy_coincide fun mins sizes => boxes_coincide assembled deep deep q.id mins sizes
  exact ⟨(unguarded s runs).1.symm.trans (guarded .nestingTooDeep), guarded⟩

end

namespace Circular

def f : Func := { name := "f", init := some ⟨[x], x⟩ }

def g : Func := { name := "g", init := some ⟨[x], product⟩ }

def h : Func := { name := "h", init := some ⟨[x], square⟩ }

def readingG : Func := { f with updates := [⟨[x], sum⟩] }

def writing : Func := { h with updates := [⟨[place], seven⟩] }

theorem assembled : setting.program.Assembled := by
  have declared : Program.Assembled { funcs := #[{ name := "f" }] } :=
    .declare (.empty rfl) (show (declareFunc (some "f")).run.run {} = (.ok 0, _) from rfl)
  have defined : Program.Assembled { funcs := #[f] } :=
    .define declared (by simp [x, Expr.calls_node])
      (show (define 0 [x] x).run.run _ = (.ok (), _) from rfl)
  have declared : Program.Assembled { funcs := #[f, { name := "g" }] } :=
    .declare defined (show (declareFunc (some "g")).run.run _ = (.ok 1, _) from rfl)
  have defined : Program.Assembled { funcs := #[f, g] } :=
    .define declared (by simp [product, readF, ten, x, Expr.calls_node, Program.func, f])
      (show (define 1 [x] product).run.run _ = (.ok (), _) from rfl)
  have updated : Program.Assembled { funcs := #[readingG, g] } :=
    .define defined (by simp [sum, readG, one, x, Expr.calls_node, Program.func, g])
      (show (define 0 [x] sum).run.run _ = (.ok (), _) from rfl)
  have declared : Program.Assembled { funcs := #[readingG, g, { name := "h" }] } :=
    .declare updated (show (declareFunc (some "h")).run.run _ = (.ok 2, _) from rfl)
  have defined : Program.Assembled { funcs := #[readingG, g, h] } :=
    .define declared (by simp [square, x, Expr.calls_node])
      (show (define 2 [x] square).run.run _ = (.ok (), _) from rfl)
  have updated : Program.Assembled { funcs := #[readingG, g, writing] } :=
    .define defined (by simp [seven, Expr.calls_node])
      (show (define 2 [place] seven).run.run _ = (.ok (), _) from rfl)
  have declared : Program.Assembled { funcs := #[readingG, g, writing, { name := "k" }] } :=
    .declare updated (show (declareFunc (some "k")).run.run _ = (.ok 3, _) from rfl)
  have defined : Program.Assembled { program with supply := {} } :=
    .define declared (by simp [readH, x, Expr.calls_node, Program.func, writing, h])
      (show (define 3 [x] readH).run.run _ = (.ok (), _) from rfl)
  exact .meanwhile defined rfl

/-- A used realizer answers a request for `f` as one does that refuses to compute `f` again. -/
theorem circle_ends : ∃ t s, Request.serve setting ⟨0, [3], none⟩ (Request.serveAll setting history) =
    (.ok t, s) ∧ s.running = [] ∧ (realizeBy (fun _ => realizeGuarded .operandCount 100 [])
      0 [3] none).outcome setting (Request.serveAll setting history) = (.ok t, s) := by
  obtain ⟨t, answered⟩ := answer_of_isOk history ⟨0, [3], none⟩ (by decide +kernel)
  obtain ⟨_, idle, limitless⟩ := realize_ends assembled
    (List.isEmpty_iff.1 (by decide +kernel : (Request.serveAll setting history).running.isEmpty))
    ⟨0, [3], none⟩
  refine ⟨t, _, Prod.ext answered rfl, idle, ?_⟩
  exact ((limitless 100 (by decide)).2 .operandCount).trans (Prod.ext answered rfl)

end Circular

end ReverseMode
