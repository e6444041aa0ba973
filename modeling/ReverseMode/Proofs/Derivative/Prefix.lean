import ReverseMode.Derivative.Scatter
import ReverseMode.Proofs.Derivative.Snapshot
import ReverseMode.Proofs.Realize.StandIn

/-!
# Prefixes of functions

A snapshot is realized to what the function holds once its first updates have run.
-/

namespace ReverseMode

open Expr

def Program.Reaches (p : Program) (id g : FuncId) : Prop := Relation.TransGen p.ReadBy g id

/-- A function of which only the values of its updates call it, as a function of its name and type, and
which is not reached through other functions. Its updates write at its declared variables. -/
structure Program.Prefixable (p : Program) (r : Registry) (id : FuncId) (initial : Definition) :
    Prop where
  wellBuilt : p.WellBuilt r
  known : ∀ g callee, p.ReadBy callee g → callee < p.funcs.size
  defined : (p.func id).init = some initial
  declared : ∀ a ∈ initial.args, a.isPureVariable = true
  distinct : (initial.args.map Expr.name).Nodup
  shaped : ∀ u ∈ (p.func id).updates, ∀ e ∈ u.value :: u.args, Shaped e
  type : ∀ u ∈ (p.func id).updates, u.value.dtype = initial.value.dtype
  writes : ∀ u ∈ (p.func id).updates,
    u.args.map Expr.variableName? = initial.args.map Expr.variableName?
  callsAs : ∀ u ∈ (p.func id).updates, CallsAs (p.func id).name id initial.value.dtype u.value
  ranges : ∀ u ∈ (p.func id).updates, ∀ entry ∈ Realizer.reductionRanges u,
    ¬ entry.2.1.Calls id ∧ ¬ entry.2.2.Calls id
  acyclic : ¬ p.Reaches id id

namespace Program.Prefixable

variable {p : Program} {r : Registry} {id : FuncId} {initial u : Definition}

theorem part (isUpdate : u ∈ (p.func id).updates) : u.value ∈ (p.func id).parts :=
  Func.mem_parts_update isUpdate (.head _)

theorem copyable (prefixable : p.Prefixable r id initial) : p.Copyable r id initial where
  defined := prefixable.defined
  declared := prefixable.declared
  distinct := prefixable.distinct
  held u isUpdate := prefixable.wellBuilt.held id _ (part isUpdate)
  shaped u isUpdate := prefixable.shaped u isUpdate _ (.head _)
  type := prefixable.type
  fitting u isUpdate := by simpa using congrArg List.length (prefixable.writes u isUpdate)
  callsAs := prefixable.callsAs
  callsWith u isUpdate node name type operands within := by
    have fit : operands.length = p.arity id :=
      prefixable.wellBuilt.fit id _ (part isUpdate) _ within id name rfl
    rw [fit, Program.arity, Func.declared, prefixable.defined]
    exact List.length_map _

theorem argument (prefixable : p.Prefixable r id initial) (isUpdate : u ∈ (p.func id).updates)
    {a : Expr} (member : a ∈ u.args) : ∃ name, a.variableName? = some name := by
  have among : a.variableName? ∈ initial.args.map Expr.variableName? := by
    rw [← prefixable.writes u isUpdate]
    exact List.mem_map_of_mem member
  obtain ⟨declared, isDeclared, same⟩ := List.mem_map.1 among
  have isPure := prefixable.declared declared isDeclared
  rw [← same]
  cases declared with
  | node node head dtype operands =>
      cases head with
      | var name index => exact ⟨name, rfl⟩
      | _ => cases isPure
  | reduction => exact ⟨_, rfl⟩

end Program.Prefixable

theorem reads_of_part {p : Program} {g callee : FuncId} {e : Expr} (isPart : e ∈ (p.func g).parts)
    (called : e.Calls callee) : callee = g ∨ p.ReadBy callee g := by
  rcases List.mem_append.1 isPart with inInit | inUpdates
  · obtain ⟨initial, isInitial, rfl⟩ := List.mem_map.1 inInit
    exact .inr (.inl ⟨initial, Option.mem_toList.1 isInitial, called⟩)
  · obtain ⟨u, isUpdate, isPart⟩ := List.mem_flatMap.1 inUpdates
    exact or_iff_not_imp_left.2 fun other => .inr ⟨u, isUpdate, e, isPart, called, other⟩

structure Program.Snapshot (p later : Program) (id copy : FuncId) (count : Nat) : Prop where
  isNew : copy = p.funcs.size
  kept : ∀ x, x < p.funcs.size → later.func x = p.func x
  mirrors : MirrorsUpTo id copy (p.func id) (later.func copy) count

namespace Program.Snapshot

variable {p later : Program} {r : Registry} {id copy : FuncId} {initial u : Definition} {count : Nat}

theorem func_self (snapshot : p.Snapshot later id copy count)
    (prefixable : p.Prefixable r id initial) : later.func id = p.func id :=
  snapshot.kept id (below_of_defined prefixable.defined)

theorem ne_copy (snapshot : p.Snapshot later id copy count) (prefixable : p.Prefixable r id initial) :
    id ≠ copy := by
  rw [snapshot.isNew]
  exact Nat.ne_of_lt (below_of_defined prefixable.defined)

theorem apart (snapshot : p.Snapshot later id copy count) (prefixable : p.Prefixable r id initial) :
    later.Apart id copy (p.Reaches id) where
  notSelf := prefixable.acyclic
  notCopy reached := by
    obtain ⟨_, read, _⟩ := Relation.TransGen.head'_iff.1 reached
    have isOld := prefixable.known _ _ read
    rw [snapshot.isNew] at isOld
    exact Nat.lt_irrefl _ isOld
  closed g reached e isPart callee called := by
    obtain ⟨_, read, _⟩ := Relation.TransGen.head'_iff.1 reached
    rw [snapshot.kept g (prefixable.known _ _ read)] at isPart
    rcases reads_of_part isPart called with rfl | readHere
    · exact reached
    · exact Relation.TransGen.head readHere reached

theorem mirroredUpdate (prefixable : p.Prefixable r id initial) (isUpdate : u ∈ (p.func id).updates)
    {u' : Definition} (sameArgs : u'.args = u.args)
    (mirrored : ∃ R, Relator.BiUnique R ∧ Mirrored id copy R u.value u'.value) :
    MirroredUpdate id copy u u' := by
  obtain ⟨R, biUnique, mirrored⟩ := mirrored
  refine ⟨⟨R, biUnique, mirrored, ?_⟩, ?_, prefixable.ranges u isUpdate⟩
  · rw [sameArgs]
    refine List.forall₂_same.2 fun a member => ?_
    obtain ⟨name, named⟩ := prefixable.argument isUpdate member
    exact .leaf named
  · exact reductionRanges_mirrored sameArgs mirrored

theorem mirroredUpdates (snapshot : p.Snapshot later id copy count)
    (prefixable : p.Prefixable r id initial) :
    List.Forall₂ (MirroredUpdate id copy) ((p.func id).updates.take count)
      (later.func copy).updates :=
  forall₂_imp_mem snapshot.mirrors.updates fun _ isUpdate _ _ related =>
    mirroredUpdate prefixable (List.mem_of_mem_take isUpdate) related.1 related.2

theorem not_calls_variable {e : Expr} {name : String} (shaped : Shaped e)
    (named : e.variableName? = some name) (g : FuncId) : ¬ e.Calls g := by
  intro called
  cases e with
  | node node head dtype operands =>
      cases head <;> cases named
      rw [shaped.operands_eq] at called
      rcases calls_node.1 called with ⟨_, isCall⟩ | ⟨_, member, _⟩
      · cases isCall
      · cases member
  | reduction => exact not_calls_reduction called

theorem not_calls_init (prefixable : p.Prefixable r id initial) : ¬ initial.value.Calls id :=
  fun called => prefixable.acyclic (.single (.inl ⟨initial, prefixable.defined, called⟩))

theorem not_calls (snapshot : p.Snapshot later id copy count) (prefixable : p.Prefixable r id initial)
    {e : Expr} (isPart : e ∈ (later.func copy).parts) : ¬ e.Calls id := by
  intro called
  rcases List.mem_append.1 isPart with inInit | inUpdates
  · rw [snapshot.mirrors.init, prefixable.defined] at inInit
    obtain rfl : e = initial.value := by simpa using inInit
    exact not_calls_init prefixable called
  · obtain ⟨u', isUpdate', isPart⟩ := List.mem_flatMap.1 inUpdates
    obtain ⟨u, isUpdate, sameArgs, mirrored⟩ :=
      forall₂_mem_left snapshot.mirrors.updates.flip isUpdate'
    have isUpdate := List.mem_of_mem_take isUpdate
    have update := mirroredUpdate prefixable isUpdate sameArgs mirrored
    rcases List.mem_append.1 isPart with inEnds | inRanges
    · rcases List.mem_cons.1 inEnds with rfl | isArg
      · obtain ⟨R, _, mirrored⟩ := mirrored
        have redirected := mirrored.redirected (prefixable.shaped u isUpdate _ (.head _))
        rcases redirected.calls called with ⟨_, other⟩ | ⟨same, _⟩
        · exact other rfl
        · exact snapshot.ne_copy prefixable same
      · rw [sameArgs] at isArg
        obtain ⟨name, named⟩ := prefixable.argument isUpdate isArg
        exact not_calls_variable (prefixable.shaped u isUpdate e (.tail _ isArg)) named id called
    · rw [update.ranges] at inRanges
      obtain ⟨entry, member, isBound⟩ := List.mem_flatMap.1 inRanges
      obtain ⟨freeLeast, freeExtent⟩ := update.bounds entry member
      rcases List.mem_cons.1 isBound with rfl | isExtent
      · exact freeLeast called
      · obtain rfl := List.mem_singleton.1 isExtent
        exact freeExtent called

theorem computes (snapshot : p.Snapshot later id copy count) (prefixable : p.Prefixable r id initial)
    (kernels : Kernels) (depth : Nat) (mins sizes : List Int) :
    Abreast ⟨later, kernels⟩ (Beside id copy False)
      (Realizer.computeUpTo (Realizer.readFrom (Realizer.realizeBox depth)) id count mins sizes)
      (Realizer.compute (Realizer.readFrom (Realizer.realizeBox depth)) copy mins sizes)
      (Same (Beside id copy False)) := by
  have isSelf := snapshot.func_self prefixable
  have isApart := snapshot.apart prefixable
  have readsApart {busy : Prop} {g : FuncId} (reached : p.Reaches id g) :
      ReadAbreast ⟨later, kernels⟩ (Beside id copy busy) id copy
        (Realizer.readFrom (Realizer.realizeBox depth))
        (Realizer.readFrom (Realizer.realizeBox depth)) g :=
    readApart_abreast isApart (fun g member => realizeBox_abreast isApart depth member) reached
  have run : Abreast ⟨later, kernels⟩ (Beside id copy False)
      (Realizer.computeUpTo (Realizer.readFrom (Realizer.realizeBox depth)) id count mins sizes)
      (Realizer.computeUpTo (Realizer.readFrom (Realizer.realizeBox depth)) (standIn id copy id)
        (later.func copy).updates.length mins sizes)
      (Same (Beside id copy False)) := by
    refine computeUpTo_abreast (snapshot.ne_copy prefixable) ?_ ?_
      (fun _ : True => .inr rfl) False.elim (fun initial' isInitial => ?_)
      (fun initial' isInitial callee called => ?_) (fun u isUpdate e isPart callee called => ?_)
    · rw [standIn_self, isSelf, snapshot.mirrors.init]
    · rw [standIn_self, isSelf, List.take_length]
      exact snapshot.mirroredUpdates prefixable
    · rw [isSelf, prefixable.defined] at isInitial
      obtain rfl := Option.some.inj isInitial
      exact not_calls_init prefixable
    · rw [isSelf] at isInitial
      exact readsApart (.single (.inl ⟨initial', isInitial, called⟩))
    · rw [isSelf] at isUpdate
      by_cases isId : callee = id
      · rw [isId]
        exact readBusy_abreast trivial (snapshot.ne_copy prefixable)
      · exact readsApart (.single (.inr ⟨u, isUpdate, e, isPart, called, isId⟩))
  rw [standIn_self] at run
  intro s s' beside
  have all : _ = (Realizer.compute (Realizer.readFrom (Realizer.realizeBox depth)) copy mins
      sizes).outcome ⟨later, kernels⟩ s' := Realizer.computeUpTo_all (Nat.le_refl _) s'
  rw [← all]
  exact run s s' beside

theorem after {α : Type} [Scalar α] (snapshot : p.Snapshot later id copy count)
    (prefixable : p.Prefixable r id initial) {reads : Reads α} {bump : Int → Grid α} {n : Nat}
    (within : n ≤ count) :
    (later.func copy).after copy reads bump n = (p.func id).after id reads bump n := by
  refine snapshot.mirrors.after prefixable.copyable.shaped (fun u isUpdate called => ?_) within
  rcases reads_of_part (Program.Prefixable.part isUpdate) called with same | read
  · exact snapshot.ne_copy prefixable same.symm
  · have isOld := prefixable.known _ _ read
    rw [snapshot.isNew] at isOld
    exact Nat.lt_irrefl _ isOld

theorem boxes (snapshot : p.Snapshot later id copy count) (prefixable : p.Prefixable r id initial)
    (kernels : Kernels) (depth : Nat) (mins sizes : List Int) :
    Abreast ⟨later, kernels⟩ (fun s s' => s' = s ∧ s.running = [] ∧ s.cache.lookup copy = none)
      (Realizer.freshUpTo (Realizer.readFrom (Realizer.realizeBox depth)) id count mins sizes)
      (Realizer.realizeBox (depth + 1) copy mins sizes) (fun region region' _ _ => region' = region) := by
  intro s s' at_rest
  obtain ⟨rfl, resting, unknown⟩ := at_rest
  rw [Realizer.outcome_realizeBox unknown]
  have beside : Beside id copy False s' s' := by
    refine ⟨fun g _ => ?_, fun g _ _ => rfl, False.elim⟩
    rw [resting]
    rfl
  refine Abreast.bind_read ?_ s' s' beside
  refine (Abreast.report fun _ _ _ _ beside => beside.withLog _ _).bind_same fun _ => ?_
  refine (snapshot.computes prefixable kernels depth mins sizes).bind_same fun region => ?_
  exact Abreast.bind (Q := fun _ _ _ _ => True) (.modify fun _ _ _ => trivial) fun _ _ =>
    .pure fun _ _ _ => rfl

theorem realizes (snapshot : p.Snapshot later id copy count) (prefixable : p.Prefixable r id initial)
    (kernels : Kernels) (sizes : List Int) (mins? : Option (List Int)) :
    Abreast ⟨later, kernels⟩ (fun s s' => s' = s ∧ s.running = [] ∧ s.cache.lookup copy = none)
      (Realizer.realizeUpTo id count sizes mins?) (Realizer.realize copy sizes mins?)
      (fun t t' _ _ => t' = t) := by
  have dimensions {f : Func} (isInitial : f.init = some initial) :
      f.dimensions = .ok initial.args.length := by
    simp [Func.dimensions, Func.args, Func.initial, isInitial, Except.map]
  have isInitial : (later.func id).init = some initial := by
    rw [snapshot.func_self prefixable, prefixable.defined]
  have isInitial' : (later.func copy).init = some initial := by
    rw [snapshot.mirrors.init, prefixable.defined]
  unfold Realizer.realizeUpTo Realizer.realize
  refine .bind_read ?_
  dsimp only
  rw [dimensions isInitial, dimensions isInitial']
  refine .bind_ok ?_
  split
  next => exact .throw
  next =>
    refine (snapshot.boxes prefixable kernels _ _ _).bind fun region region' => .pure ?_
    rintro _ _ rfl
    rfl

end Program.Snapshot

section

variable {α β : Type} {settings : Differentiation} {state : Accumulation} {p : Program}

theorem adjoint_get {rest : Accumulation → AdjointM β} :
    ((Accumulation.get >>= rest).run settings).run state = ((rest state).run settings).run state := rfl

theorem adjoint_bind {first : AdjointM α} {rest : α → AdjointM β} {a : α} {state' : Accumulation}
    {later : Program} (run : ((first.run settings).run state).run.run p = (.ok (a, state'), later)) :
    (((first >>= rest).run settings).run state).run.run p =
      (((rest a).run settings).run state').run.run later := by
  rw [ReaderT.run_bind, StateT.run_bind, ExceptT.run_bind, StateT.run_bind, run]
  rfl

theorem adjoint_lift {action : ProgramM α} {a : α} {later : Program}
    (run : action.run.run p = (.ok a, later)) :
    (((liftM action : AdjointM α).run settings).run state).run.run p = (.ok (a, state), later) := by
  change (action >>= fun a => pure (a, state)).run.run p = _
  rw [ExceptT.run_bind, StateT.run_bind, run]
  rfl

theorem stageSnapshot_run {args : List Expr} {name : String} {stage : Int} {id copy : FuncId}
    {later : Program} (named : state.funcs.lookup name = some id)
    (unknown : state.snapshots.find? ⟨name, stage⟩ = none)
    (run : (stageSnapshot.copy args name stage id).run.run p = (.ok copy, later)) :
    (((stageSnapshot args name stage).run settings).run state).run.run p =
      (.ok (copy, { state with snapshots := state.snapshots.insert ⟨name, stage⟩ copy }), later) := by
  have built : (((stageSnapshot.build args name stage).run settings).run state).run.run p =
      (.ok (copy, state), later) := by
    rw [stageSnapshot.build, adjoint_get, named]
    exact adjoint_lift run
  rw [stageSnapshot, adjoint_get, unknown]
  dsimp only
  rw [adjoint_bind built]
  rfl

end

/-- A snapshot is a prefix. For a function that calls itself in the values of its updates only, and for
each of its stages, the snapshot that is built is a new function of which no stage calls that function.
Over any box it is realized to what the function holds there once its updates up to that stage have run,
and it is not realized if they fail. -/
theorem snapshot_realizes_stage {p : Program} {r : Registry} {id : FuncId} {initial : Definition}
    (fits : r.Fits p.supply) (prefixable : p.Prefixable r id initial) {stage : Int}
    (atLeast : -1 ≤ stage) (within : stage < (p.func id).updates.length)
    {settings : Differentiation} {state : Accumulation}
    (named : state.funcs.lookup (p.func id).name = some id)
    (unknown : state.snapshots.find? ⟨(p.func id).name, stage⟩ = none) :
    ∃ copy later,
      (((stageSnapshot initial.args (p.func id).name stage).run settings).run state).run.run p =
        (.ok (copy, { state with
          snapshots := state.snapshots.insert ⟨(p.func id).name, stage⟩ copy }), later) ∧
      (∀ g, g < p.funcs.size → later.func g = p.func g) ∧
      (∀ e ∈ (later.func copy).parts, ¬ e.Calls id) ∧
      ∀ kernels sizes mins? s, s.running = [] → s.cache.lookup copy = none →
        ((Realizer.realize copy sizes mins?).outcome ⟨later, kernels⟩ s).1.toOption =
          ((Realizer.realizeUpTo id (stage + 1).toNat sizes mins?).outcome
            ⟨later, kernels⟩ s).1.toOption := by
  have count : (stage + 1).toNat ≤ (p.func id).updates.length := by omega
  obtain ⟨copy, later, _, run, _, _, isNew, kept, mirrors⟩ := copy_mirrors prefixable.copyable count fits
  have snapshot : p.Snapshot later id copy (stage + 1).toNat := ⟨isNew, kept, mirrors⟩
  refine ⟨copy, later, ?_, kept, fun e => snapshot.not_calls prefixable,
    fun kernels sizes mins? s resting unknown => ?_⟩
  · exact stageSnapshot_run named unknown run
  · have ends := snapshot.realizes prefixable kernels sizes mins? s s ⟨rfl, resting, unknown⟩
    generalize (Realizer.realize copy sizes mins?).outcome ⟨later, kernels⟩ s = outcome at ends ⊢
    generalize (Realizer.realizeUpTo id (stage + 1).toNat sizes mins?).outcome
      ⟨later, kernels⟩ s = outcome' at ends ⊢
    cases ends with
    | ok same => rw [same]
    | error => rfl

/-!
`f(x) = 2`, then `f(x) = f(x) + r` for `r` below an extent, then `f(x) = f(x) * g(x)`, where
`g(x) = x + 3`.
-/

namespace Raised

def x : Expr := .node 0 (.var "x" true) .int32 []

def two : Expr := .node 1 (.const (.int 2)) .int32 []

def zero : Expr := .node 2 (.const (.int 0)) .int32 []

def three : Expr := .node 3 (.const (.int 3)) .int32 []

def r (extent : Expr) : Expr := .reduction 4 "r" 0 zero extent

def readF : Expr := .node 5 (.call (.func 0 "f")) .int32 [x]

def sum (extent : Expr) : Expr := .node 6 (.binary .add) .int32 [readF, r extent]

def readG : Expr := .node 7 (.call (.func 1 "g")) .int32 [x]

def product : Expr := .node 8 (.binary .mul) .int32 [readF, readG]

def shifted : Expr := .node 9 (.binary .add) .int32 [x, three]

def own : Expr := .node 10 (.call (.func 0 "f")) .int32 [zero]

def program (extent : Expr) : Program :=
  { funcs := #[{ name := "f", init := some ⟨[x], two⟩,
                 updates := [⟨[x], sum extent⟩, ⟨[x], product⟩] },
      { name := "g", init := some ⟨[x], shifted⟩ }]
    supply := { nodes := 11 } }

def registry : Registry where
  node id := ([x, two, zero, three, r three, readF, sum three, readG, product, shifted][id]?).getD x
  next := 11
  names := 0

theorem update_cases {u : Definition} (isUpdate : u ∈ ((program three).func 0).updates) :
    u = ⟨[x], sum three⟩ ∨ u = ⟨[x], product⟩ := by
  simpa [program, Program.func] using isUpdate

theorem parts_func (id : FuncId) : ∀ e ∈ ((program three).func id).parts,
    id = 0 ∧ e ∈ [two, sum three, x, zero, three, product] ∨ id = 1 ∧ e = shifted := by
  rcases id with _ | _ | id
  · have parts : ((program three).func 0).parts =
        [two, sum three, x, zero, three, product, x] := rfl
    simp [parts]
  · have parts : ((program three).func 1).parts = [shifted] := rfl
    simp [parts]
  · have parts : ((program three).func (id + 2)).parts = [] := rfl
    simp [parts]

theorem wellBuilt : (program three).WellBuilt registry := by
  have arity (extent : Expr) : (program extent).arity 0 = 1 ∧ (program extent).arity 1 = 1 :=
    ⟨rfl, rfl⟩
  refine ⟨fun id e isPart => ?_, fun id e isPart => ?_⟩ <;>
    have known := parts_func id e isPart <;>
    simp only [List.mem_cons, List.not_mem_nil, or_false] at known <;>
    rcases known with ⟨_, rfl | rfl | rfl | rfl | rfl | rfl⟩ | ⟨_, rfl⟩
  all_goals
    simp [CallsFit, Registry.Holds, Registry.IsRegistered, registry, Expr.id, Expr.callee?,
      Expr.operands, arity, x, two, zero, three, r, readF, sum, readG, product, shifted]

theorem readBy {callee g : FuncId} (read : (program three).ReadBy callee g) : g = 0 ∧ callee = 1 := by
  have part : ∃ e ∈ ((program three).func g).parts, e.Calls callee ∧ (g = 0 → callee ≠ 0) := by
    rcases read with ⟨initial, isInitial, called⟩ | ⟨u, isUpdate, e, isPart, called, other⟩
    · refine ⟨_, Func.mem_parts_init isInitial, called, ?_⟩
      rintro rfl
      obtain rfl : (⟨[x], two⟩ : Definition) = initial := Option.some.inj isInitial
      simp [two, calls_node] at called
    · exact ⟨e, Func.mem_parts_update isUpdate isPart, called, fun same => same ▸ other⟩
  obtain ⟨e, isPart, called, other⟩ := part
  have known := parts_func g e isPart
  simp only [List.mem_cons, List.not_mem_nil, or_false] at known
  rcases known with ⟨rfl, rfl | rfl | rfl | rfl | rfl | rfl⟩ | ⟨rfl, rfl⟩ <;>
    simp [two, sum, readF, r, x, zero, three, product, readG, shifted, calls_node] at called other
  · exact absurd called.symm other
  · exact ⟨rfl, by tauto⟩

theorem prefixable : (program three).Prefixable registry 0 ⟨[x], two⟩ where
  wellBuilt := wellBuilt
  known g callee read := by
    obtain ⟨_, rfl⟩ := readBy read
    decide
  defined := rfl
  declared := by simp [x, Expr.isPureVariable]
  distinct := by simp
  shaped u isUpdate e member := by
    rcases update_cases isUpdate with rfl | rfl <;>
      simp only [List.mem_cons, List.not_mem_nil, or_false] at member <;>
      rcases member with rfl | rfl <;>
      simp [sum, product, readF, readG, r, x, shaped_node, shaped_reduction, Head.arity?]
  type u isUpdate := by
    rcases update_cases isUpdate with rfl | rfl <;> rfl
  writes u isUpdate := by
    rcases update_cases isUpdate with rfl | rfl <;> rfl
  callsAs u isUpdate := by
    intro node callee other type operands within
    have name : ((program three).func 0).name = "f" := rfl
    rcases update_cases isUpdate with rfl | rfl
    · obtain ⟨_, rfl, rfl, rfl, _⟩ : node = 5 ∧ callee = 0 ∧ other = "f" ∧ type = .int32 ∧
          operands = [x] := by
        simpa [sum, readF, r, x, subnode_node, subnode_reduction, and_assoc] using within
      exact ⟨iff_of_true rfl rfl, fun _ => rfl⟩
    · have call : (callee = 0 ∧ other = "f" ∨ callee = 1 ∧ other = "g") ∧ type = .int32 := by
        simp [product, readF, readG, x, subnode_node] at within
        tauto
      rcases call with ⟨⟨rfl, rfl⟩ | ⟨rfl, rfl⟩, rfl⟩
      · exact ⟨iff_of_true rfl rfl, fun _ => rfl⟩
      · simp [name]
  ranges u isUpdate entry member := by
    rcases update_cases isUpdate with rfl | rfl
    · have ranges : Realizer.reductionRanges ⟨[x], sum three⟩ = [("r.x", zero, three)] := rfl
      rw [ranges, List.mem_singleton] at member
      subst member
      simp [zero, three, calls_node]
    · have ranges : Realizer.reductionRanges ⟨[x], product⟩ = [] := rfl
      rw [ranges] at member
      cases member
  acyclic reached := by
    obtain ⟨_, first, _⟩ := Relation.TransGen.head'_iff.1 reached
    cases (readBy first).2

def settings : Differentiation := { rules := .standard }

def state : Accumulation := { funcs := [("f", 0), ("g", 1)] }

/-- The snapshot of `f` after its first update is what that update leaves. -/
theorem first_update_kept : ∃ copy later,
    (((stageSnapshot [x] "f" 0).run settings).run state).run.run (program three) =
      (.ok (copy, { state with snapshots := state.snapshots.insert ⟨"f", 0⟩ copy }), later) ∧
    (∀ e ∈ (later.func copy).parts, ¬ e.Calls 0) ∧
    ∀ sizes mins?, ((Realizer.realize copy sizes mins?).outcome ⟨later, .standard⟩ {}).1.toOption =
      ((Realizer.realizeUpTo 0 1 sizes mins?).outcome ⟨later, .standard⟩ {}).1.toOption := by
  obtain ⟨copy, later, run, _, free, realized⟩ := @snapshot_realizes_stage (program three) registry 0
    ⟨[x], two⟩ ⟨rfl, rfl⟩ prefixable 0 (by decide) (by decide) settings state rfl rfl
  exact ⟨copy, later, run, free, fun sizes mins? => realized .standard sizes mins? {} rfl rfl⟩

/-- What the first update of `f` leaves at `0`, and what the snapshot holds there. -/
def compared (extent : Expr) : Option Int × Option Int :=
  let (built, later) := (((stageSnapshot [x] "f" 0).run settings).run state).run.run (program extent)
  let first (t : Tensor) : Option Int := match t.data.toList with
    | [.int i] => some i
    | _ => none
  let held := ((Realizer.realizeUpTo 0 1 [1] none).outcome ⟨later, .standard⟩ {}).1.toOption
  let copied := built.toOption.bind fun answer =>
    ((Realizer.realize answer.1 [1] none).outcome ⟨later, .standard⟩ {}).1.toOption
  (held.bind first, copied.bind first)

example : compared three = (some 5, some 5) := by decide +kernel

/-- Where the extent calls `f`, the snapshot still reads all of `f` there. -/
example : compared own = (some 3, some 38) := by decide +kernel

end Raised

end ReverseMode
