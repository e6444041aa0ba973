import ReverseMode.Derivative.Scatter
import ReverseMode.Proofs.Exact.Ranges
import ReverseMode.Proofs.Exact.Updates
import ReverseMode.Proofs.Program.Mirroring

namespace ReverseMode

open Expr

structure Copies (id copy : FuncId) (f g : Func) (updates : Nat) : Prop where
  init : g.init = f.init
  updates : List.Forall₂ (fun u u' => u'.args = u.args ∧ Redirected id copy u.value u'.value)
    (f.updates.take updates) g.updates

theorem snapshotName_ne_empty (name : String) (stage : Int) : s!"{name}_s{stage + 1}" ≠ "" := by
  intro isEmpty
  simp [toString] at isEmpty

theorem runUpdate_redirected {α : Type} [Scalar α] {id copy : FuncId} {reads : Reads α}
    {declared : List String} {u u' : Definition} (redirected : Redirected id copy u.value u'.value)
    (sameScope : u'.scope = u.scope) (fresh : ¬ u.value.Calls copy) (before : Grid α) :
    runUpdate reads copy declared u' before = runUpdate reads id declared u before := by
  unfold runUpdate
  rw [sameScope]
  refine congrArg (fun step => u.scope.points.foldl step before) ?_
  funext values point index
  rw [redirected.exact]
  refine exact_congr_reads _ (fun _ _ => rfl) fun callee called => ?_
  have notCopy : callee ≠ copy := ne_of_called fresh called
  by_cases isSelf : callee = id
  · rw [isSelf, Function.update_self, Function.update_self, Function.update_self]
  · rw [Function.update_of_ne isSelf, Function.update_of_ne isSelf, Function.update_of_ne notCopy]

theorem after_copies {α : Type} [Scalar α] {id copy : FuncId} {f g : Func} {reads : Reads α}
    {bump : Int → Grid α} {updates n : Nat} (copies : Copies id copy f g updates)
    (sameScopes : List.Forall₂ (fun u u' : Definition => u'.scope = u.scope)
      (f.updates.take updates) g.updates)
    (fresh : ∀ u ∈ f.updates, ¬ u.value.Calls copy) (within : n ≤ updates) :
    g.after copy reads bump n = f.after id reads bump n := by
  have sameDeclared : g.declared = f.declared := by
    unfold Func.declared
    rw [copies.init]
  induction n with
  | zero =>
      unfold Func.after Func.initialGrid
      rw [copies.init, sameDeclared]
  | succ n ih =>
      unfold Func.after
      rw [ih (by omega), sameDeclared]
      have taken : (f.updates.take updates)[n]? = f.updates[n]? := by
        rw [List.getElem?_take_of_lt (by omega)]
      cases found : f.updates[n]? with
      | none =>
          rw [found] at taken
          have beyond := List.getElem?_eq_none_iff.1 taken
          rw [copies.updates.length_eq] at beyond
          rw [List.getElem?_eq_none_iff.2 beyond]
      | some u =>
          rw [found] at taken
          obtain ⟨below, isU⟩ := List.getElem?_eq_some_iff.1 taken
          have below' : n < g.updates.length := by rwa [← copies.updates.length_eq]
          have related := copies.updates.get below below'
          have sameScope := sameScopes.get below below'
          simp only [List.get_eq_getElem, isU] at related sameScope
          rw [List.getElem?_eq_getElem below']
          dsimp only
          rw [runUpdate_redirected related.2 sameScope (fresh u (List.mem_of_getElem? found))]

theorem Succeeds.define_update {r : Registry} {program : Program} {id : FuncId} {args : List Expr}
    {value : Expr} {initial : Definition} (defined : (program.func id).init = some initial)
    (sameType : value.dtype = initial.value.dtype) (fitting : args.length = initial.args.length) :
    Succeeds (define id args value) r program fun later left _ => later = r ∧
      left.funcs = program.funcs.setIfInBounds id
        { program.func id with updates := (program.func id).updates ++ [⟨args, value⟩] } := by
  unfold define
  refine bind getFunc fun r0 p0 f _ answer => ?_
  obtain ⟨sameR, sameP, sameF⟩ := answer
  subst sameR sameP sameF
  rw [defined]
  dsimp only
  rw [if_neg (not_not.2 fitting), pure_bind, if_pos sameType, ← defined]
  exact setFunc

structure MirrorsUpTo (id copy : FuncId) (f g : Func) (count : Nat) : Prop where
  init : g.init = f.init
  updates : List.Forall₂ (fun u u' => u'.args = u.args ∧
    ∃ R, Relator.BiUnique R ∧ Mirrored id copy R u.value u'.value) (f.updates.take count) g.updates

theorem reductionRanges_mirrored {id copy : FuncId} {R : NodeId → NodeId → Prop} {u u' : Definition}
    (sameArgs : u'.args = u.args) (mirrored : Mirrored id copy R u.value u'.value) :
    Realizer.reductionRanges u' = Realizer.reductionRanges u := by
  rw [Realizer.reductionRanges_eq, Realizer.reductionRanges_eq, sameArgs, List.flatMap_append,
    List.flatMap_append, List.flatMap_singleton, List.flatMap_singleton, mirrored.freeVariables]

theorem MirrorsUpTo.after {α : Type} [Scalar α] {id copy : FuncId} {f g : Func} {count n : Nat}
    (mirrors : MirrorsUpTo id copy f g count) (shaped : ∀ u ∈ f.updates, Shaped u.value)
    (fresh : ∀ u ∈ f.updates, ¬ u.value.Calls copy) {reads : Reads α} {bump : Int → Grid α}
    (within : n ≤ count) : g.after copy reads bump n = f.after id reads bump n := by
  refine after_copies ⟨mirrors.init, forall₂_imp_mem mirrors.updates fun u isUpdate _ _ related => ?_⟩
    (forall₂_imp_mem mirrors.updates fun u _ _ _ related => ?_) fresh within
  · obtain ⟨sameArgs, R, _, mirrored⟩ := related
    exact ⟨sameArgs, mirrored.redirected (shaped u (List.mem_of_mem_take isUpdate))⟩
  · obtain ⟨sameArgs, R, _, mirrored⟩ := related
    unfold Definition.scope
    rw [reductionRanges_mirrored sameArgs mirrored]

theorem definition_eq_ok {f : Func} {initial d : Definition} {stage : Nat}
    (isInitial : f.init = some initial) (isUpdate : f.updates[stage]? = some d) :
    f.definition stage = .ok d := by
  have notInitial : (stage : Int) ≠ -1 := by omega
  have atLeast : (0 : Int) ≤ stage := by omega
  simp [Func.definition, Func.initial, isInitial, notInitial, atLeast, isUpdate, bind, Except.bind, pure,
    Except.pure]

structure Program.Copyable (p : Program) (r : Registry) (id : FuncId) (initial : Definition) : Prop where
  defined : (p.func id).init = some initial
  declared : ∀ a ∈ initial.args, a.isPureVariable = true
  distinct : (initial.args.map Expr.name).Nodup
  held : ∀ u ∈ (p.func id).updates, r.Holds u.value
  shaped : ∀ u ∈ (p.func id).updates, Shaped u.value
  type : ∀ u ∈ (p.func id).updates, u.value.dtype = initial.value.dtype
  fitting : ∀ u ∈ (p.func id).updates, u.args.length = initial.args.length
  callsAs : ∀ u ∈ (p.func id).updates, CallsAs (p.func id).name id initial.value.dtype u.value
  callsWith : ∀ u ∈ (p.func id).updates, CallsWith id initial.args.length u.value

section

variable {r base : Registry} {p : Program} {id copy : FuncId} {initial : Definition}

theorem copyUpdates_mirrors (copyable : p.Copyable base id initial) {p' : Program}
    {first count : Nat} (extended : base.Extends r) (source : p'.func id = p.func id)
    (within : first + count ≤ (p.func id).updates.length) (below : copy < p'.funcs.size)
    (other : id ≠ copy) (mirrors : MirrorsUpTo id copy (p.func id) (p'.func copy) first) :
    Succeeds (stageSnapshot.copyUpdates (p.func id).name id copy (List.range' first count)) r p'
      fun _ left _ => MirrorsUpTo id copy (p.func id) (left.func copy) (first + count) ∧
        left.funcs.size = p'.funcs.size ∧ ∀ x, x ≠ copy → left.func x = p'.func x := by
  induction count generalizing r p' first with
  | zero => exact Succeeds.pure ⟨mirrors, rfl, fun _ _ => rfl⟩
  | succ count ih =>
      rw [List.range'_succ]
      unfold stageSnapshot.copyUpdates
      obtain ⟨d, found⟩ : ∃ d, (p.func id).updates[first]? = some d :=
        ⟨_, List.getElem?_eq_getElem (by omega)⟩
      have member := List.mem_of_getElem? found
      refine Succeeds.bind Succeeds.getFunc fun r0 p0 f ext0 answer => ?_
      obtain ⟨sameR, sameP, sameF⟩ := answer
      subst sameR sameP sameF
      rw [source]
      refine Succeeds.bind (Succeeds.ofExcept (definition_eq_ok copyable.defined found))
        fun r0 p0 d' _ answer => ?_
      obtain ⟨sameR, sameP, sameD⟩ := answer
      subst sameR sameP sameD
      have copyInit : (p0.func copy).init = some initial := mirrors.init.trans copyable.defined
      refine Succeeds.bind (replaceCalls_mirrors (copyable.shaped d' member)
        (copyable.callsAs d' member) (copyable.callsWith d' member)
        ((copyable.held d' member).extend extended) copyInit)
        fun r1 p1 value ext1 answer => ?_
      obtain ⟨same1, heldValue, R, biUnique, mirrored⟩ := answer
      have copyInit1 : (p1.func copy).init = some initial := by
        rw [func_eq_of_funcs same1, copyInit]
      refine Succeeds.bind (Succeeds.define_update copyInit1
        (mirrored.dtype.trans (copyable.type d' member)) (copyable.fitting d' member))
        fun r2 p2 _ ext2 answer => ?_
      obtain ⟨_, defined2⟩ := answer
      obtain ⟨isUpdated, unchanged⟩ := func_set (by rw [same1]; exact below) defined2
      rw [func_eq_of_funcs same1] at isUpdated
      have unchanged' (x : FuncId) (different : x ≠ copy) : p2.func x = p0.func x := by
        rw [unchanged x different, func_eq_of_funcs same1]
      have size2 : p2.funcs.size = p0.funcs.size := by rw [size_set defined2, same1]
      have mirrors2 : MirrorsUpTo id copy (p.func id) (p2.func copy) (first + 1) := by
        rw [isUpdated]
        refine ⟨mirrors.init, ?_⟩
        rw [List.take_add_one, found]
        exact List.rel_append mirrors.updates (.cons ⟨rfl, R, biUnique, mirrored⟩ .nil)
      refine (ih (extended.trans (ext1.trans ext2)) ((unchanged' id other).trans source) (by omega)
        (by rw [size2]; exact below) mirrors2).mono fun r3 p3 _ _ answer => ?_
      obtain ⟨mirrors3, size3, others3⟩ := answer
      exact ⟨by rwa [Nat.add_right_comm, Nat.add_assoc] at mirrors3, size3.trans size2,
        fun x different => (others3 x different).trans (unchanged' x different)⟩

theorem copy_mirrors {stage : Int} (copyable : p.Copyable r id initial)
    (within : (stage + 1).toNat ≤ (p.func id).updates.length) :
    Succeeds (stageSnapshot.copy initial.args (p.func id).name stage id) r p fun _ left copy =>
      copy = p.funcs.size ∧ (∀ x, x < p.funcs.size → left.func x = p.func x) ∧
        MirrorsUpTo id copy (p.func id) (left.func copy) (stage + 1).toNat := by
  have below : id < p.funcs.size := below_of_defined copyable.defined
  unfold stageSnapshot.copy
  refine Succeeds.bind (Succeeds.declareFunc (snapshotName_ne_empty _ _))
    fun r1 p1 copy ext1 answer => ?_
  obtain ⟨sameR, isNew, pushed⟩ := answer
  subst sameR
  obtain ⟨isFresh, others⟩ := func_push pushed
  refine Succeeds.bind Succeeds.getFunc fun r0 p0 f _ answer => ?_
  obtain ⟨sameR, sameP, sameF⟩ := answer
  subst sameR sameP sameF
  rw [others id below]
  have isInitial : (p.func id).definition (-1) = .ok initial := by
    simp [Func.definition, Func.initial, copyable.defined, bind, Except.bind, pure, Except.pure]
  refine Succeeds.bind (Succeeds.ofExcept isInitial) fun r0 p0' d _ answer => ?_
  obtain ⟨sameR, sameP, sameD⟩ := answer
  subst sameR sameP sameD
  rw [← isNew] at isFresh
  refine Succeeds.bind (Succeeds.define_initial (by rw [isFresh]) copyable.declared
    copyable.distinct) fun r2 p2 _ ext2 answer => ?_
  obtain ⟨sameR, defined⟩ := answer
  subst sameR
  have below1 : copy < p0'.funcs.size := by
    rw [isNew, size_push pushed]
    exact Nat.lt_succ_self _
  obtain ⟨isDefined, unchanged⟩ := func_set below1 defined
  have different {x : FuncId} (old : x < p.funcs.size) : x ≠ copy := by
    rw [isNew]
    exact Nat.ne_of_lt old
  have kept (x : FuncId) (old : x < p.funcs.size) : p2.func x = p.func x := by
    rw [unchanged x (different old), others x old]
  have mirrors : MirrorsUpTo id copy (p.func id) (p2.func copy) 0 := by
    rw [isDefined, isFresh]
    exact ⟨copyable.defined.symm, .nil⟩
  rw [List.range_eq_range']
  refine Succeeds.bind (copyUpdates_mirrors copyable (.refl _) (kept id below) (by omega)
    (by rw [size_set defined]; exact below1) (different below) mirrors)
    fun r3 p3 _ ext3 answer => ?_
  obtain ⟨mirrors3, _, others3⟩ := answer
  refine Succeeds.pure ⟨isNew, fun x old => ?_, by rwa [Nat.zero_add] at mirrors3⟩
  rw [others3 x (different old), kept x old]

end

end ReverseMode
