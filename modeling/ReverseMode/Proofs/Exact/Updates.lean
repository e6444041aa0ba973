import ReverseMode.Proofs.Exact.Ranges

namespace ReverseMode

open Expr

noncomputable def Program.exactReads (p : Program) : Reads ℚ := p.values fun _ _ _ => 0

section

variable {α : Type} [Scalar α] {id : FuncId} {reads : Reads α} {bump : Int → Grid α}

theorem after_of_prefixed {f g : Func} (sameInit : g.init = f.init) (starts : f.updates <+: g.updates)
    {n : Nat} (within : n ≤ f.updates.length) :
    g.after id reads bump n = f.after id reads bump n := by
  have sameDeclared : g.declared = f.declared := by
    unfold Func.declared
    rw [sameInit]
  induction n with
  | zero =>
      unfold Func.after Func.initialGrid
      rw [sameInit, sameDeclared]
  | succ n ih =>
      have sameUpdate : g.updates[n]? = f.updates[n]? := by
        obtain ⟨more, isAppended⟩ := starts
        rw [← isAppended, List.getElem?_append_left (by omega)]
      unfold Func.after
      rw [ih (by omega), sameUpdate, sameDeclared]

end

section

variable {α : Type} [Scalar α] {reads : Reads α} {id : FuncId} {declared : List String}
  {update : Definition}

theorem runUpdate_once (noScope : update.scope = []) (before : Grid α) :
    runUpdate reads id declared update before = fun index =>
      exact (Reads.answers (Function.update reads id before)) (assign declared index zeroEnv) update.value := by
  unfold runUpdate
  rw [noScope]
  rfl

structure AddsTo (id : FuncId) (declared : List String) (update : Definition) (e : Expr) : Prop where
  value : ∃ node dtype call, update.value = .node node (.binary .add) dtype [call, e] ∧
    ∃ node' name dtype', call = .node node' (.call (.func id name)) dtype' update.args
  args : List.Forall₂ (fun a name => a.variableName? = some name) update.args declared
  other : ¬ e.Calls id

theorem ne_of_called {e : Expr} {callee : FuncId} (other : ¬ e.Calls id) (called : e.Calls callee) :
    callee ≠ id := by
  rintro rfl
  exact other called

theorem exact_variable {e : Expr} {name : String} (named : e.variableName? = some name)
    (answers : CallValues α) (env : Env) : exact answers env e = (env name : α) := by
  cases e with
  | node id head dtype operands =>
      cases head <;> cases named
      simp [headExact, Env.scalars]
  | reduction =>
      cases named
      simp

theorem AddsTo.map_args {e : Expr} (adds : AddsTo id declared update e) (answers : CallValues α)
    (env : Env) : update.args.map (wholePart ∘ exact answers env) = declared.map env := by
  rw [← List.forall₂_eq_eq_eq, List.forall₂_map_left_iff, List.forall₂_map_right_iff]
  refine adds.args.imp fun a name named => ?_
  rw [Function.comp_apply, exact_variable named, wholePart_intCast]

theorem runUpdate_points {e : Expr} (adds : AddsTo id declared update e) (distinct : declared.Nodup)
    (apart : ∀ name ∈ declared, name ∉ update.scope.names) (before : Grid α) {index : List Int}
    (sameLength : index.length = declared.length) :
    runUpdate reads id declared update before index = before index +
      (update.scope.points.map fun point => exact reads.answers
        (assign update.scope.names point (assign declared index zeroEnv)) e).sum := by
  obtain ⟨node, dtype, call, isSum, node', name, dtype', isCall⟩ := adds.value
  have step (values : Grid α) (point : List Int) :
      exact (Reads.answers (Function.update reads id values))
          (assign update.scope.names point (assign declared index zeroEnv)) update.value =
        values index +
          exact reads.answers (assign update.scope.names point (assign declared index zeroEnv)) e := by
    have otherReads : exact (Reads.answers (Function.update reads id values))
          (assign update.scope.names point (assign declared index zeroEnv)) e =
        exact reads.answers (assign update.scope.names point (assign declared index zeroEnv)) e := by
      refine exact_congr_reads e (fun _ _ => rfl) fun callee called => ?_
      exact Function.update_of_ne (ne_of_called adds.other called) _ _
    have here : declared.map (assign update.scope.names point (assign declared index zeroEnv)) =
        index := by
      rw [List.map_congr_left fun name member => assign_other (apart name member)]
      exact map_assign distinct sameLength
    have arguments := adds.map_args (Reads.answers (Function.update reads id values))
      (assign update.scope.names point (assign declared index zeroEnv))
    rw [isSum, isCall, exact_node (by simp)]
    simp only [List.map_cons, List.map_nil, headExact, BinaryOp.exact, otherReads]
    rw [exact_node (by simp)]
    simp only [headExact, Reads.answers, Function.update_self, List.map_map, Function.comp_def,
      wholePart_standard] at arguments ⊢
    rw [arguments, here]
  unfold runUpdate
  generalize update.scope.points = points
  induction points generalizing before with
  | nil => simp
  | cons point rest ih =>
      rw [List.foldl_cons, ih, List.map_cons, List.sum_cons, ← add_assoc, step]

theorem runUpdate_add {reads : Reads ℚ} {e : Expr} (adds : AddsTo id declared update e)
    (distinct : declared.Nodup) (apart : ∀ name ∈ declared, name ∉ update.scope.names)
    (before : Grid ℚ) {index : List Int} (sameLength : index.length = declared.length) :
    runUpdate reads id declared update before index = before index +
      sumOver (fun env => exact reads.answers env e) update.scope (assign declared index zeroEnv) := by
  rw [runUpdate_points adds distinct apart before sameLength, ← sum_points update.nodup_scope]

theorem exactReads_initial {p : Program} {d : Definition} (grounded : p.Grounded id)
    (isInitial : (p.func id).init = some d) (noUpdates : (p.func id).updates = []) (index : List Int) :
    p.exactReads id index =
      exact p.exactReads.answers (assign (p.func id).declared index zeroEnv) d.value := by
  have computed : p.exactReads id = (p.func id).after id p.exactReads (fun _ _ => 0)
      (p.func id).updates.length := grounded.values_eq fun _ _ _ => 0
  rw [computed, noUpdates]
  change (p.func id).initialGrid p.exactReads index + 0 = _
  rw [Func.initialGrid, isInitial, add_zero]

theorem exactReads_update {p p' : Program} {id : FuncId} {update : Definition}
    (grounded : p.Grounded id) (grounded' : p'.Grounded id)
    (updated : p'.func id = { p.func id with updates := (p.func id).updates ++ [update] })
    (same : ∀ callee, (p.func id).Needs id callee → p'.exactReads callee = p.exactReads callee) :
    p'.exactReads id =
      runUpdate p'.exactReads id (p.func id).declared update (p.exactReads id) := by
  have before : (p.func id).after id p'.exactReads (fun _ _ => 0) (p.func id).updates.length =
      p.exactReads id := by
    rw [after_congr same]
    exact (grounded.values_eq fun _ _ _ => 0).symm
  have sameDeclared : (p'.func id).declared = (p.func id).declared := by
    rw [updated]
    rfl
  have isLast : (p'.func id).updates[(p.func id).updates.length]? = some update := by
    rw [updated]
    simp
  have computed : p'.exactReads id = (p'.func id).after id p'.exactReads (fun _ _ => 0)
      (p'.func id).updates.length := grounded'.values_eq fun _ _ _ => 0
  have length : (p'.func id).updates.length = (p.func id).updates.length + 1 := by
    rw [updated]
    simp
  rw [computed, length, Func.after, isLast, sameDeclared]
  dsimp only
  rw [after_of_prefixed (f := p.func id) (by rw [updated]) (by rw [updated]; exact List.prefix_append _ _)
    le_rfl, before]
  funext index
  exact add_zero _

end

end ReverseMode
