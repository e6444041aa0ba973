import ReverseMode.Proofs.Realize.Evaluation

namespace ReverseMode

open Expr

/-- What functions answer at coordinates as long as nothing that is read changes. -/
abbrev Readings := FuncId → List Nat → List Tensor → Except Fault Tensor

namespace Readings

def reader (readings : Readings) : FuncReader := fun id shape coordinates =>
  liftM (readings id shape coordinates)

def apply (readings : Readings) (setting : Realization) (head : Head) (dtype : DType)
    (operands : List Tensor) : Except Fault Tensor :=
  ((Eval.headValue readings.reader head dtype operands).outcome setting {}).1

end Readings

abbrev Bindings := String → Except Fault Tensor

namespace Expr

variable (setting : Realization) (readings : Readings)

mutual

/-- The value of the tree that an expression unfolds to. -/
def treeValue (bindings : Bindings) : Expr → Except Fault Tensor
  | node _ (.const c) dtype _ => Eval.constant dtype c
  | node _ (.var name _) _ _ => bindings name
  | reduction _ domain axis _ _ => bindings (axisName domain axis)
  | node _ (.letIn name) _ (value :: body :: _) => do
      let bound ← treeValue bindings value
      treeValue (Function.update bindings name (.ok bound)) body
  | node _ .cast dtype (x :: _) => do
      let value ← treeValue bindings x
      readings.apply setting .cast dtype [value]
  | node _ (.other kind) dtype _ => readings.apply setting (.other kind) dtype []
  | node _ head dtype operands => do
      let values ← treeValues bindings operands
      readings.apply setting head dtype values

def treeValues (bindings : Bindings) : List Expr → Except Fault (List Tensor)
  | [] => .ok []
  | e :: rest => do
      let first ← treeValue bindings e
      let others ← treeValues bindings rest
      return first :: others

end

end Expr

theorem RealizeM.outcome_liftM {α : Type} {setting : Realization} {result : Except Fault α}
    {s : Realizer} : (liftM result : RealizeM α).outcome setting s = (result, s) := by
  cases result <;> rfl

/-- From every state with `P` the action fails as is expected, or its answer and the expected one are
related. `P` holds afterwards, be it a failure or not. -/
def RunsAs {α β : Type} (setting : Realization) (P : Realizer → Prop) (action : RealizeM α)
    (expected : Except Fault β) (Q : α → β → Prop) : Prop :=
  ∀ s, P s → P (action.outcome setting s).2 ∧
    match (action.outcome setting s).1, expected with
    | .ok a, .ok b => Q a b
    | .error fault, .error fault' => fault = fault'
    | _, _ => False

namespace RunsAs

variable {α β γ δ : Type} {setting : Realization} {P : Realizer → Prop} {expected : Except Fault β}
  {Q : α → β → Prop}

theorem pure {a : α} {b : β} (related : Q a b) :
    RunsAs setting P (Pure.pure a : RealizeM α) (.ok b) Q := fun _ before => ⟨before, related⟩

theorem ofExcept {result : Except Fault α} :
    RunsAs setting P (liftM result : RealizeM α) result Eq := by
  intro s before
  rw [RealizeM.outcome_liftM]
  cases result with
  | ok a => exact ⟨before, rfl⟩
  | error fault => exact ⟨before, rfl⟩

theorem throw {fault : Fault} :
    RunsAs setting P (MonadExcept.throw fault : RealizeM α) (.error fault : Except Fault β) Q :=
  fun _ before => ⟨before, rfl⟩

theorem throw_bind {fault : Fault} {rest : γ → RealizeM α} :
    RunsAs setting P ((MonadExcept.throw fault : RealizeM γ) >>= rest)
      (.error fault : Except Fault β) Q :=
  fun _ before => ⟨before, rfl⟩

theorem bind {action : RealizeM α} {rest : α → RealizeM γ} {rest' : β → Except Fault δ}
    {R : γ → δ → Prop} (first : RunsAs setting P action expected Q)
    (second : ∀ a b, expected = .ok b → Q a b → RunsAs setting P (rest a) (rest' b) R) :
    RunsAs setting P (action >>= rest) (expected >>= rest') R := by
  intro s before
  obtain ⟨after, same⟩ := first s before
  rw [RealizeM.outcome_bind]
  generalize action.outcome setting s = outcome at after same ⊢
  obtain ⟨result, left⟩ := outcome
  cases result with
  | ok a =>
      cases expected with
      | ok b => exact second a b rfl same left after
      | error fault => exact same.elim
  | error fault =>
      cases expected with
      | ok b => exact same.elim
      | error fault' => exact ⟨after, same⟩

theorem bind_read {rest : Realization → RealizeM α}
    (second : RunsAs setting P (rest setting) expected Q) :
    RunsAs setting P (readThe Realization >>= rest) expected Q := second

theorem bind_get {rest : Realizer → RealizeM α}
    (second : ∀ s, P s → RunsAs setting P (rest s) expected Q) :
    RunsAs setting P (getThe Realizer >>= rest) expected Q := fun s before => second s before s before

theorem bind_reads {rest : Realization → RealizeM α} {rest' : Realization → RealizeM β}
    (second : RunsAs setting P (rest setting) ((rest' setting).outcome setting {}).1 Q) :
    RunsAs setting P (readThe Realization >>= rest)
      ((readThe Realization >>= rest').outcome setting {}).1 Q := second

theorem bind_except {result : Except Fault γ} {rest : γ → RealizeM α} {rest' : γ → RealizeM β}
    (second : ∀ a, RunsAs setting P (rest a) ((rest' a).outcome setting {}).1 Q) :
    RunsAs setting P (liftM result >>= rest)
      ((liftM result >>= rest' : RealizeM β).outcome setting {}).1 Q := by
  cases result with
  | ok a => exact second a
  | error fault => exact throw

theorem mono {action : RealizeM α} {Q' : α → β → Prop} (run : RunsAs setting P action expected Q)
    (implies : ∀ a b, Q a b → Q' a b) : RunsAs setting P action expected Q' := by
  intro s before
  obtain ⟨after, same⟩ := run s before
  refine ⟨after, ?_⟩
  split at same
  · exact implies _ _ same
  · exact same
  · exact same.elim

theorem result_eq {action : RealizeM α} {expected : Except Fault α}
    (run : RunsAs setting P action expected Eq) {s : Realizer} (before : P s) :
    (action.outcome setting s).1 = expected := by
  obtain ⟨_, same⟩ := run s before
  split at same
  next isAnswer => exact isAnswer.trans (congrArg Except.ok same)
  next isFault => exact isFault.trans (congrArg Except.error same)
  next => exact same.elim

theorem lift {action : RealizeM α} {memo : EvalMemo} {R : α × EvalMemo → β → Prop}
    (run : RunsAs setting P action expected fun a => R (a, memo)) :
    RunsAs setting P ((liftM action : EvalM α).run memo) expected R := by
  rw [← bind_pure expected]
  exact run.bind fun _ _ _ related => pure related

end RunsAs

section

variable {setting : Realization} {P : Realizer → Prop} {readings : Readings} {reader : FuncReader}

def IsReadAs (setting : Realization) (P : Realizer → Prop) (reader : FuncReader) (readings : Readings)
    (id : FuncId) : Prop :=
  ∀ shape coordinates,
    RunsAs setting P (reader id shape coordinates) (readings id shape coordinates) Eq

theorem callValue_runsAs {callee : Callee} {args : List Tensor}
    (reads : ∀ id name, callee = .func id name → IsReadAs setting P reader readings id) :
    RunsAs setting P (Eval.callValue reader callee args)
      ((Eval.callValue readings.reader callee args).outcome setting {}).1 Eq := by
  unfold Eval.callValue
  cases callee with
  | primitive name =>
      refine .bind_reads ?_
      cases setting.kernels.find? name with
      | none => exact .throw
      | some kernel =>
          rw [RealizeM.outcome_liftM]
          exact .ofExcept
  | image source =>
      refine .bind_except fun out => ?_
      rw [RealizeM.outcome_liftM]
      exact .ofExcept
  | func id name =>
      refine .bind_except fun out => ?_
      have answered : ((readings.reader id out.1
          (out.2.map (Tensor.convert .int64))).outcome setting {}).1 = readings id out.1 _ :=
        congrArg Prod.fst RealizeM.outcome_liftM
      rw [answered]
      exact reads id name rfl _ _

theorem headValue_runsAs {head : Head} {dtype : DType} {operands : List Tensor}
    (reads : ∀ id name, head = .call (.func id name) → IsReadAs setting P reader readings id) :
    RunsAs setting P (Eval.headValue reader head dtype operands)
      (readings.apply setting head dtype operands) Eq := by
  unfold Readings.apply Eval.headValue
  split
  next => exact .pure rfl
  next => exact .throw
  next =>
    rw [RealizeM.outcome_liftM]
    exact .ofExcept
  next => exact .throw
  next =>
    rw [RealizeM.outcome_liftM]
    exact .ofExcept
  next => exact .throw
  next => exact callValue_runsAs fun id name isCallee => reads id name (by rw [isCallee])
  next => exact .throw
  next =>
    rw [RealizeM.outcome_liftM]
    exact .ofExcept
  next => exact .throw
  next => split <;> exact .throw

def RemembersTrees (setting : Realization) (readings : Readings) (r : Registry) (env : Environment)
    (memo : EvalMemo) : Prop :=
  ∀ (i : NodeId) (t : Tensor), memo[i]? = some t →
    treeValue setting readings (Eval.lookUp env) (r.node i) = .ok t

variable {r : Registry}

theorem remembersTrees_empty (env : Environment) : RemembersTrees setting readings r env {} := by
  intro i t known
  rw [Std.TreeMap.getElem?_emptyc] at known
  cases known

theorem RemembersTrees.insert {env : Environment} {memo : EvalMemo} {e : Expr} {t : Tensor}
    (remembers : RemembersTrees setting readings r env memo) (held : r.Holds e)
    (value : treeValue setting readings (Eval.lookUp env) e = .ok t) :
    RemembersTrees setting readings r env (memo.insert e.id t) := by
  intro i t' known
  rw [Std.TreeMap.getElem?_insert] at known
  split at known
  next same =>
    cases known
    rwa [← Std.LawfulEqOrd.eq_of_compare same, held.here.2]
  next => exact remembers i t' known

def EvaluatesAs (setting : Realization) (P : Realizer → Prop) (readings : Readings)
    (reader : FuncReader) (r : Registry) (e : Expr) : Prop :=
  ∀ env memo, RemembersTrees setting readings r env memo →
    RunsAs setting P ((e.eval reader env).run memo) (treeValue setting readings (Eval.lookUp env) e)
      fun out t => out.1 = t ∧ RemembersTrees setting readings r env out.2

theorem remembered_runsAs {env : Environment} {memo : EvalMemo} {e : Expr} {compute : EvalM Tensor}
    (held : r.Holds e) (remembers : RemembersTrees setting readings r env memo)
    (computed : RunsAs setting P (compute.run memo)
      (treeValue setting readings (Eval.lookUp env) e) fun out t =>
        out.1 = t ∧ RemembersTrees setting readings r env out.2) :
    RunsAs setting P ((Eval.remembered e.id compute).run memo)
      (treeValue setting readings (Eval.lookUp env) e) fun out t =>
        out.1 = t ∧ RemembersTrees setting readings r env out.2 := by
  cases known : memo[e.id]? with
  | some t =>
      have value := remembers _ _ known
      rw [held.here.2] at value
      rw [remembered_known known, value]
      exact .pure ⟨rfl, remembers⟩
  | none =>
      rw [remembered_new known, ← bind_pure (treeValue setting readings (Eval.lookUp env) e)]
      refine computed.bind fun out t isValue related => .pure ⟨related.1, ?_⟩
      exact related.2.insert held (related.1 ▸ isValue)

theorem evalAll_runsAs {env : Environment} {es : List Expr} {memo : EvalMemo}
    (each : ∀ e ∈ es, EvaluatesAs setting P readings reader r e)
    (remembers : RemembersTrees setting readings r env memo) :
    RunsAs setting P ((evalAll reader env es).run memo)
      (treeValues setting readings (Eval.lookUp env) es) fun out ts =>
        out.1 = ts ∧ RemembersTrees setting readings r env out.2 := by
  induction es generalizing memo with
  | nil => exact .pure ⟨rfl, remembers⟩
  | cons e rest ih =>
      rw [evalAll, treeValues, StateT.run_bind]
      refine (each e (.head _) env memo remembers).bind ?_
      rintro ⟨_, later⟩ t _ ⟨rfl, remembersLater⟩
      dsimp only
      rw [StateT.run_bind]
      refine (ih (fun x member => each x (.tail _ member)) remembersLater).bind ?_
      rintro ⟨_, last⟩ ts _ ⟨rfl, remembersLast⟩
      exact .pure ⟨rfl, remembersLast⟩

theorem node_runsAs {env : Environment} {memo : EvalMemo} {head : Head} {dtype : DType}
    {operands : List Tensor}
    (reads : ∀ id name, head = .call (.func id name) → IsReadAs setting P reader readings id)
    (remembers : RemembersTrees setting readings r env memo) :
    RunsAs setting P
      ((liftM (Eval.headValue reader head dtype operands) : EvalM Tensor).run memo)
      (readings.apply setting head dtype operands) fun out t =>
        out.1 = t ∧ RemembersTrees setting readings r env out.2 :=
  .lift ((headValue_runsAs reads).mono fun _ _ same => ⟨same, remembers⟩)

theorem leaf_runsAs {env : Environment} {memo : EvalMemo} {result : Except Fault Tensor}
    (remembers : RemembersTrees setting readings r env memo) :
    RunsAs setting P ((liftM (liftM result : RealizeM Tensor) : EvalM Tensor).run memo) result
      fun out t => out.1 = t ∧ RemembersTrees setting readings r env out.2 :=
  .lift (RunsAs.ofExcept.mono fun _ _ same => ⟨same, remembers⟩)

theorem lookUp_cons (name : String) (bound : Tensor) (env : Environment) :
    Eval.lookUp ((name, bound) :: env) = Function.update (Eval.lookUp env) name (.ok bound) := by
  funext other
  unfold Eval.lookUp
  rw [List.lookup_cons]
  by_cases same : other = name
  · simp [same]
  · rw [beq_eq_false_iff_ne.2 same, Function.update_of_ne same]

theorem eval_runsAs {e : Expr} (held : r.Holds e)
    (reads : ∀ id, e.Calls id → IsReadAs setting P reader readings id) :
    EvaluatesAs setting P readings reader r e := by
  induction e using Expr.induction with
  | node id head dtype operands ih =>
      have operand (x : Expr) (member : x ∈ operands) : EvaluatesAs setting P readings reader r x :=
        ih x member (held.operands x member) fun callee called =>
          reads callee (calls_node.2 (.inr ⟨x, member, called⟩))
      have here : ∀ callee name, head = .call (.func callee name) →
          IsReadAs setting P reader readings callee :=
        fun callee name isCall => reads callee (calls_node.2 (.inl ⟨name, isCall⟩))
      intro env memo remembers
      unfold Expr.eval
      split
      next isNode =>
        cases isNode
        rw [treeValue]
        exact leaf_runsAs remembers
      next isNode =>
        cases isNode
        rw [treeValue]
        exact leaf_runsAs remembers
      next isNode => cases isNode
      next name _ value body rest isNode =>
        cases isNode
        refine remembered_runsAs held remembers ?_
        rw [treeValue, StateT.run_bind]
        refine (operand value (.head _) env memo remembers).bind ?_
        rintro ⟨bound, later⟩ _ _ ⟨rfl, remembersLater⟩
        dsimp only
        rw [StateT.run_bind, ← lookUp_cons, ← bind_pure (treeValue ..)]
        -- The body starts with an empty memo and its own is dropped: `later` holds only values under
        -- the bindings outside of it.
        have inside := operand body (.tail _ (.head _)) ((name, bound) :: env) {}
          (remembersTrees_empty _)
        refine (RunsAs.lift (R := fun out t => out.1.1 = t ∧ out.2 = later)
          (inside.mono fun _ _ related => ⟨related.1, rfl⟩)).bind ?_
        rintro ⟨⟨_, _⟩, _⟩ t _ ⟨rfl, rfl⟩
        exact .pure ⟨rfl, remembersLater⟩
      next x rest isNode =>
        cases isNode
        refine remembered_runsAs held remembers ?_
        rw [treeValue, StateT.run_bind]
        refine (operand x (.head _) env memo remembers).bind ?_
        rintro ⟨_, later⟩ value _ ⟨rfl, remembersLater⟩
        exact node_runsAs (by simp) remembersLater
      next isNode =>
        cases isNode
        rw [treeValue]
        exact node_runsAs (by simp) remembers
      next notConst notVar notLet notCast notOther isNode =>
        cases isNode
        refine remembered_runsAs held remembers ?_
        rw [treeValue, StateT.run_bind]
        · refine (evalAll_runsAs operand remembers).bind ?_
          rintro ⟨_, later⟩ values _ ⟨rfl, remembersLater⟩
          exact node_runsAs here remembersLater
        all_goals assumption
  | reduction id domain axis least extent =>
      intro env memo remembers
      rw [Expr.eval, treeValue]
      exact leaf_runsAs remembers

theorem evaluate_runsAs {e : Expr} (held : r.Holds e)
    (reads : ∀ id, e.Calls id → IsReadAs setting P reader readings id) (env : Environment) :
    RunsAs setting P (e.evaluate reader env) (treeValue setting readings (Eval.lookUp env) e) Eq := by
  rw [← bind_pure (treeValue ..)]
  refine (eval_runsAs held reads env {} (remembersTrees_empty env)).bind ?_
  rintro ⟨_, _⟩ t _ ⟨rfl, _⟩
  exact .pure rfl

/-- Expressions are evaluated to the values of their trees, or fail as these do, be it with a memo of
their own or with one that they share. -/
theorem evaluate_eq_treeValue {es : List Expr} (held : r.HoldsAll es)
    (reads : ∀ e ∈ es, ∀ id, e.Calls id → IsReadAs setting P reader readings id) (env : Environment)
    {s : Realizer} (before : P s) :
    (∀ e ∈ es, ((e.evaluate reader env).outcome setting s).1 =
        treeValue setting readings (Eval.lookUp env) e) ∧
      ((Prod.fst <$> (evalAll reader env es).run {}).outcome setting s).1 =
        treeValues setting readings (Eval.lookUp env) es := by
  refine ⟨fun e member =>
    (evaluate_runsAs (held e member) (reads e member) env).result_eq before, ?_⟩
  have together := evalAll_runsAs (fun e member => eval_runsAs (held e member) (reads e member))
    (remembersTrees_empty env)
  refine RunsAs.result_eq ?_ before
  rw [map_eq_pure_bind, ← bind_pure (treeValues ..)]
  exact together.bind fun _ _ _ related => .pure related.1

end

def Region.readings (region : Region) (name : String) (shape : List Nat) (coordinates : List Tensor) :
    Except Fault Tensor :=
  let outside : Tensor × Int × Nat → Bool := fun (c, least, extent) => c.leaves least extent
  match (coordinates.zip (region.mins.zip region.values.shape)).findIdx? outside with
  | some axis => .error (.selfReadOutside name axis)
  | none => .ok (region.read shape coordinates)

theorem isReadAs_running {setting : Realization} {id : FuncId} {region : Region}
    {realizeBox : FuncId → List Int → List Int → RealizeM Region} :
    IsReadAs setting (fun s => s.running.lookup id = some region) (Realizer.readFrom realizeBox)
      (fun _ => region.readings (setting.program.func id).name) id := by
  intro shape coordinates
  unfold Realizer.readFrom Region.readings
  refine .bind_read (.bind_get fun s runs => ?_)
  rw [runs]
  dsimp only
  cases (coordinates.zip (region.mins.zip region.values.shape)).findIdx? _ with
  | some axis => exact .throw_bind
  | none => exact .pure rfl

namespace Rebound

def x : Expr := .node 0 (.var "x" true) .int32 []

def t : Expr := .node 1 (.var "t" false) .int32 []

def sum : Expr := .node 2 (.binary .add) .int32 [x, t]

/-- A call of `f` that stands outside of every `let` and in two of them. -/
def called : Expr := .node 3 (.call (.func 0 "f")) .int32 [sum]

def inner : Expr := .node 4 (.letIn "t") .int32 [x, called]

def both : Expr := .node 5 (.binary .add) .int32 [called, inner]

def outer : Expr := .node 6 (.letIn "t") .int32 [sum, both]

def whole : Expr := .node 7 (.binary .add) .int32 [called, outer]

def registry : Registry where
  node id := ([x, t, sum, called, inner, both, outer, whole][id]?).getD x
  next := 8
  names := 0

def setting : Realization where
  program := { funcs := #[{ name := "f", init := some ⟨[x], x⟩ }] }
  kernels := .standard

def region : Region where
  mins := [0]
  values := ⟨.int32, [6], #[.int 0, .int 10, .int 20, .int 30, .int 40, .int 50]⟩

def env : Environment :=
  [("x", ⟨.int64, [3], #[.int 0, .int 1, .int 2]⟩), ("t", .scalar .int64 (.int 1))]

theorem held : registry.Holds whole := by
  simp [Registry.Holds, Registry.IsRegistered, registry, Expr.id, whole, outer, both, inner, called,
    sum, t, x]

/-- The call has other values in each of the two bodies than outside of them. -/
theorem values_of_whole : ∃ v, ((whole.evaluate (Realizer.readFrom (Realizer.realizeBox 0))
    env).outcome setting { running := [(0, region)] }).1 = .ok v ∧
      v.data.toList.map Element.toInt = [10 + (10 + 0), 20 + (30 + 20), 30 + (50 + 40)] := by
  have held : registry.HoldsAll [whole] := List.forall_mem_singleton.2 held
  have reads : ∀ e ∈ [whole], ∀ id, e.Calls id → IsReadAs setting
      (fun s => s.running.lookup 0 = some region) (Realizer.readFrom (Realizer.realizeBox 0))
      (fun _ => region.readings "f") id := by
    intro e member id called
    obtain rfl : id = 0 := by
      rw [List.mem_singleton.1 member] at called
      simpa [whole, outer, both, inner, Rebound.called, sum, t, x, calls_node, eq_comm] using called
    exact isReadAs_running
  have evaluated := (evaluate_eq_treeValue held reads env (s := { running := [(0, region)] }) rfl).1
    whole (.head _)
  have values : (treeValue setting (fun _ => region.readings "f") (Eval.lookUp env)
      whole).toOption.map (fun v => v.data.toList.map Element.toInt) =
        some [10 + (10 + 0), 20 + (30 + 20), 30 + (50 + 40)] := by decide +kernel
  generalize treeValue setting _ (Eval.lookUp env) whole = value at evaluated values
  cases value with
  | error fault => cases values
  | ok v => exact ⟨v, evaluated, Option.some.inj values⟩

end Rebound

end ReverseMode
