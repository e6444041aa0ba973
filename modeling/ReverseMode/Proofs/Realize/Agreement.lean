import ReverseMode.Proofs.Realize.Evaluation

namespace ReverseMode

open Expr

/-- Two runs from states with `P` that both succeed have one answer, and end in states of which `Q`
holds with it. -/
def Agrees {α : Type} (setting : Realization) (P : Realizer → Realizer → Prop) (action : RealizeM α)
    (Q : α → Realizer → Realizer → Prop) : Prop :=
  ∀ s s', P s s' → ∀ a left a' left', action.outcome setting s = (.ok a, left) →
    action.outcome setting s' = (.ok a', left') → a = a' ∧ Q a left left'

namespace Agrees

variable {α β : Type} {setting : Realization} {P : Realizer → Realizer → Prop}
  {Q : α → Realizer → Realizer → Prop} {R : β → Realizer → Realizer → Prop}

theorem same {action : RealizeM α} (run : Agrees setting P action Q) {s s' : Realizer}
    (before : P s s') {a a' : α} (answered : (action.outcome setting s).1 = .ok a)
    (answered' : (action.outcome setting s').1 = .ok a') : a = a' :=
  (run s s' before a _ a' _ (Prod.ext answered rfl) (Prod.ext answered' rfl)).1

theorem pure {a : α} (keeps : ∀ s s', P s s' → Q a s s') : Agrees setting P (Pure.pure a) Q := by
  intro s s' before b left b' left' run run'
  cases run
  cases run'
  exact ⟨rfl, keeps s s' before⟩

theorem throw {fault : Fault} : Agrees setting P (MonadExcept.throw fault : RealizeM α) Q :=
  fun _ _ _ _ _ _ _ run => nomatch run

theorem bind {action : RealizeM α} {rest : α → RealizeM β} (first : Agrees setting P action Q)
    (second : ∀ a, Agrees setting (Q a) (rest a) R) : Agrees setting P (action >>= rest) R := by
  intro s s' before b last b' last' run run'
  rw [RealizeM.outcome_bind] at run run'
  cases here : action.outcome setting s with
  | mk result left =>
      cases there : action.outcome setting s' with
      | mk result' left' =>
          rw [here] at run
          rw [there] at run'
          cases result with
          | error fault => cases run
          | ok a =>
              cases result' with
              | error fault => cases run'
              | ok a' =>
                  obtain ⟨rfl, after⟩ := first s s' before a left a' left' here there
                  exact second a left left' after b last b' last' run run'

theorem bind_fact {M : Realizer → Realizer → Prop} {F : α → Prop} {action : RealizeM α}
    {rest : α → RealizeM β} (first : Agrees setting P action fun a s s' => M s s' ∧ F a)
    (second : ∀ a, F a → Agrees setting M (rest a) R) : Agrees setting P (action >>= rest) R :=
  first.bind fun a s s' both => second a both.2 s s' both.1

theorem mono {P' : Realizer → Realizer → Prop} {Q' : α → Realizer → Realizer → Prop}
    {action : RealizeM α} (run : Agrees setting P action Q) (before : ∀ s s', P' s s' → P s s')
    (after : ∀ a s s', Q a s s' → Q' a s s') : Agrees setting P' action Q' :=
  fun s s' holds a left a' left' here there =>
    (run s s' (before s s' holds) a left a' left' here there).imp_right (after a left left')

theorem and_yields {E P₁ M : Realizer → Prop} {F : α → Prop} {action : RealizeM α}
    (run : Agrees setting P action Q) (known : Yields setting E P₁ action fun a s => M s ∧ F a)
    (starts : ∀ s s', P s s' → P₁ s) :
    Agrees setting P action fun a s s' => Q a s s' ∧ F a := by
  intro s s' before a left a' left' here there
  obtain ⟨same, after⟩ := run s s' before a left a' left' here there
  have ends := known s (starts s s' before)
  rw [here] at ends
  exact ⟨same, after, ends.2⟩

theorem ofExcept {result : Except Fault α} :
    Agrees setting P (liftM result : RealizeM α) fun _ => P := by
  cases result with
  | ok a => exact pure fun _ _ before => before
  | error fault => exact throw

theorem bind_except {result : Except Fault α} {rest : α → RealizeM β}
    (second : ∀ a, result = .ok a → Agrees setting P (rest a) R) :
    Agrees setting P ((liftM result : RealizeM α) >>= rest) R := by
  cases result with
  | ok a => exact second a rfl
  | error fault => exact throw

theorem tryCatch {action : RealizeM α} {handler : Fault → RealizeM α}
    (run : Agrees setting P action Q)
    (fails : ∀ fault s a left, (handler fault).outcome setting s ≠ (.ok a, left)) :
    Agrees setting P (MonadExcept.tryCatch action handler) Q := by
  have succeeds {s : Realizer} {a : α} {left : Realizer}
      (caught : (MonadExcept.tryCatch action handler).outcome setting s = (.ok a, left)) :
      action.outcome setting s = (.ok a, left) := by
    rw [RealizeM.outcome_tryCatch] at caught
    split at caught
    next run => rw [run, caught]
    next => exact absurd caught (fails _ _ _ _)
  intro s s' before a left a' left' here there
  exact run s s' before a left a' left' (succeeds here) (succeeds there)

theorem bind_read {rest : Realization → RealizeM β} (second : Agrees setting P (rest setting) R) :
    Agrees setting P (readThe Realization >>= rest) R := second

theorem bind_get {rest : Realizer → RealizeM β} (same : ∀ s s', P s s' → rest s' = rest s)
    (second : ∀ s s', P s s' → Agrees setting P (rest s) R) :
    Agrees setting P (getThe Realizer >>= rest) R := by
  intro s s' before b left b' left' run run'
  have there : (rest s).outcome setting s' = (.ok b', left') := same s s' before ▸ run'
  exact second s s' before s s' before b left b' left' run there

theorem modify {change : Realizer → Realizer} {Q : Unit → Realizer → Realizer → Prop}
    (changed : ∀ s s', P s s' → Q () (change s) (change s')) :
    Agrees setting P (modifyThe Realizer change : RealizeM Unit) Q := by
  intro s s' before b left b' left' run run'
  cases run
  cases run'
  exact ⟨rfl, changed s s' before⟩

theorem modifyGet {change : Realizer → α × Realizer}
    (changed : ∀ s s', P s s' →
      (change s).1 = (change s').1 ∧ Q (change s).1 (change s).2 (change s').2) :
    Agrees setting P (modifyGetThe Realizer change : RealizeM α) Q := by
  intro s s' before b left b' left' run run'
  cases run
  cases run'
  exact changed s s' before

theorem bind_report {reported : Tracing → Bool} {line : String} {rest : Unit → RealizeM β}
    (silent : ∀ s s' log log', P s s' → P { s with log } { s' with log := log' })
    (second : Agrees setting P (rest ()) R) :
    Agrees setting P (RealizeM.reportLine reported line >>= rest) R := by
  refine bind (Q := fun _ => P) (bind_read ?_) fun _ => second
  split
  · exact modify fun s s' before => silent s s' _ _ before
  · exact pure fun _ _ before => before

theorem ofExists {ι : Type} {P : ι → Realizer → Realizer → Prop} {action : RealizeM α}
    (each : ∀ i, Agrees setting (P i) action Q) :
    Agrees setting (fun s s' => ∃ i, P i s s') action Q :=
  fun s s' ⟨i, before⟩ => each i s s' before

theorem forEach {as : List α} {body : α → RealizeM Unit}
    (each : ∀ a ∈ as, Agrees setting P (body a) fun _ => P) :
    Agrees setting P (forIn as PUnit.unit fun a _ => do
      body a
      return .yield PUnit.unit) fun _ => P := by
  induction as with
  | nil => exact pure fun _ _ before => before
  | cons a rest ih =>
      rw [List.forIn_cons, bind_assoc]
      refine (each a (.head _)).bind fun _ => ?_
      rw [pure_bind]
      exact ih fun b member => each b (.tail _ member)

theorem lift {memo : EvalMemo} {action : RealizeM α} (run : Agrees setting P action fun _ => P) :
    Agrees setting P ((liftM action : EvalM α).run memo) fun _ => P :=
  run.bind fun _ => .pure fun _ _ after => after

end Agrees

section

variable {setting : Realization} {P : Realizer → Realizer → Prop} {P₁ : Realizer → Prop}
  {arity : FuncId → Nat} {callable : FuncId → Prop} {fields : Fields} {reader : FuncReader}
  {r : Registry} {grid : List Nat}

structure ReadsAlike (setting : Realization) (P : Realizer → Realizer → Prop) (P₁ : Realizer → Prop)
    (arity : FuncId → Nat) (callable : FuncId → Prop) (reader : FuncReader) : Prop where
  answers : Answers setting P₁ arity callable False default reader
  starts : ∀ s s', P s s' → P₁ s
  agrees : ∀ id shape coordinates, callable id → AreCoordinates (arity id) shape coordinates →
    Agrees setting P (reader id shape coordinates) fun _ => P

theorem callValue_agrees (alike : ReadsAlike setting P P₁ arity callable reader) {callee : Callee}
    {args : List Tensor}
    (allowed : ∀ id name, callee = .func id name → callable id ∧ args.length = arity id)
    (fits : ∀ a ∈ args, a.Fits grid) :
    Agrees setting P (Eval.callValue reader callee args) fun _ => P := by
  unfold Eval.callValue
  cases callee with
  | primitive name =>
      refine .bind_read ?_
      split
      next => exact .throw
      next => exact .ofExcept
  | image source => exact .bind_except fun _ _ => .ofExcept
  | func id name =>
      obtain ⟨isCallable, enough⟩ := allowed id name rfl
      refine .bind_except ?_
      rintro ⟨shape, arrays⟩ common
      have coordinates := AreCoordinates.of_args fits common
      rw [enough] at coordinates
      exact alike.agrees id shape _ isCallable coordinates

theorem headValue_agrees (alike : ReadsAlike setting P P₁ arity callable reader) {head : Head}
    {dtype : DType} {operands : List Tensor}
    (allowed : ∀ id name, head = .call (.func id name) → callable id ∧ operands.length = arity id)
    (fits : ∀ a ∈ operands, a.Fits grid) :
    Agrees setting P (Eval.headValue reader head dtype operands) fun _ => P := by
  unfold Eval.headValue
  split
  next => exact .pure fun _ _ before => before
  next => exact .throw
  next => exact .ofExcept
  next => exact .throw
  next => exact .ofExcept
  next => exact .throw
  next =>
    exact callValue_agrees alike (fun id name isCallee => allowed id name (by rw [isCallee])) fits
  next => exact .throw
  next => exact .ofExcept
  next => exact .throw
  next => split <;> exact .throw

theorem remembered_agrees {memo : EvalMemo} {id : NodeId} {compute : EvalM Tensor}
    (computed : Agrees setting P (compute.run memo) fun _ => P) :
    Agrees setting P ((Eval.remembered id compute).run memo) fun _ => P := by
  cases known : memo[id]? with
  | some t =>
    rw [remembered_known known]
    exact .pure fun _ _ before => before
  | none =>
    rw [remembered_new known]
    exact computed.bind fun _ => .pure fun _ _ after => after

theorem evalAll_agrees {env : Environment} {es : List Expr} {memo : EvalMemo}
    (each : ∀ e ∈ es, ∀ memo, Remembers setting False default grid r env memo →
      Agrees setting P ((e.eval reader env).run memo) fun out s s' => P s s' ∧
        IsValue setting False default grid env e out.1 ∧
        Remembers setting False default grid r env out.2)
    (remembers : Remembers setting False default grid r env memo) :
    Agrees setting P ((evalAll reader env es).run memo) fun out s s' => P s s' ∧
      List.Forall₂ (IsValue setting False default grid env) es out.1 := by
  induction es generalizing memo with
  | nil => exact .pure fun _ _ before => ⟨before, .nil⟩
  | cons e rest ih =>
      rw [evalAll, StateT.run_bind]
      refine (each e (.head _) memo remembers).bind_fact ?_
      rintro ⟨t, later⟩ ⟨value, remembersLater⟩
      dsimp only
      rw [StateT.run_bind]
      refine (ih (fun x member => each x (.tail _ member)) remembersLater).bind_fact ?_
      rintro ⟨ts, last⟩ values
      exact .pure fun _ _ before => ⟨before, .cons value values⟩

theorem eval_agrees (alike : ReadsAlike setting P P₁ arity callable reader) (e : Expr)
    (readable : Readable arity callable False r e) {env : Environment} (fits : env.Fits grid)
    {memo : EvalMemo} (remembers : Remembers setting False default grid r env memo) :
    Agrees setting P ((e.eval reader env).run memo) fun _ => P := by
  induction e using Expr.induction generalizing env memo with
  | node id head dtype operands ih =>
      have enough : ∀ callee name, head = .call (.func callee name) →
          callable callee ∧ operands.length = arity callee := by
        rintro callee name rfl
        exact ⟨readable.callable callee (calls_node.2 (.inl ⟨name, rfl⟩)),
          readable.fit.here callee name rfl⟩
      have operand : ∀ x ∈ operands, ∀ {env : Environment}, env.Fits grid → ∀ memo,
          Remembers setting False default grid r env memo →
          Agrees setting P ((x.eval reader env).run memo) fun out s s' => P s s' ∧
            IsValue setting False default grid env x out.1 ∧
            Remembers setting False default grid r env out.2 :=
        fun x member env fits memo remembers =>
          (ih x member (readable.operand member) fits remembers).and_yields
            (eval_yields alike.answers x (readable.operand member) fits remembers) alike.starts
      unfold Expr.eval
      split
      next isNode =>
        cases isNode
        exact .lift .ofExcept
      next isNode =>
        cases isNode
        exact .lift .ofExcept
      next isNode => cases isNode
      next name _ value body rest isNode =>
        cases isNode
        refine remembered_agrees ?_
        rw [StateT.run_bind]
        have isOperand : body ∈ value :: body :: rest := .tail _ (.head _)
        refine (operand value (.head _) fits memo remembers).bind_fact ?_
        rintro ⟨bound, later⟩ ⟨isBound, _⟩
        dsimp only
        rw [StateT.run_bind]
        refine (Agrees.lift ((ih body isOperand (readable.operand isOperand)
          (fits.cons isBound.1 name) (remembers_empty _)))).bind fun out => ?_
        exact .pure fun _ _ before => before
      next x rest isNode =>
        cases isNode
        refine remembered_agrees ?_
        rw [StateT.run_bind]
        refine (operand x (.head _) fits memo remembers).bind_fact ?_
        rintro ⟨value, later⟩ ⟨isX, _⟩
        exact .lift (headValue_agrees alike (by simp) (List.forall_mem_singleton.2 isX.1))
      next isNode =>
        cases isNode
        refine .lift ?_
        unfold Eval.headValue
        dsimp only
        split <;> exact .throw
      next isNode =>
        cases isNode
        refine remembered_agrees ?_
        rw [StateT.run_bind]
        refine (evalAll_agrees (fun x member memo => operand x member fits memo)
          remembers).bind_fact ?_
        rintro ⟨values, later⟩ areValues
        exact .lift (headValue_agrees alike (fun callee name isCall =>
          areValues.length_eq ▸ enough callee name isCall) (fits_of_areValues areValues))
  | reduction id domain axis least extent =>
      unfold Expr.eval
      exact .lift .ofExcept

theorem evaluate_agrees (alike : ReadsAlike setting P P₁ arity callable reader) {e : Expr}
    (readable : Readable arity callable False r e) {env : Environment} (fits : env.Fits grid) :
    Agrees setting P (e.evaluate reader env) fun _ => P :=
  (eval_agrees alike e readable fits (remembers_empty env)).bind fun _ =>
    .pure fun _ _ before => before

theorem evalBoth_agrees (alike : ReadsAlike setting P P₁ arity callable reader) {value : Expr}
    {args : List Expr} (readable : ∀ e ∈ value :: args, Readable arity callable False r e)
    {env : Environment} (fits : env.Fits grid) :
    Agrees setting P (StateT.run (do
      let value ← value.eval reader env
      let indices ← evalAll reader env args
      return (value, indices) : EvalM (Tensor × List Tensor)) {}) fun _ => P := by
  have each : ∀ e ∈ value :: args, ∀ memo, Remembers setting False default grid r env memo →
      Agrees setting P ((e.eval reader env).run memo) fun out s s' => P s s' ∧
        IsValue setting False default grid env e out.1 ∧
        Remembers setting False default grid r env out.2 := fun e member memo remembers =>
    (eval_agrees alike e (readable e member) fits remembers).and_yields
      (eval_yields alike.answers e (readable e member) fits remembers) alike.starts
  rw [StateT.run_bind]
  refine (each value (.head _) {} (remembers_empty _)).bind_fact ?_
  rintro ⟨t, memo⟩ ⟨_, remembers⟩
  dsimp only
  rw [StateT.run_bind]
  refine (evalAll_agrees (fun e member => each e (.tail _ member)) remembers).bind_fact ?_
  exact fun _ _ => .pure fun _ _ before => before

end

end ReverseMode
