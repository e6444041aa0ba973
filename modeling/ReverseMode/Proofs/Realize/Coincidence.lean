import ReverseMode.Proofs.Program.Steady
import ReverseMode.Proofs.Realize.Evaluation
import ReverseMode.Proofs.Realize.Realizing

namespace ReverseMode

open Expr Realizer

namespace Spares

variable {bad : Fault → Prop} [Procedural bad]

theorem commonShape (arrays : List Tensor) : Spares bad (Tensor.commonShape arrays) := by
  induction arrays with
  | nil => exact ok
  | cons t rest ih =>
      refine ih.bind fun shape => ?_
      split
      next => exact ok
      next =>
        split
        next => exact ok
        next => exact of_error not_false

theorem zipWith {type : ElementType} {f : Element → Element → Element} {a b : Tensor} :
    Spares bad (Tensor.zipWith type f a b) := (commonShape _).bind fun _ => ok

theorem subtract (a b : Tensor) : Spares bad (a.subtract b) := by
  unfold Tensor.subtract
  split
  next => exact of_error not_false
  next => exact zipWith

theorem binary {op : BinaryOp} {real : Bool} {a b : Tensor} :
    Spares bad (Tensor.binary op real a b) := by
  unfold Tensor.binary Tensor.joined Tensor.compared Tensor.connected
  cases op with
  | sub => exact subtract a b
  | div => cases real <;> exact zipWith
  | _ => exact zipWith

theorem choose {condition ifTrue ifFalse : Tensor} :
    Spares bad (Tensor.choose condition ifTrue ifFalse) := (commonShape _).bind fun _ => ok

theorem broadcastAll (arrays : List Tensor) : Spares bad (Tensor.broadcastAll arrays) :=
  (commonShape _).bind fun _ => ok

theorem offsets {least : Int} {coordinates : Tensor} : Spares bad (coordinates.offsets least) := by
  unfold Tensor.offsets
  split
  next => exact ok
  next =>
    extract_lets t
    split
    next => exact ok
    next => exact of_error not_false

theorem power (base exponent : Tensor) : Spares bad (base.power exponent) := by
  unfold Tensor.power
  dsimp only
  split
  next => exact of_error not_false
  next => exact zipWith

theorem negate (x : Tensor) : Spares bad x.negate := by
  unfold Tensor.negate
  dsimp only
  split
  next => exact of_error not_false
  next => exact ok

theorem kernel {kernel : Kernel} {args : List Tensor} : Spares bad (kernel.apply args) := by
  unfold Kernel.apply
  split
  case h_8 => exact power _ _
  case h_9 => exact zipWith
  case h_10 => exact negate _
  case h_12 => exact of_error not_false
  all_goals exact ok

theorem constant {dtype : DType} {c : Constant} : Spares bad (Eval.constant dtype c) := by
  unfold Eval.constant
  dsimp only
  split
  next =>
    split
    next => exact ok
    next => exact of_error not_false
  next => exact ok

theorem lookUp {env : Environment} {name : String} : Spares bad (Eval.lookUp env name) := by
  unfold Eval.lookUp
  split
  next => exact ok
  next => exact of_error not_false

theorem readImage {source : Image} {shape : List Nat} {coordinates : List Tensor} :
    Spares bad (Eval.readImage source shape coordinates) := by
  refine bind ?_ fun _ => ok
  unfold Eval.checkImageRead
  dsimp only
  split
  next => exact ok
  next => exact of_error not_false

theorem wholeNumber (value : Tensor) : Spares bad (wholeNumber value) := by
  unfold Realizer.wholeNumber
  split
  next =>
    split
    next => exact ok
    next => split <;> exact of_error not_false
  next => exact ok

theorem dtype (f : Func) : Spares bad f.dtype := (initial f).bind fun _ => ok

theorem dimensions (f : Func) : Spares bad f.dimensions := (args f).bind fun _ => ok

end Spares

def Fault.NoneBad (_ : Fault) : Prop := False

instance : Procedural Fault.NoneBad where
  isProcedural _ none := none.elim

/-- From every state with `P` both actions have one outcome. It is none of the bad faults, and `P`
holds afterwards, be it a failure or not. -/
def Coincide {α : Type} (bad : Fault → Prop) (setting : Realization) (P : Realizer → Prop)
    (action action' : RealizeM α) : Prop :=
  ∀ s, P s → action'.outcome setting s = action.outcome setting s ∧
    Spares bad (action.outcome setting s).1 ∧ P (action.outcome setting s).2

namespace Coincide

variable {α β : Type} {bad : Fault → Prop} {setting : Realization} {P : Realizer → Prop}

theorem yields {action action' : RealizeM α} (same : Coincide bad setting P action action') :
    Yields setting (fun _ => True) P action fun _ => P := by
  intro s before
  obtain ⟨_, _, after⟩ := same s before
  cases outcome : action.outcome setting s with
  | mk result left =>
      rw [outcome] at after
      cases result with
      | ok a => exact after
      | error fault => trivial

theorem ofExcept {result : Except Fault α} (spares : Spares bad result) :
    Coincide bad setting P (liftM result : RealizeM α) (liftM result) := fun _ before => by
  cases result with
  | ok a => exact ⟨rfl, .ok, before⟩
  | error fault => exact ⟨rfl, spares, before⟩

theorem pure {a : α} : Coincide bad setting P (Pure.pure a : RealizeM α) (Pure.pure a) :=
  fun _ before => ⟨rfl, .ok, before⟩

theorem throw_good {fault : Fault} (other : ¬ bad fault) :
    Coincide bad setting P (MonadExcept.throw fault : RealizeM α) (MonadExcept.throw fault) :=
  fun _ before => ⟨rfl, .error other, before⟩

theorem throw [Procedural bad] {fault : Fault} (other : ¬ fault.IsProcedural) :
    Coincide bad setting P (MonadExcept.throw fault : RealizeM α) (MonadExcept.throw fault) :=
  throw_good (mt (Procedural.isProcedural fault) other)

theorem throw_bind [Procedural bad] {fault : Fault} {rest rest' : α → RealizeM β}
    (other : ¬ fault.IsProcedural) :
    Coincide bad setting P ((MonadExcept.throw fault : RealizeM α) >>= rest)
      ((MonadExcept.throw fault : RealizeM α) >>= rest') :=
  fun _ before => ⟨rfl, .of_error other, before⟩

theorem modify {change : Realizer → Realizer} (keeps : ∀ s, P s → P (change s)) :
    Coincide bad setting P (modifyThe Realizer change : RealizeM Unit)
      (modifyThe Realizer change) :=
  fun s before => ⟨rfl, .ok, keeps s before⟩

theorem bind_yields {action action' : RealizeM α} {rest rest' : α → RealizeM β} {Q : α → Prop}
    (first : Coincide bad setting P action action')
    (answers : Yields setting (fun _ => True) P action fun a _ => Q a)
    (second : ∀ a, Q a → Coincide bad setting P (rest a) (rest' a)) :
    Coincide bad setting P (action >>= rest) (action' >>= rest') := by
  intro s before
  obtain ⟨same, spares, after⟩ := first s before
  have known := answers s before
  rw [RealizeM.outcome_bind, RealizeM.outcome_bind, same]
  cases outcome : action.outcome setting s with
  | mk result left =>
      rw [outcome] at spares after known
      cases result with
      | ok a => exact second a known left after
      | error fault => exact ⟨rfl, .error (spares fault rfl), after⟩

theorem bind {action action' : RealizeM α} {rest rest' : α → RealizeM β}
    (first : Coincide bad setting P action action')
    (second : ∀ a, Coincide bad setting P (rest a) (rest' a)) :
    Coincide bad setting P (action >>= rest) (action' >>= rest') :=
  first.bind_yields (.of_fact trivial) fun a (_ : True) => second a

theorem bind_except {result : Except Fault α} {rest rest' : α → RealizeM β}
    (spares : Spares bad result)
    (second : ∀ a, result = .ok a → Coincide bad setting P (rest a) (rest' a)) :
    Coincide bad setting P ((liftM result : RealizeM α) >>= rest) (liftM result >>= rest') := by
  cases result with
  | ok a => exact second a rfl
  | error fault => exact throw_good (spares fault rfl)

theorem bind_read {rest rest' : Realization → RealizeM β}
    (second : Coincide bad setting P (rest setting) (rest' setting)) :
    Coincide bad setting P (readThe Realization >>= rest) (readThe Realization >>= rest') := second

theorem bind_get {rest rest' : Realizer → RealizeM β}
    (second : ∀ s, P s → Coincide bad setting P (rest s) (rest' s)) :
    Coincide bad setting P (getThe Realizer >>= rest) (getThe Realizer >>= rest') :=
  fun s before => second s before s before

theorem report {reported : Tracing → Bool} {line : String}
    (silent : ∀ s log, P s → P { s with log }) :
    Coincide bad setting P (RealizeM.reportLine reported line)
      (RealizeM.reportLine reported line) := by
  refine bind_read ?_
  split
  · exact modify fun s before => silent s _ before
  · exact pure

theorem forEach {as : List α} {body body' : α → RealizeM Unit}
    (each : ∀ a, Coincide bad setting P (body a) (body' a)) :
    Coincide bad setting P
      (forIn as PUnit.unit fun a _ => do
        body a
        return .yield PUnit.unit)
      (forIn as PUnit.unit fun a _ => do
        body' a
        return .yield PUnit.unit) := by
  induction as with
  | nil => exact pure
  | cons a rest ih =>
      rw [List.forIn_cons, List.forIn_cons, bind_assoc, bind_assoc]
      refine (each a).bind fun _ => ?_
      rw [pure_bind, pure_bind]
      exact ih

theorem lift {memo : EvalMemo} {action action' : RealizeM α}
    (run : Coincide bad setting P action action') :
    Coincide bad setting P ((liftM action : EvalM α).run memo)
      ((liftM action' : EvalM α).run memo) :=
  run.bind fun _ => pure

theorem mapM {step : α → Except Fault β} (spares : ∀ a, Spares bad (step a))
    (as : List α) :
    Coincide bad setting P (as.mapM fun a => (liftM (step a) : RealizeM β))
      (as.mapM fun a => (liftM (step a) : RealizeM β)) := by
  induction as with
  | nil => exact pure
  | cons a rest ih =>
      rw [List.mapM_cons]
      exact bind_except (spares a) fun b _ => ih.bind fun bs => pure

end Coincide

section

variable {bad : Fault → Prop} {setting : Realization} {P : Realizer → Prop}
  {reader reader' : FuncReader}

def ReadAlike (bad : Fault → Prop) (setting : Realization) (P : Realizer → Prop)
    (reader reader' : FuncReader) (callee : FuncId) : Prop :=
  ∀ shape coordinates, Coincide bad setting P (reader callee shape coordinates)
    (reader' callee shape coordinates)

theorem remembered_coincide {memo : EvalMemo} {id : NodeId} {compute compute' : EvalM Tensor}
    (computed : Coincide bad setting P (compute.run memo) (compute'.run memo)) :
    Coincide bad setting P ((Eval.remembered id compute).run memo)
      ((Eval.remembered id compute').run memo) := by
  cases known : memo[id]? with
  | some t =>
      rw [remembered_known known, remembered_known known]
      exact .pure
  | none =>
      rw [remembered_new known, remembered_new known]
      exact computed.bind fun _ => .pure

theorem evalAll_coincide {env : Environment} {es : List Expr}
    (each : ∀ e ∈ es, ∀ memo, Coincide bad setting P ((e.eval reader env).run memo)
      ((e.eval reader' env).run memo)) (memo : EvalMemo) :
    Coincide bad setting P ((evalAll reader env es).run memo)
      ((evalAll reader' env es).run memo) := by
  induction es generalizing memo with
  | nil => exact .pure
  | cons e rest ih =>
      rw [evalAll, evalAll, StateT.run_bind, StateT.run_bind]
      refine (each e (.head _) memo).bind fun out => ?_
      rw [StateT.run_bind, StateT.run_bind]
      exact (ih (fun x member => each x (.tail _ member)) out.2).bind fun _ => .pure

variable [Procedural bad]

theorem callValue_coincide {callee : Callee} {args : List Tensor}
    (alike : ∀ id name, callee = .func id name → ReadAlike bad setting P reader reader' id) :
    Coincide bad setting P (Eval.callValue reader callee args)
      (Eval.callValue reader' callee args) := by
  unfold Eval.callValue
  cases callee with
  | primitive name =>
      refine .bind_read ?_
      split
      next => exact .throw not_false
      next => exact .ofExcept .kernel
  | image source => exact .bind_except (.broadcastAll _) fun _ _ => .ofExcept .readImage
  | func id name =>
      exact .bind_except (.broadcastAll _) fun out _ => alike id name rfl out.1 _

theorem headValue_coincide {head : Head} {dtype : DType} {operands : List Tensor}
    (alike : ∀ id name, head = .call (.func id name) →
      ReadAlike bad setting P reader reader' id) :
    Coincide bad setting P (Eval.headValue reader head dtype operands)
      (Eval.headValue reader' head dtype operands) := by
  unfold Eval.headValue
  split
  next => exact .pure
  next => exact .throw not_false
  next => exact .ofExcept .binary
  next => exact .throw not_false
  next => exact .ofExcept .choose
  next => exact .throw not_false
  next => exact callValue_coincide fun id name isCallee => alike id name (by rw [isCallee])
  next => exact .throw not_false
  next => exact .ofExcept .constant
  next => exact .throw not_false
  next => split <;> exact .throw not_false

theorem eval_coincide (e : Expr)
    (alike : ∀ callee, e.Calls callee → ReadAlike bad setting P reader reader' callee)
    (env : Environment) (memo : EvalMemo) :
    Coincide bad setting P ((e.eval reader env).run memo) ((e.eval reader' env).run memo) := by
  induction e using Expr.induction generalizing env memo with
  | node id head dtype operands ih =>
      have here : ∀ callee name, head = .call (.func callee name) →
          ReadAlike bad setting P reader reader' callee :=
        fun callee name isCall => alike callee (calls_node.2 (.inl ⟨name, isCall⟩))
      have operand : ∀ x ∈ operands, ∀ env memo,
          Coincide bad setting P ((x.eval reader env).run memo) ((x.eval reader' env).run memo) :=
        fun x member env memo => ih x member
          (fun callee called => alike callee (calls_node.2 (.inr ⟨x, member, called⟩))) env memo
      unfold Expr.eval
      split
      next isNode =>
        cases isNode
        exact .lift (.ofExcept .constant)
      next isNode =>
        cases isNode
        exact .lift (.ofExcept .lookUp)
      next isNode => cases isNode
      next name _ value body rest isNode =>
        cases isNode
        refine remembered_coincide ?_
        rw [StateT.run_bind, StateT.run_bind]
        refine (operand value (.head _) env memo).bind fun bound => ?_
        rw [StateT.run_bind, StateT.run_bind]
        exact (Coincide.lift (operand body (.tail _ (.head _)) _ _)).bind fun _ => .pure
      next x rest isNode =>
        cases isNode
        refine remembered_coincide ?_
        rw [StateT.run_bind, StateT.run_bind]
        exact (operand x (.head _) env memo).bind fun _ => .lift (headValue_coincide (by simp))
      next isNode =>
        cases isNode
        exact .lift (headValue_coincide (by simp))
      next isNode =>
        cases isNode
        refine remembered_coincide ?_
        rw [StateT.run_bind, StateT.run_bind]
        exact (evalAll_coincide (fun x member => operand x member env) memo).bind fun _ =>
          .lift (headValue_coincide here)
  | reduction id domain axis least extent =>
      unfold Expr.eval
      exact .lift (.ofExcept .lookUp)

theorem evaluate_coincide {e : Expr}
    (alike : ∀ callee, e.Calls callee → ReadAlike bad setting P reader reader' callee)
    (env : Environment) :
    Coincide bad setting P (e.evaluate reader env) (e.evaluate reader' env) :=
  (eval_coincide e alike env {}).bind fun _ => .pure

end

end ReverseMode
