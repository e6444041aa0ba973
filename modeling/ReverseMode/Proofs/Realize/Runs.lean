import ReverseMode.Realize.Realizer

namespace ReverseMode

namespace RealizeM

/-- What an action answers when it runs from a state, and the state it leaves. -/
def outcome {α : Type} (setting : Realization) (action : RealizeM α) (s : Realizer) :
    Except Fault α × Realizer := (action.run setting).run.run s

variable {α β : Type} {setting : Realization} {s : Realizer}

theorem outcome_bind {action : RealizeM α} {rest : α → RealizeM β} :
    outcome setting (action >>= rest) s =
      match outcome setting action s with
      | (.ok a, left) => outcome setting (rest a) left
      | (.error fault, left) => (.error fault, left) := by
  unfold outcome
  rw [ReaderT.run_bind, ExceptT.run_bind, StateT.run_bind]
  cases (action.run setting).run.run s with
  | mk result left => cases result <;> rfl

theorem outcome_tryCatch {action : RealizeM α} {handler : Fault → RealizeM α} :
    outcome setting (MonadExcept.tryCatch action handler) s =
      match outcome setting action s with
      | (.ok a, left) => (.ok a, left)
      | (.error fault, left) => outcome setting (handler fault) left := by
  let handlerHere (fault : Fault) := (handler fault).run setting
  change ((ExceptT.tryCatch (action.run setting) handlerHere).run).run s = _
  rw [ExceptT.tryCatch, ExceptT.run_mk, StateT.run_bind]
  change (StateT.run (action.run setting).run s >>= _) =
    match (action.run setting).run.run s with
    | (.ok a, left) => (.ok a, left)
    | (.error fault, left) => outcome setting (handler fault) left
  cases (action.run setting).run.run s with
  | mk result left => cases result <;> rfl

end RealizeM

/-- From a state with `P` the action ends in a state in which `Q` holds of its answer, or fails in a
state with `E`. -/
def Yields {α : Type} (setting : Realization) (E : Realizer → Prop) (P : Realizer → Prop)
    (action : RealizeM α) (Q : α → Realizer → Prop) : Prop :=
  ∀ s, P s → match RealizeM.outcome setting action s with
    | (.ok a, left) => Q a left
    | (.error _, left) => E left

namespace Yields

variable {α β : Type} {setting : Realization} {E P : Realizer → Prop} {Q : α → Realizer → Prop}
  {R : β → Realizer → Prop}

theorem answer {action : RealizeM α} (run : Yields setting E P action Q) {s : Realizer} (before : P s)
    {a : α} (answered : (action.outcome setting s).1 = .ok a) : Q a (action.outcome setting s).2 := by
  have ends := run s before
  generalize action.outcome setting s = outcome at answered ends ⊢
  obtain ⟨result, left⟩ := outcome
  cases answered
  exact ends

theorem of_fact {F : Prop} {action : RealizeM α} (fact : F) :
    Yields setting (fun _ => True) P action fun _ _ => F := by
  intro s _
  generalize action.outcome setting s = outcome
  obtain ⟨result, left⟩ := outcome
  cases result with
  | ok a => exact fact
  | error fault => trivial

theorem pure {a : α} (answer : ∀ s, P s → Q a s) : Yields setting E P (Pure.pure a) Q := answer

theorem throw {fault : Fault} (failed : ∀ s, P s → E s) :
    Yields setting E P (MonadExcept.throw fault : RealizeM α) Q := failed

theorem bind {action : RealizeM α} {rest : α → RealizeM β} (first : Yields setting E P action Q)
    (second : ∀ a, Yields setting E (Q a) (rest a) R) : Yields setting E P (action >>= rest) R := by
  intro s before
  have ends := first s before
  rw [RealizeM.outcome_bind]
  cases outcome : RealizeM.outcome setting action s with
  | mk result left =>
      rw [outcome] at ends
      cases result with
      | ok a => exact second a left ends
      | error fault => exact ends

theorem bind_fact {M : Realizer → Prop} {F : α → Prop} {action : RealizeM α} {rest : α → RealizeM β}
    (first : Yields setting E P action fun a s => M s ∧ F a)
    (second : ∀ a, F a → Yields setting E M (rest a) R) : Yields setting E P (action >>= rest) R :=
  first.bind fun a s both => second a both.2 s both.1

theorem mono {P' E' : Realizer → Prop} {action : RealizeM α} {Q' : α → Realizer → Prop}
    (run : Yields setting E P action Q) (before : ∀ s, P' s → P s)
    (after : ∀ a s, Q a s → Q' a s) (failed : ∀ s, E s → E' s) : Yields setting E' P' action Q' := by
  intro s holds
  have ends := run s (before s holds)
  cases outcome : RealizeM.outcome setting action s with
  | mk result left =>
      rw [outcome] at ends
      cases result with
      | ok a => exact after a left ends
      | error fault => exact failed left ends

theorem ofExcept {result : Except Fault α} (answer : ∀ a, result = .ok a → ∀ s, P s → Q a s)
    (failed : ∀ s, P s → E s) : Yields setting E P (liftM result : RealizeM α) Q := by
  intro s before
  cases result with
  | ok a => exact answer a rfl s before
  | error fault => exact failed s before

theorem bind_except {result : Except Fault α} {rest : α → RealizeM β} (failed : ∀ s, P s → E s)
    (second : ∀ a, result = .ok a → Yields setting E P (rest a) R) :
    Yields setting E P ((liftM result : RealizeM α) >>= rest) R := by
  cases result with
  | ok a => exact second a rfl
  | error fault => exact fun s before => failed s before

theorem bind_read {rest : Realization → RealizeM β} (second : Yields setting E P (rest setting) R) :
    Yields setting E P (readThe Realization >>= rest) R :=
  bind (Q := fun got s => got = setting ∧ P s) (fun _ before => ⟨rfl, before⟩) fun _ s both =>
    both.1 ▸ second s both.2

theorem bind_get {rest : Realizer → RealizeM β}
    (second : ∀ s, P s → Yields setting E P (rest s) R) :
    Yields setting E P (getThe Realizer >>= rest) R :=
  bind (Q := fun got s => P got ∧ P s) (fun _ before => ⟨before, before⟩) fun got s both =>
    second got both.1 s both.2

theorem bind_modify {change : Realizer → Realizer} {rest : Unit → RealizeM β}
    {M : Realizer → Prop} (changed : ∀ s, P s → M (change s))
    (second : Yields setting E M (rest ()) R) :
    Yields setting E P (modifyThe Realizer change >>= rest) R :=
  bind (Q := fun _ s => M s) changed fun _ => second

theorem modify {change : Realizer → Realizer} {Q : Unit → Realizer → Prop}
    (answer : ∀ s, P s → Q () (change s)) :
    Yields setting E P (modifyThe Realizer change : RealizeM Unit) Q := answer

theorem modifyGet {change : Realizer → α × Realizer}
    (answer : ∀ s, P s → Q (change s).1 (change s).2) :
    Yields setting E P (modifyGetThe Realizer change : RealizeM α) Q := answer

theorem tryCatch {M : Realizer → Prop} {action : RealizeM α} {handler : Fault → RealizeM α}
    (run : Yields setting M P action Q) (handled : ∀ fault, Yields setting E M (handler fault) Q) :
    Yields setting E P (MonadExcept.tryCatch action handler) Q := by
  intro s before
  have ends := run s before
  rw [RealizeM.outcome_tryCatch]
  cases outcome : RealizeM.outcome setting action s with
  | mk result left =>
      rw [outcome] at ends
      cases result with
      | ok a => exact ends
      | error fault => exact handled fault left ends

theorem lift {action : RealizeM α} {memo : EvalMemo} {R : α × EvalMemo → Realizer → Prop}
    (run : Yields setting E P action fun a => R (a, memo)) :
    Yields setting E P ((liftM action : EvalM α).run memo) R :=
  bind run fun _ _ after => after

theorem bind_report {reported : Tracing → Bool} {line : String} {rest : Unit → RealizeM β}
    (silent : ∀ s log, P s → P { s with log }) (second : Yields setting E P (rest ()) R) :
    Yields setting E P (RealizeM.reportLine reported line >>= rest) R := by
  refine bind (Q := fun _ => P) (bind_read ?_) fun _ => second
  split
  · exact modify fun s before => silent s _ before
  · exact pure fun _ before => before

theorem forEach {σ : Type} {I : σ → Realizer → Prop} {change : σ → α → σ} {as : List α}
    {body : α → RealizeM Unit}
    (each : ∀ a ∈ as, ∀ x, Yields setting E (I x) (body a) fun _ => I (change x a)) (x : σ) :
    Yields setting E (I x) (forIn as PUnit.unit fun a _ => do
      body a
      return .yield PUnit.unit) fun _ => I (as.foldl change x) := by
  induction as generalizing x with
  | nil => exact pure fun _ before => before
  | cons a rest ih =>
      rw [List.forIn_cons, bind_assoc]
      refine (each a (.head _) x).bind fun _ => ?_
      rw [pure_bind]
      exact ih (fun b member => each b (.tail _ member)) (change x a)

end Yields

end ReverseMode
