import ReverseMode.Proofs.Program.Mirroring
import ReverseMode.Proofs.Realize.Evaluation
import ReverseMode.Proofs.Realize.Realizing

namespace ReverseMode

open Expr Realizer

inductive EndAbreast {α β : Type} (Q : α → β → Realizer → Realizer → Prop) :
    Except Fault α × Realizer → Except Fault β × Realizer → Prop where
  | ok {a : α} {b : β} {s s' : Realizer} : Q a b s s' → EndAbreast Q (.ok a, s) (.ok b, s')
  | error {fault fault' : Fault} {s s' : Realizer} : EndAbreast Q (.error fault, s) (.error fault', s')

/-- From states that `P` relates both actions fail, or both answer and `Q` relates the answers and the
states that are left. -/
def Abreast {α β : Type} (setting : Realization) (P : Realizer → Realizer → Prop)
    (action : RealizeM α) (action' : RealizeM β) (Q : α → β → Realizer → Realizer → Prop) : Prop :=
  ∀ s s', P s s' → EndAbreast Q (action.outcome setting s) (action'.outcome setting s')

def Same {α : Type} (P : Realizer → Realizer → Prop) (a b : α) (s s' : Realizer) : Prop :=
  b = a ∧ P s s'

namespace Abreast

variable {α β γ δ : Type} {setting : Realization} {P : Realizer → Realizer → Prop}
  {Q : α → β → Realizer → Realizer → Prop} {R : γ → δ → Realizer → Realizer → Prop}

theorem pure {a : α} {b : β} (answer : ∀ s s', P s s' → Q a b s s') :
    Abreast setting P (Pure.pure a) (Pure.pure b) Q := fun s s' before => .ok (answer s s' before)

theorem throw {fault fault' : Fault} :
    Abreast setting P (MonadExcept.throw fault : RealizeM α) (MonadExcept.throw fault' : RealizeM β)
      Q := fun _ _ _ => .error

theorem bind {action : RealizeM α} {action' : RealizeM β} {rest : α → RealizeM γ}
    {rest' : β → RealizeM δ} (first : Abreast setting P action action' Q)
    (second : ∀ a b, Abreast setting (Q a b) (rest a) (rest' b) R) :
    Abreast setting P (action >>= rest) (action' >>= rest') R := by
  intro s s' before
  rw [RealizeM.outcome_bind, RealizeM.outcome_bind]
  have ends := first s s' before
  generalize action.outcome setting s = outcome at ends ⊢
  generalize action'.outcome setting s' = outcome' at ends ⊢
  cases ends with
  | ok answers => exact second _ _ _ _ answers
  | error => exact .error

theorem bind_same {action action' : RealizeM α} {rest : α → RealizeM γ} {rest' : α → RealizeM δ}
    (first : Abreast setting P action action' (Same P))
    (second : ∀ a, Abreast setting P (rest a) (rest' a) R) :
    Abreast setting P (action >>= rest) (action' >>= rest') R :=
  first.bind fun a b s s' answers => by
    obtain ⟨rfl, after⟩ := answers
    exact second _ s s' after

theorem ofExcept {result : Except Fault α} :
    Abreast setting P (liftM result : RealizeM α) (liftM result : RealizeM α) (Same P) := by
  cases result with
  | ok a => exact pure fun s s' before => ⟨rfl, before⟩
  | error fault => exact throw

theorem bind_except {result : Except Fault α} {rest : α → RealizeM γ} {rest' : α → RealizeM δ}
    (second : ∀ a, result = .ok a → Abreast setting P (rest a) (rest' a) R) :
    Abreast setting P ((liftM result : RealizeM α) >>= rest) (liftM result >>= rest') R := by
  cases result with
  | ok a => exact second a rfl
  | error fault => exact throw

theorem bind_read {rest : Realization → RealizeM γ} {rest' : Realization → RealizeM δ}
    (second : Abreast setting P (rest setting) (rest' setting) R) :
    Abreast setting P (readThe Realization >>= rest) (readThe Realization >>= rest') R := second

theorem bind_get {rest : Realizer → RealizeM γ} {rest' : Realizer → RealizeM δ}
    (second : ∀ s s', P s s' → Abreast setting P (rest s) (rest' s') R) :
    Abreast setting P (getThe Realizer >>= rest) (getThe Realizer >>= rest') R :=
  fun s s' before => second s s' before s s' before

theorem modify {change change' : Realizer → Realizer} {Q : Unit → Unit → Realizer → Realizer → Prop}
    (changed : ∀ s s', P s s' → Q () () (change s) (change' s')) :
    Abreast setting P (modifyThe Realizer change : RealizeM Unit)
      (modifyThe Realizer change' : RealizeM Unit) Q := fun s s' before => .ok (changed s s' before)

theorem modifyGet {change : Realizer → α × Realizer} {change' : Realizer → β × Realizer}
    (changed : ∀ s s', P s s' →
      Q (change s).1 (change' s').1 (change s).2 (change' s').2) :
    Abreast setting P (modifyGetThe Realizer change : RealizeM α)
      (modifyGetThe Realizer change' : RealizeM β) Q := fun s s' before => .ok (changed s s' before)

theorem tryCatch {action : RealizeM α} {action' : RealizeM β} {handler : Fault → RealizeM α}
    {handler' : Fault → RealizeM β} (run : Abreast setting P action action' Q)
    (fails : ∀ fault s, ∃ last left, (handler fault).outcome setting s = (.error last, left))
    (fails' : ∀ fault s, ∃ last left, (handler' fault).outcome setting s = (.error last, left)) :
    Abreast setting P (MonadExcept.tryCatch action handler) (MonadExcept.tryCatch action' handler')
      Q := by
  intro s s' before
  rw [RealizeM.outcome_tryCatch, RealizeM.outcome_tryCatch]
  have ends := run s s' before
  generalize action.outcome setting s = outcome at ends ⊢
  generalize action'.outcome setting s' = outcome' at ends ⊢
  cases ends with
  | ok answers => exact .ok answers
  | @error fault fault' left left' =>
      obtain ⟨last, after, failed⟩ := fails fault left
      obtain ⟨last', after', failed'⟩ := fails' fault' left'
      dsimp only
      rw [failed, failed']
      exact .error

theorem report {reported : Tracing → Bool} {line line' : String}
    (silent : ∀ s s' log log', P s s' → P { s with log } { s' with log := log' }) :
    Abreast setting P (RealizeM.reportLine reported line) (RealizeM.reportLine reported line')
      (Same P) := by
  refine bind_read ?_
  split
  · exact modify fun s s' before => ⟨rfl, silent s s' _ _ before⟩
  · exact pure fun s s' before => ⟨rfl, before⟩

theorem forEach {as : List α} {body body' : α → RealizeM Unit}
    (each : ∀ a ∈ as, Abreast setting P (body a) (body' a) (Same P)) :
    Abreast setting P
      (forIn as PUnit.unit fun a _ => do
        body a
        return .yield PUnit.unit)
      (forIn as PUnit.unit fun a _ => do
        body' a
        return .yield PUnit.unit) (Same P) := by
  induction as with
  | nil => exact pure fun _ _ before => ⟨rfl, before⟩
  | cons a rest ih =>
      rw [List.forIn_cons, List.forIn_cons, bind_assoc, bind_assoc]
      refine (each a (.head _)).bind_same fun _ => ?_
      rw [pure_bind, pure_bind]
      exact ih fun b member => each b (.tail _ member)

theorem mapM {step : α → Except Fault β} (as : List α) :
    Abreast setting P (as.mapM fun a => (liftM (step a) : RealizeM β))
      (as.mapM fun a => (liftM (step a) : RealizeM β)) (Same P) := by
  induction as with
  | nil => exact pure fun _ _ before => ⟨rfl, before⟩
  | cons a rest ih =>
      rw [List.mapM_cons]
      exact bind_except fun b _ => ih.bind_same fun bs => pure fun _ _ before => ⟨rfl, before⟩

end Abreast

def SameValues (R : NodeId → NodeId → Prop) (memo memo' : EvalMemo) : Prop :=
  ∀ m n, R m n → memo'[n]? = memo[m]?

theorem SameValues.insert {R : NodeId → NodeId → Prop} {memo memo' : EvalMemo}
    (same : SameValues R memo memo') (biUnique : Relator.BiUnique R) {m n : NodeId} (related : R m n)
    (t : Tensor) : SameValues R (memo.insert m t) (memo'.insert n t) := by
  intro i j relatedHere
  have iff : compare n j = .eq ↔ compare m i = .eq := by
    rw [compare_eq_iff_eq, compare_eq_iff_eq]
    constructor
    · rintro rfl
      exact biUnique.1 related relatedHere
    · rintro rfl
      exact biUnique.2 related relatedHere
  rw [Std.TreeMap.getElem?_insert, Std.TreeMap.getElem?_insert, same i j relatedHere]
  simp only [iff]

def SameResult {α : Type} (R : NodeId → NodeId → Prop) (P : Realizer → Realizer → Prop)
    (out out' : α × EvalMemo) (s s' : Realizer) : Prop :=
  out'.1 = out.1 ∧ SameValues R out.2 out'.2 ∧ P s s'

section

variable {setting : Realization} {P : Realizer → Realizer → Prop} {id copy : FuncId}
  {R : NodeId → NodeId → Prop} {reader reader' : FuncReader}

def ReadAbreast (setting : Realization) (P : Realizer → Realizer → Prop) (id copy : FuncId)
    (reader reader' : FuncReader) (callee : FuncId) : Prop :=
  ∀ shape coordinates, Abreast setting P (reader callee shape coordinates)
    (reader' (standIn id copy callee) shape coordinates) (Same P)

theorem Abreast.lift {α : Type} {action action' : RealizeM α} {memo memo' : EvalMemo}
    (run : Abreast setting P action action' (Same P)) (same : SameValues R memo memo') :
    Abreast setting P ((liftM action : EvalM α).run memo) ((liftM action' : EvalM α).run memo')
      (SameResult R P) :=
  run.bind_same fun _ => .pure fun _ _ before => ⟨rfl, same, before⟩

theorem SameValues.empty : SameValues R {} {} := fun m n _ => by simp

theorem Abreast.lift_value {action action' : RealizeM (Tensor × EvalMemo)} {memo memo' : EvalMemo}
    (run : Abreast setting P action action' (SameResult R P)) (same : SameValues R memo memo') :
    Abreast setting P
      ((do
        let (result, _) ← (action : RealizeM _)
        return result : EvalM Tensor).run memo)
      ((do
        let (result, _) ← (action' : RealizeM _)
        return result : EvalM Tensor).run memo') (SameResult R P) := by
  rw [StateT.run_bind, StateT.run_bind]
  refine Abreast.bind (Q := fun out out' s s' => out'.1.1 = out.1.1 ∧ SameValues R out.2 out'.2 ∧
    P s s') ?_ fun out out' => .pure fun s s' answers => ⟨answers.1, answers.2.1, answers.2.2⟩
  exact run.bind fun out out' => .pure fun s s' answers => ⟨answers.1, same, answers.2.2⟩

theorem Abreast.bind_result {α γ δ : Type} {action action' : EvalM α} {memo memo' : EvalMemo}
    {rest : α → EvalM γ} {rest' : α → EvalM δ}
    {Q : γ × EvalMemo → δ × EvalMemo → Realizer → Realizer → Prop}
    (first : Abreast setting P (action.run memo) (action'.run memo') (SameResult R P))
    (second : ∀ a memo memo', SameValues R memo memo' →
      Abreast setting P ((rest a).run memo) ((rest' a).run memo') Q) :
    Abreast setting P ((action >>= rest).run memo) ((action' >>= rest').run memo') Q := by
  rw [StateT.run_bind, StateT.run_bind]
  refine first.bind fun out out' s s' answers => ?_
  obtain ⟨a, memo⟩ := out
  obtain ⟨b, memo'⟩ := out'
  obtain ⟨rfl, same, after⟩ := answers
  exact second b memo memo' same s s' after

theorem remembered_abreast (biUnique : Relator.BiUnique R) {m n : NodeId} (related : R m n)
    {memo memo' : EvalMemo} (same : SameValues R memo memo') {compute compute' : EvalM Tensor}
    (computed : Abreast setting P (compute.run memo) (compute'.run memo') (SameResult R P)) :
    Abreast setting P ((Eval.remembered m compute).run memo) ((Eval.remembered n compute').run memo')
      (SameResult R P) := by
  have sameHere := same m n related
  cases known : memo[m]? with
  | some t =>
      rw [known] at sameHere
      rw [remembered_known known, remembered_known sameHere]
      exact .pure fun _ _ before => ⟨rfl, same, before⟩
  | none =>
      rw [known] at sameHere
      rw [remembered_new known, remembered_new sameHere]
      refine computed.bind fun out out' => .pure fun s s' answers => ?_
      obtain ⟨value, sameAfter, after⟩ := answers
      refine ⟨value, ?_, after⟩
      rw [value]
      exact sameAfter.insert biUnique related _

theorem callValue_abreast {callee : Callee} {args : List Tensor}
    (reads : ∀ g name, callee = .func g name → g ≠ id ∧ ReadAbreast setting P id copy reader reader' g) :
    Abreast setting P (Eval.callValue reader callee args) (Eval.callValue reader' callee args)
      (Same P) := by
  unfold Eval.callValue
  cases callee with
  | primitive name =>
      refine .bind_read ?_
      split
      next => exact .throw
      next => exact .ofExcept
  | image source => exact .bind_except fun _ _ => .ofExcept
  | func g name =>
      obtain ⟨other, read⟩ := reads g name rfl
      refine .bind_except fun out _ => ?_
      have here := read out.1 (out.2.map (Tensor.convert .int64))
      rwa [standIn_of_ne other] at here

theorem headValue_abreast {head : Head} {dtype : DType} {operands : List Tensor}
    (reads : ∀ g name, head = .call (.func g name) →
      g ≠ id ∧ ReadAbreast setting P id copy reader reader' g) :
    Abreast setting P (Eval.headValue reader head dtype operands)
      (Eval.headValue reader' head dtype operands) (Same P) := by
  unfold Eval.headValue
  split
  next => exact .pure fun _ _ before => ⟨rfl, before⟩
  next => exact .throw
  next => exact .ofExcept
  next => exact .throw
  next => exact .ofExcept
  next => exact .throw
  next => exact callValue_abreast fun g name isCallee => reads g name (by rw [isCallee])
  next => exact .throw
  next => exact .ofExcept
  next => exact .throw
  next => split <;> exact .throw

theorem evalAll_abreast {env : Environment} {es es' : List Expr}
    (each : List.Forall₂ (fun e e' => ∀ memo memo', SameValues R memo memo' →
      Abreast setting P ((e.eval reader env).run memo) ((e'.eval reader' env).run memo')
        (SameResult R P)) es es')
    {memo memo' : EvalMemo} (same : SameValues R memo memo') :
    Abreast setting P ((evalAll reader env es).run memo) ((evalAll reader' env es').run memo')
      (SameResult R P) := by
  induction each generalizing memo memo' with
  | nil => exact .pure fun _ _ before => ⟨rfl, same, before⟩
  | cons first _ ih =>
      rw [evalAll, evalAll]
      refine (first memo memo' same).bind_result fun t memo1 memo1' same1 => ?_
      refine (ih same1).bind_result fun ts memo2 memo2' same2 => ?_
      exact .pure fun _ _ before => ⟨rfl, same2, before⟩

theorem eval_operands {env : Environment} {node : NodeId} {head : Head} {dtype : DType}
    {operands : List Expr} (notConst : ∀ c, head ≠ .const c)
    (notVariable : ∀ name index, head ≠ .var name index) (notOther : ∀ kind, head ≠ .other kind)
    (notLet : ∀ name value body rest, head = .letIn name → operands ≠ value :: body :: rest)
    (notCast : ∀ x rest, head = .cast → operands ≠ x :: rest) :
    Expr.eval reader env (.node node head dtype operands) = Eval.remembered node (do
      let values ← evalAll reader env operands
      (Eval.headValue reader head dtype values : RealizeM Tensor)) := by
  unfold Expr.eval
  split
  next same => cases same; exact absurd rfl (notConst _)
  next same => cases same; exact absurd rfl (notVariable _ _)
  next same => cases same
  next same => cases same; exact absurd rfl (notLet _ _ _ _ rfl)
  next same => cases same; exact absurd rfl (notCast _ _ rfl)
  next same => cases same; exact absurd rfl (notOther _)
  next same => cases same; rfl

theorem eval_call {env : Environment} {node : NodeId} {callee : Callee} {dtype : DType}
    {operands : List Expr} :
    Expr.eval reader env (.node node (.call callee) dtype operands) = Eval.remembered node (do
      let values ← evalAll reader env operands
      (Eval.headValue reader (.call callee) dtype values : RealizeM Tensor)) :=
  eval_operands (by simp) (by simp) (by simp) (by simp) (by simp)

theorem callCopy_abreast (read : ReadAbreast setting P id copy reader reader' id) {name name' : String}
    {dtype : DType} {args : List Tensor} :
    Abreast setting P (Eval.headValue reader (.call (.func id name)) dtype args)
      (Eval.headValue reader' (.call (.func copy name')) dtype args) (Same P) := by
  unfold Eval.headValue Eval.callValue
  refine .bind_except fun out _ => ?_
  have here := read out.1 (out.2.map (Tensor.convert .int64))
  rwa [standIn_self] at here

theorem eval_abreast (biUnique : Relator.BiUnique R) {e e' : Expr} (mirrored : Mirrored id copy R e e')
    (reads : ∀ callee, e.Calls callee → ReadAbreast setting P id copy reader reader' callee)
    (env : Environment) {memo memo' : EvalMemo} (same : SameValues R memo memo') :
    Abreast setting P ((e.eval reader env).run memo) ((e'.eval reader' env).run memo')
      (SameResult R P) := by
  induction e using Expr.induction generalizing e' env memo memo' with
  | node node head dtype operands ih =>
      have operand (x : Expr) (member : x ∈ operands) (x' : Expr) (below : Mirrored id copy R x x')
          (env : Environment) (memo memo' : EvalMemo) (same : SameValues R memo memo') :=
        ih x member below (fun callee called => reads callee (called.sub (.operand member .here)))
          env same
      have all {operands' : List Expr} (below : List.Forall₂ (Mirrored id copy R) operands operands') :
          Abreast setting P ((evalAll reader env operands).run memo)
            ((evalAll reader' env operands').run memo') (SameResult R P) :=
        evalAll_abreast (Mirrored.operands_induction below
          fun x member x' below => operand x member x' below env) same
      cases mirrored with
      | leaf named =>
          cases head <;> cases named
          rw [Expr.eval, Expr.eval]
          exact .lift .ofExcept same
      | call related below =>
          -- Here the two part: one realizer reads the function and the other its copy.
          rw [eval_call, eval_call]
          refine remembered_abreast biUnique related same ?_
          refine (all below).bind_result fun ts memo memo' same => .lift ?_ same
          exact callCopy_abreast (reads id (calls_node.2 (.inl ⟨_, rfl⟩)))
      | node related other plain below =>
          have head_abreast {ts : List Tensor} : Abreast setting P
              (Eval.headValue reader head dtype ts) (Eval.headValue reader' head dtype ts) (Same P) := by
            refine headValue_abreast fun g name isCall => ⟨?_, reads g ?_⟩
            · rintro rfl
              exact other name isCall
            · exact calls_node.2 (.inl ⟨name, isCall⟩)
          have operands_abreast : Abreast setting P
              ((Eval.remembered node (do
                let values ← evalAll reader env operands
                (Eval.headValue reader head dtype values : RealizeM Tensor)) : EvalM Tensor).run memo)
              ((Eval.remembered _ (do
                let values ← evalAll reader' env _
                (Eval.headValue reader' head dtype values : RealizeM Tensor)) : EvalM Tensor).run memo')
              (SameResult R P) :=
            remembered_abreast biUnique related same ((all below).bind_result
              fun ts memo memo' same => .lift head_abreast same)
          cases head with
          | const c =>
              rw [Expr.eval, Expr.eval]
              exact .lift .ofExcept same
          | var name index => exact absurd rfl (plain name index)
          | other kind =>
              rw [Expr.eval, Expr.eval]
              exact .lift head_abreast same
          | letIn name =>
              by_cases isLet : ∃ value body rest, operands = value :: body :: rest
              · obtain ⟨value, body, rest, rfl⟩ := isLet
                obtain ⟨value', _, first, more, rfl⟩ := List.forall₂_cons_left_iff.1 below
                obtain ⟨body', rest', second, _, rfl⟩ := List.forall₂_cons_left_iff.1 more
                rw [Expr.eval, Expr.eval]
                refine remembered_abreast biUnique related same ?_
                refine (operand value (.head _) value' first env memo memo' same).bind_result
                  fun t memo memo' same => ?_
                exact .lift_value (operand body (.tail _ (.head _)) body' second _ {} {} .empty) same
              · have notLet (other : String) (value body : Expr) (rest : List Expr) :
                    operands ≠ value :: body :: rest := fun same => isLet ⟨value, body, rest, same⟩
                rw [eval_operands (by simp) (by simp) (by simp) (fun n v b r _ => notLet n v b r)
                  (by simp), eval_operands (by simp) (by simp) (by simp) ?_ (by simp)]
                · exact operands_abreast
                · rintro _ value' body' rest' _ rfl
                  obtain ⟨value, _, _, more, rfl⟩ := List.forall₂_cons_right_iff.1 below
                  obtain ⟨body, rest, _, _, rfl⟩ := List.forall₂_cons_right_iff.1 more
                  exact isLet ⟨value, body, rest, rfl⟩
          | cast =>
              cases below with
              | nil =>
                  rw [eval_operands (by simp) (by simp) (by simp) (by simp) (by simp),
                    eval_operands (by simp) (by simp) (by simp) (by simp) (by simp)]
                  exact operands_abreast
              | cons first rest =>
                  rw [Expr.eval, Expr.eval]
                  refine remembered_abreast biUnique related same ?_
                  exact (operand _ (.head _) _ first env memo memo' same).bind_result
                    fun t memo memo' same => .lift head_abreast same
          | binary op | select | call callee =>
              rw [eval_operands (by simp) (by simp) (by simp) (by simp) (by simp),
                eval_operands (by simp) (by simp) (by simp) (by simp) (by simp)]
              exact operands_abreast
  | reduction node domain axis least extent =>
      cases mirrored
      rw [Expr.eval, Expr.eval]
      exact .lift .ofExcept same

theorem evaluate_abreast (biUnique : Relator.BiUnique R) {e e' : Expr}
    (mirrored : Mirrored id copy R e e')
    (reads : ∀ callee, e.Calls callee → ReadAbreast setting P id copy reader reader' callee)
    (env : Environment) :
    Abreast setting P (e.evaluate reader env) (e'.evaluate reader' env) (Same P) :=
  (eval_abreast biUnique mirrored reads env .empty).bind fun _ _ => .pure fun _ _ answers =>
    ⟨answers.1, answers.2.2⟩

theorem evalBoth_abreast (biUnique : Relator.BiUnique R) {value value' : Expr} {args args' : List Expr}
    (mirrored : Mirrored id copy R value value') (mirroredArgs : List.Forall₂ (Mirrored id copy R) args args')
    (reads : ∀ e ∈ value :: args, ∀ callee, e.Calls callee →
      ReadAbreast setting P id copy reader reader' callee) (env : Environment) :
    Abreast setting P
      (StateT.run (do
        let value ← value.eval reader env
        let indices ← evalAll reader env args
        return (value, indices) : EvalM (Tensor × List Tensor)) {})
      (StateT.run (do
        let value ← value'.eval reader' env
        let indices ← evalAll reader' env args'
        return (value, indices) : EvalM (Tensor × List Tensor)) {}) (SameResult R P) := by
  have start : SameValues R {} {} := .empty
  refine (eval_abreast biUnique mirrored (reads value (.head _)) env start).bind_result
    fun t memo memo' same => ?_
  refine (evalAll_abreast (Mirrored.operands_induction mirroredArgs fun e member e' mirrored memo memo'
    same => eval_abreast biUnique mirrored (reads e (.tail _ member)) env same) same).bind_result
    fun ts memo memo' same => ?_
  exact .pure fun _ _ before => ⟨rfl, same, before⟩

end

end ReverseMode
