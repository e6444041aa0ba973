import Mathlib.Tactic.NormNum
import ReverseMode.Proofs.Nodes.Registry
import ReverseMode.Proofs.Realize.Fields
import ReverseMode.Proofs.Realize.Runs

namespace ReverseMode

open Expr

def Expr.CallsFit (arity : FuncId → Nat) (e : Expr) : Prop :=
  Every (fun x => ∀ id name, x.callee? = some (.func id name) → x.operands.length = arity id) e

structure AreCoordinates (axes : Nat) (shape : List Nat) (coordinates : List Tensor) : Prop where
  length : coordinates.length = axes
  sound : ∀ c ∈ coordinates, c.Sound
  shape : ∀ c ∈ coordinates, c.shape = shape
  small : ∀ c ∈ coordinates, ∀ e ∈ c.data, -2 ^ 63 ≤ e.toInt ∧ e.toInt < 2 ^ 63

/-- Reading keeps `P`; where the reader is trusted it answers what the fields say. -/
def Answers (setting : Realization) (P : Realizer → Prop) (arity : FuncId → Nat)
    (callable : FuncId → Prop) (trust : Prop) (fields : Fields) (reader : FuncReader) : Prop :=
  ∀ id shape coordinates, callable id → AreCoordinates (arity id) shape coordinates →
    Yields setting P P (reader id shape coordinates) fun t s =>
      P s ∧ t.Sound ∧ t.shape = shape ∧ (trust → t = (fields id).gather shape coordinates)

/-- What evaluating an expression needs to be told by a registry and a reader. -/
structure Expr.Readable (arity : FuncId → Nat) (callable : FuncId → Prop) (trust : Prop) (r : Registry)
    (e : Expr) : Prop where
  held : trust → r.Holds e
  callable : ∀ id, e.Calls id → callable id
  fit : e.CallsFit arity

section

variable {setting : Realization} {P : Realizer → Prop} {arity : FuncId → Nat}
  {callable : FuncId → Prop} {trust : Prop} {fields : Fields} {reader : FuncReader} {r : Registry}
  {grid : List Nat}

theorem Expr.Readable.operand {id : NodeId} {head : Head} {dtype : DType} {operands : List Expr}
    {x : Expr} (readable : Readable arity callable trust r (.node id head dtype operands))
    (member : x ∈ operands) : Readable arity callable trust r x where
  held trusted := (readable.held trusted).operands x member
  callable callee called := readable.callable callee (called.sub (.operand member .here))
  fit := readable.fit.sub (.operand member .here)

def IsValue (setting : Realization) (trust : Prop) (fields : Fields) (grid : List Nat)
    (env : Environment) (e : Expr) (t : Tensor) : Prop :=
  t.Fits grid ∧ (trust → fields.eval setting.kernels env e = .ok t)

def Remembers (setting : Realization) (trust : Prop) (fields : Fields) (grid : List Nat)
    (r : Registry) (env : Environment) (memo : EvalMemo) : Prop :=
  ∀ (i : NodeId) (t : Tensor), memo[i]? = some t →
    IsValue setting trust fields grid env (r.node i) t

theorem remembers_empty (env : Environment) :
    Remembers setting trust fields grid r env {} := by
  intro i t known
  rw [Std.TreeMap.getElem?_emptyc] at known
  cases known

theorem Remembers.insert {env : Environment} {memo : EvalMemo} {e : Expr} {t : Tensor}
    (remembers : Remembers setting trust fields grid r env memo) (held : trust → r.Holds e)
    (value : IsValue setting trust fields grid env e t) :
    Remembers setting trust fields grid r env (memo.insert e.id t) := by
  intro i t' known
  rw [Std.TreeMap.getElem?_insert] at known
  split at known
  next same =>
    cases known
    refine ⟨value.1, fun trusted => ?_⟩
    rw [← Std.LawfulEqOrd.eq_of_compare same, (held trusted).here.2]
    exact value.2 trusted
  next => exact remembers i t' known

theorem ElementType.wrap_int64_small (i : Int) :
    -2 ^ 63 ≤ ElementType.int64.wrap i ∧ ElementType.int64.wrap i < 2 ^ 63 := by
  have modulus : Nat.pow 2 64 = 18446744073709551616 := by norm_num
  simp only [ElementType.wrap, ElementType.family, modulus, Int.bmod_def]
  omega

theorem Element.toInt_convert_small (e : Element) :
    -2 ^ 63 ≤ (e.convert .int64).toInt ∧ (e.convert .int64).toInt < 2 ^ 63 := by
  cases e with
  | bool b => cases b <;> decide
  | int i => exact ElementType.wrap_int64_small i
  | real x =>
      change -2 ^ 63 ≤ realToInt .int64 x ∧ realToInt .int64 x < 2 ^ 63
      unfold realToInt
      dsimp only
      split
      next i _ =>
        split
        next contained =>
          have isSelf : ElementType.int64.wrap i = i := of_decide_eq_true contained
          exact isSelf ▸ ElementType.wrap_int64_small i
        next => decide
      next => decide

theorem AreCoordinates.of_args {args arrays : List Tensor} {shape : List Nat}
    (fits : ∀ a ∈ args, a.Fits grid) (common : Tensor.broadcastAll args = .ok (shape, arrays)) :
    AreCoordinates args.length shape (arrays.map (Tensor.convert .int64)) := by
  obtain ⟨_, rfl⟩ := Tensor.broadcastAll_cases common
  have each {c : Tensor} (member : c ∈ (args.map (Tensor.broadcast shape)).map
      (Tensor.convert .int64)) : c.Sound ∧ c.shape = shape ∧
        ∀ e ∈ c.data, -2 ^ 63 ≤ e.toInt ∧ e.toInt < 2 ^ 63 := by
    simp only [List.map_map, List.mem_map] at member
    obtain ⟨a, among, rfl⟩ := member
    refine ⟨Tensor.sound_map _ _ (Tensor.broadcast_sound shape (fits a among).sound),
      Tensor.broadcast_shape shape a, fun e isEntry => ?_⟩
    obtain ⟨source, _, rfl⟩ := Array.mem_map.1 isEntry
    exact Element.toInt_convert_small source
  exact ⟨by simp, fun c member => (each member).1, fun c member => (each member).2.1,
    fun c member => (each member).2.2⟩

theorem yields_value {result : Except Fault Tensor} {operation : List Tensor → Except Fault Tensor}
    (elementwise : Tensor.ElementwiseAll operation) {args : List Tensor}
    (fits : ∀ a ∈ args, a.Fits grid) (same : ∀ t, result = .ok t → operation args = .ok t) :
    Yields setting P P (liftM result : RealizeM Tensor) fun t s =>
      P s ∧ t.Fits grid ∧ (trust → operation args = .ok t) :=
  .ofExcept (fun t run _ before =>
    ⟨before, (elementwise fits (same t run)).1, fun _ => same t run⟩) fun _ before => before

theorem callValue_yields (answers : Answers setting P arity callable trust fields reader)
    {callee : Callee} {args : List Tensor}
    (allowed : ∀ id name, callee = .func id name → callable id ∧ args.length = arity id)
    (fits : ∀ a ∈ args, a.Fits grid) :
    Yields setting P P (Eval.callValue reader callee args) fun t s =>
      P s ∧ t.Fits grid ∧ (trust → Fields.call setting.kernels fields callee args = .ok t) := by
  have elementwise : Tensor.ElementwiseAll (Fields.call setting.kernels fields callee) :=
    Fields.call_elementwise callee
  unfold Eval.callValue
  cases callee with
  | primitive name =>
      refine Yields.bind_read ?_
      split
      next => exact .throw fun _ before => before
      next kernel known =>
        refine yields_value elementwise fits fun t run => ?_
        simpa [Fields.call, known] using run
  | image source =>
      refine Yields.bind_except (fun _ before => before) fun out common => ?_
      refine yields_value elementwise fits fun t run => ?_
      exact Except.bind_ok.2 ⟨_, common, run⟩
  | func id name =>
      refine Yields.bind_except (fun _ before => before) ?_
      rintro ⟨shape, arrays⟩ common
      obtain ⟨isCallable, enough⟩ := allowed id name rfl
      have coordinates := AreCoordinates.of_args fits common
      rw [enough] at coordinates
      refine (answers id shape _ isCallable coordinates).mono (fun _ before => before) ?_
        fun _ failed => failed
      rintro t s ⟨after, sound, isShape, gathered⟩
      refine ⟨after, ⟨sound, ?_⟩, fun trusted => ?_⟩
      · rw [isShape]
        exact (Tensor.commonShape_cases fits (Tensor.broadcastAll_cases common).1).imp_left And.left
      · exact Except.bind_ok.2 ⟨_, common, congrArg Except.ok (gathered trusted).symm⟩

theorem headValue_yields (answers : Answers setting P arity callable trust fields reader)
    {head : Head} {dtype : DType} {operands : List Tensor} (noConstant : ∀ c, head ≠ .const c)
    (allowed : ∀ id name, head = .call (.func id name) → callable id ∧ operands.length = arity id)
    (fits : ∀ a ∈ operands, a.Fits grid) :
    Yields setting P P (Eval.headValue reader head dtype operands) fun t s =>
      P s ∧ t.Fits grid ∧
        (trust → Fields.apply setting.kernels fields head dtype operands = .ok t) := by
  have elementwise : Tensor.ElementwiseAll (Fields.apply setting.kernels fields head dtype) :=
    Fields.apply_elementwise head dtype
  unfold Eval.headValue
  split
  next => exact .pure fun s before => ⟨before, (elementwise fits rfl).1, fun _ => rfl⟩
  next => exact .throw fun _ before => before
  next => exact yields_value elementwise fits fun t run => run
  next => exact .throw fun _ before => before
  next => exact yields_value elementwise fits fun t run => run
  next => exact .throw fun _ before => before
  next =>
    exact callValue_yields answers (fun id name isCallee => allowed id name (by rw [isCallee])) fits
  next => exact .throw fun _ before => before
  next => exact absurd rfl (noConstant _)
  next => exact .throw fun _ before => before
  next => split <;> exact .throw fun _ before => before

theorem remembered_known {memo : EvalMemo} {id : NodeId} {compute : EvalM Tensor} {t : Tensor}
    (known : memo[id]? = some t) : (Eval.remembered id compute).run memo = pure (t, memo) := by
  unfold Eval.remembered
  rw [StateT.run_bind]
  simp [known]

theorem remembered_new {memo : EvalMemo} {id : NodeId} {compute : EvalM Tensor}
    (unknown : memo[id]? = none) : (Eval.remembered id compute).run memo =
      compute.run memo >>= fun out => pure (out.1, out.2.insert id out.1) := by
  unfold Eval.remembered
  rw [StateT.run_bind]
  simp [unknown]

theorem remembered_yields {env : Environment} {memo : EvalMemo} {e : Expr} {compute : EvalM Tensor}
    (held : trust → r.Holds e) (remembers : Remembers setting trust fields grid r env memo)
    (computed : Yields setting P P (compute.run memo) fun out s => P s ∧
      IsValue setting trust fields grid env e out.1 ∧
      Remembers setting trust fields grid r env out.2) :
    Yields setting P P ((Eval.remembered e.id compute).run memo) fun out s => P s ∧
      IsValue setting trust fields grid env e out.1 ∧
      Remembers setting trust fields grid r env out.2 := by
  cases known : memo[e.id]? with
  | some t =>
    rw [remembered_known known]
    refine .pure fun s before => ⟨before, ?_, remembers⟩
    obtain ⟨fits, value⟩ := remembers _ _ known
    refine ⟨fits, fun trusted => ?_⟩
    rw [← (held trusted).here.2]
    exact value trusted
  | none =>
    rw [remembered_new known]
    refine computed.bind fun out => .pure ?_
    rintro s ⟨before, value, remembersLater⟩
    exact ⟨before, value, remembersLater.insert held value⟩

theorem evalAll_yields {env : Environment} {es : List Expr} {memo : EvalMemo}
    (each : ∀ e ∈ es, ∀ memo, Remembers setting trust fields grid r env memo →
      Yields setting P P ((e.eval reader env).run memo) fun out s => P s ∧
        IsValue setting trust fields grid env e out.1 ∧
        Remembers setting trust fields grid r env out.2)
    (remembers : Remembers setting trust fields grid r env memo) :
    Yields setting P P ((evalAll reader env es).run memo) fun out s => P s ∧
      List.Forall₂ (IsValue setting trust fields grid env) es out.1 ∧
      Remembers setting trust fields grid r env out.2 := by
  induction es generalizing memo with
  | nil => exact .pure fun s before => ⟨before, .nil, remembers⟩
  | cons e rest ih =>
      rw [evalAll, StateT.run_bind]
      refine (each e (.head _) memo remembers).bind_fact ?_
      rintro ⟨t, later⟩ ⟨value, remembersLater⟩
      dsimp only
      rw [StateT.run_bind]
      refine (ih (fun x member => each x (.tail _ member)) remembersLater).bind_fact ?_
      rintro ⟨ts, last⟩ ⟨values, remembersLast⟩
      exact .pure fun s before => ⟨before, .cons value values, remembersLast⟩

theorem fits_of_areValues {env : Environment} {es : List Expr} {ts : List Tensor}
    (areValues : List.Forall₂ (IsValue setting trust fields grid env) es ts) :
    ∀ t ∈ ts, t.Fits grid := by
  induction areValues with
  | nil => exact fun _ absurd => nomatch absurd
  | cons value _ ih => exact List.forall_mem_cons.2 ⟨value.1, ih⟩

theorem leaf_yields {env : Environment} {memo : EvalMemo} {e : Expr} {result : Except Fault Tensor}
    (remembers : Remembers setting trust fields grid r env memo)
    (value : ∀ t, result = .ok t → IsValue setting trust fields grid env e t) :
    Yields setting P P ((liftM (liftM result : RealizeM Tensor) : EvalM Tensor).run memo) fun out s =>
      P s ∧ IsValue setting trust fields grid env e out.1 ∧
        Remembers setting trust fields grid r env out.2 :=
  .lift (.ofExcept (fun t run _ before => ⟨before, value t run, remembers⟩) fun _ before => before)

theorem node_yields (answers : Answers setting P arity callable trust fields reader)
    {env : Environment} {memo : EvalMemo} {head : Head} {dtype : DType} {operands : List Tensor}
    {e : Expr} (noConstant : ∀ c, head ≠ .const c)
    (allowed : ∀ id name, head = .call (.func id name) → callable id ∧ operands.length = arity id)
    (fits : ∀ a ∈ operands, a.Fits grid)
    (remembers : Remembers setting trust fields grid r env memo)
    (isNode : trust → fields.eval setting.kernels env e =
      Fields.apply setting.kernels fields head dtype operands) :
    Yields setting P P
      ((liftM (Eval.headValue reader head dtype operands) : EvalM Tensor).run memo) fun out s =>
        P s ∧ IsValue setting trust fields grid env e out.1 ∧
          Remembers setting trust fields grid r env out.2 := by
  refine .lift ((headValue_yields answers noConstant allowed fits).mono (fun _ before => before) ?_
    fun _ failed => failed)
  rintro t s ⟨after, keeps, value⟩
  exact ⟨after, ⟨keeps, fun trusted => (isNode trusted).trans (value trusted)⟩, remembers⟩

theorem lookUp_isValue {env : Environment} (fits : env.Fits grid) {e : Expr} {name : String}
    (isLookUp : fields.eval setting.kernels env e = Eval.lookUp env name) {t : Tensor}
    (run : Eval.lookUp env name = .ok t) : IsValue setting trust fields grid env e t :=
  ⟨(fits.lookup run).1, fun _ => isLookUp.trans run⟩

theorem eval_yields (answers : Answers setting P arity callable trust fields reader) (e : Expr)
    (readable : Readable arity callable trust r e) {env : Environment} (fits : env.Fits grid)
    {memo : EvalMemo} (remembers : Remembers setting trust fields grid r env memo) :
    Yields setting P P ((e.eval reader env).run memo) fun out s => P s ∧
      IsValue setting trust fields grid env e out.1 ∧
      Remembers setting trust fields grid r env out.2 := by
  induction e using Expr.induction generalizing env memo with
  | node id head dtype operands ih =>
      have enough : ∀ callee name, head = .call (.func callee name) →
          callable callee ∧ operands.length = arity callee := by
        rintro callee name rfl
        exact ⟨readable.callable callee (calls_node.2 (.inl ⟨name, rfl⟩)),
          readable.fit.here callee name rfl⟩
      unfold Expr.eval
      split
      next isNode =>
        cases isNode
        refine leaf_yields remembers fun t run => ?_
        obtain ⟨type, e, rfl⟩ := Fields.constant_scalar run
        exact ⟨Tensor.fits_scalar _ _ _, fun _ => by rw [Fields.eval]; exact run⟩
      next isNode =>
        cases isNode
        exact leaf_yields remembers fun t => lookUp_isValue fits (by rw [Fields.eval])
      next isNode => cases isNode
      next name _ value body rest isNode =>
        cases isNode
        refine remembered_yields readable.held remembers ?_
        rw [StateT.run_bind]
        have isOperand : body ∈ value :: body :: rest := .tail _ (.head _)
        refine (ih value (.head _) (readable.operand (.head _)) fits remembers).bind_fact ?_
        rintro ⟨bound, later⟩ ⟨isBound, remembersLater⟩
        dsimp only
        rw [StateT.run_bind]
        -- The body is evaluated with a memo of its own, as its nodes have other values where the name
        -- is bound.
        refine (Yields.lift (R := fun out s => P s ∧
          IsValue setting trust fields grid ((name, bound) :: env) body out.1.1 ∧ out.2 = later)
          ((ih body isOperand (readable.operand isOperand) (fits.cons isBound.1 name)
            (remembers_empty _)).mono (fun _ before => before)
            (fun _ _ after => ⟨after.1, after.2.1, rfl⟩) fun _ failed => failed)).bind_fact ?_
        rintro ⟨⟨t, _⟩, _⟩ ⟨isBody, rfl⟩
        refine .pure fun s before => ⟨before, ⟨isBody.1, fun trusted => ?_⟩, remembersLater⟩
        rw [Fields.eval, isBound.2 trusted]
        exact isBody.2 trusted
      next x rest isNode =>
        cases isNode
        refine remembered_yields readable.held remembers ?_
        rw [StateT.run_bind]
        refine (ih x (.head _) (readable.operand (.head _)) fits remembers).bind_fact ?_
        rintro ⟨value, later⟩ ⟨isX, remembersLater⟩
        refine node_yields answers (by simp) (by simp) (List.forall_mem_singleton.2 isX.1)
          remembersLater fun trusted => ?_
        rw [Fields.eval, isX.2 trusted]
        rfl
      next isNode =>
        cases isNode
        refine .lift ?_
        unfold Eval.headValue
        dsimp only
        split <;> exact .throw fun _ before => before
      next notConst notVar notLet notCast notOther isNode =>
        cases isNode
        refine remembered_yields readable.held remembers ?_
        rw [StateT.run_bind]
        refine (evalAll_yields (fun x member memo => ih x member (readable.operand member) fits)
          remembers).bind_fact ?_
        rintro ⟨values, later⟩ ⟨areValues, remembersLater⟩
        refine node_yields answers ?_ (fun callee name isCall => ?_) ?_ remembersLater fun trusted => ?_
        · rintro c rfl
          exact notConst _ rfl
        · exact areValues.length_eq ▸ enough callee name isCall
        · exact fits_of_areValues areValues
        · rw [Fields.eval, Fields.evalAll_eq_ok.2 (areValues.imp fun _ _ value => value.2 trusted)]
          · rfl
          all_goals assumption
  | reduction id domain axis least extent =>
      unfold Expr.eval
      exact leaf_yields remembers fun t => lookUp_isValue fits (by rw [Fields.eval])

theorem evaluate_yields (answers : Answers setting P arity callable trust fields reader) {e : Expr}
    (readable : Readable arity callable trust r e) {env : Environment} (fits : env.Fits grid) :
    Yields setting P P (e.evaluate reader env) fun t s =>
      P s ∧ IsValue setting trust fields grid env e t :=
  (eval_yields answers e readable fits (remembers_empty env)).bind_fact fun _ ⟨value, _⟩ =>
    .pure fun _ before => ⟨before, value⟩

theorem evalBoth_yields (answers : Answers setting P arity callable trust fields reader)
    {value : Expr} {args : List Expr}
    (readable : ∀ e ∈ value :: args, Readable arity callable trust r e) {env : Environment}
    (fits : env.Fits grid) :
    Yields setting P P (StateT.run (do
      let value ← value.eval reader env
      let indices ← evalAll reader env args
      return (value, indices) : EvalM (Tensor × List Tensor)) {}) fun out s => P s ∧
        IsValue setting trust fields grid env value out.1.1 ∧
        List.Forall₂ (IsValue setting trust fields grid env) args out.1.2 := by
  rw [StateT.run_bind]
  refine (eval_yields answers value (readable value (.head _)) fits
    (remembers_empty _)).bind_fact ?_
  rintro ⟨t, memo⟩ ⟨isValue, remembers⟩
  dsimp only
  rw [StateT.run_bind]
  refine (evalAll_yields (fun e member memo remembers => eval_yields answers e
    (readable e (.tail _ member)) fits remembers) remembers).bind_fact ?_
  rintro ⟨indices, _⟩ ⟨areIndices, _⟩
  exact .pure fun _ before => ⟨before, isValue, areIndices⟩

end

end ReverseMode
