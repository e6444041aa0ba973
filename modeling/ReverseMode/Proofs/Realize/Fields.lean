import Mathlib.Data.List.Forall2
import ReverseMode.Proofs.Nodes.Free
import ReverseMode.Proofs.Realize.Reading

namespace ReverseMode

theorem Except.bind_ok {ε α β : Type} {first : Except ε α} {rest : α → Except ε β} {b : β} :
    (first >>= rest) = .ok b ↔ ∃ a, first = .ok a ∧ rest a = .ok b := by
  cases first with
  | error => exact iff_of_false (fun absurd => nomatch absurd) fun ⟨_, absurd, _⟩ => nomatch absurd
  | ok a => exact ⟨fun run => ⟨a, rfl, run⟩, fun ⟨_, same, run⟩ => by cases same; exact run⟩

/-- Elements of every function at all indices. -/
abbrev Fields := FuncId → Field

namespace Fields

variable (kernels : Kernels) (fields : Fields)

def call (callee : Callee) (args : List Tensor) : Except Fault Tensor :=
  match callee with
  | .primitive name =>
      match kernels.find? name with
      | none => .error (.noKernel name)
      | some kernel => kernel.apply args
  | .image source => do
      let (shape, coordinates) ← Tensor.broadcastAll args
      Eval.readImage source shape (coordinates.map (Tensor.convert .int64))
  | .func id _ => do
      let (shape, coordinates) ← Tensor.broadcastAll args
      return (fields id).gather shape (coordinates.map (Tensor.convert .int64))

def apply (head : Head) (dtype : DType) (operands : List Tensor) : Except Fault Tensor :=
  match head, operands with
  | .cast, x :: _ => .ok (x.convert (.ofDType dtype))
  | .binary op, [a, b] => Tensor.binary op dtype.isFloat a b
  | .select, [condition, ifTrue, ifFalse] => Tensor.choose condition ifTrue ifFalse
  | .call callee, args => call kernels fields callee args
  | _, _ => .error .missingOperand

mutual

def eval (env : Environment) : Expr → Except Fault Tensor
  | .node _ (.const c) dtype _ => Eval.constant dtype c
  | .node _ (.var name _) _ _ => Eval.lookUp env name
  | .reduction _ domain axis _ _ => Eval.lookUp env (axisName domain axis)
  | .node _ (.letIn name) _ (value :: body :: _) => do
      let bound ← eval env value
      eval ((name, bound) :: env) body
  | .node _ .cast dtype (x :: _) => do
      let value ← eval env x
      apply kernels fields .cast dtype [value]
  | .node _ head dtype operands => do
      let values ← evalAll env operands
      apply kernels fields head dtype values

def evalAll (env : Environment) : List Expr → Except Fault (List Tensor)
  | [] => .ok []
  | e :: rest => do
      let first ← eval env e
      let others ← evalAll env rest
      return first :: others

end

variable {kernels : Kernels} {fields : Fields} {env : Environment}

theorem evalAll_eq_ok {es : List Expr} {ts : List Tensor} : evalAll kernels fields env es = .ok ts ↔
    List.Forall₂ (fun e t => eval kernels fields env e = .ok t) es ts := by
  induction es generalizing ts with
  | nil =>
      rw [evalAll, List.forall₂_nil_left_iff]
      exact ⟨fun same => by cases same; rfl, fun same => by rw [same]⟩
  | cons e rest ih =>
      rw [evalAll, Except.bind_ok, List.forall₂_cons_left_iff]
      refine exists_congr fun first => ?_
      rw [Except.bind_ok]
      constructor
      · rintro ⟨here, others, later, same⟩
        cases same
        exact ⟨others, here, ih.1 later, rfl⟩
      · rintro ⟨others, here, later, rfl⟩
        exact ⟨here, others, ih.2 later, rfl⟩

theorem call_elementwise (callee : Callee) : Tensor.ElementwiseAll (call kernels fields callee) := by
  intro grid args t fits run
  unfold call at run ⊢
  split at run
  next name =>
    split at run
    next => cases run
    next kernel known =>
      obtain ⟨keeps, each⟩ := Tensor.elementwise_kernel kernel fits run
      exact ⟨keeps, fun position within => by simpa [known] using each position within⟩
  next source =>
    obtain ⟨⟨shape, arrays⟩, common, read⟩ := Except.bind_ok.1 run
    obtain ⟨keeps, each⟩ := readImage_elementwise fits common read
    refine ⟨keeps, fun position within => ?_⟩
    rw [Tensor.broadcastAll_pick]
    exact each position within
  next id name =>
    obtain ⟨⟨shape, arrays⟩, common, read⟩ := Except.bind_ok.1 run
    cases read
    obtain ⟨keeps, each⟩ := Tensor.gather_elementwise (fields id) fits common
    refine ⟨keeps, fun position within => ?_⟩
    rw [Tensor.broadcastAll_pick]
    exact congrArg Except.ok (each position within)

theorem apply_elementwise (head : Head) (dtype : DType) :
    Tensor.ElementwiseAll (apply kernels fields head dtype) := by
  intro grid args t fits run
  unfold apply at run ⊢
  split at run
  next x _ =>
    cases run
    have fitsFirst := fits x (.head _)
    exact ⟨Tensor.fits_convert _ fitsFirst, fun position within =>
      congrArg Except.ok (Tensor.pick_convert fitsFirst within).symm⟩
  next op a b =>
    exact Tensor.elementwise_binary op _ (fits a (.head _)) (fits b (.tail _ (.head _))) run
  next => exact Tensor.choose_elementwise fits run
  next => exact call_elementwise _ fits run
  next => cases run

end Fields

namespace Environment

def Fits (grid : List Nat) (env : Environment) : Prop := ∀ entry ∈ env, entry.2.Fits grid

def pick (position : Nat) (env : Environment) : Environment :=
  env.map fun entry => (entry.1, entry.2.pick position)

theorem lookup_pick (position : Nat) (env : Environment) (name : String) :
    (env.pick position).lookup name = (env.lookup name).map (Tensor.pick position) := by
  induction env with
  | nil => rfl
  | cons entry rest ih =>
      obtain ⟨other, t⟩ := entry
      simp only [pick, List.map_cons, List.lookup_cons] at ih ⊢
      split
      · rfl
      · exact ih

theorem Fits.lookup {grid : List Nat} {env : Environment} (fits : env.Fits grid) {name : String}
    {t : Tensor} (known : Eval.lookUp env name = .ok t) : t.Fits grid ∧
      ∀ position, Eval.lookUp (env.pick position) name = .ok (t.pick position) := by
  unfold Eval.lookUp at known ⊢
  cases found : env.lookup name with
  | none => rw [found] at known; cases known
  | some values =>
      rw [found] at known
      cases known
      refine ⟨?_, fun position => by rw [lookup_pick, found]; rfl⟩
      obtain ⟨before, after, same, _⟩ := List.lookup_eq_some_iff.1 found
      exact fits (name, t) (by rw [same]; simp)

theorem Fits.cons {grid : List Nat} {env : Environment} (fits : env.Fits grid) {t : Tensor}
    (fitsFirst : t.Fits grid) (name : String) : Fits grid ((name, t) :: env) :=
  List.forall_mem_cons.2 ⟨fitsFirst, fits⟩

end Environment

namespace Fields

variable {kernels : Kernels} {fields : Fields} {grid : List Nat}

theorem constant_scalar {dtype : DType} {c : Constant} {t : Tensor}
    (run : Eval.constant dtype c = .ok t) : ∃ type e, t = .scalar type e := by
  unfold Eval.constant at run
  cases c with
  | int =>
      dsimp only at run
      split at run
      · cases run
        exact ⟨_, _, rfl⟩
      · cases run
  | float => cases run; exact ⟨_, _, rfl⟩
  | bool => cases run; exact ⟨_, _, rfl⟩

theorem evalAll_elementwise {env : Environment} {es : List Expr} {ts : List Tensor}
    (each : ∀ x ∈ es, ∀ t, eval kernels fields env x = .ok t → t.Fits grid ∧
      ∀ position < shapeSize grid, eval kernels fields (env.pick position) x = .ok (t.pick position))
    (run : evalAll kernels fields env es = .ok ts) : (∀ a ∈ ts, a.Fits grid) ∧
      ∀ position < shapeSize grid, evalAll kernels fields (env.pick position) es =
        .ok (ts.map (Tensor.pick position)) := by
  rw [evalAll_eq_ok] at run
  induction run with
  | nil => exact ⟨(fun _ absurd => nomatch absurd), fun _ _ => rfl⟩
  | @cons e t es ts here _ ih =>
      obtain ⟨fits, first⟩ := each e (.head _) t here
      obtain ⟨fitsRest, others⟩ := ih fun x member => each x (.tail _ member)
      refine ⟨List.forall_mem_cons.2 ⟨fits, fitsRest⟩, fun position within => ?_⟩
      rw [evalAll, first position within, others position within]
      rfl

theorem eval_elementwise (e : Expr) {env : Environment} (fits : env.Fits grid) {t : Tensor}
    (run : eval kernels fields env e = .ok t) : t.Fits grid ∧ ∀ position < shapeSize grid,
      eval kernels fields (env.pick position) e = .ok (t.pick position) := by
  induction e using Expr.induction generalizing env t with
  | node id head dtype operands ih =>
      unfold eval at run ⊢
      split at run
      next c =>
        obtain ⟨type, e, rfl⟩ := constant_scalar run
        exact ⟨Tensor.fits_scalar _ _ _, fun position _ => run⟩
      next =>
        obtain ⟨keeps, each⟩ := fits.lookup run
        exact ⟨keeps, fun position _ => each position⟩
      next same => cases same
      next name _ value body _ same =>
        cases same
        obtain ⟨bound, first, second⟩ := Except.bind_ok.1 run
        obtain ⟨fitsBound, eachBound⟩ := ih value (.head _) fits first
        obtain ⟨keeps, each⟩ := ih body (.tail _ (.head _)) (fits.cons fitsBound name) second
        refine ⟨keeps, fun position within => ?_⟩
        exact Except.bind_ok.2 ⟨_, eachBound position within, each position within⟩
      next x _ same =>
        cases same
        obtain ⟨value, first, second⟩ := Except.bind_ok.1 run
        obtain ⟨fitsValue, eachValue⟩ := ih x (.head _) fits first
        obtain ⟨keeps, each⟩ := apply_elementwise _ _
          (List.forall_mem_singleton.2 fitsValue) second
        refine ⟨keeps, fun position within => ?_⟩
        exact Except.bind_ok.2 ⟨_, eachValue position within, each position within⟩
      next notConst notVar notLet notCast same =>
        cases same
        obtain ⟨values, first, second⟩ := Except.bind_ok.1 run
        obtain ⟨fitsAll, eachValue⟩ :=
          evalAll_elementwise (fun x member t => ih x member fits) first
        obtain ⟨keeps, each⟩ := apply_elementwise _ _ fitsAll second
        refine ⟨keeps, fun position within => ?_⟩
        exact Except.bind_ok.2 ⟨_, eachValue position within, each position within⟩
  | reduction id domain axis least extent =>
      rw [eval] at run
      obtain ⟨keeps, each⟩ := fits.lookup run
      exact ⟨keeps, fun position _ => by rw [eval]; exact each position⟩

theorem lookUp_congr {env env' : Environment} {name : String}
    (same : env.lookup name = env'.lookup name) : Eval.lookUp env name = Eval.lookUp env' name := by
  unfold Eval.lookUp
  rw [same]

theorem evalAll_of_each {env env' : Environment} {es : List Expr} {ts : List Tensor}
    (each : ∀ x ∈ es, ∀ t, eval kernels fields env x = .ok t → eval kernels fields env' x = .ok t)
    (run : evalAll kernels fields env es = .ok ts) : evalAll kernels fields env' es = .ok ts := by
  rw [evalAll_eq_ok] at run ⊢
  exact ((List.forall₂_and_left _ _).2 ⟨fun x member => each x member, run⟩).imp
    fun x t both => both.1 t both.2

theorem eval_of_free (e : Expr) {env env' : Environment}
    (same : ∀ name, Expr.Free name e → env.lookup name = env'.lookup name) {t : Tensor}
    (run : eval kernels fields env e = .ok t) : eval kernels fields env' e = .ok t := by
  induction e using Expr.induction generalizing env env' t with
  | node id head dtype operands ih =>
      unfold eval at run ⊢
      split at run
      next => exact run
      next isNode =>
        cases isNode
        rwa [← lookUp_congr (same _ .var)]
      next isNode => cases isNode
      next name _ value body _ isNode =>
        cases isNode
        obtain ⟨bound, first, second⟩ := Except.bind_ok.1 run
        have ofBody : ∀ other, Expr.Free other body →
            List.lookup other ((name, bound) :: env) = List.lookup other ((name, bound) :: env') := by
          intro other isFree
          rw [List.lookup_cons, List.lookup_cons]
          by_cases isBound : other = name
          · simp [isBound]
          · rw [same other (.body (Ne.symm isBound) isFree)]
        exact Except.bind_ok.2 ⟨bound,
          ih value (.head _) (fun other isFree => same other (.value isFree)) first,
          ih body (.tail _ (.head _)) ofBody second⟩
      next x rest isNode =>
        cases isNode
        obtain ⟨value, first, second⟩ := Except.bind_ok.1 run
        have ofValue : ∀ name, Expr.Free name x → env.lookup name = env'.lookup name :=
          fun name isFree => same name
            (.operand (fun _ absurd => nomatch absurd) (fun _ _ absurd => nomatch absurd)
              (.head _) isFree)
        exact Except.bind_ok.2 ⟨value, ih x (.head _) ofValue first, second⟩
      next notConst notVar notLet notCast isNode =>
        cases isNode
        obtain ⟨values, first, second⟩ := Except.bind_ok.1 run
        have isNoLet : ∀ bound, head ≠ .letIn bound := by
          rintro bound rfl
          cases second
        have isNoVar : ∀ name index, head ≠ .var name index := by
          rintro name index rfl
          cases second
        refine Except.bind_ok.2 ⟨values, evalAll_of_each (fun x member t => ?_) first, second⟩
        exact ih x member fun name isFree => same name (.operand isNoLet isNoVar member isFree)
  | reduction id domain axis least extent =>
      rw [eval] at run ⊢
      rwa [← lookUp_congr (same _ (.reduction rfl))]

theorem eval_congr_env {e : Expr} {env env' : Environment}
    (same : ∀ name ∈ e.freeNames, env.lookup name = env'.lookup name) {t : Tensor} :
    eval kernels fields env e = .ok t ↔ eval kernels fields env' e = .ok t :=
  ⟨eval_of_free e fun name isFree => same name isFree.mem_freeNames,
    eval_of_free e fun name isFree => (same name isFree.mem_freeNames).symm⟩

theorem apply_congr {fields' : Fields} {head : Head} {dtype : DType} {operands : List Tensor}
    (same : ∀ id name, head = .call (.func id name) → fields id = fields' id) :
    apply kernels fields head dtype operands = apply kernels fields' head dtype operands := by
  have calls (callee : Callee) (isCall : head = .call callee) :
      call kernels fields callee operands = call kernels fields' callee operands := by
    cases callee with
    | func id name => simp only [call, same id name isCall]
    | image => rfl
    | primitive => rfl
  unfold apply
  split
  case h_4 => exact calls _ rfl
  all_goals rfl

theorem evalAll_congr {fields' : Fields} {env : Environment} {es : List Expr}
    (same : ∀ x ∈ es, eval kernels fields env x = eval kernels fields' env x) :
    evalAll kernels fields env es = evalAll kernels fields' env es := by
  induction es with
  | nil => rfl
  | cons x rest ih =>
      rw [evalAll, evalAll, same x (.head _), ih fun y member => same y (.tail _ member)]

theorem eval_congr {fields' : Fields} (e : Expr)
    (same : ∀ id, e.Calls id → fields id = fields' id) (env : Environment) :
    eval kernels fields env e = eval kernels fields' env e := by
  induction e using Expr.induction generalizing env with
  | node id head dtype operands ih =>
      have below : ∀ x ∈ operands, ∀ env, eval kernels fields env x = eval kernels fields' env x :=
        fun x member => ih x member fun id called => same id (called.sub (.operand member .here))
      unfold eval
      split
      next => rfl
      next => rfl
      next isNode => cases isNode
      next isNode =>
        cases isNode
        rw [below _ (.head _)]
        simp only [below _ (.tail _ (.head _))]
      next isNode =>
        cases isNode
        rw [below _ (.head _)]
        rfl
      next isNode =>
        cases isNode
        rw [evalAll_congr fun x member => below x member env]
        refine bind_congr fun values => apply_congr fun id name isCall => same id ?_
        exact Expr.calls_node.2 (.inl ⟨name, isCall⟩)
  | reduction => rfl

end Fields

end ReverseMode
