import Mathlib.Tactic.FieldSimp
import Mathlib.Tactic.Ring
import ReverseMode.Proofs.Exact.Bindings

namespace ReverseMode

def CallValues.rigid (answers : CallValues ℚ) : CallValues (DualNumber ℚ) :=
  fun callee args => ofRat (answers callee args)

def rigidly (env : String → ℚ) : String → DualNumber ℚ := fun name => ofRat (env name)

def nudgeAt (k : NodeId) : NodeId → DualNumber ℚ := fun id => if id = k then DualNumber.eps else 0

theorem standard_nudgeAt (k : NodeId) : (fun id => standard (nudgeAt k id)) = fun _ => 0 := by
  funext id
  unfold nudgeAt
  split
  · exact DualNumber.fst_eps
  · rfl

theorem snd_nudgeAt (k id : NodeId) : (nudgeAt k id).snd = if id = k then 1 else 0 := by
  unfold nudgeAt
  split
  · exact DualNumber.snd_eps
  · rfl

namespace Expr

/-- The infinitesimal part of a value when every occurrence of the node is increased by an
infinitesimal. -/
def sensitivity (answers : CallValues ℚ) (env : String → ℚ) (e : Expr) (k : NodeId) : ℚ :=
  (exactWith (nudgeAt k) answers.rigid (rigidly env) e).snd

def binarySlopes (op : BinaryOp) (a b : ℚ) : List ℚ :=
  match op with
  | .add => [1, 1]
  | .sub => [1, -1]
  | .mul => [b, a]
  | .div => [1 / b, -a / (b * b)]
  | .min => [truth (a ≤ b), truth (b ≤ a)]
  | .max => [truth (b ≤ a), truth (a ≤ b)]
  | _ => []

theorem snd_truth (p : Prop) [Decidable p] : (truth p : DualNumber ℚ).snd = 0 := by
  unfold truth
  split <;> rfl

theorem snd_binary {op : BinaryOp} {dtype : DType} {a b : DualNumber ℚ}
    (division : op = .div → dtype = .float32 ∧ b.fst ≠ 0)
    (extremum : op = .min ∨ op = .max → a.fst ≠ b.fst) :
    (op.exact dtype a b).snd =
      (([a.snd, b.snd].zip (binarySlopes op a.fst b.fst)).map fun (d, slope) => slope * d).sum := by
  cases op with
  | add | sub => simp [BinaryOp.exact, binarySlopes, sub_eq_add_neg]
  | mul => simp [BinaryOp.exact, binarySlopes, mul_comm, add_comm]
  | div =>
      obtain ⟨rfl, divisor⟩ := division rfl
      simp only [BinaryOp.exact, binarySlopes, DType.isFloat, if_true, snd_div a b divisor,
        List.zip_cons_cons, List.zip_nil_right, List.map_cons, List.map_nil, List.sum_cons,
        List.sum_nil]
      field_simp
      ring
  | min | max =>
      rcases lt_or_gt_of_ne (extremum (by simp)) with less | greater
      · simp [BinaryOp.exact, binarySlopes, truth, less.le, less.not_ge]
      · simp [BinaryOp.exact, binarySlopes, truth, greater.le, greater.not_ge]
  | _ =>
      simp only [BinaryOp.exact, binarySlopes, List.zip_nil_right, List.map_nil, List.sum_nil]
      exact snd_truth _

def slopes (answers : CallValues ℚ) (env : String → ℚ) (lets : List (String × Expr)) :
    Expr → List (Expr × ℚ)
  | node _ (.var name _) _ _ => (lets.lookup name).toList.map (·, 1)
  | node _ .cast _ [x] => [(x, 1)]
  | node _ (.binary op) _ [a, b] =>
      [a, b].zip (binarySlopes op (exactIn answers env a) (exactIn answers env b))
  | node _ .select _ [condition, ifTrue, ifFalse] =>
      [(ifTrue, truth (exactIn answers env condition ≠ 0)),
        (ifFalse, truth (exactIn answers env condition = 0))]
  | node _ (.letIn _) _ [value, body] => [(body, 1), (value, 0)]
  | node _ (.call (.primitive _)) _ args => args.map (·, 0)
  | node .. => []
  | reduction _ domain axis _ _ => (lets.lookup (axisName domain axis)).toList.map (·, 1)

/-- A node at which the value has a derivative: casts are to floats, divisions those of floats by
numbers other than zero, and the operands of an extremum differ. -/
def Smooth (answers : CallValues ℚ) (env : String → ℚ) : Expr → Prop
  | node _ .cast dtype _ => dtype = .float32
  | node _ (.binary .div) dtype [_, b] => dtype = .float32 ∧ exactIn answers env b ≠ 0
  | node _ (.binary .min) _ [a, b] => exactIn answers env a ≠ exactIn answers env b
  | node _ (.binary .max) _ [a, b] => exactIn answers env a ≠ exactIn answers env b
  | node _ (.other _) _ _ => False
  | _ => True

def IsKnown (x : Expr) : Prop := ∀ id kind dtype operands, x ≠ .node id (.other kind) dtype operands

theorem Smooth.isKnown {answers : CallValues ℚ} {env : String → ℚ} {x : Expr}
    (smooth : Smooth answers env x) : x.IsKnown := by
  rintro _ _ _ _ rfl
  exact smooth

theorem snd_headExact {answers : CallValues ℚ} {env : String → ℚ} {lets : List (String × Expr)}
    {calls : CallValues (DualNumber ℚ)} {names : String → DualNumber ℚ} {value : Expr → DualNumber ℚ}
    {id : NodeId} {head : Head} {dtype : DType} {operands : List Expr}
    (plain : IsPlain (.node id head dtype operands))
    (smooth : Smooth answers env (.node id head dtype operands))
    (fst : ∀ x ∈ operands, (value x).fst = exactIn answers env x)
    (named : ∀ name index, head = .var name index → (names name).snd =
      (((lets.lookup name).toList.map (·, (1 : ℚ))).map fun (c, slope) => slope * (value c).snd).sum)
    (rigid : ∀ callee, head = .call callee → ∀ args, (calls callee args).snd = 0) :
    (headExact calls names head dtype (operands.map value)).snd =
      ((slopes answers env lets (.node id head dtype operands)).map fun (c, slope) =>
        slope * (value c).snd).sum := by
  obtain ⟨arity, notLet⟩ := plain
  cases head with
  | const c => rfl
  | var name index => exact named name index rfl
  | cast =>
      obtain ⟨a, rfl⟩ := List.length_eq_one_iff.1 (arity 1 rfl)
      obtain rfl : dtype = .float32 := smooth
      simp [headExact, slopes, castExact]
  | binary op =>
      obtain ⟨a, b, rfl⟩ := List.length_eq_two.1 (arity 2 rfl)
      have left := fst a (by simp)
      have right := fst b (by simp)
      simp only [headExact, List.map_cons, List.map_nil, slopes]
      refine (snd_binary (fun same => ?_) fun either => ?_).trans ?_
      · subst same
        rw [right]
        exact smooth
      · rw [left, right]
        rcases either with rfl | rfl <;> exact smooth
      · rw [left, right]
        cases op <;> rfl
  | select =>
      obtain ⟨condition, a, b, rfl⟩ := List.length_eq_three.1 (arity 3 rfl)
      simp only [headExact, List.map_cons, List.map_nil, slopes, standard_dual, fst condition (.head _)]
      split
      next nonzero => simp [truth, nonzero]
      next zero => simp [truth, not_not.1 zero]
  | letIn name => exact absurd rfl (notLet name)
  | call callee =>
      simp only [headExact, rigid callee rfl]
      cases callee <;> simp [slopes, Function.comp_def]
  | other kind => exact smooth.elim

section

variable {answers : CallValues ℚ} {base : String → ℚ} {root : Expr} {k : NodeId}

noncomputable def sensitivityIn (answers : CallValues ℚ) (base : String → ℚ) (root : Expr) (k : NodeId)
    (x : Expr) : ℚ :=
  (exactWith (nudgeAt k) answers.rigid
    (settledWith (nudgeAt k) answers.rigid (rigidly base) root) x).snd

theorem fst_exactWith_settled (x : Expr) :
    (exactWith (nudgeAt k) answers.rigid
      (settledWith (nudgeAt k) answers.rigid (rigidly base) root) x).fst =
      exactIn answers (settled answers base root) x := by
  change standard (exactWith (nudgeAt k) answers.rigid _ x) = _
  rw [standard_exactWith]
  rw [standard_nudgeAt, standard_settledWith, standard_nudgeAt]
  rfl

theorem snd_settled (tidy : Tidy root) (name : String) :
    (settledWith (nudgeAt k) answers.rigid (rigidly base) root name).snd =
      (((root.lets.lookup name).toList.map (·, (1 : ℚ))).map fun (c, slope) =>
        slope * sensitivityIn answers base root k c).sum := by
  cases found : root.lets.lookup name with
  | some value =>
      rw [settledWith_lets tidy (tidy.lookup_lets.1 found)]
      simp [sensitivityIn]
  | none =>
      rw [settledWith_other tidy]
      · rfl
      · intro bound
        obtain ⟨value, isLet⟩ := bound.lets tidy.shaped
        rw [tidy.lookup_lets.2 isLet] at found
        cases found

theorem sensitivityIn_eq (tidy : Tidy root) {x : Expr} (within : Subnode x root)
    (smooth : Smooth answers (settled answers base root) x) :
    sensitivityIn answers base root k x =
      ((slopes answers (settled answers base root) root.lets x).map fun (c, slope) =>
        slope * sensitivityIn answers base root k c).sum + if x.id = k then 1 else 0 := by
  have shaped := tidy.shaped_sub within
  have arity := shaped.here
  cases x with
  | reduction id domain axis least extent =>
      rw [sensitivityIn, exactWith_reduction, TrivSqZeroExt.snd_add, snd_nudgeAt, snd_settled tidy]
      rfl
  | node id head dtype operands =>
      by_cases isBinding : IsBinding head operands
      · obtain ⟨name, value, body, rfl, rfl⟩ := isBinding
        rw [sensitivityIn, exactWith_settled_let tidy within, TrivSqZeroExt.snd_add, snd_nudgeAt]
        simp only [slopes, List.map_cons, List.map_nil, List.sum_cons, List.sum_nil, one_mul,
          zero_mul, add_zero]
        rfl
      · rw [sensitivityIn, exactWith_node isBinding, TrivSqZeroExt.snd_add, snd_nudgeAt]
        refine congrArg (· + _) ?_
        refine snd_headExact ⟨arity, fun name isLet => ?_⟩ smooth (fun y _ => fst_exactWith_settled y)
          (fun name _ _ => snd_settled tidy name) fun _ _ _ => rfl
        obtain ⟨value, body, rfl⟩ := (isLet ▸ shaped : Shaped (.node id (.letIn name) dtype operands)).letIn
        exact isBinding ⟨name, value, body, isLet, rfl⟩

end

end Expr

end ReverseMode
