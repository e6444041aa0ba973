import ReverseMode.Proofs.Exact.Scalar
import ReverseMode.Proofs.Nodes.Free

namespace ReverseMode

abbrev Env := String → Int

/-- The values of a function, by index. -/
abbrev Grid (α : Type) := List Int → α

abbrev Reads (α : Type) := FuncId → Grid α

/-- The values of calls, by what is called and the rationals its arguments stand for. -/
abbrev CallValues (α : Type) := Callee → List ℚ → α

section

variable {α : Type} [Scalar α]

def Env.scalars (env : Env) : String → α := fun name => (env name : α)

/-- Calls of functions read their values and calls of images the array. Primitives count as zero. -/
def Reads.answers (reads : Reads α) : CallValues α
  | .func id _, args => reads id (args.map wholePart)
  | .image source, args => ofRat (source.exactAt (args.map wholePart))
  | .primitive _, _ => 0

/-- Division of integers rounds down, and gives zero for the divisor zero. -/
def BinaryOp.exact (op : BinaryOp) (dtype : DType) (a b : α) : α :=
  match op with
  | .add => a + b
  | .sub => a - b
  | .mul => a * b
  | .div => if dtype.isFloat then a / b else ofRat (⌊standard a / standard b⌋ : ℚ)
  | .min => if standard a ≤ standard b then a else b
  | .max => if standard b ≤ standard a then a else b
  | .lt => truth (standard a < standard b)
  | .le => truth (standard a ≤ standard b)
  | .gt => truth (standard b < standard a)
  | .ge => truth (standard b ≤ standard a)
  | .eq => truth (standard a = standard b)
  | .ne => truth (standard a ≠ standard b)
  | .and => truth (standard a ≠ 0 ∧ standard b ≠ 0)
  | .or => truth (standard a ≠ 0 ∨ standard b ≠ 0)

def castExact (dtype : DType) (a : α) : α :=
  match dtype with
  | .float32 => a
  | .int32 => (wholePart a : α)
  | .bool => truth (standard a ≠ 0)

def headExact (answers : CallValues α) (env : String → α) (head : Head) (dtype : DType)
    (values : List α) : α :=
  match head, values with
  | .const c, _ => ofRat c.exact
  | .var name _, _ => env name
  | .cast, [a] => castExact dtype a
  | .binary op, [a, b] => op.exact dtype a b
  | .select, [condition, ifTrue, ifFalse] => if standard condition ≠ 0 then ifTrue else ifFalse
  | .call callee, args => answers callee (args.map standard)
  | _, _ => 0

theorem headExact_congr {answers answers' : CallValues α} {env env' : String → α} {head : Head}
    {dtype : DType} {values : List α}
    (sameName : ∀ name index, head = .var name index → env name = env' name)
    (sameAnswer : ∀ callee, head = .call callee → answers callee = answers' callee) :
    headExact answers env head dtype values = headExact answers' env' head dtype values := by
  unfold headExact
  split
  next => rfl
  next name index => rw [sameName name index rfl]
  next => rfl
  next => rfl
  next => rfl
  next callee => rw [sameAnswer callee rfl]
  next => rfl

@[simp] theorem standard_ite (p : Prop) [Decidable p] (a b : α) :
    standard (if p then a else b) = if p then standard a else standard b := by
  split <;> rfl

theorem standard_add (a b : α) : standard (a + b) = standard a + standard b := map_add _ _ _

@[simp] theorem standard_intCast (i : Int) : standard (i : α) = i := map_intCast _ i

theorem standard_scalars (env : Env) :
    (fun name => standard (env.scalars name : α)) = env.scalars := by
  funext name
  exact standard_intCast _

theorem BinaryOp.standard_exact (op : BinaryOp) (dtype : DType) (a b : α) :
    standard (op.exact dtype a b) = op.exact dtype (standard a) (standard b) := by
  cases op <;> simp [exact]

theorem standard_castExact (dtype : DType) (a : α) :
    standard (castExact dtype a) = castExact dtype (standard a) := by
  cases dtype <;> simp [castExact, wholePart]

theorem standard_headExact (answers : CallValues α) (env : String → α) (head : Head) (dtype : DType)
    (values : List α) :
    standard (headExact answers env head dtype values) =
      headExact (fun callee args => standard (answers callee args)) (fun name => standard (env name))
        head dtype (values.map standard) := by
  cases head with
  | cast =>
      rcases values with _ | ⟨a, _ | ⟨b, rest⟩⟩ <;> simp [headExact, standard_castExact]
  | binary op =>
      rcases values with _ | ⟨a, _ | ⟨b, _ | ⟨c, rest⟩⟩⟩ <;>
        simp [headExact, BinaryOp.standard_exact]
  | select =>
      rcases values with _ | ⟨condition, _ | ⟨a, _ | ⟨b, _ | ⟨c, rest⟩⟩⟩⟩ <;> simp [headExact]
  | call callee =>
      have same : (values.map standard).map (standard : ℚ → ℚ) = values.map standard := by simp
      simp only [headExact, same]
  | _ => simp [headExact]

namespace Expr

mutual

/-- The exact value of an expression each of whose nodes is increased by its nudge. -/
def exactWith (nudge : NodeId → α) (answers : CallValues α) (env : String → α) : Expr → α
  | node id (.letIn name) _ [value, body] =>
      exactWith nudge answers
        (Function.update env name (exactWith nudge answers env value)) body + nudge id
  | node id head dtype operands =>
      headExact answers env head dtype (exactAllWith nudge answers env operands) + nudge id
  | reduction id domain axis _ _ => env (axisName domain axis) + nudge id

def exactAllWith (nudge : NodeId → α) (answers : CallValues α) (env : String → α) :
    List Expr → List α
  | [] => []
  | e :: rest => exactWith nudge answers env e :: exactAllWith nudge answers env rest

end

variable {nudge : NodeId → α} {answers answers' : CallValues α} {env env' : String → α} {id : NodeId}
  {head : Head} {dtype : DType} {operands : List Expr}

theorem exactAllWith_eq_map (nudge : NodeId → α) (answers : CallValues α) (env : String → α)
    (es : List Expr) : exactAllWith nudge answers env es = es.map (exactWith nudge answers env) := by
  induction es with
  | nil => rfl
  | cons e rest ih => rw [exactAllWith, ih, List.map_cons]

def IsBinding (head : Head) (operands : List Expr) : Prop :=
  ∃ name value body, head = .letIn name ∧ operands = [value, body]

theorem not_isBinding (notLet : ∀ name, head ≠ .letIn name) : ¬ IsBinding head operands := by
  rintro ⟨name, _, _, same, _⟩
  exact notLet name same

theorem exactWith_let {name : String} {value body : Expr} :
    exactWith nudge answers env (.node id (.letIn name) dtype [value, body]) =
      exactWith nudge answers
        (Function.update env name (exactWith nudge answers env value)) body + nudge id := by
  rw [exactWith]

theorem exactWith_node (notBinding : ¬ IsBinding head operands) :
    exactWith nudge answers env (.node id head dtype operands) =
      headExact answers env head dtype (operands.map (exactWith nudge answers env)) + nudge id := by
  rw [exactWith, exactAllWith_eq_map]
  rintro name value body rfl rfl
  exact notBinding ⟨name, value, body, rfl, rfl⟩

theorem exactWith_reduction {domain : String} {axis : Nat} {least extent : Expr} :
    exactWith nudge answers env (.reduction id domain axis least extent) =
      env (axisName domain axis) + nudge id := by
  rw [exactWith]

theorem exactWith_congr (e : Expr) (sameNames : ∀ name, Free name e → env name = env' name)
    (sameAnswers : ∀ x callee, Subnode x e → x.callee? = some callee →
      answers callee = answers' callee) :
    exactWith nudge answers env e = exactWith nudge answers' env' e := by
  induction e using induction generalizing env env' with
  | node id head dtype operands ih =>
      have below (x : Expr) (member : x ∈ operands) (y : Expr) (callee : Callee)
          (within : Subnode y x) := sameAnswers y callee (.operand member within)
      by_cases isBinding : IsBinding head operands
      · obtain ⟨name, value, body, rfl, rfl⟩ := isBinding
        have sameValue := ih value (.head _) (fun other free => sameNames other (.value free))
          (below value (.head _))
        rw [exactWith_let, exactWith_let, sameValue]
        congr 1
        refine ih body (.tail _ (.head _)) (fun other free => ?_) (below body (.tail _ (.head _)))
        by_cases same : other = name
        · rw [same, Function.update_self, Function.update_self]
        · rw [Function.update_of_ne same, Function.update_of_ne same]
          exact sameNames other (.body (Ne.symm same) free)
      · have notVariable (isVariable : ¬ ∃ name index, head = .var name index)
            (notLet : ∀ name, head ≠ .letIn name) :
            operands.map (exactWith nudge answers env) =
              operands.map (exactWith nudge answers' env') := by
          refine List.map_congr_left fun x member => ih x member (fun name free => ?_)
            (below x member)
          exact sameNames name (.operand notLet (fun other index same =>
            isVariable ⟨other, index, same⟩) member free)
        rw [exactWith_node isBinding, exactWith_node isBinding]
        congr 1
        cases head with
        | var name index => simp only [headExact, sameNames name .var]
        | letIn name => simp only [headExact]
        | _ =>
            rw [notVariable (by simp) (by simp)]
            refine headExact_congr (by simp) ?_
            rintro callee same
            exact sameAnswers _ callee .here (by rw [same]; rfl)
  | reduction id domain axis least extent =>
      rw [exactWith_reduction, exactWith_reduction, sameNames _ (.reduction rfl)]

theorem standard_exactWith (nudge : NodeId → α) (answers : CallValues α) (env : String → α)
    (e : Expr) : standard (exactWith nudge answers env e) =
      exactWith (fun id => standard (nudge id)) (fun callee args => standard (answers callee args))
        (fun name => standard (env name)) e := by
  induction e using induction generalizing env with
  | node id head dtype operands ih =>
      by_cases isBinding : IsBinding head operands
      · obtain ⟨name, value, body, rfl, rfl⟩ := isBinding
        have updated : (fun other => standard
              (Function.update env name (exactWith nudge answers env value) other)) =
            Function.update (fun other => standard (env other)) name
              (standard (exactWith nudge answers env value)) := by
          funext other
          by_cases same : other = name
          · rw [same, Function.update_self, Function.update_self]
          · rw [Function.update_of_ne same, Function.update_of_ne same]
        rw [exactWith_let, exactWith_let, standard_add, ih body (.tail _ (.head _)), updated,
          ih value (.head _)]
      · rw [exactWith_node isBinding, exactWith_node isBinding, standard_add, standard_headExact,
          List.map_map]
        congr 2
        exact List.map_congr_left fun x member => ih x member env
  | reduction id domain axis least extent =>
      rw [exactWith_reduction, exactWith_reduction, standard_add]

def exactIn (answers : CallValues α) (env : String → α) (e : Expr) : α :=
  exactWith (fun _ => 0) answers env e

theorem exactIn_let {name : String} {value body : Expr} :
    exactIn answers env (.node id (.letIn name) dtype [value, body]) =
      exactIn answers (Function.update env name (exactIn answers env value)) body :=
  exactWith_let.trans (add_zero _)

theorem exactIn_node (notBinding : ¬ IsBinding head operands) :
    exactIn answers env (.node id head dtype operands) =
      headExact answers env head dtype (operands.map (exactIn answers env)) :=
  (exactWith_node notBinding).trans (add_zero _)

@[simp] theorem exactIn_head (notLet : ∀ name, head ≠ .letIn name) :
    exactIn answers env (.node id head dtype operands) =
      headExact answers env head dtype (operands.map (exactIn answers env)) :=
  exactIn_node (not_isBinding notLet)

@[simp] theorem exactIn_reduction {domain : String} {axis : Nat} {least extent : Expr} :
    exactIn answers env (.reduction id domain axis least extent) = env (axisName domain axis) :=
  exactWith_reduction.trans (add_zero _)

theorem exactIn_congr (e : Expr) (sameNames : ∀ name, Free name e → env name = env' name)
    (sameAnswers : ∀ x callee, Subnode x e → x.callee? = some callee →
      answers callee = answers' callee) :
    exactIn answers env e = exactIn answers' env' e := exactWith_congr e sameNames sameAnswers

theorem standard_exactIn (answers : CallValues α) (env : String → α) (e : Expr) :
    standard (exactIn answers env e) =
      exactIn (fun callee args => standard (answers callee args)) (fun name => standard (env name))
        e := by
  refine (standard_exactWith _ _ _ e).trans ?_
  simp [exactIn]

def exact (answers : CallValues α) (env : Env) (e : Expr) : α := exactIn answers env.scalars e

@[simp] theorem exact_node {env : Env} (notLet : ∀ name, head ≠ .letIn name) :
    exact answers env (.node id head dtype operands) =
      headExact answers env.scalars head dtype (operands.map (exact answers env)) :=
  exactIn_head notLet

@[simp] theorem exact_reduction {env : Env} {domain : String} {axis : Nat} {least extent : Expr} :
    exact answers env (.reduction id domain axis least extent) =
      (env (axisName domain axis) : α) := exactIn_reduction

theorem exact_congr {env env' : Env} (e : Expr)
    (sameNames : ∀ name, Mentions e name → env name = env' name)
    (sameAnswers : ∀ x callee, Subnode x e → x.callee? = some callee →
      answers callee = answers' callee) :
    exact answers env e = exact answers' env' e :=
  exactIn_congr e (fun name free => congrArg (Int.cast : Int → α) (sameNames name free.mentions))
    sameAnswers

theorem exact_congr_reads {reads reads' : Reads α} {env env' : Env} (e : Expr)
    (sameNames : ∀ name, Mentions e name → env name = env' name)
    (sameReads : ∀ id, Calls e id → reads id = reads' id) :
    exact reads.answers env e = exact reads'.answers env' e := by
  refine exact_congr e sameNames fun x callee within isCallee => ?_
  cases callee with
  | func id name =>
      funext args
      exact congrFun (sameReads id ⟨x, within, name, isCallee⟩) _
  | image => rfl
  | primitive => rfl

theorem standard_exact (reads : Reads α) (env : Env) (e : Expr) :
    standard (exact reads.answers env e) =
      exact (Reads.answers fun id index => standard (reads id index)) env e := by
  have sameAnswers : (fun callee args => standard (reads.answers callee args)) =
      Reads.answers fun id index => standard (reads id index) := by
    funext callee args
    cases callee <;> simp [Reads.answers]
  rw [exact, standard_exactIn, sameAnswers, standard_scalars]
  rfl

end Expr

end

end ReverseMode
