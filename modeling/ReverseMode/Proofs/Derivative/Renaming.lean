import ReverseMode.Proofs.Derivative.Consumers
import ReverseMode.Proofs.Derivative.Partials

namespace ReverseMode

open Expr

def StandAlike : List (String × String) → String → String → Prop
  | [], name, name' => name = name'
  | (bound, bound') :: outer, name, name' =>
      name = bound ∧ name' = bound' ∨ name ≠ bound ∧ name' ≠ bound' ∧ StandAlike outer name name'

mutual

/-- The same nodes, apart from the names that `let`s bind. -/
inductive SameBindings : List (String × String) → Expr → Expr → Prop where
  | var {bound : List (String × String)} {place : NodeId} {name name' : String} {index : Bool}
      {dtype : DType} : StandAlike bound name name' →
      SameBindings bound (.node place (.var name index) dtype []) (.node place (.var name' index) dtype [])
  | reduction {bound : List (String × String)} {place : NodeId} {domain : String} {axis : Nat}
      {least extent : Expr} : StandAlike bound (axisName domain axis) (axisName domain axis) →
      SameBindings bound (.reduction place domain axis least extent)
        (.reduction place domain axis least extent)
  | letIn {bound : List (String × String)} {place : NodeId} {name name' : String} {dtype : DType}
      {value value' body body' : Expr} : SameBindings bound value value' →
      SameBindings ((name, name') :: bound) body body' →
      SameBindings bound (.node place (.letIn name) dtype [value, body])
        (.node place (.letIn name') dtype [value', body'])
  | node {bound : List (String × String)} {place : NodeId} {head : Head} {dtype : DType}
      {operands operands' : List Expr} : (∀ name index, head ≠ .var name index) →
      (∀ name, head ≠ .letIn name) → AllSameBindings bound operands operands' →
      SameBindings bound (.node place head dtype operands) (.node place head dtype operands')

inductive AllSameBindings : List (String × String) → List Expr → List Expr → Prop where
  | nil {bound : List (String × String)} : AllSameBindings bound [] []
  | cons {bound : List (String × String)} {x x' : Expr} {rest rest' : List Expr} :
      SameBindings bound x x' → AllSameBindings bound rest rest' → AllSameBindings bound (x :: rest) (x' :: rest')

end

theorem AllSameBindings.forall₂ {bound : List (String × String)} {operands operands' : List Expr}
    (rebound : AllSameBindings bound operands operands') :
    List.Forall₂ (SameBindings bound) operands operands' := by
  induction operands generalizing operands' with
  | nil =>
      cases rebound
      exact .nil
  | cons x rest ih =>
      obtain _ | ⟨first, others⟩ := rebound
      exact .cons first (ih others)

namespace SameBindings

variable {bound : List (String × String)} {e e' : Expr}

theorem id_eq (rebound : SameBindings bound e e') : e.id = e'.id := by
  cases rebound <;> rfl

section

variable {α : Type} [Scalar α] {nudge : NodeId → α} {answers : CallValues α}

theorem exactWith_eq (rebound : SameBindings bound e e') {env env' : String → α}
    (same : ∀ name name', StandAlike bound name name' → env name = env' name') :
    exactWith nudge answers env e = exactWith nudge answers env' e' := by
  induction e using Expr.induction generalizing bound e' env env' with
  | node place head dtype operands ih =>
      cases rebound with
      | var alike =>
          rw [exactWith_node (not_isBinding (by simp)), exactWith_node (not_isBinding (by simp))]
          exact congrArg (· + nudge place) (same _ _ alike)
      | letIn values bodies =>
          rw [exactWith_let, exactWith_let, ih _ (.head _) values same]
          refine congrArg (· + nudge place) (ih _ (.tail _ (.head _)) bodies fun name name' alike => ?_)
          -- Inside, the two names that are bound stand for each other and shadow what they stood for.
          rcases alike with ⟨rfl, rfl⟩ | ⟨other, other', alike⟩
          · rw [Function.update_self, Function.update_self]
          · rw [Function.update_of_ne other, Function.update_of_ne other']
            exact same name name' alike
      | node notVar notLet related =>
          have values : operands.map (exactWith nudge answers env) =
              List.map (exactWith nudge answers env') _ :=
            List.forall₂_eq_eq_eq ▸ List.forall₂_map_left_iff.2 (List.forall₂_map_right_iff.2
              (forall₂_imp_mem related.forall₂ fun x member x' _ rebound => ih x member rebound same))
          rw [exactWith_node (not_isBinding notLet), exactWith_node (not_isBinding notLet), values]
          exact congrArg (· + nudge place) (headExact_congr
            (fun name index isVar => absurd isVar (notVar name index)) fun _ _ => rfl)
  | reduction =>
      cases rebound with
      | reduction alike =>
          rw [exactWith_reduction, exactWith_reduction, same _ _ alike]

end

theorem branch {c : Expr} (rebound : SameBindings bound e e') (member : c ∈ e.branches) :
    ∃ inner c', c' ∈ e'.branches ∧ SameBindings inner c c' := by
  have find {operands operands' : List Expr} (related : List.Forall₂ (SameBindings bound) operands operands')
      (member : c ∈ operands) : ∃ inner c', c' ∈ operands' ∧ SameBindings inner c c' := by
    obtain ⟨c', member', rebound⟩ := forall₂_mem_left related member
    exact ⟨bound, c', member', rebound⟩
  cases rebound with
  | var => cases member
  | reduction => cases member
  | letIn values bodies =>
      rcases List.mem_pair.1 member with rfl | rfl
      · exact ⟨_, _, .head _, values⟩
      · exact ⟨_, _, .tail _ (.head _), bodies⟩
  | @node _ _ head _ _ _ _ _ related =>
      have related := related.forall₂
      cases head with
      | call callee =>
          cases callee with
          | primitive => exact find related member
          | _ => cases member
      | binary op =>
          by_cases isBoolean : op.isBoolean = true
          · simp [branches, isBoolean] at member
          · simp only [branches, isBoolean] at member ⊢
            exact find related member
      | select =>
          cases related with
          | nil => cases member
          | cons _ rest => exact find rest member
      | _ => exact find related member

theorem entered {x : Expr} (rebound : SameBindings bound e e') (entered : Entered e x) :
    ∃ inner x', Entered e' x' ∧ SameBindings inner x x' := by
  induction entered with
  | refl => exact ⟨bound, e', .refl, rebound⟩
  | tail _ isBranch ih =>
      obtain ⟨inner, x', entered', related⟩ := ih
      obtain ⟨deeper, c', isBranch', related'⟩ := related.branch isBranch
      exact ⟨deeper, c', entered'.tail isBranch', related'⟩

theorem sensitivity_eq (rebound : SameBindings [] e e') (answers : CallValues ℚ) (base : String → ℚ)
    (k : NodeId) : sensitivity answers base e k = sensitivity answers base e' k := by
  unfold sensitivity
  have same : exactWith (nudgeAt k) answers.rigid (rigidly base) e =
      exactWith (nudgeAt k) answers.rigid (rigidly base) e' :=
    rebound.exactWith_eq fun _ _ same => congrArg (rigidly base) same
  rw [same]

end SameBindings

section

variable {root root' seed : Expr} {answers : CallValues ℚ} {base : String → ℚ}
  {settings : Differentiation} {ctx : CallContext} {s left s' left' : Accumulation}
  {p q p' q' : Program}

theorem propagate_adjoint (tidy : Tidy root)
    (smooth : ∀ x ∈ root.differentiable, Smooth answers (settled answers base root) x)
    (plainly : Plainly settings root) (isFloat : seed.dtype = .float32)
    (apart : ∀ name, Binds root name → ¬ Free name seed)
    (run : (((propagate ctx root seed).run settings).run s).run.run p = (.ok ((), left), q)) :
    ∀ n ∈ root.differentiable, ∃ adjoint, left.adjoints[n.id]? = some adjoint ∧
      adjoint.exactIn answers (settled answers base root) =
        seed.exactIn answers base * sensitivity answers base root n.id := by
  have leaves : Leaves settings (ScatterFault settings ctx root.differentiable)
    (propagate ctx root seed) s _ := propagate_partials tidy smooth plainly isFloat apart
  have answered := leaves p
  rw [run] at answered
  exact answered

/-- Where the `let`s of an expression have names of their own, other such names give every node an
adjoint of the same value. -/
theorem bound_names_irrelevant (rebound : SameBindings [] root root') (tidy : Tidy root) (tidy' : Tidy root')
    (smooth : ∀ x ∈ root.differentiable, Smooth answers (settled answers base root) x)
    (smooth' : ∀ x ∈ root'.differentiable, Smooth answers (settled answers base root') x)
    (plainly : Plainly settings root) (plainly' : Plainly settings root')
    (isFloat : seed.dtype = .float32)
    (apart : ∀ name, Binds root name ∨ Binds root' name → ¬ Free name seed)
    (run : (((propagate ctx root seed).run settings).run s).run.run p = (.ok ((), left), q))
    (run' : (((propagate ctx root' seed).run settings).run s').run.run p' = (.ok ((), left'), q')) :
    ∀ n ∈ root.differentiable, ∃ adjoint adjoint',
      left.adjoints[n.id]? = some adjoint ∧ left'.adjoints[n.id]? = some adjoint' ∧
        adjoint.exactIn answers (settled answers base root) =
          adjoint'.exactIn answers (settled answers base root') := by
  intro n listed
  obtain ⟨inner, n', entered', related⟩ := rebound.entered ((mem_differentiable_iff tidy.coherent).1 listed)
  have listed' := (mem_differentiable_iff tidy'.coherent).2 entered'
  obtain ⟨adjoint, found, value⟩ := propagate_adjoint tidy smooth plainly isFloat
    (fun name bound => apart name (.inl bound)) run n listed
  obtain ⟨adjoint', found', value'⟩ := propagate_adjoint tidy' smooth' plainly' isFloat
    (fun name bound => apart name (.inr bound)) run' n' listed'
  rw [← related.id_eq] at found' value'
  refine ⟨adjoint, adjoint', found, found', ?_⟩
  rw [value, value', rebound.sensitivity_eq]

end

/-! `let t = x * x in t / y` and `let u = x * x in u / y`. -/

namespace SquareOver

section

variable (name : String)

def bound : Expr := .node 2 (.var name false) .float32 []

def overY : Expr := .node 4 (.binary .div) .float32 [bound name, y]

def binding : Expr := .node 5 (.letIn name) .float32 [square, overY name]

end

def program : Program := { supply := { nodes := 7 } }

section

variable {name : String}

theorem nodes_binding {e : Expr} (within : Subnode e (binding name)) :
    e = binding name ∨ e = square ∨ e = x ∨ e = overY name ∨ e = bound name ∨ e = y := by
  simpa [binding, square, overY, x, y, bound, subnode_node, or_assoc] using within

theorem binds_binding {other : String} (isBound : Binds (binding name) other) : other = name := by
  simpa [binding, square, overY, x, y, bound, binds_node, eq_comm] using isBound

variable (either : name = "t" ∨ name = "u")

include either

theorem free_binding {other : String} (free : Free other (binding name)) : other = "x" ∨ other = "y" := by
  have mentioned := free.mem_freeNames
  have names : (binding name).freeNames = ["x", "y"] := by rcases either with rfl | rfl <;> decide +kernel
  simpa [names] using mentioned

theorem tidy_binding : Tidy (binding name) where
  shaped := by simp [binding, square, overY, x, y, bound, shaped_node, Head.arity?]
  coherent e e' within within' same := by
    rcases nodes_binding within with rfl | rfl | rfl | rfl | rfl | rfl <;>
      rcases nodes_binding within' with rfl | rfl | rfl | rfl | rfl | rfl <;>
      first | rfl | cases same
  distinct e e' other within within' named named' := by
    rcases nodes_binding within with rfl | rfl | rfl | rfl | rfl | rfl <;> cases named
    rcases nodes_binding within' with rfl | rfl | rfl | rfl | rfl | rfl <;> cases named'
    rfl
  apart other isBound free := by
    obtain rfl := binds_binding isBound
    rcases either with rfl | rfl <;> rcases free_binding (by simp) free with same | same <;>
      exact absurd same (by decide)

theorem smooth_binding : ∀ e ∈ (binding name).differentiable,
    Smooth answers (settled answers base (binding name)) e := by
  intro e listed
  rcases nodes_binding (subnode_differentiable (tidy_binding either).coherent listed) with
    rfl | rfl | rfl | rfl | rfl | rfl <;> try exact trivial
  have free : ¬ Binds (binding name) "y" := fun isBound => by
    have same := binds_binding isBound
    rcases either with rfl | rfl <;> exact absurd same (by decide)
  have atY : settled answers base (binding name) "y" = 2 :=
    (settledWith_other (tidy_binding either) free).trans (by decide)
  refine ⟨rfl, ?_⟩
  simp [y, headExact, atY]

theorem plainly_binding : Plainly settings (binding name) where
  unmuted := rfl
  policy := rfl
  ruleless e listed callee isCall := by
    rcases nodes_binding (subnode_differentiable (tidy_binding either).coherent listed) with
      rfl | rfl | rfl | rfl | rfl | rfl <;> cases isCall

theorem walks_binding : ∃ left q,
    (((propagate .root (binding name) seed).run settings).run {}).run.run program =
      (.ok ((), left), q) := by
  have isOk : ((((propagate .root (binding name) seed).run settings).run {}).run.run
      program).1.toOption.isSome = true := by
    rcases either with rfl | rfl <;> decide +kernel
  cases run : (((propagate .root (binding name) seed).run settings).run {}).run.run program with
  | mk result q =>
      rw [run] at isOk
      cases result with
      | error => cases isOk
      | ok answer => exact ⟨answer.2, q, rfl⟩

end

theorem rebound_binding : SameBindings [] (binding "t") (binding "u") :=
  .letIn (.node nofun nofun (.cons (.var rfl) (.cons (.var rfl) .nil)))
    (.node nofun nofun (.cons (.var (.inl ⟨rfl, rfl⟩))
      (.cons (.var (.inr ⟨by decide, by decide, rfl⟩)) .nil)))

theorem adjoints_of_x : ∃ left left' q q' adjoint adjoint',
    (((propagate .root (binding "t") seed).run settings).run {}).run.run program =
        (.ok ((), left), q) ∧
      (((propagate .root (binding "u") seed).run settings).run {}).run.run program =
        (.ok ((), left'), q') ∧
      left.adjoints[x.id]? = some adjoint ∧ left'.adjoints[x.id]? = some adjoint' ∧
      adjoint.exactIn answers (settled answers base (binding "t")) = 3 ∧
      adjoint'.exactIn answers (settled answers base (binding "u")) = 3 := by
  have isT : "t" = "t" ∨ "t" = "u" := .inl rfl
  have isU : "u" = "t" ∨ "u" = "u" := .inr rfl
  obtain ⟨left, q, run⟩ := walks_binding isT
  obtain ⟨left', q', run'⟩ := walks_binding isU
  have closed (name : String) : ¬ Free name seed := by simp [seed, free_operands]
  have listed : x ∈ (binding "t").differentiable := by
    have order : (binding "t").differentiable = [x, square, bound "t", y, overY "t", binding "t"] := rfl
    simp [order]
  obtain ⟨adjoint, adjoint', found, found', same⟩ := bound_names_irrelevant rebound_binding (tidy_binding isT)
    (tidy_binding isU) (smooth_binding isT) (smooth_binding isU) (plainly_binding isT) (plainly_binding isU)
    rfl (fun name _ => closed name) run run' x listed
  obtain ⟨adjoint'', found'', value⟩ := propagate_adjoint (tidy_binding isT) (smooth_binding isT)
    (plainly_binding isT) rfl (fun name _ => closed name) run x listed
  obtain rfl := Option.some.inj (found.symm.trans found'')
  have isOne : seed.exactIn answers base = 1 := by simp [seed, headExact, Constant.exact_one]
  have three : adjoint.exactIn answers (settled answers base (binding "t")) = 3 := by
    rw [value, isOne, one_mul]
    exact sensitivity_x
  exact ⟨left, left', q, q', adjoint, adjoint', run, run', found, found', three, same.symm.trans three⟩

end SquareOver

end ReverseMode
