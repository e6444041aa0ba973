import Mathlib.Logic.Function.Iterate
import ReverseMode.Proofs.Exact.Value
import ReverseMode.Proofs.Nodes.Differentiable

namespace ReverseMode

namespace Expr

mutual

def lets : Expr → List (String × Expr)
  | node _ (.letIn name) _ [value, body] => (name, value) :: (lets value ++ lets body)
  | node _ _ _ operands => allLets operands
  | reduction .. => []

def allLets : List Expr → List (String × Expr)
  | [] => []
  | e :: rest => lets e ++ allLets rest

end

theorem allLets_eq_flatMap (es : List Expr) : allLets es = es.flatMap lets := by
  induction es with
  | nil => rfl
  | cons e rest ih => rw [allLets, ih, List.flatMap_cons]

theorem lets_node {id : NodeId} {head : Head} {dtype : DType} {operands : List Expr}
    (notBinding : ¬ IsBinding head operands) :
    lets (.node id head dtype operands) = operands.flatMap lets := by
  rw [lets, allLets_eq_flatMap]
  rintro name value body rfl rfl
  exact notBinding ⟨name, value, body, rfl, rfl⟩

theorem mem_lets {e value : Expr} {name : String} : (name, value) ∈ e.lets ↔ Lets e name value := by
  induction e using induction with
  | node id head dtype operands ih =>
      have below : Lets (.node id head dtype operands) name value ↔
          (head = .letIn name ∧ ∃ body, operands = [value, body]) ∨
            ∃ x ∈ operands, Lets x name value := by
        constructor
        · rintro ⟨id', dtype', body, within⟩
          rcases subnode_node.1 within with same | ⟨x, member, inside⟩
          · simp only [node.injEq] at same
            exact .inl ⟨same.2.1.symm, body, same.2.2.2.symm⟩
          · exact .inr ⟨x, member, id', dtype', body, inside⟩
        · rintro (⟨rfl, body, rfl⟩ | ⟨x, member, id', dtype', body, inside⟩)
          · exact ⟨id, dtype, body, .here⟩
          · exact ⟨id', dtype', body, .operand member inside⟩
      rw [below]
      by_cases isBinding : IsBinding head operands
      · obtain ⟨bound, value', body, rfl, rfl⟩ := isBinding
        rw [lets, List.mem_cons, List.mem_append, ih value' (.head _), ih body (.tail _ (.head _))]
        simp [eq_comm, and_comm]
      · rw [lets_node isBinding, List.mem_flatMap]
        constructor
        · rintro ⟨x, member, inside⟩
          exact .inr ⟨x, member, (ih x member).1 inside⟩
        · rintro (⟨rfl, body, rfl⟩ | ⟨x, member, inside⟩)
          · exact absurd ⟨name, value, body, rfl, rfl⟩ isBinding
          · exact ⟨x, member, (ih x member).2 inside⟩
  | reduction id domain axis least extent =>
      constructor
      · intro none
        cases none
      · rintro ⟨_, _, _, within⟩
        cases subnode_reduction.1 within

theorem mem_of_lookup {bindings : List (String × Expr)} {name : String} {value : Expr}
    (found : bindings.lookup name = some value) : (name, value) ∈ bindings := by
  obtain ⟨before, after, split, _⟩ := List.lookup_eq_some_iff.1 found
  simp [split]

theorem lookup_of_unique {bindings : List (String × Expr)} {name : String} {value : Expr}
    (member : (name, value) ∈ bindings)
    (unique : ∀ other, (name, other) ∈ bindings → other = value) :
    bindings.lookup name = some value := by
  cases found : bindings.lookup name with
  | none =>
      have absent := List.lookup_eq_none_iff.1 found (name, value) member
      simp at absent
  | some other => rw [unique other (mem_of_lookup found)]

theorem Tidy.lookup_lets {e value : Expr} {name : String} (tidy : Tidy e) :
    e.lets.lookup name = some value ↔ Lets e name value :=
  ⟨fun found => mem_lets.1 (mem_of_lookup found), fun bound => lookup_of_unique (mem_lets.2 bound)
    fun _ member => tidy.lets_unique (mem_lets.1 member) bound⟩

theorem enclosing_let {e x : Expr} {name : String} (shaped : Shaped e) (within : Subnode x e)
    (free : Free name x) (notFree : ¬ Free name e) : ∃ id dtype value body,
      Subnode (.node id (.letIn name) dtype [value, body]) e ∧ Subnode x body := by
  induction within with
  | here => exact absurd free notFree
  | @operand id head dtype operands y member inside ih =>
      by_cases isFree : Free name y
      · by_cases isLet : ∃ bound, head = .letIn bound
        · obtain ⟨bound, rfl⟩ := isLet
          obtain ⟨value, body, rfl⟩ := shaped.letIn
          have isBody : y = body := by
            simp only [List.mem_cons, List.not_mem_nil, or_false] at member
            refine member.resolve_left ?_
            rintro rfl
            exact notFree (.value isFree)
          subst isBody
          obtain rfl : bound = name := by
            by_contra other
            exact notFree (.body other isFree)
          exact ⟨id, dtype, value, y, .here, inside⟩
        · refine absurd (.operand (fun bound same => isLet ⟨bound, same⟩) ?_ member isFree) notFree
          rintro other index rfl
          rw [shaped.operands_eq] at member
          cases member
      · obtain ⟨id', dtype', value, body, isLet, inBody⟩ := ih (shaped.operand member) isFree
        exact ⟨id', dtype', value, body, .operand member isLet, inBody⟩

section

variable {α : Type} [Scalar α] (nudge : NodeId → α) (answers : CallValues α) (base : String → α)
  (e : Expr)

def bindLets (env : String → α) : String → α := fun name =>
  match e.lets.lookup name with
  | some value => exactWith nudge answers env value
  | none => base name

/-- The environment in which every bound name has its value: the `let`s around a `let` settle before
it does. -/
noncomputable def settledWith : String → α := (bindLets nudge answers base e)^[sizeOf e] base

variable {nudge answers base e}

theorem bindLets_of_lets {env : String → α} {name : String} {value : Expr} (tidy : Tidy e)
    (bound : Lets e name value) :
    bindLets nudge answers base e env name = exactWith nudge answers env value := by
  rw [bindLets, tidy.lookup_lets.2 bound]

theorem bindLets_other {env : String → α} {name : String} (tidy : Tidy e) (other : ¬ Binds e name) :
    bindLets nudge answers base e env name = base name := by
  unfold bindLets
  cases found : e.lets.lookup name with
  | none => rfl
  | some value => exact absurd (tidy.lookup_lets.1 found).binds other

theorem bindLets_stable (tidy : Tidy e) (rounds : Nat) {id : NodeId} {dtype : DType} {name : String}
    {value body : Expr} (within : Subnode (.node id (.letIn name) dtype [value, body]) e)
    (enough : sizeOf e ≤ rounds + sizeOf (node id (.letIn name) dtype [value, body])) :
    (bindLets nudge answers base e)^[rounds + 1] base name =
      (bindLets nudge answers base e)^[rounds + 2] base name := by
  induction rounds using Nat.strongRecOn generalizing id dtype name value body with
  | _ rounds ih =>
  have bound : Lets e name value := ⟨id, dtype, body, within⟩
  rw [Function.iterate_succ_apply', Function.iterate_succ_apply', bindLets_of_lets tidy bound,
    bindLets_of_lets tidy bound]
  refine exactWith_congr value (fun other free => ?_) fun _ _ _ _ => rfl
  have inLet : Free other (.node id (.letIn name) dtype [value, body]) := .value free
  -- a bound name that the value uses has its `let` around this one, and has settled a round before
  by_cases isBound : Binds e other
  · obtain ⟨id', dtype', value', body', isLet, inside⟩ :=
      enclosing_let tidy.shaped within inLet (tidy.apart other isBound)
    have smaller := inside.sizeOf_le
    have whole := isLet.sizeOf_le
    simp only [node.sizeOf_spec, List.cons.sizeOf_spec] at smaller whole enough
    cases rounds with
    | zero => omega
    | succ rounds =>
        refine ih rounds (Nat.lt_succ_self _) isLet ?_
        simp only [node.sizeOf_spec, List.cons.sizeOf_spec]
        omega
  · cases rounds with
    | zero => rw [Function.iterate_succ_apply', bindLets_other tidy isBound]; rfl
    | succ rounds =>
        rw [Function.iterate_succ_apply', Function.iterate_succ_apply', bindLets_other tidy isBound,
          bindLets_other tidy isBound]

theorem settledWith_lets (tidy : Tidy e) {name : String} {value : Expr} (bound : Lets e name value) :
    settledWith nudge answers base e name =
      exactWith nudge answers (settledWith nudge answers base e) value := by
  have positive : 0 < sizeOf e := by cases e <;> simp
  obtain ⟨rounds, size⟩ := Nat.exists_eq_succ_of_ne_zero (Nat.ne_of_gt positive)
  obtain ⟨id, dtype, body, within⟩ := bound
  have stable : (bindLets nudge answers base e)^[rounds + 1] base name =
      (bindLets nudge answers base e)^[rounds + 2] base name := by
    refine bindLets_stable tidy rounds within ?_
    rw [size, node.sizeOf_spec]
    omega
  unfold settledWith
  rw [size, stable, Function.iterate_succ_apply', bindLets_of_lets tidy ⟨id, dtype, body, within⟩]

theorem settledWith_other (tidy : Tidy e) {name : String} (other : ¬ Binds e name) :
    settledWith nudge answers base e name = base name := by
  unfold settledWith
  cases sizeOf e with
  | zero => rfl
  | succ rounds => rw [Function.iterate_succ_apply', bindLets_other tidy other]

theorem exactWith_settled_let (tidy : Tidy e) {id : NodeId} {dtype : DType} {name : String}
    {value body : Expr} (within : Subnode (.node id (.letIn name) dtype [value, body]) e) :
    exactWith nudge answers (settledWith nudge answers base e)
        (.node id (.letIn name) dtype [value, body]) =
      exactWith nudge answers (settledWith nudge answers base e) body + nudge id := by
  rw [exactWith_let, ← settledWith_lets tidy ⟨id, dtype, body, within⟩, Function.update_eq_self]

theorem exactWith_settled (tidy : Tidy e) {x : Expr} (apart : ∀ name, Binds e name → ¬ Free name x) :
    exactWith nudge answers (settledWith nudge answers base e) x = exactWith nudge answers base x :=
  exactWith_congr x (fun name free => settledWith_other tidy fun bound => apart name bound free)
    fun _ _ _ _ => rfl

theorem standard_settledWith (nudge : NodeId → α) (answers : CallValues α) (base : String → α)
    (e : Expr) : (fun name => standard (settledWith nudge answers base e name)) =
      settledWith (fun id => standard (nudge id)) (fun callee args => standard (answers callee args))
        (fun name => standard (base name)) e := by
  unfold settledWith
  generalize sizeOf e = rounds
  induction rounds with
  | zero => rfl
  | succ rounds ih =>
      rw [Function.iterate_succ_apply', Function.iterate_succ_apply', ← ih]
      funext name
      unfold bindLets
      split
      next => rw [standard_exactWith]
      next => rfl

end

noncomputable def settled (answers : CallValues ℚ) (base : String → ℚ) (e : Expr) : String → ℚ :=
  settledWith (fun _ => 0) answers base e

end Expr

end ReverseMode
