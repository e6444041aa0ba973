import Mathlib.Data.List.Perm.Subperm
import ReverseMode.Proofs.Program.Changes

namespace ReverseMode

namespace Program

/-- What declaring and defining functions leads to, whether the steps fail or not. Nodes may be built
and tracing may change between them. -/
inductive Assembled : Program → Prop where
  | empty {program : Program} (none : program.funcs = #[]) : Assembled program
  | meanwhile {program later : Program} (before : Assembled program)
      (same : later.funcs = program.funcs) : Assembled later
  | declare {program later : Program} {name? : Option String} {outcome : Except Fault FuncId}
      (before : Assembled program)
      (run : (declareFunc name?).run.run program = (outcome, later)) : Assembled later
  | define {program later : Program} {id : FuncId} {args : List Expr} {value : Expr}
      {outcome : Except Fault Unit} (before : Assembled program)
      (defined : ∀ callee, value.Calls callee → (program.func callee).init.isSome)
      (run : (define id args value).run.run program = (outcome, later)) : Assembled later

inductive DefinedInOrder (program : Program) : List FuncId → Prop where
  | nil : DefinedInOrder program []
  | cons {id : FuncId} {order : List FuncId} {initial : Definition}
      (defined : (program.func id).init = some initial) (new : id ∉ order)
      (callees : ∀ callee, initial.value.Calls callee → callee ∈ order)
      (rest : DefinedInOrder program order) : DefinedInOrder program (id :: order)

namespace DefinedInOrder

variable {program later : Program} {order : List FuncId}

theorem isSome (ordered : program.DefinedInOrder order) :
    ∀ id ∈ order, (program.func id).init.isSome := by
  induction ordered with
  | nil => simp
  | cons defined _ _ _ ih => exact List.forall_mem_cons.2 ⟨by simp [defined], ih⟩

theorem known (ordered : program.DefinedInOrder order) : ∀ id ∈ order, id < program.funcs.size :=
  fun id member =>
    have ⟨_, defined⟩ := Option.isSome_iff_exists.1 (ordered.isSome id member)
    below_of_defined defined

theorem nodup (ordered : program.DefinedInOrder order) : order.Nodup := by
  induction ordered with
  | nil => exact List.nodup_nil
  | cons _ new _ _ ih => exact List.nodup_cons.2 ⟨new, ih⟩

theorem length_le (ordered : program.DefinedInOrder order) : order.length ≤ program.funcs.size := by
  have known : order ⊆ List.range program.funcs.size := fun id member =>
    List.mem_range.2 (ordered.known id member)
  simpa using (ordered.nodup.subperm known).length_le

theorem split (ordered : program.DefinedInOrder order) {id : FuncId} (member : id ∈ order) :
    ∃ initial rest, (program.func id).init = some initial ∧ program.DefinedInOrder rest ∧
      rest ⊆ order ∧ id ∉ rest ∧ rest.length < order.length ∧
      ∀ callee, initial.value.Calls callee → callee ∈ rest := by
  induction ordered with
  | nil => cases member
  | @cons head order initial defined new callees rest ih =>
      by_cases isHead : id = head
      · subst isHead
        exact ⟨initial, order, defined, rest, List.subset_cons_self .., new, by simp, callees⟩
      · obtain ⟨initial, inner, isInitial, ordered, within, new, shorter, callees⟩ :=
          ih (List.mem_of_ne_of_mem isHead member)
        exact ⟨initial, inner, isInitial, ordered, List.Subset.trans within (List.subset_cons_self ..), new,
          shorter.trans (by simp), callees⟩

theorem congr (ordered : program.DefinedInOrder order)
    (same : ∀ id ∈ order, (later.func id).init = (program.func id).init) :
    later.DefinedInOrder order := by
  induction ordered with
  | nil => exact .nil
  | cons defined new callees _ ih =>
      exact .cons ((same _ (.head _)).trans defined) new callees
        (ih fun id member => same id (.tail _ member))

end DefinedInOrder

section

variable {program later : Program} {id : FuncId}

theorem init_of_push {name : String} (same : later.funcs = program.funcs.push { name }) :
    (later.func id).init = (program.func id).init := by
  rcases Nat.lt_trichotomy id program.funcs.size with below | rfl | beyond
  · rw [(func_push same).2 id below]
  · rw [(func_push same).1]
    have absent : program.func program.funcs.size = default := by
      simp [Program.func, Array.getD_eq_getD_getElem?]
    rw [absent]
    rfl
  · have absent : program.funcs[id]? = none := Array.getElem?_eq_none beyond.le
    have absentLater : later.funcs[id]? = none :=
      Array.getElem?_eq_none (size_push same ▸ beyond)
    simp [Program.func, Array.getD_eq_getD_getElem?, absent, absentLater]

theorem func_set_beyond {f : Func} (beyond : ¬ id < program.funcs.size)
    (same : later.funcs = program.funcs.setIfInBounds id f) : later.funcs = program.funcs := by
  rw [same, Array.setIfInBounds_eq_of_size_le (Nat.not_lt.1 beyond)]

theorem declareFunc_init {name? : Option String} {outcome : Except Fault FuncId}
    (run : (declareFunc name?).run.run program = (outcome, later)) :
    (later.func id).init = (program.func id).init := by
  obtain ⟨_, rfl⟩ := Prod.mk.inj run
  exact init_of_push rfl

theorem run_getFunc {α : Type} (rest : Func → ProgramM α) :
    (getFunc id >>= rest).run.run program = (rest (program.func id)).run.run program := rfl

theorem define_init {args : List Expr} {value : Expr} {outcome : Except Fault Unit}
    (run : (define id args value).run.run program = (outcome, later)) :
    (∀ other, (later.func other).init = (program.func other).init) ∨
      (program.func id).init = none ∧ (later.func id).init = some ⟨args, value⟩ ∧
        ∀ other, other ≠ id → later.func other = program.func other := by
  have set {p : Program} {f : Func} (same : p.funcs = program.funcs.setIfInBounds id f) :
      (∀ other, p.func other = program.func other) ∨
        p.func id = f ∧ ∀ other, other ≠ id → p.func other = program.func other := by
    by_cases below : id < program.funcs.size
    · exact .inr (func_set below same)
    · exact .inl (func_eq_of_funcs (func_set_beyond below same))
  have update {p : Program} {updates : List Definition}
      (same : p.funcs = program.funcs.setIfInBounds id { program.func id with updates }) (other) :
      (p.func other).init = (program.func other).init := by
    rcases set same with unchanged | ⟨here, elsewhere⟩
    · rw [unchanged]
    · by_cases isId : other = id
      · rw [isId, here]
      · rw [elsewhere other isId]
  unfold define at run
  rw [run_getFunc] at run
  cases isInit : (program.func id).init with
  | none =>
      rw [isInit] at run
      cases checked : checkPure (program.func id).name [] args with
      | error fault =>
          rw [checked] at run
          cases run
          exact .inl fun _ => rfl
      | ok _ =>
          rw [checked] at run
          have same := congrArg (fun out => out.2.funcs) run.symm
          rcases set same with unchanged | ⟨here, elsewhere⟩
          · exact .inl fun other => by rw [unchanged]
          · exact .inr ⟨rfl, by rw [here], elsewhere⟩
  | some initial =>
      refine .inl ?_
      rw [isInit] at run
      dsimp only at run
      split at run
      next => cases run; exact fun _ => rfl
      next =>
        rw [← isInit] at run
        split at run
        next => cases run; exact update rfl
        next => cases run; exact update rfl

end

variable {program : Program}

theorem Assembled.order (assembled : program.Assembled) :
    ∃ order, program.DefinedInOrder order ∧
      ∀ id, (program.func id).init.isSome → id ∈ order := by
  induction assembled with
  | @empty program none =>
      refine ⟨[], .nil, fun id isSome => ?_⟩
      obtain ⟨initial, defined⟩ := Option.isSome_iff_exists.1 isSome
      have below := below_of_defined defined
      rw [none] at below
      exact absurd below (Nat.not_lt_zero id)
  | meanwhile _ same ih =>
      obtain ⟨order, ordered, complete⟩ := ih
      have same := fun id => congrArg Func.init (func_eq_of_funcs same id)
      exact ⟨order, ordered.congr fun id _ => same id, fun id isSome => complete id (same id ▸ isSome)⟩
  | declare _ run ih =>
      obtain ⟨order, ordered, complete⟩ := ih
      have same (id : FuncId) := @declareFunc_init _ _ id _ _ run
      exact ⟨order, ordered.congr fun id _ => same id, fun id isSome => complete id (same id ▸ isSome)⟩
  | @define program later id args value _ _ defined run ih =>
      obtain ⟨order, ordered, complete⟩ := ih
      rcases define_init run with same | ⟨undefined, first, elsewhere⟩
      · exact ⟨order, ordered.congr fun id _ => same id,
          fun id isSome => complete id (same id ▸ isSome)⟩
      have new : id ∉ order := fun member => by simpa [undefined] using ordered.isSome id member
      have others : ∀ other ∈ order, (later.func other).init = (program.func other).init :=
        fun other member => by rw [elsewhere other (ne_of_mem_of_not_mem member new)]
      refine ⟨id :: order, .cons first new (fun callee called => complete callee (defined callee called))
        (ordered.congr others), fun other isSome => ?_⟩
      by_cases isId : other = id
      · exact isId ▸ .head _
      · exact .tail _ (complete other (by rwa [elsewhere other isId] at isSome))

end Program

end ReverseMode
