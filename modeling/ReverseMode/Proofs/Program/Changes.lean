import Mathlib.Order.Nat
import ReverseMode.Proofs.Nodes.Building

namespace ReverseMode

open Expr

theorem func_eq_of_funcs {p program : Program} (same : p.funcs = program.funcs) (id : FuncId) :
    p.func id = program.func id := by
  unfold Program.func
  rw [same]

structure Program.Grows (program later : Program) (changed : FuncId → Prop) : Prop where
  size_le : program.funcs.size ≤ later.funcs.size
  func_eq : ∀ id, id < program.funcs.size → ¬ changed id → later.func id = program.func id

namespace Program.Grows

variable {program later last : Program} {changed : FuncId → Prop}

theorem of_funcs (same : later.funcs = program.funcs) : program.Grows later changed :=
  ⟨by rw [same], fun id _ _ => func_eq_of_funcs same id⟩

theorem trans (first : program.Grows later changed) (second : later.Grows last changed) :
    program.Grows last changed where
  size_le := first.size_le.trans second.size_le
  func_eq id below unchanged := by
    rw [second.func_eq id (below.trans_le first.size_le) unchanged,
      first.func_eq id below unchanged]

end Program.Grows

section

variable {program later : Program} {id : FuncId} {f : Func}

theorem func_push (same : later.funcs = program.funcs.push f) :
    later.func program.funcs.size = f ∧
      ∀ other, other < program.funcs.size → later.func other = program.func other := by
  unfold Program.func
  rw [same]
  refine ⟨by simp, fun other below => ?_⟩
  simp [Array.getD_eq_getD_getElem?, Array.getElem?_push, Nat.ne_of_lt below]

theorem size_push (same : later.funcs = program.funcs.push f) :
    later.funcs.size = program.funcs.size + 1 := by
  rw [same, Array.size_push]

theorem func_set (below : id < program.funcs.size)
    (same : later.funcs = program.funcs.setIfInBounds id f) :
    later.func id = f ∧ ∀ other, other ≠ id → later.func other = program.func other := by
  unfold Program.func
  rw [same]
  refine ⟨by simp [Array.getD_eq_getD_getElem?, below],
    fun other different => ?_⟩
  simp [Array.getD_eq_getD_getElem?, Ne.symm different]

theorem size_set (same : later.funcs = program.funcs.setIfInBounds id f) :
    later.funcs.size = program.funcs.size := by
  rw [same, Array.size_setIfInBounds]

theorem below_of_defined {initial : Definition} (defined : (program.func id).init = some initial) :
    id < program.funcs.size := by
  by_contra beyond
  have isDefault : program.func id = default := by
    unfold Program.func
    simp [Array.getD_eq_getD_getElem?, Array.getElem?_eq_none (Nat.not_lt.1 beyond)]
  rw [isDefault] at defined
  cases defined

end

section

variable {r : Registry} {p : Program} {id : FuncId}

theorem declareFunc_sound {name : String} (named : name ≠ "") :
    Achieves (declareFunc (some name)) r p fun later left id => later = r ∧ id = p.funcs.size ∧
      left.funcs = p.funcs.push { name } := by
  have given : nameOr "f" (some name) = pure name := by
    unfold nameOr
    split
    next same => cases same
    next same => exact absurd (Option.some.inj same) named
    next same => rw [Option.some.inj same]
  unfold declareFunc
  rw [given]
  intro fits a left run
  cases run
  exact ⟨r, .refl r, fits, rfl, rfl, rfl⟩

theorem setFunc_sound {f : Func} : Achieves (setFunc id f) r p fun later left _ => later = r ∧
    left.funcs = p.funcs.setIfInBounds id f := by
  intro fits a left run
  cases run
  exact ⟨r, .refl r, fits, rfl, rfl⟩

theorem define_initial_sound {args : List Expr} {value : Expr} (undefined : (p.func id).init = none) :
    Achieves (define id args value) r p fun later left _ => later = r ∧
      left.funcs = p.funcs.setIfInBounds id { p.func id with init := some ⟨args, value⟩ } := by
  unfold define
  refine Achieves.bind (Achieves.getFunc (Q := fun later left f => later = r ∧ left = p ∧
    f = p.func id) ⟨rfl, rfl, rfl⟩) fun r0 p0 f _ ⟨sameR, sameP, sameF⟩ => ?_
  subst sameR sameP sameF
  rw [undefined]
  refine Achieves.bind (Achieves.ofExcept (Q := fun later left _ => later = r0 ∧ left = p0)
    fun _ _ => ⟨rfl, rfl⟩) fun r1 p1 _ _ ⟨sameR, sameP⟩ => ?_
  subst sameR sameP
  exact setFunc_sound

theorem define_update_sound {args : List Expr} {value : Expr} {initial : Definition}
    (defined : (p.func id).init = some initial) (sameType : value.dtype = initial.value.dtype) :
    Achieves (define id args value) r p fun later left _ => later = r ∧
      left.funcs = p.funcs.setIfInBounds id
        { p.func id with updates := (p.func id).updates ++ [⟨args, value⟩] } := by
  unfold define
  refine Achieves.bind (Achieves.getFunc (Q := fun later left f => later = r ∧ left = p ∧
    f = p.func id) ⟨rfl, rfl, rfl⟩) fun r0 p0 f _ ⟨sameR, sameP, sameF⟩ => ?_
  subst sameR sameP sameF
  rw [defined]
  dsimp only
  split
  next => exact Achieves.throw_bind
  next =>
    rw [pure_bind, ← defined]
    exact setFunc_sound

theorem toExprs_map (args : List Expr) :
    Operand.toExprs (args.map Operand.expr) = (pure args : BuildM (List Expr)) := by
  induction args with
  | nil => rfl
  | cons x rest ih =>
      rw [List.map_cons, Operand.toExprs, ih]
      rfl

theorem callFunc_sound {args : List Expr} (held : r.HoldsAll args) :
    Achieves (callFunc id args) r p fun later left e => left.funcs = p.funcs ∧
      ∃ initial, (p.func id).init = some initial ∧ args.length = initial.args.length ∧
        later.Has (.call (.func id (p.func id).name)) initial.value.dtype args e := by
  unfold callFunc callFuncWith
  refine Achieves.bind (Achieves.getFunc (Q := fun later left f => later = r ∧ left = p ∧
    f = p.func id) ⟨rfl, rfl, rfl⟩) fun r0 p0 f _ ⟨sameR, sameP, sameF⟩ => ?_
  subst sameR sameP sameF
  split
  next => exact Achieves.throw
  next initial defined =>
    dsimp only
    split
    next => exact Achieves.throw_bind
    next fits =>
      rw [toExprs_map]
      refine (Achieves.builds (Builds.new held)).mono fun later left e _ made => ?_
      refine ⟨made.1, initial, defined, ?_, made.2⟩
      simpa using fits

end

end ReverseMode
