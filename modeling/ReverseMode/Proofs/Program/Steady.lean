import ReverseMode.Bounds.Exterior
import ReverseMode.Bounds.Inference
import ReverseMode.Proofs.Bounds.Interval
import ReverseMode.Proofs.Bounds.Walk
import ReverseMode.Proofs.Program.Changes
import ReverseMode.Proofs.Program.Order

/-!
# Steady actions

A steady action leaves the functions of a base program as they are and does not fail because a
contribution comes too late. More generally, an action is sparing if it leaves these functions as
they are and fails with none of the faults that count as bad, out of those that only walks cause.
Building, simplifying, and declaring and defining new functions are sparing whichever these are, and
inferring bounds is where functions do not nest too deeply, if that is one of them.
-/

namespace ReverseMode

/-- A contribution to an adjoint that is already complete. -/
def Fault.IsLate : Fault → Prop
  | .adjointFinal .. => True
  | _ => False

/-- The result is no failure because a contribution comes too late. -/
def NotLate {α : Type} (result : Except Fault α) : Prop :=
  ∀ fault, result = .error fault → ¬ fault.IsLate

/-- A table that is kept by stage or by name has no entry. -/
def Fault.IsMissing : Fault → Prop
  | .missingStageEntry => True
  | _ => False

/-- A node is met that no consumer handed an adjoint to. -/
def Fault.IsForgotten : Fault → Prop
  | .missingAdjoint .. => True
  | _ => False

/-- Functions are entered from within one another beyond the limit. -/
def Fault.IsNesting : Fault → Prop
  | .nestingTooDeep => True
  | _ => False

def Fault.IsProcedural : Fault → Prop
  | .adjointFinal .. => True
  | .missingStageEntry => True
  | .missingAdjoint .. => True
  | .nestingTooDeep => True
  | _ => False

class Procedural (bad : Fault → Prop) : Prop where
  isProcedural : ∀ fault, bad fault → fault.IsProcedural

instance : Procedural Fault.IsForgotten where
  isProcedural fault forgotten := by
    cases fault with
    | missingAdjoint => trivial
    | _ => exact forgotten.elim

instance : Procedural Fault.IsNesting where
  isProcedural fault nesting := by
    cases fault with
    | nestingTooDeep => trivial
    | _ => exact nesting.elim

def Fault.IsBookkeeping : Fault → Prop
  | .adjointFinal .. => True
  | .missingStageEntry => True
  | _ => False

class Bookkeeping (bad : Fault → Prop) : Prop where
  isBookkeeping : ∀ fault, bad fault → fault.IsBookkeeping

instance : Bookkeeping Fault.IsLate where
  isBookkeeping fault late := by
    cases fault with
    | adjointFinal => trivial
    | _ => exact late.elim

instance : Bookkeeping Fault.IsMissing where
  isBookkeeping fault missing := by
    cases fault with
    | missingStageEntry => trivial
    | _ => exact missing.elim

instance {bad : Fault → Prop} [Bookkeeping bad] : Procedural bad where
  isProcedural fault isBad := by
    have isBookkeeping := Bookkeeping.isBookkeeping fault isBad
    cases fault with
    | adjointFinal => trivial
    | missingStageEntry => trivial
    | _ => exact isBookkeeping.elim

def Spares {α : Type} (bad : Fault → Prop) (result : Except Fault α) : Prop :=
  ∀ fault, result = .error fault → ¬ bad fault

namespace Spares

variable {α β : Type} {bad : Fault → Prop}

theorem ok {a : α} : Spares bad (.ok a : Except Fault α) := fun _ failed => nomatch failed

theorem error {fault : Fault} (other : ¬ bad fault) :
    Spares bad (.error fault : Except Fault α) := by
  rintro _ ⟨⟩
  exact other

theorem bind {result : Except Fault α} {rest : α → Except Fault β} (first : Spares bad result)
    (second : ∀ a, Spares bad (rest a)) : Spares bad (result >>= rest) := by
  cases result with
  | error fault => exact error (first fault rfl)
  | ok a => exact second a

variable [Procedural bad]

theorem of_error {fault : Fault} (other : ¬ fault.IsProcedural) :
    Spares bad (.error fault : Except Fault α) := error (mt (Procedural.isProcedural fault) other)

theorem initial (f : Func) : Spares bad f.initial := by
  unfold Func.initial
  split
  next => exact ok
  next => exact of_error not_false

theorem args (f : Func) : Spares bad f.args := by
  unfold Func.args
  exact (initial f).bind fun _ => ok

theorem definition (f : Func) (stage : Int) : Spares bad (f.definition stage) := by
  unfold Func.definition
  refine (initial f).bind fun _ => ?_
  split
  next => exact ok
  next =>
    split
    next => exact ok
    next => exact of_error not_false

theorem checkPure {name : String} {seen : List String} {es : List Expr} :
    Spares bad (checkPure name seen es) := by
  induction es generalizing seen with
  | nil => exact ok
  | cons e rest ih =>
      unfold ReverseMode.checkPure
      split
      next => exact of_error not_false
      next =>
        split
        next => exact of_error not_false
        next => exact ih

end Spares

def SparingBuild {α : Type} (bad : Fault → Prop) (action : BuildM α) : Prop :=
  ∀ supply, Spares bad (action.run.run supply).1

namespace SparingBuild

variable {α β : Type} {bad : Fault → Prop}

theorem pure {a : α} : SparingBuild bad (Pure.pure a : BuildM α) := by
  intro supply fault failed
  cases failed

theorem ofNode {action : NodeM α} : SparingBuild bad (liftM action : BuildM α) := by
  intro supply fault failed
  cases failed

theorem bind {action : BuildM α} {rest : α → BuildM β} (first : SparingBuild bad action)
    (second : ∀ a, SparingBuild bad (rest a)) : SparingBuild bad (action >>= rest) := by
  intro supply fault failed
  rw [ExceptT.run_bind, StateT.run_bind] at failed
  cases outcome : action.run.run supply with
  | mk result left =>
      rw [outcome] at failed
      cases result with
      | error earlier =>
          cases failed
          exact first supply fault (by rw [outcome])
      | ok a => exact second a left fault failed

variable [Procedural bad]

theorem throw {fault : Fault} (other : ¬ fault.IsProcedural) :
    SparingBuild bad (throw fault : BuildM α) := by
  intro supply fault' failed
  cases failed
  exact mt (Procedural.isProcedural fault) other

theorem operand (o : Operand) : SparingBuild bad o.toExpr := by
  cases o with
  | expr e => exact pure
  | literal c => exact ofNode
  | foreign type => exact throw not_false

theorem operands (os : List Operand) : SparingBuild bad (Operand.toExprs os) := by
  induction os with
  | nil => exact pure
  | cons o rest ih => exact (operand o).bind fun _ => ih.bind fun _ => pure

theorem simplified (e : Expr) : SparingBuild bad e.simplified := by
  unfold Expr.simplified
  split
  next => exact pure
  next =>
    split
    next => exact ofNode
    next =>
      split
      next => exact ofNode
      next => exact throw not_false
      next => exact pure
      next => exact pure

theorem solve (equation : Expr) (unknownName : String) :
    SparingBuild bad (equation.solve unknownName) := by
  unfold Expr.solve
  split
  next =>
    extract_lets
    split
    next => exact ofNode
    next => exact pure
    next =>
      split
      next => exact ofNode
      next => exact throw not_false
      next => exact pure
  next =>
    split
    next => exact throw not_false
    next => exact throw not_false

theorem interval {declared : List String} {domain : Domain} {argument : Int} (e : Expr) :
    SparingBuild bad (e.interval declared domain argument) := by
  fun_induction Expr.interval declared domain argument e with
  | case1 _ op _ _ _ combine _ ihLeft ihRight =>
      exact ihLeft.bind fun _ => ihRight.bind fun _ => ofNode
  | case2 => exact throw not_false
  | case3 => exact ofNode
  | case4 => exact throw not_false
  | case5 => exact ofNode
  | case6 => exact throw not_false
  | case7 => exact pure
  | case8 => exact throw not_false

end SparingBuild

abbrev Program.Preserves (base program : Program) : Prop := base.Grows program fun _ => False

/-- Started where the functions of `base` are as they were, the action leaves them so, its answer has
the property, and it does not fail because a contribution comes too late. -/
def Steady (base : Program) {α : Type} (action : ProgramM α) (Q : α → Prop) : Prop :=
  ∀ program, base.Preserves program → ∀ result left, action.run.run program = (result, left) →
    NotLate result ∧ ∀ a, result = .ok a → base.Preserves left ∧ Q a

/-- Started where the functions of `base` are as they were, the action leaves them so, its answer has
the property, and it fails with no bad fault. -/
def Sparing (bad : Fault → Prop) (base : Program) {α : Type} (action : ProgramM α) (Q : α → Prop) :
    Prop :=
  ∀ program, base.Preserves program → ∀ result left, action.run.run program = (result, left) →
    Spares bad result ∧ ∀ a, result = .ok a → base.Preserves left ∧ Q a

def Any {α : Type} (_ : α) : Prop := True

namespace Sparing

variable {α β : Type} {bad : Fault → Prop} {base : Program} {Q Q' : α → Prop} {R : β → Prop}

theorem ofOk {action : ProgramM α}
    (runs : ∀ program, base.Preserves program → ∃ a left,
      action.run.run program = (.ok a, left) ∧ base.Preserves left ∧ Q a) :
    Sparing bad base action Q := by
  intro program preserved result left run
  obtain ⟨a, left', run', kept, answer⟩ := runs program preserved
  rw [run'] at run
  cases run
  exact ⟨fun _ same => (nomatch same), by rintro _ ⟨⟩; exact ⟨kept, answer⟩⟩

theorem pure {a : α} (answer : Q a) : Sparing bad base (Pure.pure a : ProgramM α) Q :=
  ofOk fun program preserved => ⟨a, program, rfl, preserved, answer⟩

theorem throw_good {fault : Fault} (good : ¬ bad fault) :
    Sparing bad base (throw fault : ProgramM α) Q := by
  intro program preserved result left run
  cases run
  exact ⟨by rintro _ ⟨⟩; exact good, fun _ same => (nomatch same)⟩

theorem bind {action : ProgramM α} {rest : α → ProgramM β} (first : Sparing bad base action Q)
    (second : ∀ a, Q a → Sparing bad base (rest a) R) : Sparing bad base (action >>= rest) R := by
  intro program preserved result left run
  rw [ExceptT.run_bind, StateT.run_bind] at run
  cases outcome : action.run.run program with
  | mk earlier middle =>
      obtain ⟨failing, answering⟩ := first program preserved earlier middle outcome
      rw [outcome] at run
      cases earlier with
      | error fault =>
          cases run
          exact ⟨by rintro _ ⟨⟩; exact failing fault rfl, fun _ same => (nomatch same)⟩
      | ok a =>
          obtain ⟨kept, answer⟩ := answering a rfl
          exact second a answer middle kept result left run

theorem throw_good_bind {fault : Fault} {rest : α → ProgramM β} (good : ¬ bad fault) :
    Sparing bad base ((MonadExcept.throw fault : ProgramM α) >>= rest) R :=
  bind (throw_good (Q := fun _ => False) good) fun _ impossible => impossible.elim

theorem mono {action : ProgramM α} (sparing : Sparing bad base action Q)
    (implies : ∀ a, Q a → Q' a) : Sparing bad base action Q' :=
  fun program preserved result left run =>
    ⟨(sparing program preserved result left run).1, fun a same =>
      ((sparing program preserved result left run).2 a same).imp_right (implies a)⟩

theorem ofBuild {action : BuildM α} (builds : SparingBuild bad action) :
    Sparing bad base (liftM action : ProgramM α) Any := by
  intro program preserved result left run
  change ((action.run.run program.supply).1,
    { program with supply := (action.run.run program.supply).2 }) = (result, left) at run
  obtain ⟨rfl, rfl⟩ := Prod.mk.inj run
  exact ⟨fun fault failed => builds program.supply fault failed, fun a _ =>
    ⟨preserved.trans (.of_funcs rfl), trivial⟩⟩

theorem ofNode {action : NodeM α} : Sparing bad base (liftM action : ProgramM α) Any :=
  ofOk fun _ preserved => ⟨_, _, rfl, preserved.trans (.of_funcs rfl), trivial⟩

theorem ofExcept {result : Except Fault α} (spares : Spares bad result)
    (answers : ∀ a, result = .ok a → Q a) : Sparing bad base (liftM result : ProgramM α) Q := by
  intro program preserved result' left run
  cases run
  exact ⟨spares, fun a isOk => ⟨preserved, answers a isOk⟩⟩

theorem getFunc {id : FuncId} :
    Sparing bad base (getFunc id) fun f => id < base.funcs.size → f = base.func id :=
  ofOk fun program preserved =>
    ⟨program.func id, program, rfl, preserved, fun below => preserved.func_eq id below not_false⟩

theorem getProgram : Sparing bad base (getThe Program : ProgramM Program) base.Preserves :=
  ofOk fun program preserved => ⟨program, program, rfl, preserved, preserved⟩

theorem report {reported : Tracing → Bool} {line : String} :
    Sparing bad base (report reported line) Any := by
  refine ofOk fun program preserved => ⟨(), _, rfl, preserved.trans (.of_funcs ?_), trivial⟩
  dsimp only
  split <;> rfl

theorem mapM {f : α → ProgramM β} (as : List α) (each : ∀ a ∈ as, Sparing bad base (f a) Any) :
    Sparing bad base (as.mapM f) Any := by
  induction as with
  | nil => exact pure trivial
  | cons a rest ih =>
      obtain ⟨first, others⟩ := List.forall_mem_cons.1 each
      rw [List.mapM_cons]
      exact first.bind fun _ _ => (ih others).bind fun _ _ => pure trivial

theorem forM {f : α → ProgramM PUnit} (as : List α) (each : ∀ a ∈ as, Sparing bad base (f a) Any) :
    Sparing bad base (as.forM f) Any := by
  induction as with
  | nil => exact pure trivial
  | cons a rest ih =>
      obtain ⟨first, others⟩ := List.forall_mem_cons.1 each
      exact first.bind fun _ _ => ih others

theorem forIn {body : α → PUnit → ProgramM (ForInStep PUnit)} (as : List α)
    (each : ∀ a ∈ as, Sparing bad base (body a ⟨⟩) Any) : Sparing bad base (forIn as ⟨⟩ body) Any := by
  induction as with
  | nil => exact pure trivial
  | cons a rest ih =>
      obtain ⟨first, others⟩ := List.forall_mem_cons.1 each
      rw [List.forIn_cons]
      refine first.bind fun step _ => ?_
      cases step with
      | done => exact pure trivial
      | yield => exact ih others

theorem declareFunc {name? : Option String} :
    Sparing bad base (declareFunc name?) fun id => base.funcs.size ≤ id := by
  unfold ReverseMode.declareFunc
  refine ofNode.bind fun name _ => ofOk fun program preserved =>
    ⟨_, _, rfl, preserved.trans ⟨?_, fun id below _ => (func_push rfl).2 id below⟩, preserved.size_le⟩
  exact (Nat.le_succ _).trans_eq (Array.size_push _).symm

theorem setFunc {id : FuncId} {f : Func} (new : base.funcs.size ≤ id) :
    Sparing bad base (setFunc id f) Any := by
  refine ofOk fun program preserved => ⟨_, _, rfl, ⟨?_, fun other below _ => ?_⟩, trivial⟩
  · dsimp only
    rw [Array.size_setIfInBounds]
    exact preserved.size_le
  · rw [← preserved.func_eq other below not_false]
    unfold Program.func
    have different : id ≠ other := Nat.ne_of_gt (below.trans_le new)
    simp [Array.getD_eq_getD_getElem?, different]

variable [Procedural bad]

theorem throw {fault : Fault} (other : ¬ fault.IsProcedural) :
    Sparing bad base (throw fault : ProgramM α) Q :=
  throw_good (mt (Procedural.isProcedural fault) other)

theorem throw_bind {fault : Fault} {rest : α → ProgramM β} (other : ¬ fault.IsProcedural) :
    Sparing bad base ((MonadExcept.throw fault : ProgramM α) >>= rest) R :=
  throw_good_bind (mt (Procedural.isProcedural fault) other)

theorem args (f : Func) : Sparing bad base (liftM f.args : ProgramM (List Expr)) fun _ =>
    ∃ initial, f.init = some initial := by
  refine ofExcept (.args f) fun args isOk => ?_
  unfold Func.args Func.initial at isOk
  split at isOk
  next initial defined => exact ⟨initial, defined⟩
  next => cases isOk

theorem define {id : FuncId} {args : List Expr} {value : Expr} (new : base.funcs.size ≤ id) :
    Sparing bad base (define id args value) Any := by
  unfold ReverseMode.define
  refine getFunc.bind fun f _ => ?_
  split
  next => exact (ofExcept (Q := Any) .checkPure fun _ _ => trivial).bind fun _ _ => setFunc new
  next =>
    dsimp only
    split
    next => exact throw_bind not_false
    next =>
      split
      next => exact setFunc new
      next => exact ofNode.bind fun _ _ => setFunc new

theorem callFuncWith {id : FuncId} {args : List Operand} :
    Sparing bad base (callFuncWith id args) Any := by
  unfold ReverseMode.callFuncWith
  refine getFunc.bind fun f _ => ?_
  split
  next => exact throw not_false
  next =>
    dsimp only
    split
    next => exact throw_bind not_false
    next => exact (ofBuild (.operands args)).bind fun _ _ => ofNode

theorem callFunc {id : FuncId} {args : List Expr} : Sparing bad base (callFunc id args) Any :=
  callFuncWith

theorem simplify (e : Expr) : Sparing bad base (simplify e) Any := by
  unfold ReverseMode.simplify
  refine (ofBuild (.simplified e)).bind fun result _ => ?_
  split
  next => exact report.bind fun _ _ => pure trivial
  next => exact pure trivial

theorem toDomain (intervals : List Interval) : Sparing bad base (toDomain intervals) Any := by
  induction intervals with
  | nil => exact pure trivial
  | cons i rest ih =>
      unfold ReverseMode.toDomain
      refine (simplify i.low).bind fun _ _ => ofNode.bind fun _ _ => ofNode.bind fun _ _ =>
        ofNode.bind fun _ _ => (simplify _).bind fun _ _ => ih.bind fun _ _ => pure trivial

theorem exteriorAxis {v : Expr} {least extent : Operand} :
    Sparing bad base (Exterior.axis v least extent) Any := by
  unfold Exterior.axis
  exact (ofBuild (.operand least)).bind fun _ _ => (ofBuild (.operand extent)).bind fun _ _ =>
    ofNode.bind fun _ _ => (simplify _).bind fun _ _ => ofNode.bind fun _ _ =>
    ofNode.bind fun _ _ => ofNode.bind fun _ _ => ofNode.bind fun _ _ => pure trivial

theorem exteriorAxes {inside : Option Expr} (ranges : List (Expr × Operand × Operand)) :
    Sparing bad base (Exterior.axes inside ranges) Any := by
  induction ranges generalizing inside with
  | nil => exact pure trivial
  | cons range rest ih =>
      obtain ⟨v, least, extent⟩ := range
      unfold Exterior.axes
      refine exteriorAxis.bind fun axis _ => ?_
      dsimp only
      split
      next => exact ih.bind fun _ _ => pure trivial
      next => exact ofNode.bind fun _ _ => ih.bind fun _ _ => pure trivial

theorem constantExterior {id : FuncId} {value : Operand} {bounds : List (Operand × Operand)} :
    Sparing bad base (constantExterior id value bounds) fun wrapper => base.funcs.size ≤ wrapper := by
  unfold ReverseMode.constantExterior
  refine getFunc.bind fun f _ => (args f).bind fun vars _ => ?_
  dsimp only
  split
  next => exact throw_bind not_false
  next =>
    refine (mapM _ fun _ _ => ofNode).bind fun _ _ => (exteriorAxes _).bind fun axes _ => ?_
    refine declareFunc.bind fun wrapper new => callFunc.bind fun _ _ => ?_
    split
    next => exact (define new).bind fun _ _ => pure new
    next =>
      exact (ofBuild (.operand value)).bind fun _ _ => ofNode.bind fun _ _ =>
        (define new).bind fun _ _ => pure new

end Sparing

def SparingRun (bad : Fault → Prop) (base : Program) {σ α : Type} (P : σ → Prop)
    (action : StateT σ ProgramM α) (Q : α → σ → Prop) : Prop :=
  ∀ state, P state → Sparing bad base (action.run state) fun result => Q result.1 result.2

namespace SparingRun

variable {σ α β : Type} {bad : Fault → Prop} {base : Program} {P P' : σ → Prop} {Q Q' : α → σ → Prop}
  {R : β → σ → Prop}

theorem pure {a : α} (answer : ∀ state, P state → Q a state) :
    SparingRun bad base P (Pure.pure a : StateT σ ProgramM α) Q :=
  fun state holds => Sparing.pure (answer state holds)

theorem bind {action : StateT σ ProgramM α} {rest : α → StateT σ ProgramM β}
    (first : SparingRun bad base P action Q) (second : ∀ a, SparingRun bad base (Q a) (rest a) R) :
    SparingRun bad base P (action >>= rest) R := by
  intro state holds
  rw [StateT.run_bind]
  exact (first state holds).bind fun result reached => second result.1 result.2 reached

theorem lift {action : ProgramM α} {A : α → Prop} (sparing : Sparing bad base action A) :
    SparingRun bad base P (liftM action : StateT σ ProgramM α) fun a state => A a ∧ P state :=
  fun _ holds => sparing.bind fun _ answer => Sparing.pure ⟨answer, holds⟩

theorem bind_lift {action : ProgramM α} {rest : α → StateT σ ProgramM β} {A : α → Prop}
    (sparing : Sparing bad base action A)
    (second : ∀ a, A a → SparingRun bad base P (rest a) R) :
    SparingRun bad base P ((liftM action : StateT σ ProgramM α) >>= rest) R :=
  (lift sparing).bind fun a state ⟨answer, holds⟩ => second a answer state holds

theorem bind_get {rest : σ → StateT σ ProgramM β}
    (second : ∀ state, P state → SparingRun bad base (· = state) (rest state) R) :
    SparingRun bad base P (getThe σ >>= rest) R :=
  fun state holds => second state holds state rfl

theorem modify {change : σ → σ} {Q : PUnit → σ → Prop}
    (changes : ∀ state, P state → Q ⟨⟩ (change state)) :
    SparingRun bad base P (modifyThe σ change : StateT σ ProgramM PUnit) Q :=
  fun state holds => Sparing.pure (changes state holds)

theorem mono {action : StateT σ ProgramM α} (sparing : SparingRun bad base P action Q)
    (before : ∀ state, P' state → P state) (after : ∀ a state, Q a state → Q' a state) :
    SparingRun bad base P' action Q' :=
  fun state holds => (sparing state (before state holds)).mono fun result => after result.1 result.2

theorem throw_good {fault : Fault} (good : ¬ bad fault) :
    SparingRun bad base P (liftM (throw fault : ProgramM α) : StateT σ ProgramM α) Q :=
  (lift (Sparing.throw_good (Q := fun _ => False) good)).mono (fun _ => id)
    fun _ _ impossible => impossible.1.elim

variable [Procedural bad]

theorem throw {fault : Fault} (other : ¬ fault.IsProcedural) :
    SparingRun bad base P (liftM (throw fault : ProgramM α) : StateT σ ProgramM α) Q :=
  throw_good (mt (Procedural.isProcedural fault) other)

theorem throw_bind {fault : Fault} {rest : α → StateT σ ProgramM β}
    (other : ¬ fault.IsProcedural) : SparingRun bad base P
      ((liftM (MonadExcept.throw fault : ProgramM α) : StateT σ ProgramM α) >>= rest) R :=
  bind_lift (Sparing.throw (Q := fun _ => False) other) fun _ impossible => impossible.elim

end SparingRun

abbrev SparingAlways (bad : Fault → Prop) (base : Program) {σ α : Type}
    (action : StateT σ ProgramM α) : Prop :=
  SparingRun bad base Any action fun _ => Any

section

variable {bad : Fault → Prop} {base : Program} {hash : String → String}

theorem SparingAlways.pure {σ α : Type} {a : α} :
    SparingAlways bad base (Pure.pure a : StateT σ ProgramM α) :=
  SparingRun.pure fun _ => id

theorem SparingAlways.modify {σ : Type} {change : σ → σ} :
    SparingAlways bad base (modifyThe σ change : StateT σ ProgramM PUnit) :=
  SparingRun.modify fun _ _ => trivial

theorem SparingAlways.forM {σ α : Type} {f : α → StateT σ ProgramM PUnit} (as : List α)
    (each : ∀ a ∈ as, SparingAlways bad base (f a)) : SparingAlways bad base (as.forM f) := by
  induction as with
  | nil => exact .pure
  | cons a rest ih =>
      obtain ⟨first, others⟩ := List.forall_mem_cons.1 each
      exact first.bind fun _ => ih others

theorem redirectAll_sparing {name : String} {target : FuncId} {es : List Expr}
    (each : ∀ e ∈ es, SparingAlways bad base (e.redirect name target)) :
    SparingAlways bad base (Expr.redirectAll name target es) := by
  induction es with
  | nil => exact .pure
  | cons e rest ih =>
      obtain ⟨first, others⟩ := List.forall_mem_cons.1 each
      unfold Expr.redirectAll
      exact first.bind fun _ => (ih others).bind fun _ => SparingAlways.pure

theorem setIntervals_sparing {α : Type} {state : Inference} {key : StageKey}
    {intervals : List Interval} {a : α} {Q : α → Inference → Prop}
    (stored : Q a { state with intervals := state.intervals.insert key intervals }) :
    SparingRun bad base (· = state) (do Inference.setIntervals key intervals; pure a) Q := by
  refine SparingRun.bind (Q := fun _ left => left =
    { state with intervals := state.intervals.insert key intervals })
    (.modify fun _ same => by rw [same]) fun _ => .pure ?_
  rintro _ rfl
  exact stored

variable [Procedural bad]

theorem merge_sparing (a b : Interval) : Sparing bad base (a.merge b) Any :=
  Sparing.ofNode.bind fun _ _ => (Sparing.simplify _).bind fun _ _ =>
    Sparing.ofNode.bind fun _ _ => (Sparing.simplify _).bind fun _ _ => Sparing.pure trivial

theorem argumentIntervals_sparing {ctx : CallContext} {args : List Expr} :
    Sparing bad base (Inference.argumentIntervals ctx args) Any :=
  Sparing.mapM _ fun _ _ => Sparing.ofBuild (.interval _)

theorem recordCall_sparing {P : Inference → Prop} {Q : Bool → Inference → Prop} {ctx : CallContext}
    {id : FuncId} {args : List Expr}
    (records : ∀ f state given enters, (id < base.funcs.size → f = base.func id) → P state →
      (enters = true → ctx.key.name ≠ f.name) →
      (enters = false → ctx.key.name = f.name ∨
        (state.intervals.find? (calledStage ctx.key f)).isSome) →
      Q enters { state with intervals := state.intervals.insert (calledStage ctx.key f) given }) :
    SparingRun bad base P (Inference.recordCall hash ctx id args) Q := by
  unfold Inference.recordCall
  refine .bind_lift Sparing.getFunc fun f isFunc => .bind_get fun state holds => ?_
  refine .bind_lift Sparing.report fun _ _ => .bind_lift argumentIntervals_sparing fun given _ => ?_
  refine .bind_get fun current same => ?_
  rw [same]
  dsimp only
  split
  next absent =>
    exact setIntervals_sparing (records f state given _ isFunc holds (by simp) fun stays =>
      .inl (by simpa using stays))
  next earlier present =>
    split
    next => exact .throw_bind not_false
    next =>
      refine .bind_lift (Sparing.mapM _ fun _ _ => merge_sparing _ _) fun merged _ => ?_
      exact setIntervals_sparing (records f state merged _ isFunc holds
        (fun enters => by simpa using (Bool.and_eq_true_iff.1 enters).1) fun _ =>
          .inr (by rw [present]; rfl))

theorem visit_sparing {enter : FuncId → InferenceM Unit} {ctx : CallContext}
    {call : FuncId × List Expr}
    (enters : ∀ f, (call.1 < base.funcs.size → f = base.func call.1) → ctx.key.name ≠ f.name →
      SparingAlways bad base (enter call.1)) :
    SparingAlways bad base (Inference.visitBy (.unchanged hash) enter ctx call) := by
  unfold Inference.visitBy
  rw [← recordCall_unchanged]
  refine (recordCall_sparing (Q := fun entered _ => entered = true → ∃ f,
    (call.1 < base.funcs.size → f = base.func call.1) ∧ ctx.key.name ≠ f.name)
    fun f _ _ _ isFunc _ other _ entered => ⟨f, isFunc, other entered⟩).bind fun entered => ?_
  split
  next isEntered =>
    refine fun state isOther => ?_
    obtain ⟨f, isFunc, other⟩ := isOther isEntered
    exact (SparingAlways.modify.bind fun _ => (enters f isFunc other).bind fun _ =>
      SparingAlways.modify) state trivial
  next => exact .pure fun _ _ => trivial

theorem recordCalls_sparing {enter : FuncId → InferenceM Unit} {ctx : CallContext} (e : Expr)
    (enters : ∀ id f, e.Meets id → (id < base.funcs.size → f = base.func id) →
      ctx.key.name ≠ f.name → SparingAlways bad base (enter id)) :
    SparingAlways bad base (e.recordCallsBy (.unchanged hash) enter ctx) := by
  rw [recordCallsBy_eq]
  exact .forM _ fun call member => visit_sparing fun f =>
    enters call.1 f (Expr.meets_of_mem_calls member)

theorem stageIntervals_sparing {P : Inference → Prop} {Q : List Interval → Inference → Prop}
    {key : StageKey} {later : Option StageKey}
    (known : ∀ state intervals, P state → state.intervals.find? key = some intervals →
      Q intervals state)
    (inherited : ∀ state intervals, P state →
      Q intervals { state with intervals := state.intervals.insert key intervals }) :
    SparingRun bad base P (Inference.stageIntervals key later) Q := by
  unfold Inference.stageIntervals
  refine .bind_get fun state holds => ?_
  dsimp only
  split
  next intervals found =>
    refine .pure fun left same => ?_
    rw [same]
    exact known state intervals holds found
  next =>
    split
    next intervals _ => exact setIntervals_sparing (inherited state intervals holds)
    next => exact .throw not_false

theorem walkStages_sparing {walk : CallContext → Expr → InferenceM Unit} {f : Func}
    {args : List Expr} (later : Option StageKey) (stages : List (Int × Definition))
    (walks : ∀ entry ∈ stages, ∀ domain,
      SparingAlways bad base (walk ⟨⟨f.name, entry.1⟩, args, domain⟩ entry.2.value)) :
    SparingAlways bad base (Inference.walkStages walk f args later stages) := by
  induction stages generalizing later with
  | nil => exact .pure
  | cons entry rest ih =>
      obtain ⟨first, others⟩ := List.forall_mem_cons.1 walks
      unfold Inference.walkStages
      refine SparingRun.bind (Q := fun _ => Any)
        (stageIntervals_sparing (fun _ _ _ _ => trivial) fun _ _ _ => trivial) fun intervals => ?_
      exact .bind_lift (Sparing.toDomain intervals) fun _ _ => (first _).bind fun _ => ih _ others

theorem enterFunc_sparing (depth : Nat) (id : FuncId)
    (shallow : bad .nestingTooDeep → base.Shallow depth id) :
    SparingAlways bad base (Inference.enterFuncBy (.unchanged hash) depth id) := by
  induction depth generalizing id with
  | zero => exact .throw_good shallow
  | succ depth ih =>
      unfold Inference.enterFuncBy
      refine .bind_lift Sparing.getFunc fun f isFunc => .bind_lift (Sparing.args f) fun _ _ => ?_
      refine walkStages_sparing _ _ fun entry member _ => recordCalls_sparing _
        fun callee g meets isCallee other => ih callee fun isBad => ?_
      obtain ⟨known, below⟩ := shallow isBad
      rw [isFunc known] at member other
      refine below callee ⟨?_, entry, List.mem_reverse.1 member, meets⟩
      rintro rfl
      exact other (congrArg Func.name (isCallee known).symm)

theorem domains_sparing (table : StageTable (List Interval)) :
    Sparing bad base (Inference.domains table) fun domains =>
      domains.map Prod.fst = table.map Prod.fst := by
  induction table with
  | nil => exact Sparing.pure rfl
  | cons entry rest ih =>
      obtain ⟨key, intervals⟩ := entry
      unfold Inference.domains
      refine (Sparing.toDomain intervals).bind fun domain _ => Sparing.report.bind fun _ _ => ?_
      refine (Sparing.forM _ fun _ _ => Sparing.report).bind fun _ _ => ih.bind fun others same => ?_
      exact Sparing.pure (by simp [same])

theorem inferBoundsBy_sparing {limit : Nat} (e : Expr)
    (shallow : bad .nestingTooDeep → ∀ id, e.Meets id → base.Shallow limit id) :
    Sparing bad base (inferBoundsBy (.unchanged hash) limit e) Any := by
  unfold inferBoundsBy
  have walked : SparingAlways bad base
      (e.recordCallsBy (.unchanged hash) (Inference.enterFuncBy (.unchanged hash) limit) .root) :=
    recordCalls_sparing e fun id _ meets _ _ => enterFunc_sparing _ id fun isBad =>
      shallow isBad id meets
  exact (walked {} trivial).bind fun _ _ =>
    (domains_sparing _).mono fun _ _ => trivial

theorem inferBounds_sparing (e : Expr) (shallow : bad .nestingTooDeep → ∀ id, e.Meets id →
      base.Shallow Inference.nestingLimit id) : Sparing bad base (inferBoundsWith hash e) Any := by
  rw [inferBounds_unchanged]
  exact inferBoundsBy_sparing e shallow

theorem redirect_sparing {name : String} {target : FuncId} (e : Expr) :
    SparingAlways bad base (e.redirect name target) := by
  induction e using Expr.induction with
  | reduction => exact .pure
  | node node head dtype operands ih =>
      unfold Expr.redirect
      refine .bind_get fun memo _ => ?_
      split
      next => exact .pure fun _ _ => trivial
      next =>
        refine ((redirectAll_sparing ih).mono (fun _ _ => trivial) fun _ _ => id).bind fun _ => ?_
        have keep (result : Expr) : SparingAlways bad base (do
            modify fun memo : RedirectionMemo => memo.insert node result
            return result) := SparingAlways.modify.bind fun _ => SparingAlways.pure
        split
        next =>
          split
          next => exact .bind_lift Sparing.callFunc fun result _ => keep result
          next => exact .bind_lift Sparing.ofNode fun result _ => keep result
        next => exact .bind_lift Sparing.ofNode fun result _ => keep result

theorem replaceCalls_sparing {e : Expr} {name : String} {target : FuncId} :
    Sparing bad base (replaceCalls e name target) Any :=
  (redirect_sparing e {} trivial).bind fun _ _ => Sparing.pure trivial

theorem listing_sparing {id : FuncId} : Sparing bad base (listing id) Any := by
  unfold listing
  exact Sparing.getFunc.bind fun f _ => (Sparing.args f).bind fun _ _ => Sparing.callFunc.bind
    fun _ _ => Sparing.getProgram.bind fun _ _ => Sparing.pure trivial

end

namespace Program.Linked

variable {program later : Program} {root : Expr}

theorem standsIn_iff (linked : program.Linked root) (preserved : program.Preserves later)
    {home : Option FuncId} {x : Expr} (isHome : program.Home root home) :
    later.StandsIn root home x ↔ program.StandsIn root home x := by
  cases home with
  | none => exact Iff.rfl
  | some f =>
      simp only [StandsIn, preserved.func_eq f (linked.known f isHome) not_false]

theorem home_iff (linked : program.Linked root) (preserved : program.Preserves later)
    {home : Option FuncId} : later.Home root home ↔ program.Home root home := by
  constructor
  · intro isHome
    induction isHome with
    | root => exact .root
    | call _ stands calls ih => exact .call ih ((linked.standsIn_iff preserved ih).1 stands) calls
  · intro isHome
    induction isHome with
    | root => exact .root
    | call isHome stands calls ih =>
        exact .call ih ((linked.standsIn_iff preserved isHome).2 stands) calls

theorem preserve (linked : program.Linked root) (preserved : program.Preserves later) :
    later.Linked root := by
  have home {h : Option FuncId} (isHome : later.Home root h) : program.Home root h :=
    (linked.home_iff preserved).1 isHome
  have func_eq {f : FuncId} (isHome : later.Home root (some f)) :=
    preserved.func_eq f (linked.known f (home isHome)) not_false
  have stands {h : Option FuncId} {x : Expr} (isHome : later.Home root h) :=
    linked.standsIn_iff preserved (x := x) (home isHome)
  refine ⟨fun f isHome => ?_, fun f g isHome isHome' same => ?_, ?_, ?_⟩
  · exact (linked.known f (home isHome)).trans_le preserved.size_le
  · rw [func_eq isHome, func_eq isHome'] at same
    exact linked.distinct f g (home isHome) (home isHome') same
  · intro h x id name isHome standsX calls
    have calleeHome := Home.call isHome standsX ⟨name, calls⟩
    rw [func_eq calleeHome]
    exact linked.named h x id name (home isHome) ((stands isHome).1 standsX) calls
  · exact fun h h' x x' isHome isHome' standsX standsX' => linked.coherent h h' x x' (home isHome)
      (home isHome') ((stands isHome).1 standsX) ((stands isHome').1 standsX')

end Program.Linked

end ReverseMode
