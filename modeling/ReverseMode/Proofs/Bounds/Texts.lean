import ReverseMode.Proofs.Bounds.Walk
import ReverseMode.Proofs.Nodes.Digest

/-!
# Digests that mistake no text

Inference compares the ends of intervals by digests of their texts, and a digest of bounded length
takes some texts for each other. The walk here stops at the first function that would be skipped over
such texts. Where it does not stop, inference is the walk that compares the texts themselves.
-/

namespace ReverseMode

open Expr

def Interval.sameTexts (hash : String → String) (a b : Interval) : Bool :=
  a.low.textWith hash == b.low.textWith hash && a.high.textWith hash == b.high.textWith hash

namespace Skipping

def confirmed (hash : String → String) : Skipping := fun earlier merged =>
  .ok (((earlier.zip merged).all fun (a, b) => a.equal hash b) &&
    (earlier.zip merged).all fun (a, b) => a.sameTexts hash b)

/-- As `unchanged`, but where a function would be skipped although texts differ the walk stops. -/
def watched (hash : String → String) (stop : Fault) : Skipping := fun earlier merged =>
  if (earlier.zip merged).all fun (a, b) => a.equal hash b then
    if (earlier.zip merged).all fun (a, b) => a.sameTexts hash b then .ok true else .error stop
  else .ok false

def SameUnless (stop : Fault) (skips skips' : Skipping) : Prop :=
  ∀ earlier merged, skips earlier merged = .error stop ∨
    skips earlier merged = skips' earlier merged

theorem watched_unchanged (hash : String → String) (stop : Fault) :
    SameUnless stop (watched hash stop) (unchanged hash) := by
  intro earlier merged
  unfold watched unchanged
  split
  next same => split <;> simp_all
  next => simp_all

theorem watched_confirmed (hash : String → String) (stop : Fault) :
    SameUnless stop (watched hash stop) (confirmed hash) := by
  intro earlier merged
  unfold watched confirmed
  split
  next same => split <;> simp_all
  next => simp_all

end Skipping

def SameUnless (stop : Fault) {α : Type} (action action' : ProgramM α) : Prop :=
  ∀ program, (action.run.run program).1 = .error stop ∨
    action.run.run program = action'.run.run program

theorem SameUnless.bind {stop : Fault} {α β : Type} {action action' : ProgramM α}
    {rest rest' : α → ProgramM β} (first : SameUnless stop action action')
    (second : ∀ a, SameUnless stop (rest a) (rest' a)) :
    SameUnless stop (action >>= rest) (action' >>= rest') := by
  intro program
  rw [ExceptT.run_bind, ExceptT.run_bind, StateT.run_bind, StateT.run_bind]
  rcases first program with stopped | same
  · refine .inl ?_
    cases run : action.run.run program with
    | mk result left =>
        rw [run] at stopped
        cases stopped
        rfl
  · rw [same]
    cases action'.run.run program with
    | mk result left =>
        cases result with
        | error => exact .inr rfl
        | ok a => exact second a left

def WalksSame (stop : Fault) {α : Type} (walk walk' : InferenceM α) : Prop :=
  ∀ state, SameUnless stop (walk.run state) (walk'.run state)

namespace WalksSame

variable {stop : Fault} {α β : Type} {walk walk' : InferenceM α}

theorem refl (walk : InferenceM α) : WalksSame stop walk walk := fun _ _ => .inr rfl

theorem bind {rest rest' : α → InferenceM β} (first : WalksSame stop walk walk')
    (second : ∀ a, WalksSame stop (rest a) (rest' a)) :
    WalksSame stop (walk >>= rest) (walk' >>= rest') := by
  intro state
  rw [StateT.run_bind, StateT.run_bind]
  exact (first state).bind fun answer => second answer.1 answer.2

theorem forM {f f' : α → InferenceM Unit} (as : List α)
    (each : ∀ a, WalksSame stop (f a) (f' a)) : WalksSame stop (as.forM f) (as.forM f') := by
  induction as with
  | nil => exact .refl _
  | cons a rest ih => exact (each a).bind fun _ => ih

theorem ofExcept {result result' : Except Fault α}
    (same : result = .error stop ∨ result = result') :
    WalksSame stop (liftM (liftM result : ProgramM α) : InferenceM α)
      (liftM (liftM result' : ProgramM α)) := by
  rcases same with rfl | rfl
  · exact fun _ _ => .inl rfl
  · exact .refl _

end WalksSame

section

variable {stop : Fault} {skips skips' : Skipping} (same : skips.SameUnless stop skips')

include same

theorem recordCall_walksSame (ctx : CallContext) (id : FuncId) (args : List Expr) :
    WalksSame stop (Inference.recordCallBy skips ctx id args)
      (Inference.recordCallBy skips' ctx id args) := by
  unfold Inference.recordCallBy
  refine .bind (.refl _) fun f => .bind (.refl _) fun _ => .bind (.refl _) fun _ =>
    .bind (.refl _) fun given => .bind (.refl _) fun state => ?_
  cases state.intervals.find? (calledStage ctx.key f) with
  | none => exact .refl _
  | some earlier =>
      have compares (merged : List Interval) : WalksSame stop
          (if ctx.key.name = f.name then pure false
            else do return !(← (skips earlier merged : ProgramM Bool)) : InferenceM Bool)
          (if ctx.key.name = f.name then pure false
            else do return !(← (skips' earlier merged : ProgramM Bool))) := by
        split
        next => exact .refl _
        next => exact (WalksSame.ofExcept (same earlier merged)).bind fun _ => .refl _
      dsimp only
      split
      next => exact .bind (.refl _) fun _ => .bind (.refl _) fun merged => .bind (.refl _) fun _ =>
        compares merged
      next => exact .bind (.refl _) fun merged => .bind (.refl _) fun _ => compares merged

theorem recordCalls_walksSame {enter enter' : FuncId → InferenceM Unit}
    (enters : ∀ id, WalksSame stop (enter id) (enter' id)) (ctx : CallContext) (e : Expr) :
    WalksSame stop (e.recordCallsBy skips enter ctx) (e.recordCallsBy skips' enter' ctx) := by
  rw [recordCallsBy_eq, recordCallsBy_eq]
  refine .forM _ fun call => ?_
  unfold Inference.visitBy
  refine (recordCall_walksSame same ctx call.1 call.2).bind fun entered => ?_
  split
  next => exact .bind (.refl _) fun _ => (enters call.1).bind fun _ => .refl _
  next => exact .refl _

omit same in
theorem walkStages_walksSame {walk walk' : CallContext → Expr → InferenceM Unit}
    (walks : ∀ ctx e, WalksSame stop (walk ctx e) (walk' ctx e)) (f : Func) (args : List Expr)
    (later : Option StageKey) (stages : List (Int × Definition)) :
    WalksSame stop (Inference.walkStages walk f args later stages)
      (Inference.walkStages walk' f args later stages) := by
  induction stages generalizing later with
  | nil => exact .refl _
  | cons entry rest ih =>
      unfold Inference.walkStages
      exact .bind (.refl _) fun _ => .bind (.refl _) fun _ => (walks _ _).bind fun _ => ih _

theorem enterFunc_walksSame (depth : Nat) (id : FuncId) :
    WalksSame stop (Inference.enterFuncBy skips depth id)
      (Inference.enterFuncBy skips' depth id) := by
  induction depth generalizing id with
  | zero => exact .refl _
  | succ depth ih =>
      unfold Inference.enterFuncBy
      exact .bind (.refl _) fun f => .bind (.refl _) fun args =>
        walkStages_walksSame (recordCalls_walksSame same ih) f args none _

theorem inferBounds_sameUnless (limit : Nat) (root : Expr) :
    SameUnless stop (inferBoundsBy skips limit root) (inferBoundsBy skips' limit root) := by
  unfold inferBoundsBy
  exact (recordCalls_walksSame same (enterFunc_walksSame same limit) .root root {}).bind
    fun _ _ => .inr rfl

end

/-- No text that inference compares is mistaken for another: the walk that stops at the first function
that would be skipped over such texts does not stop. -/
def Program.TellsTextsApart (program : Program) (hash : String → String) (root : Expr) : Prop :=
  ∃ stop, ((inferBoundsBy (.watched hash stop) Inference.nestingLimit root).run.run program).1 ≠
    .error stop

theorem inferBounds_watched {program left : Program} {hash : String → String} {root : Expr}
    {stop : Fault} {domains : StageTable Domain}
    (run : (inferBoundsBy (.watched hash stop) Inference.nestingLimit root).run.run program =
      (.ok domains, left)) : program.TellsTextsApart hash root ∧
        (inferBoundsWith hash root).run.run program = (.ok domains, left) := by
  have goesOn : ((inferBoundsBy (.watched hash stop) Inference.nestingLimit root).run.run
      program).1 ≠ .error stop := by rw [run]; nofun
  have same := inferBounds_sameUnless (Skipping.watched_unchanged hash stop)
    Inference.nestingLimit root program
  refine ⟨⟨stop, goesOn⟩, ?_⟩
  rw [inferBounds_unchanged, ← same.resolve_left goesOn, run]

theorem inferBounds_confirmed {program : Program} {hash : String → String} {root : Expr}
    (apart : program.TellsTextsApart hash root) : (inferBoundsWith hash root).run.run program =
      (inferBoundsBy (.confirmed hash) Inference.nestingLimit root).run.run program := by
  obtain ⟨stop, goesOn⟩ := apart
  have viaTexts := inferBounds_sameUnless (Skipping.watched_confirmed hash stop)
    Inference.nestingLimit root program
  have viaDigests := inferBounds_sameUnless (Skipping.watched_unchanged hash stop)
    Inference.nestingLimit root program
  rw [inferBounds_unchanged]
  exact (viaDigests.resolve_left goesOn).symm.trans (viaTexts.resolve_left goesOn)

end ReverseMode
