import ReverseMode.Bounds.Inference
import ReverseMode.Proofs.Program.Checks

namespace ReverseMode

/-- Whether a function is not entered again, from the earlier and the merged intervals of its
stage. A rule may also stop the walk. -/
abbrev Skipping := List Interval → List Interval → Except Fault Bool

namespace Skipping

def never : Skipping := fun _ _ => .ok false

/-- Functions are skipped where a text digest sees no difference. -/
def unchanged (hash : String → String) : Skipping :=
  fun earlier merged => .ok ((earlier.zip merged).all fun (a, b) => a.equal hash b)

end Skipping

namespace Inference

def recordCallBy (skips : Skipping) (ctx : CallContext) (id : FuncId) (args : List Expr) :
    InferenceM Bool := do
  let f ← (getFunc id : ProgramM Func)
  let depth := (← getThe Inference).depth
  (report Tracing.details s!"[BoundsInferencer] {depth} Visiting {f.name}" : ProgramM Unit)
  let given ← (argumentIntervals ctx args : ProgramM (List Interval))
  let key := calledStage ctx.key f
  let isSelf := ctx.key.name = f.name
  match (← getThe Inference).intervals.find? key with
  | none =>
      setIntervals key given
      return !isSelf
  | some earlier => do
      if earlier.length ≠ given.length then
        (throw (.callArityChanged f.name given.length earlier.length) : ProgramM Unit)
      let merged ← (mergeAll earlier given : ProgramM (List Interval))
      setIntervals key merged
      if isSelf then return false
      return !(← (skips earlier merged : ProgramM Bool))

end Inference

namespace Expr

mutual

def recordCallsBy (skips : Skipping) (enter : FuncId → InferenceM Unit) (ctx : CallContext) :
    Expr → InferenceM Unit
  | node _ (.call (.func id _)) _ operands => do
      if ← Inference.recordCallBy skips ctx id operands then
        modify fun state => { state with depth := state.depth + 1 }
        enter id
        modify fun state => { state with depth := state.depth - 1 }
  | node _ _ _ operands => recordAllCallsBy skips enter ctx operands
  | reduction _ _ _ _ _ => pure ()

def recordAllCallsBy (skips : Skipping) (enter : FuncId → InferenceM Unit) (ctx : CallContext) :
    List Expr → InferenceM Unit
  | [] => pure ()
  | e :: rest => do
      recordCallsBy skips enter ctx e
      recordAllCallsBy skips enter ctx rest

end

end Expr

def Inference.enterFuncBy (skips : Skipping) : Nat → FuncId → InferenceM Unit
  | 0, _ => (throw .nestingTooDeep : ProgramM Unit)
  | depth + 1, id => do
      let f ← (getFunc id : ProgramM Func)
      let args ← (f.args : ProgramM (List Expr))
      walkStages (Expr.recordCallsBy skips (enterFuncBy skips depth)) f args none f.stages.reverse

def inferBoundsBy (skips : Skipping) (limit : Nat) (e : Expr) : ProgramM (StageTable Domain) := do
  let (_, inference) ← (e.recordCallsBy skips (Inference.enterFuncBy skips limit) .root).run {}
  Inference.domains inference.intervals

def Inference.visitBy (skips : Skipping) (enter : FuncId → InferenceM Unit) (ctx : CallContext)
    (call : FuncId × List Expr) : InferenceM Unit := do
  if ← recordCallBy skips ctx call.1 call.2 then
    modify fun state => { state with depth := state.depth + 1 }
    enter call.1
    modify fun state => { state with depth := state.depth - 1 }

section

variable {skips : Skipping} {enter : FuncId → InferenceM Unit} {ctx : CallContext}

theorem recordAllCallsBy_eq {es : List Expr}
    (each : ∀ e ∈ es, e.recordCallsBy skips enter ctx =
      e.calls.forM (Inference.visitBy skips enter ctx)) :
    Expr.recordAllCallsBy skips enter ctx es =
      (es.flatMap Expr.calls).forM (Inference.visitBy skips enter ctx) := by
  induction es with
  | nil => rw [Expr.recordAllCallsBy]; rfl
  | cons e rest ih =>
      obtain ⟨first, others⟩ := List.forall_mem_cons.1 each
      rw [Expr.recordAllCallsBy, first, ih others, List.flatMap_cons]
      exact List.forM_append.symm

theorem recordCallsBy_eq (e : Expr) :
    e.recordCallsBy skips enter ctx = e.calls.forM (Inference.visitBy skips enter ctx) := by
  induction e using Expr.induction with
  | reduction => rw [Expr.recordCallsBy]; rfl
  | node node head dtype operands ih =>
      by_cases isCall : ∃ callee name, head = .call (.func callee name)
      · obtain ⟨callee, name, rfl⟩ := isCall
        rw [Expr.recordCallsBy, Expr.calls_call]
        exact (bind_pure _).symm
      · have other (callee : FuncId) (name : String) : head ≠ .call (.func callee name) :=
          fun same => isCall ⟨callee, name, same⟩
        rw [Expr.calls_operands other, Expr.recordCallsBy, recordAllCallsBy_eq ih]
        exact other

end

section

variable (hash : String → String)

theorem recordCall_unchanged :
    Inference.recordCall hash = Inference.recordCallBy (.unchanged hash) := by
  funext ctx id args
  unfold Inference.recordCall Inference.recordCallBy
  refine bind_congr fun f => bind_congr fun _ => bind_congr fun _ => bind_congr fun given =>
    bind_congr fun state => ?_
  cases state.intervals.find? (calledStage ctx.key f) with
  | none => rfl
  | some earlier =>
      have answers (merged : List Interval) : (pure (!decide (ctx.key.name = f.name) &&
          !(earlier.zip merged).all fun (a, b) => a.equal hash b) : InferenceM Bool) =
          if ctx.key.name = f.name then pure false
          else do return !(← (Skipping.unchanged hash earlier merged : ProgramM Bool)) := by
        by_cases isSelf : ctx.key.name = f.name <;> simp [isSelf]
        rfl
      dsimp only
      simp only [answers]

mutual

theorem recordCalls_unchanged (enter : FuncId → InferenceM Unit) (ctx : CallContext) (e : Expr) :
    e.recordCalls hash enter ctx = e.recordCallsBy (.unchanged hash) enter ctx :=
  match e with
  | .node _ (.call (.func _ _)) _ _ => by
      rw [Expr.recordCalls, Expr.recordCallsBy, recordCall_unchanged]
  | .node _ (.call (.image _)) _ operands
  | .node _ (.call (.primitive _)) _ operands
  | .node _ (.const _) _ operands
  | .node _ (.var _ _) _ operands
  | .node _ .cast _ operands
  | .node _ (.binary _) _ operands
  | .node _ .select _ operands
  | .node _ (.letIn _) _ operands
  | .node _ (.other _) _ operands => by
      rw [Expr.recordCalls, Expr.recordCallsBy, recordAllCalls_unchanged enter ctx operands]
        <;> simp
  | .reduction .. => by rw [Expr.recordCalls, Expr.recordCallsBy]

theorem recordAllCalls_unchanged (enter : FuncId → InferenceM Unit) (ctx : CallContext)
    (es : List Expr) :
    Expr.recordAllCalls hash enter ctx es =
      Expr.recordAllCallsBy (.unchanged hash) enter ctx es :=
  match es with
  | [] => by rw [Expr.recordAllCalls, Expr.recordAllCallsBy]
  | e :: rest => by
      rw [Expr.recordAllCalls, Expr.recordAllCallsBy, recordCalls_unchanged enter ctx e,
        recordAllCalls_unchanged enter ctx rest]

end

theorem enterFunc_unchanged (depth : Nat) :
    Inference.enterFunc hash depth = Inference.enterFuncBy (.unchanged hash) depth := by
  induction depth with
  | zero => rfl
  | succ depth ih =>
      funext id
      have walks : Expr.recordCalls hash (Inference.enterFunc hash depth) =
          Expr.recordCallsBy (.unchanged hash) (Inference.enterFuncBy (.unchanged hash) depth) := by
        funext ctx e
        rw [ih]
        exact recordCalls_unchanged hash _ ctx e
      rw [Inference.enterFunc, Inference.enterFuncBy, walks]

theorem inferBounds_unchanged (e : Expr) :
    inferBoundsWith hash e = inferBoundsBy (.unchanged hash) Inference.nestingLimit e := by
  rw [inferBoundsWith, inferBoundsBy, enterFunc_unchanged, recordCalls_unchanged]

end

end ReverseMode
