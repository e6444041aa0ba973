import ReverseMode.Derivative.Accumulation

/-!
# Scattering into adjoint functions

The adjoint of a function call is written in the variables of the calling stage. By inverting the
call's index expressions it is expressed in the callee's own variables, and added to the callee's
adjoint function as an update.
-/

namespace ReverseMode

/-- The variable an index argument is inverted for: the first variable of the calling stage it
uses, else its first reduction variable. -/
def choosePivot (arg : Expr) (declared : List String) : Option Expr :=
  let vars := arg.freeVariables
  match vars.find? fun v => v.isPureVariable && declared.contains v.name with
  | some v => some v
  | none => vars.find? Expr.isReductionVariable

/-- The value of a function right after one of its stages, as a function of its own. -/
def stageSnapshot (args : List Expr) (name : String) (stage : Int) : AdjointM FuncId := do
  let key : StageKey := ⟨name, stage⟩
  match (← Accumulation.get).snapshots.find? key with
  | some known => return known
  | none => do
      let snapshot ← build
      Accumulation.modify fun state =>
        { state with snapshots := state.snapshots.insert key snapshot }
      return snapshot
where
  build : AdjointM FuncId := do
    match (← Accumulation.get).funcs.lookup name with
    | none => (throw .missingStageEntry : ProgramM FuncId)
    | some id => (copy id : ProgramM FuncId)
  copy (id : FuncId) : ProgramM FuncId := do
    let snapshot ← declareFunc (some s!"{name}_s{stage + 1}")
    let f ← getFunc id
    let initial ← (f.definition (-1) : ProgramM Definition)
    define snapshot args initial.value
    copyUpdates id snapshot (List.range (stage + 1).toNat)
    return snapshot
  copyUpdates (id snapshot : FuncId) : List Nat → ProgramM Unit
    | [] => return
    | update :: rest => do
        let f ← getFunc id
        let definition ← (f.definition update : ProgramM Definition)
        let value ← replaceCalls definition.value name snapshot
        define snapshot definition.args value
        copyUpdates id snapshot rest

def bindNames (bindings : List (String × Expr)) : Nat → List String → Expr → NodeM Expr
  | 0, _, adjoint => pure adjoint
  | rounds + 1, bound, adjoint => do
      let pending := adjoint.freeNames.filter fun name =>
        (bindings.lookup name).isSome && !bound.contains name
      if pending.isEmpty then pure adjoint
      else
        let wrapped ← pending.foldlM (fun e name =>
          Expr.letIn name ((bindings.lookup name).getD e) e) adjoint
        bindNames bindings rounds (pending ++ bound) wrapped

/-- Each round binds a name that was not bound before. -/
def closeAdjoint (adjoint : Expr) : AdjointM Expr := do
  let bindings := (← Accumulation.get).bindings
  (bindNames bindings (bindings.length + 1) [] adjoint : ProgramM Expr)

def invertArgument (ctx : CallContext) (call : Expr) (position : Nat) (arg pivot target : Expr) :
    ProgramM Expr := do
  if arg.variableName?.isSome then return target
  let solution ← solve (← Expr.eq target arg) pivot.name
  match solution.solved, solution.result.operands with
  | true, [_, inverse] => return inverse
  | _, _ =>
      throw (.uninvertibleIndex position arg.render call.render ctx.key.name ctx.key.stage
        pivot.name)

/-- An adjoint that is restricted to the bounds of an inverted reduction variable. -/
def restrictToBounds (pivot inverse adjoint : Expr) : ProgramM Expr := do
  match pivot with
  | .reduction _ _ _ least extent => do
      let high ← simplify (← Expr.lastIndex least extent)
      let above ← inverse.ge least
      let below ← inverse.le high
      adjointWhere (← Expr.and above below) adjoint
  | _ => return adjoint

def matchArguments (ctx : CallContext) (call : Expr) (position : Nat) :
    List Expr → List Expr → Expr → ProgramM Expr
  | target :: targets, arg :: args, adjoint => do
      match choosePivot arg (ctx.args.map Expr.name) with
      | none => do
          let restricted ← adjointWhere (← Expr.eq target arg) adjoint
          matchArguments ctx call (position + 1) targets args restricted
      | some pivot => do
          let inverse ← invertArgument ctx call position arg pivot target
          let replacement : Replacements := [(pivot.name, inverse)]
          let substituted ← Expr.substitute replacement adjoint
          let restricted ← restrictToBounds pivot inverse substituted
          let others ← args.mapM fun other => (other.substitute replacement : ProgramM Expr)
          matchArguments ctx call (position + 1) targets others restricted
  | [], _, adjoint => return adjoint
  | _ :: _, [], _ => throw .axisOutOfRange

def declaredPosition? (declared : List String) (name : String) : Option Nat :=
  (declared.zipIdx.reverse.find? fun entry => entry.1 == name).map Prod.snd

/-- Sums over the calling stage's variables that the callee's index does not determine, by reduction
variables over the stage's domain. -/
def sumLeftover (ctx : CallContext) (adjoint : Expr) : ProgramM Expr := do
  let declared := ctx.args.map Expr.name
  let leftover := adjoint.freeNames.filter declared.contains
  if leftover.isEmpty then return adjoint
  let domain ← ReductionDomain.ofBounds none ctx.domain
  let replacements ← leftover.mapM fun name =>
    match (declaredPosition? declared name).bind fun i => domain.vars[i]? with
    | some v => (return (name, v) : ProgramM (String × Expr))
    | none => throw .axisOutOfRange
  Expr.substitute replacements adjoint

/-- The adjoint of a call, indexed by the callee's declared variables. -/
def canonicalize (ctx : CallContext) (call : Expr) (callee : Func) (adjoint : Expr) :
    ProgramM Expr := do
  let vars ← (callee.args : ProgramM (List Expr))
  let placeholders ← vars.mapM fun v => do
    let name ← freshName (v.name ++ "_p")
    (Expr.index (some name) : ProgramM Expr)
  let matched ← matchArguments ctx call 0 placeholders call.operands adjoint
  let summed ← sumLeftover ctx matched
  let names := placeholders.map Expr.name
  Expr.substitute (names.zip vars) summed

def scatter (ctx : CallContext) (call : Expr) (id : FuncId) (adjoint : Expr) : AdjointM Unit := do
  let callee ← (getFunc id : ProgramM Func)
  let key := calledStage ctx.key callee
  if (← Accumulation.get).finalized.contains key then
    (throw (.adjointFinal key.name key.stage ctx.key.name ctx.key.stage call.render) :
      ProgramM Unit)
  if adjoint.isZero then return
  let closed ← closeAdjoint adjoint
  let current ←
    if 0 ≤ ctx.key.stage then do
      -- inside an update the function's own value is that of the stage before
      let snapshot ← stageSnapshot ctx.args ctx.key.name (ctx.key.stage - 1)
      (replaceCalls closed ctx.key.name snapshot : ProgramM Expr)
    else pure closed
  let contribution ← (canonicalize ctx call callee current : ProgramM Expr)
  (report Tracing.details
    (s!"[ReverseAccumulationVisitor._accumulate_func_call] {stageName key.name key.stage} += "
      ++ contribution.render) : ProgramM Unit)
  match (← Accumulation.get).targets.find? key with
  | none => (throw .missingStageEntry : ProgramM Unit)
  | some target => (addUpdate callee target contribution : ProgramM Unit)
where
  addUpdate (callee : Func) (target : FuncId) (contribution : Expr) : ProgramM Unit := do
    let args ← (callee.args : ProgramM (List Expr))
    let current ← callFunc target args
    define target args (← current.add contribution)

end ReverseMode
