import ReverseMode.Derivative.Scatter
import ReverseMode.Expr.Order

/-!
# Reverse-mode differentiation

A loss is differentiated with respect to every stage of every function it reaches. The loss is
walked first, then the stages of the functions, consumers first and the last update of each function
first, so that the adjoint of a stage is complete when its own definition is walked.
-/

namespace ReverseMode

/-- What a node passes on to its operands. Constants, booleans and image reads pass on nothing. -/
def propagateNode (ctx : CallContext) (e adjoint : Expr) : AdjointM Unit := do
  if (← readThe Differentiation).muted.contains e.kind then return
  match e with
  | .reduction _ domain axis _ _ => accumulateVariable (axisName domain axis) adjoint
  | .node _ head _ operands =>
      match head, operands with
      | .var name _, _ => accumulateVariable name adjoint
      | .cast, x :: _ => accumulate x adjoint
      | .cast, [] => (throw .missingOperand : ProgramM Unit)
      | .binary op, [a, b] => do
          let contributions ← (binaryContributions op a b adjoint : ProgramM _)
          accumulateEach contributions
      | .binary op, _ => if op.isBoolean then return else (throw .operandCount : ProgramM Unit)
      | .select, [condition, ifTrue, ifFalse] => do
          let first ← (adjointWhere condition adjoint : ProgramM Expr)
          accumulate ifTrue first
          let second ← (adjointUnless condition adjoint : ProgramM Expr)
          accumulate ifFalse second
      | .select, _ => (throw .operandCount : ProgramM Unit)
      | .letIn name, [value, body] => do
          accumulate body adjoint
          accumulate value (← (Expr.float 0.0 : ProgramM Expr))
          Accumulation.modify fun state =>
            { state with bindings := (name, value) :: state.bindings }
      | .letIn _, _ => (throw .operandCount : ProgramM Unit)
      | .call (.func id _), _ => scatter ctx e id adjoint
      | .call (.primitive name), args => accumulatePrimitive e name args adjoint
      | .call (.image _), _ => return
      | .const _, _ => return
      | .other _, _ => return

def propagateNodes (ctx : CallContext) : List Expr → AdjointM Unit
  | [] => return
  | e :: rest => do
      match (← Accumulation.get).adjoints[e.id]? with
      | none =>
          (throw (.missingAdjoint e.render ctx.key.name ctx.key.stage) : ProgramM Unit)
      | some adjoint => propagateNode ctx e adjoint
      propagateNodes ctx rest

/-- Distributes the adjoint of an expression over its nodes and into the adjoint functions. -/
def propagate (ctx : CallContext) (e seed : Expr) : AdjointM Unit := do
  Accumulation.modify fun state =>
    { state with adjoints := ({} : Std.TreeMap NodeId Expr).insert e.id seed, bindings := [] }
  let order := e.differentiable
  (report Tracing.details
    (s!"[ReverseAccumulationVisitor._propagate] {stageName ctx.key.name ctx.key.stage}: "
      ++ s!"{order.length} nodes") : ProgramM Unit)
  propagateNodes ctx order.reverse

def checkUpdates (f : Func) : Except Fault Unit := do
  let args ← f.args
  let declared := args.map Expr.name
  let isDeclared (update : Definition) : Bool :=
    update.args.length = declared.length &&
      (update.args.zip declared).all fun (a, name) => a.isPureVariable && a.name == name
  match f.updates.zipIdx.find? fun (update, _) => !isDeclared update with
  | none => pure ()
  | some (update, stage) =>
      throw (.impureUpdate stage f.name (update.args.map Expr.render) declared)

/-- The result of a differentiation: the adjoint function of every stage, and its domain. -/
structure Derivative where
  adjoints : StageTable FuncId
  domains : StageTable Domain

namespace Derivative

def adjoint (d : Derivative) (name : String) (stage : Int) : Except Fault FuncId :=
  match d.adjoints.find? ⟨name, stage⟩ with
  | some id => .ok id
  | none => .error (.noAdjoint name stage)

def initialAdjoints (d : Derivative) : List (String × FuncId) :=
  (d.adjoints.filter fun (key, _) => key.stage = -1).map fun (key, id) => (key.name, id)

def createTargets (id : FuncId) : AdjointM Unit := do
  let f ← (getFunc id : ProgramM Func)
  (checkUpdates f : ProgramM Unit)
  for (stage, _) in f.stages do
    let target ← (create f stage : ProgramM FuncId)
    Accumulation.modify fun state =>
      { state with targets := state.targets.insert ⟨f.name, stage⟩ target }
where
  create (f : Func) (stage : Int) : ProgramM FuncId := do
    let args ← (f.args : ProgramM (List Expr))
    let target ← declareFunc (some s!"{f.name}_{stage + 1}_d__")
    define target args (← Expr.float 0.0)
    return target

/-- Completes the adjoint of a stage and walks its definition. Outside of the stage's domain the
adjoint is zero. -/
def finishStage (domains : StageTable Domain) (f : Func) (stage : Int) (definition : Definition) :
    AdjointM Unit := do
  let key : StageKey := ⟨f.name, stage⟩
  match domains.find? key, (← Accumulation.get).targets.find? key with
  | some domain, some target => do
      let args ← (f.args : ProgramM (List Expr))
      let bounds := domain.map fun (least, extent) => (Operand.expr least, Operand.expr extent)
      let wrapped ← (constantExterior target (.literal (.float 0.0)) bounds : ProgramM FuncId)
      Accumulation.modify fun state =>
        { state with
          targets := state.targets.insert key wrapped
          finalized := key :: state.finalized }
      let seed ← (callFunc wrapped args : ProgramM Expr)
      propagate ⟨key, args, domain⟩ definition.value seed
  | _, _ => (throw .missingStageEntry : ProgramM Unit)

def finishFunc (domains : StageTable Domain) (id : FuncId) : AdjointM Unit := do
  let f ← (getFunc id : ProgramM Func)
  for (stage, definition) in f.stages.reverse do
    finishStage domains f stage definition

def reportTargets (targets : StageTable FuncId) : ProgramM Unit := do
  if (← getThe Program).tracing.details then
    for (key, id) in targets do
      if key.stage = -1 then
        for line in ← listing id do
          report Tracing.details line

def ofLoss (loss : Expr) : AdjointM Derivative := do
  let settings ← readThe Differentiation
  let domains ← (inferBoundsWith settings.hash loss : ProgramM (StageTable Domain))
  let program ← (getThe Program : ProgramM Program)
  let order := program.reachable loss
  let names := order.map fun id => (program.func id).name
  Accumulation.modify fun state => { state with funcs := (names.zip order).reverse }
  for id in order do
    createTargets id
  (report Tracing.execution
    (s!"[ReverseAccumulationVisitor.propagate_adjoints] {order.length} funcs: "
      ++ bracketed (names.map quoted)) : ProgramM Unit)
  let seed ← (Expr.float 1.0 : ProgramM Expr)
  propagate CallContext.root loss seed
  for id in order do
    finishFunc domains id
  let targets := (← Accumulation.get).targets
  (reportTargets targets : ProgramM Unit)
  return ⟨targets, domains⟩

end Derivative

def derivative (settings : Differentiation) (loss : Expr) : ProgramM Derivative := do
  let (result, _) ← ((Derivative.ofLoss loss).run settings).run {}
  return result

/-- What is propagated backwards from an output: nothing more than ones, or the values of a function
or an image. -/
inductive OutputAdjoint where
  | ones
  | func (id : FuncId)
  | image (source : Image)

def OutputAdjoint.bounds (adjoint : OutputAdjoint) (given : Option (List (List Operand))) :
    Except Fault (List (List Operand)) :=
  match given, adjoint with
  | some bounds, _ => .ok bounds
  | none, .image source =>
      .ok (source.data.shape.map fun (extent : Nat) =>
        [.literal (.int 0), .literal (.int (extent : Int))])
  | none, _ => .error .outputBoundsRequired

/-- The loss whose derivative propagates an adjoint from an output backwards: the sum of the
output's values over its bounds, each times its adjoint. -/
def outputLoss (output : FuncId) (adjoint : OutputAdjoint)
    (given : Option (List (List Operand))) : ProgramM Expr := do
  let bounds ← (adjoint.bounds given : ProgramM _)
  let f ← getFunc output
  let dimensions ← (f.dimensions : ProgramM Nat)
  if bounds.length ≠ dimensions then
    throw (.outputArity bounds.length dimensions f.name)
  let domain ← (ReductionDomain.ofPairs none bounds : ProgramM _)
  let value ← callFunc output domain.vars
  match adjoint with
  | .ones => return value
  | .func id => do
      let weight ← callFunc id domain.vars
      value.mul weight
  | .image source => do
      let weight ← (source.callWith (domain.vars.map Operand.expr) : BuildM Expr)
      value.mul weight

end ReverseMode
