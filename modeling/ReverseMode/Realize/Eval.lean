import ReverseMode.Program.Basic
import ReverseMode.Realize.Kernel
import ReverseMode.Realize.Region

namespace ReverseMode

structure Realization where
  program : Program
  kernels : Kernels

/-- The regions computed so far, the partial regions of functions whose updates run, and the lines
reported. -/
structure Realizer where
  cache : List (FuncId × Region) := []
  running : List (FuncId × Region) := []
  log : Array String := #[]
deriving Inhabited

/-- What a realization computed before it failed remains. -/
abbrev RealizeM := ReaderT Realization (ExceptT Fault (StateM Realizer))

def RealizeM.reportLine (reported : Tracing → Bool) (line : String) : RealizeM Unit := do
  if reported (← readThe Realization).program.tracing then
    modifyThe Realizer fun state => { state with log := state.log.push line }

abbrev Environment := List (String × Tensor)

abbrev EvalMemo := Std.TreeMap NodeId Tensor

abbrev EvalM := StateT EvalMemo RealizeM

/-- How the values of a function are read at coordinates: the shape of the coordinates, and one
array of them for each axis. -/
abbrev FuncReader := FuncId → List Nat → List Tensor → RealizeM Tensor

namespace Eval

def constantElement (type : ElementType) : Constant → Element
  | .int v => .int v
  | .float v => .real (type.round v)
  | .bool v => .bool v

def constant (dtype : DType) (c : Constant) : Except Fault Tensor :=
  let type := ElementType.ofDType dtype
  match c with
  | .int v =>
      if type.contains v then .ok (.scalar type (.int v)) else .error .constantOutOfRange
  | c => .ok (.scalar type (constantElement type c))

def lookUp (env : Environment) (name : String) : Except Fault Tensor :=
  match env.lookup name with
  | some values => .ok values
  | none => .error (.unboundVariable name)

def checkImageRead (source : Image) (coordinates : List Tensor) : Except Fault Unit :=
  let outside : Tensor × Nat → Bool := fun (c, extent) => c.leaves 0 extent
  match (coordinates.zip source.data.shape).zipIdx.find? fun (entry, _) => outside entry with
  | none => .ok ()
  | some ((c, extent), axis) =>
      let (least, greatest) := c.range?.getD (0, 0)
      .error (.imageReadOutside source.name extent axis least greatest)

def readImage (source : Image) (shape : List Nat) (coordinates : List Tensor) :
    Except Fault Tensor := do
  checkImageRead source coordinates
  let region : Region := ⟨source.data.shape.map fun _ => 0, source.data⟩
  return region.read shape coordinates

def callValue (readFunc : FuncReader) (callee : Callee) (args : List Tensor) : RealizeM Tensor :=
  match callee with
  | .primitive name => do
      match (← readThe Realization).kernels.find? name with
      | none => throw (.noKernel name)
      | some kernel => kernel.apply args
  | .image source => do
      let (shape, coordinates) ← Tensor.broadcastAll args
      readImage source shape (coordinates.map (Tensor.convert .int64))
  | .func id _ => do
      let (shape, coordinates) ← Tensor.broadcastAll args
      readFunc id shape (coordinates.map (Tensor.convert .int64))

def headValue (readFunc : FuncReader) (head : Head) (dtype : DType) (operands : List Tensor) :
    RealizeM Tensor :=
  match head, operands with
  | .cast, x :: _ => pure (x.convert (.ofDType dtype))
  | .cast, [] => throw .missingOperand
  | .binary op, [a, b] => Tensor.binary op dtype.isFloat a b
  | .binary _, _ => throw .operandCount
  | .select, [condition, ifTrue, ifFalse] => Tensor.choose condition ifTrue ifFalse
  | .select, _ => throw .operandCount
  | .call callee, args => callValue readFunc callee args
  | .letIn _, _ => throw .missingOperand
  | .const c, _ => constant dtype c
  | .var name _, _ => throw (.unboundVariable name)
  | .other kind, _ =>
      -- a constant node written down without its value
      if kind = "Constant" then throw (.missingAttribute "value")
      else throw (.notEvaluable kind ("<" ++ kind ++ ">"))

def remembered (id : NodeId) (compute : EvalM Tensor) : EvalM Tensor := do
  match (← getThe EvalMemo)[id]? with
  | some known => return known
  | none => do
      let result ← compute
      modifyThe EvalMemo fun memo => memo.insert id result
      return result

end Eval

namespace Expr

mutual

def eval (readFunc : FuncReader) (env : Environment) : Expr → EvalM Tensor
  | node _ (.const c) dtype _ => (Eval.constant dtype c : RealizeM Tensor)
  | node _ (.var name _) _ _ => (Eval.lookUp env name : RealizeM Tensor)
  | reduction _ domain axis _ _ => (Eval.lookUp env (axisName domain axis) : RealizeM Tensor)
  | node id (.letIn name) _ (value :: body :: _) =>
      Eval.remembered id do
        let bound ← eval readFunc env value
        -- the body is evaluated in an environment of its own, where nothing is known yet
        let (result, _) ← ((eval readFunc ((name, bound) :: env) body).run {} : RealizeM _)
        return result
  | node id .cast dtype (x :: _) =>
      Eval.remembered id do
        let value ← eval readFunc env x
        (Eval.headValue readFunc .cast dtype [value] : RealizeM Tensor)
  | node _ (.other kind) dtype _ =>
      (Eval.headValue readFunc (.other kind) dtype [] : RealizeM Tensor)
  | node id head dtype operands =>
      Eval.remembered id do
        let values ← evalAll readFunc env operands
        (Eval.headValue readFunc head dtype values : RealizeM Tensor)

def evalAll (readFunc : FuncReader) (env : Environment) : List Expr → EvalM (List Tensor)
  | [] => return []
  | e :: rest => do
      let first ← eval readFunc env e
      let others ← evalAll readFunc env rest
      return first :: others

end

def evaluate (readFunc : FuncReader) (env : Environment) (e : Expr) : RealizeM Tensor := do
  let (result, _) ← (e.eval readFunc env).run {}
  return result

end Expr

end ReverseMode
