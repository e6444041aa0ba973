import ReverseMode.Expr.Variables

namespace ReverseMode

structure Definition where
  args : List Expr
  value : Expr
deriving Inhabited

structure Func where
  name : String
  init : Option Definition := none
  updates : List Definition := []
deriving Inhabited

namespace Func

def initial (f : Func) : Except Fault Definition :=
  match f.init with
  | some definition => .ok definition
  | none => .error (.undefinedFunc f.name)

def args (f : Func) : Except Fault (List Expr) := f.initial.map Definition.args

def dimensions (f : Func) : Except Fault Nat := f.args.map List.length

def dtype (f : Func) : Except Fault DType := f.initial.map fun definition => definition.value.dtype

/-- Stage `-1` is the initial definition, stages `0, 1, …` are the updates. -/
def definition (f : Func) (stage : Int) : Except Fault Definition := do
  let initial ← f.initial
  if stage = -1 then pure initial
  else
    match (if 0 ≤ stage then f.updates[stage.toNat]? else none) with
    | some update => pure update
    | none => throw (.missingStage f.name stage f.updates.length)

def lastStage (f : Func) : Int := (f.updates.length : Int) - 1

def stages (f : Func) : List (Int × Definition) :=
  match f.init with
  | none => []
  | some initial =>
      (-1, initial) :: f.updates.zipIdx.map fun (update, i) => ((i : Int), update)

def render (f : Func) : String := s!"Func({f.name})"

end Func

structure Tracing where
  execution : Bool := false
  details : Bool := false
deriving Inhabited

structure Program where
  supply : Supply := {}
  funcs : Array Func := #[]
  tracing : Tracing := {}
  log : Array String := #[]
deriving Inhabited

/-- Actions on a program; what an action did before it failed remains. -/
abbrev ProgramM := ExceptT Fault (StateM Program)

def onSupply {α : Type} (action : NodeM α) : StateM Program α :=
  modifyGet fun program =>
    let (result, supply) := action.run program.supply
    (result, { program with supply })

instance : MonadLift NodeM ProgramM where
  monadLift action := ExceptT.lift (onSupply action)

instance : MonadLift BuildM ProgramM where
  monadLift action := ExceptT.mk (onSupply action.run)

instance : MonadLift (Except Fault) ProgramM where
  monadLift result := ExceptT.mk (pure result)

def report (reported : Tracing → Bool) (line : String) : ProgramM Unit :=
  modifyThe Program fun program =>
    if reported program.tracing then { program with log := program.log.push line } else program

namespace Program

def func (program : Program) (id : FuncId) : Func := program.funcs.getD id default

end Program

def getFunc (id : FuncId) : ProgramM Func := do return (← getThe Program).func id

def declareFunc (name? : Option String) : ProgramM FuncId := do
  let name ← nameOr "f" name?
  modifyGetThe Program fun program =>
    (program.funcs.size, { program with funcs := program.funcs.push { name } })

def setFunc (id : FuncId) (f : Func) : ProgramM Unit :=
  modifyThe Program fun program => { program with funcs := program.funcs.setIfInBounds id f }

def checkPure (name : String) : List String → List Expr → Except Fault Unit
  | _, [] => .ok ()
  | seen, e :: rest =>
      if !e.isPureVariable then .error (.impureIndex name e.render)
      else if seen.contains e.name then .error (.repeatedIndex name e.name)
      else checkPure name (e.name :: seen) rest

/-- The first definition of a function declares its variables; every later one is an update, whose
value is cast to the function's type. -/
def define (id : FuncId) (args : List Expr) (value : Expr) : ProgramM Unit := do
  let f ← getFunc id
  match f.init with
  | none => do
      checkPure f.name [] args
      setFunc id { f with init := some ⟨args, value⟩ }
  | some initial => do
      if args.length ≠ initial.args.length then
        throw (.updateArity f.name args.length initial.args.length)
      let stored ←
        if value.dtype = initial.value.dtype then pure value
        else Expr.cast initial.value.dtype value
      setFunc id { f with updates := f.updates ++ [⟨args, stored⟩] }

def callFuncWith (id : FuncId) (args : List Operand) : ProgramM Expr := do
  let f ← getFunc id
  match f.init with
  | none => throw (.callOfUndefined f.name)
  | some initial => do
      if args.length ≠ initial.args.length then
        throw (.callArity f.name initial.args.length args.length)
      let operands ← Operand.toExprs args
      Expr.new (.call (.func id f.name)) initial.value.dtype operands

def callFunc (id : FuncId) (args : List Expr) : ProgramM Expr :=
  callFuncWith id (args.map Operand.expr)

namespace Image

def dimensions (image : Image) : Nat := image.data.dimensions

def dtype (image : Image) : DType := image.data.type.toDType

def extent (image : Image) (axis : Nat) : Except Fault Nat :=
  match image.data.shape[axis]? with
  | some extent => .ok extent
  | none => .error .axisOutOfRange

def callWith (image : Image) (args : List Operand) : BuildM Expr := do
  if args.length ≠ image.dimensions then
    throw (.imageArity image.name image.dimensions args.length)
  let operands ← Operand.toExprs args
  Expr.new (.call (.image image)) image.dtype operands

def render (image : Image) : String :=
  let extents := image.data.shape.map toString
  let shape := if extents.length = 1 then commaSeparated extents ++ "," else commaSeparated extents
  "Buffer(" ++ image.name ++ ", shape=(" ++ shape ++ "))"

end Image

end ReverseMode
