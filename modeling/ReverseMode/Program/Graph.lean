import Std.Data.TreeSet
import ReverseMode.Program.Basic

/-!
# The call graph of a program

`reachable` lists the functions an expression reaches, consumers first. The walk enters every stage
of a function the first time its name is met, and does not look into the arguments of function
calls.
-/

namespace ReverseMode

structure CallWalk where
  visited : Std.TreeSet NodeId := {}
  entered : List String := []
  finished : List FuncId := []

namespace Expr

mutual

def walkCalls (enter : FuncId → StateM CallWalk Unit) : Expr → StateM CallWalk Unit
  | node id head _ operands => do
      if (← get).visited.contains id then return
      modify fun walk => { walk with visited := walk.visited.insert id }
      match head with
      | .call (.func callee name) =>
          if (← get).entered.contains name then return
          enter callee
      | _ => walkAllCalls enter operands
  | reduction _ _ _ _ _ => pure ()

def walkAllCalls (enter : FuncId → StateM CallWalk Unit) : List Expr → StateM CallWalk Unit
  | [] => pure ()
  | e :: rest => do
      walkCalls enter e
      walkAllCalls enter rest

end

end Expr

namespace Program

/-- Walks the stages of a function from the last update to the initial definition. Each nested
entry adds a name, so the depth never exceeds the number of functions. -/
def enterFunc (program : Program) : Nat → FuncId → StateM CallWalk Unit
  | 0, _ => pure ()
  | depth + 1, id => do
      let f := program.func id
      modify fun walk => { walk with entered := f.name :: walk.entered }
      Expr.walkAllCalls (enterFunc program depth) (f.stages.reverse.map fun (_, d) => d.value)
      modify fun walk => { walk with finished := id :: walk.finished }

/-- The functions reached from an expression, each before every function it calls. -/
def reachable (program : Program) (root : Expr) : List FuncId :=
  ((Expr.walkCalls (program.enterFunc (program.funcs.size + 1)) root).run {}).2.finished

def stageLine (f : Func) (stage : Int) (definition : Definition) : String :=
  let label := if stage < 0 then "init" else "update"
  let indices := commaSeparated (definition.args.map Expr.render)
  s!"    {label}: {f.name}({indices}) = {definition.value.render}"

end Program

def listing (id : FuncId) : ProgramM (List String) := do
  let f ← getFunc id
  let args ← f.args
  let call ← callFunc id args
  let program ← getThe Program
  let order := program.reachable call
  let entry : FuncId × Nat → List String := fun (id, position) =>
    let f := program.func id
    s!"  funcs[{position}]: {f.name}" :: f.stages.map fun (stage, d) => Program.stageLine f stage d
  return s!"Printing function: {f.name}" :: (order.zipIdx.reverse.flatMap entry)

abbrev RedirectionMemo := Std.TreeMap NodeId Expr

namespace Expr

mutual

def redirect (name : String) (target : FuncId) : Expr → StateT RedirectionMemo ProgramM Expr
  | node id head dtype operands => do
      if let some known := (← get)[id]? then return known
      let newOperands ← redirectAll name target operands
      let result ←
        match head with
        | .call (.func _ callee) =>
            if callee = name then (callFunc target newOperands : ProgramM Expr)
            else (rebuild (node id head dtype operands) newOperands : NodeM Expr)
        | _ => (rebuild (node id head dtype operands) newOperands : NodeM Expr)
      modify fun memo => memo.insert id result
      return result
  | reduction id domain axis least extent => pure (reduction id domain axis least extent)

def redirectAll (name : String) (target : FuncId) :
    List Expr → StateT RedirectionMemo ProgramM (List Expr)
  | [] => pure []
  | e :: rest => do
      let first ← redirect name target e
      let others ← redirectAll name target rest
      return first :: others

end

end Expr

/-- The expression with every call of `name` going to `target` instead. -/
def replaceCalls (e : Expr) (name : String) (target : FuncId) : ProgramM Expr := do
  let (result, _) ← (e.redirect name target).run {}
  return result

end ReverseMode
