import Std.Data.TreeSet
import ReverseMode.Expr.Basic

namespace ReverseMode

structure NodeOrder where
  visited : Std.TreeSet NodeId := {}
  nodes : Array Expr := #[]

namespace Expr

mutual

def orderFrom : Expr → StateM NodeOrder Unit
  | node id head dtype operands => do
      if (← get).visited.contains id then return
      modify fun o => { o with visited := o.visited.insert id }
      match head with
      | .call (.func _ _) => pure ()
      | .call (.image _) => pure ()
      | .binary op => if op.isBoolean then pure () else orderAll operands
      | .select =>
          match operands with
          | [] => pure ()
          | _ :: branches => orderAll branches
      | _ => orderAll operands
      modify fun o => { o with nodes := o.nodes.push (node id head dtype operands) }
  | reduction id domain axis least extent => do
      if (← get).visited.contains id then return
      modify fun o =>
        { o with
          visited := o.visited.insert id
          nodes := o.nodes.push (reduction id domain axis least extent) }

def orderAll : List Expr → StateM NodeOrder Unit
  | [] => pure ()
  | e :: rest => do
      orderFrom e
      orderAll rest

end

/-- The differentiable nodes below, operands before consumers. -/
def differentiable (e : Expr) : List Expr := ((orderFrom e).run {}).2.nodes.toList

end Expr

end ReverseMode
