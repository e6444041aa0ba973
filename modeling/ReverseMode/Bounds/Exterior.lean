import ReverseMode.Bounds.Interval

namespace ReverseMode

namespace Exterior

def axis (variableNode : Expr) (least extent : Operand) : ProgramM (Expr × Expr) := do
  let low ← (least.toExpr : BuildM Expr)
  let size ← (extent.toExpr : BuildM Expr)
  let high ← simplify (← Expr.lastIndex low size)
  let above ← Expr.ge variableNode low
  let below ← Expr.le variableNode high
  let inside ← Expr.and above below
  return (inside, ← Expr.clamp variableNode low high)

def axes (inside : Option Expr) :
    List (Expr × Operand × Operand) → ProgramM (Option Expr × List Expr)
  | [] => return (inside, [])
  | (variableNode, least, extent) :: rest => do
      let (condition, clamped) ← axis variableNode least extent
      let joined ←
        match inside with
        | none => pure condition
        | some earlier => (Expr.and earlier condition : NodeM Expr)
      let (whole, others) ← axes (some joined) rest
      return (whole, clamped :: others)

end Exterior

/-- The function `f` inside the bounds, one pair for each dimension, and `value` outside. -/
def constantExterior (id : FuncId) (value : Operand) (bounds : List (Operand × Operand)) :
    ProgramM FuncId := do
  let f ← getFunc id
  let args ← (f.args : ProgramM (List Expr))
  if bounds.length ≠ args.length then
    throw (.exteriorArity bounds.length args.length f.name)
  let vars ← args.mapM fun a => (Expr.index (some a.name) : ProgramM Expr)
  let (inside, clamped) ← Exterior.axes none (vars.zip bounds)
  let wrapper ← declareFunc (some s!"{f.name}_ce")
  let inner ← callFunc id clamped
  match inside with
  | none => define wrapper [] inner
  | some condition => do
      let outer ← (value.toExpr : BuildM Expr)
      define wrapper vars (← Expr.select condition inner outer)
  return wrapper

end ReverseMode
