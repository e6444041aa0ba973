import ReverseMode.Program.Simplify

namespace ReverseMode

/-- The least and the greatest value of an index, both inclusive. -/
structure Interval where
  low : Expr
  high : Expr

abbrev Domain := List (Expr × Expr)

namespace Interval

def add (a b : Interval) : NodeM Interval := do
  let low ← Expr.add a.low b.low
  let high ← Expr.add a.high b.high
  return ⟨low, high⟩

def sub (a b : Interval) : NodeM Interval := do
  let low ← Expr.sub a.low b.high
  let high ← Expr.sub a.high b.low
  return ⟨low, high⟩

def min (a b : Interval) : NodeM Interval := do
  let low ← Expr.min a.low b.low
  let high ← Expr.min a.high b.high
  return ⟨low, high⟩

def max (a b : Interval) : NodeM Interval := do
  let low ← Expr.max a.low b.low
  let high ← Expr.max a.high b.high
  return ⟨low, high⟩

def ofRange (least extent : Expr) : NodeM Interval := do
  return ⟨least, ← Expr.lastIndex least extent⟩

def ofOperator? : BinaryOp → Option (Interval → Interval → NodeM Interval)
  | .add => some add
  | .sub => some sub
  | .min => some min
  | .max => some max
  | _ => none

/-- The smallest interval around both, in simplified form. -/
def merge (a b : Interval) : ProgramM Interval := do
  let low ← simplify (← Expr.min a.low b.low)
  let high ← simplify (← Expr.max a.high b.high)
  return ⟨low, high⟩

def equal (hash : String → String) (a b : Interval) : Bool :=
  a.low.equalWith hash b.low && a.high.equalWith hash b.high

end Interval

namespace Expr

/-- The interval of an index expression. `argument` is its position in the call, for messages. -/
def interval (declared : List String) (domain : Domain) (argument : Int) :
    Expr → BuildM Interval
  | node id (.binary op) dtype [a, b] => do
      match Interval.ofOperator? op with
      | some combine =>
          let left ← interval declared domain argument a
          let right ← interval declared domain argument b
          (combine left right : NodeM Interval)
      | none =>
          let e := node id (.binary op) dtype [a, b]
          throw (.unboundedNode argument e.kind e.render)
  | reduction _ _ _ least extent => (Interval.ofRange least extent : NodeM Interval)
  | node _ (.var name _) _ _ =>
      match declared.findIdx? (· == name) with
      | none => throw (.unboundedVariable argument name declared)
      | some i =>
          match domain[i]? with
          | some (least, extent) => (Interval.ofRange least extent : NodeM Interval)
          | none => throw .axisOutOfRange
  | node id (.const c) dtype operands =>
      let e := node id (.const c) dtype operands
      return ⟨e, e⟩
  | node id head dtype operands =>
      let e := node id head dtype operands
      throw (.unboundedNode argument e.kind e.render)

end Expr

def toDomain : List Interval → ProgramM Domain
  | [] => return []
  | i :: rest => do
      let least ← simplify i.low
      let width ← Expr.sub i.high least
      let extent ← simplify (← Expr.add width (← Expr.int 1))
      let others ← toDomain rest
      return (least, extent) :: others

end ReverseMode
