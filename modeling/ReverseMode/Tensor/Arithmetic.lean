import ReverseMode.Operator
import ReverseMode.Tensor.Basic

namespace ReverseMode

namespace Element

def isNaN : Element → Bool
  | real x => x.isNaN
  | _ => false

def exactRemainder (x y : Float) : Float :=
  match Decimal.parts x, Decimal.parts y with
  | .finite negative m e, .finite _ n f =>
      if n = 0 then 0.0 / 0.0
      else
        let unit := min e f
        let rest := m * Nat.pow 2 (e - unit).toNat % (n * Nat.pow 2 (f - unit).toNat)
        let magnitude := (Float.ofNat rest).scaleB unit
        if negative then -magnitude else magnitude
  | .finite _ _ _, .infinite _ => x
  | _, _ => 0.0 / 0.0

def floorQuotient (t : ElementType) (x y : Float) : Float :=
  if y == 0.0 then t.round (x / y)
  else
    let rest := exactRemainder x y
    let quotient := t.round (t.round (x - rest) / y)
    let quotient :=
      if !(rest == 0.0) && (y < 0.0) != (rest < 0.0) then t.round (quotient - 1.0) else quotient
    if quotient == 0.0 then (if (x / y) < 0.0 then -0.0 else 0.0)
    else
      let lower := quotient.floor
      if quotient - lower > 0.5 then t.round (lower + 1.0) else lower

def add (t : ElementType) : Element → Element → Element
  | bool a, bool b => .bool (a || b)
  | int a, int b => .int (t.wrap (a + b))
  | a, b => .real (t.round (a.toFloat + b.toFloat))

def sub (t : ElementType) : Element → Element → Element
  | int a, int b => .int (t.wrap (a - b))
  | a, b => .real (t.round (a.toFloat - b.toFloat))

def mul (t : ElementType) : Element → Element → Element
  | bool a, bool b => .bool (a && b)
  | int a, int b => .int (t.wrap (a * b))
  | a, b => .real (t.round (a.toFloat * b.toFloat))

def floorDiv (t : ElementType) : Element → Element → Element
  | int a, int b => .int (if b = 0 then 0 else t.wrap (a.fdiv b))
  | a, b => .real (floorQuotient t a.toFloat b.toFloat)

def trueDiv (t : ElementType) (a b : Element) : Element :=
  .real (t.round (a.toFloat / b.toFloat))

/-- An undefined number wins over every other; of two equal floats the second is taken, which shows
in the sign of a zero. -/
def min : Element → Element → Element
  | bool a, bool b => .bool (a && b)
  | int a, int b => .int (if a ≤ b then a else b)
  | a, b => if a.toFloat < b.toFloat || a.isNaN then a else b

def max : Element → Element → Element
  | bool a, bool b => .bool (a || b)
  | int a, int b => .int (if b ≤ a then a else b)
  | a, b => if b.toFloat < a.toFloat || a.isNaN then a else b

def less : Element → Element → Bool
  | bool a, bool b => !a && b
  | int a, int b => a < b
  | a, b => a.toFloat < b.toFloat

def lessOrEqual : Element → Element → Bool
  | bool a, bool b => !a || b
  | int a, int b => a ≤ b
  | a, b => a.toFloat ≤ b.toFloat

def equal : Element → Element → Bool
  | bool a, bool b => a == b
  | int a, int b => a == b
  | a, b => a.toFloat == b.toFloat

end Element

namespace Tensor

def joined (f : ElementType → Element → Element → Element) (a b : Tensor) : Except Fault Tensor :=
  let t := a.type.join b.type
  zipWith t (f t) (a.convert t) (b.convert t)

def compared (f : Element → Element → Bool) (a b : Tensor) : Except Fault Tensor :=
  let t := a.type.join b.type
  zipWith .bool (fun x y => .bool (f x y)) (a.convert t) (b.convert t)

def connected (f : Bool → Bool → Bool) (a b : Tensor) : Except Fault Tensor :=
  zipWith .bool (fun x y => .bool (f x.truth y.truth)) a b

def floorDivide (a b : Tensor) : Except Fault Tensor :=
  let joinedType := a.type.join b.type
  let t := if joinedType = .bool then .int8 else joinedType
  zipWith t (Element.floorDiv t) (a.convert t) (b.convert t)

def trueDivide (a b : Tensor) : Except Fault Tensor :=
  let joinedType := a.type.join b.type
  let t := if joinedType.isReal then joinedType else .float64
  zipWith t (Element.trueDiv t) (a.convert t) (b.convert t)

def subtract (a b : Tensor) : Except Fault Tensor :=
  if a.type.join b.type = .bool then throw .booleanDifference else joined Element.sub a b

/-- The element-wise meaning of an operator; `real` asks for exact instead of rounded-down
division. -/
def binary (op : BinaryOp) (real : Bool) (a b : Tensor) : Except Fault Tensor :=
  match op with
  | .add => joined Element.add a b
  | .sub => subtract a b
  | .mul => joined Element.mul a b
  | .div => if real then trueDivide a b else floorDivide a b
  | .min => joined (fun _ => Element.min) a b
  | .max => joined (fun _ => Element.max) a b
  | .lt => compared Element.less a b
  | .le => compared Element.lessOrEqual a b
  | .gt => compared (fun x y => y.less x) a b
  | .ge => compared (fun x y => y.lessOrEqual x) a b
  | .eq => compared Element.equal a b
  | .ne => compared (fun x y => !x.equal y) a b
  | .and => connected (· && ·) a b
  | .or => connected (· || ·) a b

def choose (condition ifTrue ifFalse : Tensor) : Except Fault Tensor := do
  let t := ifTrue.type.join ifFalse.type
  let shape ← commonShape [condition, ifTrue, ifFalse]
  let yes := ifTrue.convert t
  let no := ifFalse.convert t
  pure ⟨t, shape, Array.ofFn fun i : Fin (shapeSize shape) =>
    if (condition.entry i).truth then yes.entry i else no.entry i⟩

end Tensor

end ReverseMode
