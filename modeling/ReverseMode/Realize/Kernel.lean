import ReverseMode.Tensor.Arithmetic

namespace ReverseMode

inductive Kernel where
  | exp
  | log
  | sin
  | cos
  | sqrt
  | tanh
  | floor
  | pow
  | square
  | negative
  | absolute
deriving DecidableEq, Inhabited

namespace Element

def powerWrapped (t : ElementType) (base : Int) (exponent : Nat) : Int :=
  if exponent = 0 then t.wrap 1
  else
    let half := powerWrapped t (t.wrap (base * base)) (exponent / 2)
    if exponent % 2 = 1 then t.wrap (base * half) else half
termination_by exponent
decreasing_by omega

def power (t : ElementType) : Element → Element → Element
  | int a, int b => .int (powerWrapped t a b.toNat)
  | a, b => .real (t.round (a.toFloat.pow b.toFloat))

def isNegativeInteger : Element → Bool
  | int i => i < 0
  | _ => false

end Element

namespace Tensor

/-- Booleans count as the smallest integers where a kernel has no meaning of its own for them. -/
def counted (t : Tensor) : Tensor := if t.type = .bool then t.convert .int8 else t

def elementary (f : Float → Float) (x : Tensor) : Tensor :=
  let t := x.type.toReal
  (x.convert t).map t fun e => .real (t.round (f e.toFloat))

def power (base exponent : Tensor) : Except Fault Tensor :=
  let t := (base.counted.type).join exponent.counted.type
  if !t.isReal && exponent.data.any Element.isNegativeInteger then throw .negativePower
  else joined Element.power base.counted exponent.counted

def floor (x : Tensor) : Tensor :=
  if x.type.isReal then x.map x.type fun e => .real e.toFloat.floor else x

def negate (x : Tensor) : Except Fault Tensor :=
  let opposite : Element → Element
    | .real v => .real (-v)
    | .int i => .int (x.type.wrap (-i))
    | .bool b => .bool b
  if x.type = .bool then throw .booleanNegation else pure (x.map x.type opposite)

def magnitude (x : Tensor) : Tensor :=
  x.map x.type fun
    | .real v => .real v.abs
    | .int i => .int (x.type.wrap i.natAbs)
    | .bool b => .bool b

end Tensor

namespace Kernel

def apply : Kernel → List Tensor → Except Fault Tensor
  | exp, [x] => .ok (x.elementary Float.exp)
  | log, [x] => .ok (x.elementary Float.log)
  | sin, [x] => .ok (x.elementary Float.sin)
  | cos, [x] => .ok (x.elementary Float.cos)
  | sqrt, [x] => .ok (x.elementary Float.sqrt)
  | tanh, [x] => .ok (x.elementary Float.tanh)
  | floor, [x] => .ok x.floor
  | pow, [x, y] => x.power y
  | square, [x] => x.counted.joined Element.mul x.counted
  | negative, [x] => x.negate
  | absolute, [x] => .ok x.magnitude
  | _, _ => .error .kernelArity

end Kernel

abbrev Kernels := List (String × Kernel)

namespace Kernels

def standard : Kernels :=
  [("exp", .exp), ("log", .log), ("sin", .sin), ("cos", .cos), ("sqrt", .sqrt), ("tanh", .tanh),
    ("floor", .floor), ("pow", .pow)]

def find? (kernels : Kernels) (name : String) : Option Kernel := kernels.lookup name

def register (kernels : Kernels) (name : String) (kernel : Kernel) : Except Fault Kernels :=
  if (kernels.find? name).isSome then .error (.kernelRegistered name)
  else .ok ((name, kernel) :: kernels)

end Kernels

end ReverseMode
