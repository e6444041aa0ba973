import ReverseMode.DType
import ReverseMode.Fault
import ReverseMode.Numeric.Decimal

namespace ReverseMode

inductive Constant where
  | int (value : Int)
  | float (value : Float)
  | bool (value : Bool)

namespace Constant

def dtype : Constant → DType
  | int _ => .int32
  | float _ => .float32
  | bool _ => .bool

def isZero : Constant → Bool
  | int v => v = 0
  | float v => v == 0.0
  | bool v => !v

def text : Constant → String
  | int v => toString v
  | float v => Decimal.shortest v
  | bool v => if v then "True" else "False"

/-- The literal as a value of another type. Floats lose their fraction toward zero. -/
def convert (target : DType) (c : Constant) : Except Fault Constant :=
  match target, c with
  | .float32, int v =>
      let x := Float.ofInt v
      if x.isInf then throw .integerTooLarge else pure (float x)
  | .float32, float v => pure (float v)
  | .float32, bool v => pure (float (if v then 1.0 else 0.0))
  | .int32, int v => pure (int v)
  | .int32, float v =>
      match Decimal.truncate? v with
      | some i => pure (int i)
      | none => throw (if v.isNaN then .undefinedInteger else .infiniteInteger)
  | .int32, bool v => pure (int (if v then 1 else 0))
  | .bool, c => pure (bool (!c.isZero))

end Constant

end ReverseMode
