import ReverseMode.Numeric.Decimal
import ReverseMode.DType

namespace ReverseMode

inductive ElementType where
  | bool
  | int8
  | uint8
  | int16
  | uint16
  | int32
  | int64
  | float16
  | float32
  | float64
deriving DecidableEq, Inhabited

inductive Element where
  | bool (value : Bool)
  | int (value : Int)
  | real (value : Float)
deriving Inhabited

namespace ElementType

def ofName? : String → Option ElementType
  | "bool" => some bool
  | "int8" => some int8
  | "uint8" => some uint8
  | "int16" => some int16
  | "uint16" => some uint16
  | "int32" => some int32
  | "int64" => some int64
  | "float32" => some float32
  | "float64" => some float64
  | _ => none

inductive Family where
  | truth
  | signed (bits : Nat)
  | unsigned (bits : Nat)
  | real (bits : Nat)

def family : ElementType → Family
  | bool => .truth
  | int8 => .signed 8
  | uint8 => .unsigned 8
  | int16 => .signed 16
  | uint16 => .unsigned 16
  | int32 => .signed 32
  | int64 => .signed 64
  | float16 => .real 16
  | float32 => .real 32
  | float64 => .real 64

def isReal (t : ElementType) : Bool :=
  match t.family with
  | .real _ => true
  | _ => false

def signedOf (bits : Nat) : ElementType :=
  if bits ≤ 8 then int8 else if bits ≤ 16 then int16 else if bits ≤ 32 then int32 else int64

def unsignedOf (bits : Nat) : ElementType := if bits ≤ 8 then uint8 else uint16

def realOf (bits : Nat) : ElementType :=
  if bits ≤ 16 then float16 else if bits ≤ 32 then float32 else float64

/-- The narrowest float that holds every integer of so many bits to working precision: one step
wider than the integer, and never wider than a double. -/
def realForInteger (bits : Nat) : Nat := if bits ≤ 8 then 16 else if bits ≤ 16 then 32 else 64

def join (left right : ElementType) : ElementType :=
  match left.family, right.family with
  | .truth, _ => right
  | _, .truth => left
  | .signed m, .signed n => signedOf (max m n)
  | .unsigned m, .unsigned n => unsignedOf (max m n)
  | .signed m, .unsigned n => signedOf (max m (2 * n))
  | .unsigned m, .signed n => signedOf (max (2 * m) n)
  | .real m, .real n => realOf (max m n)
  | .real m, .signed n | .real m, .unsigned n => realOf (max m (realForInteger n))
  | .signed m, .real n | .unsigned m, .real n => realOf (max (realForInteger m) n)

def toReal (t : ElementType) : ElementType :=
  match t.family with
  | .truth => float16
  | .signed n | .unsigned n => realOf (realForInteger n)
  | .real _ => t

def ofDType : DType → ElementType
  | .float32 => float32
  | .int32 => int32
  | .bool => bool

def toDType (t : ElementType) : DType :=
  match t.family with
  | .truth => .bool
  | .signed _ | .unsigned _ => .int32
  | .real _ => .float32

def wrap (t : ElementType) (i : Int) : Int :=
  match t.family with
  | .signed n => i.bmod (Nat.pow 2 n)
  | .unsigned n => i.emod (Nat.pow 2 n : Nat)
  | _ => i

def contains (t : ElementType) (i : Int) : Bool := t.wrap i = i

def roundHalf (x : Float) : Float :=
  match Decimal.parts x with
  | .finite negative mantissa exponent =>
      let r := Decimal.Ratio.ofBinary mantissa exponent
      -- the unit of the last place is `2 ^ (e - 10)` for `2 ^ e ≤ r`, at least `2 ^ -24`
      let magnitude : Int := (mantissa.log2 : Int) + exponent
      let unit : Int := max (magnitude - 10) (-24)
      let units :=
        if 0 ≤ unit then Decimal.roundHalfEven r.num (r.den * Nat.pow 2 unit.toNat)
        else Decimal.roundHalfEven (r.num * Nat.pow 2 (-unit).toNat) r.den
      let value := (Float.ofNat units).scaleB unit
      let bounded := if 65504 < value then 1.0 / 0.0 else value
      if negative then -bounded else bounded
  | _ => x

def round (t : ElementType) (x : Float) : Float :=
  match t with
  | float16 => roundHalf x
  | float32 => x.toFloat32.toFloat
  | _ => x

end ElementType

namespace Element

def truth : Element → Bool
  | bool b => b
  | int i => i ≠ 0
  | real x => !(x == 0.0)

def toFloat : Element → Float
  | bool b => if b then 1.0 else 0.0
  | int i => Float.ofInt i
  | real x => x

/-- The integer part; what has none, or lies outside the type, becomes the type's least value. -/
def realToInt (t : ElementType) (x : Float) : Int :=
  let least : Int :=
    match t.family with
    | .signed n => -(Nat.pow 2 (n - 1) : Nat)
    | _ => 0
  match Decimal.truncate? x with
  | some i => if t.contains i then i else least
  | none => least

def convert (t : ElementType) (e : Element) : Element :=
  match t.family with
  | .truth => .bool e.truth
  | .real _ => .real (t.round e.toFloat)
  | _ =>
      match e with
      | bool b => .int (if b then 1 else 0)
      | int i => .int (t.wrap i)
      | real x => .int (realToInt t x)

def toInt : Element → Int
  | bool b => if b then 1 else 0
  | int i => i
  | real x => (Decimal.truncate? x).getD 0

end Element

end ReverseMode
