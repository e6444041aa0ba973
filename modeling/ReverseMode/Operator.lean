namespace ReverseMode

inductive BinaryOp where
  | add
  | sub
  | mul
  | div
  | min
  | max
  | lt
  | le
  | gt
  | ge
  | eq
  | ne
  | and
  | or
deriving DecidableEq, Inhabited

namespace BinaryOp

def all : List BinaryOp :=
  [add, sub, mul, div, min, max, lt, le, gt, ge, eq, ne, and, or]

def kind : BinaryOp → String
  | add => "Add"
  | sub => "Sub"
  | mul => "Mul"
  | div => "Div"
  | min => "Min"
  | max => "Max"
  | lt => "LT"
  | le => "LE"
  | gt => "GT"
  | ge => "GE"
  | eq => "EQ"
  | ne => "NE"
  | and => "And"
  | or => "Or"

def ofKind? (kind : String) : Option BinaryOp := all.find? fun op => op.kind == kind

def sign? : BinaryOp → Option String
  | add => some "+"
  | sub => some "-"
  | mul => some "*"
  | div => some "/"
  | min => none
  | max => none
  | lt => some "<"
  | le => some "<="
  | gt => some ">"
  | ge => some ">="
  | eq => some "=="
  | ne => some "!="
  | and => some "&&"
  | or => some "||"

def exchanged : BinaryOp → BinaryOp
  | lt => gt
  | le => ge
  | gt => lt
  | ge => le
  | op => op

def isBoolean : BinaryOp → Bool
  | lt | le | gt | ge | eq | ne | and | or => true
  | _ => false

end BinaryOp

end ReverseMode
