namespace ReverseMode

inductive DType where
  | float32
  | int32
  | bool
deriving DecidableEq, Inhabited

namespace DType

def name : DType → String
  | float32 => "float32"
  | int32 => "int32"
  | bool => "bool"

def ofName? : String → Option DType
  | "float32" => some float32
  | "int32" => some int32
  | "bool" => some bool
  | _ => none

def isFloat : DType → Bool
  | float32 => true
  | _ => false

def promote (left right : DType) : DType :=
  if left = float32 ∨ right = float32 then float32 else int32

end DType

end ReverseMode
