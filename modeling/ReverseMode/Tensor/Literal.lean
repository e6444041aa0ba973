import ReverseMode.Constant
import ReverseMode.Tensor.Basic

namespace ReverseMode

inductive ArrayLiteral where
  | element (c : Constant)
  | list (items : List ArrayLiteral)

namespace ArrayLiteral

mutual

def shape : ArrayLiteral → Except Fault (List Nat)
  | element _ => .ok []
  | list items => do
      let shapes ← shapes items
      match shapes with
      | [] => return [0]
      | first :: rest =>
          if rest.all (· == first) then return shapes.length :: first
          else throw .raggedData

def shapes : List ArrayLiteral → Except Fault (List (List Nat))
  | [] => return []
  | item :: rest => do
      let first ← shape item
      let others ← shapes rest
      return first :: others

end

mutual

def constants : ArrayLiteral → List Constant
  | element c => [c]
  | list items => allConstants items

def allConstants : List ArrayLiteral → List Constant
  | [] => []
  | item :: rest => constants item ++ allConstants rest

end

def elementType (constants : List Constant) : ElementType :=
  let isFloat : Constant → Bool
    | .float _ => true
    | _ => false
  let isBool : Constant → Bool
    | .bool _ => true
    | _ => false
  if constants.isEmpty || constants.any isFloat then .float64
  else if constants.all isBool then .bool
  else .int64

def integer (type : ElementType) (i : Int) : Except Fault Element :=
  if type.contains i then .ok (.int i) else .error .integerTooLarge

def toElement (type : ElementType) (c : Constant) : Except Fault Element :=
  match type.family with
  | .truth => .ok (.bool (!c.isZero))
  | .real _ => do
      match ← c.convert .float32 with
      | .float x => return .real (type.round x)
      | _ => return .real 0.0
  | _ => do
      match ← c.convert .int32 with
      | .int i => integer type i
      | _ => integer type 0

def toTensor (type? : Option ElementType) (literal : ArrayLiteral) : Except Fault Tensor := do
  let shape ← literal.shape
  let constants := literal.constants
  let type := type?.getD (elementType constants)
  let elements ← constants.mapM (toElement type)
  return ⟨type, shape, elements.toArray⟩

end ArrayLiteral

end ReverseMode
