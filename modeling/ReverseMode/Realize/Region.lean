import ReverseMode.Tensor.Basic

namespace ReverseMode

namespace Tensor

def range? (t : Tensor) : Option (Int × Int) :=
  let widen : Option (Int × Int) → Element → Option (Int × Int) := fun range e =>
    match range with
    | none => some (e.toInt, e.toInt)
    | some (least, greatest) => some (min least e.toInt, max greatest e.toInt)
  t.data.foldl widen none

/-- Whether some element lies outside of `least ≤ i < least + extent`. -/
def leaves (least : Int) (extent : Nat) (t : Tensor) : Bool :=
  match t.range? with
  | none => false
  | some (lowest, highest) => lowest < least || least + extent ≤ highest

def leavesReal (extent : Nat) (t : Tensor) : Bool :=
  let outside (e : Element) : Bool := e.toFloat < 0.0 || Float.ofNat extent ≤ e.toFloat
  !t.data.any (fun e => e.toFloat.isNaN) && t.data.any outside

def broadcastAll (arrays : List Tensor) : Except Fault (List Nat × List Tensor) := do
  let shape ← commonShape arrays
  return (shape, arrays.map (broadcast shape))

/-- Coordinates counted from `least`, in the type they are given in. -/
def offsets (least : Int) (coordinates : Tensor) : Except Fault Tensor :=
  if coordinates.type.isReal then
    let t := coordinates.type
    .ok (coordinates.map t fun e => .real (t.round (e.toFloat - Float.ofInt least)))
  else
    let t := if coordinates.type = .bool then .int64 else coordinates.type
    if t.contains least then .ok (coordinates.map t fun e => .int (t.wrap (e.toInt - least)))
    else .error .integerTooLarge

end Tensor

structure Region where
  mins : List Int
  values : Tensor
deriving Inhabited

namespace Region

def box (r : Region) : Box := ⟨r.mins, r.values.shape⟩

def covers (r : Region) (mins sizes : List Int) : Bool :=
  let ends := List.zipWith (· + ·) mins sizes
  (r.mins.zip mins).all (fun (own, asked) => own ≤ asked) &&
    (r.box.ends.zip ends).all (fun (own, asked) => asked ≤ own)

def union (r : Region) (mins sizes : List Int) : List Int × List Int :=
  let least := List.zipWith min r.mins mins
  let ends := List.zipWith max r.box.ends (List.zipWith (· + ·) mins sizes)
  (least, List.zipWith (· - ·) ends least)

def positions (shape : List Nat) (mins : List Int) (extents : List Nat)
    (coordinates : List Tensor) : Array Nat :=
  let box : Box := ⟨mins, extents⟩
  Array.ofFn fun i : Fin (shapeSize shape) =>
    box.position (coordinates.map fun c => (c.entry i).toInt)

def read (r : Region) (shape : List Nat) (coordinates : List Tensor) : Tensor :=
  let places := positions shape r.mins r.values.shape coordinates
  ⟨r.values.type, shape, places.map r.values.entry⟩

def store (r : Region) (places : Array Nat) (values : Tensor) : Region :=
  let put : Array Element × Nat → Nat → Array Element × Nat := fun (data, i) place =>
    (data.setIfInBounds place ((values.entry i).convert r.values.type), i + 1)
  let mins := r.mins
  let ⟨type, shape, data⟩ := r.values
  ⟨mins, ⟨type, shape, (places.foldl put (data, 0)).1⟩⟩

def leavingAxis? (offsets : List Tensor) (extents : List Nat) : Option Nat :=
  (offsets.zip extents).findIdx? fun (offset, extent) =>
    if offset.type.isReal then offset.leavesReal extent else offset.leaves 0 extent

/-- How many values a dimension keeps, and from where, when it is cut to `start ≤ i < stop`. A
negative end counts from the far end of the dimension. -/
def cut (extent : Nat) (start stop : Int) : Nat × Nat :=
  let bounded (i : Int) : Nat := min (if i < 0 then i + extent else i).toNat extent
  (bounded start, bounded stop - bounded start)

def window (r : Region) (mins sizes : List Int) : Tensor :=
  let starts := List.zipWith (· - ·) mins r.mins
  let cuts := List.zipWith (fun extent (start, size) => cut extent start (start + size))
    r.values.shape (starts.zip sizes)
  let box : Box := ⟨cuts.map fun c => (c.1 : Int), cuts.map Prod.snd⟩
  let offsets : Region := ⟨r.values.shape.map fun _ => 0, r.values⟩
  offsets.read box.sizes box.coordinates

end Region

end ReverseMode
