import ReverseMode.Fault
import ReverseMode.Tensor.Element

namespace ReverseMode

structure Tensor where
  type : ElementType
  shape : List Nat
  data : Array Element
deriving Inhabited

def shapeSize (shape : List Nat) : Nat := shape.foldr (· * ·) 1

/-- The box of indices `mins ≤ index < mins + sizes`. -/
structure Box where
  mins : List Int
  sizes : List Nat
deriving DecidableEq, Inhabited

namespace Tensor

def scalar (type : ElementType) (e : Element) : Tensor := ⟨type, [], #[e]⟩

def dimensions (t : Tensor) : Nat := t.shape.length

def size (t : Tensor) : Nat := t.data.size

/-- The element at a row-major position; a scalar stands for itself at every position. -/
def entry (t : Tensor) (position : Nat) : Element :=
  if t.shape.isEmpty then t.data.getD 0 default else t.data.getD position default

def convert (type : ElementType) (t : Tensor) : Tensor :=
  ⟨type, t.shape, t.data.map (Element.convert type)⟩

def map (type : ElementType) (f : Element → Element) (t : Tensor) : Tensor :=
  ⟨type, t.shape, t.data.map f⟩

def commonShape : List Tensor → Except Fault (List Nat)
  | [] => .ok []
  | t :: rest => do
      let shape ← commonShape rest
      if t.shape.isEmpty then pure shape
      else if shape.isEmpty ∨ shape = t.shape then pure t.shape
      else throw .shapeMismatch

def zipWith (type : ElementType) (f : Element → Element → Element) (a b : Tensor) :
    Except Fault Tensor := do
  let shape ← commonShape [a, b]
  pure ⟨type, shape, Array.ofFn fun i : Fin (shapeSize shape) => f (a.entry i) (b.entry i)⟩

def broadcast (shape : List Nat) (t : Tensor) : Tensor :=
  if t.shape = shape then t
  else ⟨t.type, shape, Array.ofFn fun i : Fin (shapeSize shape) => t.entry i⟩

end Tensor

def strides : List Nat → List Nat
  | [] => []
  | _ :: rest => shapeSize rest :: strides rest

@[simp] theorem length_strides (shape : List Nat) : (strides shape).length = shape.length := by
  induction shape with
  | nil => rfl
  | cons _ rest ih => simp [strides, ih]

namespace Box

def coordinates (box : Box) : List Tensor :=
  let count := shapeSize box.sizes
  let axis : Int × Nat × Nat → Tensor := fun (least, extent, stride) =>
    ⟨.int64, box.sizes,
      Array.ofFn fun i : Fin count => .int (least + ((i.val / stride % extent : Nat) : Int))⟩
  (box.mins.zip (box.sizes.zip (strides box.sizes))).map axis

def ends (box : Box) : List Int :=
  List.zipWith (fun (least : Int) (extent : Nat) => least + extent) box.mins box.sizes

end Box

/-- The row-major position of an index in a box; meaningful for indices inside the box. -/
def Box.position (box : Box) (index : List Int) : Nat :=
  let offsets := List.zipWith (fun i m => (i - m).toNat) index box.mins
  (List.zipWith (· * ·) offsets (strides box.sizes)).foldr (· + ·) 0

end ReverseMode
