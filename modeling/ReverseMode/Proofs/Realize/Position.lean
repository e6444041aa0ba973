import Mathlib.Data.Nat.ModEq
import Mathlib.Tactic.Ring
import ReverseMode.Tensor.Basic

namespace ReverseMode

def positionOf (sizes offsets : List Nat) : Nat :=
  (List.zipWith (· * ·) offsets (strides sizes)).foldr (· + ·) 0

def offsetsAt (sizes : List Nat) (position : Nat) : List Nat :=
  List.zipWith (fun extent stride => position / stride % extent) sizes (strides sizes)

@[simp] theorem positionOf_cons (extent offset : Nat) (sizes offsets : List Nat) :
    positionOf (extent :: sizes) (offset :: offsets) =
      offset * shapeSize sizes + positionOf sizes offsets := rfl

@[simp] theorem offsetsAt_cons (extent : Nat) (sizes : List Nat) (position : Nat) :
    offsetsAt (extent :: sizes) position =
      position / shapeSize sizes % extent :: offsetsAt sizes position := rfl

@[simp] theorem shapeSize_nil : shapeSize [] = 1 := rfl

@[simp] theorem shapeSize_cons (extent : Nat) (sizes : List Nat) :
    shapeSize (extent :: sizes) = extent * shapeSize sizes := rfl

theorem positionOf_lt {sizes offsets : List Nat}
    (within : List.Forall₂ (· < ·) offsets sizes) : positionOf sizes offsets < shapeSize sizes := by
  induction within with
  | nil => exact Nat.one_pos
  | @cons offset extent offsets sizes below _ ih =>
      rw [positionOf_cons, shapeSize_cons]
      calc offset * shapeSize sizes + positionOf sizes offsets
          < offset * shapeSize sizes + shapeSize sizes := Nat.add_lt_add_left ih _
        _ = (offset + 1) * shapeSize sizes := (Nat.succ_mul _ _).symm
        _ ≤ extent * shapeSize sizes := Nat.mul_le_mul_right _ below

theorem offsetsAt_add (sizes : List Nat) (turns position : Nat) :
    offsetsAt sizes (turns * shapeSize sizes + position) = offsetsAt sizes position := by
  induction sizes generalizing turns with
  | nil => rfl
  | cons extent sizes ih =>
      have regrouped : turns * (extent * shapeSize sizes) + position =
          turns * extent * shapeSize sizes + position := by rw [Nat.mul_assoc]
      rw [shapeSize_cons, offsetsAt_cons, offsetsAt_cons, regrouped, ih]
      congr 1
      rcases Nat.eq_zero_or_pos (shapeSize sizes) with none | some
      · simp [none]
      · rw [Nat.add_comm, Nat.add_mul_div_right _ _ some, Nat.add_mul_mod_self_right]

theorem offsetsAt_positionOf {sizes offsets : List Nat}
    (within : List.Forall₂ (· < ·) offsets sizes) :
    offsetsAt sizes (positionOf sizes offsets) = offsets := by
  induction within with
  | nil => rfl
  | @cons offset extent offsets sizes below others ih =>
      have small := positionOf_lt others
      have quotient : (offset * shapeSize sizes + positionOf sizes offsets) / shapeSize sizes =
          offset := by
        rw [Nat.add_comm, Nat.add_mul_div_right _ _ (Nat.zero_lt_of_lt small),
          Nat.div_eq_of_lt small, Nat.zero_add]
      rw [positionOf_cons, offsetsAt_cons, offsetsAt_add, ih, quotient, Nat.mod_eq_of_lt below]

theorem offsetsAt_lt {sizes : List Nat} {position : Nat} (within : position < shapeSize sizes) :
    List.Forall₂ (· < ·) (offsetsAt sizes position) sizes := by
  have every : ∀ position, 0 < shapeSize sizes →
      List.Forall₂ (· < ·) (offsetsAt sizes position) sizes := by
    clear within
    intro position nonempty
    induction sizes with
    | nil => exact .nil
    | cons extent sizes ih =>
        rw [shapeSize_cons] at nonempty
        exact .cons (Nat.mod_lt _ (Nat.pos_of_mul_pos_right nonempty))
          (ih (Nat.pos_of_mul_pos_left nonempty))
  exact every position (Nat.zero_lt_of_lt within)

namespace Box

def Regular (box : Box) : Prop := box.mins.length = box.sizes.length

def OnAxis (i : Int) (axis : Int × Nat) : Prop := axis.1 ≤ i ∧ i < axis.1 + axis.2

def Contains (box : Box) (index : List Int) : Prop :=
  List.Forall₂ OnAxis index (box.mins.zip box.sizes)

def indexAt (box : Box) (position : Nat) : List Int :=
  List.zipWith (fun (least : Int) (offset : Nat) => least + offset) box.mins
    (offsetsAt box.sizes position)

def offsets (box : Box) (index : List Int) : List Nat :=
  List.zipWith (fun i m => (i - m).toNat) index box.mins

theorem position_eq (box : Box) (index : List Int) :
    box.position index = positionOf box.sizes (box.offsets index) := rfl

variable {box : Box} {index : List Int}

theorem offsets_lt (regular : box.Regular) (inside : box.Contains index) :
    List.Forall₂ (· < ·) (box.offsets index) box.sizes := by
  obtain ⟨mins, sizes⟩ := box
  induction mins generalizing sizes index with
  | nil =>
      cases sizes with
      | nil => cases inside; exact .nil
      | cons => simp [Regular] at regular
  | cons least mins ih =>
      cases sizes with
      | nil => simp [Regular] at regular
      | cons extent sizes =>
          cases inside with
          | cons bounds others =>
              refine .cons ?_ (ih sizes (by simpa [Regular] using regular) others)
              dsimp only [OnAxis] at bounds ⊢
              omega

theorem add_offsets (regular : box.Regular) (inside : box.Contains index) :
    List.zipWith (fun (least : Int) (offset : Nat) => least + offset) box.mins
      (box.offsets index) = index := by
  obtain ⟨mins, sizes⟩ := box
  induction mins generalizing sizes index with
  | nil =>
      cases sizes with
      | nil => cases inside; rfl
      | cons => simp [Regular] at regular
  | cons least mins ih =>
      cases sizes with
      | nil => simp [Regular] at regular
      | cons extent sizes =>
          cases inside with
          | @cons i _ index _ bounds others =>
              have first : least + ((i - least).toNat : Int) = i := by
                dsimp only [OnAxis] at bounds
                omega
              have rest := ih sizes (by simpa [Regular] using regular) others
              exact congrArg₂ List.cons first rest

theorem position_lt (regular : box.Regular) (inside : box.Contains index) :
    box.position index < shapeSize box.sizes :=
  positionOf_lt (offsets_lt regular inside)

@[simp] theorem indexAt_position (regular : box.Regular) (inside : box.Contains index) :
    box.indexAt (box.position index) = index := by
  rw [indexAt, position_eq, offsetsAt_positionOf (offsets_lt regular inside),
    add_offsets regular inside]

theorem contains_indexAt (regular : box.Regular) {position : Nat}
    (within : position < shapeSize box.sizes) : box.Contains (box.indexAt position) := by
  have small := offsetsAt_lt within
  obtain ⟨mins, sizes⟩ := box
  unfold indexAt Contains
  dsimp only at small ⊢
  generalize offsetsAt sizes position = offsets at small
  clear within
  induction small generalizing mins with
  | nil =>
      rw [show mins = [] from List.length_eq_zero_iff.1 regular]
      exact .nil
  | @cons offset extent offsets sizes below _ ih =>
      cases mins with
      | nil => simp [Regular] at regular
      | cons least mins =>
          refine .cons ?_ (ih mins (by simpa [Regular] using regular))
          dsimp only [OnAxis]
          omega

theorem eq_of_position {other : List Int} (regular : box.Regular) (inside : box.Contains index)
    (insideOther : box.Contains other) (same : box.position index = box.position other) :
    index = other := by
  rw [← indexAt_position regular inside, same, indexAt_position regular insideOther]

theorem map_entry_coordinates (box : Box) {position : Nat} (within : position < shapeSize box.sizes) :
    box.coordinates.map (fun c => c.entry position) = (box.indexAt position).map Element.int := by
  have nonempty : box.sizes = [] ∨ box.sizes.isEmpty = false := by
    cases box.sizes <;> simp
  rcases nonempty with empty | nonempty
  · simp [coordinates, indexAt, empty, strides, offsetsAt]
  have read (f : Nat → Int) : Tensor.entry ⟨.int64, box.sizes,
      Array.ofFn fun i : Fin (shapeSize box.sizes) => .int (f i)⟩ position = .int (f position) := by
    simp [Tensor.entry, nonempty, Array.getD, within]
  refine List.ext_getElem (by simp [coordinates, indexAt, offsetsAt]) fun axis _ _ => ?_
  simp only [coordinates, indexAt, offsetsAt, List.getElem_map, List.getElem_zip,
    List.getElem_zipWith]
  exact read fun k => _ + ((k / _ % _ : Nat) : Int)

end Box

end ReverseMode
