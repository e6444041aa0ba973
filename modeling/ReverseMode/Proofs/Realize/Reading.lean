import ReverseMode.Proofs.Realize.Elementwise
import ReverseMode.Realize.Realizer

namespace ReverseMode

structure Field where
  type : ElementType
  entry : List Int → Element
deriving Inhabited

def Field.gather (field : Field) (shape : List Nat) (coordinates : List Tensor) : Tensor :=
  ⟨field.type, shape, Array.ofFn fun i : Fin (shapeSize shape) =>
    field.entry (coordinates.map fun c => (c.entry i).toInt)⟩

namespace Region

def field (r : Region) : Field := ⟨r.values.type, fun index => r.values.entry (r.box.position index)⟩

theorem read_eq_gather (r : Region) (shape : List Nat) (coordinates : List Tensor) :
    r.read shape coordinates = r.field.gather shape coordinates := by
  simp only [read, positions, Field.gather, field, Array.map_ofFn]
  rfl

/-- The region holds the field's elements over its box. -/
structure Shows (r : Region) (field : Field) : Prop where
  type : r.values.type = field.type
  regular : r.box.Regular
  sound : r.values.Sound
  entry : ∀ index, r.box.Contains index → r.values.entry (r.box.position index) = field.entry index

theorem Shows.read {r : Region} {field : Field} (shows : r.Shows field) {shape : List Nat}
    {coordinates : List Tensor}
    (inside : ∀ i < shapeSize shape, r.box.Contains (coordinates.map fun c => (c.entry i).toInt)) :
    r.read shape coordinates = field.gather shape coordinates := by
  have entries : (fun i : Fin (shapeSize shape) =>
      r.field.entry (coordinates.map fun c => (c.entry i).toInt)) =
        fun i : Fin (shapeSize shape) => field.entry (coordinates.map fun c => (c.entry i).toInt) :=
    funext fun i => shows.entry _ (inside i i.isLt)
  rw [read_eq_gather, Field.gather, Field.gather, entries]
  exact congrArg (Tensor.mk · shape _) shows.type

end Region

namespace Tensor

def widen (range : Option (Int × Int)) (e : Element) : Option (Int × Int) :=
  match range with
  | none => some (e.toInt, e.toInt)
  | some (least, greatest) => some (Min.min least e.toInt, Max.max greatest e.toInt)

theorem range?_eq (t : Tensor) : t.range? = t.data.toList.foldl widen none := by
  rw [Array.foldl_toList]
  rfl

theorem foldl_widen (elements : List Element) (least greatest : Int) :
    ∃ least' greatest', elements.foldl widen (some (least, greatest)) = some (least', greatest') ∧
      (least' ≤ least ∧ greatest ≤ greatest') ∧
      (∀ e ∈ elements, least' ≤ e.toInt ∧ e.toInt ≤ greatest') ∧
      (least' = least ∨ ∃ e ∈ elements, e.toInt = least') ∧
      (greatest' = greatest ∨ ∃ e ∈ elements, e.toInt = greatest') := by
  induction elements generalizing least greatest with
  | nil => exact ⟨least, greatest, rfl, ⟨Int.le_refl _, Int.le_refl _⟩,
      (fun _ absurd => nomatch absurd), .inl rfl, .inl rfl⟩
  | cons first rest ih =>
      obtain ⟨least', greatest', folded, wider, covered, low, high⟩ :=
        ih (Min.min least first.toInt) (Max.max greatest first.toInt)
      have lower : Min.min least first.toInt = least ∨ Min.min least first.toInt = first.toInt :=
        (Int.le_total least first.toInt).imp Int.min_eq_left Int.min_eq_right
      have upper : Max.max greatest first.toInt = greatest ∨
          Max.max greatest first.toInt = first.toInt :=
        (Int.le_total first.toInt greatest).imp Int.max_eq_left Int.max_eq_right
      refine ⟨least', greatest', folded, ⟨wider.1.trans (Int.min_le_left _ _),
        (Int.le_max_left _ _).trans wider.2⟩, List.forall_mem_cons.2
        ⟨⟨wider.1.trans (Int.min_le_right _ _), (Int.le_max_right _ _).trans wider.2⟩, covered⟩, ?_, ?_⟩
      · rcases low with same | ⟨e, member, same⟩
        · exact lower.imp same.trans fun isFirst => ⟨first, .head _, (same.trans isFirst).symm⟩
        · exact .inr ⟨e, .tail _ member, same⟩
      · rcases high with same | ⟨e, member, same⟩
        · exact upper.imp same.trans fun isFirst => ⟨first, .head _, (same.trans isFirst).symm⟩
        · exact .inr ⟨e, .tail _ member, same⟩

theorem range?_eq_none {t : Tensor} : t.range? = none ↔ t.data = #[] := by
  rw [range?_eq, ← Array.toList_eq_nil_iff]
  cases t.data.toList with
  | nil => simp
  | cons first rest =>
      obtain ⟨least, greatest, folded, _⟩ := foldl_widen rest first.toInt first.toInt
      have isSome : (first :: rest).foldl widen none = some (least, greatest) := folded
      simp [isSome]

theorem range?_spec {t : Tensor} {least greatest : Int} (found : t.range? = some (least, greatest)) :
    (∀ e ∈ t.data, least ≤ e.toInt ∧ e.toInt ≤ greatest) ∧ (∃ e ∈ t.data, e.toInt = least) ∧
      ∃ e ∈ t.data, e.toInt = greatest := by
  rw [range?_eq] at found
  simp only [← Array.mem_toList_iff]
  cases elements : t.data.toList with
  | nil => rw [elements] at found; cases found
  | cons first rest =>
      obtain ⟨least', greatest', folded, wider, covered, low, high⟩ :=
        foldl_widen rest first.toInt first.toInt
      rw [elements] at found
      cases folded.symm.trans found
      refine ⟨List.forall_mem_cons.2 ⟨wider, covered⟩, ?_, ?_⟩
      · rcases low with same | ⟨e, member, same⟩
        · exact ⟨first, .head _, same.symm⟩
        · exact ⟨e, .tail _ member, same⟩
      · rcases high with same | ⟨e, member, same⟩
        · exact ⟨first, .head _, same.symm⟩
        · exact ⟨e, .tail _ member, same⟩

theorem leaves_eq_false {t : Tensor} {least : Int} {extent : Nat} :
    t.leaves least extent = false ↔
      ∀ e ∈ t.data, least ≤ e.toInt ∧ e.toInt < least + extent := by
  unfold leaves
  cases range : t.range? with
  | none => simp [range?_eq_none.1 range]
  | some ends =>
      obtain ⟨lowest, highest⟩ := ends
      obtain ⟨covered, ⟨low, lowMember, isLow⟩, high, highMember, isHigh⟩ := range?_spec range
      simp only [Bool.or_eq_false_iff, decide_eq_false_iff_not]
      constructor
      · intro _ e member
        have := covered e member
        omega
      · intro within
        have := within low lowMember
        have := within high highMember
        omega

section

variable {grid shape : List Nat} {args arrays : List Tensor}

theorem broadcastAll_cases (run : broadcastAll args = .ok (shape, arrays)) :
    commonShape args = .ok shape ∧ arrays = args.map (broadcast shape) := by
  unfold broadcastAll at run
  cases common : commonShape args with
  | error fault => rw [common] at run; cases run
  | ok shape' => rw [common] at run; cases run; exact ⟨rfl, rfl⟩

theorem broadcastAll_pick (position : Nat) (args : List Tensor) :
    broadcastAll (args.map (pick position)) = .ok ([], args.map (pick position)) := by
  have unchanged : (args.map (pick position)).map (broadcast []) = args.map (pick position) :=
    List.map_congr_left (fun t member => by
      obtain ⟨a, _, rfl⟩ := List.mem_map.1 member
      rfl) |>.trans (List.map_id' _)
  unfold broadcastAll
  rw [commonShape_pick]
  exact congrArg (fun arrays => Except.ok ([], arrays)) unchanged

theorem broadcast_shape (shape : List Nat) (t : Tensor) : (t.broadcast shape).shape = shape := by
  unfold broadcast
  split
  next same => exact same
  next => rfl

theorem broadcast_sound (shape : List Nat) {t : Tensor} (sound : t.Sound) :
    (t.broadcast shape).Sound := by
  unfold broadcast
  split
  next => exact sound
  next => exact sound_ofFn _ _ _

theorem broadcast_entry {t : Tensor} {position : Nat} (within : position < shapeSize shape) :
    (t.broadcast shape).entry position = t.entry position := by
  unfold broadcast
  split
  next => rfl
  next =>
    by_cases scalar : shape = []
    · subst scalar
      have isFirst : position = 0 := Nat.lt_one_iff.1 within
      rw [isFirst, entry_ofFn_nil t.type t.entry]
    · exact entry_ofFn t.type t.entry within scalar

theorem coordinates_entry (fits : ∀ a ∈ args, a.Fits grid)
    (run : broadcastAll args = .ok (shape, arrays)) {position : Nat}
    (within : position < shapeSize shape) :
    (arrays.map (convert .int64)).map (fun c => (c.entry position).toInt) =
      args.map fun a => ((a.entry position).convert .int64).toInt := by
  obtain ⟨common, rfl⟩ := broadcastAll_cases run
  rw [List.map_map, List.map_map]
  refine List.map_congr_left fun a member => congrArg Element.toInt ?_
  have fitsShape : (a.broadcast shape).Fits shape :=
    ⟨broadcast_sound shape (fits a member).sound, .inr (broadcast_shape shape a)⟩
  exact (entry_convert fitsShape within).trans (congrArg _ (broadcast_entry within))

theorem gather_elementwise (field : Field) (fits : ∀ a ∈ args, a.Fits grid)
    (run : broadcastAll args = .ok (shape, arrays)) :
    (field.gather shape (arrays.map (convert .int64))).Fits grid ∧ ∀ position < shapeSize grid,
      field.gather [] ((args.map (pick position)).map (convert .int64)) =
        (field.gather shape (arrays.map (convert .int64))).pick position := by
  obtain ⟨common, _⟩ := broadcastAll_cases run
  refine ⟨fits_ofFn _ _ fits common, fun position within => ?_⟩
  have gathered : field.gather shape (arrays.map (convert .int64)) = ⟨field.type, shape,
      Array.ofFn fun i : Fin (shapeSize shape) =>
        field.entry ((args.map fun a => a.entry i).map fun e => (e.convert .int64).toInt)⟩ := by
    unfold Field.gather
    refine congrArg (fun f => Tensor.mk field.type shape (Array.ofFn f)) (funext fun i => ?_)
    rw [coordinates_entry fits run i.isLt, List.map_map]
    rfl
  have entry := entry_pointwise field.type
    (fun es => field.entry (es.map fun e => (e.convert .int64).toInt)) fits common within
  rw [gathered, pick, entry]
  refine congrArg (fun e => Tensor.mk field.type [] #[field.entry e]) ?_
  rw [List.map_map, List.map_map, List.map_map]
  refine List.map_congr_left fun a _ => congrArg Element.toInt ?_
  exact entry_convert (fits_pick [] position a) Nat.one_pos

theorem entry_mem_broadcast (fits : ∀ a ∈ args, a.Fits grid) (common : commonShape args = .ok shape)
    {a : Tensor} (member : a ∈ args) {position : Nat} (within : position < shapeSize grid) :
    a.entry position ∈ (a.broadcast shape).data := by
  have fitsShape : (a.broadcast shape).Fits shape :=
    ⟨broadcast_sound shape (fits a member).sound, .inr (broadcast_shape shape a)⟩
  rcases commonShape_cases fits common with ⟨rfl, scalars⟩ | rfl
  · have found := entry_mem fitsShape Nat.one_pos
    rw [broadcast_entry Nat.one_pos] at found
    rwa [entry_of_scalar (scalars a member) position 0]
  · have found := entry_mem fitsShape within
    rwa [broadcast_entry within] at found

end

end Tensor

theorem checkImageRead_eq_ok {source : Image} {coordinates : List Tensor} :
    Eval.checkImageRead source coordinates = .ok () ↔
      ∀ axis ∈ coordinates.zip source.data.shape, axis.1.leaves 0 axis.2 = false := by
  unfold Eval.checkImageRead
  dsimp only
  split
  next none =>
    rw [List.find?_eq_none] at none
    refine iff_of_true rfl fun axis member => ?_
    obtain ⟨i, isAt, rfl⟩ := List.mem_iff_getElem.1 member
    simpa using none (_, i) (List.mk_mem_zipIdx_iff_getElem?.2 (List.getElem?_eq_getElem isAt))
  next c extent axis found =>
    refine iff_of_false (fun absurd => nomatch absurd) fun all => ?_
    have member := List.fst_mem_of_mem_zipIdx (List.mem_of_find?_eq_some found)
    have leaves := List.find?_some found
    rw [all _ member] at leaves
    cases leaves

open Tensor in
theorem readImage_elementwise {source : Image} {grid shape : List Nat} {args arrays : List Tensor}
    {t : Tensor} (fits : ∀ a ∈ args, a.Fits grid) (run : broadcastAll args = .ok (shape, arrays))
    (read : Eval.readImage source shape (arrays.map (convert .int64)) = .ok t) :
    t.Fits grid ∧ ∀ position < shapeSize grid,
      Eval.readImage source [] ((args.map (pick position)).map (convert .int64)) =
        .ok (t.pick position) := by
  let region : Region := ⟨source.data.shape.map fun _ => 0, source.data⟩
  have answer {shape : List Nat} {coordinates : List Tensor}
      (inside : Eval.checkImageRead source coordinates = .ok ()) :
      Eval.readImage source shape coordinates = .ok (region.field.gather shape coordinates) := by
    unfold Eval.readImage
    rw [inside, ← region.read_eq_gather]
    rfl
  cases checked : Eval.checkImageRead source (arrays.map (convert .int64)) with
  | error fault =>
      unfold Eval.readImage at read
      rw [checked] at read
      cases read
  | ok =>
      rw [answer checked] at read
      cases read
      obtain ⟨keeps, each⟩ := gather_elementwise region.field fits run
      obtain ⟨common, rfl⟩ := broadcastAll_cases run
      refine ⟨keeps, fun position within => ?_⟩
      rw [answer ?_, each position within]
      rw [checkImageRead_eq_ok] at checked ⊢
      intro axis member
      rw [List.map_map, List.zip_map_left] at member
      obtain ⟨⟨a, extent⟩, paired, rfl⟩ := List.mem_map.1 member
      have inside : ((a.broadcast shape).convert .int64).leaves 0 extent = false := by
        refine checked (_, extent) ?_
        rw [List.map_map, List.zip_map_left]
        exact List.mem_map_of_mem paired
      refine leaves_eq_false.2 fun e isEntry => leaves_eq_false.1 inside e ?_
      have among := entry_mem_broadcast fits common (List.of_mem_zip paired).1 within
      have isThis : e = (a.entry position).convert .int64 := by
        simpa [convert, pick, scalar] using isEntry
      rw [isThis]
      exact Array.mem_map_of_mem among

end ReverseMode
