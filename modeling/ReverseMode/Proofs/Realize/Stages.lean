import ReverseMode.Proofs.Exact.Program
import ReverseMode.Proofs.Realize.Fields

/-!
# Fields of functions

What a function is at all indices: the elements that its initial definition gives, changed by one
update after another, each at the points of its reduction variables. An update changes the index
that its left-hand side evaluates to there. No box and no order of requests takes part in this.
-/

namespace ReverseMode

open Expr Realizer

namespace Environment

def ofIndex (names : List String) (index : List Int) : Environment :=
  names.zip (index.map fun i => Tensor.scalar .int64 (.int i))

theorem fits_coordinates (names : List String) (box : Box) :
    Fits box.sizes (names.zip box.coordinates) := by
  rintro ⟨name, c⟩ member
  have isAxis := (List.of_mem_zip member).2
  simp only [Box.coordinates, List.mem_map] at isAxis
  obtain ⟨_, _, rfl⟩ := isAxis
  exact ⟨Tensor.sound_ofFn _ _ _, .inr rfl⟩

theorem pick_coordinates (names : List String) (box : Box) {position : Nat}
    (within : position < shapeSize box.sizes) :
    pick position (names.zip box.coordinates) = ofIndex names (box.indexAt position) := by
  have axes : box.coordinates.map (Tensor.pick position) =
      (box.indexAt position).map fun i => Tensor.scalar .int64 (.int i) := by
    have entries := congrArg (List.map (Tensor.scalar .int64)) (box.map_entry_coordinates within)
    rw [List.map_map, List.map_map] at entries
    refine Eq.trans (List.map_congr_left fun c member => ?_) entries
    simp only [Box.coordinates, List.mem_map] at member
    obtain ⟨_, _, rfl⟩ := member
    rfl
  rw [pick, ofIndex, ← axes]
  simp only [List.zip_map_right]
  rfl

theorem fits_ofIndex (grid : List Nat) (names : List String) (index : List Int) :
    Fits grid (ofIndex names index) := by
  rintro ⟨name, c⟩ member
  obtain ⟨i, _, rfl⟩ := List.mem_map.1 (List.of_mem_zip member).2
  exact Tensor.fits_scalar _ _ _

@[simp] theorem pick_ofIndex (position : Nat) (names : List String) (index : List Int) :
    pick position (ofIndex names index) = ofIndex names index := by
  refine (List.map_congr_left fun entry member => ?_).trans (List.map_id _)
  obtain ⟨name, c⟩ := entry
  obtain ⟨i, _, rfl⟩ := List.mem_map.1 (List.of_mem_zip member).2
  rfl

theorem Fits.append {grid : List Nat} {env env' : Environment} (fits : env.Fits grid)
    (fits' : env'.Fits grid) : Fits grid (env ++ env') :=
  fun entry member => (List.mem_append.1 member).elim (fits entry) (fits' entry)

theorem pick_append (position : Nat) (env env' : Environment) :
    pick position (env ++ env') = pick position env ++ pick position env' := List.map_append

end Environment

namespace Field

variable (kernels : Kernels) (fields : Fields)

def initial (declared : List String) (value : Expr) : Field where
  type := .ofDType value.dtype
  entry index :=
    match fields.eval kernels (.ofIndex declared index) value with
    | .ok t => (t.entry 0).convert (.ofDType value.dtype)
    | .error _ => default

def target (indices : List Tensor) : List Int :=
  indices.map fun c => ((c.entry 0).convert .int64).toInt

/-- The field after an update ran at one point of its reduction variables. -/
def step (declared : List String) (update : Definition) (point : Environment) (field : Field) :
    Field where
  type := field.type
  entry index :=
    let env := point ++ .ofIndex declared index
    match fields.eval kernels env update.value, fields.evalAll kernels env update.args with
    | .ok value, .ok indices =>
        if target indices = index then (value.entry 0).convert field.type else field.entry index
    | _, _ => field.entry index

def ranges : List (String × Expr × Expr) → Except Fault (List (String × List Int))
  | [] => .ok []
  | (name, least, extent) :: rest => do
      let start ← fields.eval kernels [] least >>= wholeNumber
      let count ← fields.eval kernels [] extent >>= wholeNumber
      let others ← ranges rest
      return (name, integersFrom start count) :: others

/-- The field after an update ran at all points. The update reads what the point before left. -/
def run (id : FuncId) (declared : List String) (update : Definition) (field : Field) : Field :=
  match ranges kernels (Function.update fields id field) (reductionRanges update) with
  | .error _ => field
  | .ok ranges => (points (ranges.map Prod.snd)).foldl (fun field point =>
      field.step kernels (Function.update fields id field) declared update
        (.ofIndex (ranges.map Prod.fst) point)) field

end Field

def Func.field (kernels : Kernels) (fields : Fields) (id : FuncId) (f : Func) : Field :=
  match f.init with
  | none => default
  | some initial => f.updates.foldl
      (fun field update => field.run kernels fields id f.declared update)
      (.initial kernels fields f.declared initial.value)

theorem Region.shows_initial {kernels : Kernels} {fields : Fields} {declared : List String}
    {value : Expr} {box : Box} {values : Tensor} (regular : box.Regular)
    (run : fields.eval kernels (declared.zip box.coordinates) value = .ok values) :
    Shows ⟨box.mins, (values.convert (.ofDType value.dtype)).broadcast box.sizes⟩
      (.initial kernels fields declared value) := by
  obtain ⟨fits, each⟩ := Fields.eval_elementwise _ (Environment.fits_coordinates declared box) run
  have fitsConverted := Tensor.fits_convert (.ofDType value.dtype) fits
  have isBox : (⟨box.mins, (values.convert (.ofDType value.dtype)).broadcast box.sizes⟩ : Region).box =
      box := congrArg (Box.mk box.mins) (Tensor.broadcast_shape _ _)
  refine ⟨?_, by rwa [isBox], Tensor.broadcast_sound _ fitsConverted.sound, fun index inside => ?_⟩
  · unfold Tensor.broadcast
    split <;> rfl
  · rw [isBox] at inside ⊢
    have within := Box.position_lt regular inside
    have here := each _ within
    rw [Environment.pick_coordinates declared box within, Box.indexAt_position regular inside] at here
    rw [Tensor.broadcast_entry within, Tensor.entry_convert fits within]
    simp only [Field.initial, here]
    rfl

def Definition.parts (d : Definition) : List Expr :=
  d.value :: d.args ++ (reductionRanges d).flatMap fun entry => [entry.2.1, entry.2.2]

def Func.Reads (f : Func) (id callee : FuncId) : Prop :=
  (∃ initial, f.init = some initial ∧ initial.value.Calls callee) ∨
    ∃ update ∈ f.updates, ∃ e ∈ update.parts, e.Calls callee ∧ callee ≠ id

section

variable {kernels : Kernels} {fields fields' : Fields} {declared : List String} {update : Definition}
  {id : FuncId}

theorem initialField_congr {value : Expr}
    (same : ∀ callee, value.Calls callee → fields callee = fields' callee) :
    Field.initial kernels fields declared value = Field.initial kernels fields' declared value := by
  simp only [Field.initial, Fields.eval_congr value same]

theorem ranges_congr {entries : List (String × Expr × Expr)}
    (same : ∀ entry ∈ entries, ∀ callee,
      entry.2.1.Calls callee ∨ entry.2.2.Calls callee → fields callee = fields' callee) :
    Field.ranges kernels fields entries = Field.ranges kernels fields' entries := by
  induction entries with
  | nil => rfl
  | cons entry rest ih =>
      obtain ⟨name, least, extent⟩ := entry
      have here := same _ (.head _)
      rw [Field.ranges, Field.ranges, ih fun entry member => same entry (.tail _ member),
        Fields.eval_congr least fun callee called => here callee (.inl called),
        Fields.eval_congr extent fun callee called => here callee (.inr called)]

theorem step_congr {point : Environment} {field : Field}
    (same : ∀ e ∈ update.parts, ∀ callee, e.Calls callee → fields callee = fields' callee) :
    field.step kernels fields declared update point =
      field.step kernels fields' declared update point := by
  have value : ∀ env, fields.eval kernels env update.value = fields'.eval kernels env update.value :=
    Fields.eval_congr _ (same _ (by simp [Definition.parts]))
  have args : ∀ env,
      fields.evalAll kernels env update.args = fields'.evalAll kernels env update.args :=
    fun env => Fields.evalAll_congr fun x member =>
      Fields.eval_congr x (same x (by simp [Definition.parts, member])) env
  simp only [Field.step, value, args]

theorem run_congr {field : Field}
    (same : ∀ e ∈ update.parts, ∀ callee, e.Calls callee → callee ≠ id →
      fields callee = fields' callee) :
    field.run kernels fields id declared update = field.run kernels fields' id declared update := by
  have sameWithSelf (field : Field) : ∀ e ∈ update.parts, ∀ callee, e.Calls callee →
      Function.update fields id field callee = Function.update fields' id field callee := by
    intro e member callee called
    by_cases isSelf : callee = id
    · rw [isSelf, Function.update_self, Function.update_self]
    · rw [Function.update_of_ne isSelf, Function.update_of_ne isSelf,
        same e member callee called isSelf]
  have bounds : ∀ entry ∈ reductionRanges update, entry.2.1 ∈ update.parts ∧
      entry.2.2 ∈ update.parts := fun entry member =>
    ⟨List.mem_append_right _ (List.mem_flatMap.2 ⟨entry, member, .head _⟩),
      List.mem_append_right _ (List.mem_flatMap.2 ⟨entry, member, .tail _ (.head _)⟩)⟩
  unfold Field.run
  rw [ranges_congr fun entry member callee called => called.elim
    (sameWithSelf field _ (bounds entry member).1 callee)
    (sameWithSelf field _ (bounds entry member).2 callee)]
  split
  · rfl
  · congr 1
    funext field point
    exact step_congr (sameWithSelf field)

theorem field_congr {f : Func}
    (same : ∀ callee, f.Reads id callee → fields callee = fields' callee) :
    f.field kernels fields id = f.field kernels fields' id := by
  unfold Func.field
  split
  next => rfl
  next initial defined =>
    rw [initialField_congr fun callee called => same callee (.inl ⟨initial, defined, called⟩)]
    refine List.foldl_ext _ _ _ fun field update member => ?_
    exact run_congr fun e isPart callee called other =>
      same callee (.inr ⟨update, member, e, isPart, called, other⟩)

end

theorem Field.foldl_type {α : Type} {change : Field → α → Field}
    (keeps : ∀ field a, (change field a).type = field.type) (as : List α) (field : Field) :
    (as.foldl change field).type = field.type := by
  induction as generalizing field with
  | nil => rfl
  | cons a rest ih => rw [List.foldl_cons, ih, keeps]

theorem Field.run_type {kernels : Kernels} {fields : Fields} {id : FuncId} {declared : List String}
    {update : Definition} (field : Field) :
    (field.run kernels fields id declared update).type = field.type := by
  unfold Field.run
  split
  · rfl
  · refine foldl_type (fun field point => ?_) _ _
    rfl

theorem Func.field_type {kernels : Kernels} {fields : Fields} {id : FuncId} {f : Func} {dtype : DType}
    (isType : f.dtype = .ok dtype) : (f.field kernels fields id).type = .ofDType dtype := by
  unfold Func.dtype Func.initial at isType
  split at isType
  next initial defined =>
    cases isType
    rw [Func.field, defined]
    exact Field.foldl_type (fun field _ => field.run_type) _ _
  next => cases isType

namespace Program

def ReadBy (program : Program) (callee id : FuncId) : Prop := (program.func id).Reads id callee

open Classical in
/-- The fields of the functions whose reads end. -/
noncomputable def fields (program : Program) (kernels : Kernels) : Fields := fun id =>
  if ends : Acc program.ReadBy id then
    WellFounded.fixF (fun id below => (program.func id).field kernels
      (fun callee => if read : program.ReadBy callee id then below callee read else default) id) id ends
  else default

theorem fields_eq {program : Program} {kernels : Kernels} {id : FuncId}
    (ends : Acc program.ReadBy id) :
    program.fields kernels id = (program.func id).field kernels (program.fields kernels) id := by
  rw [fields, dif_pos ends, WellFounded.fixF_eq]
  refine field_congr fun callee read => ?_
  rw [dif_pos (show program.ReadBy callee id from read), fields, dif_pos (ends.inv read)]

end Program

end ReverseMode
