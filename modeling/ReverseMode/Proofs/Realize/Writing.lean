import ReverseMode.Proofs.Realize.Indices

namespace ReverseMode

open Expr Realizer

namespace Region

def put (type : ElementType) (values : Tensor) (stored : Array Element × Nat) (place : Nat) :
    Array Element × Nat :=
  (stored.1.setIfInBounds place ((values.entry stored.2).convert type), stored.2 + 1)

theorem store_eq (r : Region) (places : Array Nat) (values : Tensor) : r.store places values =
    ⟨r.mins, r.values.type, r.values.shape,
      (places.toList.foldl (put r.values.type values) (r.values.data, 0)).1⟩ := by
  rw [Array.foldl_toList]
  rfl

section

variable {type : ElementType} {values : Tensor} {places : List Nat}

theorem size_foldl_put (stored : Array Element × Nat) :
    (places.foldl (put type values) stored).1.size = stored.1.size := by
  induction places generalizing stored with
  | nil => rfl
  | cons place rest ih => rw [List.foldl_cons, ih]; simp [put]

theorem getElem?_foldl_put {data : Array Element} {start position : Nat} {e : Element}
    (within : position < data.size) (agree : ∀ k, places[k]? = some position →
      (values.entry (start + k)).convert type = e) :
    (places.foldl (put type values) (data, start)).1[position]? =
      if position ∈ places then some e else data[position]? := by
  induction places generalizing data start with
  | nil => rfl
  | cons place rest ih =>
      have later : ∀ k, rest[k]? = some position →
          (values.entry (start + 1 + k)).convert type = e := by
        intro k found
        rw [Nat.add_assoc, Nat.add_comm 1]
        exact agree (k + 1) (by simpa using found)
      rw [List.foldl_cons, put, ih (by simpa using within) later]
      by_cases isLater : position ∈ rest
      · simp [isLater]
      · by_cases isHere : position = place
        · subst isHere
          have first := agree 0 rfl
          simp [isLater, within, ← first]
        · simp [isLater, isHere, Ne.symm isHere]

end

end Region

namespace Environment

variable {names : List String} {index : List Int} {name : String}

theorem wide_lookup_ofIndex {t : Tensor} (known : (ofIndex names index).lookup name = some t) :
    t.Wide := by
  obtain ⟨before, after, same, _⟩ := List.lookup_eq_some_iff.1 known
  have member : (name, t) ∈ ofIndex names index := by rw [same]; simp
  obtain ⟨i, _, rfl⟩ := List.mem_map.1 (List.of_mem_zip member).2
  exact Tensor.wide_scalar i

theorem lookup_ofIndex_none (absent : name ∉ names) : (ofIndex names index).lookup name = none := by
  rw [List.lookup_eq_none_iff]
  intro entry member
  simpa using fun same : name = entry.1 => absent (same ▸ (List.of_mem_zip member).1)

theorem lookup_ofIndex_isSome (member : name ∈ names) (enough : index.length = names.length) :
    ((ofIndex names index).lookup name).isSome := by
  rw [List.lookup_isSome_iff]
  obtain ⟨k, isAt, rfl⟩ := List.getElem_of_mem member
  have isValue : k < index.length := enough ▸ isAt
  have isEntry : (names[k], Tensor.scalar .int64 (.int index[k])) ∈ ofIndex names index := by
    rw [ofIndex, List.mem_iff_getElem]
    exact ⟨k, by simpa using ⟨isAt, enough ▸ isAt⟩, by simp⟩
  exact ⟨_, isEntry, by simp⟩

theorem lookup_ofIndex (distinct : names.Nodup) {k : Nat} {i : Int} (isName : names[k]? = some name)
    (isValue : index[k]? = some i) :
    (ofIndex names index).lookup name = some (.scalar .int64 (.int i)) := by
  induction names generalizing index k with
  | nil => simp at isName
  | cons first rest ih =>
      obtain ⟨absent, distinct⟩ := List.nodup_cons.1 distinct
      cases index with
      | nil => simp at isValue
      | cons j others =>
          rw [ofIndex, List.map_cons, List.zip_cons_cons, List.lookup_cons]
          cases k with
          | zero =>
              cases isName
              cases isValue
              simp
          | succ k =>
              have differs : name ≠ first := by
                rintro rfl
                exact absent (List.mem_of_getElem? isName)
              rw [beq_eq_false_iff_ne.2 differs]
              exact ih distinct (by simpa using isName) (by simpa using isValue)

theorem lookup_ofIndex_congr {index' : List Int} (sameLength : index.length = index'.length)
    (same : ∀ k : Nat, names[k]? = some name → index[k]? = index'[k]?) :
    (ofIndex names index).lookup name = (ofIndex names index').lookup name := by
  induction names generalizing index index' with
  | nil => rfl
  | cons first rest ih =>
      cases index with
      | nil =>
          obtain rfl := List.length_eq_zero_iff.1 sameLength.symm
          rfl
      | cons i others =>
          cases index' with
          | nil => simp at sameLength
          | cons i' others' =>
              have rest := ih (by simpa using sameLength) fun k found =>
                by simpa using same (k + 1) (by simpa using found)
              simp only [ofIndex, List.map_cons, List.zip_cons_cons, List.lookup_cons]
              split
              next isFirst =>
                have here := same 0 (by simp [eq_of_beq isFirst])
                simp only [List.getElem?_cons_zero, Option.some.injEq] at here
                rw [here]
              next => exact rest

end Environment

/-- A declared variable that no reduction variable of the update hides. -/
def Definition.Open (declared : List String) (update : Definition) (name : String) : Prop :=
  name ∈ declared ∧ name ∉ (reductionRanges update).map Prod.fst

instance (declared : List String) (update : Definition) (name : String) :
    Decidable (update.Open declared name) :=
  inferInstanceAs (Decidable (_ ∧ _))

/-- The index expression of an axis is the axis's declared variable, or no declared variable stands in
it. -/
def Definition.Places (declared : List String) (update : Definition) (name : String) (arg : Expr) :
    Prop :=
  (arg.variableName? = some name ∧ update.Open declared name) ∨
    ∀ free ∈ arg.freeNames, ¬ update.Open declared free

/-- Every axis is placed, and the value uses declared variables of the left-hand side only. -/
structure Definition.Aligned (declared : List String) (update : Definition) : Prop where
  args : List.Forall₂ (update.Places declared) declared update.args
  value : ∀ name ∈ update.value.freeNames, update.Open declared name →
    ∃ arg ∈ update.args, arg.variableName? = some name

def Definition.envAt (declared : List String) (update : Definition) (values index : List Int) :
    Environment :=
  .ofIndex ((reductionRanges update).map Prod.fst) values ++ .ofIndex declared index

/-- At a point of its reduction variables an update has indices that keep their value when they are
counted from another least index. -/
def Definition.IndexesAt (kernels : Kernels) (fields : Fields) (declared : List String)
    (update : Definition) (values : List Int) : Prop :=
  ∀ arg ∈ update.args, ∀ index t,
    fields.eval kernels (update.envAt declared values index) arg = .ok t → t.Indexes

/-- At all points of its reduction variables an update has indices that keep their value, whatever the
function itself holds. -/
def Definition.Steady (kernels : Kernels) (fields : Fields) (id : FuncId) (declared : List String)
    (update : Definition) : Prop :=
  ∀ before ranges, Field.ranges kernels (Function.update fields id before) (reductionRanges update) =
    .ok ranges → ∀ values ∈ points (ranges.map Prod.snd), ∀ field,
      update.IndexesAt kernels (Function.update fields id field) declared values

theorem forall₂_getElem {α β : Type} {R : α → β → Prop} {as : List α} {bs : List β}
    (related : List.Forall₂ R as bs) {k : Nat} {a : α} {b : β} (isLeft : as[k]? = some a)
    (isRight : bs[k]? = some b) : R a b := by
  induction related generalizing k with
  | nil => simp at isLeft
  | cons here _ ih =>
      cases k with
      | zero => cases isLeft; cases isRight; exact here
      | succ k => exact ih (by simpa using isLeft) (by simpa using isRight)

namespace Box

/-- No index of the box, and no end of it, needs more than 64 bits. -/
def Addressable (box : Box) : Prop :=
  ∀ axis ∈ box.mins.zip box.sizes, -2 ^ 63 ≤ axis.1 ∧ axis.1 + axis.2 ≤ 2 ^ 63

theorem Contains.wrap {box : Box} (addressable : box.Addressable) {index : List Int}
    (inside : box.Contains index) : ∀ i ∈ index, ElementType.int64.wrap i = i := by
  intro i member
  obtain ⟨k, isAt, rfl⟩ := List.getElem_of_mem member
  have isAxis : k < (box.mins.zip box.sizes).length := inside.length_eq ▸ isAt
  obtain ⟨low, high⟩ := addressable _ (List.getElem_mem isAxis)
  have within := forall₂_getElem inside (List.getElem?_eq_getElem isAt)
    (List.getElem?_eq_getElem isAxis)
  have modulus : Nat.pow 2 64 = 18446744073709551616 := by norm_num
  simp only [Box.OnAxis] at within
  simp only [ElementType.wrap, ElementType.family, modulus, Int.bmod_def]
  omega

end Box

namespace Definition

variable {kernels : Kernels} {fields : Fields} {declared : List String} {update : Definition}
  {values : List Int}

theorem wide_envAt {index : List Int} {name : String} {t : Tensor}
    (known : Eval.lookUp (update.envAt declared values index) name = .ok t) : t.Wide := by
  unfold Eval.lookUp at known
  split at known
  next found =>
    cases known
    rw [envAt, List.lookup_append, Option.or_eq_some_iff] at found
    rcases found with found | ⟨_, found⟩
    · exact Environment.wide_lookup_ofIndex found
    · exact Environment.wide_lookup_ofIndex found
  next => cases known

theorem steady_of_isSteadyIndex {id : FuncId} (each : ∀ arg ∈ update.args, arg.isSteadyIndex) :
    update.Steady kernels fields id declared :=
  fun _ _ _ _ _ _ arg member _ _ run =>
    Fields.indexes_eval ((Environment.fits_ofIndex _ _ _).append (Environment.fits_ofIndex _ _ _))
      (fun _ _ => wide_envAt) (each arg member) run

end Definition

namespace Definition.Aligned

variable {kernels : Kernels} {fields : Fields} {declared : List String} {update : Definition}
  {values : List Int}

theorem lookup_envAt_congr {index index' : List Int} {name : String}
    (enough : values.length = (reductionRanges update).length)
    (sameLength : index.length = index'.length)
    (same : update.Open declared name → ∀ k : Nat, declared[k]? = some name → index[k]? = index'[k]?) :
    (update.envAt declared values index).lookup name =
      (update.envAt declared values index').lookup name := by
  rw [envAt, envAt, List.lookup_append, List.lookup_append]
  by_cases isReduction : name ∈ (reductionRanges update).map Prod.fst
  · have known := Environment.lookup_ofIndex_isSome isReduction (by simpa using enough)
    rw [Option.or_of_isSome known, Option.or_of_isSome known]
  · by_cases isDeclared : name ∈ declared
    · rw [Environment.lookup_ofIndex_congr sameLength (same ⟨isDeclared, isReduction⟩)]
    · rw [Environment.lookup_ofIndex_none isDeclared, Environment.lookup_ofIndex_none isDeclared]

theorem eval_declared {arg : Expr} {name : String} {index : List Int} {k : Nat} {i : Int}
    (isVariable : arg.variableName? = some name) (isOpen : update.Open declared name)
    (distinct : declared.Nodup) (isName : declared[k]? = some name) (isValue : index[k]? = some i) :
    fields.eval kernels (update.envAt declared values index) arg = .ok (.scalar .int64 (.int i)) := by
  have known : Eval.lookUp (update.envAt declared values index) name =
      .ok (.scalar .int64 (.int i)) := by
    unfold Eval.lookUp
    rw [envAt, List.lookup_append, Environment.lookup_ofIndex_none isOpen.2,
      Environment.lookup_ofIndex distinct isName isValue]
    rfl
  cases arg with
  | node id head dtype operands =>
      cases head with
      | var other index =>
          cases isVariable
          rw [Fields.eval]
          exact known
      | _ => cases isVariable
  | reduction =>
      cases isVariable
      rw [Fields.eval]
      exact known

theorem free_of_variableName {arg : Expr} {name : String}
    (isVariable : arg.variableName? = some name) : name ∈ arg.freeNames := by
  refine Free.mem_freeNames ?_
  cases arg with
  | node id head dtype operands =>
      cases head with
      | var other index => cases isVariable; exact .var
      | _ => cases isVariable
  | reduction => cases isVariable; exact .reduction rfl

variable {index index' : List Int} {indices indices' : List Tensor}

theorem place_of_names (aligned : update.Aligned declared) {name : String}
    (isOpen : update.Open declared name) (named : ∃ arg ∈ update.args, arg.variableName? = some name) :
    ∃ (k : Nat) (arg : Expr), declared[k]? = some name ∧ update.args[k]? = some arg ∧
      arg.variableName? = some name := by
  obtain ⟨arg, member, isVariable⟩ := named
  obtain ⟨k, isAt, rfl⟩ := List.getElem_of_mem member
  have isAxis : k < declared.length := aligned.args.length_eq ▸ isAt
  have isArg := List.getElem?_eq_getElem isAt
  have isName := List.getElem?_eq_getElem isAxis
  rcases forall₂_getElem aligned.args isName isArg with ⟨isOwn, _⟩ | absent
  · rw [isVariable] at isOwn
    exact ⟨k, _, (Option.some.inj isOwn) ▸ isName, isArg, isVariable⟩
  · exact absurd isOpen (absent name (free_of_variableName isVariable))

theorem target_declared {arg : Expr} {name : String} {k : Nat}
    (isVariable : arg.variableName? = some name) (isOpen : update.Open declared name)
    (distinct : declared.Nodup) (isIndex : index.length = declared.length)
    (small : ∀ i ∈ index, ElementType.int64.wrap i = i)
    (here : List.Forall₂ (fun e t => fields.eval kernels (update.envAt declared values index) e = .ok t)
      update.args indices)
    (isName : declared[k]? = some name) (isArg : update.args[k]? = some arg) :
    (Field.target indices)[k]? = index[k]? := by
  have isAxis : k < declared.length := (List.getElem?_eq_some_iff.1 isName).1
  have isAt : k < index.length := isIndex ▸ isAxis
  have isLater : k < indices.length := here.length_eq ▸ (List.getElem?_eq_some_iff.1 isArg).1
  have value := forall₂_getElem here isArg (List.getElem?_eq_getElem isLater)
  rw [eval_declared isVariable isOpen distinct isName (List.getElem?_eq_getElem isAt)] at value
  have isValue := Except.ok.inj value
  rw [Field.target, List.getElem?_map, List.getElem?_eq_getElem isLater, ← isValue,
    List.getElem?_eq_getElem isAt]
  exact congrArg some (small _ (List.getElem_mem isAt))

theorem agree (aligned : update.Aligned declared) (distinct : declared.Nodup)
    (enough : values.length = (reductionRanges update).length)
    (isIndex : index.length = declared.length) (isIndex' : index'.length = declared.length)
    (small : ∀ i ∈ index, ElementType.int64.wrap i = i)
    (small' : ∀ i ∈ index', ElementType.int64.wrap i = i)
    (here : fields.evalAll kernels (update.envAt declared values index) update.args = .ok indices)
    (there : fields.evalAll kernels (update.envAt declared values index') update.args = .ok indices')
    (hits : Field.target indices = index') :
    Field.target indices' = index' ∧ ∀ v,
      fields.eval kernels (update.envAt declared values index) update.value = .ok v →
        fields.eval kernels (update.envAt declared values index') update.value = .ok v := by
  rw [Fields.evalAll_eq_ok] at here there
  have sameLength := isIndex.trans isIndex'.symm
  have pinned : ∀ name, update.Open declared name →
      (∃ arg ∈ update.args, arg.variableName? = some name) →
      ∀ k : Nat, declared[k]? = some name → index[k]? = index'[k]? := by
    intro name isOpen named k isName
    obtain ⟨j, arg, isOwn, isArg, isVariable⟩ := aligned.place_of_names isOpen named
    obtain rfl : k = j := (List.getElem?_inj (List.getElem?_eq_some_iff.1 isName).1 distinct).1
      (isName.trans isOwn.symm)
    rw [← hits]
    exact (target_declared isVariable isOpen distinct isIndex small here isName isArg).symm
  refine ⟨?_, fun v => ?_⟩
  · refine List.ext_getElem? fun k => ?_
    by_cases isAxis : k < declared.length
    · have isAt : k < update.args.length := aligned.args.length_eq ▸ isAxis
      have isName := List.getElem?_eq_getElem isAxis
      have isArg := List.getElem?_eq_getElem isAt
      rcases forall₂_getElem aligned.args isName isArg with ⟨isVariable, isOpen⟩ | absent
      · exact target_declared isVariable isOpen distinct isIndex' small' there isName isArg
      · have isLater : k < indices.length := here.length_eq ▸ isAt
        have isLater' : k < indices'.length := there.length_eq ▸ isAt
        have value := forall₂_getElem here isArg (List.getElem?_eq_getElem isLater)
        have value' := forall₂_getElem there isArg (List.getElem?_eq_getElem isLater')
        rw [Fields.eval_congr_env fun name free =>
          lookup_envAt_congr enough sameLength fun isOpen => absurd isOpen (absent name free)] at value
        have same := Except.ok.inj (value.symm.trans value')
        rw [← hits, Field.target, Field.target, List.getElem?_map, List.getElem?_map,
          List.getElem?_eq_getElem isLater, List.getElem?_eq_getElem isLater', same]
    · rw [List.getElem?_eq_none, List.getElem?_eq_none]
      · omega
      · rw [Field.target, List.length_map, ← there.length_eq, ← aligned.args.length_eq]
        omega
  · refine (Fields.eval_congr_env fun name free => ?_).1
    exact lookup_envAt_congr enough sameLength fun isOpen =>
      pinned name isOpen (aligned.value name free isOpen)

end Definition.Aligned

section

variable {mins : List Int} {sizes : List Nat} {shape : List Nat} {position : Nat}

def indexFrom (coordinates : List Tensor) (position : Nat) : List Int :=
  coordinates.map fun c => ((c.entry position).convert .int64).toInt

theorem offsets_contains {coordinates extra offsets : List Tensor}
    (regular : mins.length = sizes.length) (enough : coordinates.length = mins.length)
    (fits : ∀ c ∈ coordinates, c.Fits shape) (within : position < shapeSize shape)
    (indexes : ∀ c ∈ coordinates, (c.pick position).Indexes)
    (run : List.Forall₂ (fun axis o => axis.2.offsets axis.1 = .ok o)
      (mins.zip (coordinates ++ extra)) offsets)
    (whole : ∀ o ∈ offsets, o.type.isReal = false)
    (inside : ∀ axis ∈ offsets.zip sizes, axis.1.leaves 0 axis.2 = false)
    (addressable : Box.Addressable ⟨mins, sizes⟩) :
    Box.Contains ⟨mins, sizes⟩ (indexFrom coordinates position) ∧
      offsets.map (fun o => (o.entry position).toInt) =
        List.zipWith (· - ·) (indexFrom coordinates position) mins := by
  induction mins generalizing sizes coordinates offsets with
  | nil =>
      obtain rfl := List.length_eq_zero_iff.1 enough
      cases run
      exact ⟨.nil, rfl⟩
  | cons least mins ih =>
      cases sizes with
      | nil => simp at regular
      | cons extent sizes =>
          cases coordinates with
          | nil => simp at enough
          | cons c coordinates =>
              cases run with
              | @cons _ o _ offsets first others =>
                  obtain ⟨low, high⟩ := addressable (least, extent) (.head _)
                  obtain ⟨onAxis, isOffset⟩ := Tensor.offsets_entry (fits c (.head _)) within
                    (indexes c (.head _)) first (whole o (.head _)) (inside (o, extent) (.head _))
                    low high
                  obtain ⟨contained, offsets⟩ := ih (by simpa using regular) (by simpa using enough)
                    (fun c member => fits c (.tail _ member))
                    (fun c member => indexes c (.tail _ member)) others
                    (fun o member => whole o (.tail _ member))
                    (fun axis member => inside axis (.tail _ member))
                    (fun axis member => addressable axis (.tail _ member))
                  exact ⟨.cons onAxis contained, congrArg₂ List.cons isOffset offsets⟩

theorem position_of_offsets {index distances : List Int} (enough : index.length = mins.length)
    (regular : mins.length = sizes.length)
    (isDistance : distances = List.zipWith (· - ·) index mins) :
    Box.position ⟨sizes.map fun _ => 0, sizes⟩ distances = Box.position ⟨mins, sizes⟩ index := by
  subst isDistance
  rw [Box.position_eq, Box.position_eq]
  congr 1
  simp only [Box.offsets]
  induction mins generalizing index sizes with
  | nil => simp
  | cons least mins ih =>
      cases sizes with
      | nil => simp at regular
      | cons extent sizes =>
          cases index with
          | nil => simp at enough
          | cons i index =>
              simp only [List.map_cons, List.zipWith_cons_cons, Int.sub_zero,
                ih (by simpa using enough) (by simpa using regular)]

end

namespace Tensor

theorem pick_broadcast {shape : List Nat} {t : Tensor} {position : Nat}
    (within : position < shapeSize shape) : (t.broadcast shape).pick position = t.pick position := by
  have sameType : (t.broadcast shape).type = t.type := by
    unfold broadcast
    split <;> rfl
  rw [pick, pick, broadcast_entry within, sameType]

theorem pick_of_scalar {t : Tensor} (scalar : t.shape = []) (position other : Nat) :
    t.pick position = t.pick other := by
  rw [pick, pick, entry_of_scalar scalar position other]

theorem entry_eq_getD {t : Tensor} {position : Nat} (within : position < shapeSize t.shape) :
    t.entry position = t.data[position]?.getD default := by
  unfold entry
  split
  next empty =>
    rw [List.isEmpty_iff.1 empty] at within
    obtain rfl : position = 0 := Nat.lt_one_iff.1 within
    exact Array.getD_eq_getD_getElem?
  next => exact Array.getD_eq_getD_getElem?

end Tensor

structure Writes (kernels : Kernels) (fields : Fields) (declared : List String) (update : Definition)
    (values : List Int) (r : Region) (shape : List Nat) (value : Tensor)
    (indices offsets : List Tensor) : Prop where
  isValue : fields.eval kernels (.ofIndex ((reductionRanges update).map Prod.fst) values ++
    declared.zip r.box.coordinates) update.value = .ok value
  areIndices : fields.evalAll kernels (.ofIndex ((reductionRanges update).map Prod.fst) values ++
    declared.zip r.box.coordinates) update.args = .ok indices
  common : Tensor.commonShape (indices ++ [value]) = .ok shape
  areOffsets : List.Forall₂ (fun axis o => axis.2.offsets axis.1 = .ok o)
    (r.mins.zip ((indices ++ [value]).map (Tensor.broadcast shape))) offsets
  whole : ∀ o ∈ offsets, o.type.isReal = false
  inside : ∀ axis ∈ offsets.zip r.values.shape, axis.1.leaves 0 axis.2 = false

structure Definition.Writable (kernels : Kernels) (fields : Fields) (declared : List String)
    (update : Definition) (values : List Int) (box : Box) : Prop where
  aligned : update.Aligned declared
  indexes : update.IndexesAt kernels fields declared values
  distinct : declared.Nodup
  enough : values.length = (reductionRanges update).length
  axes : box.mins.length = declared.length
  regular : box.Regular
  addressable : box.Addressable

namespace Writes

variable {kernels : Kernels} {fields : Fields} {declared : List String} {update : Definition}
  {values : List Int} {r : Region} {shape : List Nat} {value : Tensor} {indices offsets : List Tensor}

open Definition.Aligned

theorem at_position (writes : Writes kernels fields declared update values r shape value indices offsets)
    {position : Nat} (within : position < shapeSize r.values.shape) :
    fields.eval kernels (update.envAt declared values (r.box.indexAt position)) update.value =
        .ok (value.pick position) ∧
      fields.evalAll kernels (update.envAt declared values (r.box.indexAt position)) update.args =
        .ok (indices.map (Tensor.pick position)) := by
  have fits := (Environment.fits_ofIndex r.box.sizes ((reductionRanges update).map Prod.fst)
    values).append (Environment.fits_coordinates declared r.box)
  have here : Environment.pick position (.ofIndex ((reductionRanges update).map Prod.fst) values ++
      declared.zip r.box.coordinates) =
        update.envAt declared values (r.box.indexAt position) := by
    rw [Environment.pick_append, Environment.pick_ofIndex, Environment.pick_coordinates _ _ within]
    rfl
  rw [← here]
  exact ⟨(Fields.eval_elementwise _ fits writes.isValue).2 position within,
    (Fields.evalAll_elementwise (fun x _ t => Fields.eval_elementwise x fits) writes.areIndices).2
      position within⟩

theorem fits (writes : Writes kernels fields declared update values r shape value indices offsets) :
    ∀ t ∈ indices ++ [value], t.Fits r.values.shape := by
  have fits := (Environment.fits_ofIndex r.box.sizes ((reductionRanges update).map Prod.fst)
    values).append (Environment.fits_coordinates declared r.box)
  intro t member
  rcases List.mem_append.1 member with isIndex | isValue
  · exact (Fields.evalAll_elementwise (fun x _ t => Fields.eval_elementwise x fits)
      writes.areIndices).1 t isIndex
  · rw [List.mem_singleton.1 isValue]
    exact (Fields.eval_elementwise _ fits writes.isValue).1

variable (writable : update.Writable kernels fields declared values r.box)
include writable

theorem indexes (writes : Writes kernels fields declared update values r shape value indices offsets)
    {position : Nat} (within : position < shapeSize r.values.shape) :
    ∀ c ∈ indices, (c.pick position).Indexes := by
  have evaluated := Fields.evalAll_eq_ok.1 (writes.at_position within).2
  intro c member
  obtain ⟨k, isAt, rfl⟩ := List.getElem_of_mem member
  have isArg : k < update.args.length := by simpa [evaluated.length_eq] using isAt
  have isPick : (indices.map (Tensor.pick position))[k]? = some (indices[k].pick position) := by
    simp [isAt]
  exact writable.indexes _ (List.getElem_mem isArg) _ _
    (forall₂_getElem evaluated (List.getElem?_eq_getElem isArg) isPick)

theorem place (writes : Writes kernels fields declared update values r shape value indices offsets)
    {position : Nat} (within : position < shapeSize shape)
    (indexes : ∀ c ∈ indices, (c.pick position).Indexes) :
    r.box.Contains (indexFrom indices position) ∧
      (Region.positions shape (r.values.shape.map fun _ => 0) r.values.shape offsets)[position]? =
        some (r.box.position (indexFrom indices position)) := by
  have sameAxes : indices.length = r.mins.length := by
    rw [← (Fields.evalAll_eq_ok.1 writes.areIndices).length_eq, ← writable.aligned.args.length_eq]
    exact writable.axes.symm
  have sameIndex : indexFrom (indices.map (Tensor.broadcast shape)) position =
      indexFrom indices position := by
    rw [indexFrom, indexFrom, List.map_map]
    exact List.map_congr_left fun c _ => congrArg (fun e => (Element.convert .int64 e).toInt)
      (Tensor.broadcast_entry within)
  have broadcast : ∀ c ∈ indices.map (Tensor.broadcast shape), c.Fits shape ∧
      (c.pick position).Indexes := by
    intro c member
    obtain ⟨a, among, rfl⟩ := List.mem_map.1 member
    rw [Tensor.pick_broadcast within]
    exact ⟨⟨Tensor.broadcast_sound shape (writes.fits a (List.mem_append_left _ among)).sound,
      .inr (Tensor.broadcast_shape shape a)⟩, indexes a among⟩
  have run := writes.areOffsets
  rw [List.map_append] at run
  have enough : (indices.map (Tensor.broadcast shape)).length = r.mins.length := by simpa using sameAxes
  obtain ⟨contained, distances⟩ := offsets_contains writable.regular enough
    (fun c member => (broadcast c member).1) within (fun c member => (broadcast c member).2) run
    writes.whole writes.inside writable.addressable
  rw [sameIndex] at contained distances
  refine ⟨contained, ?_⟩
  rw [Region.positions, Array.getElem?_ofFn, dif_pos within]
  have sameLength : (indexFrom indices position).length = r.mins.length := by
    simpa [indexFrom] using sameAxes
  exact congrArg some (position_of_offsets sameLength writable.regular distances)

theorem hit (writes : Writes kernels fields declared update values r shape value indices offsets)
    {index : List Int} (inside : r.box.Contains index) {k : Nat} (within : k < shapeSize shape)
    (hits : indexFrom indices k = index) :
    indexFrom indices (r.box.position index) = index ∧
      value.entry (r.box.position index) = value.entry k := by
  have isPosition := Box.position_lt writable.regular inside
  rcases Tensor.commonShape_cases writes.fits writes.common with ⟨rfl, scalars⟩ | rfl
  · refine ⟨?_, Tensor.entry_of_scalar (scalars value (by simp)) _ _⟩
    rw [← hits, indexFrom, indexFrom]
    refine List.map_congr_left fun c member => ?_
    rw [Tensor.entry_of_scalar (scalars c (List.mem_append_left _ member)) _ k]
  · have isIndex {index : List Int} (inside : r.box.Contains index) :
        index.length = declared.length := by
      rw [inside.length_eq, List.length_zip, ← writable.axes, ← show _ = _ from writable.regular]
      exact Nat.min_self _
    have insideThere := Box.contains_indexAt writable.regular within
    obtain ⟨valueThere, indicesThere⟩ := writes.at_position within
    obtain ⟨valueHere, indicesHere⟩ := writes.at_position isPosition
    rw [Box.indexAt_position writable.regular inside] at valueHere indicesHere
    have target (position : Nat) : Field.target (indices.map (Tensor.pick position)) =
        indexFrom indices position := by
      rw [Field.target, indexFrom, List.map_map]
      rfl
    obtain ⟨sameIndex, sameValue⟩ := writable.aligned.agree writable.distinct writable.enough
      (isIndex insideThere) (isIndex inside) (insideThere.wrap writable.addressable)
      (inside.wrap writable.addressable) indicesThere indicesHere ((target k).trans hits)
    refine ⟨(target _).symm.trans sameIndex, ?_⟩
    have same := Except.ok.inj (valueHere.symm.trans (sameValue _ valueThere))
    exact congrArg (fun t => t.entry 0) same

theorem shows (writes : Writes kernels fields declared update values r shape value indices offsets)
    {field : Field} (shows : r.Shows field) :
    (r.store (Region.positions shape (r.values.shape.map fun _ => 0) r.values.shape offsets)
      value).Shows (field.step kernels fields declared update
        (.ofIndex ((reductionRanges update).map Prod.fst) values)) := by
  rw [Region.store_eq]
  have sound : r.values.data.size = shapeSize r.values.shape := shows.sound
  refine ⟨shows.type, shows.regular, (Region.size_foldl_put _).trans sound, fun index inside => ?_⟩
  change r.box.Contains index at inside
  change Tensor.entry _ (r.box.position index) = _
  have isPosition : r.box.position index < shapeSize r.values.shape :=
    Box.position_lt writable.regular inside
  generalize places : Region.positions shape (r.values.shape.map fun _ => 0) r.values.shape offsets =
    written
  -- whatever is written at the index is the update's value there
  have stored : ∀ k : Nat, written.toList[k]? = some (r.box.position index) →
      k < shapeSize shape ∧ indexFrom indices k = index := by
    intro k found
    have within : k < shapeSize shape := by
      have := (List.getElem?_eq_some_iff.1 found).1
      simpa [← places, Region.positions] using this
    have indexes : ∀ c ∈ indices, (c.pick k).Indexes := by
      intro c member
      rcases Tensor.commonShape_cases writes.fits writes.common with ⟨rfl, scalars⟩ | rfl
      · rw [Tensor.pick_of_scalar (scalars c (List.mem_append_left _ member)) k
          (r.box.position index)]
        exact writes.indexes writable isPosition c member
      · exact writes.indexes writable within c member
    obtain ⟨contained, isPlace⟩ := writes.place writable within indexes
    rw [places, ← Array.getElem?_toList, found] at isPlace
    exact ⟨within, Box.eq_of_position writable.regular contained inside (Option.some.inj isPlace).symm⟩
  have hit : r.box.position index ∈ written.toList ↔
      indexFrom indices (r.box.position index) = index := by
    constructor
    · intro member
      obtain ⟨k, found⟩ := List.mem_iff_getElem?.1 member
      obtain ⟨within, hits⟩ := stored k found
      exact (writes.hit writable inside within hits).1
    · intro hits
      have written {k : Nat} (within : k < shapeSize shape) (hits : indexFrom indices k = index)
          (indexes : ∀ c ∈ indices, (c.pick k).Indexes) : r.box.position index ∈ written.toList := by
        obtain ⟨_, isPlace⟩ := writes.place writable within indexes
        rw [places, hits] at isPlace
        exact Array.mem_toList_iff.2 (Array.mem_of_getElem? isPlace)
      have indexes := writes.indexes writable isPosition
      rcases Tensor.commonShape_cases writes.fits writes.common with ⟨rfl, scalars⟩ | rfl
      · have same : ∀ c ∈ indices, c.shape = [] := fun c member =>
          scalars c (List.mem_append_left _ member)
        refine written Nat.one_pos ?_ fun c member => ?_
        · rw [← hits, indexFrom, indexFrom]
          refine List.map_congr_left fun c member => ?_
          rw [Tensor.entry_of_scalar (same c member) 0 (r.box.position index)]
        · rw [Tensor.pick_of_scalar (same c member) 0 (r.box.position index)]
          exact indexes c member
      · exact written isPosition hits indexes
  refine Eq.trans (Tensor.entry_eq_getD isPosition) ?_
  dsimp only
  rw [Region.getElem?_foldl_put (e := (value.entry (r.box.position index)).convert r.values.type)
    (sound ▸ isPosition) ?_]
  · obtain ⟨valueHere, indicesHere⟩ := writes.at_position isPosition
    rw [Box.indexAt_position writable.regular inside] at valueHere indicesHere
    have target : Field.target (indices.map (Tensor.pick (r.box.position index))) =
        indexFrom indices (r.box.position index) := by
      rw [Field.target, indexFrom, List.map_map]
      rfl
    have stepped : (field.step kernels fields declared update
        (.ofIndex ((reductionRanges update).map Prod.fst) values)).entry index =
          if indexFrom indices (r.box.position index) = index then
            (value.entry (r.box.position index)).convert field.type
          else field.entry index := by
      unfold Definition.envAt at valueHere indicesHere
      simp only [Field.step, valueHere, indicesHere, target]
      rfl
    rw [stepped, ← shows.type]
    simp only [hit]
    split
    next => rfl
    next =>
      rw [← shows.entry index inside]
      exact (Tensor.entry_eq_getD isPosition).symm
  · intro k found
    obtain ⟨within, hits⟩ := stored k found
    rw [Nat.zero_add, (writes.hit writable inside within hits).2]

end Writes

end ReverseMode
