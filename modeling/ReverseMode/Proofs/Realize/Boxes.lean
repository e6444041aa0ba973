import ReverseMode.Proofs.Realize.Writing

namespace ReverseMode

def requestBox (mins sizes : List Int) : Box := ⟨mins, sizes.map Int.toNat⟩

def IsAddressable (mins sizes : List Int) : Prop :=
  ∀ axis ∈ mins.zip sizes, -2 ^ 63 ≤ axis.1 ∧ axis.1 ≤ 2 ^ 63 ∧ axis.1 + axis.2 ≤ 2 ^ 63

instance (mins sizes : List Int) : Decidable (IsAddressable mins sizes) :=
  inferInstanceAs (Decidable (∀ axis ∈ mins.zip sizes, _))

theorem IsAddressable.box {mins sizes : List Int} (addressable : IsAddressable mins sizes) :
    (requestBox mins sizes).Addressable := by
  intro axis member
  simp only [requestBox, List.zip_map_right] at member
  obtain ⟨asked, isAxis, rfl⟩ := List.mem_map.1 member
  obtain ⟨low, middle, high⟩ := addressable asked isAxis
  dsimp only [Prod.map]
  refine ⟨low, ?_⟩
  simp only [id_eq]
  omega

namespace Field

def onBox (field : Field) (box : Box) : Tensor :=
  ⟨field.type, box.sizes, Array.ofFn fun i : Fin (shapeSize box.sizes) => field.entry (box.indexAt i)⟩

theorem entry_onBox (field : Field) {box : Box} (regular : box.Regular) {index : List Int}
    (inside : box.Contains index) : (field.onBox box).entry (box.position index) =
      field.entry index := by
  have within := Box.position_lt regular inside
  have entry := Tensor.entry_eq_getD (t := field.onBox box) within
  rw [entry, onBox]
  simp [within, Box.indexAt_position regular inside]

end Field

namespace Region

theorem covers_cons {least : Int} {mins : List Int} {type : ElementType} {extent : Nat}
    {shape : List Nat} {data : Array Element} {asked size : Int} {askedMins sizes : List Int} :
    covers ⟨least :: mins, type, extent :: shape, data⟩ (asked :: askedMins) (size :: sizes) = true ↔
      (least ≤ asked ∧ asked + size ≤ least + extent) ∧
        covers ⟨mins, type, shape, data⟩ askedMins sizes = true := by
  simp [covers, box, Box.ends, and_assoc, and_left_comm]

theorem contains_of_covers {r : Region} {mins sizes : List Int} (regular : r.box.Regular)
    (sameAxes : mins.length = r.mins.length) (isRequest : mins.length = sizes.length)
    (covered : r.covers mins sizes = true) {index : List Int}
    (inside : (requestBox mins sizes).Contains index) : r.box.Contains index := by
  obtain ⟨own, type, shape, data⟩ := r
  induction own generalizing shape mins sizes index with
  | nil =>
      obtain rfl := List.length_eq_zero_iff.1 sameAxes
      obtain rfl := List.length_eq_zero_iff.1 isRequest.symm
      obtain rfl := List.length_eq_zero_iff.1 regular.symm
      exact inside
  | cons least own ih =>
      cases shape with
      | nil => simp [box, Box.Regular] at regular
      | cons extent shape =>
          cases mins with
          | nil => simp at sameAxes
          | cons asked mins =>
              cases sizes with
              | nil => simp at isRequest
              | cons size sizes =>
                  obtain ⟨⟨low, high⟩, others⟩ := covers_cons.1 covered
                  cases inside with
                  | @cons i _ index _ onAxis inside =>
                      refine .cons ?_ (ih (by simpa using isRequest) inside shape
                        (by simpa [box, Box.Regular] using regular) (by simpa using sameAxes) others)
                      dsimp only [Box.OnAxis] at onAxis ⊢
                      omega

theorem cut_eq {extent : Nat} {start size : Int} (low : 0 ≤ start) (positive : 0 ≤ size)
    (high : start + size ≤ extent) : cut extent start (start + size) = (start.toNat, size.toNat) := by
  have first : ¬ start < 0 := by omega
  have second : ¬ start + size < 0 := by omega
  simp only [cut, if_neg first, if_neg second]
  exact Prod.ext (by dsimp only; omega) (by dsimp only; omega)

theorem cuts_eq {r : Region} {mins sizes : List Int} (regular : r.box.Regular)
    (sameAxes : mins.length = r.mins.length) (isRequest : mins.length = sizes.length)
    (covered : r.covers mins sizes = true) (positive : ∀ size ∈ sizes, 0 ≤ size) :
    List.zipWith (fun extent (asked : Int × Int) => cut extent asked.1 (asked.1 + asked.2))
      r.values.shape ((List.zipWith (· - ·) mins r.mins).zip sizes) =
      List.zipWith (fun start size => (Int.toNat start, Int.toNat size))
        (List.zipWith (· - ·) mins r.mins) sizes ∧
      ∀ start ∈ List.zipWith (· - ·) mins r.mins, 0 ≤ start := by
  obtain ⟨own, type, shape, data⟩ := r
  induction own generalizing shape mins sizes with
  | nil =>
      obtain rfl := List.length_eq_zero_iff.1 sameAxes
      obtain rfl := List.length_eq_zero_iff.1 isRequest.symm
      simp
  | cons least own ih =>
      cases shape with
      | nil => simp [box, Box.Regular] at regular
      | cons extent shape =>
          cases mins with
          | nil => simp at sameAxes
          | cons asked mins =>
              cases sizes with
              | nil => simp at isRequest
              | cons size sizes =>
                  obtain ⟨⟨low, high⟩, others⟩ := covers_cons.1 covered
                  obtain ⟨rest, starts⟩ := ih (by simpa using isRequest)
                    (fun size member => positive size (.tail _ member)) shape
                    (by simpa [box, Box.Regular] using regular) (by simpa using sameAxes) others
                  have here := positive size (.head _)
                  have start : 0 ≤ asked - least := by omega
                  have first := cut_eq start here (show asked - least + size ≤ extent by omega)
                  exact ⟨congrArg₂ List.cons first rest, List.forall_mem_cons.2 ⟨start, starts⟩⟩

theorem map_cuts {starts sizes : List Int} (sameLength : starts.length = sizes.length)
    (positive : ∀ start ∈ starts, 0 ≤ start) :
    (List.zipWith (fun start size => (Int.toNat start, Int.toNat size)) starts sizes).map
        (fun c => (c.1 : Int)) = starts ∧
      (List.zipWith (fun start size => (Int.toNat start, Int.toNat size)) starts sizes).map Prod.snd =
        sizes.map Int.toNat := by
  induction starts generalizing sizes with
  | nil =>
      obtain rfl := List.length_eq_zero_iff.1 sameLength.symm
      exact ⟨rfl, rfl⟩
  | cons start starts ih =>
      cases sizes with
      | nil => simp at sameLength
      | cons size sizes =>
          obtain ⟨low, others⟩ := List.forall_mem_cons.1 positive
          obtain ⟨isStarts, isSizes⟩ := ih (by simpa using sameLength) others
          refine ⟨?_, ?_⟩
          · rw [List.zipWith_cons_cons, List.map_cons, isStarts, Int.toNat_of_nonneg low]
          · rw [List.zipWith_cons_cons, List.map_cons, isSizes, List.map_cons]

theorem starts_add {mins own : List Int} {offsets : List Nat} (sameAxes : mins.length = own.length)
    (sameLength : offsets.length = mins.length) :
    List.zipWith (fun (start : Int) (offset : Nat) => start + offset)
        (List.zipWith (· - ·) mins own) offsets =
      List.zipWith (· - ·)
        (List.zipWith (fun (least : Int) (offset : Nat) => least + offset) mins offsets) own := by
  induction mins generalizing own offsets with
  | nil => simp
  | cons least mins ih =>
      cases own with
      | nil => simp at sameAxes
      | cons other own =>
          cases offsets with
          | nil => simp at sameLength
          | cons offset offsets =>
              simp only [List.zipWith_cons_cons,
                ih (by simpa using sameAxes) (by simpa using sameLength)]
              congr 1
              omega

theorem window_eq {r : Region} {field : Field} (shows : r.Shows field) {mins sizes : List Int}
    (sameAxes : mins.length = r.mins.length) (isRequest : mins.length = sizes.length)
    (covered : r.covers mins sizes = true) (positive : ∀ size ∈ sizes, 0 ≤ size) :
    r.window mins sizes = field.onBox (requestBox mins sizes) := by
  obtain ⟨cuts, starts⟩ := cuts_eq shows.regular sameAxes isRequest covered positive
  have sameLength : (List.zipWith (· - ·) mins r.mins).length = sizes.length := by
    simp [← sameAxes, isRequest]
  obtain ⟨isStart, isSize⟩ := map_cuts sameLength starts
  have regular : (requestBox mins sizes).Regular := by
    simpa [requestBox, Box.Regular] using isRequest
  unfold window
  dsimp only
  rw [cuts, isStart, isSize, read, Field.onBox, shows.type, positions, Array.map_ofFn]
  dsimp only
  refine congrArg (Tensor.mk _ _) (congrArg Array.ofFn (funext fun i => ?_))
  have within : i.val < shapeSize (requestBox mins sizes).sizes := i.isLt
  have inside := contains_of_covers shows.regular sameAxes isRequest covered
    (Box.contains_indexAt regular within)
  have entries := congrArg (List.map Element.toInt) (Box.map_entry_coordinates
    ⟨List.zipWith (· - ·) mins r.mins, sizes.map Int.toNat⟩ within)
  rw [List.map_map, List.map_map] at entries
  have distances : (Box.coordinates ⟨List.zipWith (· - ·) mins r.mins, sizes.map Int.toNat⟩).map
      (fun c => (c.entry i).toInt) =
        List.zipWith (· - ·) ((requestBox mins sizes).indexAt i) r.mins := by
    refine entries.trans ((List.map_id' _).trans ?_)
    exact starts_add sameAxes (by simp [offsetsAt, isRequest])
  have enough : ((requestBox mins sizes).indexAt i).length = r.mins.length := by
    simp [Box.indexAt, requestBox, offsetsAt, ← isRequest, sameAxes]
  rw [← shows.entry _ inside]
  exact congrArg r.values.entry (position_of_offsets enough shows.regular distances)

theorem covers_request {r : Region} {mins sizes : List Int} (isRequest : mins.length = sizes.length)
    (isBox : r.box = requestBox mins sizes) : r.covers mins sizes = true := by
  obtain ⟨own, type, shape, data⟩ := r
  obtain ⟨rfl, rfl⟩ : own = mins ∧ shape = sizes.map Int.toNat := by
    simpa [box, requestBox] using isBox
  clear isBox
  induction own generalizing sizes with
  | nil => rfl
  | cons least mins ih =>
      cases sizes with
      | nil => simp at isRequest
      | cons size sizes =>
          exact covers_cons.2 ⟨⟨Int.le_refl _, by omega⟩, ih (by simpa using isRequest)⟩

theorem union_spec {r : Region} {mins sizes : List Int} (regular : r.box.Regular)
    (sameAxes : mins.length = r.mins.length) (isRequest : mins.length = sizes.length)
    (own : r.box.Addressable) (addressable : IsAddressable mins sizes) :
    (r.union mins sizes).1.length = mins.length ∧
      (r.union mins sizes).2.length = mins.length ∧
      IsAddressable (r.union mins sizes).1 (r.union mins sizes).2 ∧
      ∀ type data, covers ⟨(r.union mins sizes).1, type, (r.union mins sizes).2.map Int.toNat, data⟩
        mins sizes = true := by
  obtain ⟨least, kind, shape, elements⟩ := r
  induction least generalizing shape mins sizes with
  | nil =>
      obtain rfl := List.length_eq_zero_iff.1 sameAxes
      exact ⟨rfl, rfl, (fun _ absurd => nomatch absurd), fun _ _ => rfl⟩
  | cons least rest ih =>
      cases shape with
      | nil => simp [box, Box.Regular] at regular
      | cons extent shape =>
          cases mins with
          | nil => simp at sameAxes
          | cons asked mins =>
              cases sizes with
              | nil => simp at isRequest
              | cons size sizes =>
                  obtain ⟨lengths, lengths', later, covered⟩ := ih (by simpa using isRequest)
                    (fun axis member => addressable axis (.tail _ member)) shape
                    (by simpa [box, Box.Regular] using regular) (by simpa using sameAxes)
                    (fun axis member => own axis (.tail _ member))
                  obtain ⟨low, middle, high⟩ := addressable (asked, size) (.head _)
                  obtain ⟨ownLow, ownHigh⟩ := own (least, extent) (.head _)
                  refine ⟨congrArg (· + 1) lengths, congrArg (· + 1) lengths',
                    List.forall_mem_cons.2 ⟨?_, later⟩,
                    fun type data => covers_cons.2 ⟨?_, covered type data⟩⟩
                  · change -2 ^ 63 ≤ min least asked ∧ min least asked ≤ 2 ^ 63 ∧
                      min least asked + (max (least + (extent : Int)) (asked + size) -
                        min least asked) ≤ 2 ^ 63
                    dsimp only at low middle high ownLow ownHigh
                    omega
                  · change min least asked ≤ asked ∧ asked + size ≤ min least asked +
                      ((max (least + (extent : Int)) (asked + size) - min least asked).toNat : Int)
                    omega

end Region

end ReverseMode
