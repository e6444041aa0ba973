import ReverseMode.Proofs.Realize.Ending

/-!
# Buffer accesses stay inside

Images, finished regions, partial regions and the window of a request are only accessed at indices
inside of them, whatever the program reads and writes: realizers that refuse every other access do
the same. Updates count their indices from the region's least index in the type that these have, so
their offsets do not wrap around as long as this type has a number for each end of the region.
-/

namespace ReverseMode

open Realizer

namespace Tensor

def strays (least : Int) (extent : Nat) (c : Tensor) : Bool :=
  c.data.any fun e => e.toInt < least || least + extent ≤ e.toInt

/-- Whether the type of the array has a number for the last index of an axis, and the array holds
numbers of its type. -/
def reaches (least : Int) (extent : Nat) (c : Tensor) : Bool :=
  let t := if c.type = .bool then .int64 else c.type
  t.contains (least + extent - 1) && c.data.all fun e => t.contains e.toInt

/-- Whether some offset is not the distance of its index from `least`, or leaves the extent. -/
def slips (least : Int) (extent : Nat) (c offsets : Tensor) : Bool :=
  (c.data.toList.zip offsets.data.toList).any fun (e, o) =>
    o.toInt != e.toInt - least || o.toInt < 0 || extent ≤ o.toInt

end Tensor

def Box.strayed (box : Box) (coordinates : List Tensor) : Bool :=
  (coordinates.zip (box.mins.zip box.sizes)).any fun (c, least, extent) => c.strays least extent

def Box.spans (box : Box) (mins sizes : List Int) : Bool :=
  (box.mins.zip (box.sizes.zip (mins.zip sizes))).all fun (least, extent, asked, size) =>
    least ≤ asked && asked + size ≤ least + extent

namespace Region

def readWithin (refused : Fault) (r : Region) (shape : List Nat) (coordinates : List Tensor) :
    Except Fault Tensor :=
  if r.box.strayed coordinates then .error refused else .ok (r.read shape coordinates)

def windowWithin (refused : Fault) (r : Region) (mins sizes : List Int) : Except Fault Tensor :=
  if r.box.spans mins sizes && sizes.all (0 ≤ ·) then .ok (r.window mins sizes)
  else .error refused

end Region

/-- `readImage` at indices inside of the image, and nowhere else. -/
def Eval.readImageWithin (refused : Fault) (source : Image) (shape : List Nat)
    (coordinates : List Tensor) : Except Fault Tensor := do
  checkImageRead source coordinates
  let region : Region := ⟨source.data.shape.map fun _ => 0, source.data⟩
  region.readWithin refused shape coordinates

namespace Realizer

/-- `writeUpdate` that stores nothing where an offset slips though the type of the indices reaches
over the region. -/
def writeWithin (refused : Fault) (id : FuncId) (name : String) (stage : Nat)
    (indices : List Tensor) (value : Tensor) : RealizeM Unit := do
  let some r := (← getThe Realizer).running.lookup id | return
  let extents := r.values.shape
  let (shape, arrays) ← Tensor.broadcastAll (indices ++ [value])
  let offsets ← (r.mins.zip arrays).mapM fun (least, coordinates) =>
    (coordinates.offsets least : RealizeM Tensor)
  if let some axis := Region.leavingAxis? offsets extents then
    throw (.writeOutside stage name axis)
  if offsets.any fun offset => offset.type.isReal then throw .fractionalIndex
  let slipped : (Int × Tensor) × Tensor × Nat → Bool := fun ((least, c), offset, extent) =>
    c.reaches least extent && c.slips least extent offset
  if ((r.mins.zip arrays).zip (offsets.zip extents)).any slipped then throw refused
  let places := Region.positions shape (extents.map fun _ => 0) extents offsets
  let change : FuncId × Region → FuncId × Region := fun (owner, region) =>
    if owner = id then (owner, region.store places value) else (owner, region)
  modifyThe Realizer fun state => { state with running := state.running.map change }

def readWithin (refused : Fault) (realizeBox : FuncId → List Int → List Int → RealizeM Region) :
    FuncReader :=
  fun id shape coordinates => do
    let f := (← readThe Realization).program.func id
    match (← getThe Realizer).running.lookup id with
    | some partialRegion => do
        let outside : Tensor × Int × Nat → Bool := fun (c, least, extent) => c.leaves least extent
        let axes := partialRegion.mins.zip partialRegion.values.shape
        if let some axis := (coordinates.zip axes).findIdx? outside then
          throw (.selfReadOutside f.name axis)
        partialRegion.readWithin refused shape coordinates
    | none =>
        match coordinates.mapM Tensor.range? with
        | none => do
            let dtype ← (f.dtype : RealizeM DType)
            return ⟨.ofDType dtype, shape, #[]⟩
        | some ranges => do
            let mins := ranges.map Prod.fst
            let sizes := ranges.map fun (least, greatest) => greatest - least + 1
            let box := bracketed (mins.map toString) ++ " " ++ bracketed (sizes.map toString)
            RealizeM.reportLine Tracing.details s!"[Realizer._eval_call] {f.name} box {box}"
            let region ← realizeBox id mins sizes
            region.readWithin refused shape coordinates

def realizeBoxWithin (refused : Fault) : Nat → FuncId → List Int → List Int → RealizeM Region
  | 0, _, _, _ => throw .nestingTooDeep
  | depth + 1, id, mins, sizes => do
      let known := (← getThe Realizer).cache.lookup id
      let readFunc := readWithin refused (realizeBoxWithin refused depth)
      match known with
      | some region =>
          if region.covers mins sizes then return region
          let (least, extents) := region.union mins sizes
          fresh readFunc id least extents
      | none => fresh readFunc id mins sizes

/-- `realize` that accesses regions at indices inside of them, and nowhere else. -/
def realizeWithin (refused : Fault) (id : FuncId) (sizes : List Int) (mins? : Option (List Int)) :
    RealizeM Tensor := do
  let program := (← readThe Realization).program
  let f := program.func id
  let mins := mins?.getD (sizes.map fun _ => 0)
  let dimensions ← (f.dimensions : RealizeM Nat)
  if sizes.length ≠ dimensions ∨ mins.length ≠ dimensions then
    throw (.boxArity f.name dimensions sizes mins)
  let region ← realizeBoxWithin refused (nestingBound program) id mins sizes
  region.windowWithin refused mins sizes

end Realizer

theorem ElementType.wrap_sub {t : ElementType} {i least : Int} {extent : Nat}
    (notTruth : t ≠ .bool) (whole : t.isReal = false) (isNumber : t.contains i)
    (containsLeast : t.contains least) (containsLast : t.contains (least + extent - 1))
    (above : 0 ≤ t.wrap (i - least)) (below : t.wrap (i - least) < extent) :
    t.wrap (i - least) = i - least := by
  have powers : Nat.pow 2 8 = 256 ∧ Nat.pow 2 16 = 65536 ∧ Nat.pow 2 32 = 4294967296 ∧
      Nat.pow 2 64 = 18446744073709551616 := by norm_num
  have remainder (a b : Int) : a.emod b = a % b := rfl
  -- `least + t.wrap (i - least)` lies between the ends of the axis, so it is a number of the type,
  -- and it differs from `i` by a multiple of the modulus.
  cases t with
  | bool => exact absurd rfl notTruth
  | float16 | float32 | float64 => cases whole
  | _ =>
      simp only [contains, wrap, family, powers, remainder, decide_eq_true_eq, Int.bmod_def] at *
      omega

namespace Tensor

theorem strays_eq_false {least : Int} {extent : Nat} {c : Tensor} :
    c.strays least extent = false ↔ c.leaves least extent = false := by
  rw [leaves_eq_false, strays, Array.any_eq_false']
  simp

theorem not_slips {c o : Tensor} {least : Int} {extent : Nat} (run : c.offsets least = .ok o)
    (whole : o.type.isReal = false) (stays : o.leaves 0 extent = false)
    (reaches : c.reaches least extent = true) : c.slips least extent o = false := by
  obtain ⟨_, kind, isKind, containsLeast, rfl⟩ := offsets_of_whole run whole
  simp only [Tensor.reaches, isKind, Bool.and_eq_true] at reaches
  obtain ⟨containsLast, areNumbers⟩ := reaches
  have notTruth : kind ≠ .bool := by
    rintro rfl
    split at isKind
    next => cases isKind
    next notBool => exact notBool isKind
  have pairs : c.data.toList.zip (c.data.map fun e =>
      Element.int (kind.wrap (e.toInt - least))).toList =
      c.data.toList.map fun e => (e, .int (kind.wrap (e.toInt - least))) := by
    rw [Array.toList_map, List.zip_eq_zipWith, List.zipWith_map_right, List.zipWith_self]
  unfold slips map
  rw [pairs, List.any_map, List.any_eq_false]
  intro e member
  have isNumber := Array.all_eq_true'.1 areNumbers e (Array.mem_toList_iff.1 member)
  obtain ⟨above, below⟩ : 0 ≤ kind.wrap (e.toInt - least) ∧
      kind.wrap (e.toInt - least) < 0 + extent :=
    leaves_eq_false.1 stays (.int (kind.wrap (e.toInt - least)))
      (Array.mem_map.2 ⟨e, Array.mem_toList_iff.1 member, rfl⟩)
  have isDistance := ElementType.wrap_sub notTruth whole isNumber containsLeast containsLast
    above (by omega)
  have isOffset (i : Int) : (Element.int i).toInt = i := rfl
  simp only [Function.comp_apply, isOffset, Bool.or_eq_true, bne_iff_ne, decide_eq_true_eq]
  omega

/-- The type has to reach over the axis: `0` is written at `256` where the axis is `[1, 257)`. -/
example : ((scalar .uint8 (.int 0)).offsets 1).toOption.map (fun o =>
    (o.leaves 0 256, (scalar .uint8 (.int 0)).reaches 1 256, o.data.toList.map Element.toInt)) =
      some (false, false, [255]) := by decide +kernel

end Tensor

theorem Box.strayed_eq_false {box : Box} {coordinates : List Tensor} :
    box.strayed coordinates = false ↔ ∀ axis ∈ coordinates.zip (box.mins.zip box.sizes),
      axis.1.leaves axis.2.1 axis.2.2 = false := by
  unfold strayed
  rw [List.any_eq_false]
  refine forall₂_congr fun axis _ => ?_
  rw [Bool.not_eq_true]
  exact Tensor.strays_eq_false

theorem Box.spans_cons {least asked size : Int} {extent : Nat} {mins askedMins sizes : List Int}
    {extents : List Nat} :
    Box.spans ⟨least :: mins, extent :: extents⟩ (asked :: askedMins) (size :: sizes) = true ↔
      (least ≤ asked ∧ asked + size ≤ least + extent) ∧
        Box.spans ⟨mins, extents⟩ askedMins sizes = true := by
  simp [spans]

theorem spans_requestBox (mins sizes : List Int) : (requestBox mins sizes).spans mins sizes := by
  induction mins generalizing sizes with
  | nil => rfl
  | cons least mins ih =>
      cases sizes with
      | nil => rfl
      | cons size sizes => exact Box.spans_cons.2 ⟨⟨Int.le_refl _, by omega⟩, ih sizes⟩

namespace Region

theorem spans_of_covers {r : Region} {mins sizes : List Int}
    (covered : r.covers mins sizes = true) : r.box.spans mins sizes := by
  obtain ⟨own, type, shape, data⟩ := r
  induction own generalizing shape mins sizes with
  | nil => rfl
  | cons least own ih =>
      cases shape with
      | nil => rfl
      | cons extent shape =>
          cases mins with
          | nil => rfl
          | cons asked mins =>
              cases sizes with
              | nil => rfl
              | cons size sizes =>
                  obtain ⟨here, others⟩ := covers_cons.1 covered
                  exact Box.spans_cons.2 ⟨here, ih shape others⟩

theorem spans_union (r : Region) (mins sizes : List Int) :
    (requestBox (r.union mins sizes).1 (r.union mins sizes).2).spans mins sizes := by
  obtain ⟨own, type, shape, data⟩ := r
  induction own generalizing shape mins sizes with
  | nil => rfl
  | cons least own ih =>
      cases mins with
      | nil => rfl
      | cons asked mins =>
          cases shape with
          | nil => rfl
          | cons extent shape =>
              cases sizes with
              | nil => rfl
              | cons size sizes =>
                  refine Box.spans_cons.2 ⟨?_, ih mins sizes shape⟩
                  change min least asked ≤ asked ∧ asked + size ≤ min least asked +
                    ((max (least + (extent : Int)) (asked + size) - min least asked).toNat : Int)
                  omega

theorem not_strayed_of_ranges {box : Box} {coordinates : List Tensor} {ranges : List (Int × Int)}
    (areRanges : coordinates.mapM Tensor.range? = some ranges)
    (spans : box.spans (ranges.map Prod.fst)
      (ranges.map fun (least, greatest) => greatest - least + 1) = true) :
    box.strayed coordinates = false := by
  obtain ⟨mins, sizes⟩ := box
  replace areRanges := mapM_eq_some.1 areRanges
  induction areRanges generalizing mins sizes with
  | nil => rfl
  | @cons c range _ _ isRange _ ih =>
      cases mins with
      | nil => rfl
      | cons least mins =>
          cases sizes with
          | nil => rfl
          | cons extent sizes =>
              obtain ⟨lowest, highest⟩ := range
              obtain ⟨⟨low, high⟩, others⟩ := Box.spans_cons.1 spans
              obtain ⟨covered, _⟩ := Tensor.range?_spec isRange
              have here : c.strays least extent = false := by
                rw [Tensor.strays_eq_false, Tensor.leaves_eq_false]
                intro e member
                have := covered e member
                dsimp only at low high
                omega
              have later := ih mins sizes others
              unfold Box.strayed at later ⊢
              simpa [here] using later

end Region

section

variable {setting : Realization} {refused : Fault}

theorem Region.readWithin_eq {r : Region} {shape : List Nat} {coordinates : List Tensor}
    (inside : r.box.strayed coordinates = false) :
    r.readWithin refused shape coordinates = .ok (r.read shape coordinates) := by
  rw [readWithin, inside, if_neg Bool.false_ne_true]

theorem readImageWithin_eq : Eval.readImageWithin refused = Eval.readImage := by
  funext source shape coordinates
  unfold Eval.readImageWithin Eval.readImage
  cases checked : Eval.checkImageRead source coordinates with
  | error fault => rfl
  | ok =>
      have axes : (source.data.shape.map fun _ => (0 : Int)).zip source.data.shape =
          source.data.shape.map fun extent => (0, extent) := by
        rw [List.zip_eq_zipWith, List.zipWith_map_left, List.zipWith_self]
      refine (Region.readWithin_eq (Box.strayed_eq_false.2 fun axis member => ?_))
      dsimp only [Region.box] at member
      rw [axes, List.zip_map_right] at member
      obtain ⟨axis, isAxis, rfl⟩ := List.mem_map.1 member
      exact checkImageRead_eq_ok.1 checked axis isAxis

theorem not_slipped {axes : List (Int × Tensor)} {offsets : List Tensor} {extents : List Nat}
    (run : List.Forall₂ (fun axis o => axis.2.offsets axis.1 = .ok o) axes offsets)
    (whole : ∀ o ∈ offsets, o.type.isReal = false)
    (stays : ∀ axis ∈ offsets.zip extents, axis.1.leaves 0 axis.2 = false) :
    (axes.zip (offsets.zip extents)).any (fun ((least, c), offset, extent) =>
      c.reaches least extent && c.slips least extent offset) = false := by
  induction run generalizing extents with
  | nil => rfl
  | @cons axis o _ offsets first _ ih =>
      cases extents with
      | nil => rfl
      | cons extent extents =>
          obtain ⟨least, c⟩ := axis
          have here : (c.reaches least extent && c.slips least extent o) = false := by
            by_cases reaches : c.reaches least extent = true
            · rw [Tensor.not_slips first (whole o (.head _)) (stays (o, extent) (.head _)) reaches,
                Bool.and_false]
            · rw [Bool.not_eq_true] at reaches
              rw [reaches, Bool.false_and]
          have later := ih (fun o member => whole o (.tail _ member))
            fun axis member => stays axis (.tail _ member)
          rw [List.zip_cons_cons, List.zip_cons_cons, List.any_cons, later, Bool.or_false]
          exact here

theorem writeWithin_coincide {id : FuncId} {name : String} {stage : Nat} {indices : List Tensor}
    {value : Tensor} :
    Coincide Fault.NoneBad setting (fun _ => True) (writeUpdate id name stage indices value)
      (writeWithin refused id name stage indices value) := by
  unfold writeUpdate writeWithin
  refine .bind_get fun s before => ?_
  cases s.running.lookup id with
  | none => exact .pure
  | some r =>
      dsimp only
      refine .bind_except (.broadcastAll _) fun out _ => ?_
      refine Coincide.bind_yields (Coincide.mapM (fun _ => .offsets) _)
        ((yields_mapM _).mono (fun _ _ => trivial) (fun _ _ after => after.2) fun _ _ => trivial)
        fun offsets areOffsets => ?_
      cases leaving : Region.leavingAxis? offsets r.values.shape with
      | some axis => exact .throw_bind not_false
      | none =>
          dsimp only
          by_cases real : (offsets.any fun offset => offset.type.isReal) = true
          · rw [if_pos real, if_pos real]
            exact .throw_bind not_false
          · have whole : ∀ o ∈ offsets, o.type.isReal = false := by simpa using real
            rw [if_neg real, if_neg real, if_neg]
            · exact .modify fun _ _ => trivial
            · rw [not_slipped areOffsets whole (leavingAxis_none leaving whole)]
              exact Bool.false_ne_true

theorem writeWithin_eq : writeWithin refused = writeUpdate := by
  funext id name stage indices value setting s
  have same : Coincide Fault.NoneBad setting (fun _ => True)
      (writeUpdate id name stage indices value) (writeWithin refused id name stage indices value) :=
    writeWithin_coincide
  exact (same s trivial).1

def RunsOver (running : List (FuncId × Box)) (s : Realizer) : Prop := boxes s = running

theorem RunsOver.onRunning {running : List (FuncId × Box)} : OnRunning (RunsOver running) :=
  fun _ _ same runs => same.trans runs

theorem RunsOver.absent {running : List (FuncId × Box)} {s : Realizer} {id : FuncId}
    (runs : RunsOver running s) : s.running.lookup id = none ↔ id ∉ running.map Prod.fst := by
  have names : Runs (running.map Prod.fst) s := by
    rw [← runs, Runs, boxes, List.map_map]
    rfl
  exact names.lookup_eq_none

theorem RunsOver.box_eq {running : List (FuncId × Box)} {s : Realizer} {id : FuncId} {box : Box}
    (runs : RunsOver ((id, box) :: running) s) {region : Region} :
    ((s.running.lookup id).getD region).box = box := by
  obtain ⟨entry, rest, isRunning, isEntry, _⟩ := List.map_eq_cons_iff.1 runs
  obtain ⟨owner, r⟩ := entry
  cases isEntry
  rw [isRunning, List.lookup_cons_self]
  rfl

theorem RunsOver.starting {running : List (FuncId × Box)} {id : FuncId}
    (idle : id ∉ running.map Prod.fst) (box : Box) :
    Starting (RunsOver running) (RunsOver ((id, box) :: running)) id box where
  outer := .onRunning
  inner := .onRunning
  starts region s isBox runs := by
    have others := drop_of_absent (runs.absent.2 idle)
    change (id, region.box) :: (drop id s.running).map _ = _
    rw [others, isBox]
    exact congrArg _ runs
  ends s runs := by
    have isFilter : boxes { s with running := drop id s.running } =
        (boxes s).filter fun entry => entry.1 != id := by
      unfold boxes
      rw [List.filter_map]
      rfl
    have others : (running.filter fun entry => entry.1 != id) = running :=
      List.filter_eq_self.2 fun entry member => bne_iff_ne.2 fun same =>
        idle (same ▸ List.mem_map_of_mem member)
    exact isFilter.trans (by rw [runs, List.filter_cons_of_neg (by simp), others])

theorem whileRunning_box {running : List (FuncId × Box)} {id : FuncId} {region : Region}
    {action action' : RealizeM Unit} (idle : id ∉ running.map Prod.fst)
    (same : Coincide Fault.NoneBad setting (RunsOver ((id, region.box) :: running)) action
      action') :
    Yields setting (fun _ => True) (RunsOver running) (whileRunning id region action)
      fun r _ => r.box = region.box := by
  intro s runs
  obtain ⟨_, _, after⟩ := same _ ((RunsOver.starting idle region.box).starts region s rfl runs)
  rw [outcome_whileRunning]
  generalize action.outcome setting _ = outcome at after
  obtain ⟨result, left⟩ := outcome
  cases result with
  | ok _ => exact after.box_eq
  | error fault => trivial

def BoxesWithin (setting : Realization)
    (realizeBox realizeBox' : FuncId → List Int → List Int → RealizeM Region) : Prop :=
  ∀ (running : List (FuncId × Box)) (id : FuncId) (mins sizes : List Int),
    id ∉ running.map Prod.fst →
      Coincide Fault.NoneBad setting (RunsOver running) (realizeBox id mins sizes)
          (realizeBox' id mins sizes) ∧
        Yields setting (fun _ => True) (RunsOver running) (realizeBox id mins sizes) fun r _ =>
          r.box.spans mins sizes = true

variable {realizeBox' realizeBox'' : FuncId → List Int → List Int → RealizeM Region}
  {running : List (FuncId × Box)} {id : FuncId} {mins sizes : List Int}

theorem readWithin_alike (refused : Fault) (within : BoxesWithin setting realizeBox' realizeBox'')
    (running : List (FuncId × Box)) (callee : FuncId) :
    ReadAlike Fault.NoneBad setting (RunsOver running) (readFrom realizeBox')
      (Realizer.readWithin refused realizeBox'') callee := by
  intro shape coordinates
  unfold readFrom Realizer.readWithin
  refine .bind_read (.bind_get fun s runs => ?_)
  cases found : s.running.lookup callee with
  | some region =>
      dsimp only
      cases leaving : (coordinates.zip (region.mins.zip region.values.shape)).findIdx?
          fun (c, least, extent) => c.leaves least extent with
      | some axis => exact .throw not_false
      | none =>
          have inside : region.box.strayed coordinates = false :=
            Box.strayed_eq_false.2 (List.findIdx?_eq_none_iff.1 leaving)
          rw [Region.readWithin_eq inside]
          exact .pure
  | none =>
      dsimp only
      cases areRanges : coordinates.mapM Tensor.range? with
      | none => exact .bind_except (.dtype _) fun _ _ => .pure
      | some ranges =>
          obtain ⟨same, spans⟩ := within running callee (ranges.map Prod.fst)
            (ranges.map fun (least, greatest) => greatest - least + 1) (runs.absent.1 found)
          refine (Coincide.report fun s log runs => runs).bind fun _ => same.bind_yields spans ?_
          intro region spans
          rw [Region.readWithin_eq (Region.not_strayed_of_ranges areRanges spans)]
          exact .pure

theorem compute_box {reader reader' : FuncReader} (idle : id ∉ running.map Prod.fst)
    (alike : ∀ running callee,
      ReadAlike Fault.NoneBad setting (RunsOver running) reader reader' callee) :
    Yields setting (fun _ => True) (RunsOver running) (compute reader id mins sizes) fun r _ =>
      r.box = requestBox mins sizes := by
  unfold compute
  refine .bind_read (.bind_except (fun _ _ => trivial) fun initial _ => ?_)
  dsimp only
  split
  next => exact .throw fun _ _ => trivial
  next =>
    refine (evaluate_coincide (fun callee _ => alike running callee) _).yields.bind fun values => ?_
    refine (whileRunning_box idle (runUpdates_coincide .onRunning (alike _))).mono
      (fun _ runs => runs) (fun _ _ isBox => ?_) fun _ _ => trivial
    exact isBox.trans box_start

theorem fresh_within {reader reader' : FuncReader} (idle : id ∉ running.map Prod.fst)
    (alike : ∀ running callee,
      ReadAlike Fault.NoneBad setting (RunsOver running) reader reader' callee)
    (mins sizes : List Int) :
    Coincide Fault.NoneBad setting (RunsOver running) (fresh reader id mins sizes)
        (fresh reader' id mins sizes) ∧
      Yields setting (fun _ => True) (RunsOver running) (fresh reader id mins sizes) fun r _ =>
        r.box = requestBox mins sizes := by
  constructor
  · rw [fresh_eq_freshWith, fresh_eq_freshWith]
    exact freshWith_coincide (RunsOver.starting idle (requestBox mins sizes))
      (fun _ _ callee _ => alike running callee) fun _ callee => alike _ callee
  · unfold fresh
    refine .bind_read (.bind_report (fun _ _ runs => runs) ?_)
    refine (compute_box idle alike).bind fun region => ?_
    exact .bind_modify (fun _ isBox => isBox) (.pure fun _ isBox => isBox)

theorem realizeBox_within (setting : Realization) (refused : Fault) (depth : Nat) :
    BoxesWithin setting (realizeBox depth) (realizeBoxWithin refused depth) := by
  induction depth with
  | zero =>
      intro running id mins sizes _
      exact ⟨.throw_good not_false, .throw fun _ _ => trivial⟩
  | succ depth ih =>
      intro running id mins sizes idle
      have computed := fresh_within idle (readWithin_alike refused ih)
      unfold realizeBox realizeBoxWithin
      constructor
      · refine .bind_get fun s _ => ?_
        cases s.cache.lookup id with
        | none => exact (computed mins sizes).1
        | some region =>
            dsimp only
            split
            next => exact .pure
            next => exact (computed _ _).1
      · refine .bind_get fun s _ => ?_
        cases s.cache.lookup id with
        | none =>
            refine (computed mins sizes).2.mono (fun _ runs => runs) (fun r _ isBox => ?_)
              fun _ _ => trivial
            rw [isBox]
            exact spans_requestBox mins sizes
        | some region =>
            dsimp only
            split
            next covered => exact .pure fun _ _ => Region.spans_of_covers covered
            next =>
              refine (computed _ _).2.mono (fun _ runs => runs) (fun r _ isBox => ?_)
                fun _ _ => trivial
              rw [isBox]
              exact Region.spans_union region mins sizes

theorem realizeWithin_coincide {mins? : Option (List Int)} (positive : ∀ size ∈ sizes, 0 ≤ size) :
    Coincide Fault.NoneBad setting (RunsOver []) (realize id sizes mins?)
      (realizeWithin refused id sizes mins?) := by
  unfold realize realizeWithin
  refine .bind_read (.bind_except (.dimensions _) fun dimensions _ => ?_)
  dsimp only
  split
  next => exact .throw_bind not_false
  next =>
    obtain ⟨same, spans⟩ := realizeBox_within setting refused (nestingBound setting.program) [] id
      (mins?.getD (sizes.map fun _ => 0)) sizes List.not_mem_nil
    refine same.bind_yields spans fun region spans => ?_
    have inside : (sizes.all fun size => decide (0 ≤ size)) = true := by simpa using positive
    rw [Region.windowWithin, spans, inside]
    exact .pure

/-- What a new realizer becomes when it serves these requests, each with the functions there are at
its time, whether they fail or not. -/
def Request.serveInTurn (history : List (Realization × Request)) : Realizer :=
  history.foldl (fun s entry => (entry.2.serve entry.1 s).2) {}

theorem serve_runsOver (q : Request) {s : Realizer} (runs : RunsOver [] s) :
    RunsOver [] (q.serve setting s).2 := by
  have alike : Coincide Fault.NoneBad setting (RunsOver [])
      (realizeBy (fun program => realizeBox (nestingBound program)) q.id q.sizes q.mins?)
      (realizeBy (fun program => realizeBoxWithin .nestingTooDeep (nestingBound program))
        q.id q.sizes q.mins?) :=
    realizeBy_coincide fun mins sizes =>
      (realizeBox_within setting _ _ [] q.id mins sizes List.not_mem_nil).1
  exact (alike s runs).2.2

theorem serveInTurn_runsOver (history : List (Realization × Request)) :
    RunsOver [] (Request.serveInTurn history) :=
  List.foldlRecOn history _ (motive := RunsOver []) rfl fun _ runs entry _ =>
    serve_runsOver entry.2 runs

/-- Whatever was requested before, a request is served as by a realizer that refuses, with whatever
fault, to read or write outside of an image or a region, and to cut a window that is not inside of
the region. Of updates this is said where the type of the indices reaches over the region. -/
theorem accesses_within (refused : Fault) (history : List (Realization × Request)) {q : Request}
    (positive : ∀ size ∈ q.sizes, 0 ≤ size) :
    Eval.readImageWithin refused = Eval.readImage ∧ writeWithin refused = writeUpdate ∧
      ∀ setting, (realizeWithin refused q.id q.sizes q.mins?).outcome setting
          (Request.serveInTurn history) = q.serve setting (Request.serveInTurn history) :=
  ⟨readImageWithin_eq, writeWithin_eq, fun _ =>
    (realizeWithin_coincide positive _ (serveInTurn_runsOver history)).1⟩

end

namespace Circular

/-- `h` is kept over `[0, 2)`, computed again over `[0, 4)`, written at `1` and read from `1` on. -/
theorem k_from_one : ∃ t, ((realizeWithin .operandCount 3 [3] (some [1])).outcome setting
    (Request.serveInTurn [(setting, ⟨2, [2], none⟩)])).1 = .ok t ∧
      t.data.toList.map Element.toInt = [7, 4, 9] := by
  obtain ⟨_, _, same⟩ := accesses_within .operandCount [(setting, ⟨2, [2], none⟩)]
    (q := ⟨3, [3], some [1]⟩) (by decide)
  have values : ((Request.serve setting ⟨3, [3], some [1]⟩
      (Request.serveInTurn [(setting, ⟨2, [2], none⟩)])).1.toOption.map fun t =>
        t.data.toList.map Element.toInt) = some [7, 4, 9] := by decide +kernel
  rw [same setting]
  generalize Request.serve setting _ _ = outcome at values
  obtain ⟨result, _⟩ := outcome
  cases result with
  | error fault => cases values
  | ok t => exact ⟨t, rfl, Option.some.inj values⟩

end Circular

end ReverseMode
