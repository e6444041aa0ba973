import Mathlib.Logic.Relation
import ReverseMode.Proofs.Realize.Boxes
import ReverseMode.Proofs.Realize.Evaluation

/-!
# Realizing functions

A definite function has aligned updates with steady indices and reads definite functions only, which
never lead back to it. What a realizer keeps of a definite function shows its field, over whatever
boxes and in whatever order functions are realized, also where other functions of the program read
each other in circles and where realizations fail. The partial region of a function, while its
updates run, shows the field that the updates so far have left.
-/

namespace ReverseMode

open Expr Realizer

namespace Realizer

variable {id other : FuncId} {r : Region} {kept : List (FuncId × Region)}

theorem lookup_drop_of_ne (differs : other ≠ id) :
    (drop id kept).lookup other = kept.lookup other := by
  induction kept with
  | nil => rfl
  | cons entry rest ih =>
      obtain ⟨owner, region⟩ := entry
      rw [drop, List.filter_cons]
      by_cases isId : owner = id
      · rw [if_neg (by simp [isId]), List.lookup_cons,
          beq_eq_false_iff_ne.2 (isId ▸ differs)]
        exact ih
      · rw [if_pos (by simpa using isId), List.lookup_cons, List.lookup_cons]
        split
        · rfl
        · exact ih

theorem drop_of_absent (absent : kept.lookup id = none) : drop id kept = kept := by
  refine List.filter_eq_self.2 fun entry member => ?_
  have differs := List.lookup_eq_none_iff.1 absent entry member
  rw [bne_iff_ne]
  intro same
  simp [same] at differs

theorem drop_cons (absent : kept.lookup id = none) : drop id ((id, r) :: kept) = kept := by
  rw [drop, List.filter_cons, if_neg (by simp)]
  exact drop_of_absent absent

theorem lookup_keep (other : FuncId) :
    (keep id r kept).lookup other = if other = id then some r else kept.lookup other := by
  rw [keep, List.lookup_cons]
  by_cases same : other = id
  · rw [beq_iff_eq.2 same, if_pos same]
  · rw [beq_eq_false_iff_ne.2 same, if_neg same]
    exact lookup_drop_of_ne same

end Realizer

def Program.arity (program : Program) (id : FuncId) : Nat := (program.func id).declared.length

def Func.parts (f : Func) : List Expr :=
  f.init.toList.map Definition.value ++ f.updates.flatMap Definition.parts

/-- Calls have as many arguments as they need, and nodes of one identity are one node. -/
structure Program.WellBuilt (program : Program) (r : Registry) : Prop where
  fit : ∀ id, ∀ e ∈ (program.func id).parts, e.CallsFit program.arity
  held : ∀ id, ∀ e ∈ (program.func id).parts, r.Holds e

theorem Func.initial_eq_ok {f : Func} {initial : Definition} (isInitial : f.initial = .ok initial) :
    f.init = some initial ∧ f.declared = initial.args.map Expr.name := by
  unfold Func.initial at isInitial
  split at isInitial
  next defined =>
    cases isInitial
    exact ⟨defined, by rw [Func.declared, defined]⟩
  next => cases isInitial

/-- The updates of the function are aligned and their indices steady, and so are those of all functions
it reads, which never lead back to it. -/
inductive Realization.Definite (setting : Realization) : FuncId → Prop where
  | intro {id : FuncId} : (setting.program.func id).declared.Nodup →
      (∀ update ∈ (setting.program.func id).updates,
        update.Aligned (setting.program.func id).declared ∧
          update.Steady setting.kernels (setting.program.fields setting.kernels) id
            (setting.program.func id).declared) →
      (∀ callee, (setting.program.func id).Reads id callee → Definite setting callee) →
      Definite setting id

namespace Realization.Definite

variable {setting : Realization} {id callee : FuncId}

theorem acc (definite : setting.Definite id) : Acc setting.program.ReadBy id := by
  induction definite with
  | intro _ _ _ ih => exact .intro _ fun callee read => ih callee read

theorem reads (definite : setting.Definite id) (read : setting.program.ReadBy callee id) :
    setting.Definite callee := by
  cases definite with
  | intro _ _ below => exact below callee read

theorem distinct (definite : setting.Definite id) : (setting.program.func id).declared.Nodup := by
  cases definite with
  | intro distinct _ _ => exact distinct

theorem writes (definite : setting.Definite id) : ∀ update ∈ (setting.program.func id).updates,
    update.Aligned (setting.program.func id).declared ∧
      update.Steady setting.kernels (setting.program.fields setting.kernels) id
        (setting.program.func id).declared := by
  cases definite with
  | intro _ writes _ => exact writes

theorem not_circular (definite : setting.Definite id) :
    ¬ Relation.TransGen setting.program.ReadBy id id := by
  have ends := definite.acc.transGen
  clear definite
  intro circle
  induction ends with
  | intro id _ ih => exact ih id circle circle

end Realization.Definite

/-- A realization can start here: the function is not running, and neither is a definite function
that it needs. -/
structure Clear (setting : Realization) (running : List (FuncId × Region)) (id : FuncId) : Prop where
  self : running.lookup id = none
  below : ∀ callee, setting.Definite callee →
    (setting.Definite id → Relation.TransGen setting.program.ReadBy callee id) →
    running.lookup callee = none

theorem Clear.callee {setting : Realization} {running : List (FuncId × Region)} {id callee : FuncId}
    (clear : Clear setting running id) (read : setting.program.ReadBy callee id)
    (absent : running.lookup callee = none) : Clear setting running callee where
  self := absent
  below g definite reached := clear.below g definite fun isDefinite =>
    (reached (isDefinite.reads read)).tail read

theorem Clear.absent {setting : Realization} {running : List (FuncId × Region)} {id callee : FuncId}
    (clear : Clear setting running id) (read : setting.program.ReadBy callee id)
    (definite : setting.Definite id) : running.lookup callee = none :=
  clear.below callee (definite.reads read) fun _ => .single read

theorem Clear.whileRunning {setting : Realization} {running : List (FuncId × Region)}
    {id callee : FuncId} (clear : Clear setting running id) (read : setting.program.ReadBy callee id)
    (absent : ((id, region) :: running).lookup callee = none) :
    Clear setting ((id, region) :: running) callee := by
  have differs : callee ≠ id := by
    rintro rfl
    simp at absent
  have absentBefore : running.lookup callee = none := by
    rwa [List.lookup_cons, beq_eq_false_iff_ne.2 differs] at absent
  refine ⟨absent, fun g definite reached => ?_⟩
  have notSelf : g ≠ id := by
    rintro rfl
    exact definite.not_circular ((reached (definite.reads read)).tail read)
  rw [List.lookup_cons, beq_eq_false_iff_ne.2 notSelf]
  exact (clear.callee read absentBefore).below g definite reached

structure IsRegionOf (program : Program) (kernels : Kernels) (id : FuncId) (region : Region) :
    Prop where
  shows : region.Shows (program.fields kernels id)
  axes : region.mins.length = program.arity id
  addressable : region.box.Addressable

/-- Everything kept of definite functions shows their fields. What is kept of other functions is as
given, if it is given. -/
structure CacheShows (setting : Realization) (frozen : Option (FuncId → Option Region))
    (cache : List (FuncId × Region)) : Prop where
  fields : ∀ id region, cache.lookup id = some region → setting.Definite id →
    IsRegionOf setting.program setting.kernels id region
  others : ∀ kept, frozen = some kept → ∀ id, ¬ setting.Definite id →
    cache.lookup id = kept id

def Consistent (setting : Realization) (frozen : Option (FuncId → Option Region))
    (running : List (FuncId × Region)) (s : Realizer) : Prop :=
  CacheShows setting frozen s.cache ∧ s.running = running

theorem Consistent.thaw {setting : Realization} {frozen : Option (FuncId → Option Region)}
    {running : List (FuncId × Region)} {s : Realizer}
    (consistent : Consistent setting frozen running s) :
    Consistent setting none running s :=
  ⟨⟨consistent.1.fields, fun _ absurd => nomatch absurd⟩, consistent.2⟩

structure Realizable (program : Program) (id : FuncId) (box : Box) : Prop where
  axes : box.mins.length = program.arity id
  regular : box.Regular
  addressable : box.Addressable

structure IsRequest (program : Program) (id : FuncId) (mins sizes : List Int) : Prop where
  axes : mins.length = program.arity id
  regular : mins.length = sizes.length
  addressable : IsAddressable mins sizes

theorem IsRequest.realizable {program : Program} {id : FuncId} {mins sizes : List Int}
    (isRequest : IsRequest program id mins sizes) :
    Realizable program id (requestBox mins sizes) where
  axes := isRequest.axes
  regular := by simpa [requestBox, Box.Regular] using isRequest.regular
  addressable := isRequest.addressable.box

/-- Boxes of functions that are clear are realized, and the running functions stay as they are. A
definite function leaves what is kept of functions that are not. -/
def RealizesBoxes (setting : Realization)
    (realizeBox : FuncId → List Int → List Int → RealizeM Region) : Prop :=
  ∀ id mins sizes frozen running, Clear setting running id →
    (frozen.isSome → setting.Definite id) →
    (setting.Definite id → IsRequest setting.program id mins sizes) →
    Yields setting (Consistent setting frozen running) (Consistent setting frozen running)
      (realizeBox id mins sizes)
      fun region s => Consistent setting frozen running s ∧ (setting.Definite id →
        IsRegionOf setting.program setting.kernels id region ∧ region.covers mins sizes = true)

section

variable {setting : Realization} {realizeBox : FuncId → List Int → List Int → RealizeM Region}
  {frozen : Option (FuncId → Option Region)} {running : List (FuncId × Region)}

theorem AreCoordinates.entry_mem {axes : Nat} {shape : List Nat} {coordinates : List Tensor}
    (areCoordinates : AreCoordinates axes shape coordinates) {c : Tensor} (member : c ∈ coordinates)
    {position : Nat} (within : position < shapeSize shape) : c.entry position ∈ c.data :=
  Tensor.entry_mem ⟨areCoordinates.sound c member, .inr (areCoordinates.shape c member)⟩ within

theorem AreCoordinates.contains {shape : List Nat} {coordinates : List Tensor} (box : Box)
    (areCoordinates : AreCoordinates box.mins.length shape coordinates) (regular : box.Regular)
    (inside : ∀ axis ∈ coordinates.zip (box.mins.zip box.sizes),
      axis.1.leaves axis.2.1 axis.2.2 = false) {position : Nat} (within : position < shapeSize shape) :
    box.Contains (coordinates.map fun c => (c.entry position).toInt) := by
  have sameLength : box.mins.length = box.sizes.length := regular
  refine List.forall₂_map_left_iff.2 (List.forall₂_iff_zip.2 ⟨?_, fun {c axis} member => ?_⟩)
  · simp [areCoordinates.length, ← sameLength]
  · exact Tensor.leaves_eq_false.1 (inside _ member) _
      (areCoordinates.entry_mem (List.of_mem_zip member).1 within)

theorem read_partial {region : Region} {field : Field} {axes : Nat} {shape : List Nat}
    {coordinates : List Tensor} (shows : region.Shows field) (isAxes : region.mins.length = axes)
    (areCoordinates : AreCoordinates axes shape coordinates)
    (inside : ∀ axis ∈ coordinates.zip (region.mins.zip region.values.shape),
      axis.1.leaves axis.2.1 axis.2.2 = false) :
    region.read shape coordinates = field.gather shape coordinates := by
  subst isAxes
  exact shows.read fun i => areCoordinates.contains region.box shows.regular inside

theorem sound_read (region : Region) (shape : List Nat) (coordinates : List Tensor) :
    (region.read shape coordinates).Sound ∧ (region.read shape coordinates).shape = shape := by
  rw [Region.read_eq_gather]
  exact ⟨Tensor.sound_ofFn _ _ _, rfl⟩

theorem isAddressable_ranges {coordinates : List Tensor} {ranges : List (Int × Int)}
    (areRanges : List.Forall₂ (fun c range => c.range? = some range) coordinates ranges)
    (small : ∀ c ∈ coordinates, ∀ e ∈ c.data, -2 ^ 63 ≤ e.toInt ∧ e.toInt < 2 ^ 63) :
    IsAddressable (ranges.map Prod.fst) (ranges.map fun (least, greatest) => greatest - least + 1) := by
  intro axis member
  induction areRanges with
  | nil => cases member
  | @cons c range coordinates ranges isRange _ ih =>
      obtain ⟨smallHere, smallRest⟩ := List.forall_mem_cons.1 small
      rw [List.map_cons, List.map_cons, List.zip_cons_cons, List.mem_cons] at member
      rcases member with rfl | later
      · obtain ⟨_, ⟨low, isEntry, isLow⟩, high, isEntry', isHigh⟩ := Tensor.range?_spec isRange
        have := smallHere low isEntry
        have := smallHere high isEntry'
        dsimp only
        omega
      · exact ih smallRest later

theorem ranges_contain {coordinates : List Tensor} {ranges : List (Int × Int)}
    (areRanges : List.Forall₂ (fun c range => c.range? = some range) coordinates ranges) :
    ∀ axis ∈ coordinates.zip ((ranges.map Prod.fst).zip
      ((ranges.map fun (least, greatest) => greatest - least + 1).map Int.toNat)),
      axis.1.leaves axis.2.1 axis.2.2 = false := by
  intro axis member
  rw [List.map_map, List.zip_map', List.zip_map_right] at member
  obtain ⟨⟨c, least, greatest⟩, paired, rfl⟩ := List.mem_map.1 member
  obtain ⟨covered, _⟩ := Tensor.range?_spec (List.forall₂_zip areRanges paired)
  refine Tensor.leaves_eq_false.2 fun e isEntry => ?_
  have := covered e isEntry
  simp only [Prod.map, id_eq, Function.comp]
  omega

theorem mapM_eq_some {α β : Type} {f : α → Option β} {as : List α} {bs : List β} :
    as.mapM f = some bs ↔ List.Forall₂ (fun a b => f a = some b) as bs := by
  induction as generalizing bs with
  | nil => simp [eq_comm]
  | cons a rest ih =>
      rw [List.mapM_cons, List.forall₂_cons_left_iff]
      simp only [Option.bind_eq_bind, Option.bind_eq_some_iff, ih, Option.pure_def, Option.some.injEq]
      constructor
      · rintro ⟨b, here, bs, later, rfl⟩
        exact ⟨b, bs, here, later, rfl⟩
      · rintro ⟨b, bs, here, later, rfl⟩
        exact ⟨b, here, bs, later, rfl⟩

theorem mapM_eq_none {α β : Type} {f : α → Option β} {as : List α} (failed : as.mapM f = none) :
    ∃ a ∈ as, f a = none := by
  induction as with
  | nil => cases failed
  | cons a rest ih =>
      rw [List.mapM_cons] at failed
      cases here : f a with
      | none => exact ⟨a, .head _, here⟩
      | some b =>
          cases later : rest.mapM f with
          | none =>
              obtain ⟨x, member, isNone⟩ := ih later
              exact ⟨x, .tail _ member, isNone⟩
          | some bs => simp [here, later] at failed



theorem answers_readFrom (boxes : RealizesBoxes setting realizeBox) {callable : FuncId → Prop}
    {trust : Prop} {fields : Fields}
    (known : ∀ id, callable id →
      (∃ region, running.lookup id = some region ∧
        (trust → region.Shows (fields id) ∧ region.mins.length = setting.program.arity id)) ∨
      (Clear setting running id ∧ (frozen.isSome → setting.Definite id) ∧
        (trust → setting.Definite id ∧
          fields id = setting.program.fields setting.kernels id))) :
    Answers setting (Consistent setting frozen running) setting.program.arity callable trust fields
      (readFrom realizeBox) := by
  intro id shape coordinates isCallable areCoordinates
  unfold readFrom
  refine Yields.bind_read (Yields.bind_get fun s consistent => ?_)
  -- A running function is read in its partial region, any other is realized over the indices' ranges.
  rcases known id isCallable with ⟨region, isRunning, shows⟩ | ⟨clear, freezes, definite⟩
  · have found : s.running.lookup id = some region := consistent.2 ▸ isRunning
    rw [found]
    dsimp only
    split
    next => exact .throw fun _ consistent => consistent
    next inside =>
      have inside := List.findIdx?_eq_none_iff.1 (Option.eq_none_iff_forall_ne_some.2 inside)
      refine .pure fun _ consistent => ⟨consistent, (sound_read _ _ _).1, (sound_read _ _ _).2,
        fun trusted => ?_⟩
      exact read_partial (shows trusted).1 (shows trusted).2 areCoordinates inside
  · have absent : s.running.lookup id = none := consistent.2 ▸ clear.self
    rw [absent]
    dsimp only
    split
    next isEmpty =>
      obtain ⟨c, member, noRange⟩ := mapM_eq_none isEmpty
      have nothing : shapeSize shape = 0 := by
        have sound : c.data.size = shapeSize c.shape := areCoordinates.sound c member
        rw [Tensor.range?_eq_none.1 noRange, areCoordinates.shape c member] at sound
        exact sound.symm
      refine Yields.bind_except (fun _ consistent => consistent) fun dtype isType => ?_
      refine .pure fun _ consistent => ⟨consistent, nothing.symm, rfl, fun trusted => ?_⟩
      obtain ⟨isDefinite, isField⟩ := definite trusted
      rw [isField, Program.fields_eq isDefinite.acc, Field.gather, Func.field_type isType]
      refine congrArg (Tensor.mk _ _) (Array.ext (by simp [nothing]) fun i _ bound => ?_)
      simp [nothing] at bound
    next ranges hasRanges =>
      have areRanges := mapM_eq_some.1 hasRanges
      have isAxes : ranges.length = setting.program.arity id :=
        areRanges.length_eq.symm.trans areCoordinates.length
      refine Yields.bind_report (fun _ _ consistent => consistent) ?_
      refine (boxes id _ _ frozen running clear freezes fun _ => ⟨by simpa using isAxes, by simp,
        isAddressable_ranges areRanges areCoordinates.small⟩).bind_fact fun region isRegion => ?_
      refine .pure fun _ consistent => ⟨consistent, (sound_read _ _ _).1, (sound_read _ _ _).2,
        fun trusted => ?_⟩
      obtain ⟨isDefinite, isField⟩ := definite trusted
      obtain ⟨⟨shows, axes, _⟩, covered⟩ := isRegion isDefinite
      rw [isField]
      refine shows.read fun i within => ?_
      refine Region.contains_of_covers shows.regular (by simpa [axes] using isAxes) (by simp) covered ?_
      refine AreCoordinates.contains (requestBox _ _) ?_ ?_ ?_ within
      · simpa [requestBox, isAxes] using areCoordinates
      · simp [requestBox, Box.Regular]
      · exact ranges_contain areRanges

def Holding (setting : Realization) (frozen : Option (FuncId → Option Region))
    (running : List (FuncId × Region)) (id : FuncId) (box : Box) (trust : Prop) (field : Field)
    (s : Realizer) : Prop :=
  CacheShows setting frozen s.cache ∧ ∃ region, s.running = (id, region) :: running ∧
    region.box = box ∧ (trust → region.Shows field)

def StillRuns (setting : Realization) (frozen : Option (FuncId → Option Region))
    (running : List (FuncId × Region)) (id : FuncId) (s : Realizer) : Prop :=
  CacheShows setting frozen s.cache ∧ ∃ region, s.running = (id, region) :: running

theorem Holding.stillRuns {id : FuncId} {box : Box} {trust : Prop} {field : Field} {s : Realizer}
    (holding : Holding setting frozen running id box trust field s) :
      StillRuns setting frozen running id s := by
  obtain ⟨shows, region, runs, _⟩ := holding
  exact ⟨shows, region, runs⟩

theorem Holding.congr {id : FuncId} {box : Box} {trust : Prop} {field field' : Field} {s : Realizer}
    (same : trust → field = field') (holding : Holding setting frozen running id box trust field s) :
    Holding setting frozen running id box trust field' s := by
  obtain ⟨shows, region, runs, isBox, showsField⟩ := holding
  exact ⟨shows, region, runs, isBox, fun trusted => same trusted ▸ showsField trusted⟩

theorem Yields.ofHolding {α : Type} {E : Realizer → Prop} {id : FuncId} {box : Box} {trust : Prop}
    {field : Field} {action : RealizeM α} {Q : α → Realizer → Prop}
    (each : ∀ region : Region, region.box = box → (trust → region.Shows field) →
      Yields setting E (Consistent setting frozen ((id, region) :: running)) action Q) :
    Yields setting E (Holding setting frozen running id box trust field) action Q := by
  rintro s ⟨shows, region, runs, isBox, showsField⟩
  exact each region isBox showsField s ⟨shows, runs⟩

theorem Consistent.stillRuns {id : FuncId} {region : Region} {s : Realizer}
    (consistent : Consistent setting frozen ((id, region) :: running) s) :
      StillRuns setting frozen running id s :=
  ⟨consistent.1, region, consistent.2⟩

theorem yields_mapM {α β : Type} {P : Realizer → Prop} {step : α → Except Fault β} (as : List α) :
    Yields setting P P (as.mapM fun a => (liftM (step a) : RealizeM β)) fun bs s =>
      P s ∧ List.Forall₂ (fun a b => step a = .ok b) as bs := by
  induction as with
  | nil => exact .pure fun _ before => ⟨before, .nil⟩
  | cons a rest ih =>
      rw [List.mapM_cons]
      refine Yields.bind_except (fun _ before => before) fun b here => ?_
      exact ih.bind_fact fun bs later => .pure fun _ before => ⟨before, .cons here later⟩

theorem map_change {id : FuncId} (absent : running.lookup id = none) (region : Region)
    (change : Region → Region) :
    ((id, region) :: running).map
      (fun (owner, r) => if owner = id then (owner, change r) else (owner, r)) =
        (id, change region) :: running := by
  have first : (if id = id then (id, change region) else (id, region)) = (id, change region) :=
    if_pos rfl
  refine congrArg₂ List.cons first ((List.map_congr_left fun entry member => ?_).trans (List.map_id _))
  have differs := List.lookup_eq_none_iff.1 absent entry member
  exact if_neg fun same => by simp [same] at differs

theorem leavingAxis_none {offsets : List Tensor} {extents : List Nat}
    (stays : Region.leavingAxis? offsets extents = none)
    (whole : ∀ o ∈ offsets, o.type.isReal = false) :
    ∀ axis ∈ offsets.zip extents, axis.1.leaves 0 axis.2 = false := by
  intro axis member
  have here := List.findIdx?_eq_none_iff.1 stays axis member
  dsimp only at here
  rwa [if_neg (by simp [whole axis.1 (List.of_mem_zip member).1])] at here

theorem writeUpdate_yields {id : FuncId} {name : String} {stage : Nat} {region : Region}
    {trust : Prop} {field : Field} {value : Tensor} {indices : List Tensor}
    (absent : running.lookup id = none)
    (written : trust → ∀ shape offsets, Tensor.commonShape (indices ++ [value]) = .ok shape →
      List.Forall₂ (fun axis o => axis.2.offsets axis.1 = .ok o)
        (region.mins.zip ((indices ++ [value]).map (Tensor.broadcast shape))) offsets →
      (∀ o ∈ offsets, o.type.isReal = false) →
      (∀ axis ∈ offsets.zip region.values.shape, axis.1.leaves 0 axis.2 = false) →
      (region.store (Region.positions shape (region.values.shape.map fun _ => 0)
        region.values.shape offsets) value).Shows field) :
    Yields setting (StillRuns setting frozen running id)
      (Consistent setting frozen ((id, region) :: running))
      (writeUpdate id name stage indices value) fun _ =>
        Holding setting frozen running id region.box trust field := by
  unfold writeUpdate
  refine Yields.bind_get fun s consistent => ?_
  have found : s.running.lookup id = some region := by simp [consistent.2]
  rw [found]
  dsimp only
  refine Yields.bind_except (fun _ => Consistent.stillRuns) ?_
  rintro ⟨shape, arrays⟩ common
  obtain ⟨isCommon, rfl⟩ := Tensor.broadcastAll_cases common
  refine ((yields_mapM (P := Consistent setting frozen ((id, region) :: running)) _).mono
    (fun _ before => before) (fun _ _ after => after) fun _ => Consistent.stillRuns).bind_fact ?_
  intro offsets areOffsets
  dsimp only
  split
  next => exact .throw fun _ => Consistent.stillRuns
  next stays =>
    split
    next => exact .throw fun _ => Consistent.stillRuns
    next noReal =>
      have whole : ∀ o ∈ offsets, o.type.isReal = false := by simpa using noReal
      have inside := leavingAxis_none (Option.eq_none_iff_forall_ne_some.2 stays) whole
      refine .modify fun s consistent => ⟨consistent.1, region.store _ value, ?_, ?_, fun trusted =>
        written trusted shape offsets isCommon areOffsets whole inside⟩
      · exact consistent.2 ▸ map_change absent region fun region => region.store _ value
      · rw [Region.store_eq]
        rfl

section

variable {r : Registry} {id : FuncId} (wellBuilt : setting.program.WellBuilt r)
  (boxes : RealizesBoxes setting realizeBox) (clear : Clear setting running id)
  (freezes : frozen.isSome → setting.Definite id)

include boxes clear freezes in
theorem answers_update {update : Definition} (isUpdate : update ∈ (setting.program.func id).updates)
    {region : Region} {field : Field} (shows : setting.Definite id →
      region.Shows field ∧ region.mins.length = setting.program.arity id) :
    Answers setting (Consistent setting frozen ((id, region) :: running)) setting.program.arity
      (fun callee => ∃ e ∈ update.parts, e.Calls callee) (setting.Definite id)
      (Function.update (setting.program.fields setting.kernels) id field) (readFrom realizeBox) := by
  refine answers_readFrom boxes fun callee ⟨e, isPart, called⟩ => ?_
  by_cases isSelf : callee = id
  · subst isSelf
    exact .inl ⟨region, by simp, fun trusted => by simpa using shows trusted⟩
  · have read : setting.program.ReadBy callee id := .inr ⟨update, isUpdate, e, isPart, called, isSelf⟩
    cases found : ((id, region) :: running).lookup callee with
    | some other =>
        refine .inl ⟨other, rfl, fun trusted => ?_⟩
        rw [List.lookup_cons, beq_eq_false_iff_ne.2 isSelf, clear.absent read trusted] at found
        cases found
    | none => exact .inr ⟨clear.whileRunning read found, fun frozen => (freezes frozen).reads read,
        fun trusted => ⟨trusted.reads read, Function.update_of_ne isSelf _ _⟩⟩

include wellBuilt in
theorem readable_part {trust : Prop} {update : Definition}
    (isUpdate : update ∈ (setting.program.func id).updates) {e : Expr} (isPart : e ∈ update.parts) :
    e.Readable setting.program.arity (fun callee => ∃ e ∈ update.parts, e.Calls callee) trust r :=
  have among : e ∈ (setting.program.func id).parts :=
    List.mem_append_right _ (List.mem_flatMap.2 ⟨update, isUpdate, isPart⟩)
  ⟨fun _ => wellBuilt.held id e among, fun _ called => ⟨e, isPart, called⟩, wellBuilt.fit id e among⟩

include wellBuilt in
theorem readable_bounds {trust : Prop} {update : Definition}
    (isUpdate : update ∈ (setting.program.func id).updates) : ∀ entry ∈ reductionRanges update,
      entry.2.1.Readable setting.program.arity (fun callee => ∃ e ∈ update.parts, e.Calls callee)
          trust r ∧
        entry.2.2.Readable setting.program.arity (fun callee => ∃ e ∈ update.parts, e.Calls callee)
          trust r := by
  intro entry member
  have isPart {e : Expr} (isBound : e ∈ [entry.2.1, entry.2.2]) : e ∈ update.parts :=
    List.mem_append_right _ (List.mem_flatMap.2 ⟨entry, member, isBound⟩)
  exact ⟨readable_part wellBuilt isUpdate (isPart (.head _)),
    readable_part wellBuilt isUpdate (isPart (.tail _ (.head _)))⟩

include wellBuilt boxes clear freezes in
theorem updateAt_yields {update : Definition} (isUpdate : update ∈ (setting.program.func id).updates)
    {name : String} {stage : Nat} {box : Box} {field : Field} {values : List Int}
    (writable : setting.Definite id → update.Writable setting.kernels
      (Function.update (setting.program.fields setting.kernels) id field)
      (setting.program.func id).declared values box) :
    Yields setting (StillRuns setting frozen running id)
      (Holding setting frozen running id box (setting.Definite id) field)
      (updateAt (readFrom realizeBox) id name stage update
        (.ofIndex ((reductionRanges update).map Prod.fst) values ++
          (setting.program.func id).declared.zip box.coordinates))
      fun _ => Holding setting frozen running id box (setting.Definite id)
        (field.step setting.kernels
          (Function.update (setting.program.fields setting.kernels) id field)
          (setting.program.func id).declared update
          (.ofIndex ((reductionRanges update).map Prod.fst) values)) := by
  refine Yields.ofHolding fun region isBox shows => ?_
  subst isBox
  have answers := answers_update boxes clear freezes isUpdate fun trusted =>
    ⟨shows trusted, (writable trusted).axes⟩
  have fits := (Environment.fits_ofIndex region.box.sizes ((reductionRanges update).map Prod.fst)
    values).append (Environment.fits_coordinates (setting.program.func id).declared region.box)
  have readable : ∀ e ∈ update.value :: update.args, e.Readable setting.program.arity
      (fun callee => ∃ e ∈ update.parts, e.Calls callee) (setting.Definite id) r :=
    fun e member => readable_part wellBuilt isUpdate (List.mem_append_left _ member)
  refine ((evalBoth_yields answers readable fits).mono (fun _ before => before)
    (fun _ _ after => after) fun _ => Consistent.stillRuns).bind_fact ?_
  rintro ⟨⟨value, indices⟩, _⟩ ⟨isValue, areIndices⟩
  refine writeUpdate_yields clear.self fun trusted shape offsets common areOffsets whole inside => ?_
  exact Writes.shows (writable trusted) ⟨isValue.2 trusted,
    Fields.evalAll_eq_ok.2 (areIndices.imp fun _ _ value => value.2 trusted), common, areOffsets, whole,
    inside⟩ (shows trusted)

theorem concrete_yields {P : Realizer → Prop} {callable : FuncId → Prop} {trust : Prop}
    {fields : Fields} {arity : FuncId → Nat} {reader : FuncReader}
    (answers : Answers setting P arity callable trust fields reader) {e : Expr}
    (readable : e.Readable arity callable trust r) :
    Yields setting P P (concrete reader e) fun i s =>
      P s ∧ (trust → (fields.eval setting.kernels [] e >>= wholeNumber) = .ok i) := by
  unfold concrete
  split
  next => exact .throw fun _ before => before
  next =>
    have fits : Environment.Fits [] [] := fun _ absurd => nomatch absurd
    refine (evaluate_yields answers readable fits).bind_fact fun t isValue => ?_
    exact .ofExcept (fun i isInteger s before => ⟨before, fun trusted =>
      Except.bind_ok.2 ⟨t, isValue.2 trusted, isInteger⟩⟩) fun _ before => before

theorem concreteRanges_yields {P : Realizer → Prop} {callable : FuncId → Prop} {trust : Prop}
    {fields : Fields} {arity : FuncId → Nat} {reader : FuncReader}
    (answers : Answers setting P arity callable trust fields reader)
    {entries : List (String × Expr × Expr)}
    (readable : ∀ entry ∈ entries, entry.2.1.Readable arity callable trust r ∧
      entry.2.2.Readable arity callable trust r) :
    Yields setting P P (concreteRanges reader entries) fun ranges s =>
      P s ∧ ranges.map Prod.fst = entries.map Prod.fst ∧
        (trust → Field.ranges setting.kernels fields entries = .ok ranges) := by
  induction entries with
  | nil => exact .pure fun _ before => ⟨before, rfl, fun _ => rfl⟩
  | cons entry rest ih =>
      obtain ⟨name, least, extent⟩ := entry
      obtain ⟨isLeast, isExtent⟩ := readable _ (.head _)
      unfold concreteRanges
      refine (concrete_yields answers isLeast).bind_fact fun start isStart => ?_
      refine (concrete_yields answers isExtent).bind_fact fun count isCount => ?_
      refine (ih fun entry member => readable entry (.tail _ member)).bind_fact ?_
      intro ranges ⟨names, areRanges⟩
      refine .pure fun _ before => ⟨before, by simp [names], fun trusted => ?_⟩
      simp only [Field.ranges, isStart trusted, isCount trusted, areRanges trusted]
      rfl

include wellBuilt boxes clear freezes in
theorem runUpdate_yields {update : Definition}
    (isUpdate : update ∈ (setting.program.func id).updates) {name : String} {stage : Nat} {box : Box}
    {field : Field}
    (realizable : setting.Definite id → Realizable setting.program id box) :
    Yields setting (StillRuns setting frozen running id)
      (Holding setting frozen running id box (setting.Definite id) field)
      (Realizer.runUpdate (readFrom realizeBox) id name
        ((setting.program.func id).declared.zip box.coordinates) stage update)
      fun _ => Holding setting frozen running id box (setting.Definite id)
        (field.run setting.kernels (setting.program.fields setting.kernels) id
          (setting.program.func id).declared update) := by
  unfold Realizer.runUpdate
  refine Yields.bind_fact
    (M := Holding setting frozen running id box (setting.Definite id) field)
    (F := fun ranges => ranges.map Prod.fst = (reductionRanges update).map Prod.fst ∧
      (setting.Definite id → Field.ranges setting.kernels
        (Function.update (setting.program.fields setting.kernels) id field) (reductionRanges update) =
          .ok ranges)) ?_ ?_
  · refine Yields.ofHolding fun region isBox shows => ?_
    have answers := answers_update boxes clear freezes isUpdate fun trusted =>
      ⟨shows trusted, (congrArg (fun b : Box => b.mins.length) isBox).trans (realizable trusted).axes⟩
    refine (concreteRanges_yields answers (readable_bounds wellBuilt isUpdate)).mono
      (fun _ before => before) ?_ fun _ => Consistent.stillRuns
    rintro ranges s ⟨consistent, found⟩
    exact ⟨⟨consistent.1, region, consistent.2, isBox, shows⟩, found⟩
  · intro ranges ⟨names, areRanges⟩
    dsimp only
    rw [names]
    refine (Yields.forEach (fun point chosen field =>
      updateAt_yields wellBuilt boxes clear freezes isUpdate
      fun trusted => ⟨(trusted.writes update isUpdate).1,
        (trusted.writes update isUpdate).2 _ ranges (areRanges trusted) point chosen field,
        trusted.distinct, ?_, (realizable trusted).axes, (realizable trusted).regular,
        (realizable trusted).addressable⟩)
      field).bind fun _ => .pure fun _ => Holding.congr fun trusted => ?_
    · have sameLength := congrArg List.length names
      rw [List.length_map, List.length_map] at sameLength
      rw [length_of_mem_points chosen, List.length_map, sameLength]
    · rw [Field.run, areRanges trusted]
      dsimp only
      rw [names]

include wellBuilt boxes clear freezes in
theorem runUpdates_yields {box : Box} (name : String) (updates : List (Definition × Nat))
    (realizable : setting.Definite id → Realizable setting.program id box)
    (among : ∀ entry ∈ updates, entry.1 ∈ (setting.program.func id).updates) (field : Field) :
    Yields setting (StillRuns setting frozen running id)
      (Holding setting frozen running id box (setting.Definite id) field)
      (Realizer.runUpdates (readFrom realizeBox) id name
        ((setting.program.func id).declared.zip box.coordinates) updates)
      fun _ => Holding setting frozen running id box (setting.Definite id)
        ((updates.map Prod.fst).foldl (fun field update =>
          field.run setting.kernels (setting.program.fields setting.kernels) id
            (setting.program.func id).declared update) field) := by
  induction updates generalizing field with
  | nil => exact .pure fun _ before => before
  | cons entry rest ih =>
      obtain ⟨update, stage⟩ := entry
      unfold Realizer.runUpdates
      refine (runUpdate_yields wellBuilt boxes clear freezes
        (among _ (.head _)) realizable).bind fun _ => ?_
      exact ih (fun entry member => among entry (.tail _ member)) _

theorem whileRunning_yields {action : RealizeM Unit} {region : Region} {box : Box} {trust : Prop}
    {field field' : Field} (absent : running.lookup id = none) (isBox : region.box = box)
    (shows : trust → region.Shows field)
    (run : Yields setting (StillRuns setting frozen running id)
      (Holding setting frozen running id box trust field)
      action fun _ => Holding setting frozen running id box trust field') :
    Yields setting (Consistent setting frozen running) (Consistent setting frozen running)
      (whileRunning id region action)
      fun left s => Consistent setting frozen running s ∧ left.box = box ∧
        (trust → left.Shows field') := by
  unfold whileRunning
  refine Yields.bind_modify (M := Holding setting frozen running id box trust field) ?_ ?_
  · rintro s ⟨cache, rfl⟩
    exact ⟨cache, region, congrArg (List.cons _) (drop_of_absent absent), isBox, shows⟩
  have ends (s : Realizer) (still : StillRuns setting frozen running id s) :
      Consistent setting frozen running { s with running := drop id s.running } := by
    obtain ⟨cache, left, runs⟩ := still
    exact ⟨cache, runs ▸ drop_cons absent⟩
  refine (Yields.tryCatch run fun fault => ?_).bind fun _ => .modifyGet ?_
  · exact Yields.bind (Q := fun _ => Consistent setting frozen running) (.modifyGet ends) fun _ =>
      .throw fun _ consistent => consistent
  · intro s holding
    have still := holding.stillRuns
    obtain ⟨_, left, runs, isLeft, showsLeft⟩ := holding
    have found : (s.running.lookup id).getD region = left := by simp [runs]
    dsimp only
    rw [found]
    exact ⟨ends s still, isLeft, showsLeft⟩

include boxes clear freezes in
theorem answers_initial {initial : Definition}
    (defined : (setting.program.func id).init = some initial) :
    Answers setting (Consistent setting frozen running) setting.program.arity initial.value.Calls
      (setting.Definite id) (setting.program.fields setting.kernels)
      (readFrom realizeBox) := by
  refine answers_readFrom boxes fun callee called => ?_
  have read : setting.program.ReadBy callee id := .inl ⟨initial, defined, called⟩
  cases found : running.lookup callee with
  | some other =>
      refine .inl ⟨other, rfl, fun trusted => ?_⟩
      rw [clear.absent read trusted] at found
      cases found
  | none => exact .inr ⟨clear.callee read found, fun frozen => (freezes frozen).reads read,
      fun trusted => ⟨trusted.reads read, rfl⟩⟩

include wellBuilt boxes clear freezes in
theorem compute_yields {mins sizes : List Int}
    (isRequest : setting.Definite id → IsRequest setting.program id mins sizes) :
    Yields setting (Consistent setting frozen running) (Consistent setting frozen running)
      (compute (readFrom realizeBox) id mins sizes) fun region s =>
        Consistent setting frozen running s ∧
        region.box = requestBox mins sizes ∧ (setting.Definite id →
          region.Shows (setting.program.fields setting.kernels id)) := by
  unfold compute
  refine Yields.bind_read ?_
  refine Yields.bind_except (fun _ consistent => consistent) fun initial isInitial => ?_
  obtain ⟨defined, declared⟩ := Func.initial_eq_ok isInitial
  rw [← declared]
  dsimp only
  split
  · exact fun _ consistent => consistent
  have among : initial.value ∈ (setting.program.func id).parts := by
    simp [Func.parts, defined]
  refine (evaluate_yields (answers_initial boxes clear freezes defined)
    ⟨fun _ => wellBuilt.held id _ among, fun _ called => called, wellBuilt.fit id _ among⟩
    (Environment.fits_coordinates _ (requestBox mins sizes))).bind_fact fun values isValue => ?_
  have shows := fun trusted =>
    Region.shows_initial (isRequest trusted).realizable.regular (isValue.2 trusted)
  have isBox : (⟨mins, (values.convert (.ofDType initial.value.dtype)).broadcast
      (sizes.map Int.toNat)⟩ : Region).box = requestBox mins sizes :=
    congrArg (Box.mk mins) (Tensor.broadcast_shape _ _)
  have updates := runUpdates_yields wellBuilt boxes clear freezes (setting.program.func id).name
    (setting.program.func id).updates.zipIdx
    (fun trusted => (isRequest trusted).realizable) fun entry => List.fst_mem_of_mem_zipIdx
  refine (whileRunning_yields clear.self isBox shows (updates _)).mono (fun _ before => before) ?_
    fun _ failed => failed
  rintro region s ⟨consistent, isRequest, shows⟩
  refine ⟨consistent, isRequest, fun trusted => ?_⟩
  rw [Program.fields_eq trusted.acc, Func.field, defined]
  have := shows trusted
  rw [List.zipIdx_map_fst] at this
  exact this

end

variable {r : Registry} (wellBuilt : setting.program.WellBuilt r)

include wellBuilt in
theorem fresh_yields (boxes : RealizesBoxes setting realizeBox)
    {frozen : Option (FuncId → Option Region)} {running : List (FuncId × Region)} {id : FuncId}
    (clear : Clear setting running id) (freezes : frozen.isSome → setting.Definite id)
    {mins sizes : List Int}
    (isRequest : setting.Definite id → IsRequest setting.program id mins sizes) :
    Yields setting (Consistent setting frozen running) (Consistent setting frozen running)
      (fresh (readFrom realizeBox) id mins sizes) fun region s => Consistent setting frozen running s ∧
        region.box = requestBox mins sizes ∧ (setting.Definite id →
          IsRegionOf setting.program setting.kernels id region) := by
  unfold fresh
  refine Yields.bind_read (Yields.bind_report (fun _ _ consistent => consistent) ?_)
  refine (compute_yields wellBuilt boxes clear freezes isRequest).bind_fact ?_
  intro region ⟨isBox, shows⟩
  have isRegion (definite : setting.Definite id) :
      IsRegionOf setting.program setting.kernels id region :=
    ⟨shows definite, (congrArg (fun box : Box => box.mins.length) isBox).trans
      (isRequest definite).axes,
      isBox ▸ (isRequest definite).realizable.addressable⟩
  refine Yields.bind_modify (M := Consistent setting frozen running) ?_
    (.pure fun _ consistent => ⟨consistent, isBox, isRegion⟩)
  rintro s ⟨cache, runs⟩
  refine ⟨⟨fun other kept found definite => ?_, fun kept isFrozen other indefinite => ?_⟩, runs⟩
  · rw [lookup_keep] at found
    split at found
    next same =>
      cases found
      exact same ▸ isRegion (same ▸ definite)
    next => exact cache.fields other kept found definite
  · have differs : other ≠ id := by
      rintro rfl
      exact indefinite (freezes (by simp [isFrozen]))
    rw [lookup_keep, if_neg differs]
    exact cache.others kept isFrozen other indefinite

include wellBuilt in
theorem realizeBox_yields (depth : Nat) : RealizesBoxes setting (Realizer.realizeBox depth) := by
  induction depth with
  | zero =>
      intro id mins sizes frozen running _ _ _
      unfold Realizer.realizeBox
      exact .throw fun _ consistent => consistent
  | succ depth ih =>
      intro id mins sizes frozen running clear freezes isRequest
      unfold Realizer.realizeBox
      refine Yields.bind_get fun s consistent => ?_
      dsimp only
      split
      next region known =>
        have isRegion := consistent.1.fields id region known
        split
        next covered => exact .pure fun _ consistent =>
          ⟨consistent, fun definite => ⟨isRegion definite, covered⟩⟩
        next =>
          have union := fun definite => Region.union_spec (isRegion definite).shows.regular
            ((isRequest definite).axes.trans (isRegion definite).axes.symm)
            (isRequest definite).regular (isRegion definite).addressable
            (isRequest definite).addressable
          have isUnion (definite : setting.Definite id) :
              IsRequest setting.program id (region.union mins sizes).1 (region.union mins sizes).2 := by
            obtain ⟨isMins, isSizes, addressable, _⟩ := union definite
            exact ⟨isMins.trans (isRequest definite).axes, isMins.trans isSizes.symm, addressable⟩
          refine (fresh_yields wellBuilt ih clear freezes isUnion).mono (fun _ before => before) ?_
            fun _ failed => failed
          rintro ⟨least, type, shape, data⟩ s ⟨consistent, isBox, isRegion⟩
          cases isBox
          exact ⟨consistent, fun definite => ⟨isRegion definite, (union definite).2.2.2 type data⟩⟩
      next =>
        refine (fresh_yields wellBuilt ih clear freezes isRequest).mono (fun _ before => before) ?_
          fun _ failed => failed
        rintro region s ⟨consistent, isBox, isRegion⟩
        exact ⟨consistent, fun definite =>
          ⟨isRegion definite, Region.covers_request (isRequest definite).regular isBox⟩⟩

end

end ReverseMode
