import ReverseMode.Proofs.Realize.Abreast

namespace ReverseMode

open Expr Realizer

theorem RealizeM.outcome_read {α : Type} {setting : Realization} {s : Realizer}
    {rest : Realization → RealizeM α} :
    (readThe Realization >>= rest).outcome setting s = (rest setting).outcome setting s := rfl

theorem RealizeM.outcome_get {α : Type} {setting : Realization} {s : Realizer}
    {rest : Realizer → RealizeM α} :
    (getThe Realizer >>= rest).outcome setting s = (rest s).outcome setting s := rfl

theorem RealizeM.outcome_ok {α β : Type} {setting : Realization} {s : Realizer} {a : α}
    {rest : α → RealizeM β} :
    ((liftM (.ok a : Except Fault α) : RealizeM α) >>= rest).outcome setting s =
      (rest a).outcome setting s := rfl

namespace Realizer

def computeUpTo (readFunc : FuncReader) (id : FuncId) (count : Nat) (mins sizes : List Int) :
    RealizeM Region := do
  let f := (← readThe Realization).program.func id
  let initial ← (f.initial : RealizeM Definition)
  let box : Box := ⟨mins, sizes.map Int.toNat⟩
  if sizes.any (· < 0) then throw .negativeExtent
  let env : Environment := (initial.args.map Expr.name).zip box.coordinates
  let values ← initial.value.evaluate readFunc env
  let type := ElementType.ofDType initial.value.dtype
  let start : Region := ⟨mins, (values.convert type).broadcast box.sizes⟩
  whileRunning id start (runUpdates readFunc id f.name env (f.updates.take count).zipIdx)

def freshUpTo (readFunc : FuncReader) (id : FuncId) (count : Nat) (mins sizes : List Int) :
    RealizeM Region := do
  let f := (← readThe Realization).program.func id
  let box := s!"mins={bracketed (mins.map toString)} sizes={bracketed (sizes.map toString)}"
  RealizeM.reportLine Tracing.execution s!"[Realizer._realize_box] {f.name} {box}"
  let region ← computeUpTo readFunc id count mins sizes
  modifyThe Realizer fun state => { state with cache := keep id region state.cache }
  return region

def realizeUpTo (id : FuncId) (count : Nat) (sizes : List Int) (mins? : Option (List Int)) :
    RealizeM Tensor := do
  let program := (← readThe Realization).program
  let f := program.func id
  let mins := mins?.getD (sizes.map fun _ => 0)
  let dimensions ← (f.dimensions : RealizeM Nat)
  if sizes.length ≠ dimensions ∨ mins.length ≠ dimensions then
    throw (.boxArity f.name dimensions sizes mins)
  let region ← freshUpTo (readFrom (realizeBox (nestingBound program - 1))) id count mins sizes
  return region.window mins sizes

theorem computeUpTo_all {setting : Realization} {readFunc : FuncReader} {id : FuncId} {count : Nat}
    {mins sizes : List Int} (enough : (setting.program.func id).updates.length ≤ count)
    (s : Realizer) : (computeUpTo readFunc id count mins sizes).outcome setting s =
      (compute readFunc id mins sizes).outcome setting s := by
  unfold computeUpTo compute
  rw [RealizeM.outcome_read, RealizeM.outcome_read]
  simp only [List.take_of_length_le enough]

theorem outcome_freshUpTo {setting : Realization} {readFunc : FuncReader} {id : FuncId} {count : Nat}
    {mins sizes : List Int} (enough : (setting.program.func id).updates.length ≤ count)
    (s : Realizer) : (freshUpTo readFunc id count mins sizes).outcome setting s =
      (fresh readFunc id mins sizes).outcome setting s := by
  unfold freshUpTo fresh
  rw [RealizeM.outcome_read, RealizeM.outcome_read, RealizeM.outcome_bind, RealizeM.outcome_bind]
  split
  next =>
    rw [RealizeM.outcome_bind, RealizeM.outcome_bind, computeUpTo_all enough]
  next => rfl

theorem outcome_realizeBox {setting : Realization} {depth : Nat} {id : FuncId} {mins sizes : List Int}
    {s : Realizer} (unknown : s.cache.lookup id = none) :
    (realizeBox (depth + 1) id mins sizes).outcome setting s =
      (fresh (readFrom (realizeBox depth)) id mins sizes).outcome setting s := by
  unfold realizeBox
  rw [RealizeM.outcome_get, unknown]

theorem realizeUpTo_all {setting : Realization} {id : FuncId} {count : Nat} {sizes : List Int}
    {mins? : Option (List Int)} {s : Realizer}
    (enough : (setting.program.func id).updates.length ≤ count) (unknown : s.cache.lookup id = none) :
    (realizeUpTo id count sizes mins?).outcome setting s =
      (realize id sizes mins?).outcome setting s := by
  unfold realizeUpTo realize
  rw [RealizeM.outcome_read, RealizeM.outcome_read]
  dsimp only
  cases (setting.program.func id).dimensions with
  | error fault => rfl
  | ok dimensions =>
      rw [RealizeM.outcome_ok, RealizeM.outcome_ok]
      split
      next => rfl
      next =>
        rw [RealizeM.outcome_bind, RealizeM.outcome_bind, outcome_freshUpTo enough, nestingBound,
          outcome_realizeBox unknown, Nat.add_sub_cancel]

variable {g h : FuncId} {r : Region} {kept : List (FuncId × Region)}

theorem lookup_drop : (drop g kept).lookup h = if h = g then none else kept.lookup h := by
  by_cases same : h = g
  · rw [if_pos same, same, List.lookup_eq_none_iff]
    intro entry member
    have differs : (entry.1 != g) = true := (List.mem_filter.1 member).2
    exact bne_iff_ne.2 (bne_iff_ne.1 differs).symm
  · rw [if_neg same, lookup_drop_of_ne same]

theorem lookup_map {change : FuncId × Region → FuncId × Region} {f : Region → Region}
    (isChange : ∀ owner region,
      change (owner, region) = if owner = g then (owner, f region) else (owner, region)) :
    (kept.map change).lookup h = if h = g then (kept.lookup h).map f else kept.lookup h := by
  induction kept with
  | nil => simp
  | cons entry rest ih =>
      obtain ⟨owner, region⟩ := entry
      rw [List.map_cons, isChange, List.lookup_cons]
      by_cases isOwner : owner = g
      · rw [if_pos isOwner, List.lookup_cons]
        by_cases same : h = owner
        · rw [beq_iff_eq.2 same, if_pos (same.trans isOwner)]
          rfl
        · rw [beq_eq_false_iff_ne.2 same]
          exact ih
      · rw [if_neg isOwner, List.lookup_cons]
        by_cases same : h = owner
        · rw [beq_iff_eq.2 same, if_neg (same ▸ isOwner)]
        · rw [beq_eq_false_iff_ne.2 same]
          exact ih

end Realizer

theorem standIn_inj {id copy g h : FuncId} (notCopy : g ≠ copy) (notCopy' : h ≠ copy) :
    standIn id copy h = standIn id copy g ↔ h = g := by
  constructor
  · intro same
    unfold standIn at same
    split at same <;> split at same
    next isId isId' => rw [isId, isId']
    next => exact absurd same.symm notCopy
    next => exact absurd same notCopy'
    next => exact same
  · rintro rfl
    rfl

theorem biUnique_eq : Relator.BiUnique (Eq : NodeId → NodeId → Prop) :=
  ⟨fun _ _ _ left right => left.trans right.symm, fun _ _ _ left right => left.symm.trans right⟩

/-- The stand-in runs where the function runs, with the same partial region, and all other functions
run and are kept alike. -/
structure Beside (id copy : FuncId) (busy : Prop) (s s' : Realizer) : Prop where
  running : ∀ g, g ≠ copy → s'.running.lookup (standIn id copy g) = s.running.lookup g
  cache : ∀ g, g ≠ id → g ≠ copy → s'.cache.lookup g = s.cache.lookup g
  busy : busy → (s.running.lookup id).isSome

namespace Beside

variable {id copy g : FuncId} {busy : Prop} {s s' : Realizer}

theorem withLog (beside : Beside id copy busy s s') (log log' : Array String) :
    Beside id copy busy { s with log } { s' with log := log' } :=
  ⟨beside.running, beside.cache, beside.busy⟩

theorem keep (beside : Beside id copy busy s s') (notCopy : g ≠ copy) (region : Region) :
    Beside id copy (busy ∨ g = id) { s with running := Realizer.keep g region s.running }
      { s' with running := Realizer.keep (standIn id copy g) region s'.running } where
  running h notCopy' := by
    rw [lookup_keep, lookup_keep, beside.running h notCopy']
    simp only [standIn_inj notCopy notCopy']
  cache := beside.cache
  busy isBusy := by
    rw [lookup_keep]
    split
    next => rfl
    next other => exact beside.busy (isBusy.resolve_right fun same => other same.symm)

theorem drop (beside : Beside id copy busy s s') (notCopy : g ≠ copy) :
    Beside id copy (busy ∧ g ≠ id) { s with running := Realizer.drop g s.running }
      { s' with running := Realizer.drop (standIn id copy g) s'.running } where
  running h notCopy' := by
    rw [lookup_drop, lookup_drop, beside.running h notCopy']
    simp only [standIn_inj notCopy notCopy']
  cache := beside.cache
  busy isBusy := by
    rw [lookup_drop, if_neg isBusy.2.symm]
    exact beside.busy isBusy.1

theorem store (beside : Beside id copy busy s s') (notCopy : g ≠ copy) (f : Region → Region)
    {change change' : FuncId × Region → FuncId × Region}
    (isChange : ∀ owner region,
      change (owner, region) = if owner = g then (owner, f region) else (owner, region))
    (isChange' : ∀ owner region, change' (owner, region) =
      if owner = standIn id copy g then (owner, f region) else (owner, region)) :
    Beside id copy busy { s with running := s.running.map change }
      { s' with running := s'.running.map change' } where
  running h notCopy' := by
    rw [lookup_map isChange, lookup_map isChange', beside.running h notCopy']
    simp only [standIn_inj notCopy notCopy']
  cache := beside.cache
  busy isBusy := by
    rw [lookup_map isChange]
    split
    next => simpa using beside.busy isBusy
    next => exact beside.busy isBusy

theorem keepCache (beside : Beside id copy busy s s') (region : Region) :
    Beside id copy busy { s with cache := Realizer.keep g region s.cache }
      { s' with cache := Realizer.keep g region s'.cache } where
  running := beside.running
  cache h notId notCopy := by rw [lookup_keep, lookup_keep, beside.cache h notId notCopy]
  busy := beside.busy

end Beside

/-- An update that mirrors another one and runs at the same points. -/
structure MirroredUpdate (id copy : FuncId) (u u' : Definition) : Prop where
  parts : ∃ R, Relator.BiUnique R ∧ Mirrored id copy R u.value u'.value ∧
    List.Forall₂ (Mirrored id copy R) u.args u'.args
  ranges : reductionRanges u' = reductionRanges u
  bounds : ∀ entry ∈ reductionRanges u, ¬ entry.2.1.Calls id ∧ ¬ entry.2.2.Calls id

section

variable {setting : Realization} {id copy g : FuncId} {busy : Prop}
  {realizeBox : FuncId → List Int → List Int → RealizeM Region} {reader : FuncReader}

theorem Abreast.bind_ok {α γ δ : Type} {P : Realizer → Realizer → Prop} {a : α}
    {rest : α → RealizeM γ} {rest' : α → RealizeM δ} {Q : γ → δ → Realizer → Realizer → Prop}
    (second : Abreast setting P (rest a) (rest' a) Q) :
    Abreast setting P (liftM (.ok a : Except Fault α) >>= rest)
      (liftM (.ok a : Except Fault α) >>= rest') Q := second

theorem readBusy_abreast (isBusy : busy) (other : id ≠ copy) :
    ReadAbreast setting (Beside id copy busy) id copy (readFrom realizeBox) (readFrom realizeBox)
      id := by
  intro shape coordinates
  unfold readFrom
  refine .bind_read (.bind_get fun s s' beside => ?_)
  obtain ⟨region, isRunning⟩ := Option.isSome_iff_exists.1 (beside.busy isBusy)
  rw [beside.running id other, isRunning]
  dsimp only
  split
  next => exact .throw
  next => exact .pure fun _ _ before => ⟨rfl, before⟩

theorem readOther_abreast (notId : g ≠ id) (notCopy : g ≠ copy)
    (boxes : ∀ mins sizes, Abreast setting (Beside id copy busy) (realizeBox g mins sizes)
      (realizeBox g mins sizes) (Same (Beside id copy busy))) :
    ReadAbreast setting (Beside id copy busy) id copy (readFrom realizeBox) (readFrom realizeBox)
      g := by
  intro shape coordinates
  rw [standIn_of_ne notId]
  unfold readFrom
  refine .bind_read (.bind_get fun s s' beside => ?_)
  have sameRunning := beside.running g notCopy
  rw [standIn_of_ne notId] at sameRunning
  rw [sameRunning]
  cases s.running.lookup g with
  | some region =>
      dsimp only
      split
      next => exact .throw
      next => exact .pure fun _ _ before => ⟨rfl, before⟩
  | none =>
      dsimp only
      split
      next => exact .bind_except fun dtype _ => .pure fun _ _ before => ⟨rfl, before⟩
      next ranges _ =>
        refine (Abreast.report fun _ _ _ _ beside => beside.withLog _ _).bind_same fun _ => ?_
        exact (boxes _ _).bind_same fun region => .pure fun _ _ before => ⟨rfl, before⟩

theorem writeUpdate_abreast (notCopy : g ≠ copy) {name name' : String} {stage stage' : Nat}
    {indices : List Tensor} {value : Tensor} :
    Abreast setting (Beside id copy busy) (writeUpdate g name stage indices value)
      (writeUpdate (standIn id copy g) name' stage' indices value) (Same (Beside id copy busy)) := by
  unfold writeUpdate
  refine .bind_get fun s s' beside => ?_
  rw [beside.running g notCopy]
  cases s.running.lookup g with
  | none => exact .pure fun _ _ before => ⟨rfl, before⟩
  | some region =>
      dsimp only
      refine .bind_except fun out _ => ?_
      refine (Abreast.mapM _).bind_same fun offsets => ?_
      split
      next => exact .throw
      split
      next => exact .throw
      refine .modify fun s s' beside => ⟨rfl, ?_⟩
      generalize Region.positions out.1 _ _ offsets = places
      exact beside.store notCopy (fun region => region.store places value) (fun _ _ => rfl)
        fun _ _ => rfl

variable {u u' : Definition}

theorem updateAt_abreast (notCopy : g ≠ copy) (mirrored : MirroredUpdate id copy u u')
    (reads : ∀ e ∈ u.parts, ∀ callee, e.Calls callee →
      ReadAbreast setting (Beside id copy busy) id copy reader reader callee)
    {name name' : String} {stage : Nat} {env : Environment} :
    Abreast setting (Beside id copy busy) (updateAt reader g name stage u env)
      (updateAt reader (standIn id copy g) name' stage u' env) (Same (Beside id copy busy)) := by
  obtain ⟨R, biUnique, mirroredValue, mirroredArgs⟩ := mirrored.parts
  unfold updateAt
  refine (evalBoth_abreast biUnique mirroredValue mirroredArgs (fun e member =>
    reads e (List.mem_append_left _ member)) env).bind fun out out' s s' answers => ?_
  obtain ⟨⟨value, indices⟩, memo⟩ := out
  obtain ⟨_, memo'⟩ := out'
  obtain ⟨rfl, _, beside⟩ := answers
  exact writeUpdate_abreast notCopy s s' beside

theorem concrete_abreast {e : Expr} (free : ¬ e.Calls id)
    (reads : ∀ callee, e.Calls callee →
      ReadAbreast setting (Beside id copy busy) id copy reader reader callee) :
    Abreast setting (Beside id copy busy) (concrete reader e) (concrete reader e)
      (Same (Beside id copy busy)) := by
  unfold concrete
  split
  next => exact .throw
  next =>
    exact (evaluate_abreast biUnique_eq (.refl free) reads []).bind_same fun t => .ofExcept

theorem concreteRanges_abreast {entries : List (String × Expr × Expr)}
    (free : ∀ entry ∈ entries, ¬ entry.2.1.Calls id ∧ ¬ entry.2.2.Calls id)
    (reads : ∀ entry ∈ entries, ∀ e ∈ [entry.2.1, entry.2.2], ∀ callee, e.Calls callee →
      ReadAbreast setting (Beside id copy busy) id copy reader reader callee) :
    Abreast setting (Beside id copy busy) (concreteRanges reader entries)
      (concreteRanges reader entries) (Same (Beside id copy busy)) := by
  induction entries with
  | nil => exact .pure fun _ _ before => ⟨rfl, before⟩
  | cons entry rest ih =>
      obtain ⟨name, least, extent⟩ := entry
      obtain ⟨freeLeast, freeExtent⟩ := free _ (.head _)
      have here := reads _ (.head _)
      unfold concreteRanges
      refine (concrete_abreast freeLeast (here least (.head _))).bind_same fun start => ?_
      refine (concrete_abreast freeExtent (here extent (.tail _ (.head _)))).bind_same fun count => ?_
      exact (ih (fun entry member => free entry (.tail _ member)) fun entry member =>
        reads entry (.tail _ member)).bind_same fun others => .pure fun _ _ before => ⟨rfl, before⟩

theorem runUpdate_abreast (notCopy : g ≠ copy) (mirrored : MirroredUpdate id copy u u')
    (reads : ∀ e ∈ u.parts, ∀ callee, e.Calls callee →
      ReadAbreast setting (Beside id copy busy) id copy reader reader callee)
    {name name' : String} {stage : Nat} {env : Environment} :
    Abreast setting (Beside id copy busy) (Realizer.runUpdate reader g name env stage u)
      (Realizer.runUpdate reader (standIn id copy g) name' env stage u') (Same (Beside id copy busy)) := by
  unfold Realizer.runUpdate
  rw [mirrored.ranges]
  refine (concreteRanges_abreast mirrored.bounds fun entry member e isBound => reads e ?_).bind_same
    fun ranges => ?_
  · exact List.mem_append_right _ (List.mem_flatMap.2 ⟨entry, member, isBound⟩)
  · dsimp only
    exact (Abreast.forEach fun point _ => updateAt_abreast notCopy mirrored reads).bind_same
      fun _ => .pure fun _ _ before => ⟨rfl, before⟩

theorem runUpdates_abreast (notCopy : g ≠ copy) {us us' : List (Definition × Nat)}
    (mirrored : List.Forall₂ (fun u u' => MirroredUpdate id copy u.1 u'.1 ∧ u'.2 = u.2) us us')
    (reads : ∀ u ∈ us, ∀ e ∈ u.1.parts, ∀ callee, e.Calls callee →
      ReadAbreast setting (Beside id copy busy) id copy reader reader callee)
    {name name' : String} {env : Environment} :
    Abreast setting (Beside id copy busy) (runUpdates reader g name env us)
      (runUpdates reader (standIn id copy g) name' env us') (Same (Beside id copy busy)) := by
  induction mirrored with
  | nil => exact .pure fun _ _ before => ⟨rfl, before⟩
  | @cons u u' us us' first _ ih =>
      obtain ⟨update, stage⟩ := u
      obtain ⟨update', stage'⟩ := u'
      obtain ⟨mirrored, rfl⟩ := first
      unfold runUpdates
      exact (runUpdate_abreast notCopy mirrored (reads _ (.head _))).bind_same fun _ =>
        ih fun u member => reads u (.tail _ member)

theorem whileRunning_abreast {inside : Prop} (notCopy : g ≠ copy) {region : Region}
    {action action' : RealizeM Unit} (entered : inside → busy ∨ g = id)
    (left : busy → inside ∧ g ≠ id)
    (run : Abreast setting (Beside id copy inside) action action' (Same (Beside id copy inside))) :
    Abreast setting (Beside id copy busy) (whileRunning g region action)
      (whileRunning (standIn id copy g) region action') (Same (Beside id copy busy)) := by
  unfold whileRunning
  refine Abreast.bind (Q := fun _ _ => Beside id copy inside) (.modify fun s s' beside => ?_)
    fun _ _ => ?_
  · obtain ⟨running, cache, isBusy⟩ := beside.keep notCopy region
    exact ⟨running, cache, fun isInside => isBusy (entered isInside)⟩
  refine (Abreast.tryCatch run (fun fault s => ⟨fault, _, rfl⟩)
    fun fault s => ⟨fault, _, rfl⟩).bind_same fun _ => .modifyGet fun s s' beside => ⟨?_, ?_⟩
  · simp only [beside.running g notCopy]
  · obtain ⟨running, cache, isBusy⟩ := beside.drop notCopy
    exact ⟨running, cache, fun wasBusy => isBusy (left wasBusy)⟩

theorem related_zipIdx {α : Type} {S : α → α → Prop} {as bs : List α} (related : List.Forall₂ S as bs)
    (first : Nat) : List.Forall₂ (fun a b => S a.1 b.1 ∧ b.2 = a.2) (as.zipIdx first)
      (bs.zipIdx first) := by
  induction related generalizing first with
  | nil => exact .nil
  | cons here _ ih => exact .cons ⟨here, rfl⟩ (ih (first + 1))

theorem computeUpTo_abreast {inside : Prop} {count count' : Nat} {mins sizes : List Int}
    (notCopy : g ≠ copy)
    (sameInit : (setting.program.func (standIn id copy g)).init = (setting.program.func g).init)
    (mirrored : List.Forall₂ (MirroredUpdate id copy) ((setting.program.func g).updates.take count)
      ((setting.program.func (standIn id copy g)).updates.take count'))
    (entered : inside → busy ∨ g = id) (left : busy → inside ∧ g ≠ id)
    (freeInit : ∀ initial, (setting.program.func g).init = some initial → ¬ initial.value.Calls id)
    (readsInit : ∀ initial, (setting.program.func g).init = some initial → ∀ callee,
      initial.value.Calls callee →
      ReadAbreast setting (Beside id copy busy) id copy reader reader callee)
    (reads : ∀ u ∈ (setting.program.func g).updates, ∀ e ∈ u.parts, ∀ callee, e.Calls callee →
      ReadAbreast setting (Beside id copy inside) id copy reader reader callee) :
    Abreast setting (Beside id copy busy) (computeUpTo reader g count mins sizes)
      (computeUpTo reader (standIn id copy g) count' mins sizes) (Same (Beside id copy busy)) := by
  unfold computeUpTo
  refine .bind_read ?_
  dsimp only
  unfold Func.initial
  rw [sameInit]
  cases isInitial : (setting.program.func g).init with
  | none => exact fun _ _ _ => .error
  | some initial =>
      refine .bind_ok ?_
      split
      next => exact .throw
      next =>
        refine (evaluate_abreast biUnique_eq (.refl (freeInit _ isInitial)) (readsInit _ isInitial)
          _).bind_same fun values => ?_
        refine whileRunning_abreast notCopy entered left (runUpdates_abreast notCopy
          (related_zipIdx mirrored 0) fun u member => reads u.1 ?_)
        exact List.mem_of_mem_take (List.fst_mem_of_mem_zipIdx member)

structure Program.Apart (program : Program) (id copy : FuncId) (apart : FuncId → Prop) : Prop where
  notSelf : ¬ apart id
  notCopy : ¬ apart copy
  closed : ∀ g, apart g → ∀ e ∈ (program.func g).parts, ∀ callee, e.Calls callee → apart callee

variable {apart : FuncId → Prop}

theorem MirroredUpdate.refl (free : ∀ e ∈ u.parts, ¬ e.Calls id) : MirroredUpdate id copy u u where
  parts := ⟨Eq, biUnique_eq, .refl (free _ (.head _)), List.forall₂_same.2 fun a member =>
    .refl (free a (.tail _ (List.mem_append_left _ member)))⟩
  ranges := rfl
  bounds entry member := by
    have within (e : Expr) (isBound : e ∈ [entry.2.1, entry.2.2]) : e ∈ u.parts :=
      List.mem_append_right _ (List.mem_flatMap.2 ⟨entry, member, isBound⟩)
    exact ⟨free _ (within _ (.head _)), free _ (within _ (.tail _ (.head _)))⟩

theorem readApart_abreast (isApart : setting.program.Apart id copy apart)
    (boxes : ∀ g, apart g → ∀ mins sizes, Abreast setting (Beside id copy busy)
      (realizeBox g mins sizes) (realizeBox g mins sizes) (Same (Beside id copy busy)))
    (member : apart g) :
    ReadAbreast setting (Beside id copy busy) id copy (readFrom realizeBox) (readFrom realizeBox) g :=
  readOther_abreast (fun same => isApart.notSelf (same ▸ member))
    (fun same => isApart.notCopy (same ▸ member)) (boxes g member)

theorem Func.mem_parts_init {f : Func} {initial : Definition} (isInitial : f.init = some initial) :
    initial.value ∈ f.parts := by
  simp [Func.parts, isInitial]

theorem Func.mem_parts_update {f : Func} {e : Expr} (isUpdate : u ∈ f.updates) (isPart : e ∈ u.parts) :
    e ∈ f.parts :=
  List.mem_append_right _ (List.mem_flatMap.2 ⟨u, isUpdate, isPart⟩)

theorem compute_abreast (isApart : setting.program.Apart id copy apart)
    (boxes : ∀ g, apart g → ∀ mins sizes, Abreast setting (Beside id copy busy)
      (realizeBox g mins sizes) (realizeBox g mins sizes) (Same (Beside id copy busy)))
    (member : apart g) (mins sizes : List Int) :
    Abreast setting (Beside id copy busy) (compute (readFrom realizeBox) g mins sizes)
      (compute (readFrom realizeBox) g mins sizes) (Same (Beside id copy busy)) := by
  have notSelf : g ≠ id := fun same => isApart.notSelf (same ▸ member)
  have notCopy : g ≠ copy := fun same => isApart.notCopy (same ▸ member)
  have reads (e : Expr) (isPart : e ∈ (setting.program.func g).parts) (callee : FuncId)
      (called : e.Calls callee) := readApart_abreast isApart boxes
    (isApart.closed g member e isPart callee called)
  have free (e : Expr) (isPart : e ∈ (setting.program.func g).parts) : ¬ e.Calls id :=
    fun called => isApart.notSelf (isApart.closed g member e isPart id called)
  have isSelf : standIn id copy g = g := standIn_of_ne notSelf
  have run : Abreast setting (Beside id copy busy)
      (computeUpTo (readFrom realizeBox) g (setting.program.func g).updates.length mins sizes)
      (computeUpTo (readFrom realizeBox) (standIn id copy g)
        (setting.program.func g).updates.length mins sizes) (Same (Beside id copy busy)) := by
    refine computeUpTo_abreast notCopy (by rw [isSelf]) ?_ .inl (fun isBusy => ⟨isBusy, notSelf⟩)
      (fun initial isInitial => free _ (Func.mem_parts_init isInitial))
      (fun initial isInitial => reads _ (Func.mem_parts_init isInitial))
      (fun u isUpdate e isPart => reads e (Func.mem_parts_update isUpdate isPart))
    rw [isSelf, List.take_length]
    exact List.forall₂_same.2 fun u isUpdate =>
      .refl fun e isPart => free e (Func.mem_parts_update isUpdate isPart)
  rw [isSelf] at run
  intro s s' before
  rw [← computeUpTo_all (Nat.le_refl _), ← computeUpTo_all (Nat.le_refl _)]
  exact run s s' before

theorem realizeBox_abreast (isApart : setting.program.Apart id copy apart) (depth : Nat)
    (member : apart g) (mins sizes : List Int) :
    Abreast setting (Beside id copy busy) (Realizer.realizeBox depth g mins sizes)
      (Realizer.realizeBox depth g mins sizes) (Same (Beside id copy busy)) := by
  induction depth generalizing g mins sizes with
  | zero =>
      unfold Realizer.realizeBox
      exact .throw
  | succ depth ih =>
      have notSelf : g ≠ id := fun same => isApart.notSelf (same ▸ member)
      have notCopy : g ≠ copy := fun same => isApart.notCopy (same ▸ member)
      have fresh (mins sizes : List Int) : Abreast setting (Beside id copy busy)
          (fresh (readFrom (Realizer.realizeBox depth)) g mins sizes)
          (fresh (readFrom (Realizer.realizeBox depth)) g mins sizes) (Same (Beside id copy busy)) := by
        refine .bind_read ?_
        refine (Abreast.report fun _ _ _ _ beside => beside.withLog _ _).bind_same fun _ => ?_
        refine (compute_abreast isApart (fun g member => ih member) member _ _).bind_same
          fun region => ?_
        refine Abreast.bind (Q := fun _ _ => Beside id copy busy)
          (.modify fun s s' beside => beside.keepCache region) fun _ _ =>
          .pure fun _ _ before => ⟨rfl, before⟩
      unfold Realizer.realizeBox
      refine .bind_get fun s s' beside => ?_
      rw [beside.cache g notSelf notCopy]
      cases s.cache.lookup g with
      | none => exact fresh _ _
      | some region =>
          dsimp only
          split
          next => exact .pure fun _ _ before => ⟨rfl, before⟩
          next => exact fresh _ _

end

end ReverseMode
