import ReverseMode.Proofs.Bounds.Exterior
import ReverseMode.Proofs.Derivative.Canonicalization
import ReverseMode.Proofs.Derivative.Duality
import ReverseMode.Proofs.Program.Settled

/-!
# What adjoint functions hold

While stages are completed one after another, every stage has an adjoint function. Until its stage is
complete it holds what was collected for the stage and nothing calls it; afterwards a function that
confines it to the box of the stage stands in its place. Functions that are called no longer change.
-/

namespace ReverseMode

open Expr

theorem StageTable.find?_insert_other {α : Type} {table : StageTable α} {key other : StageKey} {value : α}
    (differs : other ≠ key) : (table.insert key value).find? other = table.find? other := by
  rw [StageTable.find?_insert, if_neg differs]

namespace Program

structure Retains (q q' : Program) (settled settled' : FuncId → Prop) : Prop where
  stays : ∀ id, settled id → settled' id
  values : ∀ id, settled id → q'.exactReads id = q.exactReads id

theorem Retains.refl (q : Program) (settled : FuncId → Prop) : q.Retains q settled settled :=
  ⟨fun _ inside => inside, fun _ _ => rfl⟩

theorem Retains.trans {q q' q'' : Program} {settled settled' settled'' : FuncId → Prop}
    (first : q.Retains q' settled settled') (second : q'.Retains q'' settled' settled'') :
    q.Retains q'' settled settled'' :=
  ⟨fun id inside => second.stays id (first.stays id inside), fun id inside =>
    (second.values id (first.stays id inside)).trans (first.values id inside)⟩

structure Target (q : Program) (settled : FuncId → Prop) (f : Func) (vars : List Expr)
    (key : StageKey) (values : Grid ℚ) (target : FuncId) : Prop where
  below : target < q.funcs.size
  unsettled : ¬ settled target
  titled : (q.func target).name = s!"{f.name}_{key.stage + 1}_d__"
  initial : ∃ zero, (q.func target).init = some ⟨vars, zero⟩ ∧ IsZeroFloat zero
  needs : ∀ callee, (q.func target).Needs target callee → settled callee
  holds : ∀ index, index.length = vars.length → q.exactReads target index = values index

structure Recalls (p q : Program) (settled : FuncId → Prop) (f : FuncId) (stage : Int)
    (copy : FuncId) : Prop where
  stays : settled copy
  initial : (q.func copy).init = (p.func f).init
  holds : q.exactReads copy = p.stored (fun _ _ _ => 0) f stage

/-- The adjoint functions of these stages hold what was collected: for stages that are complete within
their boxes. Functions that are reached are as they were. -/
structure Accounts (p : Program) (loss : Expr) (boxes : Boxes) (keys : List StageKey) (q : Program)
    (s : Accumulation) (settled : FuncId → Prop) (collected : StageKey → Grid ℚ) : Prop where
  kept : ∀ f, p.Home loss (some f) → q.func f = p.func f
  isSettled : q.Settled settled
  reached : ∀ f, p.Home loss (some f) → settled f
  funcs : ∀ f, p.Home loss (some f) → s.funcs.lookup (p.func f).name = some f
  snapshots : ∀ f stage copy, p.Home loss (some f) →
    s.snapshots.find? ⟨(p.func f).name, stage⟩ = some copy → p.Recalls q settled f stage copy
  collecting : ∀ f initial, p.Home loss (some f) → (p.func f).init = some initial → ∀ key ∈ keys,
    key.name = (p.func f).name → key ∉ s.finalized → ∃ target, s.targets.find? key = some target ∧
      q.Target settled (p.func f) initial.args key (collected key) target
  complete : ∀ f initial, p.Home loss (some f) → (p.func f).init = some initial →
    ∀ key ∈ s.finalized, key.name = (p.func f).name → ∃ target, s.targets.find? key = some target ∧
      settled target ∧ ∀ index, index.length = initial.args.length →
        q.exactReads target index = (collected key).confined (boxes.box key) index
  below : ∀ key target, s.targets.find? key = some target → target < q.funcs.size
  apart : ∀ key key' target, key ∉ s.finalized → key' ∉ s.finalized →
    s.targets.find? key = some target → s.targets.find? key' = some target → key = key'

section

variable {p q q' : Program} {settled settled' changed : FuncId → Prop}

theorem Settled.retains (isSettled : q.Settled settled) (grows : q.Grows q' changed)
    (unchanged : ∀ id, settled id → ¬ changed id) (more : ∀ id, settled id → settled' id) :
    q.Retains q' settled settled' :=
  ⟨more, fun _ inside => isSettled.exactReads_eq grows unchanged inside⟩

theorem Recalls.grow {f copy : FuncId} {stage : Int} (recalls : p.Recalls q settled f stage copy)
    (isSettled : q.Settled settled) (grows : q.Grows q' changed)
    (unchanged : ∀ id, settled id → ¬ changed id) (more : ∀ id, settled id → settled' id) :
    p.Recalls q' settled' f stage copy where
  stays := more copy recalls.stays
  initial := by
    rw [(isSettled.agree grows unchanged).func_eq copy recalls.stays, recalls.initial]
  holds := by rw [isSettled.exactReads_eq grows unchanged recalls.stays, recalls.holds]

namespace Target

variable {f : Func} {vars : List Expr} {key : StageKey} {values : Grid ℚ} {target : FuncId}

theorem defined (isTarget : q.Target settled f vars key values target) :
    (q.func target).init.isSome := by
  obtain ⟨zero, isInitial, _⟩ := isTarget.initial
  rw [isInitial]
  rfl

theorem declared (isTarget : q.Target settled f vars key values target) :
    (q.func target).declared = vars.map Expr.name := by
  obtain ⟨zero, isInitial, _⟩ := isTarget.initial
  simp [Func.declared, isInitial]

theorem insert (isTarget : q.Target settled f vars key values target)
    (isSettled : q.Settled settled) : q.Settled fun x => settled x ∨ x = target :=
  isSettled.insert isTarget.below isTarget.defined isTarget.needs

theorem grow (isTarget : q.Target settled f vars key values target) (isSettled : q.Settled settled)
    (grows : q.Grows q' changed) (unchanged : ∀ id, settled id → ¬ changed id)
    (other : ¬ changed target) (more : ∀ id, settled id → settled' id) (unsettled : ¬ settled' target) :
    q'.Target settled' f vars key values target := by
  have kept : q'.func target = q.func target := grows.func_eq target isTarget.below other
  refine ⟨isTarget.below.trans_le grows.size_le, unsettled, kept ▸ isTarget.titled,
    kept ▸ isTarget.initial, fun callee needed => more callee (isTarget.needs callee (kept ▸ needed)),
    fun index isIndex => ?_⟩
  rw [(isTarget.insert isSettled).exactReads_eq grows
    (by rintro id (inside | rfl); exacts [unchanged id inside, other]) (.inr rfl)]
  exact isTarget.holds index isIndex

theorem of_zero {zero : Expr} (below : target < q.funcs.size) (unsettled : ¬ settled target)
    (isFunc : q.func target = { name := s!"{f.name}_{key.stage + 1}_d__", init := some ⟨vars, zero⟩ })
    (isZero : IsZeroFloat zero) : q.Target settled f vars key 0 target := by
  have noNeeds (callee : FuncId) : ¬ (q.func target).Needs target callee := by
    rw [isFunc]
    obtain ⟨id, rfl⟩ := isZero
    rintro (⟨d, isInitial, called⟩ | ⟨u, isUpdate, _⟩)
    · cases isInitial
      simp [calls_node] at called
    · cases isUpdate
  have grounded : q.Grounded target :=
    .intro (by rw [isFunc]; rfl) fun callee needed => absurd needed (noNeeds callee)
  refine ⟨below, unsettled, by rw [isFunc], ⟨zero, by rw [isFunc], isZero⟩,
    fun callee needed => absurd needed (noNeeds callee), fun index _ => ?_⟩
  rw [exactReads_initial (d := ⟨vars, zero⟩) grounded (by rw [isFunc]) (by rw [isFunc])]
  obtain ⟨id, rfl⟩ := isZero
  simp [headExact, Constant.exact_zero]

theorem wrapped {domain : Domain} {wrapper : FuncId}
    (isTarget : q.Target settled f vars key values target) (isSettled : q.Settled settled)
    (wraps : Wraps q q' target vars domain wrapper) :
    q'.Settled fun x => (settled x ∨ x = target) ∨ x = wrapper := by
  have grows : q.Grows q' fun _ => False :=
    ⟨by rw [wraps.size]; omega, fun id below _ => wraps.others id below⟩
  obtain ⟨initial, isInitial, _, _, calls, _⟩ := wraps.initial
  refine ((isTarget.insert isSettled).grows grows fun _ _ => id).insert ?_ (by rw [isInitial]; rfl) ?_
  · rw [wraps.size, wraps.isNew]
    exact Nat.lt_succ_self _
  · rintro callee (⟨d, isInitial', called⟩ | ⟨u, isUpdate, _⟩)
    · obtain rfl := Option.some.inj (isInitial.symm.trans isInitial')
      exact .inr ((calls callee).1 called)
    · rw [wraps.updates] at isUpdate
      cases isUpdate

theorem declares {r : Registry} (isTarget : q.Target settled f vars key values target)
    (declares : Declares r f vars) : Declares r (q.func target) vars :=
  { declares with
    args := by
      obtain ⟨zero, isInitial, _⟩ := isTarget.initial
      exact ⟨_, isInitial, rfl⟩ }

theorem update {r : Registry} {update : Definition} {e : Expr} {given : Grid ℚ}
    (isTarget : q.Target settled f vars key values target) (isSettled : q.Settled settled)
    (declares : Declares r f vars)
    (updated : q'.funcs = q.funcs.setIfInBounds target
      { q.func target with updates := (q.func target).updates ++ [update] })
    (adds : AddsTo target (vars.map Expr.name) update e)
    (calls : ∀ callee, update.value.Calls callee → callee ≠ target → settled callee)
    (apart : ∀ name ∈ vars.map Expr.name, name ∉ update.scope.names)
    (sum : ∀ index, index.length = vars.length → sumOver (fun env => exact q.exactReads.answers env e)
      update.scope (assign (vars.map Expr.name) index zeroEnv) = given index) :
    q'.Target settled f vars key (fun index => values index + given index) target := by
  obtain ⟨isFunc, others⟩ := func_set isTarget.below updated
  have grows : q.Grows q' (· = target) :=
    ⟨(size_set updated).ge, fun id _ differs => others id differs⟩
  have unchanged (id : FuncId) (inside : settled id) : id ≠ target :=
    fun same => isTarget.unsettled (same ▸ inside)
  have needs (callee : FuncId) (needed : (q'.func target).Needs target callee) : settled callee := by
    rw [isFunc] at needed
    rcases needed with initial | ⟨u, isUpdate, called, differs⟩
    · exact isTarget.needs callee (.inl initial)
    · rcases List.mem_append.1 isUpdate with before | last
      · exact isTarget.needs callee (.inr ⟨u, before, called, differs⟩)
      · rw [List.mem_singleton.1 last] at called
        exact calls callee called differs
  have defined' : (q'.func target).init.isSome := by
    rw [isFunc]
    exact isTarget.defined
  have reads (callee : FuncId) (inside : settled callee) : q'.exactReads callee = q.exactReads callee :=
    isSettled.exactReads_eq grows unchanged inside
  have computed := exactReads_update (isSettled.grounded_of_needs isTarget.defined isTarget.needs)
    ((isSettled.grows grows unchanged).grounded_of_needs defined' needs) isFunc
    fun callee needed => reads callee (isTarget.needs callee needed)
  refine ⟨(size_set updated).symm ▸ isTarget.below, isTarget.unsettled, isFunc ▸ isTarget.titled,
    isFunc ▸ isTarget.initial, needs, fun index isIndex => ?_⟩
  rw [computed, isTarget.declared, runUpdate_add adds declares.distinct apart _
    (by rw [isIndex, List.length_map]), isTarget.holds index isIndex, ← sum index isIndex]
  congr 2
  funext env
  refine exact_congr_reads e (fun _ _ => rfl) fun callee called => reads callee (calls callee ?_ ?_)
  · obtain ⟨_, _, call, isSum, _⟩ := adds.value
    rw [isSum]
    exact called.sub (.operand (.tail _ (.head _)) .here)
  · exact ne_of_called adds.other called

end Target

theorem exactReads_wrapper {target wrapper : FuncId} {vars : List Expr} {domain : Domain}
    (wraps : Wraps q q' target vars domain wrapper) (grounded : q'.Grounded wrapper)
    (distinct : (vars.map Expr.name).Nodup) {index : List Int} (isIndex : index.length = vars.length) :
    q'.exactReads wrapper index =
      Grid.confined (q'.exactReads target) (domain.map rangeEnds) index := by
  obtain ⟨initial, isInitial, sameNames, _, _, value⟩ := wraps.initial
  have declared : (q'.func wrapper).declared = vars.map Expr.name := by
    simp [Func.declared, isInitial, sameNames]
  rw [exactReads_initial grounded isInitial wraps.updates, declared, value,
    map_assign distinct (by rw [isIndex, List.length_map])]
  rfl

namespace Accounts

variable {loss : Expr} {boxes : Boxes} {keys : List StageKey} {s : Accumulation}
  {collected collected' : StageKey → Grid ℚ} {r : Registry} {f : FuncId} {initial : Definition}
  {key : StageKey} {target : FuncId}
  (accounts : p.Accounts loss boxes keys q s settled collected)

include accounts

theorem grow (grows : q.Grows q' changed) (unchanged : ∀ id, settled id → ¬ changed id)
    (isSettled : q'.Settled settled') (more : ∀ id, settled id → settled' id)
    (targets : ∀ f initial, p.Home loss (some f) → (p.func f).init = some initial → ∀ key ∈ keys,
      key.name = (p.func f).name → key ∉ s.finalized → ∀ target, s.targets.find? key = some target →
        q.Target settled (p.func f) initial.args key (collected key) target →
        q'.Target settled' (p.func f) initial.args key (collected' key) target)
    (final : ∀ key ∈ s.finalized, collected' key = collected key) :
    p.Accounts loss boxes keys q' s settled' collected' where
  kept f isHome := by
    have inside := accounts.reached f isHome
    rw [grows.func_eq f (accounts.isSettled.below f inside) (unchanged f inside)]
    exact accounts.kept f isHome
  isSettled := isSettled
  reached f isHome := more f (accounts.reached f isHome)
  funcs := accounts.funcs
  snapshots f stage copy isHome found :=
    (accounts.snapshots f stage copy isHome found).grow accounts.isSettled grows unchanged more
  collecting f initial isHome isInitial key isKey named notFinal := by
    obtain ⟨target, found, isTarget⟩ :=
      accounts.collecting f initial isHome isInitial key isKey named notFinal
    exact ⟨target, found,
      targets f initial isHome isInitial key isKey named notFinal target found isTarget⟩
  complete f initial isHome isInitial key isFinal named := by
    obtain ⟨target, found, inside, holds⟩ :=
      accounts.complete f initial isHome isInitial key isFinal named
    refine ⟨target, found, more target inside, fun index isIndex => ?_⟩
    rw [accounts.isSettled.exactReads_eq grows unchanged inside, final key isFinal]
    exact holds index isIndex
  below key target found := (accounts.below key target found).trans_le grows.size_le
  apart := accounts.apart

theorem build (same : q'.funcs = q.funcs) :
    p.Accounts loss boxes keys q' s settled collected :=
  have grows : q.Grows q' fun _ => False := .of_funcs same
  accounts.grow grows (fun _ _ => id)
    (accounts.isSettled.grows grows fun _ _ => id) (fun _ => id)
    (fun _ _ _ _ _ _ _ _ _ _ isTarget => isTarget.grow accounts.isSettled grows (fun _ _ => id) id
      (fun _ => id) isTarget.unsettled) fun _ _ => rfl

theorem scratch (adjoints : Std.TreeMap NodeId Expr) (bindings : List (String × Expr)) :
    p.Accounts loss boxes keys q { s with adjoints, bindings } settled collected :=
  { accounts with }

theorem exactReads_home (isHome : p.Home loss (some f))
    (needs : ∀ g, p.Home loss (some g) → ∀ callee, (p.func g).Needs g callee →
      p.Home loss (some callee)) : q.exactReads f = p.exactReads f := by
  have agrees : p.Agree q fun f => p.Home loss (some f) := ⟨accounts.kept, needs⟩
  exact agrees.values_eq _ isHome

theorem recalled (elementary : p.Elementary r loss) (isHome : p.Home loss (some f)) {stage : Int}
    {copy : FuncId} (isNew : copy = q.funcs.size) (grows : q.Grows q' fun _ => False)
    (below : copy < q'.funcs.size) (isInitial : (q'.func copy).init = (p.func f).init)
    (defined : (p.func f).init.isSome)
    (needs : ∀ callee, (q'.func copy).Needs copy callee → settled callee)
    (holds : q'.exactReads copy = p.stored (fun _ _ _ => 0) f stage) :
    p.Accounts loss boxes keys q'
      { s with snapshots := s.snapshots.insert ⟨(p.func f).name, stage⟩ copy }
      (fun x => settled x ∨ x = copy) collected := by
  have isSettled : q'.Settled fun x => settled x ∨ x = copy :=
    (accounts.isSettled.grows grows fun _ _ => id).insert below (isInitial ▸ defined) needs
  have grown : p.Accounts loss boxes keys q' s (fun x => settled x ∨ x = copy) collected := by
    refine accounts.grow grows (fun _ _ => id) isSettled (fun _ => .inl)
      (fun _ _ _ _ _ _ _ _ _ _ isTarget => isTarget.grow accounts.isSettled grows (fun _ _ => id) id
        (fun _ => .inl) ?_) fun _ _ => rfl
    rintro (inside | rfl)
    · exact isTarget.unsettled inside
    · exact absurd isNew isTarget.below.ne
  refine { grown with snapshots := fun f' stage' copy' isHome' found => ?_ }
  dsimp only at found
  rw [StageTable.find?_insert] at found
  split at found
  next same =>
    obtain ⟨sameName, rfl⟩ := StageKey.mk.inj same
    obtain rfl := elementary.distinct f' f isHome' isHome sameName
    cases found
    exact ⟨.inr rfl, isInitial, holds⟩
  next => exact grown.snapshots f' stage' copy' isHome' found

theorem update {given : StageKey → Grid ℚ} {update : Definition} {e : Expr}
    (elementary : p.Elementary r loss) (isHome : p.Home loss (some f))
    (isInitial : (p.func f).init = some initial) (isKey : key ∈ keys)
    (named : key.name = (p.func f).name) (notFinal : key ∉ s.finalized)
    (found : s.targets.find? key = some target)
    (declares : Declares r (p.func f) initial.args)
    (updated : q'.funcs = q.funcs.setIfInBounds target
      { q.func target with updates := (q.func target).updates ++ [update] })
    (adds : AddsTo target (initial.args.map Expr.name) update e)
    (calls : ∀ callee, update.value.Calls callee → callee ≠ target → settled callee)
    (apart : ∀ name ∈ initial.args.map Expr.name, name ∉ update.scope.names)
    (sum : ∀ index, index.length = initial.args.length →
      sumOver (fun env => exact q.exactReads.answers env e) update.scope
        (assign (initial.args.map Expr.name) index zeroEnv) = given key index)
    (elsewhere : ∀ other, other ≠ key → given other = 0) :
    p.Accounts loss boxes keys q' s settled (collected + given) := by
  obtain ⟨known, isKnown, isTarget⟩ :=
    accounts.collecting f initial isHome isInitial key isKey named notFinal
  obtain rfl := Option.some.inj (isKnown.symm.trans found)
  have grows : q.Grows q' (· = known) := ⟨(size_set updated).ge, fun id _ differs =>
    (func_set isTarget.below updated).2 id differs⟩
  have unchanged (id : FuncId) (inside : settled id) : id ≠ known :=
    fun same => isTarget.unsettled (same ▸ inside)
  refine accounts.grow grows unchanged (accounts.isSettled.grows grows unchanged) (fun _ => id)
    (fun f' initial' isHome' isInitial' key' isKey' named' notFinal' target' found' isTarget' => ?_)
    fun other isFinal => ?_
  · by_cases same : key' = key
    · subst same
      obtain rfl := elementary.distinct f' f isHome' isHome (named'.symm.trans named)
      obtain rfl := Option.some.inj (isInitial'.symm.trans isInitial)
      obtain rfl := Option.some.inj (found'.symm.trans found)
      exact isTarget'.update accounts.isSettled declares updated adds calls apart sum
    · have other : target' ≠ known := fun same' => same
        (accounts.apart key' key known notFinal' notFinal (same' ▸ found') found)
      rw [Pi.add_apply, elsewhere key' same, add_zero]
      exact isTarget'.grow accounts.isSettled grows unchanged other (fun _ => id) isTarget'.unsettled
  · rw [Pi.add_apply, elsewhere other (by rintro rfl; exact notFinal isFinal), add_zero]

theorem create {zero : Expr} (elementary : p.Elementary r loss) (isHome : p.Home loss (some f))
    (isInitial : (p.func f).init = some initial) (named : key.name = (p.func f).name)
    (notFinal : key ∉ s.finalized) (nothing : collected key = 0) (isNew : target = q.funcs.size)
    (grows : q.Grows q' fun _ => False) (below : target < q'.funcs.size)
    (isFunc : q'.func target = { name := s!"{(p.func f).name}_{key.stage + 1}_d__",
                                 init := some ⟨initial.args, zero⟩ })
    (isZero : IsZeroFloat zero) :
    p.Accounts loss boxes (keys ++ [key]) q'
      { s with targets := s.targets.insert key target } settled collected := by
  have isSettled := accounts.isSettled.grows grows fun _ _ => id
  have grown : p.Accounts loss boxes keys q' s settled collected :=
    accounts.grow grows (fun _ _ => id) isSettled (fun _ => id)
      (fun _ _ _ _ _ _ _ _ _ _ isTarget => isTarget.grow accounts.isSettled grows (fun _ _ => id) id
        (fun _ => id) isTarget.unsettled) fun _ _ => rfl
  have isTarget : q'.Target settled (p.func f) initial.args key (collected key) target :=
    nothing ▸ .of_zero below (fun inside => (accounts.isSettled.below target inside).ne isNew) isFunc
      isZero
  have older {key' : StageKey} {known : FuncId} (differs : key' ≠ key)
      (found : (s.targets.insert key target).find? key' = some known) : known < q.funcs.size := by
    rw [StageTable.find?_insert_other differs] at found
    exact accounts.below key' known found
  refine { grown with
    collecting := fun f' initial' isHome' isInitial' key' isKey' named' notFinal' => ?_
    complete := fun f' initial' isHome' isInitial' key' isFinal' named' => ?_
    below := fun key' known found => ?_
    apart := fun first second known notFirst notSecond isFirst isSecond => ?_ }
  · by_cases same : key' = key
    · subst same
      obtain rfl := elementary.distinct f' f isHome' isHome (named'.symm.trans named)
      obtain rfl := Option.some.inj (isInitial'.symm.trans isInitial)
      exact ⟨target, by simp, isTarget⟩
    · have isKey : key' ∈ keys := by simpa [same] using isKey'
      dsimp only
      rw [StageTable.find?_insert_other same]
      exact grown.collecting f' initial' isHome' isInitial' key' isKey named' notFinal'
  · have differs : key' ≠ key := fun same => notFinal (same ▸ isFinal')
    dsimp only
    rw [StageTable.find?_insert_other differs]
    exact grown.complete f' initial' isHome' isInitial' key' isFinal' named'
  · dsimp only at found
    rw [StageTable.find?_insert] at found
    split at found
    next => cases found; exact below
    next => exact grown.below key' known found
  · dsimp only at isFirst isSecond
    by_cases first_eq : first = key <;> by_cases second_eq : second = key
    · rw [first_eq, second_eq]
    · rw [first_eq, StageTable.find?_insert, if_pos rfl] at isFirst
      cases isFirst
      exact absurd isNew (older second_eq isSecond).ne
    · rw [second_eq, StageTable.find?_insert, if_pos rfl] at isSecond
      cases isSecond
      exact absurd isNew (older first_eq isFirst).ne
    · rw [StageTable.find?_insert_other first_eq] at isFirst
      rw [StageTable.find?_insert_other second_eq] at isSecond
      exact accounts.apart first second known notFirst notSecond isFirst isSecond

theorem finish {wrapper : FuncId} {domain : Domain} (isHome : p.Home loss (some f))
    (elementary : p.Elementary r loss) (isInitial : (p.func f).init = some initial)
    (named : key.name = (p.func f).name) (notFinal : key ∉ s.finalized)
    (found : s.targets.find? key = some target)
    (isTarget : q.Target settled (p.func f) initial.args key (collected key) target)
    (distinct : (initial.args.map Expr.name).Nodup)
    (wraps : Wraps q q' target initial.args domain wrapper)
    (isBox : boxes.box key = domain.map rangeEnds) :
    ∃ settled', q.Retains q' settled settled' ∧ settled' wrapper ∧
      (∀ index, index.length = initial.args.length →
        q'.exactReads wrapper index = (collected key).confined (boxes.box key) index) ∧
      p.Accounts loss boxes keys q'
        { s with targets := s.targets.insert key wrapper, finalized := key :: s.finalized } settled'
        collected := by
  have grows : q.Grows q' fun _ => False :=
    ⟨by rw [wraps.size]; omega, fun id below _ => wraps.others id below⟩
  have withTarget := isTarget.insert accounts.isSettled
  have isSettled : q'.Settled fun x => (settled x ∨ x = target) ∨ x = wrapper :=
    isTarget.wrapped accounts.isSettled wraps
  have more (id : FuncId) (inside : settled id) : (settled id ∨ id = target) ∨ id = wrapper :=
    .inl (.inl inside)
  have holds (index : List Int) (isIndex : index.length = initial.args.length) :
      q'.exactReads wrapper index = (collected key).confined (boxes.box key) index := by
    rw [exactReads_wrapper wraps (isSettled.grounded wrapper (.inr rfl)) distinct isIndex,
      withTarget.exactReads_eq grows (fun _ _ => id) (.inr rfl), isBox]
    unfold Grid.confined
    rw [isTarget.holds index isIndex]
  have isNew (other : FuncId) (below : other < q.funcs.size) : other ≠ wrapper :=
    fun same => absurd wraps.isNew (same ▸ below.ne)
  -- Only the stage's own entry of the table changes. What is known of other stages stays, as their
  -- adjoint functions are other functions than the target and the wrapper.
  refine ⟨_, accounts.isSettled.retains grows (fun _ _ => id) more, .inr rfl, holds, ?_⟩
  refine ⟨fun f' isHome' => ?_, isSettled, fun f' isHome' => more f' (accounts.reached f' isHome'),
    accounts.funcs, fun f' stage copy isHome' found' =>
      (accounts.snapshots f' stage copy isHome' found').grow accounts.isSettled grows (fun _ _ => id)
        more, fun f' initial' isHome' isInitial' key' isKey' named' notFinal' => ?_,
    fun f' initial' isHome' isInitial' key' isFinal' named' => ?_, fun key' known found' => ?_,
    fun first second known notFirst notSecond isFirst isSecond => ?_⟩
  · rw [wraps.others f' (accounts.isSettled.below f' (accounts.reached f' isHome'))]
    exact accounts.kept f' isHome'
  · have differs : key' ≠ key := List.ne_of_not_mem_cons notFinal'
    replace notFinal' := List.not_mem_of_not_mem_cons notFinal'
    obtain ⟨target', found', isTarget'⟩ :=
      accounts.collecting f' initial' isHome' isInitial' key' isKey' named' notFinal'
    refine ⟨target', (StageTable.find?_insert_other differs).trans found',
      isTarget'.grow accounts.isSettled grows (fun _ _ => id) id more ?_⟩
    rintro ((inside | rfl) | rfl)
    · exact isTarget'.unsettled inside
    · exact differs (accounts.apart key' key target' notFinal' notFinal found' found)
    · exact isNew _ isTarget'.below rfl
  · rcases List.mem_cons.1 isFinal' with rfl | isFinal'
    · obtain rfl := elementary.distinct f' f isHome' isHome (named'.symm.trans named)
      obtain rfl := Option.some.inj (isInitial'.symm.trans isInitial)
      exact ⟨wrapper, by simp, .inr rfl, holds⟩
    · have differs : key' ≠ key := fun same => notFinal (same ▸ isFinal')
      obtain ⟨target', found', inside, holds'⟩ :=
        accounts.complete f' initial' isHome' isInitial' key' isFinal' named'
      refine ⟨target', (StageTable.find?_insert_other differs).trans found', more target' inside,
        fun index isIndex => ?_⟩
      rw [accounts.isSettled.exactReads_eq grows (fun _ _ => id) inside]
      exact holds' index isIndex
  · dsimp only at found'
    rw [StageTable.find?_insert] at found'
    split at found'
    next =>
      cases found'
      rw [wraps.size, wraps.isNew]
      exact Nat.lt_succ_self _
    next => exact (accounts.below key' known found').trans_le grows.size_le
  · dsimp only at isFirst isSecond
    rw [StageTable.find?_insert_other (List.ne_of_not_mem_cons notFirst)] at isFirst
    rw [StageTable.find?_insert_other (List.ne_of_not_mem_cons notSecond)] at isSecond
    exact accounts.apart first second known (List.not_mem_of_not_mem_cons notFirst)
      (List.not_mem_of_not_mem_cons notSecond) isFirst isSecond

end Accounts

end

end Program

end ReverseMode
