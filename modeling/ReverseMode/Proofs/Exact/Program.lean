import Mathlib.Data.Set.Finite.Lattice
import Mathlib.Order.Filter.AtTopBot.Basic
import Mathlib.Order.Filter.Finite
import ReverseMode.Proofs.Exact.Index
import ReverseMode.Realize.Realizer

namespace ReverseMode

open Expr Filter

def assign : List String → List Int → Env → Env
  | name :: names, value :: values, base => Function.update (assign names values base) name value
  | _, _, base => base

def zeroEnv : Env := fun _ => 0

theorem assign_other {names : List String} {values : List Int} {base : Env} {name : String}
    (absent : name ∉ names) : assign names values base name = base name := by
  induction names generalizing values with
  | nil => rfl
  | cons first rest ih =>
      cases values with
      | nil => rfl
      | cons value others =>
          obtain ⟨differs, absentRest⟩ := List.ne_and_not_mem_of_not_mem_cons absent
          rw [assign, Function.update_of_ne differs, ih absentRest]

theorem map_assign {names : List String} {values : List Int} {base : Env} (distinct : names.Nodup)
    (sameLength : values.length = names.length) : names.map (assign names values base) = values := by
  induction names generalizing values with
  | nil => exact (List.length_eq_zero_iff.1 sameLength).symm
  | cons first rest ih =>
      cases values with
      | nil => simp at sameLength
      | cons value others =>
          obtain ⟨absent, distinctRest⟩ := List.nodup_cons.1 distinct
          have unchanged : rest.map (assign (first :: rest) (value :: others) base) =
              rest.map (assign rest others base) := by
            refine List.map_congr_left fun name member => ?_
            exact Function.update_of_ne (ne_of_mem_of_not_mem member absent) _ _
          rw [List.map_cons, unchanged, ih distinctRest (by simpa using sameLength)]
          simp [assign]

theorem assign_map {names : List String} {env base : Env} {name : String} (member : name ∈ names) :
    assign names (names.map env) base name = env name := by
  induction names with
  | nil => cases member
  | cons first rest ih =>
      rw [List.map_cons, assign]
      by_cases isFirst : name = first
      · rw [isFirst, Function.update_self]
      · rw [Function.update_of_ne isFirst]
        exact ih ((List.mem_cons.1 member).resolve_left isFirst)

def Between (ends : Int × Int) (v : Int) : Prop := ends.1 ≤ v ∧ v ≤ ends.2

instance (ends : Int × Int) (v : Int) : Decidable (Between ends v) :=
  inferInstanceAs (Decidable (ends.1 ≤ v ∧ v ≤ ends.2))

def rangeEnds (range : Expr × Expr) : Int × Int :=
  (range.1.constantValue, range.1.constantValue + range.2.constantValue - 1)

def Inside (names : List String) (box : List (Int × Int)) (env : Env) : Prop :=
  List.Forall₂ (fun ends name => Between ends (env name)) box names

/-- Variables and the ends between which each of them runs. -/
abbrev Scope := List (String × Int × Int)

namespace Scope

def names (scope : Scope) : List String := scope.map Prod.fst

def points (scope : Scope) : List (List Int) :=
  Realizer.points (scope.map fun (_, low, high) => Realizer.integersFrom low (high - low + 1))

end Scope

def Definition.scope (d : Definition) : Scope :=
  (Realizer.reductionRanges d).map fun (name, range) => (name, rangeEnds range)

abbrev Bump (α : Type) := FuncId → Int → Grid α

/-- The functions whose values a function needs: all that it calls, apart from calls of itself in
its updates. -/
def Func.Needs (f : Func) (id callee : FuncId) : Prop :=
  (∃ initial, f.init = some initial ∧ initial.value.Calls callee) ∨
    ∃ update ∈ f.updates, update.value.Calls callee ∧ callee ≠ id

def Func.declared (f : Func) : List String :=
  match f.init with
  | some initial => initial.args.map Expr.name
  | none => []

section

variable {α : Type} [Scalar α]

def Func.initialGrid (f : Func) (reads : Reads α) : Grid α := fun index =>
  match f.init with
  | some initial => exact reads.answers (assign f.declared index zeroEnv) initial.value
  | none => 0

/-- Runs an update at the declared variables at each of its points, one after another. -/
def runUpdate (reads : Reads α) (id : FuncId) (declared : List String) (update : Definition)
    (before : Grid α) : Grid α :=
  update.scope.points.foldl (fun values point index =>
    exact (Reads.answers (Function.update reads id values))
      (assign update.scope.names point (assign declared index zeroEnv)) update.value) before

def Func.after (f : Func) (id : FuncId) (reads : Reads α) (bump : Int → Grid α) : Nat → Grid α
  | 0 => fun index => f.initialGrid reads index + bump (-1) index
  | updates + 1 =>
      match f.updates[updates]? with
      | some update => fun index =>
          runUpdate reads id f.declared update (f.after id reads bump updates) index +
            bump updates index
      | none => f.after id reads bump updates

namespace Program

def compute (program : Program) (bump : Bump α) (reads : Reads α) : Reads α := fun id =>
  (program.func id).after id reads (bump id) (program.func id).updates.length

def gridAt (program : Program) (bump : Bump α) : Nat → Reads α
  | 0 => fun _ _ => 0
  | depth + 1 => program.compute bump (gridAt program bump depth)

/-- The values at large depths, for functions that have such. -/
noncomputable def values (program : Program) (bump : Bump α) : Reads α := fun id =>
  program.gridAt bump (Classical.epsilon fun least => ∀ depth, least ≤ depth →
    program.gridAt bump depth id = program.gridAt bump least id) id

/-- The function is defined, and so is every function it needs, directly or through others. -/
inductive Grounded (program : Program) : FuncId → Prop where
  | intro {id : FuncId} : (program.func id).init.isSome →
      (∀ callee, (program.func id).Needs id callee → Grounded program callee) →
      Grounded program id

end Program

theorem initialGrid_congr {f : Func} {id : FuncId} {reads reads' : Reads α}
    (same : ∀ callee, f.Needs id callee → reads callee = reads' callee) :
    f.initialGrid reads = f.initialGrid reads' := by
  funext index
  unfold Func.initialGrid
  split
  next initial defined =>
    exact exact_congr_reads _ (fun _ _ => rfl) fun callee called =>
      same callee (.inl ⟨initial, defined, called⟩)
  next => rfl

theorem runUpdate_congr {reads reads' : Reads α} {id : FuncId} {declared : List String}
    {update : Definition} {before : Grid α}
    (same : ∀ callee, update.value.Calls callee → callee ≠ id → reads callee = reads' callee) :
    runUpdate reads id declared update before = runUpdate reads' id declared update before := by
  unfold runUpdate
  congr 1
  funext values point index
  refine exact_congr_reads _ (fun _ _ => rfl) fun callee called => ?_
  by_cases isSelf : callee = id
  · rw [isSelf, Function.update_self, Function.update_self]
  · rw [Function.update_of_ne isSelf, Function.update_of_ne isSelf, same callee called isSelf]

theorem after_congr {f : Func} {id : FuncId} {reads reads' : Reads α} {bump : Int → Grid α}
    (same : ∀ callee, f.Needs id callee → reads callee = reads' callee) (updates : Nat) :
    f.after id reads bump updates = f.after id reads' bump updates := by
  induction updates with
  | zero =>
      unfold Func.after
      rw [initialGrid_congr same]
  | succ updates ih =>
      unfold Func.after
      rw [ih]
      split
      next update found =>
        have member := List.mem_of_getElem? found
        rw [runUpdate_congr fun callee called other =>
          same callee (.inr ⟨update, member, called, other⟩)]
      next => rfl

end

theorem finite_calls (e : Expr) : {callee | e.Calls callee}.Finite := by
  induction e using Expr.induction with
  | node id head dtype operands ih =>
      have split : {callee | (Expr.node id head dtype operands).Calls callee} =
          {callee | ∃ name, head = .call (.func callee name)} ∪
            ⋃ x ∈ {x | x ∈ operands}, {callee | x.Calls callee} := by
        ext callee
        simp [calls_node]
      rw [split]
      refine Set.Finite.union ?_ (Set.Finite.biUnion (List.finite_toSet operands) ih)
      refine Set.Subsingleton.finite fun a ha b hb => ?_
      obtain ⟨name, rfl⟩ := ha
      obtain ⟨name', same⟩ := hb
      cases same
      rfl
  | reduction => simp

theorem finite_needs (f : Func) (id : FuncId) : {callee | f.Needs id callee}.Finite := by
  have within : {callee | f.Needs id callee} ⊆
      (⋃ initial ∈ {d | f.init = some d}, {callee | initial.value.Calls callee}) ∪
        ⋃ update ∈ {d | d ∈ f.updates}, {callee | update.value.Calls callee} := by
    rintro callee (⟨initial, defined, called⟩ | ⟨update, member, called, _⟩)
    · exact .inl (Set.mem_biUnion (x := initial) defined called)
    · exact .inr (Set.mem_biUnion (x := update) member called)
  refine Set.Finite.subset (Set.Finite.union (Set.Finite.biUnion ?_ fun d _ => finite_calls d.value)
    (Set.Finite.biUnion (List.finite_toSet _) fun d _ => finite_calls d.value)) within
  exact Set.Subsingleton.finite fun a ha b hb => Option.some.inj (ha.symm.trans hb)

namespace Program

section

variable {α : Type} [Scalar α] {program program' : Program} {id : FuncId}

theorem Grounded.settles (grounded : program.Grounded id) (bump : Bump α) :
    ∀ᶠ depth in atTop, program.gridAt bump depth id = program.values bump id := by
  have settled : ∃ least, ∀ depth, least ≤ depth →
      program.gridAt bump depth id = program.gridAt bump least id := by
    induction grounded with
    | @intro id defined below settled =>
        have each : ∀ callee ∈ {c | (program.func id).Needs id c}, ∀ᶠ least in atTop,
            ∀ depth, least ≤ depth →
              program.gridAt bump depth callee = program.gridAt bump least callee := by
          intro callee needed
          obtain ⟨least, settles⟩ := settled callee needed
          filter_upwards [eventually_ge_atTop least] with later large depth larger
          rw [settles depth (large.trans larger), settles later large]
        obtain ⟨least, all⟩ := ((eventually_all_finite (finite_needs _ id)).2 each).exists
        refine ⟨least + 1, fun depth large => ?_⟩
        obtain ⟨depth, rfl⟩ := Nat.exists_eq_add_of_le large
        rw [Nat.add_right_comm, gridAt, gridAt]
        exact after_congr (fun callee needed => all callee needed _ (Nat.le_add_right _ _)) _
  have chosen := Classical.epsilon_spec settled
  filter_upwards [eventually_ge_atTop _] with depth large using chosen depth large

theorem Grounded.values_eq (grounded : program.Grounded id) (bump : Bump α) :
    program.values bump id = program.compute bump (program.values bump) id := by
  have below : ∀ callee ∈ {c | (program.func id).Needs id c}, ∀ᶠ depth in atTop,
      program.gridAt bump depth callee = program.values bump callee := by
    intro callee needed
    cases grounded with
    | intro _ below => exact (below callee needed).settles bump
  obtain ⟨depth, all, here⟩ := (((eventually_all_finite (finite_needs _ id)).2 below).and
    ((tendsto_add_atTop_nat 1).eventually (grounded.settles bump))).exists
  rw [← here, gridAt]
  exact after_congr all _

theorem standard_runUpdate (reads : Reads α) (declared : List String) (update : Definition)
    (before : Grid α) (index : List Int) :
    standard (runUpdate reads id declared update before index) =
      runUpdate (fun callee index => standard (reads callee index)) id declared update
        (fun index => standard (before index)) index := by
  unfold runUpdate
  generalize update.scope.points = points
  induction points generalizing before with
  | nil => rfl
  | cons point rest ih =>
      have first : (fun index => standard (exact (Reads.answers (Function.update reads id before))
            (assign update.scope.names point (assign declared index zeroEnv)) update.value)) =
          fun index => exact (Reads.answers (Function.update
              (fun callee index => standard (reads callee index)) id
              fun index => standard (before index)))
            (assign update.scope.names point (assign declared index zeroEnv)) update.value := by
        funext index
        rw [Expr.standard_exact]
        congr 2
        funext callee
        by_cases isSelf : callee = id <;> simp [isSelf]
      rw [List.foldl_cons, List.foldl_cons, ih, first]

theorem standard_after (f : Func) (reads : Reads α) (bump : Int → Grid α) (updates : Nat)
    (index : List Int) :
    standard (f.after id reads bump updates index) =
      f.after id (fun callee index => standard (reads callee index))
        (fun stage index => standard (bump stage index)) updates index := by
  induction updates generalizing index with
  | zero =>
      unfold Func.after Func.initialGrid
      refine (map_add _ _ _).trans (congrArg (· + _) ?_)
      split
      · exact Expr.standard_exact _ _ _
      · exact map_zero _
  | succ updates ih =>
      unfold Func.after
      cases f.updates[updates]? with
      | none => exact ih index
      | some update =>
          refine (map_add _ _ _).trans (congrArg (· + _) ?_)
          refine (standard_runUpdate _ _ _ _ _).trans ?_
          simp only [ih]

theorem standard_gridAt (bump : Bump α) (depth : Nat) (id : FuncId) (index : List Int) :
    standard (program.gridAt bump depth id index) =
      program.gridAt (fun id stage index => standard (bump id stage index)) depth id index := by
  induction depth generalizing id index with
  | zero => exact map_zero _
  | succ depth ih =>
      rw [gridAt, gridAt, compute, standard_after, compute]
      simp only [ih]

theorem Grounded.standard_values (grounded : program.Grounded id) (bump : Bump α)
    (index : List Int) :
    standard (program.values bump id index) =
      program.values (fun id stage index => standard (bump id stage index)) id index := by
  obtain ⟨depth, settled, settledRational⟩ := ((grounded.settles bump).and
    (grounded.settles fun id stage index => standard (bump id stage index))).exists
  rw [← settled, ← settledRational, standard_gridAt]

structure Agree (program program' : Program) (shared : FuncId → Prop) : Prop where
  func_eq : ∀ id, shared id → program'.func id = program.func id
  needs : ∀ id, shared id → ∀ callee, (program.func id).Needs id callee → shared callee

theorem Agree.gridAt_eq {shared : FuncId → Prop} (agree : program.Agree program' shared)
    (bump : Bump α) (depth : Nat) {id : FuncId} (isShared : shared id) :
    program'.gridAt bump depth id = program.gridAt bump depth id := by
  induction depth generalizing id with
  | zero => rfl
  | succ depth ih =>
      rw [gridAt, gridAt, compute, compute, agree.func_eq id isShared]
      exact after_congr (fun callee needed => ih (agree.needs id isShared callee needed)) _

theorem Agree.values_eq {shared : FuncId → Prop} (agree : program.Agree program' shared)
    (bump : Bump α) {id : FuncId} (isShared : shared id) :
    program'.values bump id = program.values bump id := by
  have same : (fun depth => program'.gridAt bump depth id) = fun depth => program.gridAt bump depth id :=
    funext fun depth => agree.gridAt_eq bump depth isShared
  exact congrArg (fun grid : Nat → List Int → α => grid (Classical.epsilon fun least =>
    ∀ depth, least ≤ depth → grid depth = grid least)) same

theorem Agree.grounded {shared : FuncId → Prop} (agree : program.Agree program' shared)
    {id : FuncId} (isShared : shared id) (grounded : program.Grounded id) :
    program'.Grounded id := by
  induction grounded with
  | @intro id defined _ ih =>
      rw [← agree.func_eq id isShared] at defined ih
      exact .intro defined fun callee needed => ih callee needed
        (agree.needs id isShared callee (agree.func_eq id isShared ▸ needed))

end

end Program

end ReverseMode
