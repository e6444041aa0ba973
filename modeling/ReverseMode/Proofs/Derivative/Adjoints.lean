import ReverseMode.Proofs.Derivative.Gradient

/-!
# What the adjoints of a program are

The adjoint of a value is made up of what all calls hand on that read it: the calls of the loss and
those of every stage, at all points of the stage and of the reduction variables. In the end it is the
derivative of the loss by this value, also where functions are updated point after point.
-/

namespace ReverseMode

open Expr

/-- The passes of a differentiation: over the loss and over every stage that is reached. -/
def Program.passes (p : Program) (loss : Expr) (boxes : Boxes) : List Pass :=
  .ofLoss loss :: (p.reachable loss).flatMap fun f => (p.func f).stages.map (p.pass boxes f)

noncomputable def Pass.total (passes : List Pass) (p : Program) (amount : StageKey → Expr → Env → ℚ) :
    StageKey → Grid ℚ :=
  fun key index => (passes.map fun pass =>
    pass.handed (amount pass.caller) (pass.calls p) key index).sum

namespace Pass

variable {pass : Pass} {passes : List Pass} {p : Program} {amount amount' : StageKey → Expr → Env → ℚ}

theorem total_cons : Pass.total (pass :: passes) p amount =
    pass.handed (amount pass.caller) (pass.calls p) + Pass.total passes p amount := by
  funext key index
  exact List.sum_cons

theorem total_congr (same : ∀ pass ∈ passes, amount pass.caller = amount' pass.caller) :
    Pass.total passes p amount = Pass.total passes p amount' := by
  funext key index
  exact congrArg List.sum (List.map_congr_left fun pass member => by rw [same pass member])

theorem total_perm {passes' : List Pass} (perm : passes.Perm passes') :
    Pass.total passes p amount = Pass.total passes' p amount := by
  funext key index
  exact (perm.map _).sum_eq

end Pass

namespace Program

variable {p : Program} {r : Registry} {loss : Expr} {boxes : Boxes}

namespace Collects

variable {done : List StageKey} {collected : StageKey → Grid ℚ}

theorem amounts (collects : p.Collects loss boxes done collected) (elementary : p.Elementary r loss) :
    ∃ (amount : StageKey → Expr → Env → ℚ) (walked : List Pass),
      walked.map Pass.caller = done ∧ (∀ pass ∈ walked, pass ∈ (p.passes loss boxes).tail) ∧
      collected = Pass.total (.ofLoss loss :: walked) p amount ∧
      (∀ env, (Pass.ofLoss loss).Flows p env 1 fun x => amount CallContext.root.key x env) ∧
      ∀ pass ∈ walked, ∀ env, pass.Flows p env
        ((collected pass.caller).confined (boxes.box pass.caller) (pass.declared.map env))
        fun x => amount pass.caller x env := by
  induction collects with
  | loss conveys =>
      obtain ⟨amount, isHanded, flows⟩ := conveys
      refine ⟨fun _ => amount, [], rfl, by simp, ?_, flows, by simp⟩
      rw [isHanded]
      funext key index
      simp [Pass.total]
  | @stage done collected given f entry collects isHome isStage unfinished _ conveys unread ih =>
      obtain ⟨amount, walked, areDone, areStages, isTotal, atLoss, atStages⟩ := ih
      obtain ⟨more, isHanded, flows⟩ := id conveys
      -- The pass is a new one, so that giving it its amounts leaves those of the others.
      have notRoot : CallContext.root.key ≠ (p.func f).key entry := fun same =>
        elementary.titled f isHome (congrArg StageKey.name same).symm
      have notWalked {pass : Pass} (isWalked : pass ∈ walked) : pass.caller ≠ (p.func f).key entry :=
        fun same => unfinished (areDone ▸ same ▸ List.mem_map_of_mem isWalked)
      refine ⟨Function.update amount ((p.func f).key entry) more, p.pass boxes f entry :: walked,
        by simp [areDone, pass], ?_, ?_, ?_, ?_⟩
      · exact List.forall_mem_cons.2 ⟨List.mem_flatMap.2
          ⟨f, elementary.linked.mem_reachable.2 isHome, List.mem_map_of_mem isStage⟩, areStages⟩
      · have others : Pass.total walked p (Function.update amount ((p.func f).key entry) more) =
            Pass.total walked p amount :=
          Pass.total_congr fun pass isWalked => Function.update_of_ne (notWalked isWalked) _ _
        rw [isTotal, isHanded, Pass.total_cons, Pass.total_cons, Pass.total_cons, others,
          Function.update_of_ne (show (Pass.ofLoss loss).caller ≠ _ from notRoot)]
        change _ = _ + ((p.pass boxes f entry).handed
          (Function.update amount ((p.func f).key entry) more ((p.func f).key entry)) _ + _)
        rw [Function.update_self]
        abel
      · intro env
        rw [Function.update_of_ne notRoot]
        exact atLoss env
      · refine List.forall_mem_cons.2 ⟨fun env => ?_, fun pass isWalked env => ?_⟩
        · have atStage : (collected + given) (p.pass boxes f entry).caller =
              collected ((p.func f).key entry) :=
            collected_unread conveys unread (.head _)
          rw [atStage]
          change Pass.Flows _ p env _ fun x =>
            Function.update amount ((p.func f).key entry) more ((p.func f).key entry) x env
          rw [Function.update_self]
          exact flows env
        · have isDone : pass.caller ∈ (p.func f).key entry :: done :=
            .tail _ (areDone ▸ List.mem_map_of_mem isWalked)
          rw [collected_unread conveys unread isDone, Function.update_of_ne (notWalked isWalked)]
          exact atStages pass isWalked env

end Collects

theorem callers_passes :
    (p.passes loss boxes).map Pass.caller = CallContext.root.key :: p.keysOf (p.reachable loss) := by
  simp only [passes, keysOf, Func.keys, List.map_cons, List.map_flatMap, List.map_map]
  rfl

/-- The adjoint of the loss is one, and that of a stage sums up within its box what the calls of all
passes hand on. What a pass hands on flows from the adjoint of its own stage. -/
structure Backpropagates (p : Program) (loss : Expr) (boxes : Boxes)
    (amount : StageKey → Expr → Env → ℚ) (adjoint : StageKey → Grid ℚ) : Prop where
  atLoss : adjoint CallContext.root.key [] = 1
  atStages : ∀ key ∈ p.keysOf (p.reachable loss), adjoint key =
    (Pass.total (p.passes loss boxes) p amount key).confined (boxes.box key)
  flows : ∀ pass ∈ p.passes loss boxes, ∀ env,
    pass.Flows p env (adjoint pass.caller (pass.declared.map env)) fun x => amount pass.caller x env

theorem Collects.backpropagates {done : List StageKey} {collected : StageKey → Grid ℚ}
    (collects : p.Collects loss boxes done collected) (elementary : p.Elementary r loss)
    (complete : ∀ key, key ∈ done ↔ key ∈ p.keysOf (p.reachable loss)) :
    ∃ amount adjoint, p.Backpropagates loss boxes amount adjoint ∧
      ∀ key ∈ done, adjoint key = (collected key).confined (boxes.box key) := by
  obtain ⟨amount, walked, areDone, areStages, isTotal, atLoss, atStages⟩ := collects.amounts elementary
  have callers : ((p.passes loss boxes).tail.map Pass.caller) = p.keysOf (p.reachable loss) := by
    rw [List.map_tail, callers_passes, List.tail_cons]
  have distinct : ((p.passes loss boxes).tail.map Pass.caller).Nodup :=
    callers ▸ elementary.nodup_keysOf
  have notRoot {key : StageKey} (isKey : key ∈ p.keysOf (p.reachable loss)) :
      key ≠ CallContext.root.key := by
    obtain ⟨f, isReached, isStage⟩ := List.mem_flatMap.1 isKey
    obtain ⟨entry, _, rfl⟩ := List.mem_map.1 isStage
    exact fun same => elementary.titled f (elementary.linked.mem_reachable.1 isReached)
      (congrArg StageKey.name same)
  have perm : walked.Perm (p.passes loss boxes).tail := by
    have nodup : walked.Nodup := .of_map Pass.caller (areDone ▸ collects.nodup)
    refine (List.perm_ext_iff_of_nodup nodup (.of_map Pass.caller distinct)).2 fun pass =>
      ⟨areStages pass, fun member => ?_⟩
    have isDone : pass.caller ∈ walked.map Pass.caller := by
      rw [areDone, complete, ← callers]
      exact List.mem_map_of_mem member
    obtain ⟨pass', isWalked, same⟩ := List.mem_map.1 isDone
    exact List.inj_on_of_nodup_map distinct (areStages pass' isWalked) member same ▸ isWalked
  let adjoint (key : StageKey) : Grid ℚ :=
    if key = CallContext.root.key then fun _ => 1 else (collected key).confined (boxes.box key)
  have atStage {key : StageKey} (isKey : key ∈ p.keysOf (p.reachable loss)) :
      adjoint key = (collected key).confined (boxes.box key) := if_neg (notRoot isKey)
  refine ⟨amount, adjoint, ⟨by simp [adjoint], fun key isKey => ?_, ?_⟩, fun key isDone =>
    atStage ((complete key).1 isDone)⟩
  · rw [atStage isKey, isTotal, Pass.total_perm (perm.cons (.ofLoss loss))]
    rfl
  · refine List.forall_mem_cons.2 ⟨fun env => ?_, fun pass member env => ?_⟩
    · exact atLoss env
    · have isWalked := perm.mem_iff.2 member
      have isDone : pass.caller ∈ done := areDone ▸ List.mem_map_of_mem isWalked
      rw [atStage ((complete _).1 isDone)]
      exact atStages pass isWalked env

end Program

section

variable {p left : Program} {r : Registry} {loss : Expr} {settings : Differentiation} {d : Derivative}
  (fits : r.Fits p.supply) (apart : p.TellsTextsApart settings.hash loss)
  (unmuted : settings.muted = []) (elementary : p.Elementary r loss)
  (run : (derivative settings loss).run.run p = (.ok d, left))

include fits apart unmuted elementary run

/-- The adjoint of a stage sums up what all calls that read it hand on, at all points of the stages that
they stand in and of the reduction variables there. -/
theorem adjoint_sums_points : ∃ amount adjoint,
    p.Backpropagates loss (spans d.domains) amount adjoint ∧
      d.Holds p loss left fun f stage => adjoint ⟨(p.func f).name, stage⟩ := by
  obtain ⟨_, _, _, _, done, collected, collects, complete, holds⟩ :=
    derivative_collects elementary apart unmuted fits d left run
  obtain ⟨amount, adjoint, backpropagates, same⟩ := collects.backpropagates elementary complete
  refine ⟨amount, adjoint, backpropagates, fun f entry isHome isStage => ?_⟩
  have isKey : (p.func f).key entry ∈ p.keysOf (p.reachable loss) :=
    List.mem_flatMap.2 ⟨f, elementary.linked.mem_reachable.2 isHome, List.mem_map_of_mem isStage⟩
  obtain ⟨target, isTarget, grounded, values⟩ := holds f entry isHome isStage
  refine ⟨target, isTarget, grounded, fun index isIndex => (values index isIndex).trans ?_⟩
  exact (congrFun (same _ ((complete _).2 isKey)) index).symm

variable (smooth : p.SmoothlyDemanded loss)

include smooth

/-- The adjoint of a value is the derivative of the loss by it. -/
theorem reverse_eq_forward : d.Holds p loss left (p.forward loss) := by
  obtain ⟨_, _, _, holds⟩ := derivative_forward elementary apart unmuted smooth fits d left run
  exact holds

/-- The derivative of a loss goes through an update that runs point after point to the stage before and
to the functions that the update reads. -/
theorem recurrence_eq_forward {f : FuncId} {n : Nat} {u : Definition} (isHome : p.Home loss (some f))
    (isUpdate : (p.func f).updates[n]? = some u) :
    (∃ target, d.adjoint (p.func f).name (n - 1) = .ok target ∧
      ∀ index : List Int, index.length = (p.func f).declared.length →
        left.exactReads target index = p.forward loss f (n - 1) index) ∧
    ∀ g, u.value.Calls g → g ≠ f → ∃ target,
      d.adjoint (p.func g).name (p.func g).lastStage = .ok target ∧
      ∀ index : List Int, index.length = (p.func g).declared.length →
        left.exactReads target index = p.forward loss g (p.func g).lastStage index := by
  obtain ⟨_, _, _, holds⟩ := derivative_forward elementary apart unmuted smooth fits d left run
  have atStage {g : FuncId} {stage : Int} (isHome : p.Home loss (some g)) (atLeast : -1 ≤ stage)
      (below : stage < (p.func g).updates.length) : ∃ target,
      d.adjoint (p.func g).name stage = .ok target ∧
        ∀ index : List Int, index.length = (p.func g).declared.length →
          left.exactReads target index = p.forward loss g stage index := by
    obtain ⟨initial, defined, _⟩ := elementary.declares isHome
    have isKey : ⟨(p.func g).name, stage⟩ ∈ (p.func g).keys :=
      (Func.mem_keys defined).2 ⟨rfl, atLeast, below⟩
    obtain ⟨entry, isStage, same⟩ := List.mem_map.1 isKey
    obtain rfl : entry.1 = stage := congrArg StageKey.stage same
    obtain ⟨target, isTarget, _, values⟩ := holds g entry isHome isStage
    exact ⟨target, isTarget, values⟩
  have inUpdates : n < (p.func f).updates.length := (List.getElem?_eq_some_iff.1 isUpdate).1
  refine ⟨atStage isHome (by omega) (by omega), fun g called other => ?_⟩
  have isCallee : p.Home loss (some g) :=
    elementary.needs isHome (.inr ⟨u, List.mem_of_getElem? isUpdate, called, other⟩)
  exact atStage isCallee (by unfold Func.lastStage; omega) (by unfold Func.lastStage; omega)

end

/-!
`g(x) = x` and `f(x) = g(x) * g(x)`, to which an update adds `g(x + s)` at two points. The loss sums
`f(r) * w(r)` over three points, where `w(x) = x`, so `g` at `2` is read by the square and the update at
`2`, with the weight `2`, and by the update at `1`. The square reads one node twice or two nodes, and `g`
bears one name or another.
-/

namespace Spread

def x : Expr := .node 0 (.var "x" false) .int32 []

def value : Expr := .node 1 .cast .float32 [x]

def zero : Expr := .node 2 (.const (.int 0)) .int32 []

def two : Expr := .node 3 (.const (.int 2)) .int32 []

def step : Expr := .reduction 4 "s" 0 zero two

def shifted : Expr := .node 5 (.binary .add) .int32 [x, step]

def readF : Expr := .node 6 (.call (.func 1 "f")) .float32 [x]

def first : Expr := .node 12 (.const (.int 0)) .int32 []

def three : Expr := .node 13 (.const (.int 3)) .int32 []

def axis : Expr := .reduction 14 "r_00000000" 0 first three

def readSum : Expr := .node 15 (.call (.func 1 "f")) .float32 [axis]

def weight : Expr := .node 16 (.call (.func 2 "w")) .float32 [axis]

def loss : Expr := .node 17 (.binary .mul) .float32 [readSum, weight]

section

variable (copy : NodeId) (name : String)

def readG (id : NodeId) : Expr := .node id (.call (.func 0 name)) .float32 [x]

def square : Expr := .node 9 (.binary .mul) .float32 [readG name 7, readG name copy]

def readShifted : Expr := .node 10 (.call (.func 0 name)) .float32 [shifted]

def sum : Expr := .node 11 (.binary .add) .float32 [readF, readShifted name]

def start : Program :=
  { funcs := #[{ name := name, init := some ⟨[x], value⟩ },
      { name := "f", init := some ⟨[x], square copy name⟩, updates := [⟨[x], sum name⟩] },
      { name := "w", init := some ⟨[x], value⟩ }]
    supply := { nodes := 12 } }

def program : Program := { start copy name with supply := { nodes := 18, names := 1 } }

def registry : Registry where
  node id := ([x, value, zero, two, step, shifted, readF, readG name 7, readG name 8, square copy name,
    readShifted name, sum name, first, three, axis, readSum, weight, loss][id]?).getD loss
  next := 18
  names := 1

def places : List (StageKey × List String × Expr) :=
  [(⟨"", -1⟩, [], loss), (⟨"f", -1⟩, ["x"], square copy name), (⟨"f", 0⟩, ["x"], sum name),
    (⟨name, -1⟩, ["x"], value), (⟨"w", -1⟩, ["x"], value)]

end

def settings : Differentiation := { rules := .standard }

section

variable {copy : NodeId} {name : String}

theorem closed {e : Expr} (member : e ∈ [zero, two, first, three]) :
    (registry copy name).HoldsClosed e := by
  simp only [List.mem_cons, List.not_mem_nil, or_false] at member
  rcases member with rfl | rfl | rfl | rfl <;>
    exact ⟨by simp [Registry.Holds, Registry.IsRegistered, registry, Expr.id, zero, two, first, three],
      .int⟩

theorem elementaryNodes {e : Expr} (member : e ∈ [value, square copy name, sum name, loss]) :
    Every IsElementary e := by
  simp only [List.mem_cons, List.not_mem_nil, or_false] at member
  rcases member with rfl | rfl | rfl | rfl <;>
    simp [IsElementary, IsPlain, IsKnown, value, square, sum, loss, x, readG, Head.arity?,
      readF, readShifted, readSum, weight, shifted, step, axis, callee?]

theorem holds_index {e : Expr} (member : e ∈ [x, shifted, axis]) : (registry copy name).HoldsIndex e := by
  have ofStep : (registry copy name).HoldsClosed zero ∧ (registry copy name).HoldsClosed two :=
    ⟨closed (by simp), closed (by simp)⟩
  have ofAxis : (registry copy name).HoldsClosed first ∧ (registry copy name).HoldsClosed three :=
    ⟨closed (by simp), closed (by simp)⟩
  simp only [List.mem_cons, List.not_mem_nil, or_false] at member
  rcases member with rfl | rfl | rfl <;> refine ⟨?_, ?_, ?_⟩ <;>
    simp [Registry.Holds, Registry.IsRegistered, registry, Expr.id, Registry.BoundsHeld, x, shifted, step,
      axis]
  all_goals
    rintro _ _ _ _ _ rfl rfl rfl rfl rfl
    first
    | exact ofStep
    | exact ofAxis

theorem isIndex {e : Expr} (member : e ∈ [x, shifted, axis]) :
    Index (fun _ => True) (fun _ => True) e := by
  simp only [List.mem_cons, List.not_mem_nil, or_false] at member
  rcases member with rfl | rfl | rfl
  · exact .var trivial
  · exact .add (.var trivial) (.axis trivial)
  · exact .axis trivial

theorem variable_cases {caller : StageKey} {declared : List String} {e y : Expr} {other : String}
    (listed : (caller, declared, e) ∈ places copy name) (within : Subnode y e)
    (named : y.variableName? = some other) :
    y = x ∧ declared = ["x"] ∨ e = sum name ∧ y = step ∨ e = loss ∧ y = axis := by
  simp only [places, List.mem_cons, Prod.mk.injEq, List.not_mem_nil, or_false] at listed
  rcases listed with ⟨_, rfl, rfl⟩ | ⟨_, rfl, rfl⟩ | ⟨_, rfl, rfl⟩ | ⟨_, rfl, rfl⟩ | ⟨_, rfl, rfl⟩ <;>
    simp only [value, square, sum, loss, readG, readF, readShifted, readSum, weight, shifted, x, step, axis,
      subnode_node, subnode_reduction, List.mem_cons, List.not_mem_nil, or_false, false_and, exists_false,
      exists_eq_or_imp, exists_eq_left] at within
  · rcases within with rfl | (rfl | rfl) | rfl | rfl <;> cases named <;> exact .inr (.inr ⟨rfl, rfl⟩)
  · rcases within with rfl | (rfl | rfl) | rfl | rfl <;> cases named <;> exact .inl ⟨rfl, rfl⟩
  · rcases within with rfl | (rfl | rfl) | rfl | rfl | rfl | rfl <;> cases named
    · exact .inl ⟨rfl, rfl⟩
    · exact .inl ⟨rfl, rfl⟩
    · exact .inr (.inl ⟨rfl, rfl⟩)
  all_goals
    rcases within with rfl | rfl <;> cases named
    exact .inl ⟨rfl, rfl⟩

theorem call_cases {caller : StageKey} {declared : List String} {e y : Expr} {id : FuncId} {called : String}
    (listed : (caller, declared, e) ∈ places copy name) (outer : Outer y e)
    (isCall : y.callee? = some (.func id called)) :
    (∃ node, y = readG name node) ∧ id = 0 ∧ e = square copy name ∨
      y = readF ∧ id = 1 ∧ caller = ⟨"f", 0⟩ ∨ y = readShifted name ∧ id = 0 ∧ e = sum name ∨
        y = readSum ∧ id = 1 ∧ e = loss ∨ y = weight ∧ id = 2 ∧ e = loss := by
  have isMember := mem_outers.2 outer
  simp only [places, List.mem_cons, Prod.mk.injEq, List.not_mem_nil, or_false] at listed
  rcases listed with ⟨_, rfl, rfl⟩ | ⟨_, rfl, rfl⟩ | ⟨rfl, rfl, rfl⟩ | ⟨_, rfl, rfl⟩ | ⟨_, rfl, rfl⟩
  · change y ∈ [loss, readSum, weight] at isMember
    simp only [List.mem_cons, List.not_mem_nil, or_false] at isMember
    rcases isMember with rfl | rfl | rfl <;> cases isCall <;> simp
  · change y ∈ [square copy name, readG name 7, readG name copy] at isMember
    simp only [List.mem_cons, List.not_mem_nil, or_false] at isMember
    rcases isMember with rfl | rfl | rfl <;> cases isCall <;> exact .inl ⟨⟨_, rfl⟩, rfl, rfl⟩
  · change y ∈ [sum name, readF, readShifted name] at isMember
    simp only [List.mem_cons, List.not_mem_nil, or_false] at isMember
    rcases isMember with rfl | rfl | rfl <;> cases isCall <;> simp
  all_goals
    change y ∈ [value, x] at isMember
    simp only [List.mem_cons, List.not_mem_nil, or_false] at isMember
    rcases isMember with rfl | rfl <;> cases isCall

theorem call {caller : StageKey} {declared : List String} {e y : Expr} {id : FuncId} {called : String}
    (listed : (caller, declared, e) ∈ places copy name) (outer : Outer y e)
    (isCall : y.callee? = some (.func id called)) : (program copy name).ElementaryCall caller e y id := by
  have typed {id : FuncId} : ∀ initial, ((program copy name).func id).init = some initial →
      id = 0 ∨ id = 1 ∨ id = 2 → initial.value.dtype = .float32 := by
    rintro initial isInitial (rfl | rfl | rfl) <;> cases isInitial <;> rfl
  have alongStep : Moves [shifted] (axisName "s" 0) := ⟨fun _ => 0, 1, by decide⟩
  have alongAxis : Moves [axis] (axisName "r_00000000" 0) := ⟨fun _ => 0, 1, by decide⟩
  rcases call_cases listed outer isCall with ⟨⟨node, rfl⟩, rfl, rfl⟩ | ⟨rfl, rfl, rfl⟩ | ⟨rfl, rfl, rfl⟩ |
    ⟨rfl, rfl, rfl⟩ | ⟨rfl, rfl, rfl⟩ <;>
    refine ⟨List.forall_mem_singleton.2 (isIndex (by simp)), rfl,
      fun initial isInitial => (typed initial isInitial (by simp)).symm, fun other => ?_⟩
  · exact nofun
  · exact absurd rfl other
  · exact List.forall_mem_singleton.2 (.inl alongStep)
  · exact List.forall_mem_singleton.2 (.inl alongAxis)
  · exact List.forall_mem_singleton.2 (.inl alongAxis)

theorem declares {f : Func} {value : Expr} {updates : List Definition}
    (isFunc : f = { name := f.name, init := some ⟨[x], value⟩, updates := updates }) :
    Declares (registry copy name) f [x] where
  args := ⟨⟨[x], value⟩, by rw [isFunc], rfl⟩
  held := List.forall_mem_singleton.2 (holds_index (by simp)).held
  areVars := List.forall_mem_singleton.2 ⟨0, false, rfl⟩
  named := List.forall_mem_singleton.2 (by decide)
  distinct := by decide
  unissued := List.forall_mem_singleton.2 (unissued_of_plain (by decide) 1)

def IsCast (f : Func) : Prop := f = { name := f.name, init := some ⟨[x], value⟩ }

theorem isCast_g : IsCast ((program copy name).func 0) := rfl

theorem isCast_w : IsCast ((program copy name).func 2) := rfl

theorem grounded_cast {id : FuncId} (isCast : IsCast ((program copy name).func id)) :
    (program copy name).Grounded id := by
  refine .intro (by rw [isCast]; rfl) fun callee needed => ?_
  rw [isCast] at needed
  rcases needed with ⟨_, isInitial, called⟩ | ⟨_, isUpdate, _⟩
  · cases isInitial
    simp [value, x, calls_node] at called
  · cases isUpdate

theorem grounded_f : (program copy name).Grounded 1 := by
  refine .intro rfl fun callee needed => ?_
  have isG : callee = 0 := by
    rcases needed with ⟨_, isInitial, called⟩ | ⟨_, isUpdate, called, other⟩
    · cases isInitial
      simp [square, readG, x, calls_node] at called
      exact called.symm
    · obtain rfl := List.mem_singleton.1 isUpdate
      simp [sum, readF, readShifted, shifted, step, x, calls_node] at called
      exact (called.resolve_left other.symm).symm
  exact isG ▸ grounded_cast isCast_g

theorem adds : AddsTo 1 ["x"] ⟨[x], sum name⟩ (readShifted name) where
  value := ⟨11, .float32, readF, rfl, 6, "f", .float32, rfl⟩
  args := .cons rfl .nil
  other called := by simp [readShifted, shifted, step, x, calls_node] at called

theorem func_f : (program copy name).ElementaryFunc (registry copy name) 1 where
  grounded := grounded_f
  declares := ⟨[x], declares rfl⟩
  initial _ isInitial := by
    cases isInitial
    exact ⟨rfl, fun called => by simp [square, readG, x, calls_node] at called⟩
  typed _ isInitial u isUpdate := by
    cases isInitial
    obtain rfl := List.mem_singleton.1 isUpdate
    rfl
  writes u isUpdate := by
    obtain rfl := List.mem_singleton.1 isUpdate
    exact .cons ⟨0, false, rfl⟩ .nil
  repeats u isUpdate := by
    obtain rfl := List.mem_singleton.1 isUpdate
    exact .inr ⟨readShifted name, adds⟩

theorem func_cast {id : FuncId} (isCast : IsCast ((program copy name).func id)) :
    (program copy name).ElementaryFunc (registry copy name) id where
  grounded := grounded_cast isCast
  declares := ⟨[x], declares isCast⟩
  initial _ isInitial := by
    rw [isCast] at isInitial
    cases isInitial
    exact ⟨rfl, fun called => by simp [value, x, calls_node] at called⟩
  typed _ _ _ isUpdate := by
    rw [isCast] at isUpdate
    cases isUpdate
  writes _ isUpdate := by
    rw [isCast] at isUpdate
    cases isUpdate
  repeats _ isUpdate := by
    rw [isCast] at isUpdate
    cases isUpdate

theorem exact_square (reads : Reads (DualNumber ℚ)) (env : Env) :
    exact reads.answers env (square copy name) = reads 0 [env "x"] * reads 0 [env "x"] := by
  simp [square, readG, x, headExact, Reads.answers, Env.scalars, BinaryOp.exact]

theorem exact_sum (reads : Reads (DualNumber ℚ)) (env : Env) :
    exact reads.answers env (sum name) = reads 1 [env "x"] + reads 0 [env "x" + env "s.x"] := by
  have named : axisName "s" 0 = "s.x" := by decide
  have whole (a b : Int) : wholePart ((a : ℚ) + b) = a + b := by
    rw [← Int.cast_add, wholePart_intCast]
  simp [sum, readF, readShifted, shifted, step, x, headExact, Reads.answers, Env.scalars, BinaryOp.exact,
    named, whole]

theorem exact_loss (reads : Reads (DualNumber ℚ)) (env : Env) :
    exact reads.answers env loss = reads 1 [env "r_00000000.x"] * reads 2 [env "r_00000000.x"] := by
  have named : axisName "r_00000000" 0 = "r_00000000.x" := by decide
  simp [loss, readSum, weight, axis, headExact, Reads.answers, named, BinaryOp.exact]

theorem values_cast (bump : Bump (DualNumber ℚ)) {id : FuncId}
    (isCast : IsCast ((program copy name).func id)) (i : Int) :
    (program copy name).values bump id [i] = i + bump id (-1) [i] := by
  rw [(grounded_cast isCast).values_eq, Program.compute, isCast]
  generalize (program copy name).values bump = reads
  change exact reads.answers (assign ["x"] [i] zeroEnv) value + bump id (-1) [i] = _
  simp [value, x, headExact, castExact, Env.scalars, assign]

theorem values_f (bump : Bump (DualNumber ℚ)) (i : Int) :
    (program copy name).values bump 1 [i] = (program copy name).values bump 0 [i] *
      (program copy name).values bump 0 [i] + bump 1 (-1) [i] + (program copy name).values bump 0 [i] +
        (program copy name).values bump 0 [i + 1] + bump 1 0 [i] := by
  have scope : (Definition.scope ⟨[x], sum name⟩) = [("s.x", 0, 1)] := rfl
  have points : Scope.points [("s.x", 0, 1)] = [[0], [1]] := by decide
  rw [grounded_f.values_eq]
  generalize (program copy name).values bump = reads
  change runUpdate reads 1 ["x"] ⟨[x], sum name⟩ (fun index => exact reads.answers
    (assign ["x"] index zeroEnv) (square copy name) + bump 1 (-1) index) [i] + bump 1 0 [i] = _
  rw [runUpdate, scope, points]
  simp [exact_sum, exact_square, Scope.names, assign]

theorem forward_eq (id : FuncId) : (program copy name).forward loss id (-1) [2] =
    ∑ i ∈ ({0, 1, 2} : Finset Int), ((program copy name).values (bumpAt id (-1) [2]) 1 [i] *
      (program copy name).values (bumpAt id (-1) [2]) 2 [i]).snd := by
  have axes : loss.axes = [("r_00000000.x", 0, 2)] := rfl
  have points : Finset.Icc (0 : Int) 2 = {0, 1, 2} := by decide
  unfold Program.forward
  simp [exact_loss, axes, sumOver, points]

theorem forward_g : (program copy name).forward loss 0 (-1) [2] = 11 := by
  rw [forward_eq]
  simp [values_f, values_cast _ isCast_g, values_cast _ isCast_w, bumpAt]
  norm_num

theorem forward_f : (program copy name).forward loss 1 (-1) [2] = 2 := by
  rw [forward_eq]
  simp [values_f, values_cast _ isCast_g, values_cast _ isCast_w, bumpAt]

theorem fits : (registry copy name).Fits (program copy name).supply := ⟨rfl, rfl⟩

theorem unissued_axis : Unissued 1 "r_00000000.x" := by
  have isAxis : "r_00000000.x" = axisName (generatedName "r" 0) 0 := by decide +kernel
  exact isAxis ▸ unissued_axisName "r" 0 Nat.one_pos

theorem home_f : (program copy name).Home loss (some 1) := .of_root ⟨readSum, .operand nofun (.head _) .here, "f", rfl⟩

theorem home_g : (program copy name).Home loss (some 0) :=
  .call home_f ⟨(-1, ⟨[x], square copy name⟩), .head _, .operand nofun (.head _) .here⟩ ⟨name, rfl⟩

end

def variants : List (NodeId × String) := [(7, "g"), (8, "g"), (7, "h")]

section

variable {copy : NodeId} {name : String} (isVariant : (copy, name) ∈ variants)

include isVariant

theorem variant_cases : copy = 7 ∧ name = "g" ∨ copy = 8 ∧ name = "g" ∨ copy = 7 ∧ name = "h" := by
  simpa [variants] using isVariant

theorem ordered : (program copy name).Ordered [1, 0, 2] := by
  rcases variant_cases isVariant with ⟨rfl, rfl⟩ | ⟨rfl, rfl⟩ | ⟨rfl, rfl⟩ <;> decide

theorem fromRoot : (program copy name).MeetsAmong [1, 0, 2] loss := by
  rcases variant_cases isVariant with ⟨rfl, rfl⟩ | ⟨rfl, rfl⟩ | ⟨rfl, rfl⟩ <;> decide

theorem encloses : (program copy name).Encloses loss [1, 0, 2] :=
  (ordered isVariant).encloses (fromRoot isVariant)

theorem isHome {f : FuncId} (home : (program copy name).Home loss (some f)) : f = 1 ∨ f = 0 ∨ f = 2 := by
  simpa using (encloses isVariant).home home f rfl

theorem held {e : Expr} (member : e ∈ [value, square copy name, sum name, loss]) :
    (registry copy name).Holds e := by
  simp only [List.mem_cons, List.not_mem_nil, or_false] at member
  rcases variant_cases isVariant with ⟨rfl, rfl⟩ | ⟨rfl, rfl⟩ | ⟨rfl, rfl⟩ <;>
    rcases member with rfl | rfl | rfl | rfl <;>
    simp [Registry.Holds, Registry.IsRegistered, registry, Expr.id, value, square, sum, loss, x, readG,
      readF, readShifted, readSum, weight, shifted, step, axis]

theorem indexed : (program copy name).Indexed (registry copy name) loss := by
  have arguments : (program copy name).argumentsOf loss [1, 0, 2] ⊆ [x, shifted, axis] := by
    change [axis, axis, x, x, x, shifted] ⊆ _
    simp
  refine (ordered isVariant).indexed (fromRoot isVariant) ?_ fun arg member => holds_index (arguments member)
  rcases variant_cases isVariant with ⟨rfl, rfl⟩ | ⟨rfl, rfl⟩ | ⟨rfl, rfl⟩ <;> decide

theorem undeclared {other : String} (differs : other ≠ "x") (id : FuncId)
    (home : (program copy name).Home loss (some id)) : other ∉ ((program copy name).func id).declared := by
  have isX : ((program copy name).func id).declared = ["x"] := by
    rcases isHome isVariant home with rfl | rfl | rfl <;> rfl
  simpa [isX] using differs

theorem place {caller : StageKey} {declared : List String} {e : Expr}
    (isPlace : (program copy name).Place loss caller declared e) :
    (program copy name).ElementaryPlace (registry copy name) loss caller declared e := by
  have listed : (caller, declared, e) ∈ places copy name := (encloses isVariant).mem_placesOf isPlace
  have member : e ∈ [value, square copy name, sum name, loss] := by
    simp only [places, List.mem_cons, Prod.mk.injEq, List.not_mem_nil, or_false] at listed ⊢
    tauto
  refine ⟨held isVariant member, elementaryNodes member, fun y id called outer isCall =>
    call listed outer isCall, fun y other within named => ?_⟩
  rcases variable_cases listed within named with ⟨rfl, rfl⟩ | ⟨rfl, rfl⟩ | ⟨rfl, rfl⟩ <;> cases named
  · exact .inl ⟨.head _, rfl⟩
  · exact .inr ⟨undeclared isVariant (by decide), unissued_of_plain (by decide) 1, (0, 1), .head _, 4, "s",
      0, zero, two, rfl, rfl, closed (by simp), closed (by simp)⟩
  · exact .inr ⟨undeclared isVariant (by decide), unissued_axis, (0, 2), .head _, 14,
      "r_00000000", 0, first, three, rfl, rfl, closed (by simp), closed (by simp)⟩

theorem elementary : (program copy name).Elementary (registry copy name) loss where
  toIndexed := indexed isVariant
  places _ _ _ := place isVariant
  funcs id home := by
    rcases isHome isVariant home with rfl | rfl | rfl
    · exact func_f
    · exact func_cast isCast_g
    · exact func_cast isCast_w

theorem smooth : (program copy name).SmoothlyDemanded loss := by
  intro caller declared e env isPlace _ _ y listed
  have isListed : (caller, declared, e) ∈ places copy name := (encloses isVariant).mem_placesOf isPlace
  simp only [places, List.mem_cons, Prod.mk.injEq, List.not_mem_nil, or_false] at isListed
  have within := (outer_of_differentiable listed).subnode
  rcases isListed with ⟨_, rfl, rfl⟩ | ⟨_, rfl, rfl⟩ | ⟨_, rfl, rfl⟩ | ⟨_, rfl, rfl⟩ | ⟨_, rfl, rfl⟩ <;>
    simp only [value, square, sum, loss, readG, readF, readShifted, readSum, weight, shifted, x, step, axis,
      subnode_node, subnode_reduction, List.mem_cons, List.not_mem_nil, or_false, false_and, exists_false,
      exists_eq_or_imp, exists_eq_left] at within
  · rcases within with rfl | (rfl | rfl) | rfl | rfl <;> trivial
  · rcases within with rfl | (rfl | rfl) | rfl | rfl <;> trivial
  · rcases within with rfl | (rfl | rfl) | rfl | rfl | rfl | rfl <;> trivial
  all_goals
    rcases within with rfl | rfl
    · rfl
    · trivial

theorem tellsTextsApart : (program copy name).TellsTextsApart settings.hash loss := by
  have isOk : ((inferBoundsBy (.watched settings.hash .unreadStage) Inference.nestingLimit
      loss).run.run (program copy name)).1.toOption.isSome = true := by
    rw [settings, Sha256.hexDigest_eq]
    rcases variant_cases isVariant with ⟨rfl, rfl⟩ | ⟨rfl, rfl⟩ | ⟨rfl, rfl⟩ <;> decide +kernel
  cases run : (inferBoundsBy (.watched settings.hash .unreadStage) Inference.nestingLimit
      loss).run.run (program copy name) with
  | mk result left =>
      rw [run] at isOk
      cases result with
      | error => cases isOk
      | ok domains => exact (inferBounds_watched run).1

theorem returns : ∃ d left,
    (derivative settings loss).run.run (program copy name) = (.ok d, left) := by
  have isOk :
      ((derivative settings loss).run.run (program copy name)).1.toOption.isSome = true := by
    rw [settings, Sha256.hexDigest_eq]
    rcases variant_cases isVariant with ⟨rfl, rfl⟩ | ⟨rfl, rfl⟩ | ⟨rfl, rfl⟩ <;> decide +kernel
  cases run : (derivative settings loss).run.run (program copy name) with
  | mk result left =>
      rw [run] at isOk
      cases result with
      | error => cases isOk
      | ok d => exact ⟨d, left, rfl⟩

end

theorem adjoint_sums_points_of_spread : ∃ d left amount adjoint,
    (derivative settings loss).run.run (program 7 "g") = (.ok d, left) ∧
      (program 7 "g").Backpropagates loss (spans d.domains) amount adjoint ∧ adjoint ⟨"g", -1⟩ [2] = 11 := by
  have isVariant : (7, "g") ∈ variants := .head _
  obtain ⟨d, left, run⟩ := returns isVariant
  obtain ⟨amount, adjoint, backpropagates, holds⟩ :=
    adjoint_sums_points fits (tellsTextsApart isVariant) rfl
    (elementary isVariant) run
  refine ⟨d, left, amount, adjoint, run, backpropagates, ?_⟩
  obtain ⟨_, _, _, forward⟩ := derivative_forward (elementary isVariant)
    (tellsTextsApart isVariant) rfl (smooth isVariant)
    fits d left run
  obtain ⟨target, isTarget, _, values⟩ := holds 0 (-1, ⟨[x], value⟩) home_g (.head _)
  obtain ⟨target', isTarget', _, values'⟩ := forward 0 (-1, ⟨[x], value⟩) home_g (.head _)
  obtain rfl : target = target' := Except.ok.inj (isTarget.symm.trans isTarget')
  exact (values [2] rfl).symm.trans ((values' [2] rfl).trans forward_g)

theorem adjoint_of_g : ∃ d left target,
    (derivative settings loss).run.run (program 7 "g") = (.ok d, left) ∧
      d.adjoint "g" (-1) = .ok target ∧ left.exactReads target [2] = 11 := by
  have isVariant : (7, "g") ∈ variants := .head _
  obtain ⟨d, left, run⟩ := returns isVariant
  obtain ⟨target, isTarget, _, values⟩ := reverse_eq_forward fits (tellsTextsApart isVariant) rfl
    (elementary isVariant) run
    (smooth isVariant) 0 (-1, ⟨[x], value⟩) home_g (.head _)
  exact ⟨d, left, target, run, isTarget, (values [2] rfl).trans forward_g⟩

theorem adjoint_before_update : ∃ d left target target',
    (derivative settings loss).run.run (program 7 "g") = (.ok d, left) ∧
      d.adjoint "f" (-1) = .ok target ∧ left.exactReads target [2] = 2 ∧
      d.adjoint "g" (-1) = .ok target' ∧ left.exactReads target' [2] = 11 := by
  have isVariant : (7, "g") ∈ variants := .head _
  obtain ⟨d, left, run⟩ := returns isVariant
  obtain ⟨⟨target, isTarget, values⟩, others⟩ := recurrence_eq_forward fits
    (tellsTextsApart isVariant) rfl
    (elementary isVariant) run (smooth isVariant) (f := 1) (n := 0) home_f rfl
  have isRead : (sum "g").Calls 0 := by simp [sum, readF, readShifted, calls_node]
  obtain ⟨target', isTarget', values'⟩ := others 0 isRead (by decide)
  exact ⟨d, left, target, target', run, isTarget, (values [2] rfl).trans forward_f, isTarget',
    (values' [2] rfl).trans forward_g⟩

end Spread

end ReverseMode
