import ReverseMode.Derivative.Propagation
import ReverseMode.Proofs.Bounds.Keys

namespace ReverseMode

open Expr

def DerivativeRules.Steady (rules : DerivativeRules) : Prop :=
  ∀ name rule, rules.lookup name = some rule → ∀ base args adjoint,
    ReverseMode.Steady base (rule args adjoint) Any

def DerivativeRules.Sparing (bad : Fault → Prop) (rules : DerivativeRules) : Prop :=
  ∀ name rule, rules.lookup name = some rule → ∀ base args adjoint,
    ReverseMode.Sparing bad base (rule args adjoint) Any

def Keeps {α : Type} (bad : Fault → Prop) (base : Program) (settings : Differentiation)
    (P : Accumulation → Prop) (action : AdjointM α) (Q : Accumulation → Prop) : Prop :=
  SparingRun bad base P (action.run settings) fun _ => Q

namespace Keeps

variable {α β : Type} {bad : Fault → Prop} {base : Program} {settings : Differentiation}
  {P Q R : Accumulation → Prop}

theorem pure {a : α} : Keeps bad base settings P (Pure.pure a) P :=
  SparingRun.pure fun _ => id

theorem bind {action : AdjointM α} {rest : α → AdjointM β}
    (first : Keeps bad base settings P action Q)
    (second : ∀ a, Keeps bad base settings Q (rest a) R) :
    Keeps bad base settings P (action >>= rest) R :=
  SparingRun.bind first second

theorem bind_lift {action : ProgramM α} {rest : α → AdjointM β} {A : α → Prop}
    (sparing : Sparing bad base action A)
    (second : ∀ a, A a → Keeps bad base settings P (rest a) R) :
    Keeps bad base settings P (liftM action >>= rest) R :=
  SparingRun.bind_lift sparing second

theorem lift {action : ProgramM α} {A : α → Prop} (sparing : Sparing bad base action A) :
    Keeps bad base settings P (liftM action) P :=
  (SparingRun.lift sparing).mono (fun _ => id) fun _ _ => And.right

theorem bind_get {rest : Accumulation → AdjointM β}
    (second : ∀ state, P state → Keeps bad base settings P (rest state) R) :
    Keeps bad base settings P (Accumulation.get >>= rest) R :=
  fun state holds => second state holds state holds

theorem bind_program {rest : Program → AdjointM β}
    (second : ∀ later, base.Preserves later → Keeps bad later settings P (rest later) R) :
    Keeps bad base settings P (liftM (getThe Program : ProgramM Program) >>= rest) R := by
  intro state holds program preserved result left run
  obtain ⟨spares, answering⟩ :=
    second program preserved state holds program (.of_funcs rfl) result left run
  exact ⟨spares, fun a same => (answering a same).imp_left preserved.trans⟩

theorem bind_settings {rest : Differentiation → AdjointM β}
    (second : Keeps bad base settings P (rest settings) R) :
    Keeps bad base settings P (readThe Differentiation >>= rest) R := second

theorem modify {change : Accumulation → Accumulation}
    (changes : ∀ state, P state → Q (change state)) :
    Keeps bad base settings P (Accumulation.modify change) Q :=
  SparingRun.modify changes

theorem throw_good {fault : Fault} (good : ¬ bad fault) :
    Keeps bad base settings P (liftM (throw fault : ProgramM α)) Q :=
  SparingRun.throw_good good

theorem throw_good_bind {fault : Fault} {rest : α → AdjointM β} (good : ¬ bad fault) :
    Keeps bad base settings P (liftM (MonadExcept.throw fault : ProgramM α) >>= rest) R :=
  bind (throw_good (Q := fun _ => False) good) fun _ _ impossible => impossible.elim

theorem throw [Procedural bad] {fault : Fault} (other : ¬ fault.IsProcedural) :
    Keeps bad base settings P (liftM (throw fault : ProgramM α)) Q :=
  SparingRun.throw other

theorem throw_bind [Procedural bad] {fault : Fault} {rest : α → AdjointM β}
    (other : ¬ fault.IsProcedural) :
    Keeps bad base settings P (liftM (MonadExcept.throw fault : ProgramM α) >>= rest) R :=
  throw_good_bind (mt (Procedural.isProcedural fault) other)

theorem each (action : α → AdjointM PUnit) {body : α → PUnit → AdjointM (ForInStep PUnit)}
    (isBody : ∀ a, body a ⟨⟩ = do action a; Pure.pure (.yield ⟨⟩))
    (P : List α → Accumulation → Prop) (as : List α)
    (step : ∀ done a rest, as = done ++ a :: rest →
      Keeps bad base settings (P done) (action a) (P (done ++ [a]))) :
    Keeps bad base settings (P []) (forIn as ⟨⟩ body) (P as) := by
  have after (left : List α) : ∀ done, as = done ++ left →
      Keeps bad base settings (P done) (forIn left ⟨⟩ body) (P as) := by
    induction left with
    | nil =>
        rintro done rfl
        rw [List.append_nil]
        exact pure
    | cons a rest ih =>
        intro done split
        rw [List.forIn_cons, isBody, bind_assoc]
        refine (step done a rest split).bind fun _ => ?_
        rw [pure_bind]
        exact ih (done ++ [a]) (by simp [split])
  exact after as [] rfl

theorem mono {action : AdjointM α} {P' Q' : Accumulation → Prop}
    (keeps : Keeps bad base settings P action Q) (before : ∀ state, P' state → P state)
    (after : ∀ state, Q state → Q' state) : Keeps bad base settings P' action Q' :=
  SparingRun.mono keeps before fun _ => after

end Keeps

/-- What is known of the tables: the functions by name, the stages that may be complete, and stages
that have an adjoint function. -/
structure Ledger where
  funcs : List (String × FuncId)
  final : List StageKey
  stocked : List StageKey

def Ledger.complete (ledger : Ledger) (key : StageKey) : Ledger :=
  { ledger with final := ledger.final ++ [key] }

structure Accumulation.Within (base : Program) (ledger : Ledger) (state : Accumulation) :
    Prop where
  funcs : state.funcs = ledger.funcs
  final : state.finalized ⊆ ledger.final
  stocked : ∀ key ∈ ledger.stocked, (state.targets.find? key).isSome
  new : ∀ entry ∈ state.targets, base.funcs.size ≤ entry.2

structure Ledger.Serves (ledger : Ledger) (bad : Fault → Prop) (base : Program) (ctx : CallContext)
    (id : FuncId) : Prop where
  known : id < base.funcs.size
  timely : calledStage ctx.key (base.func id) ∈ ledger.final → ∀ name stage caller callerStage text,
    ¬ bad (.adjointFinal name stage caller callerStage text)
  stocked : bad .missingStageEntry → calledStage ctx.key (base.func id) ∈ ledger.stocked
  listed : bad .missingStageEntry → 0 ≤ ctx.key.stage → (ledger.funcs.lookup ctx.key.name).isSome

theorem Accumulation.Within.store {base : Program} {ledger : Ledger} {state : Accumulation}
    (within : state.Within base ledger) (key : StageKey) {target : FuncId}
    (new : base.funcs.size ≤ target) :
    Accumulation.Within base { ledger with stocked := ledger.stocked ++ [key] }
      { state with targets := state.targets.insert key target } where
  funcs := within.funcs
  final := within.final
  stocked other isStocked := by
    rw [StageTable.find?_insert]
    split
    next => rfl
    next different =>
      exact within.stocked other ((List.mem_append.1 isStocked).resolve_right (by simp [different]))
  new entry member := by
    rcases StageTable.mem_insert member with rfl | before
    · exact new
    · exact within.new entry before

section

variable {bad : Fault → Prop} {base : Program} {settings : Differentiation} {ledger : Ledger}

abbrev Minor (bad : Fault → Prop) (base : Program) (settings : Differentiation) (ledger : Ledger)
    {α : Type} (action : AdjointM α) : Prop :=
  Keeps bad base settings (Accumulation.Within base ledger) action
    (Accumulation.Within base ledger)

theorem accumulate_minor {target adjoint : Expr} :
    Minor bad base settings ledger (accumulate target adjoint) := by
  have store (total : Expr) : Minor bad base settings ledger
      (Accumulation.modify fun state =>
        { state with adjoints := state.adjoints.insert target.id total }) :=
    .modify fun _ within => { within with }
  unfold accumulate
  refine .bind_get fun state _ => ?_
  dsimp only
  split
  next => exact store _
  next =>
    split
    next => exact store _
    next =>
      split
      next => exact store _
      next => exact .bind_lift .ofNode fun _ _ => store _

theorem accumulateEach_minor (contributions : List (Expr × Expr)) :
    Minor bad base settings ledger (accumulateEach contributions) := by
  induction contributions with
  | nil => exact .pure
  | cons entry rest ih => exact accumulate_minor.bind fun _ => ih

theorem accumulateVariable_minor {name : String} {adjoint : Expr} :
    Minor bad base settings ledger (accumulateVariable name adjoint) := by
  unfold accumulateVariable
  refine .bind_get fun state _ => ?_
  split
  next => exact .pure
  next =>
    split
    next => exact .bind_lift .ofNode fun _ _ => accumulate_minor
    next => exact accumulate_minor

theorem forIn_minor {α : Type} {body : α → PUnit → AdjointM (ForInStep PUnit)} (as : List α)
    (each : ∀ a ∈ as, Minor bad base settings ledger (body a ⟨⟩)) :
    Minor bad base settings ledger (forIn as ⟨⟩ body) := by
  induction as with
  | nil => exact .pure
  | cons a rest ih =>
      obtain ⟨first, others⟩ := List.forall_mem_cons.1 each
      rw [List.forIn_cons]
      refine first.bind fun step => ?_
      cases step with
      | done => exact .pure
      | yield => exact ih others

theorem closeAdjoint_minor {adjoint : Expr} :
    Minor bad base settings ledger (closeAdjoint adjoint) :=
  .bind_get fun _ _ => .lift .ofNode

variable [Procedural bad]

theorem accumulatePrimitive_minor (rules : settings.rules.Sparing bad) {call adjoint : Expr}
    {name : String} {args : List Expr} :
    Minor bad base settings ledger (accumulatePrimitive call name args adjoint) := by
  unfold accumulatePrimitive
  refine .bind_settings ?_
  split
  next =>
    split
    next => exact .throw not_false
    next =>
      refine .bind_lift .report fun _ _ => ?_
      refine (forIn_minor args fun arg _ => ?_).bind fun _ => .pure
      exact .bind_lift .ofNode fun _ _ => accumulate_minor.bind fun _ => .pure
  next rule known =>
    refine .bind_lift (rules name rule known base args adjoint) fun contributions _ => ?_
    split
    next => exact .throw_bind not_false
    next => exact accumulateEach_minor _

theorem definition_sparing {f : Func} {stage : Int} :
    Sparing bad base (liftM (f.definition stage) : ProgramM Definition) Any :=
  .ofExcept (.definition f stage) fun _ _ => trivial

theorem copyUpdates_sparing {name : String} {id snapshot : FuncId}
    (new : base.funcs.size ≤ snapshot) (updates : List Nat) :
    Sparing bad base (stageSnapshot.copyUpdates name id snapshot updates) Any := by
  induction updates with
  | nil => exact .pure trivial
  | cons update rest ih =>
      unfold stageSnapshot.copyUpdates
      exact Sparing.getFunc.bind fun _ _ => definition_sparing.bind fun _ _ =>
        replaceCalls_sparing.bind fun _ _ => (Sparing.define new).bind fun _ _ => ih

theorem copy_sparing {args : List Expr} {name : String} {stage : Int} {id : FuncId} :
    Sparing bad base (stageSnapshot.copy args name stage id) Any := by
  unfold stageSnapshot.copy
  exact Sparing.declareFunc.bind fun _ new => Sparing.getFunc.bind fun _ _ =>
    definition_sparing.bind fun _ _ => (Sparing.define new).bind fun _ _ =>
    (copyUpdates_sparing new _).bind fun _ _ => .pure trivial

theorem stageSnapshot_minor {args : List Expr} {name : String} {stage : Int}
    (listed : bad .missingStageEntry → (ledger.funcs.lookup name).isSome) :
    Minor bad base settings ledger (stageSnapshot args name stage) := by
  unfold stageSnapshot
  refine .bind_get fun state _ => ?_
  split
  next => exact .pure
  next =>
    have built : Minor bad base settings ledger (stageSnapshot.build args name stage) := by
      unfold stageSnapshot.build
      refine .bind_get fun state within => ?_
      split
      next absent =>
        refine .throw_good fun isBad => ?_
        have present := listed isBad
        rw [← within.funcs, absent] at present
        cases present
      next => exact .lift copy_sparing
    exact built.bind fun snapshot =>
      Keeps.bind (.modify fun _ within => { within with }) fun _ => .pure

theorem solve_sparing {equation : Expr} {unknownName : String} :
    Sparing bad base (solve equation unknownName) Any := .ofBuild (.solve equation unknownName)

theorem invertArgument_sparing {ctx : CallContext} {call arg pivot target : Expr} {position : Nat} :
    Sparing bad base (invertArgument ctx call position arg pivot target) Any := by
  unfold invertArgument
  split
  next => exact .pure trivial
  next =>
    refine Sparing.ofNode.bind fun _ _ => solve_sparing.bind fun solution _ => ?_
    split
    next => exact .pure trivial
    next => exact .throw not_false

theorem restrictToBounds_sparing {pivot inverse adjoint : Expr} :
    Sparing bad base (restrictToBounds pivot inverse adjoint) Any := by
  unfold restrictToBounds
  split
  next =>
    exact Sparing.ofNode.bind fun _ _ => (Sparing.simplify _).bind fun _ _ => Sparing.ofNode.bind
      fun _ _ => Sparing.ofNode.bind fun _ _ => Sparing.ofNode.bind fun _ _ => .ofNode
  next => exact .pure trivial

theorem matchArguments_sparing {ctx : CallContext} {call : Expr} {position : Nat}
    (targets args : List Expr) (adjoint : Expr) :
    Sparing bad base (matchArguments ctx call position targets args adjoint) Any := by
  induction targets generalizing position args adjoint with
  | nil =>
      unfold matchArguments
      exact .pure trivial
  | cons target rest ih =>
      cases args with
      | nil => exact .throw not_false
      | cons arg others =>
          unfold matchArguments
          split
          next => exact Sparing.ofNode.bind fun _ _ => Sparing.ofNode.bind fun _ _ => ih _ _
          next =>
            exact invertArgument_sparing.bind fun _ _ => Sparing.ofNode.bind fun _ _ =>
              restrictToBounds_sparing.bind fun _ _ =>
              (Sparing.mapM _ fun _ _ => .ofNode).bind fun _ _ => ih _ _

theorem sumLeftover_sparing {ctx : CallContext} {adjoint : Expr} :
    Sparing bad base (sumLeftover ctx adjoint) Any := by
  unfold sumLeftover
  extract_lets
  split
  next => exact .pure trivial
  next =>
    refine Sparing.ofNode.bind fun domain _ =>
      (Sparing.mapM _ fun name _ => ?_).bind fun _ _ => .ofNode
    split
    next => exact .pure trivial
    next => exact .throw not_false

theorem canonicalize_sparing {ctx : CallContext} {call adjoint : Expr} {callee : Func} :
    Sparing bad base (canonicalize ctx call callee adjoint) Any := by
  unfold canonicalize
  refine (Sparing.args callee).bind fun vars _ => (Sparing.mapM _ fun v _ => ?_).bind fun _ _ => ?_
  · exact Sparing.ofNode.bind fun _ _ => .ofNode
  · exact (matchArguments_sparing _ _ _).bind fun _ _ => sumLeftover_sparing.bind fun _ _ => .ofNode

theorem addUpdate_sparing {callee : Func} {target : FuncId} {contribution : Expr}
    (new : base.funcs.size ≤ target) :
    Sparing bad base (scatter.addUpdate callee target contribution) Any := by
  unfold scatter.addUpdate
  exact (Sparing.args callee).bind fun _ _ => Sparing.callFunc.bind fun _ _ => Sparing.ofNode.bind
    fun _ _ => .define new

theorem scatter_spares {ctx : CallContext} {call adjoint : Expr} {id : FuncId}
    (timely : ∀ callee, (id < base.funcs.size → callee = base.func id) →
      calledStage ctx.key callee ∈ ledger.final → ∀ name stage caller callerStage text,
        ¬ bad (.adjointFinal name stage caller callerStage text))
    (stocked : ∀ callee, (id < base.funcs.size → callee = base.func id) →
      bad .missingStageEntry → calledStage ctx.key callee ∈ ledger.stocked)
    (listed : bad .missingStageEntry → 0 ≤ ctx.key.stage →
      (ledger.funcs.lookup ctx.key.name).isSome) :
    Minor bad base settings ledger (scatter ctx call id adjoint) := by
  unfold scatter
  refine .bind_lift Sparing.getFunc fun callee isCallee => .bind_get fun state within => ?_
  dsimp only
  split
  next complete =>
    -- a contribution to a stage that is complete
    have final := within.final (List.contains_iff_mem.1 complete)
    exact .throw_good_bind (timely callee isCallee final _ _ _ _ _)
  next =>
    split
    next => exact .pure
    next =>
      refine closeAdjoint_minor.bind fun closed => ?_
      -- both ways go on with the canonical form of what is contributed
      split
      on_goal 1 =>
        refine (stageSnapshot_minor fun isBad => listed isBad ‹_›).bind fun snapshot =>
          .bind_lift replaceCalls_sparing fun current _ => ?_
      on_goal 2 => rw [pure_bind]
      all_goals
        refine .bind_lift canonicalize_sparing fun contribution _ => .bind_lift .report fun _ _ => ?_
        refine .bind_get fun state within => ?_
        split
        next absent =>
          refine .throw_good fun isBad => ?_
          have present := within.stocked _ (stocked callee isCallee isBad)
          rw [absent] at present
          cases present
        next known =>
          exact .lift (addUpdate_sparing (within.new _ (StageTable.mem_of_find? known)))

theorem scatter_minor {ctx : CallContext} {call adjoint : Expr} {id : FuncId}
    (serves : ledger.Serves bad base ctx id) :
    Minor bad base settings ledger (scatter ctx call id adjoint) :=
  scatter_spares (fun _ isCallee final => serves.timely (isCallee serves.known ▸ final))
    (fun _ isCallee isBad => (isCallee serves.known).symm ▸ serves.stocked isBad) serves.listed

theorem propagateNode_minor (rules : settings.rules.Sparing bad) {ctx : CallContext}
    {e adjoint : Expr} (serves : ∀ id, e.CallsHere id → ledger.Serves bad base ctx id) :
    Minor bad base settings ledger (propagateNode ctx e adjoint) := by
  unfold propagateNode
  refine .bind_settings ?_
  split
  next => exact .pure
  next =>
    split
    next => exact accumulateVariable_minor
    next =>
      split
      next => exact accumulateVariable_minor
      next => exact accumulate_minor
      next => exact .throw not_false
      next => exact .bind_lift .ofNode fun _ _ => accumulateEach_minor _
      next =>
        split
        next => exact .pure
        next => exact .throw not_false
      next =>
        exact .bind_lift .ofNode fun _ _ => accumulate_minor.bind fun _ => .bind_lift .ofNode
          fun _ _ => accumulate_minor
      next => exact .throw not_false
      next =>
        refine accumulate_minor.bind fun _ => .bind_lift .ofNode fun _ _ => accumulate_minor.bind
          fun _ => ?_
        exact .modify fun _ within => { within with }
      next => exact .throw not_false
      next id name _ => exact scatter_minor (serves id ⟨name, rfl⟩)
      next => exact accumulatePrimitive_minor rules
      next => exact .pure
      next => exact .pure
      next => exact .pure

end

def ListsOuter (e : Expr) (action : StateM NodeOrder Unit) : Prop :=
  ∀ (order : NodeOrder) x,
    x ∈ (action.run order).2.nodes.toList → x ∈ order.nodes.toList ∨ Outer x e

namespace ListsOuter

variable {e : Expr}

theorem bind {first : StateM NodeOrder Unit} {second : Unit → StateM NodeOrder Unit}
    (before : ListsOuter e first) (after : ListsOuter e (second ())) :
    ListsOuter e (first >>= second) :=
  fun order x listed => (after _ x listed).elim (before order x) .inr

theorem push {x : Expr} (outer : Outer x e) :
    ListsOuter e (modify fun order => { order with nodes := order.nodes.push x }) := by
  intro order y listed
  change y ∈ (order.nodes.push x).toList at listed
  rw [Array.toList_push, List.mem_append, List.mem_singleton] at listed
  exact listed.imp_right fun same : y = x => same ▸ outer

theorem visit {node : NodeId} :
    ListsOuter e (modify fun order => { order with visited := order.visited.insert node }) :=
  fun _ _ listed => .inl listed

theorem orderAll {es : List Expr} (each : ∀ x ∈ es, ListsOuter e x.orderFrom) :
    ListsOuter e (orderAll es) := by
  induction es with
  | nil => exact fun order x listed => .inl listed
  | cons first rest ih =>
      obtain ⟨outer, others⟩ := List.forall_mem_cons.1 each
      exact outer.bind (ih others)

theorem orderFrom (e : Expr) : ListsOuter e e.orderFrom := by
  induction e using Expr.induction with
  | reduction node domain axis least extent =>
      intro order x listed
      unfold Expr.orderFrom at listed
      rw [StateT.run_bind, StateT.run_get] at listed
      simp only [pure_bind] at listed
      split at listed
      · exact .inl listed
      · exact push .here _ x listed
  | node node head dtype operands ih =>
      have operand (other : ∀ callee name, head ≠ .call (.func callee name)) (y : Expr)
          (member : y ∈ operands) : ListsOuter (.node node head dtype operands) y.orderFrom :=
        fun order x listed => (ih y member order x listed).imp_right (.operand other member)
      intro order x listed
      unfold Expr.orderFrom at listed
      rw [StateT.run_bind, StateT.run_get] at listed
      simp only [pure_bind] at listed
      split at listed
      · exact .inl listed
      · refine bind visit ?_ order x listed
        split
        next => exact push .here
        next => exact push .here
        next =>
          split
          next => exact push .here
          next => exact (orderAll (operand nofun)).bind (push .here)
        next =>
          split
          next => exact push .here
          next => exact (orderAll fun y member => operand nofun y (.tail _ member)).bind (push .here)
        next other _ _ _ => exact (orderAll (operand other)).bind (push .here)

end ListsOuter

theorem outer_of_differentiable {e x : Expr} (listed : x ∈ e.differentiable) : Outer x e :=
  (ListsOuter.orderFrom e {} x listed).resolve_left (by simp)

section

variable {bad : Fault → Prop} [Bookkeeping bad] {base : Program} {settings : Differentiation}
  {ledger : Ledger}

theorem propagateNodes_minor (rules : settings.rules.Sparing bad) {ctx : CallContext}
    {es : List Expr}
    (serves : ∀ e ∈ es, ∀ id, e.CallsHere id → ledger.Serves bad base ctx id) :
    Minor bad base settings ledger (propagateNodes ctx es) := by
  induction es with
  | nil => exact .pure
  | cons e rest ih =>
      obtain ⟨first, others⟩ := List.forall_mem_cons.1 serves
      unfold propagateNodes
      refine .bind_get fun state _ => ?_
      split
      next => exact .throw_good_bind (mt (Bookkeeping.isBookkeeping _) not_false)
      next => exact (propagateNode_minor rules first).bind fun _ => ih others

theorem propagate_minor (rules : settings.rules.Sparing bad) {ctx : CallContext} {e seed : Expr}
    (serves : ∀ id, e.Meets id → ledger.Serves bad base ctx id) :
    Minor bad base settings ledger (propagate ctx e seed) := by
  unfold propagate
  refine Keeps.bind (Q := Accumulation.Within base ledger) (.modify fun _ within => { within with })
    fun _ => .bind_lift .report fun _ _ => ?_
  exact propagateNodes_minor rules fun x listed id calls =>
    serves id ⟨x, outer_of_differentiable (List.mem_reverse.1 listed), calls⟩

theorem create_sparing {f : Func} {stage : Int} :
    Sparing bad base (Derivative.createTargets.create f stage) fun target =>
      base.funcs.size ≤ target := by
  unfold Derivative.createTargets.create
  exact (Sparing.args f).bind fun _ _ => Sparing.declareFunc.bind fun _ new =>
    Sparing.ofNode.bind fun _ _ => (Sparing.define new).bind fun _ _ => .pure new

theorem checkUpdates_sparing {f : Func} :
    Sparing bad base (liftM (checkUpdates f) : ProgramM Unit) Any := by
  refine .ofExcept ((Spares.args f).bind fun _ => ?_) fun _ _ => trivial
  extract_lets
  split
  next => exact .ok
  next => exact .of_error not_false

theorem createTargets_keeps {id : FuncId} (known : id < base.funcs.size) :
    Keeps bad base settings (Accumulation.Within base ledger) (Derivative.createTargets id)
      (Accumulation.Within base { ledger with
        stocked := ledger.stocked ++ (base.func id).keys }) := by
  unfold Derivative.createTargets
  refine .bind_lift Sparing.getFunc fun f isFunc => .bind_lift checkUpdates_sparing fun _ _ => ?_
  rw [isFunc known]
  let stocked (done : List (Int × Definition)) : Ledger := { ledger with
    stocked := ledger.stocked ++ done.map (base.func id).key }
  refine ((Keeps.each (fun entry => do
    let target ← liftM (Derivative.createTargets.create (base.func id) entry.1)
    Accumulation.modify fun state => { state with
      targets := state.targets.insert ⟨(base.func id).name, entry.1⟩ target })
    (fun ⟨_, _⟩ => by simp only [bind_assoc]) (fun done => Accumulation.Within base (stocked done))
    (base.func id).stages fun done entry rest _ => ?_).mono ?_ fun _ within => within).bind
    fun _ => .pure
  · refine .bind_lift create_sparing fun target new => .modify fun state within => ?_
    have stored := within.store ((base.func id).key entry) new
    simpa [stocked, Func.key] using stored
  · simp [stocked]

theorem finishStage_keeps (rules : settings.rules.Sparing bad) {domains : StageTable Domain}
    {f : Func} {stage : Int} {definition : Definition}
    (entered : bad .missingStageEntry →
      (domains.find? ⟨f.name, stage⟩).isSome ∧ ⟨f.name, stage⟩ ∈ ledger.stocked)
    (serves : ∀ args domain id, definition.value.Meets id →
      (ledger.complete ⟨f.name, stage⟩).Serves bad base ⟨⟨f.name, stage⟩, args, domain⟩ id) :
    Keeps bad base settings (Accumulation.Within base ledger)
      (Derivative.finishStage domains f stage definition)
      (Accumulation.Within base (ledger.complete ⟨f.name, stage⟩)) := by
  unfold Derivative.finishStage
  extract_lets key
  refine .bind_get fun state within => ?_
  split
  next domain target _ _ =>
    refine .bind_lift (.args f) fun args _ => .bind_lift .constantExterior fun wrapped new => ?_
    refine Keeps.bind (Q := Accumulation.Within base (ledger.complete key))
      (.modify fun state within => ?_) fun _ =>
      .bind_lift .callFunc fun _ _ => propagate_minor rules (serves args domain)
    have stored := within.store key new
    refine ⟨stored.funcs, List.cons_subset.2 ⟨List.mem_append_right _ (.head _), fun other done =>
      List.mem_append_left _ (within.final done)⟩, fun other member => ?_, stored.new⟩
    exact stored.stocked other (List.mem_append_left _ member)
  next absent =>
    refine .throw_good fun isBad => ?_
    obtain ⟨inDomains, inTargets⟩ := entered isBad
    obtain ⟨domain, isDomain⟩ := Option.isSome_iff_exists.1 inDomains
    obtain ⟨target, isTarget⟩ := Option.isSome_iff_exists.1 (within.stocked _ inTargets)
    exact absent domain target isDomain isTarget

end

section

variable {bad : Fault → Prop} [Bookkeeping bad] {program : Program} {root : Expr}
  {settings : Differentiation}

namespace Program

def keysOf (program : Program) (ids : List FuncId) : List StageKey :=
  ids.flatMap fun id => (program.func id).keys

def ledger (program : Program) (root : Expr) (final : List StageKey) : Ledger where
  funcs := (((program.reachable root).map fun id => (program.func id).name).zip
    (program.reachable root)).reverse
  final := final
  stocked := program.keysOf (program.reachable root)

/-- Whatever is walked is served when it is: the root first, then the stages of the listed functions
one after another, with this stage and those before it complete. -/
structure Served (program : Program) (root : Expr) (bad : Fault → Prop)
    (domains : StageTable Domain) : Prop where
  known : ∀ id ∈ program.reachable root, id < program.funcs.size
  inDomains : bad .missingStageEntry → ∀ key ∈ program.keysOf (program.reachable root),
    (domains.find? key).isSome
  atRoot : ∀ id, root.Meets id → (program.ledger root []).Serves bad program .root id
  atStage : ∀ done f rest, program.reachable root = done ++ f :: rest →
    ∀ walked entry left, (program.func f).stages.reverse = walked ++ entry :: left →
      ∀ args domain id, entry.2.value.Meets id →
        (program.ledger root (program.keysOf done ++
          (walked ++ [entry]).map (program.func f).key)).Serves bad program
          ⟨(program.func f).key entry, args, domain⟩ id

end Program

theorem finishFunc_keeps (rules : settings.rules.Sparing bad) {domains : StageTable Domain}
    (served : program.Served root bad domains) {done rest : List FuncId} {f : FuncId}
    (order : program.reachable root = done ++ f :: rest) :
    Keeps bad program settings
      (Accumulation.Within program (program.ledger root (program.keysOf done)))
      (Derivative.finishFunc domains f)
      (Accumulation.Within program (program.ledger root (program.keysOf (done ++ [f])))) := by
  have listed : f ∈ program.reachable root := order ▸ by simp
  let ledger (walked : List (Int × Definition)) : Ledger :=
    program.ledger root (program.keysOf done ++ walked.map (program.func f).key)
  unfold Derivative.finishFunc
  refine .bind_lift Sparing.getFunc fun g isFunc => ?_
  rw [isFunc (served.known f listed)]
  refine ((Keeps.each (fun entry => Derivative.finishStage domains (program.func f) entry.1 entry.2)
    (fun ⟨_, _⟩ => rfl) (fun walked => Accumulation.Within program (ledger walked))
    (program.func f).stages.reverse fun walked entry left split => ?_).mono ?_ ?_).bind
    fun _ => .pure
  · have isStage : entry ∈ (program.func f).stages := List.mem_reverse.1 (split ▸ by simp)
    have isKey : (program.func f).key entry ∈ program.keysOf (program.reachable root) :=
      List.mem_flatMap.2 ⟨f, listed, List.mem_map_of_mem isStage⟩
    have completed : (ledger walked).complete ((program.func f).key entry) =
        ledger (walked ++ [entry]) := by simp [ledger, Ledger.complete, Program.ledger]
    rw [← completed]
    refine finishStage_keeps rules (fun isBad => ⟨served.inDomains isBad _ isKey, isKey⟩) ?_
    change ∀ args domain id, _ →
      ((ledger walked).complete ((program.func f).key entry)).Serves _ _ _ _
    rw [completed]
    exact served.atStage done f rest order walked entry left split
  · intro state within
    simpa [ledger] using within
  · exact fun state within => { within with
      final := List.Subset.trans within.final
        (by simp [ledger, Program.ledger, Program.keysOf, Func.keys]) }

theorem finishAll_keeps (rules : settings.rules.Sparing bad) {domains : StageTable Domain}
    (served : program.Served root bad domains)
    {body : FuncId → PUnit → AdjointM (ForInStep PUnit)}
    (isBody : ∀ id, body id ⟨⟩ = do Derivative.finishFunc domains id; pure (.yield ⟨⟩)) :
    Keeps bad program settings (Accumulation.Within program (program.ledger root []))
      (forIn (program.reachable root) ⟨⟩ body) fun _ => True :=
  (Keeps.each _ isBody
    (fun done => Accumulation.Within program (program.ledger root (program.keysOf done))) _
    fun _ _ _ order => finishFunc_keeps rules served order).mono (fun _ within => within)
    fun _ _ => trivial

theorem reportTargets_sparing {base : Program} {targets : StageTable FuncId} :
    Sparing bad base (Derivative.reportTargets targets) Any := by
  unfold Derivative.reportTargets
  refine Sparing.getProgram.bind fun p _ => ?_
  split
  next =>
    refine (Sparing.forIn targets fun entry _ => ?_).bind fun _ _ => .pure trivial
    dsimp only
    split
    next =>
      refine listing_sparing.bind fun lines _ => ?_
      exact (Sparing.forIn lines fun _ _ => Sparing.report.bind fun _ _ => .pure trivial).bind
        fun _ _ => .pure trivial
    next => exact .pure trivial
  next => exact .pure trivial

theorem derivative_sparing (rules : settings.rules.Sparing bad) {A : StageTable Domain → Prop}
    (infers : Sparing bad program (inferBoundsWith settings.hash root) A)
    (served : ∀ later domains, program.Preserves later → A domains →
      later.Served root bad domains) :
    Sparing bad program (derivative settings root) Any := by
  have keeps : Keeps bad program settings (· = {}) (Derivative.ofLoss root) fun _ => True := by
    unfold Derivative.ofLoss
    refine .bind_settings (.bind_lift infers fun domains inferred => .bind_program
      fun later preserved => ?_)
    have served := served later domains preserved inferred
    extract_lets order names
    let ledger (done : List FuncId) : Ledger :=
      { later.ledger root [] with stocked := later.keysOf done }
    refine Keeps.bind (Q := Accumulation.Within later (ledger [])) (.modify ?_) fun _ => ?_
    · rintro _ rfl
      exact ⟨rfl, List.nil_subset _, by simp [ledger, Program.keysOf], by simp⟩
    refine (Keeps.each Derivative.createTargets (fun _ => rfl)
      (fun done => Accumulation.Within later (ledger done)) order fun done id rest split => ?_).bind
      fun _ => ?_
    · have known := served.known id (by rw [show later.reachable root = _ from split]; simp)
      refine (createTargets_keeps known).mono (fun _ within => within) fun _ within => ?_
      simpa [ledger, Program.keysOf] using within
    refine .bind_lift .report fun _ _ => .bind_lift .ofNode fun seed _ => ?_
    have walked : Minor bad later settings (later.ledger root []) (propagate .root root seed) :=
      propagate_minor rules served.atRoot
    refine walked.bind fun _ => ?_
    refine (finishAll_keeps rules served fun _ => rfl).bind fun _ => .bind_get fun state _ => ?_
    exact .bind_lift reportTargets_sparing fun _ _ => .pure
  exact Sparing.bind (keeps {} rfl) fun _ _ => .pure trivial

end

theorem DerivativeRules.standard_sparing {bad : Fault → Prop} [Procedural bad] :
    DerivativeRules.standard.Sparing bad := by
  intro name rule known base args adjoint
  have unary (contribution : Expr → Expr → NodeM Expr) :
      ReverseMode.Sparing bad base (DerivativeRule.unary contribution args adjoint) Any := by
    unfold DerivativeRule.unary
    split
    next => exact .throw not_false
    next => exact Sparing.ofNode.bind fun _ _ => .pure trivial
  have listed : (name, rule) ∈ DerivativeRules.standard := by
    obtain ⟨before, after, same, _⟩ := List.lookup_eq_some_iff.1 known
    simp [same]
  simp only [standard, List.mem_cons, Prod.mk.injEq, List.not_mem_nil, or_false] at listed
  rcases listed with ⟨_, rfl⟩ | ⟨_, rfl⟩ | ⟨_, rfl⟩ | ⟨_, rfl⟩ | ⟨_, rfl⟩ | ⟨_, rfl⟩ | ⟨_, rfl⟩
  case inr.inr.inr.inr.inr.inr =>
    unfold DerivativeRule.pow
    split
    next => exact .ofNode
    next => exact .throw not_false
  all_goals exact unary _

end ReverseMode
