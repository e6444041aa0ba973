import ReverseMode.Proofs.Derivative.Lookups
import ReverseMode.Proofs.Derivative.Transport

namespace ReverseMode

open Expr Finset

theorem sumOver_ne_zero {f : Env → ℚ} {scope : Scope} (distinct : scope.names.Nodup) {env : Env}
    (differs : sumOver f scope env ≠ 0) : ∃ env', scope.Reaches env env' ∧ f env' ≠ 0 := by
  by_contra none
  refine differs ((sumOver_congr (g := fun _ => 0) distinct fun env' reaches => ?_).trans
    (sumOver_zero scope env))
  exact not_not.1 fun other => none ⟨env', reaches, other⟩

def Pass.ofLoss (loss : Expr) : Pass := ⟨CallContext.root.key, [], [], loss⟩

def Boxes.box (boxes : Boxes) (key : StageKey) : List (Int × Int) := (boxes key).getD []

def Program.pass (p : Program) (boxes : Boxes) (f : FuncId) (entry : Int × Definition) : Pass :=
  ⟨(p.func f).key entry, (p.func f).declared, boxes.box ((p.func f).key entry), entry.2.value⟩

def Grid.confined (values : Grid ℚ) (box : List (Int × Int)) : Grid ℚ := fun index =>
  if Within box index then values index else 0

/-- What was collected for every stage once some stages are complete: a pass was made over the loss and
over each of these stages, and none of them gave to a stage that was complete. -/
inductive Program.Collects (p : Program) (loss : Expr) (boxes : Boxes) :
    List StageKey → (StageKey → Grid ℚ) → Prop
  | loss {given : StageKey → Grid ℚ} : (Pass.ofLoss loss).Conveys p (fun _ => 1) given →
      p.Collects loss boxes [] given
  | stage {done : List StageKey} {collected given : StageKey → Grid ℚ} {f : FuncId}
      {entry : Int × Definition} : p.Collects loss boxes done collected →
      p.Home loss (some f) → entry ∈ (p.func f).stages → (p.func f).key entry ∉ done →
      (p.func f).declared.length = (boxes.box ((p.func f).key entry)).length →
      (p.pass boxes f entry).Conveys p ((collected ((p.func f).key entry)).confined
        (boxes.box ((p.func f).key entry))) given →
      (∀ call ∈ (p.pass boxes f entry).calls p, call.2 ∉ (p.func f).key entry :: done) →
      p.Collects loss boxes ((p.func f).key entry :: done) (collected + given)

section

variable {p : Program} {r : Registry} {loss : Expr} {boxes : Boxes} {pass : Pass}
  {call : Expr × StageKey} {f : FuncId} {entry : Int × Definition} {env : Env}

namespace Program

/-- The pass runs over the loss or over a stage that is reached, within its box. -/
structure Passes (p : Program) (loss : Expr) (boxes : Boxes) (pass : Pass) : Prop where
  place : p.Place loss pass.caller pass.declared pass.value
  box : boxes.place pass.caller = some pass.box
  sameLength : pass.declared.length = pass.box.length

theorem Elementary.built (elementary : p.Elementary r loss) : p.Built loss where
  toLinked := elementary.linked
  titled := elementary.titled
  initial f d isHome isInitial := by
    rintro ⟨x, outer, isCall⟩
    exact ((elementary.funcs f isHome).initial d isInitial).2 ⟨x, outer.subnode, isCall⟩

theorem Passes.reads (elementary : p.Elementary r loss) (passes : p.Passes loss boxes pass)
    (member : call ∈ pass.calls p) : ∃ id name, Outer call.1 pass.value ∧
      call.1.callee? = some (.func id name) ∧ p.Home loss (some id) ∧
      call.2 = calledStage pass.caller (p.func id) ∧ call.2 ∈ p.keysOf (p.reachable loss) := by
  obtain ⟨listed, id, name, isCall, isKey⟩ := mem_callsAmong.1 member
  have outer := outer_of_differentiable listed
  have meets : pass.value.Meets id := ⟨call.1, outer, name, isCall⟩
  have isHome := passes.place.home meets
  refine ⟨id, name, outer, isCall, isHome, isKey, ?_⟩
  have hasStage : (p.func id).HasStage (calledStage pass.caller (p.func id)) := by
    obtain ⟨caller, declared, box, value⟩ := pass
    cases passes.place with
    | root =>
        have reads : CallContext.root.Reads p value [] id := elementary.built.reads_of_root meets
        exact reads.stage
    | @stage f entry isHome isStage =>
        have reads : CallContext.Reads ⟨(p.func f).key entry, [], []⟩ p loss [f] id :=
          elementary.built.reads_of_stage isHome (.head _) isStage meets
        exact reads.stage
  obtain ⟨vars, declares⟩ := (elementary.funcs id isHome).declares
  obtain ⟨initial, isInitial, _⟩ := declares.args
  rw [isKey]
  exact List.mem_flatMap.2 ⟨id, elementary.linked.mem_reachable.2 isHome,
    (Func.mem_keys isInitial).2 hasStage⟩

theorem Passes.of_loss (loss : Expr) : p.Passes loss boxes (.ofLoss loss) :=
  ⟨.root, if_pos rfl, rfl⟩

theorem Passes.of_stage (elementary : p.Elementary r loss) (fitting : Fitting p loss boxes)
    (isHome : p.Home loss (some f)) (isStage : entry ∈ (p.func f).stages)
    (sameLength : (p.func f).declared.length = (boxes.box ((p.func f).key entry)).length) :
    p.Passes loss boxes (p.pass boxes f entry) := by
  have place : p.Place loss ((p.func f).key entry) (p.func f).declared entry.2.value :=
    .stage isHome isStage
  obtain ⟨box, known, _⟩ := fitting.places _ _ _ place
  have titled : (p.func f).key entry ≠ CallContext.root.key := fun same =>
    elementary.titled f isHome (congrArg StageKey.name same)
  have isPlace : boxes.place ((p.func f).key entry) = boxes ((p.func f).key entry) := if_neg titled
  rw [isPlace] at known
  refine ⟨place, ?_, sameLength⟩
  change boxes.place ((p.func f).key entry) = some (boxes.box ((p.func f).key entry))
  rw [isPlace, Boxes.box, known]
  rfl

theorem Passes.names_stage (passes : p.Passes loss boxes pass) :
    pass.stage.names = pass.declared := names_zip passes.sameLength

theorem Passes.inside (passes : p.Passes loss boxes pass) {axes : Scope}
    (reaches : Scope.Reaches (pass.stage ++ axes) zeroEnv env) : Inside pass.declared pass.box env := by
  refine List.forall₂_iff_get.2 ⟨passes.sameLength.symm, fun i inBox inDeclared => ?_⟩
  refine reaches.append.1 (pass.declared[i], pass.box[i]) ?_
  have within : i < pass.stage.length := by
    rw [Pass.stage, List.length_zip]
    exact lt_min inDeclared inBox
  have here : pass.stage[i] = (pass.declared[i], pass.box[i]) := List.getElem_zip
  exact here ▸ List.getElem_mem within

section

variable (elementary : p.Elementary r loss) (passes : p.Passes loss boxes pass)

include elementary passes

theorem Passes.declared_distinct : pass.declared.Nodup ∧
    ∀ name ∈ pass.declared, name ∉ pass.value.axes.names := by
  obtain ⟨caller, declared, box, value⟩ := pass
  cases passes.place with
  | root => exact ⟨.nil, fun _ member => absurd member List.not_mem_nil⟩
  | @stage f entry isHome isStage =>
      obtain ⟨vars, declares⟩ := (elementary.funcs f isHome).declares
      have distinct : (p.func f).declared.Nodup := declares.declared ▸ declares.distinct
      refine ⟨distinct, fun name isDeclared isAxis => ?_⟩
      obtain ⟨axis, member, rfl⟩ := List.mem_map.1 isAxis
      exact ((elementary.places _ _ _ passes.place).mem_axes member).1 f isHome isDeclared

theorem Passes.distinct : Scope.names (pass.stage ++ pass.value.axes) |>.Nodup := by
  obtain ⟨distinct, apart⟩ := passes.declared_distinct elementary
  have isNames := passes.names_stage
  rw [Scope.names, List.map_append]
  change (pass.stage.names ++ pass.value.axes.names).Nodup
  rw [isNames]
  exact distinct.append (Definition.nodup_scope _) fun name first second => apart name first second

theorem Passes.distinct_scope (key : StageKey) : (pass.scope key).names.Nodup := by
  unfold Pass.scope Pass.axes
  split
  · rw [List.append_nil, passes.names_stage]
    exact (passes.declared_distinct elementary).1
  · exact passes.distinct elementary

theorem Passes.sum_points (seed : Grid ℚ) (g : Env → ℚ) :
    sumOver (fun env => seed (pass.declared.map env) * g env) (pass.stage ++ pass.value.axes) zeroEnv =
      ∑ index ∈ boxPoints pass.box,
        seed index * sumOver g pass.value.axes (assign pass.declared index zeroEnv) := by
  obtain ⟨distinct, apart⟩ := passes.declared_distinct elementary
  exact sumOver_seeded distinct passes.sameLength (Definition.nodup_scope _) apart seed g

theorem Passes.sum_stage (seed : Grid ℚ) (g : Env → ℚ) :
    sumOver (fun env => seed (pass.declared.map env) * g env) pass.stage zeroEnv =
      ∑ index ∈ boxPoints pass.box, seed index * g (assign pass.declared index zeroEnv) := by
  obtain ⟨distinct, _⟩ := passes.declared_distinct elementary
  have nodup : Scope.names [] |>.Nodup := .nil
  rw [← List.append_nil pass.stage]
  exact sumOver_seeded distinct passes.sameLength nodup (fun _ _ => List.not_mem_nil) seed g

theorem Passes.args_inside (member : call ∈ pass.calls p)
    (own : pass.caller.name = call.2.name → ∀ arg ∈ call.1.operands, AxesInside arg env)
    (reaches : (pass.scope call.2).Reaches zeroEnv env) :
    ∀ arg ∈ call.1.operands, AxesInside arg env := by
  by_cases isOwn : pass.caller.name = call.2.name
  · exact own isOwn
  · rw [Pass.scope, Pass.axes, if_neg isOwn] at reaches
    have inside := (elementary.places _ _ _ passes.place).axesInside reaches.append.2
    obtain ⟨_, _, outer, _⟩ := passes.reads elementary member
    exact fun arg isArg => inside.sub ((subnode_operand isArg).trans outer.subnode)

theorem Passes.lands (fitting : Fitting p loss boxes) (member : call ∈ pass.calls p)
    (inside : ∀ arg ∈ call.1.operands, AxesInside arg env)
    (reaches : (pass.scope call.2).Reaches zeroEnv env) :
    call.1.operands.map (Expr.integer env) ∈ boxPoints (boxes.box call.2) := by
  obtain ⟨id, name, outer, isCall, _, isKey, _⟩ := passes.reads elementary member
  obtain ⟨target, known, within⟩ := fitting.reads_within passes.place
    ⟨call.1, id, name, outer, isCall, rfl, isKey.symm⟩ passes.box (passes.inside reaches) inside
  rw [Boxes.box, known]
  exact mem_boxPoints.2 within

theorem Passes.demands {seed : Grid ℚ} {given : StageKey → Grid ℚ}
    (own : ∀ call ∈ pass.calls p, pass.caller.name = call.2.name →
      ∀ env, ∀ arg ∈ call.1.operands, AxesInside arg env)
    (demanded : ∀ env, seed (pass.declared.map env) ≠ 0 →
      p.Demands loss pass.caller (pass.declared.map env))
    (conveys : pass.Conveys p seed given) {key : StageKey} {index : List Int}
    (isGiven : given key index ≠ 0) : p.Demands loss key index := by
  obtain ⟨amount, rfl, flows⟩ := conveys
  obtain ⟨share, among, isShare⟩ := List.exists_mem_ne_zero_of_sum_ne_zero isGiven
  obtain ⟨call, member, rfl⟩ := List.mem_map.1 among
  rw [Pass.share] at isShare
  split at isShare
  next isKey =>
    obtain ⟨env, reaches, isAmount⟩ :=
      sumOver_ne_zero (passes.distinct_scope elementary key) isShare
    rw [← isKey] at reaches
    split at isAmount
    next isIndex =>
      obtain ⟨id, name, outer, isCall, _, isStage, _⟩ := passes.reads elementary member
      have isSeed : seed (pass.declared.map env) ≠ 0 := fun isZero =>
        isAmount ((flows env).vanishes isZero call member)
      rw [isIndex, ← isKey]
      exact .call passes.place (demanded _ isSeed)
        (passes.args_inside elementary member (fun isOwn => own call member isOwn env) reaches)
        ⟨call.1, id, name, outer, isCall, rfl, isStage.symm⟩
    next => exact absurd rfl isAmount
  next => exact absurd rfl isShare

end

noncomputable def named (p : Program) (loss : Expr) (name : String) : FuncId :=
  Classical.epsilon fun id => p.Home loss (some id) ∧ (p.func id).name = name

theorem Elementary.named_eq (elementary : p.Elementary r loss) (isHome : p.Home loss (some f)) :
    p.named loss (p.func f).name = f := by
  have chosen := Classical.epsilon_spec
    (⟨f, isHome, rfl⟩ : ∃ id, p.Home loss (some id) ∧ (p.func id).name = (p.func f).name)
  exact elementary.distinct _ _ chosen.1 isHome chosen.2

noncomputable def tangents (p : Program) (loss : Expr) (bump : Bump (DualNumber ℚ)) (key : StageKey) :
    Grid ℚ := fun index => (p.stored bump (p.named loss key.name) key.stage index).snd

noncomputable def bumps (p : Program) (loss : Expr) (bump : Bump (DualNumber ℚ)) (key : StageKey) :
    Grid ℚ := fun index => (bump (p.named loss key.name) key.stage index).snd

noncomputable def weigh (p : Program) (loss : Expr) (boxes : Boxes) (given weight : StageKey → Grid ℚ) :
    ℚ :=
  ∑ key ∈ (p.keysOf (p.reachable loss)).toFinset, ∑ index ∈ boxPoints (boxes.box key),
    given key index * weight key index

section

variable {bump : Bump (DualNumber ℚ)} {seed : Grid ℚ} {given : StageKey → Grid ℚ}
  (elementary : p.Elementary r loss) (fitting : Fitting p loss boxes)
  (passes : p.Passes loss boxes pass) (smooth : p.SmoothlyDemanded loss)
  (infinitesimal : (fun id stage index => standard (bump id stage index)) = fun _ _ _ => 0)

include elementary passes in
theorem Passes.tangent_call (member : call ∈ pass.calls p) (env : Env) :
    p.tangent bump pass.caller env call.1 =
      p.tangents loss bump call.2 (call.1.operands.map (Expr.integer env)) := by
  obtain ⟨id, name, outer, isCall, isHome, isKey, _⟩ := passes.reads elementary member
  have isIndex := ((elementary.places _ _ _ passes.place).calls _ _ _ outer isCall).isIndex
  rw [Program.tangent_call isCall isIndex, tangents, isKey, calledStage_name,
    elementary.named_eq isHome]

include elementary passes smooth infinitesimal in
theorem Passes.chains (demanded : p.Demands loss pass.caller (pass.declared.map env))
    (reaches : Scope.Reaches (pass.stage ++ pass.value.axes) zeroEnv env) :
    Chains (p.ratReads pass.caller).answers env pass.value (p.tangent bump pass.caller env) := by
  intro x member noCall
  have place := elementary.places _ _ _ passes.place
  have within := (outer_of_differentiable member).subnode
  exact tangent_chain (place.plain.sub within)
    (fun callee called => elementary.grounded_of_calls passes.place within called) infinitesimal noCall
    (smooth _ _ _ env passes.place demanded (place.axesInside reaches.append.2) x member)

include elementary fitting passes in
theorem Passes.sum_given {amount : Expr → Env → ℚ}
    (own : ∀ call ∈ pass.calls p, pass.caller.name = call.2.name →
      ∀ env, ∀ arg ∈ call.1.operands, AxesInside arg env) :
    p.weigh loss boxes (pass.handed amount (pass.calls p)) (p.tangents loss bump) =
      ((pass.calls p).map fun call => sumOver (fun env => amount call.1 env *
        p.tangents loss bump call.2 (call.1.operands.map (Expr.integer env))) (pass.scope call.2)
        zeroEnv).sum := by
  unfold weigh
  refine sum_handed (fun call member => ?_)
    (fun call member => passes.distinct_scope elementary call.2) fun call member env reaches => ?_
  · obtain ⟨_, _, _, _, _, _, among⟩ := passes.reads elementary member
    exact List.mem_toFinset.2 among
  · exact passes.lands elementary fitting member (passes.args_inside elementary member
      (fun isOwn => own call member isOwn env) reaches) reaches

include elementary fitting passes smooth infinitesimal in
theorem Passes.sum_uniform (conveys : pass.Conveys p seed given)
    (own : ∀ call ∈ pass.calls p, pass.caller.name = call.2.name →
      ∀ env, ∀ arg ∈ call.1.operands, AxesInside arg env)
    (uniform : ∀ call ∈ pass.calls p, pass.axes call.2 = pass.value.axes)
    (demanded : ∀ env, seed (pass.declared.map env) ≠ 0 →
      p.Demands loss pass.caller (pass.declared.map env)) :
    p.weigh loss boxes given (p.tangents loss bump) =
      ∑ index ∈ boxPoints pass.box, seed index * sumOver
        (fun env => p.tangent bump pass.caller env pass.value) pass.value.axes
        (assign pass.declared index zeroEnv) := by
  obtain ⟨amount, rfl, flows⟩ := conveys
  rw [passes.sum_given elementary fitting own, sum_whole flows uniform (passes.distinct elementary)
    (fun env reaches isSeed => passes.chains elementary smooth infinitesimal (demanded _ isSeed) reaches)
    fun call member env => passes.tangent_call elementary member env]
  exact passes.sum_points elementary seed _

end

section

variable {bump : Bump (DualNumber ℚ)} {seed : Grid ℚ} {given : StageKey → Grid ℚ}
  (elementary : p.Elementary r loss) (fitting : Fitting p loss boxes) (smooth : p.SmoothlyDemanded loss)
  (infinitesimal : (fun id stage index => standard (bump id stage index)) = fun _ _ _ => 0)
  (isHome : p.Home loss (some f)) (isStage : entry ∈ (p.func f).stages)
  (sameLength : (p.func f).declared.length = (boxes.box ((p.func f).key entry)).length)
  (conveys : (p.pass boxes f entry).Conveys p seed given)
  (demanded : ∀ index, seed index ≠ 0 → p.Demands loss ((p.func f).key entry) index)

include elementary isHome isStage in
theorem stage_cases : entry.2.value.axes = [] ∨ ∃ (n : Nat) (d : Definition) (e : Expr),
    entry = ((n : Int), d) ∧ (p.func f).updates[n]? = some d ∧ AddsTo f (p.func f).declared d e := by
  have func := elementary.funcs f isHome
  obtain ⟨stage, d⟩ := entry
  obtain ⟨initial, isInitial, ⟨rfl, rfl⟩ | ⟨n, rfl, isUpdate⟩⟩ := mem_stages.1 isStage
  · exact .inl (func.initial d isInitial).1
  · rcases func.repeats d (List.mem_of_getElem? isUpdate) with noAxes | ⟨e, adds⟩
    · exact .inl noAxes
    · exact .inr ⟨n, d, e, rfl, isUpdate, adds⟩

include elementary isHome isStage in
theorem isAdded {n : Nat} {d : Definition} {e : Expr} (isEntry : entry = ((n : Int), d))
    (adds : AddsTo f (p.func f).declared d e) :
    ∃ call, call.operands = d.args ∧ IsAdded entry.2.value call e f := by
  subst isEntry
  obtain ⟨node, dtype, call, isSum, node', name, dtype', rfl⟩ := adds.value
  exact ⟨_, rfl, ⟨node, dtype, isSum⟩, ⟨name, rfl⟩, adds.other,
    (elementary.places _ _ _ (.stage isHome isStage)).held.coherent⟩

include elementary isHome isStage in
theorem added_calls {call e : Expr} (added : IsAdded entry.2.value call e f)
    {other : Expr × StageKey} (member : other ∈ (p.pass boxes f entry).calls p) :
    other.1 = call ∨ (p.func f).name ≠ other.2.name := by
  obtain ⟨listed, id, name, isCall, isKey⟩ := mem_callsAmong.1 member
  rcases added.listed listed with isValue | isOwn | within
  · obtain ⟨node, dtype, isSum⟩ := added.isSum
    rw [isValue, isSum] at isCall
    cases isCall
  · exact .inl isOwn
  · refine .inr fun same => added.other ⟨other.1, within, name, ?_⟩
    have isHome' : p.Home loss (some id) := (Place.stage isHome isStage).home
      ⟨other.1, outer_of_differentiable listed, name, isCall⟩
    rw [isKey, calledStage_name] at same
    rw [isCall, elementary.distinct f id isHome isHome' same]

include elementary isHome isStage in
theorem own_inside {call : Expr × StageKey} (member : call ∈ (p.pass boxes f entry).calls p)
    (isOwn : (p.func f).name = call.2.name) {arg : Expr} (isArg : arg ∈ call.1.operands) (env : Env) :
    AxesInside arg env := by
  rcases stage_cases elementary isHome isStage with noAxes | ⟨n, d, e, isEntry, isUpdate, adds⟩
  · have place := elementary.places _ _ _ (.stage isHome isStage)
    have outer := outer_of_differentiable (mem_callsAmong.1 member).1
    refine (place.axesInside (noAxes ▸ fun _ absent => nomatch absent)).sub ?_
    exact (subnode_operand isArg).trans outer.subnode
  · obtain ⟨own, isArgs, added⟩ := isAdded elementary isHome isStage isEntry adds
    have writes := (elementary.funcs f isHome).writes d (List.mem_of_getElem? isUpdate)
    have isCall := (added_calls elementary isHome isStage added member).resolve_right (not_not.2 isOwn)
    rw [isCall, isArgs] at isArg
    obtain ⟨_, _, node, index, rfl⟩ := forall₂_mem_left writes isArg
    rintro x (_ | ⟨absent, _⟩)
    · rintro _ _ _ _ _ same
      cases same
    · cases absent

theorem tangent_own {value call e : Expr} (added : IsAdded value call e f)
    (writes : List.Forall₂ IsIndexVariable call.operands (p.func f).declared)
    (distinct : (p.func f).declared.Nodup) {index : List Int}
    (isIndex : index.length = (p.func f).declared.length) (stage : Int) :
    p.tangent bump ⟨(p.func f).name, stage⟩ (assign (p.func f).declared index zeroEnv) call =
      (p.stored bump f (stage - 1) index).snd := by
  obtain ⟨name, isCall⟩ := added.isCall
  have isVariable : ∀ arg ∈ call.operands, ∃ name, IsIndexVariable arg name := fun arg isArg =>
    (forall₂_mem_left writes isArg).imp fun _ => And.right
  have reads : call.operands.map (Expr.integer (assign (p.func f).declared index zeroEnv)) = index := by
    have declared : (p.func f).declared.map (assign (p.func f).declared index zeroEnv) = index :=
      map_assign distinct isIndex
    refine Eq.trans ?_ declared
    rw [← List.forall₂_eq_eq_eq, List.forall₂_map_left_iff, List.forall₂_map_right_iff]
    exact writes.imp fun _ _ isVar => isVar.integer _
  have isSelf : calledStage ⟨(p.func f).name, stage⟩ (p.func f) = ⟨(p.func f).name, stage - 1⟩ :=
    if_pos rfl
  rw [tangent_call isCall (S := fun _ => True) (K := fun _ => True) fun arg isArg => ?_, reads, isSelf]
  obtain ⟨name, isVar⟩ := isVariable arg isArg
  exact isVar.index.mono (fun _ _ => trivial) fun _ => False.elim

include elementary isHome in
theorem tangents_key (index : List Int) : p.tangents loss bump ((p.func f).key entry) index =
    (p.stored bump f entry.1 index).snd := by
  rw [tangents, Func.key, elementary.named_eq isHome]

include elementary isHome in
theorem bumps_key (index : List Int) : p.bumps loss bump ((p.func f).key entry) index =
    (bump f entry.1 index).snd := by
  rw [bumps, Func.key, elementary.named_eq isHome]

include elementary isHome isStage in
theorem tangents_once (noAxes : entry.2.value.axes = []) (index : List Int) :
    p.tangents loss bump ((p.func f).key entry) index =
      p.tangent bump ((p.func f).key entry) (assign (p.func f).declared index zeroEnv) entry.2.value +
        p.bumps loss bump ((p.func f).key entry) index := by
  have func := elementary.funcs f isHome
  obtain ⟨stage, d⟩ := entry
  rw [tangents_key elementary isHome, bumps_key elementary isHome, tangent]
  refine congrArg TrivSqZeroExt.snd (stored_once isStage
    (elementary.readsOthers isHome isStage .here) ?_ ?_ index)
  · rintro rfl
    obtain ⟨initial, isInitial, ⟨_, same⟩ | ⟨i, isUpdate, _⟩⟩ := mem_stages.1 isStage
    · cases same
      exact (func.initial d isInitial).2
    · omega
  · obtain ⟨initial, isInitial, ⟨isFirst, _⟩ | ⟨i, isUpdate, found⟩⟩ := mem_stages.1 isStage
    · exact .inl isFirst
    · exact .inr ((scope_eq_axes (func.writes d (List.mem_of_getElem? found))).trans noAxes)

include elementary isHome isStage in
theorem tangents_added {n : Nat} {d : Definition} {e : Expr} (isEntry : entry = ((n : Int), d))
    (isUpdate : (p.func f).updates[n]? = some d) (adds : AddsTo f (p.func f).declared d e)
    {index : List Int} (isIndex : index.length = (p.func f).declared.length) :
    p.tangents loss bump ((p.func f).key entry) index =
      (p.stored bump f (n - 1) index).snd +
        sumOver (fun env => p.tangent bump ((p.func f).key entry) env e) entry.2.value.axes
          (assign (p.func f).declared index zeroEnv) +
        p.bumps loss bump ((p.func f).key entry) index := by
  subst isEntry
  have func := elementary.funcs f isHome
  obtain ⟨vars, declares⟩ := func.declares
  have place := Place.stage isHome isStage
  have isScope : d.scope = d.value.axes :=
    scope_eq_axes (func.writes d (List.mem_of_getElem? isUpdate))
  obtain ⟨node, dtype, call, isSum, _⟩ := adds.value
  have within : Subnode e d.value := isSum ▸ .operand (by simp) .here
  have apart : ∀ name ∈ (p.func f).declared, name ∉ d.scope.names := by
    intro name isDeclared isAxis
    rw [isScope] at isAxis
    obtain ⟨axis, member, rfl⟩ := List.mem_map.1 isAxis
    exact ((elementary.places _ _ _ place).mem_axes member).1 f isHome isDeclared
  rw [tangents_key elementary isHome, bumps_key elementary isHome,
    stored_add isUpdate adds (elementary.readsOthers isHome isStage within)
      (declares.declared ▸ declares.distinct) apart isIndex,
    TrivSqZeroExt.snd_add, TrivSqZeroExt.snd_add]
  congr 2
  rw [← isScope, ← sum_points (Definition.nodup_scope d)]
  exact (map_list_sum (TrivSqZeroExt.sndHom ℚ ℚ) _).trans (by rw [List.map_map]; rfl)

include elementary fitting smooth infinitesimal isHome isStage sameLength conveys demanded in
theorem sum_once (noAxes : entry.2.value.axes = []) :
    p.weigh loss boxes given (p.tangents loss bump) =
      ∑ index ∈ boxPoints (boxes.box ((p.func f).key entry)), seed index *
        (p.tangents loss bump ((p.func f).key entry) index -
          p.bumps loss bump ((p.func f).key entry) index) := by
  have passes := Passes.of_stage elementary fitting isHome isStage sameLength
  have isAxes : (p.pass boxes f entry).value.axes = [] := noAxes
  have uniform : ∀ call ∈ (p.pass boxes f entry).calls p,
      (p.pass boxes f entry).axes call.2 = (p.pass boxes f entry).value.axes := by
    intro call _
    rw [Pass.axes, isAxes, ite_self]
  rw [passes.sum_uniform elementary fitting smooth infinitesimal conveys
    (fun call member isOwn env arg isArg => own_inside elementary isHome isStage member isOwn isArg env)
    uniform fun env => demanded _]
  refine Finset.sum_congr rfl fun index _ => congrArg (seed index * ·) ?_
  rw [isAxes, tangents_once elementary isHome isStage noAxes, add_sub_cancel_right]
  rfl

include elementary fitting smooth infinitesimal isHome isStage sameLength conveys demanded in
theorem sum_repeated {n : Nat} {d : Definition} {e : Expr} (isEntry : entry = ((n : Int), d))
    (isUpdate : (p.func f).updates[n]? = some d) (adds : AddsTo f (p.func f).declared d e) :
    p.weigh loss boxes given (p.tangents loss bump) =
      ∑ index ∈ boxPoints (boxes.box ((p.func f).key entry)), seed index *
        (p.tangents loss bump ((p.func f).key entry) index -
          p.bumps loss bump ((p.func f).key entry) index) := by
  have passes := Passes.of_stage elementary fitting isHome isStage sameLength
  obtain ⟨distinct, apart⟩ := passes.declared_distinct elementary
  obtain ⟨call, isArgs, added⟩ := isAdded elementary isHome isStage isEntry adds
  have writes := (elementary.funcs f isHome).writes d (List.mem_of_getElem? isUpdate)
  obtain ⟨amount, rfl, flows⟩ := conveys
  have once : (p.pass boxes f entry).axes (calledStage (p.pass boxes f entry).caller (p.func f)) = [] :=
    if_pos (calledStage_name _ _).symm
  have uniform : ∀ other ∈ (p.pass boxes f entry).calls p, other.1 ≠ call →
      (p.pass boxes f entry).axes other.2 = entry.2.value.axes := fun other member notOwn =>
    if_neg ((added_calls elementary isHome isStage added member).resolve_left notOwn)
  rw [passes.sum_given elementary fitting
    fun call member isOwn env arg isArg => own_inside elementary isHome isStage member isOwn isArg env,
    sum_added flows added once uniform (passes.distinct elementary)
    (fun env reaches isSeed => passes.chains elementary smooth infinitesimal (demanded _ isSeed) reaches)
    fun call member env => passes.tangent_call elementary member env]
  have ofCall := passes.sum_stage elementary seed
    fun env => p.tangent bump (p.pass boxes f entry).caller env call
  have ofRest := passes.sum_points elementary seed
    fun env => p.tangent bump (p.pass boxes f entry).caller env e
  refine (congrArg₂ (· + ·) ofCall ofRest).trans ?_
  rw [← Finset.sum_add_distrib]
  refine Finset.sum_congr rfl fun index inBox => ?_
  have isIndex : index.length = (p.func f).declared.length :=
    (mem_boxPoints.1 inBox).length_eq.symm.trans sameLength.symm
  have readsBefore : p.tangent bump ⟨(p.func f).name, entry.1⟩
      (assign (p.func f).declared index zeroEnv) call = (p.stored bump f (entry.1 - 1) index).snd :=
    tangent_own added (isArgs ▸ writes) distinct isIndex entry.1
  change seed index * p.tangent bump ((p.func f).key entry) (assign (p.func f).declared index zeroEnv)
    call + _ = _
  rw [Func.key, readsBefore, ← Func.key, tangents_added elementary isHome isStage isEntry isUpdate adds
    isIndex, add_sub_cancel_right, mul_add, isEntry]
  rfl

end

theorem weigh_add (given given' weight : StageKey → Grid ℚ) :
    p.weigh loss boxes (given + given') weight =
      p.weigh loss boxes given weight + p.weigh loss boxes given' weight := by
  simp only [weigh, Pi.add_apply, add_mul, Finset.sum_add_distrib]

theorem handed_eq_zero {given : StageKey → Grid ℚ} {seed : Grid ℚ} (conveys : pass.Conveys p seed given)
    {key : StageKey} (unread : ∀ call ∈ pass.calls p, call.2 ≠ key) (index : List Int) :
    given key index = 0 := by
  obtain ⟨amount, rfl, _⟩ := conveys
  refine List.sum_eq_zero (List.forall_mem_map.2 fun call member => ?_)
  rw [Pass.share, if_neg (unread call member)]

theorem collected_unread {collected given : StageKey → Grid ℚ} {seed : Grid ℚ} {keys : List StageKey}
    (conveys : pass.Conveys p seed given) (unread : ∀ call ∈ pass.calls p, call.2 ∉ keys)
    {key : StageKey} (member : key ∈ keys) : (collected + given) key = collected key := by
  funext index
  rw [Pi.add_apply, Pi.add_apply, handed_eq_zero conveys (fun call isCall same =>
    unread call isCall (same ▸ member)), add_zero]

theorem confined_ne_zero {values : Grid ℚ} {box : List (Int × Int)} {index : List Int}
    (differs : values.confined box index ≠ 0) : values index ≠ 0 := by
  unfold Grid.confined at differs
  split at differs
  · exact differs
  · exact absurd rfl differs

theorem loss_foreign (elementary : p.Elementary r loss) (member : call ∈ (Pass.ofLoss loss).calls p) :
    (Pass.ofLoss loss).caller.name ≠ call.2.name := by
  have passes : p.Passes loss (fun _ => none) (.ofLoss loss) := .of_loss loss
  obtain ⟨id, _, _, _, isHome, isKey, _⟩ := passes.reads elementary member
  rw [isKey, calledStage_name]
  exact (elementary.titled id isHome).symm

namespace Collects

variable {done : List StageKey} {collected : StageKey → Grid ℚ}

theorem nodup (collects : p.Collects loss boxes done collected) : done.Nodup := by
  induction collects with
  | loss => exact .nil
  | stage _ _ _ new _ _ _ ih => exact List.nodup_cons.2 ⟨new, ih⟩

variable (elementary : p.Elementary r loss) (fitting : Fitting p loss boxes)

include elementary fitting

theorem demands (collects : p.Collects loss boxes done collected) {key : StageKey} {index : List Int}
    (isCollected : collected key index ≠ 0) : p.Demands loss key index := by
  induction collects generalizing key index with
  | loss conveys =>
      have passes : p.Passes loss boxes (.ofLoss loss) := .of_loss loss
      exact passes.demands elementary
        (fun call member isOwn => absurd isOwn (loss_foreign elementary member)) (fun _ _ => .loss)
        conveys isCollected
  | @stage _ collected given f entry _ isHome isStage _ sameLength conveys _ ih =>
      by_cases before : collected key index = 0
      · have isGiven : given key index ≠ 0 := by
          rwa [Pi.add_apply, Pi.add_apply, before, zero_add] at isCollected
        exact (Passes.of_stage elementary fitting isHome isStage sameLength).demands elementary
          (fun call member isOwn env arg isArg =>
            own_inside elementary isHome isStage member isOwn isArg env)
          (fun env isSeed => ih (confined_ne_zero isSeed)) conveys isGiven
      · exact ih before

variable (smooth : p.SmoothlyDemanded loss) {bump : Bump (DualNumber ℚ)}
  (infinitesimal : (fun id stage index => standard (bump id stage index)) = fun _ _ _ => 0)

include smooth infinitesimal

theorem balance (collects : p.Collects loss boxes done collected) :
    p.weigh loss boxes collected (p.tangents loss bump) =
      sumOver (fun env => p.tangent bump CallContext.root.key env loss) loss.axes zeroEnv +
        (done.map fun key => ∑ index ∈ boxPoints (boxes.box key), collected key index *
          (p.tangents loss bump key index - p.bumps loss bump key index)).sum := by
  induction collects with
  | loss conveys =>
      have ofLoss := (Passes.of_loss loss).sum_uniform elementary fitting smooth infinitesimal conveys
        (fun call member isOwn => absurd isOwn (loss_foreign elementary member))
        (fun call member => if_neg (loss_foreign elementary member)) fun _ _ => .loss
      rw [ofLoss, List.map_nil, List.sum_nil, add_zero]
      exact (Finset.sum_singleton _ _).trans (one_mul _)
  | @stage done collected given f entry collects isHome isStage new sameLength conveys unread ih =>
      have demanded : ∀ index, (collected ((p.func f).key entry)).confined
          (boxes.box ((p.func f).key entry)) index ≠ 0 →
          p.Demands loss ((p.func f).key entry) index := fun index isSeed =>
        collects.demands elementary fitting (confined_ne_zero isSeed)
      have ofStage : p.weigh loss boxes given (p.tangents loss bump) =
          ∑ index ∈ boxPoints (boxes.box ((p.func f).key entry)),
            (collected ((p.func f).key entry)).confined (boxes.box ((p.func f).key entry)) index *
              (p.tangents loss bump ((p.func f).key entry) index -
                p.bumps loss bump ((p.func f).key entry) index) := by
        rcases stage_cases elementary isHome isStage with noAxes | ⟨n, d, e, isEntry, isUpdate, adds⟩
        · exact sum_once elementary fitting smooth infinitesimal isHome isStage sameLength conveys
            demanded noAxes
        · exact sum_repeated elementary fitting smooth infinitesimal isHome isStage sameLength conveys
            demanded isEntry isUpdate adds
      have withinBox : ∀ index ∈ boxPoints (boxes.box ((p.func f).key entry)),
          (collected ((p.func f).key entry)).confined (boxes.box ((p.func f).key entry)) index =
            collected ((p.func f).key entry) index := fun index inBox =>
        if_pos (mem_boxPoints.1 inBox)
      -- What the new pass gave goes to stages that are not done, so the terms of those that are stand.
      rw [weigh_add, ih, ofStage, List.map_cons, List.sum_cons, add_assoc]
      congr 1
      rw [add_comm]
      congr 1
      · refine Finset.sum_congr rfl fun index inBox => ?_
        rw [withinBox index inBox, collected_unread conveys unread (.head _)]
      · refine congrArg List.sum (List.map_congr_left fun key member => ?_)
        refine Finset.sum_congr rfl fun index _ => ?_
        rw [collected_unread conveys unread (.tail _ member)]

theorem total (collects : p.Collects loss boxes done collected)
    (complete : ∀ key, key ∈ done ↔ key ∈ p.keysOf (p.reachable loss)) :
    sumOver (fun env => p.tangent bump CallContext.root.key env loss) loss.axes zeroEnv =
      p.weigh loss boxes collected (p.bumps loss bump) := by
  have isDone : done.toFinset = (p.keysOf (p.reachable loss)).toFinset := by
    ext key
    rw [List.mem_toFinset, List.mem_toFinset, complete]
  have balance := collects.balance elementary fitting smooth infinitesimal
  rw [← List.sum_toFinset _ collects.nodup, isDone] at balance
  simp only [mul_sub, Finset.sum_sub_distrib] at balance
  change p.weigh loss boxes collected (p.tangents loss bump) = _ + (p.weigh loss boxes collected
    (p.tangents loss bump) - p.weigh loss boxes collected (p.bumps loss bump)) at balance
  linarith

end Collects

theorem Elementary.forward_eq (elementary : p.Elementary r loss) (f : FuncId) (stage : Int)
    (index : List Int) : p.forward loss f stage index = sumOver (fun env =>
      p.tangent (bumpAt f stage index) CallContext.root.key env loss) loss.axes zeroEnv := by
  refine congrArg (fun g => sumOver g loss.axes zeroEnv) (funext fun env => ?_)
  refine congrArg TrivSqZeroExt.snd (exact_congr_reads loss (fun _ _ => rfl) fun callee called => ?_)
  have isHome : p.Home loss (some callee) :=
    .of_root ((elementary.places _ _ _ .root).meets called)
  exact (readsAt_other (elementary.funcs callee isHome).grounded
    (elementary.titled callee isHome).symm).symm

theorem Elementary.weigh_bumpAt (elementary : p.Elementary r loss) (collected : StageKey → Grid ℚ)
    (isHome : p.Home loss (some f)) (isStage : entry ∈ (p.func f).stages) (index : List Int) :
    p.weigh loss boxes collected (p.bumps loss (bumpAt f entry.1 index)) =
      (collected ((p.func f).key entry)).confined (boxes.box ((p.func f).key entry)) index := by
  have isKey : (p.func f).key entry ∈ (p.keysOf (p.reachable loss)).toFinset :=
    List.mem_toFinset.2 (List.mem_flatMap.2
      ⟨f, elementary.linked.mem_reachable.2 isHome, List.mem_map_of_mem isStage⟩)
  have here (index' : List Int) : p.bumps loss (bumpAt f entry.1 index) ((p.func f).key entry) index' =
      if index' = index then 1 else 0 := by
    rw [bumps_key elementary isHome, snd_bumpAt]
    simp
  have others : ∀ key ∈ (p.keysOf (p.reachable loss)).toFinset, key ≠ (p.func f).key entry →
      ∑ index' ∈ boxPoints (boxes.box key), collected key index' *
        p.bumps loss (bumpAt f entry.1 index) key index' = 0 := by
    intro key among other
    obtain ⟨g, isReached, isStage'⟩ := List.mem_flatMap.1 (List.mem_toFinset.1 among)
    obtain ⟨entry', _, rfl⟩ := List.mem_map.1 isStage'
    have isHome' := elementary.linked.mem_reachable.1 isReached
    refine Finset.sum_eq_zero fun index' _ => ?_
    rw [bumps_key elementary isHome', snd_bumpAt, if_neg, mul_zero]
    rintro ⟨rfl, isSame, _⟩
    exact other (by rw [Func.key, isSame, Func.key])
  rw [weigh, Finset.sum_eq_single_of_mem _ isKey others, Grid.confined]
  simp only [here, mul_ite, mul_one, mul_zero, Finset.sum_ite_eq', mem_boxPoints]
  rfl

theorem Collects.adjoint {done : List StageKey} {collected : StageKey → Grid ℚ}
    (collects : p.Collects loss boxes done collected) (elementary : p.Elementary r loss)
    (fitting : Fitting p loss boxes) (smooth : p.SmoothlyDemanded loss)
    (complete : ∀ key, key ∈ done ↔ key ∈ p.keysOf (p.reachable loss))
    (isHome : p.Home loss (some f)) (isStage : entry ∈ (p.func f).stages) (index : List Int) :
    (collected ((p.func f).key entry)).confined (boxes.box ((p.func f).key entry)) index =
      p.forward loss f entry.1 index := by
  rw [elementary.forward_eq, collects.total elementary fitting smooth (standard_bumpAt _ _ _) complete,
    elementary.weigh_bumpAt collected isHome isStage]

end Program

end

end ReverseMode
