import ReverseMode.Proofs.Derivative.Adjoints

namespace ReverseMode

open Expr Finset

def Program.ReliesOn (p : Program) : FuncId → FuncId → Prop :=
  Relation.ReflTransGen fun f callee => (p.func f).Needs f callee

def OutputAdjoint.callee? (p : Program) : OutputAdjoint → Option Callee
  | .ones => none
  | .func f => some (.func f (p.func f).name)
  | .image source => some (.image source)

/-- The amount that is propagated from an output at an index. -/
noncomputable def OutputAdjoint.weight {α : Type} [Scalar α] (reads : Reads α) : OutputAdjoint → Grid α
  | .ones, _ => 1
  | .func f, index => reads f index
  | .image source, index => ofRat (source.exactAt index)

def Callee.ReadAt (callee : Callee) (vars : List Expr) (e : Expr) : Prop :=
  ∃ node dtype, e = .node node (.call callee) dtype vars

def IsWeighted (p : Program) (output : FuncId) (adjoint : OutputAdjoint) (vars : List Expr)
    (loss : Expr) : Prop :=
  ∃ value, Callee.ReadAt (.func output (p.func output).name) vars value ∧
    (adjoint.callee? p = none ∧ loss = value ∨ ∃ callee weight node dtype,
      adjoint.callee? p = some callee ∧ callee.ReadAt vars weight ∧
        loss = .node node (.binary .mul) dtype [value, weight])

structure RunThrough (vars : List Expr) (box : List (Int × Int)) : Prop where
  axes : ∀ v ∈ vars, ∃ node domain axis least extent, v = .reduction node domain axis least extent ∧
    (v.name, rangeEnds (least, extent)) ∈ (vars.map Expr.name).zip box
  distinct : (vars.map Expr.name).Nodup
  sameLength : vars.length = box.length

def integerBounds (bounds : List (Int × Int)) : List (List Operand) :=
  bounds.map fun (least, extent) => [.literal (.int least), .literal (.int extent)]

def boxOf (bounds : List (Int × Int)) : List (Int × Int) :=
  bounds.map fun (least, extent) => (least, least + extent - 1)

section

variable {r : Registry} {p : Program}

theorem pairEach_integers (bounds : List (Int × Int)) :
    BuildsOk (ReductionDomain.ofPairs.pairEach (integerBounds bounds)) r fun _ pairs =>
      pairs.map rangeEnds = boxOf bounds := by
  induction bounds generalizing r with
  | nil => exact .pure rfl
  | cons range rest ih =>
      obtain ⟨least, extent⟩ := range
      have literal (i : Int) (r : Registry) : BuildsOk (Operand.literal (.int i)).toExpr r fun _ e =>
          e.constantValue = i := by
        refine .ofBuilds ((Builds.new .nil).mono fun _ e _ made => ?_)
        obtain ⟨_, node, rfl⟩ := made
        rfl
      refine (literal least r).bind fun r1 a _ isLeast => (literal extent r1).bind fun r2 b _ isExtent =>
        ih.bind fun r3 others _ isRest => .pure ?_
      rw [List.map_cons, isRest]
      simp only [boxOf, List.map_cons, rangeEnds, isLeast, isExtent]

theorem length_axes (name : String) (first : Nat) (bounds : Domain) (supply : Supply) :
    ((ReductionDomain.axes name first bounds).run supply).1.length = bounds.length := by
  induction bounds generalizing first supply with
  | nil => rfl
  | cons range rest ih => exact congrArg (· + 1) (ih (first + 1) _)

theorem Builds.also {α : Type} {action : NodeM α} {Q : Registry → α → Prop} {P : α → Prop}
    (built : Builds action r Q) (always : ∀ supply, P (action.run supply).1) :
    Builds action r fun later a => Q later a ∧ P a := by
  intro supply fits
  obtain ⟨later, extended, fitsLater, answer⟩ := built supply fits
  exact ⟨later, extended, fitsLater, answer, always supply⟩

theorem runThrough_of_axes {domain : String} {pairs : Domain} {vars : List Expr}
    (areAxes : AreAxes domain 0 pairs vars) (sameLength : vars.length = pairs.length) :
    RunThrough vars (pairs.map rangeEnds) where
  axes v member := by
    obtain ⟨i, found⟩ := List.mem_iff_getElem?.1 member
    obtain ⟨node, least, extent, inPairs, rfl⟩ := areAxes i v found
    refine ⟨node, domain, 0 + i, least, extent, rfl, List.mem_iff_getElem?.2 ⟨i, ?_⟩⟩
    rw [List.getElem?_zip_eq_some, List.getElem?_map, List.getElem?_map, found, inPairs]
    exact ⟨rfl, rfl⟩
  distinct := by
    refine List.nodup_iff_getElem?_ne_getElem?.2 fun i j before inside same => ?_
    rw [List.length_map] at inside
    obtain ⟨node, least, extent, _, isI⟩ := areAxes i _ (List.getElem?_eq_getElem (before.trans inside))
    obtain ⟨node', least', extent', _, isJ⟩ := areAxes j _ (List.getElem?_eq_getElem inside)
    rw [List.getElem?_map, List.getElem?_map, List.getElem?_eq_getElem (before.trans inside),
      List.getElem?_eq_getElem inside, isI, isJ] at same
    have := axisName_injective (Option.some.inj same)
    omega
  sameLength := by rw [sameLength, List.length_map]

variable {output : FuncId} {adjoint : OutputAdjoint} {given : Option (List (List Operand))}
  {bounds : List (Int × Int)}

theorem ofPairs_integers : Achieves
    (liftM (ReductionDomain.ofPairs none (integerBounds bounds)) : ProgramM ReductionDomain) r p
    fun later left domain => left.funcs = p.funcs ∧ later.HoldsAll domain.vars ∧
      RunThrough domain.vars (boxOf bounds) := by
  refine Achieves.buildsOk (P := fun later (domain : ReductionDomain) =>
    later.HoldsAll domain.vars ∧ RunThrough domain.vars (boxOf bounds)) ?_
  unfold ReductionDomain.ofPairs
  refine BuildsOk.bind (.ofBuilds (Builds.freshName "r")) fun r1 name _ _ => ?_
  refine (pairEach_integers bounds).bind fun r2 pairs _ arePairs => ?_
  refine BuildsOk.bind (.ofBuilds ((axes_sound name 0 pairs).also (P := fun vars => vars.length = pairs.length)
      (length_axes name 0 pairs)))
    fun r3 vars _ ⟨⟨held, areAxes⟩, sameLength⟩ => .pure ⟨held, ?_⟩
  rw [← arePairs]
  exact runThrough_of_axes areAxes sameLength

theorem IsWeighted.of_funcs {q : Program} {vars : List Expr} {loss : Expr}
    (weighted : IsWeighted p output adjoint vars loss) (same : q.funcs = p.funcs) :
    IsWeighted q output adjoint vars loss := by
  have sameCallee : adjoint.callee? q = adjoint.callee? p := by
    cases adjoint <;> simp [OutputAdjoint.callee?, func_eq_of_funcs same]
  unfold IsWeighted
  rwa [func_eq_of_funcs same, sameCallee]

theorem callFunc_reads {f : FuncId} {vars : List Expr} (held : r.HoldsAll vars) :
    Achieves (callFunc f vars) r p fun later left e => left.funcs = p.funcs ∧ later.Holds e ∧
      Callee.ReadAt (.func f (p.func f).name) vars e :=
  (callFunc_sound held).mono fun _ _ _ _ ⟨same, _, _, _, held, made⟩ =>
    ⟨same, held, made.imp fun _ isCall => ⟨_, isCall⟩⟩

theorem callImage_reads {source : Image} {vars : List Expr} (held : r.HoldsAll vars) :
    Achieves (liftM (source.callWith (vars.map Operand.expr)) : ProgramM Expr) r p
      fun later left e => left.funcs = p.funcs ∧ later.Holds e ∧
        Callee.ReadAt (.image source) vars e := by
  refine Achieves.buildsOk (P := fun later e => later.Holds e ∧ Callee.ReadAt (.image source) vars e) ?_
  unfold Image.callWith
  by_cases fitting : (vars.map Operand.expr).length ≠ source.dimensions
  · simp only [if_pos fitting]
    exact BuildsOk.bind (Q := fun _ _ => False) .throw fun _ _ _ never => never.elim
  simp only [if_neg fitting, toExprs_map]
  exact .ofBuilds ((Builds.new held).mono fun _ _ _ ⟨held, made⟩ =>
    ⟨held, made.imp fun _ isCall => ⟨_, isCall⟩⟩)

theorem outputLoss_weighted (isGiven : adjoint.bounds given = .ok (integerBounds bounds)) :
    Achieves (outputLoss output adjoint given) r p fun _ left loss => left.funcs = p.funcs ∧
      ∃ vars, RunThrough vars (boxOf bounds) ∧ IsWeighted p output adjoint vars loss := by
  unfold outputLoss
  rw [isGiven]
  refine Achieves.bind (Achieves.ofExcept (Q := fun r' p' b => r = r' ∧ p = p' ∧
    integerBounds bounds = b) fun b same => ⟨rfl, rfl, Except.ok.inj same⟩)
    fun _ _ b _ ⟨sameR, sameP, sameB⟩ => ?_
  subst sameR sameP sameB
  refine Achieves.bind (Achieves.getFunc (Q := fun r' p' _ => r = r' ∧ p = p') ⟨rfl, rfl⟩)
    fun _ _ f _ ⟨sameR, sameP⟩ => ?_
  subst sameR sameP
  refine Achieves.bind (Achieves.ofExcept (Q := fun r' p' _ => r = r' ∧ p = p')
    fun _ _ => ⟨rfl, rfl⟩) fun _ _ dimensions _ ⟨sameR, sameP⟩ => ?_
  subst sameR sameP
  by_cases fitting : (integerBounds bounds).length ≠ dimensions
  · simp only [if_pos fitting]
    exact Achieves.throw_bind
  simp only [if_neg fitting]
  refine Achieves.bind ofPairs_integers fun r1 p1 domain _ ⟨same1, held, through⟩ => ?_
  refine Achieves.bind (callFunc_reads held) fun r2 p2 value ext2 ⟨same2, heldValue, isValue⟩ => ?_
  have same12 := same2.trans same1
  rw [func_eq_of_funcs same1] at isValue
  cases adjoint with
  | ones => exact Achieves.pure ⟨same12, domain.vars, through, value, isValue, .inl ⟨rfl, rfl⟩⟩
  | func w =>
      refine Achieves.bind (callFunc_reads (held.extend ext2))
        fun r3 p3 weight ext3 ⟨same3, heldWeight, isWeight⟩ => ?_
      rw [func_eq_of_funcs same12] at isWeight
      refine (Achieves.builds (Builds.binary .mul (heldValue.extend ext3) heldWeight)).mono
        fun _ _ loss _ ⟨same4, _, made⟩ => ?_
      obtain ⟨root, isLoss⟩ := made
      exact ⟨same4.trans (same3.trans same12), domain.vars, through, value, isValue,
        .inr ⟨_, weight, root, _, rfl, isWeight, isLoss⟩⟩
  | image source =>
      refine Achieves.bind (callImage_reads (held.extend ext2))
        fun r3 p3 weight ext3 ⟨same3, heldWeight, isWeight⟩ => ?_
      refine (Achieves.builds (Builds.binary .mul (heldValue.extend ext3) heldWeight)).mono
        fun _ _ loss _ ⟨same4, _, made⟩ => ?_
      obtain ⟨root, isLoss⟩ := made
      exact ⟨same4.trans (same3.trans same12), domain.vars, through, value, isValue,
        .inr ⟨_, weight, root, _, rfl, isWeight, isLoss⟩⟩

end

section

variable {answers : CallValues (DualNumber ℚ)} {env : String → DualNumber ℚ}

theorem BinaryOp.snd_exact_of_rigid (op : BinaryOp) (dtype : DType) {a b : DualNumber ℚ}
    (left : a.snd = 0) (right : b.snd = 0) : (op.exact dtype a b).snd = 0 := by
  cases op with
  | add | sub | mul => simp [BinaryOp.exact, left, right]
  | div =>
      unfold BinaryOp.exact
      dsimp only
      split
      · change (a * b⁻¹).snd = 0
        simp [TrivSqZeroExt.snd_inv, left, right]
      · rfl
  | min | max =>
      unfold BinaryOp.exact
      dsimp only
      split <;> assumption
  | _ => exact snd_truth _

theorem snd_headExact_of_rigid {head : Head} {dtype : DType} {values : List (DualNumber ℚ)}
    (rigid : ∀ callee args, (answers callee args).snd = 0) (named : ∀ name, (env name).snd = 0)
    (each : ∀ v ∈ values, v.snd = 0) : (headExact answers env head dtype values).snd = 0 := by
  unfold headExact
  split
  · rfl
  · exact named _
  · cases dtype with
    | float32 => exact each _ (.head _)
    | int32 => exact TrivSqZeroExt.snd_intCast _
    | bool => exact snd_truth _
  · exact BinaryOp.snd_exact_of_rigid _ _ (each _ (.head _)) (each _ (.tail _ (.head _)))
  · split
    · exact each _ (.tail _ (.head _))
    · exact each _ (.tail _ (.tail _ (.head _)))
  · exact rigid _ _
  · rfl

theorem snd_exactIn_of_rigid (rigid : ∀ callee args, (answers callee args).snd = 0) (e : Expr)
    (named : ∀ name, (env name).snd = 0) : (exactIn answers env e).snd = 0 := by
  induction e using Expr.induction generalizing env with
  | node place head dtype operands ih =>
      by_cases isBinding : IsBinding head operands
      · obtain ⟨name, value, body, rfl, rfl⟩ := isBinding
        rw [exactIn_let]
        refine ih body (.tail _ (.head _)) fun other => ?_
        rw [Function.update_apply]
        split
        · exact ih value (.head _) named
        · exact named other
      · rw [exactIn_node isBinding]
        refine snd_headExact_of_rigid rigid named ?_
        rw [List.forall_mem_map]
        exact fun x member => ih x member named
  | reduction =>
      rw [exactIn_reduction]
      exact named _

end

def Rigid (values : Grid (DualNumber ℚ)) : Prop := ∀ index, (values index).snd = 0

section

variable {reads : Reads (DualNumber ℚ)} (rigid : ∀ f, Rigid (reads f))

include rigid

theorem snd_exact_of_rigid (e : Expr) (env : Env) : (exact reads.answers env e).snd = 0 := by
  refine snd_exactIn_of_rigid (fun callee args => ?_) e fun name => TrivSqZeroExt.snd_intCast _
  cases callee with
  | func f => exact rigid f _
  | image => rfl
  | primitive => rfl

theorem runUpdate_rigid {id : FuncId} {declared : List String} {update : Definition}
    {before : Grid (DualNumber ℚ)} (isRigid : Rigid before) :
    Rigid (runUpdate reads id declared update before) := by
  unfold runUpdate
  induction update.scope.points generalizing before with
  | nil => exact isRigid
  | cons point rest ih =>
      rw [List.foldl_cons]
      refine ih fun index => snd_exact_of_rigid (fun f => ?_) _ _
      rw [Function.update_apply]
      split
      · exact isRigid
      · exact rigid f

theorem Func.after_rigid (f : Func) (id : FuncId) (updates : Nat) :
    Rigid (f.after id reads (fun _ _ => 0) updates) := by
  induction updates with
  | zero =>
      intro index
      unfold Func.after Func.initialGrid
      rw [add_zero]
      split
      · exact snd_exact_of_rigid rigid _ _
      · rfl
  | succ updates ih =>
      unfold Func.after
      split
      · intro index
        dsimp only
        rw [add_zero]
        exact runUpdate_rigid rigid ih index
      · exact ih

end

namespace Program

variable {p : Program}

theorem gridAt_rigid (depth : Nat) (f : FuncId) : Rigid (p.gridAt (fun _ _ _ => 0) depth f) := by
  induction depth generalizing f with
  | zero => exact fun _ => rfl
  | succ depth ih => exact (p.func f).after_rigid ih f _

theorem Grounded.values_rigid {f g : FuncId} (grounded : p.Grounded f) (apart : ¬ p.ReliesOn f g)
    (stage : Int) (index : List Int) : Rigid (p.values (bumpAt g stage index) f) := by
  have same : p.values (bumpAt g stage index) f = p.values (fun _ _ _ => 0) f := by
    induction grounded with
    | @intro f isDefined needs ih =>
        have grounded : p.Grounded f := .intro isDefined needs
        have unbumped : bumpAt g stage index f = fun _ _ => 0 := by
          funext other point
          exact if_neg fun ⟨isG, _⟩ => apart (isG ▸ .refl)
        rw [grounded.values_eq, grounded.values_eq]
        unfold Program.compute
        rw [unbumped]
        exact after_congr (fun callee needed => ih callee needed fun relies => apart (.head needed relies)) _
  rw [same]
  exact gridAt_rigid _ f

end Program

section

variable {vars : List Expr} {box : List (Int × Int)} {p : Program} {output : FuncId}
  {adjoint : OutputAdjoint} {loss : Expr}

namespace RunThrough

variable (through : RunThrough vars box)

include through

theorem subnode {callee : Callee} {e y : Expr} {name : String} (reads : callee.ReadAt vars e)
    (within : Subnode y e) (named : y.variableName? = some name) : y ∈ vars := by
  obtain ⟨place, dtype, rfl⟩ := reads
  rcases subnode_node.1 within with rfl | ⟨v, member, deeper⟩
  · cases named
  · obtain ⟨_, _, _, _, _, rfl, _⟩ := through.axes v member
    rwa [subnode_reduction.1 deeper]

theorem free {callee : Callee} {e v : Expr} (reads : callee.ReadAt vars e) (member : v ∈ vars) :
    Free v.name e := by
  obtain ⟨place, dtype, rfl⟩ := reads
  obtain ⟨_, _, _, _, _, rfl, _⟩ := through.axes v member
  exact .operand nofun nofun member (.reduction rfl)

theorem exact_read {α : Type} [Scalar α] {callee : Callee} {e : Expr} (reads : callee.ReadAt vars e)
    (answers : CallValues α) (env : Env) :
    exact answers env e = answers callee (((vars.map Expr.name).map env).map fun i : Int => (i : ℚ)) := by
  obtain ⟨place, dtype, rfl⟩ := reads
  rw [exact_node (by simp)]
  change answers callee ((vars.map (exact answers env)).map standard) = _
  rw [List.map_map, List.map_map, List.map_map]
  refine congrArg _ (List.map_congr_left fun v member => ?_)
  obtain ⟨_, _, _, _, _, rfl, _⟩ := through.axes v member
  simp [Expr.name]

end RunThrough

namespace IsWeighted

variable (through : RunThrough vars box) (weighted : IsWeighted p output adjoint vars loss)

include through weighted

theorem axes_perm (shaped : Shaped loss) : loss.axes.Perm ((vars.map Expr.name).zip box) := by
  have sameLength : (vars.map Expr.name).length = box.length := by
    rw [List.length_map, through.sameLength]
  obtain ⟨value, isValue, cases⟩ := weighted
  refine Definition.scope_perm ?_ ?_ (fun e among y isFree _ => ?_) fun name member => ?_
  · exact fun e among => List.mem_singleton.1 among ▸ shaped
  · rw [names_zip sameLength]
    exact through.distinct
  · obtain rfl := List.mem_singleton.1 among
    obtain ⟨within, named, _⟩ := isFree
    refine through.axes y ?_
    rcases cases with ⟨_, rfl⟩ | ⟨callee, weight, root, dtype, _, isWeight, rfl⟩
    · exact through.subnode isValue within named
    · rcases subnode_node.1 within with rfl | ⟨x, member, deeper⟩
      · cases named
      · rcases List.mem_pair.1 member with rfl | rfl
        · exact through.subnode isValue deeper named
        · exact through.subnode isWeight deeper named
  · rw [names_zip sameLength] at member
    obtain ⟨v, isVar, rfl⟩ := List.mem_map.1 member
    refine ⟨loss, List.mem_singleton_self loss, ?_⟩
    have free := through.free isValue isVar
    rcases cases with ⟨_, rfl⟩ | ⟨callee, weight, root, dtype, _, _, rfl⟩
    · exact free
    · exact .operand nofun nofun (.head _) free

theorem exact_eq {α : Type} [Scalar α] (reads : Reads α) (env : Env) :
    exact reads.answers env loss = reads output ((vars.map Expr.name).map env) *
      adjoint.weight reads ((vars.map Expr.name).map env) := by
  have whole (l : List Int) : (l.map fun i : Int => (i : ℚ)).map wholePart = l := by
    rw [List.map_map]
    exact List.map_id'' (fun i => wholePart_intCast i) l
  obtain ⟨value, isValue, cases⟩ := weighted
  have ofValue := through.exact_read isValue reads.answers env
  rcases cases with ⟨nothing, rfl⟩ | ⟨callee, weight, root, dtype, some, isWeight, rfl⟩
  · cases adjoint with
    | ones =>
        rw [ofValue, OutputAdjoint.weight, mul_one, Reads.answers, whole]
    | func => cases nothing
    | image => cases nothing
  · have ofWeight := through.exact_read isWeight reads.answers env
    rw [exact_node (by simp)]
    change exact reads.answers env value * exact reads.answers env weight = _
    rw [ofValue, ofWeight]
    cases adjoint with
    | ones => cases some
    | func w =>
        obtain rfl := Option.some.inj some
        simp only [Reads.answers, whole, OutputAdjoint.weight]
    | image source =>
        obtain rfl := Option.some.inj some
        simp only [Reads.answers, whole, OutputAdjoint.weight]

omit through

theorem home_output : p.Home loss (some output) := by
  obtain ⟨value, ⟨place, dtype, rfl⟩, cases⟩ := weighted
  rcases cases with ⟨_, rfl⟩ | ⟨callee, weight, root, _, _, _, rfl⟩
  · exact .of_root ⟨_, .here, _, rfl⟩
  · exact .of_root ⟨_, .operand nofun (.head _) .here, _, rfl⟩

theorem home_weight {w : FuncId} (isFunc : adjoint = .func w) : p.Home loss (some w) := by
  subst isFunc
  obtain ⟨value, _, cases⟩ := weighted
  rcases cases with ⟨none, _⟩ | ⟨callee, weight, root, _, some, ⟨place, dtype, rfl⟩, rfl⟩
  · cases none
  · obtain rfl := Option.some.inj some
    exact .of_root ⟨_, .operand nofun (.tail _ (.head _)) .here, _, rfl⟩

end IsWeighted

end

section

variable {p q left : Program} {r : Registry} {loss : Expr} {settings : Differentiation} {d : Derivative}
  {output g : FuncId} {adjoint : OutputAdjoint} {given : Option (List (List Operand))}
  {bounds : List (Int × Int)}

theorem forward_outputLoss {vars : List Expr} (elementary : p.Elementary r loss)
    (through : RunThrough vars (boxOf bounds)) (weighted : IsWeighted p output adjoint vars loss)
    (apart : ∀ w, adjoint = .func w → ¬ p.ReliesOn w g) (stage : Int) (index : List Int) :
    p.forward loss g stage index = ∑ point ∈ boxPoints (boxOf bounds),
      adjoint.weight (p.values fun _ _ _ => (0 : ℚ)) point *
        (p.values (bumpAt g stage index) output point).snd := by
  have shaped : Shaped loss := (elementary.places _ _ _ .root).plain.shaped
  have sameLength : (vars.map Expr.name).length = (boxOf bounds).length := by
    rw [List.length_map, through.sameLength]
  unfold Program.forward
  rw [sumOver_perm (weighted.axes_perm through shaped) (Definition.nodup_scope _),
    sumOver_box _ through.distinct sameLength]
  refine Finset.sum_congr rfl fun point inside => ?_
  have isPoint : point.length = (vars.map Expr.name).length := by
    rw [sameLength, (mem_boxPoints.1 inside).length_eq]
  rw [weighted.exact_eq through, map_assign through.distinct isPoint]
  -- The weight does not rely on `g`, so that it is the same number with the infinitesimal added.
  have ofWeight : (adjoint.weight (p.values (bumpAt g stage index)) point).snd = 0 ∧
      (adjoint.weight (p.values (bumpAt g stage index)) point).fst =
        adjoint.weight (p.values fun _ _ _ => (0 : ℚ)) point := by
    cases adjoint with
    | ones => exact ⟨rfl, rfl⟩
    | func w =>
        have grounded := (elementary.funcs w (weighted.home_weight rfl)).grounded
        refine ⟨grounded.values_rigid (apart w rfl) stage index point, ?_⟩
        have values := grounded.standard_values (bumpAt g stage index) point
        rwa [standard_bumpAt] at values
    | image source => exact ⟨rfl, rfl⟩
  rw [DualNumber.snd_mul, ofWeight.1, ofWeight.2, mul_zero, zero_add, mul_comm]

theorem Program.Elementary.home_of_relies {f : FuncId} (elementary : p.Elementary r loss)
    (isHome : p.Home loss (some f)) (relies : p.ReliesOn f g) : p.Home loss (some g) := by
  induction relies with
  | refl => exact isHome
  | tail _ needed ih => exact elementary.needs ih needed

/-- Propagating from an output answers, for every function that the output relies on and the propagated
values do not, the vector-Jacobian product by its initial values. -/
theorem vector_jacobian_product (isGiven : adjoint.bounds given = .ok (integerBounds bounds))
    (built : (outputLoss output adjoint given).run.run p = (.ok loss, q))
    (fits : r.Fits q.supply) (tells : q.TellsTextsApart settings.hash loss)
    (unmuted : settings.muted = []) (elementary : q.Elementary r loss)
    (smooth : q.SmoothlyDemanded loss) (run : (derivative settings loss).run.run q = (.ok d, left))
    (relies : q.ReliesOn output g) (apart : ∀ w, adjoint = .func w → ¬ q.ReliesOn w g) :
    ∃ target, d.adjoint (q.func g).name (-1) = .ok target ∧
      ∀ index : List Int, index.length = (q.func g).declared.length →
        left.exactReads target index = ∑ point ∈ boxPoints (boxOf bounds),
          adjoint.weight (q.values fun _ _ _ => (0 : ℚ)) point *
            (q.values (bumpAt g (-1) index) output point).snd := by
  have fitsFirst : Registry.Fits ⟨fun _ => loss, p.supply.nodes, p.supply.names⟩ p.supply := ⟨rfl, rfl⟩
  obtain ⟨_, _, _, same, vars, through, weighted⟩ := outputLoss_weighted isGiven fitsFirst loss q built
  have weighted := weighted.of_funcs same
  obtain ⟨_, _, _, holds⟩ := derivative_forward elementary tells unmuted smooth fits d left run
  have isHome := elementary.home_of_relies weighted.home_output relies
  obtain ⟨initial, defined, _⟩ := elementary.declares isHome
  have isStage : (-1, initial) ∈ (q.func g).stages := mem_stages.2 ⟨initial, defined, .inl ⟨rfl, rfl⟩⟩
  obtain ⟨target, isTarget, _, values⟩ := holds g _ isHome isStage
  refine ⟨target, isTarget, fun index isIndex => (values index isIndex).trans ?_⟩
  exact forward_outputLoss elementary through weighted apart (-1) index

end

namespace Spread

def given : Option (List (List Operand)) := some (integerBounds [(0, 3)])

theorem builds_loss {copy : NodeId} {name : String} :
    (outputLoss 1 (.func 2) given).run.run (start copy name) = (.ok loss, program copy name) := by
  have named : "r_00000000" = generatedName "r" 0 := by decide +kernel
  unfold loss readSum weight axis
  rw [named]
  rfl

theorem relies {copy : NodeId} {name : String} : (program copy name).ReliesOn 1 0 :=
  .single (.inl ⟨_, rfl, by simp [square, readG, x, calls_node]⟩)

theorem not_relies {copy : NodeId} {name : String} : ¬ (program copy name).ReliesOn 2 0 := by
  intro relies
  obtain same | ⟨callee, needed, _⟩ := relies.cases_head
  · cases same
  · rcases needed with ⟨_, isInitial, called⟩ | ⟨_, isUpdate, _⟩
    · cases isInitial
      simp [value, x, calls_node] at called
    · cases isUpdate

/-- Backwards from `f`, weighted by `w`, the adjoint of `g` at `2` is `1 * 1 + 2 * 5`. -/
theorem product_of_f : ∃ d left target,
    (outputLoss 1 (.func 2) given).run.run (start 7 "g") = (.ok loss, program 7 "g") ∧
      (derivative settings loss).run.run (program 7 "g") = (.ok d, left) ∧
      d.adjoint "g" (-1) = .ok target ∧ left.exactReads target [2] = 11 ∧
      left.exactReads target [2] = ∑ point ∈ boxPoints [(0, 2)],
        (program 7 "g").values (fun _ _ _ => (0 : ℚ)) 2 point *
          ((program 7 "g").values (bumpAt 0 (-1) [2]) 1 point).snd := by
  have isVariant : (7, "g") ∈ variants := .head _
  obtain ⟨d, left, run⟩ := returns isVariant
  obtain ⟨target, isTarget, values⟩ := vector_jacobian_product rfl builds_loss fits
    (tellsTextsApart isVariant) rfl (elementary isVariant) (smooth isVariant) run relies fun w isFunc =>
      OutputAdjoint.func.inj isFunc ▸ not_relies
  obtain ⟨_, _, _, forward⟩ := derivative_forward (elementary isVariant)
    (tellsTextsApart isVariant) rfl (smooth isVariant) fits d left run
  obtain ⟨target', isTarget', _, values'⟩ := forward 0 (-1, ⟨[x], value⟩) home_g (.head _)
  obtain rfl : target = target' := Except.ok.inj (isTarget.symm.trans isTarget')
  exact ⟨d, left, target, builds_loss, run, isTarget, (values' [2] rfl).trans forward_g, values [2] rfl⟩

end Spread

end ReverseMode
