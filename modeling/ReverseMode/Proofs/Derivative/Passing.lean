import ReverseMode.Proofs.Derivative.Scattering

namespace ReverseMode

open Expr

theorem Leaves.all {ι α : Type} [Nonempty ι] {settings : Differentiation} {E : Fault → Prop}
    {action : AdjointM α} {s : Accumulation} {Q : ι → α → Accumulation → Prop}
    (each : ∀ i, Leaves settings E action s (Q i)) :
    Leaves settings E action s fun a left => ∀ i, Q i a left := by
  intro program
  have ends := fun i => each i program
  cases outcome : (((action.run settings).run s).run.run program).1 with
  | ok answer =>
      simp only [outcome] at ends
      exact ends
  | error fault =>
      simp only [outcome] at ends
      exact ends (Classical.arbitrary ι)

theorem Expr.slopes_congr {answers answers' : CallValues ℚ} {env : String → ℚ}
    {lets : List (String × Expr)} {x : Expr}
    (same : ∀ y ∈ x.operands, exactIn answers env y = exactIn answers' env y) :
    slopes answers env lets x = slopes answers' env lets x := by
  fun_cases slopes answers env lets x <;> simp_all [slopes, operands]

theorem Registry.Holds.tidy {r : Registry} {e : Expr} (held : r.Holds e) (plain : Plain e) : Tidy e where
  shaped := plain.shaped
  coherent := held.coherent
  distinct x _ name within _ named := absurd ⟨x, within, named⟩ (plain.not_binds name)
  apart name bound := absurd bound (plain.not_binds name)

namespace Program

variable {p : Program} {caller : StageKey} {x : Expr}

theorem callsAmong_append (first second : List Expr) :
    p.callsAmong caller (first ++ second) = p.callsAmong caller first ++ p.callsAmong caller second :=
  List.filterMap_append

theorem callsAmong_reverse (nodes : List Expr) :
    p.callsAmong caller nodes.reverse = (p.callsAmong caller nodes).reverse :=
  List.filterMap_reverse

theorem callsAmong_call {id : FuncId} {name : String} (isCall : x.callee? = some (.func id name)) :
    p.callsAmong caller [x] = [(x, calledStage caller (p.func id))] := by
  simp [callsAmong, isCall]

theorem callsAmong_other (noCall : ∀ id name, x.callee? ≠ some (.func id name)) :
    p.callsAmong caller [x] = [] := by
  refine List.eq_nil_iff_forall_not_mem.2 fun call member => ?_
  obtain ⟨among, id, name, isCall, _⟩ := mem_callsAmong.1 member
  rw [List.mem_singleton.1 among] at isCall
  exact noCall id name isCall

end Program

section

variable {root x : Expr} {done rest : List Expr}

theorem slopes_rest {answers : CallValues ℚ} {env : String → ℚ} (tidy : Tidy root)
    (split : root.differentiable.reverse = done ++ x :: rest) (isKnown : x.IsKnown) (v : ℚ) :
    ∀ entry ∈ (slopes answers env [] x).map fun (c, slope) => (c, slope * v), entry.1 ∈ rest := by
  rw [List.forall_mem_map]
  intro edge isEdge
  have within := subnode_differentiable tidy.coherent (mem_of_split split)
  have among := (slopes_perm (tidy.shaped_sub within) isKnown).subset (List.mem_map_of_mem isEdge)
  refine needs_rest tidy split (.inl ?_)
  cases named : x.variableName? <;> simpa [named] using among

theorem amount_calls {p : Program} {caller : StageKey} {answers : CallValues ℚ} {env : String → ℚ}
    {v : ℚ} {bound : List (String × Expr)} {s left : Accumulation} {call : Expr × StageKey}
    (tidy : Tidy root) (split : root.differentiable.reverse = done ++ x :: rest) (isKnown : x.IsKnown)
    (takes : Takes answers env ((slopes answers env [] x).map fun (c, slope) => (c, slope * v)) bound s
      left) (member : call ∈ p.callsAmong caller done) :
    left.amount answers env call.1.id = s.amount answers env call.1.id :=
  takes.amount_done tidy split (slopes_rest tidy split isKnown v)
    (List.mem_append_left _ (Program.mem_callsAmong.1 member).1)

theorem branch_apart {c y : Expr} (tidy : Tidy root)
    (split : root.differentiable.reverse = done ++ x :: rest) (isBranch : c ∈ x.branches)
    (isDone : y ∈ done ++ [x]) : c.id ≠ y.id := by
  have distinct := ids_differentiable tidy.coherent
  rw [split, List.append_cons, List.map_append, List.nodup_append] at distinct
  exact fun same => distinct.2.2 _ (List.mem_map_of_mem isDone) _
    (List.mem_map_of_mem (needs_rest tidy split (.inl isBranch))) same.symm

theorem done_of_branch {c y : Expr} (tidy : Tidy root)
    (split : root.differentiable.reverse = done ++ x :: rest) (listed : y ∈ root.differentiable)
    (isBranch : c ∈ y.branches) (isDone : c ∈ done ++ [x]) : y ∈ done := by
  rw [← List.mem_reverse, split] at listed
  refine (List.mem_append.1 listed).resolve_right fun later => ?_
  obtain ⟨before, after, same⟩ := List.append_of_mem later
  rw [same, ← List.append_assoc] at split
  refine branch_apart tidy split isBranch (y := c) ?_ rfl
  rcases List.mem_append.1 isDone with early | here
  · exact List.mem_append_left _ (List.mem_append_left _ early)
  · obtain rfl := List.mem_singleton.1 here
    cases before with
    | nil =>
        obtain ⟨rfl, -⟩ := List.cons.inj same
        simp
    | cons first others =>
        obtain ⟨rfl, -⟩ := List.cons.inj same
        simp

theorem ne_root (coherent : Coherent root) (split : root.differentiable.reverse = done ++ x :: rest)
    (begun : done ≠ []) : x ≠ root := by
  obtain ⟨first, others, rfl⟩ := List.exists_cons_of_ne_nil begun
  have isRoot : first = root := by
    rw [List.cons_append, ← List.nil_append (first :: _)] at split
    exact (consumer_done coherent split).resolve_right (by simp)
  have distinct := List.nodup_reverse.2 (nodup_differentiable coherent)
  rw [split] at distinct
  rintro rfl
  exact (List.nodup_cons.1 distinct).1 (by simp [isRoot])

end

structure Pass.Walked (pass : Pass) (p : Program) (reads : Reads ℚ) (seed : Expr)
    (done rest : List Expr) (s : Accumulation) : Prop where
  floats : s.Floats
  bindings : s.bindings = []
  weighed : ∀ y ∈ done, ∃ a, s.adjoints[y.id]? = some a ∧ s.Weighed y a
  start : done = [] → s.adjoints = ({} : Std.TreeMap NodeId Expr).insert pass.value.id seed
  added : done ≠ [] → ∀ call e id, IsAdded pass.value call e id → s.adjoints[call.id]? = some seed
  vanishes : ∀ env, exact reads.answers env seed = 0 →
    ∀ id, s.amount reads.answers env.scalars id = 0
  balance : ∀ env weight, Chains (p.ratReads pass.caller).answers env pass.value weight →
    (rest.map fun x => s.amount reads.answers env.scalars x.id * weight x).sum +
        ((p.callsAmong pass.caller done).map fun call =>
          s.amount reads.answers env.scalars call.1.id * weight call.1).sum =
      exact reads.answers env seed * weight pass.value

section

variable {p : Program} {pass : Pass} {reads : Reads ℚ} {seed x : Expr} {done rest : List Expr}
  {s left : Accumulation}

theorem Pass.Walked.start_of (isFloat : seed.dtype = .float32) (coherent : Coherent pass.value)
    (adjoints : s.adjoints = ({} : Std.TreeMap NodeId Expr).insert pass.value.id seed)
    (bindings : s.bindings = []) :
    pass.Walked p reads seed [] pass.value.differentiable.reverse s := by
  refine ⟨floats_seeded adjoints isFloat, bindings, by simp, fun _ => adjoints, fun nonempty => absurd rfl nonempty,
    fun env isZero id => ?_, fun env weight chains => ?_⟩
  · rw [amount_seeded adjoints]
    split
    · exact isZero
    · rfl
  · have amounts (x : Expr) : s.amount reads.answers env.scalars x.id * weight x =
        if pass.value.id = x.id then exact reads.answers env seed * weight x else 0 := by
      rw [amount_seeded adjoints, ite_mul, zero_mul]
      rfl
    simp only [amounts, Program.callsAmong, List.filterMap_nil, List.map_nil, List.sum_nil, add_zero]
    exact sum_single (ids_differentiable coherent)
      (List.mem_reverse.2 (mem_differentiable coherent)) fun x => exact reads.answers env seed * weight x

variable (tidy : Tidy pass.value) (split : pass.value.differentiable.reverse = done ++ x :: rest)
  (walked : pass.Walked p reads seed done (x :: rest) s)

include tidy split walked

theorem Pass.Walked.call {id : FuncId} {name : String} {adjoint : Expr}
    (isCall : x.callee? = some (.func id name)) (known : s.adjoints[x.id]? = some adjoint)
    (adjoints : left.adjoints = s.adjoints) (bindings : left.bindings = s.bindings) :
    pass.Walked p reads seed (done ++ [x]) rest left where
  floats id a known := walked.floats id a (adjoints ▸ known)
  bindings := bindings.trans walked.bindings
  weighed := by
    unfold Accumulation.Weighed Accumulation.Mentions
    rw [adjoints]
    refine List.forall_mem_append.2 ⟨walked.weighed, List.forall_mem_singleton.2 ⟨adjoint, known, ?_⟩⟩
    exact Accumulation.Weighed.of_weightless (weights_call isCall)
  start empty := by simp at empty
  added _ call e id' added := by
    rw [adjoints]
    refine walked.added ?_ call e id' added
    rintro rfl
    obtain isRoot : x = pass.value := (consumer_done tidy.coherent split).resolve_right (by simp)
    obtain ⟨node, dtype, isSum⟩ := added.isSum
    rw [isRoot, isSum] at isCall
    cases isCall
  vanishes env isZero id := by
    rw [Accumulation.amount, adjoints]
    exact walked.vanishes env isZero id
  balance env weight chains := by
    have same (id : NodeId) : left.amount reads.answers env.scalars id =
        s.amount reads.answers env.scalars id := by
      rw [Accumulation.amount, adjoints]
      rfl
    have before := walked.balance env weight chains
    rw [Program.callsAmong_append, Program.callsAmong_call isCall]
    simp only [same, List.map_append, List.sum_append, List.map_cons, List.sum_cons, List.map_nil,
      List.sum_nil, add_zero] at before ⊢
    rw [← before]
    ring

theorem Pass.Walked.added_node {r : Registry} {adjoint call e : Expr} {id : FuncId}
    (noCall : ∀ id name, x.callee? ≠ some (.func id name)) (known : s.adjoints[x.id]? = some adjoint)
    (spreads : Spreads r pass.value seed x.branches s left)
    (first : ∀ id dtype a b, x = .node id (.binary .add) dtype [a, b] → b.id ≠ a.id →
      s.adjoints[a.id]? = none → left.adjoints[a.id]? = some adjoint)
    (added : IsAdded pass.value call e id) : left.adjoints[call.id]? = some seed := by
  have differs {c : Expr} (within : Subnode c e) : c.id ≠ call.id := by
    obtain ⟨node, dtype, isSum⟩ := added.isSum
    refine fun same => added.ne_call within (added.coherent c call ?_ ?_ same)
    · exact isSum ▸ .operand (.tail _ (.head _)) within
    · exact isSum ▸ .operand (.head _) .here
  by_cases begun : done = []
  · subst begun
    have isRoot : x = pass.value := (consumer_done tidy.coherent split).resolve_right (by simp)
    have only := adjoint_seeded (walked.start rfl)
    have isSeed : adjoint = seed := by
      rw [only, isRoot, if_pos rfl] at known
      exact (Option.some.inj known).symm
    obtain ⟨node, dtype, isSum⟩ := added.isSum
    rw [first node dtype call e (isRoot.trans isSum) (differs .here), isSeed]
    rw [only, if_neg fun same => added.value_ne_call (added.coherent _ call .here ?_ same)]
    exact isSum ▸ .operand (.head _) .here
  · rw [spreads.kept call.id fun c isBranch => ?_]
    · exact walked.added begun call e id added
    rcases added.listed (mem_of_split split) with isRoot | rfl | within
    · exact absurd isRoot (ne_root tidy.coherent split begun)
    · obtain ⟨name, isCall⟩ := added.isCall
      exact absurd isCall (noCall id name)
    · exact differs ((subnode_branch isBranch).trans within)

theorem Pass.Walked.node {r : Registry} {adjoint : Expr} (isKnown : x.IsKnown)
    (noCall : ∀ id name, x.callee? ≠ some (.func id name))
    (sameSlopes : ∀ env : Env, slopes reads.answers env.scalars [] x =
      slopes (p.ratReads pass.caller).answers env.scalars [] x)
    (known : s.adjoints[x.id]? = some adjoint)
    (takes : ∀ env : Env, Takes reads.answers env.scalars
      ((slopes reads.answers env.scalars [] x).map fun (c, slope) =>
        (c, slope * s.amount reads.answers env.scalars x.id)) x.ownLets s left)
    (spreads : Spreads r pass.value seed x.branches s left)
    (first : ∀ id dtype a b, x = .node id (.binary .add) dtype [a, b] → b.id ≠ a.id →
      s.adjoints[a.id]? = none → left.adjoints[a.id]? = some adjoint) (weighed : left.Weighed x adjoint) :
    pass.Walked p reads seed (done ++ [x]) rest left where
  floats := (takes fun _ => 0).floats walked.floats
  bindings := by
    rw [spreads.rest]
    exact walked.bindings
  weighed := by
    have keeps {y : Expr} (isDone : y ∈ done ++ [x]) : left.adjoints[y.id]? = s.adjoints[y.id]? :=
      spreads.kept y.id fun c isBranch => branch_apart tidy split isBranch isDone
    refine List.forall_mem_append.2 ⟨fun y isDone => ?_, List.forall_mem_singleton.2 ⟨adjoint, ?_, weighed⟩⟩
    · obtain ⟨a, isAdjoint, isWeighed⟩ := walked.weighed y isDone
      refine ⟨a, (keeps (List.mem_append_left _ isDone)).trans isAdjoint, ?_⟩
      exact fun branch isBranch w member name mentioned =>
        spreads.stays _ name (isWeighed branch isBranch w member name mentioned)
    · exact (keeps (by simp)).trans known
  start empty := by simp at empty
  added _ call e id added := walked.added_node tidy split noCall known spreads first added
  vanishes env isZero id := by
    rw [(takes env).amount, walked.vanishes env isZero, walked.vanishes env isZero, zero_add]
    refine List.sum_eq_zero ?_
    simp only [mul_zero, List.map_map, List.forall_mem_map]
    intro edge _
    exact ite_self 0
  -- What the node had passes to its branches; its weight is theirs by the chain rule, and the calls that
  -- are done are not among them.
  balance env weight chains := by
    have distinctRest : (rest.map Expr.id).Nodup := by
      have distinct := ids_differentiable tidy.coherent
      rw [split, List.append_cons, List.map_append, List.nodup_append] at distinct
      exact distinct.2.1
    have restSum : (rest.map fun c => left.amount reads.answers env.scalars c.id * weight c).sum =
        (rest.map fun c => s.amount reads.answers env.scalars c.id * weight c).sum +
          s.amount reads.answers env.scalars x.id * weight x := by
      simp only [(takes env).amount]
      rw [sum_given distinctRest (slopes_rest tidy split isKnown _), sum_handed_on, sameSlopes,
        ← chains x (mem_of_split split) noCall]
    have doneSum : (p.callsAmong pass.caller done).map
          (fun call => left.amount reads.answers env.scalars call.1.id * weight call.1) =
        (p.callsAmong pass.caller done).map
          fun call => s.amount reads.answers env.scalars call.1.id * weight call.1 :=
      List.map_congr_left fun call member => by
        rw [amount_calls tidy split isKnown (takes env) member]
    rw [Program.callsAmong_append, Program.callsAmong_other noCall, List.append_nil, restSum, doneSum,
      ← walked.balance env weight chains, List.map_cons, List.sum_cons]
    ring

end

theorem Pass.Walked.mentions {p : Program} {pass : Pass} {reads : Reads ℚ} {seed x c : Expr}
    {done rest : List Expr} {s : Accumulation} {name : String} (tidy : Tidy pass.value)
    (split : pass.value.differentiable.reverse = done ++ x :: rest)
    (walked : pass.Walked p reads seed done (x :: rest) s) (weighs : pass.value.Weighs name c)
    (isDone : c ∈ done ++ [x]) : s.Mentions c.id name := by
  induction weighs with
  | operand listed isBranch member mentioned =>
      have earlier := done_of_branch tidy split listed (mem_branches_of_weights isBranch) isDone
      obtain ⟨a, _, weighed⟩ := walked.weighed _ earlier
      exact weighed _ isBranch _ (.tail _ member) name mentioned
  | branch listed isBranch _ ih =>
      have earlier := done_of_branch tidy split listed (mem_branches_of_weights isBranch) isDone
      obtain ⟨a, isAdjoint, weighed⟩ := walked.weighed _ earlier
      obtain ⟨a', isAdjoint', mentioned⟩ := ih (List.mem_append_left _ earlier)
      obtain rfl := Option.some.inj (isAdjoint.symm.trans isAdjoint')
      exact weighed _ isBranch _ (.head _) name mentioned

theorem Program.Passes.own_cases {p : Program} {r : Registry} {loss : Expr} {boxes : Boxes} {pass : Pass}
    {call : Expr × StageKey} (elementary : p.Elementary r loss) (passes : p.Passes loss boxes pass)
    (member : call ∈ pass.calls p) (own : pass.caller.name = call.2.name) :
    pass.value.axes = [] ∨ ∃ e id, IsAdded pass.value call.1 e id ∧
      List.Forall₂ IsIndexVariable call.1.operands pass.declared := by
  obtain ⟨caller, declared, box, value⟩ := pass
  cases passes.place with
  | root => exact absurd own (loss_foreign elementary member)
  | @stage f entry isHome isStage =>
      refine (stage_cases elementary isHome isStage).imp_right fun ⟨n, d, e, isEntry, isUpdate, adds⟩ => ?_
      obtain ⟨known, isArgs, added⟩ := isAdded elementary isHome isStage isEntry adds
      have ofPass : call ∈ (p.pass boxes f entry).calls p := member
      have isOwn : call.1 = known := (added_calls elementary isHome isStage added ofPass).resolve_right
        (not_not.2 own)
      refine ⟨e, f, isOwn ▸ added, ?_⟩
      rw [isOwn, isArgs]
      exact (elementary.funcs f isHome).writes d (List.mem_of_getElem? isUpdate)

structure Pass.Walking (pass : Pass) (p : Program) (loss : Expr) (boxes : Boxes) (keys : List StageKey)
    (reads : Reads ℚ) (seed : Expr) (collected : StageKey → Grid ℚ) (done rest : List Expr) (r : Registry)
    (q : Program) (s : Accumulation) (settled : FuncId → Prop) : Prop where
  walked : pass.Walked p reads seed done rest s
  derives : s.Derives r pass.value seed
  seeds : pass.Seeds p loss r q settled reads seed
  accounts : p.Accounts loss boxes keys q s settled (collected +
    pass.handed (fun x env => s.amount reads.answers env.scalars x.id) (p.callsAmong pass.caller done))
  unfinished : ∀ call ∈ p.callsAmong pass.caller done, call.2 ∉ s.finalized

section

variable {p q : Program} {r later : Registry} {loss : Expr} {boxes : Boxes} {keys : List StageKey}
  {s : Accumulation} {settled : FuncId → Prop} {collected : StageKey → Grid ℚ}
  {settings : Differentiation} {pass : Pass} {ctx : CallContext} {reads : Reads ℚ}
  {seed adjoint x : Expr} {done rest : List Expr}
  (elementary : p.Elementary r loss) (passes : p.Passes loss boxes pass)
  (runs : pass.Runs p loss r ctx) (extended : r.Extends later)
  (unmuted : settings.muted = []) (known : ∀ key ∈ p.keysOf (p.reachable loss), key ∈ keys)
  (split : pass.value.differentiable.reverse = done ++ x :: rest)
  (walking : pass.Walking p loss boxes keys reads seed collected done (x :: rest) later q s settled)
  (isAdjoint : s.adjoints[x.id]? = some adjoint)

include elementary passes split walking isAdjoint in
theorem Pass.Walking.sole {call : Expr × StageKey} (member : call ∈ pass.calls p) (isCall : call.1 = x) :
    pass.Sole call adjoint := by
  obtain ⟨id, name, outer, called, _⟩ := passes.reads elementary member
  intro own a among y name within named
  rcases passes.own_cases elementary member own with noAxes | ⟨e, id, added, writes⟩
  · rcases (walking.derives x.id adjoint isAdjoint).around outer among within named with inValue | inSeed
    · refine (passes.placed elementary inValue named).resolve_right fun ⟨_, ends, isAxis, _⟩ => ?_
      rw [noAxes] at isAxis
      cases isAxis
    · exact walking.seeds.placed y name inSeed named
  · have begun : done ≠ [] := by
      rintro rfl
      have coherent := (elementary.places _ _ _ passes.place).held.coherent
      have isRoot : x = pass.value := (consumer_done coherent split).resolve_right (by simp)
      obtain ⟨node, dtype, isSum⟩ := added.isSum
      rw [isCall, isRoot, isSum] at called
      cases called
    have isSeed := walking.walked.added begun call.1 e id added
    rw [isCall, isAdjoint] at isSeed
    rcases List.mem_cons.1 among with rfl | isArg
    · rw [Option.some.inj isSeed] at within
      exact walking.seeds.placed y name within named
    · obtain ⟨other, isDeclared, isVariable⟩ := forall₂_mem_left writes isArg
      obtain ⟨rfl, isPure⟩ := isVariable.subnode within named
      exact ⟨isDeclared, isPure⟩

include elementary passes runs extended unmuted known split walking isAdjoint in
theorem Pass.Walking.call {id : FuncId} {name : String} (isCall : x.callee? = some (.func id name)) :
    Accomplishes settings (propagateNode ctx x adjoint) later q s fun last left s' _ =>
      ∃ settled', q.Retains left settled settled' ∧ s'.finalized = s.finalized ∧
        pass.Walking p loss boxes keys reads seed collected (done ++ [x]) rest last left s' settled' := by
  have listed := mem_of_split split
  have isPlace := elementary.places _ _ _ passes.place
  have tidy := isPlace.held.tidy isPlace.plain
  have member : (x, calledStage pass.caller (p.func id)) ∈ pass.calls p :=
    Program.mem_callsAmong.2 ⟨listed, id, name, isCall, rfl⟩
  have isKey : calledStage pass.caller (p.func id) ∈ keys := by
    obtain ⟨_, _, _, _, _, _, isKey⟩ := passes.reads elementary member
    exact known _ isKey
  have amount (env : Env) : s.amount reads.answers env.scalars x.id = exact reads.answers env adjoint := by
    rw [Accumulation.amount, isAdjoint]
    rfl
  have scattered : Accomplishes settings (scatter ctx x id adjoint) later q s fun last left s' _ =>
      ∃ settled', q.Retains left settled settled' ∧ s'.finalized = s.finalized ∧
        pass.Walking p loss boxes keys reads seed collected (done ++ [x]) rest last left s' settled' := by
    refine (scatter_accounts elementary passes runs extended walking.seeds
      (walking.derives x.id adjoint isAdjoint) walking.accounts member isCall isKey
      (walking.sole elementary passes split isAdjoint member rfl)
      (fun axis weighs => by
        obtain ⟨a, found, mentioned⟩ := walking.walked.mentions tidy split weighs (by simp)
        rwa [← Option.some.inj (found.symm.trans isAdjoint)])
      (fun env isZero => (amount env).symm.trans (walking.walked.vanishes env isZero x.id))
      walking.walked.bindings).mono fun last left s' _ extended' scattered => ?_
    obtain ⟨notFinal, same, settled', retains, accounts⟩ := scattered
    have adjoints : s'.adjoints = s.adjoints := by rw [same]
    have amounts (id : NodeId) (env : Env) : s'.amount reads.answers env.scalars id =
        s.amount reads.answers env.scalars id := by
      rw [Accumulation.amount, adjoints]
      rfl
    refine ⟨settled', retains, by rw [same], walking.walked.call tidy split isCall isAdjoint adjoints (by rw [same]),
      fun id a found => ?_, walking.seeds.retain extended' retains, ?_, ?_⟩
    · exact (walking.derives id a (adjoints ▸ found)).extend extended'
    · rw [Program.callsAmong_append, Program.callsAmong_call isCall, Pass.handed_append,
        Pass.handed_cons, Pass.handed_nil, add_zero, ← add_assoc]
      have share : pass.share (fun x env => s.amount reads.answers env.scalars x.id)
            (x, calledStage pass.caller (p.func id)) =
          pass.share (fun _ env => exact reads.answers env adjoint) (x, calledStage pass.caller (p.func id)) :=
        Pass.share_congr (funext amount)
      simp only [amounts]
      rwa [share]
    · rw [Program.callsAmong_append, Program.callsAmong_call isCall, same]
      exact List.forall_mem_append.2 ⟨walking.unfinished, List.forall_mem_singleton.2 notFinal⟩
  unfold propagateNode
  refine .bind_settings ?_
  rw [unmuted]
  cases x with
  | node node head dtype operands =>
      cases head <;> cases isCall
      exact scattered
  | reduction => cases isCall

include elementary passes extended unmuted split walking isAdjoint in
theorem Pass.Walking.node (noCall : ∀ id name, x.callee? ≠ some (.func id name)) :
    Accomplishes settings (propagateNode ctx x adjoint) later q s fun last left s' _ =>
      ∃ settled', q.Retains left settled settled' ∧ s'.finalized = s.finalized ∧
        pass.Walking p loss boxes keys reads seed collected (done ++ [x]) rest last left s' settled' := by
  have listed := mem_of_split split
  have isPlace := elementary.places _ _ _ passes.place
  have tidy := isPlace.held.tidy isPlace.plain
  have outer := outer_of_differentiable listed
  have isElementary := isPlace.elementary x outer.subnode
  have takes : Leaves settings (ScatterFault settings ctx pass.value.differentiable)
      (propagateNode ctx x adjoint) s fun _ left => ∀ env : Env, Takes reads.answers env.scalars
        ((slopes reads.answers env.scalars [] x).map fun edge =>
          (edge.1, edge.2 * s.amount reads.answers env.scalars x.id)) x.ownLets s left := by
    refine .all fun env => ?_
    have noLets (name : String) : s.bindings.lookup name = none := by rw [walking.walked.bindings]; rfl
    exact propagateNode_takes listed (tidy.shaped_sub outer.subnode) isElementary.2.2 unmuted
      (fun name isCall => absurd isCall (isElementary.2.1 name))
      (fun name isCall => absurd isCall (isElementary.2.1 name))
      ⟨walking.walked.floats x.id adjoint isAdjoint, by simp [Accumulation.amount, isAdjoint]⟩
      (fun name _ => noLets name) fun name value found => by rw [noLets] at found; cases found
  have held := isPlace.held.extend extended
  refine ((propagateNode_spreads unmuted walking.walked.bindings held isPlace.plain outer.subnode
    isElementary noCall walking.derives (walking.derives x.id adjoint isAdjoint)).leaves takes).mono
    fun last left s' _ extended' moved => ?_
  obtain ⟨⟨same, spreads, first, weighed⟩, takes⟩ := moved
  have grows : q.Grows left fun _ => False := .of_funcs same
  have retains : q.Retains left settled settled :=
    walking.accounts.isSettled.retains grows (fun _ _ never => never.elim) fun _ inside => inside
  have sameSlopes (env : Env) : slopes reads.answers env.scalars [] x =
      slopes (p.ratReads pass.caller).answers env.scalars [] x := by
    refine slopes_congr fun y isOperand => exact_congr_reads y (fun _ _ => rfl) fun callee called => ?_
    refine walking.seeds.home callee (passes.place.home (isPlace.meets (called.sub ?_)))
    exact (subnode_operand isOperand).trans outer.subnode
  refine ⟨settled, retains, by rw [spreads.rest], walking.walked.node tidy split isElementary.2.2 noCall
    sameSlopes isAdjoint takes spreads first weighed, spreads.derives, walking.seeds.retain extended' retains,
    ?_, ?_⟩
  · have handed : pass.handed (fun x env => s'.amount reads.answers env.scalars x.id)
          (p.callsAmong pass.caller done) =
        pass.handed (fun x env => s.amount reads.answers env.scalars x.id)
          (p.callsAmong pass.caller done) :=
      Pass.handed_congr fun call member => funext fun env =>
        amount_calls tidy split isElementary.2.2 (takes env) member
    rw [Program.callsAmong_append, Program.callsAmong_other noCall, List.append_nil, handed, spreads.rest]
    exact (walking.accounts.build same).scratch _ _
  · rw [Program.callsAmong_append, Program.callsAmong_other noCall, List.append_nil, spreads.rest]
    exact walking.unfinished

end

section

variable {p q : Program} {r later : Registry} {loss : Expr} {boxes : Boxes} {keys : List StageKey}
  {s : Accumulation} {settled : FuncId → Prop} {collected : StageKey → Grid ℚ}
  {settings : Differentiation} {pass : Pass} {ctx : CallContext} {reads : Reads ℚ}
  {seed : Expr} {done rest : List Expr}
  (elementary : p.Elementary r loss) (passes : p.Passes loss boxes pass)
  (runs : pass.Runs p loss r ctx) (extended : r.Extends later)
  (unmuted : settings.muted = []) (known : ∀ key ∈ p.keysOf (p.reachable loss), key ∈ keys)

include elementary passes runs extended unmuted known

theorem propagateNodes_walking (split : pass.value.differentiable.reverse = done ++ rest)
    (walking : pass.Walking p loss boxes keys reads seed collected done rest later q s settled) :
    Accomplishes settings (propagateNodes ctx rest) later q s fun last left s' _ =>
      ∃ settled', q.Retains left settled settled' ∧ s'.finalized = s.finalized ∧
        pass.Walking p loss boxes keys reads seed collected pass.value.differentiable.reverse [] last left
          s' settled' := by
  induction rest generalizing done later q s settled with
  | nil =>
      rw [split, List.append_nil]
      exact .pure ⟨settled, .refl q settled, rfl, walking⟩
  | cons x rest ih =>
      unfold propagateNodes
      refine .bind_get ?_
      split
      next => exact .throw_bind
      next adjoint isAdjoint =>
        have step : Accomplishes settings (propagateNode ctx x adjoint) later q s fun last left s' _ =>
            ∃ settled', q.Retains left settled settled' ∧ s'.finalized = s.finalized ∧
              pass.Walking p loss boxes keys reads seed collected (done ++ [x]) rest last left s'
                settled' := by
          by_cases isCall : ∃ id name, x.callee? = some (.func id name)
          · obtain ⟨id, name, isCall⟩ := isCall
            exact walking.call elementary passes runs extended unmuted known split isAdjoint isCall
          · exact walking.node elementary passes extended unmuted split isAdjoint
              fun id name isCall' => isCall ⟨id, name, isCall'⟩
        refine step.bind fun r1 q1 s1 _ ext1 stepped => ?_
        obtain ⟨settled1, retains1, same1, walking1⟩ := stepped
        refine (ih (extended.trans ext1) (by rw [split, List.append_assoc, List.singleton_append])
          walking1).mono fun r2 q2 s2 _ _ walked => ?_
        obtain ⟨settled2, retains2, same2, walking2⟩ := walked
        exact ⟨settled2, retains1.trans retains2, same2.trans same1, walking2⟩

theorem propagate_conveys (seeds : pass.Seeds p loss later q settled reads seed)
    (accounts : p.Accounts loss boxes keys q s settled collected) {grid : Grid ℚ}
    (isGrid : ∀ env, exact reads.answers env seed = grid (pass.declared.map env)) :
    Accomplishes settings (propagate ctx pass.value seed) later q s fun _ left s' _ =>
      ∃ settled' given, q.Retains left settled settled' ∧ s'.finalized = s.finalized ∧
        p.Accounts loss boxes keys left s' settled' (collected + given) ∧
        pass.Conveys p grid given ∧ ∀ call ∈ pass.calls p, call.2 ∉ s.finalized := by
  have isPlace := elementary.places _ _ _ passes.place
  have coherent := isPlace.held.coherent
  unfold propagate
  refine Accomplishes.bind (.modify (Q := fun later' left s' _ => later' = later ∧ left = q ∧
      s' = { s with adjoints := ({} : Std.TreeMap NodeId Expr).insert pass.value.id seed, bindings := [] })
    ⟨rfl, rfl, rfl⟩) fun r0 q0 s0 _ _ begun => ?_
  obtain ⟨rfl, rfl, rfl⟩ := begun
  refine .bind_lift Achieves.report fun r1 q1 _ ext1 same1 => ?_
  have grows : q0.Grows q1 fun _ => False := .of_funcs same1
  have retains1 : q0.Retains q1 settled settled :=
    accounts.isSettled.retains grows (fun _ _ => nofun) fun _ inside => inside
  have walking : pass.Walking p loss boxes keys reads seed collected [] pass.value.differentiable.reverse
      r1 q1 { s with
        adjoints := ({} : Std.TreeMap NodeId Expr).insert pass.value.id seed, bindings := [] }
      settled := by
    refine ⟨.start_of seeds.isFloat coherent rfl rfl, fun id a found => ?_, seeds.retain ext1 retains1, ?_,
      nofun⟩
    · rw [adjoint_seeded rfl] at found
      split at found <;> cases found
      exact ⟨.of_seed (seeds.held.extend ext1) seeds.plain, .here⟩
    · rw [Program.callsAmong, List.filterMap_nil, Pass.handed_nil, add_zero]
      exact (accounts.build same1).scratch _ _
  refine (propagateNodes_walking elementary passes runs (extended.trans ext1) unmuted known
    (List.nil_append _).symm walking).mono fun r2 left s' _ _ done => ?_
  obtain ⟨settled', retains, sameFinal, walked⟩ := done
  have perm : (p.callsAmong pass.caller pass.value.differentiable.reverse).Perm (pass.calls p) := by
    rw [Program.callsAmong_reverse]
    exact List.reverse_perm _
  refine ⟨settled', _, retains1.trans retains, sameFinal, walked.accounts,
    ⟨_, Pass.handed_perm perm, fun env => ⟨fun isZero call _ => ?_, fun weight chains => ?_⟩⟩,
    fun call member => ?_⟩
  · exact walked.walked.vanishes env ((isGrid env).trans isZero) call.1.id
  · have balance := walked.walked.balance env weight chains
    rw [List.map_nil, List.sum_nil, zero_add, (perm.map _).sum_eq, isGrid] at balance
    exact balance.symm
  · have unfinished := walked.unfinished call (perm.mem_iff.2 member)
    rwa [sameFinal] at unfinished

end

end ReverseMode
