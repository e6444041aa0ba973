import ReverseMode.Proofs.Bounds.Coverage
import ReverseMode.Proofs.Derivative.Lookups
import ReverseMode.Proofs.Derivative.Passing

namespace ReverseMode

open Expr

namespace Accomplishes

theorem each {α : Type} {settings : Differentiation} {r : Registry} {p : Program} {s : Accumulation}
    (action : α → AdjointM PUnit) {body : α → PUnit → AdjointM (ForInStep PUnit)}
    (isBody : ∀ a, body a ⟨⟩ = do action a; Pure.pure (.yield ⟨⟩))
    (I : List α → Registry → Program → Accumulation → Prop) (as : List α)
    (step : ∀ done a rest, as = done ++ a :: rest → ∀ later left s', r.Extends later →
      I done later left s' → Accomplishes settings (action a) later left s'
        fun later left s' _ => I (done ++ [a]) later left s') (start : I [] r p s) :
    Accomplishes settings (forIn as ⟨⟩ body) r p s fun later left s' _ => I as later left s' := by
  have after (left : List α) : ∀ done, as = done ++ left → ∀ later q s', r.Extends later →
      I done later q s' →
        Accomplishes settings (forIn left ⟨⟩ body) later q s' fun later q s' _ => I as later q s' := by
    induction left with
    | nil =>
        rintro done rfl later q s' _ holds
        rw [List.append_nil]
        exact pure holds
    | cons a rest ih =>
        intro done split later q s' extended holds
        rw [List.forIn_cons, isBody, bind_assoc]
        refine (step done a rest split later q s' extended holds).bind fun last left s'' _ ext next => ?_
        rw [pure_bind]
        exact ih (done ++ [a]) (by simp [split]) last left s'' (extended.trans ext) next
  exact after as [] rfl r p s (.refl r) start

end Accomplishes

namespace Program

theorem enterFunc_of_funcs {p q : Program} (same : q.funcs = p.funcs) (depth : Nat) :
    q.enterFunc depth = p.enterFunc depth := by
  induction depth with
  | zero => rfl
  | succ depth ih =>
      funext id
      rw [enterFunc, enterFunc, ih, func_eq_of_funcs same]

theorem reachable_of_funcs {p q : Program} (same : q.funcs = p.funcs) (root : Expr) :
    q.reachable root = p.reachable root := by
  rw [reachable, reachable, enterFunc_of_funcs same, same]

end Program

section

variable {p q : Program} {r later : Registry} {loss : Expr} {boxes : Boxes} {keys : List StageKey}
  {s : Accumulation} {settled : FuncId → Prop} {collected : StageKey → Grid ℚ} {f : FuncId}
  {settings : Differentiation} (elementary : p.Elementary r loss) (extended : r.Extends later)

theorem create_sound {g : Func} {vars : List Expr} {stage : Int} (declares : Declares r g vars) :
    Achieves (Derivative.createTargets.create g stage) r q fun _ left target =>
      target = q.funcs.size ∧ q.Grows left (fun _ => False) ∧ target < left.funcs.size ∧
        ∃ zero, IsZeroFloat zero ∧ left.func target =
          { name := s!"{g.name}_{stage + 1}_d__", init := some ⟨vars, zero⟩ } := by
  have titled : s!"{g.name}_{stage + 1}_d__" ≠ "" := by simp [toString]
  unfold Derivative.createTargets.create
  rw [declares.args_eq]
  refine Achieves.bind (Achieves.ofExcept (Q := fun last left args => r = last ∧ q = left ∧ vars = args)
    fun args same => ⟨rfl, rfl, Except.ok.inj same⟩) fun r0 q0 args _ made0 => ?_
  obtain ⟨rfl, rfl, rfl⟩ := made0
  refine Achieves.bind (declareFunc_sound titled) fun r1 q1 target _ made1 => ?_
  obtain ⟨rfl, isNew, pushed⟩ := made1
  refine Achieves.bind (Achieves.builds zero_sound) fun r2 q2 zero _ made2 => ?_
  obtain ⟨same2, _, isZero⟩ := made2
  obtain ⟨isFresh, others⟩ := func_push pushed
  have fresh : q2.func target = { name := s!"{g.name}_{stage + 1}_d__" } := by
    rw [func_eq_of_funcs same2, isNew, isFresh]
  have size : q2.funcs.size = q.funcs.size + 1 := by rw [same2, size_push pushed]
  have below : target < q2.funcs.size := by
    rw [isNew, size]
    exact Nat.lt_succ_self _
  refine Achieves.bind (define_initial_sound (by rw [fresh])) fun r3 left _ _ made3 => ?_
  obtain ⟨rfl, defined⟩ := made3
  obtain ⟨isDefined, unchanged⟩ := func_set below defined
  refine .pure ⟨isNew, ⟨?_, fun id old _ => ?_⟩, (size_set defined).symm ▸ below, zero, isZero, ?_⟩
  · rw [size_set defined, size]
    exact Nat.le_succ _
  · rw [unchanged id (isNew ▸ old.ne), func_eq_of_funcs same2, others id old]
  · rw [isDefined, fresh]

include elementary extended

theorem createTargets_accounts (accounts : p.Accounts loss boxes keys q s settled 0)
    (isHome : p.Home loss (some f)) (nothing : s.finalized = []) :
    Accomplishes settings (Derivative.createTargets f) later q s fun _ left s' _ =>
      s'.finalized = [] ∧ p.Accounts loss boxes (keys ++ (p.func f).keys) left s' settled 0 := by
  obtain ⟨initial, isInitial, declares⟩ := elementary.declares isHome
  unfold Derivative.createTargets
  refine .bind_lift (Achieves.getFunc (Q := fun last left g => last = later ∧ left = q ∧ g = q.func f)
    ⟨rfl, rfl, rfl⟩) fun r0 q0 g ext0 made0 => ?_
  obtain ⟨rfl, rfl, rfl⟩ := made0
  rw [accounts.kept f isHome]
  refine .bind_lift (Achieves.ofExcept (Q := fun last left _ => last = r0 ∧ left = q0)
    fun _ _ => ⟨rfl, rfl⟩) fun r1 q1 _ ext1 made1 => ?_
  obtain ⟨rfl, rfl⟩ := made1
  refine Accomplishes.bind (Accomplishes.each (fun entry => do
    let target ← (Derivative.createTargets.create (p.func f) entry.1 : ProgramM FuncId)
    Accumulation.modify fun state =>
      { state with targets := state.targets.insert ⟨(p.func f).name, entry.1⟩ target })
    (fun ⟨_, _⟩ => by simp only [bind_assoc])
    (fun done _ left s' => s'.finalized = [] ∧
      p.Accounts loss boxes (keys ++ done.map (p.func f).key) left s' settled 0)
    (p.func f).stages (fun done entry rest _ r2 q2 s2 ext2 holds => ?_) ?_) fun r2 q2 s2 _ _ holds =>
      .pure holds
  · obtain ⟨noneFinal, accounts2⟩ := holds
    refine .bind_lift (create_sound (declares.extend (extended.trans ext2)))
      fun r3 q3 target ext3 made3 => ?_
    obtain ⟨isNew, grows, below, zero, isZero, isFunc⟩ := made3
    refine .modify ⟨noneFinal, ?_⟩
    rw [List.map_append, ← List.append_assoc]
    exact accounts2.create elementary isHome isInitial rfl (by rw [noneFinal]; exact List.not_mem_nil)
      rfl isNew grows below isFunc isZero
  · exact ⟨nothing, by simpa using accounts⟩

end

theorem exact_call_variables {reads : Reads ℚ} {node : NodeId} {id : FuncId} {name : String}
    {dtype : DType} {vars : List Expr} (areVars : ∀ v ∈ vars, IsIndexVariable v v.name) (env : Env) :
    exact reads.answers env (.node node (.call (.func id name)) dtype vars) =
      reads id ((vars.map Expr.name).map env) := by
  rw [exact_node (by simp)]
  simp only [headExact, Reads.answers, List.map_map]
  congr 1
  refine List.map_congr_left fun v isVar => ?_
  simp [exact_variable (areVars v isVar).named]

theorem adjoint_name_ne (name : String) (stage : Int) : s!"{name}_{stage + 1}_d__" ++ "_ce" ≠ name := by
  intro same
  have sameLength := congrArg String.length same
  have suffix : "_ce".length = 3 := rfl
  simp only [toString, String.length_append, suffix] at sameLength
  omega

open Classical in
/-- The rationals that a pass over a stage reads: of functions that are reached those that stages of the
program read, of others those that they have now. -/
noncomputable def Program.passReads (p : Program) (loss : Expr) (caller : StageKey) (q : Program) :
    Reads ℚ :=
  fun id => if p.Home loss (some id) then p.ratReads caller id else q.exactReads id

section

variable {p q : Program} {r : Registry} {loss : Expr} {boxes : Boxes} {settled : FuncId → Prop}
  {f wrapper : FuncId} {entry : Int × Definition} {initial : Definition} {values : Grid ℚ}
  {node : NodeId} {seed : Expr}
  (declares : Declares r (p.func f) initial.args) (isNew : ¬ p.Home loss (some wrapper))
  (isSeed : seed = .node node (.call (.func wrapper (q.func wrapper).name)) .float32 initial.args)
  (holds : ∀ index, index.length = initial.args.length →
    q.exactReads wrapper index = values.confined (boxes.box ((p.func f).key entry)) index)

include declares isNew isSeed holds in
theorem exact_seed (env : Env) :
    exact (p.passReads loss ((p.func f).key entry) q).answers env seed =
      values.confined (boxes.box ((p.func f).key entry)) ((p.func f).declared.map env) := by
  have declared : (p.func f).declared = initial.args.map Expr.name := declares.declared
  rw [isSeed, exact_call_variables declares.areVars, Program.passReads, if_neg isNew, declared]
  exact holds _ (by simp)

include declares isNew isSeed holds in
theorem seeds_call (inside : settled wrapper) (untitled : (q.func wrapper).name ≠ (p.func f).name)
    (held : r.Holds seed) :
    (p.pass boxes f entry).Seeds p loss r q settled (p.passReads loss ((p.func f).key entry) q) seed := by
  have declared : (p.func f).declared = initial.args.map Expr.name := declares.declared
  have parts {y : Expr} (within : Subnode y seed) : y = seed ∨ ∃ v ∈ initial.args, Subnode y v := by
    rw [isSeed] at within ⊢
    exact subnode_node.1 within
  have plain : Plain seed := by
    rw [isSeed]
    exact plain_node.2 ⟨⟨nofun, by simp⟩, fun v isVar => (declares.areVars v isVar).index.plain⟩
  refine ⟨held, plain, by rw [isSeed]; rfl, fun y name within named => ?_, fun name isDeclared => ?_,
    fun x callee name within isCall => ?_, fun env outside => ?_, fun g isHome => if_pos isHome⟩
  · rcases parts within with rfl | ⟨v, isVar, within⟩
    · rw [isSeed] at named
      cases named
    · obtain ⟨rfl, isPure⟩ := (declares.areVars v isVar).subnode within named
      refine ⟨?_, isPure⟩
      change v.name ∈ (p.func f).declared
      rw [declared]
      exact List.mem_map_of_mem isVar
  · change name ∈ (p.func f).declared at isDeclared
    rw [declared] at isDeclared
    obtain ⟨v, isVar, rfl⟩ := List.mem_map.1 isDeclared
    rw [isSeed]
    exact ⟨v, .operand isVar .here, (declares.areVars v isVar).named⟩
  · rcases parts within with rfl | ⟨v, isVar, within⟩
    · rw [isSeed] at isCall
      cases isCall
      exact ⟨inside, isNew, untitled, (if_neg isNew).symm⟩
    · exact absurd ⟨x, within, name, isCall⟩ ((declares.areVars v isVar).index.not_calls callee)
  · rw [exact_seed declares isNew isSeed holds]
    exact if_neg outside

end

theorem Program.Elementary.nodup_keysOf {p : Program} {r : Registry} {loss : Expr}
    (elementary : p.Elementary r loss) : (p.keysOf (p.reachable loss)).Nodup := by
  refine List.nodup_flatMap.2 ⟨fun f _ => ?_, ?_⟩
  · have descending := List.pairwise_reverse.1 (stages_descending (p.func f))
    exact List.pairwise_map.2 (descending.imp fun less same => less.ne (congrArg StageKey.stage same))
  · refine elementary.linked.nodup_reachable.imp_of_mem fun {f g} isF isG differs key isKey isKey' => ?_
    obtain ⟨_, _, rfl⟩ := List.mem_map.1 isKey
    obtain ⟨_, _, same⟩ := List.mem_map.1 isKey'
    exact differs (elementary.distinct f g (elementary.linked.mem_reachable.1 isF)
      (elementary.linked.mem_reachable.1 isG) (congrArg StageKey.name same).symm)

section

variable {p q : Program} {r later : Registry} {loss : Expr} {domains : StageTable Domain}
  {s : Accumulation} {settled : FuncId → Prop} {collected : StageKey → Grid ℚ} {f : FuncId}
  {entry : Int × Definition} {settings : Differentiation} (elementary : p.Elementary r loss)
  (fitting : Fitting p loss (spans domains)) (heldDomains : ∀ entry ∈ domains, r.HoldsDomain entry.2)
  (unmuted : settings.muted = []) (extended : r.Extends later)

def Program.Finished (p : Program) (loss : Expr) (domains : StageTable Domain)
    (finished : List StageKey) (q : Program) (s : Accumulation) : Prop :=
  (∀ key, key ∈ s.finalized ↔ key ∈ finished) ∧ ∃ settled collected,
    p.Accounts loss (spans domains) (p.keysOf (p.reachable loss)) q s settled collected ∧
      p.Collects loss (spans domains) s.finalized collected

include elementary fitting heldDomains unmuted extended

omit fitting heldDomains unmuted extended in
theorem runs_stage {initial : Definition} {domain : Domain} (isHome : p.Home loss (some f))
    (isInitial : (p.func f).init = some initial) (declares : Declares r (p.func f) initial.args)
    (heldDomain : r.HoldsDomain domain)
    (isBox : (spans domains).box ((p.func f).key entry) = domain.map rangeEnds) :
    (p.pass (spans domains) f entry).Runs p loss r ⟨(p.func f).key entry, initial.args, domain⟩ := by
  refine ⟨rfl, declares.declared.symm, isBox.symm, heldDomain, fun g init isHome' same isInit => ?_⟩
  obtain rfl := elementary.distinct g f isHome' isHome same
  rw [Option.some.inj (isInitial.symm.trans isInit)]

theorem finishStage_finished {finished : List StageKey} (known : p.Finished loss domains finished q s)
    (isHome : p.Home loss (some f)) (isStage : entry ∈ (p.func f).stages)
    (unfinished : (p.func f).key entry ∉ finished) :
    Accomplishes settings (Derivative.finishStage domains (p.func f) entry.1 entry.2) later q s
      fun _ left s' _ => p.Finished loss domains (finished ++ [(p.func f).key entry]) left s' := by
  obtain ⟨isFinal, settled, collected, accounts, collects⟩ := known
  obtain ⟨initial, isInitial, declares⟩ := elementary.declares isHome
  have declaresLater := declares.extend extended
  have notFinal : (p.func f).key entry ∉ s.finalized := fun member => unfinished ((isFinal _).1 member)
  have isKey : (p.func f).key entry ∈ p.keysOf (p.reachable loss) :=
    List.mem_flatMap.2 ⟨f, (elementary.linked.mem_reachable).2 isHome, List.mem_map_of_mem isStage⟩
  obtain ⟨target, isKnown, isTarget⟩ :=
    accounts.collecting f initial isHome isInitial _ isKey rfl notFinal
  unfold Derivative.finishStage
  dsimp only
  refine .bind_get ?_
  split
  next domain target' isDomain isTarget' =>
    obtain rfl : target = target' := Option.some.inj (isKnown.symm.trans isTarget')
    have heldDomain : r.HoldsDomain domain := heldDomains _ (StageTable.mem_of_find? isDomain)
    have isBox : (spans domains).box ((p.func f).key entry) = domain.map rangeEnds := by
      simp [Boxes.box, spans, Func.key, isDomain]
    rw [declares.args_eq]
    refine .bind_lift (Achieves.ofExcept (Q := fun last left args => later = last ∧ q = left ∧
      initial.args = args) fun args same => ⟨rfl, rfl, Except.ok.inj same⟩) fun r0 q0 args _ made0 => ?_
    obtain ⟨rfl, rfl, rfl⟩ := made0
    refine .bind_lift (constantExterior_wraps (isTarget.declares declaresLater)
      (heldDomain.extend extended) fun d isInit => ?_) fun r1 q1 wrapper ext1 wraps => ?_
    · obtain ⟨zero, isZero, node, rfl⟩ := isTarget.initial
      rw [← Option.some.inj (isZero.symm.trans isInit)]
      rfl
    obtain ⟨settled1, retains1, inside, holds, accounts1⟩ := accounts.finish isHome elementary isInitial
      rfl notFinal isKnown isTarget declares.distinct wraps isBox
    refine Accomplishes.bind (.modify (Q := fun later' left s' _ => later' = r1 ∧ left = q1 ∧ s' = { s with
      targets := s.targets.insert ((p.func f).key entry) wrapper
      finalized := (p.func f).key entry :: s.finalized }) ⟨rfl, rfl, rfl⟩) fun r2 q2 s2 _ ext2 made2 => ?_
    obtain ⟨rfl, rfl, rfl⟩ := made2
    refine .bind_lift (callFunc_sound (declaresLater.held.extend ext1)) fun r3 q3 seed ext3 made3 => ?_
    obtain ⟨same3, initial', isInit, _, heldSeed, node, isSeed⟩ := made3
    have ext03 : r.Extends r3 := extended.trans (ext1.trans ext3)
    have isFloat : initial'.value.dtype = .float32 := by
      obtain ⟨_, isInit', _, isFloat, _⟩ := wraps.initial
      rwa [Option.some.inj (isInit.symm.trans isInit')]
    -- No function of the loss is the wrapper, so that the seed alone reads it.
    have isNew : ¬ p.Home loss (some wrapper) := fun isHome' =>
      (accounts.isSettled.below wrapper (accounts.reached wrapper isHome')).ne wraps.isNew
    have untitled : (q3.func wrapper).name ≠ (p.func f).name := by
      rw [func_eq_of_funcs same3, wraps.name, isTarget.titled]
      exact adjoint_name_ne _ _
    rw [isFloat, ← func_eq_of_funcs same3] at isSeed
    rw [← Program.exactReads_of_funcs same3] at holds
    have sameLength : (p.func f).declared.length =
        ((spans domains).box ((p.func f).key entry)).length := by
      rw [isBox, List.length_map, wraps.sameLength]
      exact (congrArg List.length declares.declared).trans (List.length_map _)
    have passes := Program.Passes.of_stage elementary fitting isHome isStage sameLength
    have runs := runs_stage elementary isHome isInitial declares heldDomain isBox
    refine (propagate_conveys elementary passes runs ext03 unmuted (fun _ => id)
      (seeds_call (declares.extend ext03) isNew isSeed holds inside untitled heldSeed)
      (accounts1.build same3) (exact_seed (declares.extend ext03) isNew isSeed holds)).mono
      fun r4 left s' _ _ done => ?_
    obtain ⟨settled', given, _, sameFinal, accounts', conveys, reads⟩ := done
    refine ⟨fun key => ?_, settled', collected + given, accounts', ?_⟩
    · rw [sameFinal, List.mem_append, List.mem_singleton, List.mem_cons, isFinal, or_comm]
    rw [sameFinal]
    exact .stage collects isHome isStage notFinal sameLength conveys reads
  next => exact .throw

theorem finishFunc_finished {done rest : List FuncId} (order : p.reachable loss = done ++ f :: rest)
    (known : p.Finished loss domains (p.keysOf done) q s) :
    Accomplishes settings (Derivative.finishFunc domains f) later q s fun _ left s' _ =>
      p.Finished loss domains (p.keysOf (done ++ [f])) left s' := by
  have isHome : p.Home loss (some f) := elementary.linked.mem_reachable.1 (order ▸ by simp)
  have distinct : (p.keysOf done ++ ((p.func f).keys ++ p.keysOf rest)).Nodup := by
    have nodup := elementary.nodup_keysOf
    rwa [order, Program.keysOf, List.flatMap_append, List.flatMap_cons] at nodup
  obtain ⟨_, settled, collected, accounts, _⟩ := id known
  unfold Derivative.finishFunc
  refine .bind_lift (Achieves.getFunc (Q := fun last left g => last = later ∧ left = q ∧ g = q.func f)
    ⟨rfl, rfl, rfl⟩) fun r0 q0 g ext0 made0 => ?_
  obtain ⟨rfl, rfl, rfl⟩ := made0
  rw [accounts.kept f isHome]
  refine Accomplishes.bind (Accomplishes.each
    (fun entry => Derivative.finishStage domains (p.func f) entry.1 entry.2) (fun _ => rfl)
    (fun walked _ left s' => p.Finished loss domains
      (p.keysOf done ++ walked.map (p.func f).key) left s')
    (p.func f).stages.reverse (fun walked entry left split r1 q1 s1 ext1 finished => ?_) ?_)
    fun r1 q1 s1 _ _ finished => .pure ?_
  · have isStage : entry ∈ (p.func f).stages := List.mem_reverse.1 (split ▸ by simp)
    have unfinished : (p.func f).key entry ∉ p.keysOf done ++ walked.map (p.func f).key := by
      rw [List.mem_append, not_or]
      refine ⟨fun before => ?_, fun before => ?_⟩
      · exact (List.nodup_append.1 distinct).2.2 _ before _
          (List.mem_append_left _ (List.mem_map_of_mem isStage)) rfl
      · have own := List.nodup_reverse.2 (List.nodup_append.1 (List.nodup_append.1 distinct).2.1).1
        rw [Func.keys, ← List.map_reverse, split, List.map_append] at own
        exact (List.nodup_append.1 own).2.2 _ before _ (.head _) rfl
    rw [List.map_append, ← List.append_assoc]
    exact finishStage_finished elementary fitting heldDomains unmuted (extended.trans ext1) finished
      isHome isStage unfinished
  · simpa using known
  · refine ⟨fun key => (finished.1 key).trans ?_, finished.2⟩
    simp [Program.keysOf, Func.keys]

end

section

variable {p q : Program} {r later : Registry} {loss : Expr} {boxes : Boxes}
  {s : Accumulation} {settled : FuncId → Prop} {settings : Differentiation} {f : FuncId}
  (elementary : p.Elementary r loss)

include elementary

theorem Program.Elementary.lookup_name (isHome : p.Home loss (some f)) :
    (((p.reachable loss).map fun id => (p.func id).name).zip (p.reachable loss)).reverse.lookup
      (p.func f).name = some f := by
  have paired := List.zip_map' (f := fun i => (p.func i).name) (g := fun i => i)
    (l := p.reachable loss)
  rw [List.map_id'] at paired
  rw [paired]
  have listed {entry : String × FuncId} : entry ∈ ((p.reachable loss).map fun id =>
      ((p.func id).name, id)).reverse ↔ ∃ id, p.Home loss (some id) ∧ ((p.func id).name, id) = entry := by
    simp only [List.mem_reverse, List.mem_map, elementary.linked.mem_reachable]
  obtain ⟨g, found⟩ := Option.isSome_iff_exists.1 (List.lookup_isSome_iff.2
    ⟨_, listed.2 ⟨f, isHome, rfl⟩, beq_self_eq_true (p.func f).name⟩)
  obtain ⟨before, after, same, _⟩ := List.lookup_eq_some_iff.1 found
  obtain ⟨g', isHome', sameEntry⟩ := listed.1 (same ▸ List.mem_append_right before (.head after))
  obtain ⟨sameName, rfl⟩ := Prod.mk.inj sameEntry
  rw [found, elementary.distinct g' f isHome' isHome sameName]

theorem Program.Elementary.accounts_start : p.Accounts loss boxes [] p
    { funcs := (((p.reachable loss).map fun id => (p.func id).name).zip (p.reachable loss)).reverse }
    (fun f => p.Home loss (some f)) 0 where
  kept _ _ := rfl
  isSettled := ⟨elementary.linked.known, fun f isHome => (elementary.funcs f isHome).grounded,
    fun _ isHome _ needed => elementary.needs isHome needed⟩
  reached _ isHome := isHome
  funcs _ isHome := elementary.lookup_name isHome
  snapshots _ _ _ _ := nofun
  collecting _ _ _ _ _ := nofun
  complete _ _ _ _ _ := nofun
  below _ _ := nofun
  apart _ _ _ _ _ := nofun

theorem runs_loss : (Pass.ofLoss loss).Runs p loss r CallContext.root where
  key := rfl
  declared := rfl
  box := rfl
  held := nofun
  args f _ isHome named _ := absurd named (elementary.titled f isHome)

omit elementary in
theorem seeds_loss {seed : Expr} {node : NodeId} (held : r.Holds seed)
    (isSeed : seed = .node node (.const (.float 1.0)) .float32 []) :
    (Pass.ofLoss loss).Seeds p loss r q settled (p.ratReads CallContext.root.key) seed := by
  have sole {y : Expr} (within : Subnode y seed) : y = seed := by
    rw [isSeed] at within ⊢
    simpa [subnode_node] using within
  refine ⟨held, ?_, by rw [isSeed]; rfl, fun y name within named => ?_, nofun,
    fun x callee name within isCall => ?_, fun env outside => absurd .nil outside, fun _ _ => rfl⟩
  · rw [isSeed]
    exact plain_node.2 ⟨⟨fun n arity => by cases arity; rfl, by simp⟩, by simp⟩
  · rw [sole within, isSeed] at named
    cases named
  · rw [sole within, isSeed] at isCall
    cases isCall

end

def Quiet {α : Type} (action : ProgramM α) : Prop :=
  ∀ r p, Achieves action r p fun _ left _ => left.funcs = p.funcs

namespace Quiet

variable {α β : Type}

theorem pure {a : α} : Quiet (Pure.pure a : ProgramM α) := fun _ _ => Achieves.pure rfl

theorem bind {action : ProgramM α} {rest : α → ProgramM β} (first : Quiet action)
    (second : ∀ a, Quiet (rest a)) : Quiet (action >>= rest) := fun r p =>
  (first r p).bind fun later left a _ same =>
    (second a later left).mono fun _ _ _ _ same' => same'.trans same

theorem getProgram : Quiet (getThe Program : ProgramM Program) := by
  intro r p fits a left run
  cases run
  exact ⟨r, .refl r, fits, rfl⟩

theorem forIn {body : α → PUnit → ProgramM (ForInStep PUnit)} (as : List α)
    (each : ∀ a, Quiet (body a ⟨⟩)) : Quiet (ForIn.forIn as ⟨⟩ body) := by
  induction as with
  | nil => exact pure
  | cons a rest ih =>
      rw [List.forIn_cons]
      refine (each a).bind fun step => ?_
      cases step with
      | done => exact pure
      | yield => exact ih

theorem callFunc {id : FuncId} {args : List Expr} : Quiet (callFunc id args) := by
  unfold ReverseMode.callFunc callFuncWith
  refine bind (fun r p => Achieves.getFunc rfl) fun f => ?_
  split
  next => exact fun _ _ => Achieves.throw
  next initial _ =>
    dsimp only
    split
    next => exact fun _ _ => Achieves.throw_bind
    next =>
      rw [toExprs_map]
      intro r p fits call left run
      cases run
      let call := Expr.node p.supply.nodes (.call (.func id f.name)) initial.value.dtype args
      exact ⟨r.push call, r.extends_push call, ⟨congrArg (· + 1) fits.nodes, fits.names⟩, rfl⟩

theorem listing {id : FuncId} : Quiet (listing id) := by
  unfold ReverseMode.listing
  exact bind (fun _ _ => Achieves.getFunc rfl) fun f =>
    bind (fun _ _ => Achieves.ofExcept fun _ _ => rfl) fun _ =>
      callFunc.bind fun _ => getProgram.bind fun _ => pure

theorem reportTargets {targets : StageTable FuncId} : Quiet (Derivative.reportTargets targets) := by
  unfold Derivative.reportTargets
  refine getProgram.bind fun _ => ?_
  split
  next =>
    refine (forIn targets fun entry => ?_).bind fun _ => pure
    dsimp only
    split
    next =>
      exact listing.bind fun lines => (forIn lines fun _ =>
        bind (fun _ _ => Achieves.report) fun _ => pure).bind fun _ => pure
    next => exact pure
  next => exact pure

end Quiet

theorem Accomplishes.bind_program {α : Type} {settings : Differentiation} {r : Registry} {p : Program}
    {s : Accumulation} {rest : Program → AdjointM α} {Q : Registry → Program → Accumulation → α → Prop}
    (second : Accomplishes settings (rest p) r p s Q) :
    Accomplishes settings (liftM (getThe Program : ProgramM Program) >>= rest) r p s Q := second

def Derivative.Holds (d : Derivative) (p : Program) (loss : Expr) (left : Program)
    (values : FuncId → Int → Grid ℚ) : Prop :=
  ∀ f entry, p.Home loss (some f) → entry ∈ (p.func f).stages → ∃ target,
    d.adjoint (p.func f).name entry.1 = .ok target ∧ left.Grounded target ∧
      ∀ index : List Int, index.length = (p.func f).declared.length →
        left.exactReads target index = values f entry.1 index

section

variable {p q : Program} {r later : Registry} {loss : Expr} {domains : StageTable Domain}
  {s : Accumulation} {settings : Differentiation} (elementary : p.Elementary r loss)

theorem Program.Finished.build {left : Program} {finished : List StageKey}
    (known : p.Finished loss domains finished q s) (same : left.funcs = q.funcs) :
    p.Finished loss domains finished left s := by
  obtain ⟨isFinal, settled, collected, accounts, collects⟩ := known
  exact ⟨isFinal, settled, collected, accounts.build same, collects⟩

include elementary

theorem Program.Finished.holds {d : Derivative}
    (finished : p.Finished loss d.domains (p.keysOf (p.reachable loss)) q s)
    (isTargets : d.adjoints = s.targets) : ∃ done collected,
      p.Collects loss (spans d.domains) done collected ∧
      (∀ key, key ∈ done ↔ key ∈ p.keysOf (p.reachable loss)) ∧
      d.Holds p loss q fun f stage => (collected ⟨(p.func f).name, stage⟩).confined
        ((spans d.domains).box ⟨(p.func f).name, stage⟩) := by
  obtain ⟨isFinal, settled, collected, accounts, collects⟩ := finished
  refine ⟨s.finalized, collected, collects, isFinal, fun f entry isHome isStage => ?_⟩
  obtain ⟨initial, isInitial, declares⟩ := elementary.declares isHome
  have isKey : (p.func f).key entry ∈ p.keysOf (p.reachable loss) :=
    List.mem_flatMap.2 ⟨f, elementary.linked.mem_reachable.2 isHome, List.mem_map_of_mem isStage⟩
  obtain ⟨target, found, inside, values⟩ :=
    accounts.complete f initial isHome isInitial _ ((isFinal _).2 isKey) rfl
  refine ⟨target, ?_, accounts.isSettled.grounded target inside, fun index isIndex => ?_⟩
  · have isFound : d.adjoints.find? ⟨(p.func f).name, entry.1⟩ = some target := isTargets ▸ found
    simp [Derivative.adjoint, isFound]
  · rw [declares.declared, List.length_map] at isIndex
    exact values index isIndex

theorem propagateLoss_finished (unmuted : settings.muted = []) (extended : r.Extends later)
    {settled : FuncId → Prop} {seed : Expr} {node : NodeId} (held : later.Holds seed)
    (isSeed : seed = .node node (.const (.float 1.0)) .float32 []) (nothing : s.finalized = [])
    (accounts : p.Accounts loss (spans domains) (p.keysOf (p.reachable loss)) q s settled 0) :
    Accomplishes settings (propagate CallContext.root loss seed) later q s fun _ left s' _ =>
      p.Finished loss domains [] left s' := by
  let one : Grid ℚ := fun _ => 1
  have isOne (env : Env) : exact (p.ratReads CallContext.root.key).answers env seed =
      one ((Pass.ofLoss loss).declared.map env) := by
    rw [isSeed]
    simp [one, headExact, Constant.exact_one]
  refine (propagate_conveys elementary (.of_loss loss) (runs_loss elementary) extended unmuted
    (fun _ => id) (seeds_loss held isSeed) accounts isOne).mono fun _ left s' _ _ done => ?_
  obtain ⟨settled', given, _, sameFinal, accounts', conveys, _⟩ := done
  rw [zero_add] at accounts'
  have noneFinal : s'.finalized = [] := sameFinal.trans nothing
  exact ⟨by simp [noneFinal], settled', given, accounts', noneFinal ▸ .loss conveys⟩

theorem derivative_collects (apart : p.TellsTextsApart settings.hash loss)
    (unmuted : settings.muted = []) :
    Achieves (derivative settings loss) r p fun _ left d => Fitting p loss (spans d.domains) ∧
      ∃ done collected, p.Collects loss (spans d.domains) done collected ∧
        (∀ key, key ∈ done ↔ key ∈ p.keysOf (p.reachable loss)) ∧
        d.Holds p loss left fun f stage => (collected ⟨(p.func f).name, stage⟩).confined
          ((spans d.domains).box ⟨(p.func f).name, stage⟩) := by
  have walks : Accomplishes settings (Derivative.ofLoss loss) r p {} fun _ left _ d =>
      Fitting p loss (spans d.domains) ∧ ∃ s, d.adjoints = s.targets ∧
        p.Finished loss d.domains (p.keysOf (p.reachable loss)) left s := by
    unfold Derivative.ofLoss
    refine .bind_settings (.bind_lift (inferBoundsWith_fitting apart elementary.toIndexed)
      fun r0 q0 domains ext0 inferred => .bind_program ?_)
    obtain ⟨same0, held, fitting⟩ := inferred
    have elementary := elementary.extend ext0
    extract_lets order names
    have isOrder : order = p.reachable loss := Program.reachable_of_funcs same0 loss
    have areNames : names = (p.reachable loss).map fun id => (p.func id).name := by
      simp only [names, isOrder, func_eq_of_funcs same0]
    rw [areNames, isOrder]
    -- Every function that the loss reaches gets targets that hold nothing.
    refine Accomplishes.bind (.modify (Q := fun _ left s' _ => s'.finalized = [] ∧
      p.Accounts loss (spans domains) [] left s' (fun f => p.Home loss (some f)) 0)
      ⟨rfl, elementary.accounts_start.build same0⟩) fun r1 q1 s1 _ ext1 begun => ?_
    refine (Accomplishes.each Derivative.createTargets (fun _ => rfl)
      (fun done _ left s' => s'.finalized = [] ∧ p.Accounts loss (spans domains) (p.keysOf done) left s'
        (fun f => p.Home loss (some f)) 0) (p.reachable loss)
      (fun done f rest split r2 q2 s2 ext2 stocked => ?_) begun).bind fun r2 q2 s2 _ ext2 stocked => ?_
    · have isHome : p.Home loss (some f) := elementary.linked.mem_reachable.1 (split ▸ by simp)
      refine (createTargets_accounts elementary (ext1.trans ext2) stocked.2 isHome
        stocked.1).mono fun _ _ _ _ _ stocked' => ?_
      simpa [Program.keysOf] using stocked'
    -- The loss gives to them, and then every function, callers first, gives what it was given.
    refine .bind_lift Achieves.report fun r3 q3 _ ext3 same3 => ?_
    refine .bind_lift (Achieves.builds (Builds.const (.float 1.0))) fun r4 q4 seed ext4 made4 => ?_
    obtain ⟨same4, heldSeed, node, isSeed⟩ := made4
    have ext : r0.Extends r4 := ext1.trans (ext2.trans (ext3.trans ext4))
    refine (propagateLoss_finished elementary unmuted ext heldSeed isSeed stocked.1
      (stocked.2.build (same4.trans same3))).bind fun r5 q5 s5 _ ext5 finished => ?_
    refine (Accomplishes.each (Derivative.finishFunc domains) (fun _ => rfl)
      (fun done _ left s' => p.Finished loss domains (p.keysOf done) left s') (p.reachable loss)
      (fun done f rest split r6 q6 s6 ext6 finished => ?_) finished).bind fun r6 q6 s6 _ _ finished => ?_
    · exact finishFunc_finished elementary fitting held unmuted (ext.trans (ext5.trans ext6)) split
        finished
    refine .bind_get (.bind_lift (Quiet.reportTargets r6 q6) fun r7 q7 _ _ same7 => .pure ?_)
    exact ⟨fitting, s6, rfl, finished.build same7⟩
  unfold derivative
  refine Achieves.bind walks fun later left result _ answer => .pure ?_
  obtain ⟨fitting, s, isTargets, finished⟩ := answer
  exact ⟨fitting, finished.holds elementary isTargets⟩

theorem derivative_forward (apart : p.TellsTextsApart settings.hash loss)
    (unmuted : settings.muted = []) (smooth : p.SmoothlyDemanded loss) :
    Achieves (derivative settings loss) r p fun _ left d => d.Holds p loss left (p.forward loss) := by
  refine (derivative_collects elementary apart unmuted).mono fun _ left d _ answer => ?_
  obtain ⟨fitting, done, collected, collects, complete, holds⟩ := answer
  intro f entry isHome isStage
  obtain ⟨target, isTarget, grounded, values⟩ := holds f entry isHome isStage
  refine ⟨target, isTarget, grounded, fun index isIndex => (values index isIndex).trans ?_⟩
  exact collects.adjoint elementary fitting smooth complete isHome isStage index

end

end ReverseMode
