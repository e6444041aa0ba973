import ReverseMode.Proofs.Derivative.Accounts
import ReverseMode.Proofs.Derivative.Snapshot
import ReverseMode.Proofs.Derivative.Spreading

namespace ReverseMode

open Expr

namespace Program

section

variable {p q : Program} {r later : Registry} {loss : Expr} {boxes : Boxes} {keys : List StageKey}
  {s : Accumulation} {settled : FuncId → Prop} {collected : StageKey → Grid ℚ} {f callee : FuncId}
  {initial : Definition} {settings : Differentiation}

namespace Elementary

variable (elementary : p.Elementary r loss) (isHome : p.Home loss (some f))

include elementary isHome

theorem declares : ∃ initial, (p.func f).init = some initial ∧ Declares r (p.func f) initial.args := by
  obtain ⟨vars, declares⟩ := (elementary.funcs f isHome).declares
  obtain ⟨initial, isInitial, rfl⟩ := declares.args
  exact ⟨initial, isInitial, declares⟩

theorem update_place {u : Definition} (isUpdate : u ∈ (p.func f).updates) :
    ∃ i : Nat, p.Place loss ⟨(p.func f).name, i⟩ (p.func f).declared u.value := by
  obtain ⟨initial, isInitial, _⟩ := elementary.declares isHome
  obtain ⟨i, found⟩ := List.getElem?_of_mem isUpdate
  have isStage : ((i : Int), u) ∈ (p.func f).stages := mem_stages.2 ⟨initial, isInitial, .inr ⟨i, rfl, found⟩⟩
  exact ⟨i, .stage isHome isStage⟩

theorem needs (needed : (p.func f).Needs f callee) : p.Home loss (some callee) := by
  rcases needed with ⟨initial, isInitial, called⟩ | ⟨u, isUpdate, called, _⟩
  · have isStage : (-1, initial) ∈ (p.func f).stages :=
      mem_stages.2 ⟨initial, isInitial, .inl ⟨rfl, rfl⟩⟩
    have place := Place.stage isHome isStage
    exact place.home ((elementary.places _ _ _ place).meets called)
  · obtain ⟨i, place⟩ := elementary.update_place isHome isUpdate
    exact place.home ((elementary.places _ _ _ place).meets called)

theorem copyable (isInitial : (p.func f).init = some initial) (kept : q.func f = p.func f)
    (extended : r.Extends later) : q.Copyable later f initial := by
  obtain ⟨initial', isInitial', declares⟩ := elementary.declares isHome
  obtain rfl := Option.some.inj (isInitial'.symm.trans isInitial)
  have isFunc := elementary.funcs f isHome
  have declared : (p.func f).declared = initial'.args.map Expr.name := declares.declared
  refine ⟨kept ▸ isInitial, fun a member => ?_, declares.distinct, ?_, ?_, ?_, ?_, ?_, ?_⟩
  · obtain ⟨_, _, isVariable⟩ := declares.areVars a member
    rw [isVariable]
    rfl
  all_goals
    rw [kept]
    intro u isUpdate
    obtain ⟨i, place⟩ := elementary.update_place isHome isUpdate
    have isPlace := elementary.places _ _ _ place
  · exact isPlace.held.extend extended
  · exact isPlace.plain.shaped
  · exact isFunc.typed initial' isInitial u isUpdate
  · rw [(isFunc.writes u isUpdate).length_eq, declared, List.length_map]
  · intro node callee other type operands within
    obtain ⟨isHome', named, isCall⟩ := elementary.call place within rfl
    refine ⟨⟨fun same => elementary.distinct callee f isHome' isHome (named.symm.trans same), ?_⟩, ?_⟩
    · rintro rfl
      exact named
    · rintro rfl
      exact isCall.typed initial' isInitial
  · intro node name type operands within
    obtain ⟨_, _, isCall⟩ := elementary.call place within rfl
    exact isCall.fitting.trans (by rw [declared, List.length_map])

end Elementary

theorem recalls_snapshot {left : Program} {stage : Int} {copy : FuncId}
    (elementary : p.Elementary r loss)
    (accounts : p.Accounts loss boxes keys q s settled collected) (isHome : p.Home loss (some f))
    (isInitial : (p.func f).init = some initial)
    (within : (stage + 1).toNat ≤ (p.func f).updates.length) (isNew : copy = q.funcs.size)
    (kept : ∀ x, x < q.funcs.size → left.func x = q.func x)
    (mirrors : MirrorsUpTo f copy (q.func f) (left.func copy) (stage + 1).toNat) :
    q.Retains left settled (fun x => settled x ∨ x = copy) ∧
      p.Recalls left (fun x => settled x ∨ x = copy) f stage copy ∧
      p.Accounts loss boxes keys left
        { s with snapshots := s.snapshots.insert ⟨(p.func f).name, stage⟩ copy }
        (fun x => settled x ∨ x = copy) collected := by
  have sameInit : (left.func copy).init = (p.func f).init := mirrors.init.trans (by rw [accounts.kept f isHome])
  have below : copy < left.funcs.size := below_of_defined (sameInit.trans isInitial)
  have grows : q.Grows left fun _ => False := ⟨(isNew ▸ below).le, fun id inside _ => kept id inside⟩
  have updates := mirrors.updates
  rw [accounts.kept f isHome] at updates mirrors
  have shaped (u : Definition) (isUpdate : u ∈ (p.func f).updates) : Shaped u.value := by
    obtain ⟨i, place⟩ := elementary.update_place isHome isUpdate
    exact (elementary.places _ _ _ place).plain.shaped
  have older (u : Definition) (isUpdate : u ∈ (p.func f).updates) {callee : FuncId}
      (called : u.value.Calls callee) : settled callee := by
    obtain ⟨i, place⟩ := elementary.update_place isHome isUpdate
    exact accounts.reached callee (place.home ((elementary.places _ _ _ place).meets called))
  have needs (callee : FuncId) (needed : (left.func copy).Needs copy callee) : settled callee := by
    rcases needed with ⟨d, isInitial', called⟩ | ⟨u', isUpdate, called, other⟩
    · exact accounts.reached callee (elementary.needs isHome (.inl ⟨d, sameInit ▸ isInitial', called⟩))
    · obtain ⟨u, isFirst, _, R, _, mirrored⟩ := forall₂_mem_right (forall₂_imp_mem updates
        fun u isFirst u' _ related => And.intro isFirst related) isUpdate
      have isUpdate' := List.mem_of_mem_take isFirst
      rcases (mirrored.redirected (shaped u isUpdate')).calls called with ⟨called, _⟩ | ⟨same, _⟩
      · exact older u isUpdate' called
      · exact absurd same other
  have isSettled : left.Settled fun x => settled x ∨ x = copy :=
    (accounts.isSettled.grows grows fun _ _ => id).insert below (by rw [sameInit, isInitial]; rfl) needs
  have holds : left.exactReads copy = p.stored (fun _ _ _ => 0) f stage := by
    have computed : left.exactReads copy = (left.func copy).after copy left.exactReads (fun _ _ => 0)
        (left.func copy).updates.length :=
      (isSettled.grounded copy (.inr rfl)).values_eq fun _ _ _ => 0
    have length : (left.func copy).updates.length = (stage + 1).toNat := by
      rw [← updates.length_eq, List.length_take, Nat.min_eq_left within]
    have fresh (u : Definition) (isUpdate : u ∈ (p.func f).updates) : ¬ u.value.Calls copy :=
      fun called => (accounts.isSettled.below copy (older u isUpdate called)).ne isNew
    rw [computed, length, mirrors.after shaped fresh le_rfl]
    refine after_congr (fun callee needed => ?_) _
    have isHome' := elementary.needs isHome needed
    rw [accounts.isSettled.exactReads_eq grows (fun _ _ => id) (accounts.reached callee isHome'),
      accounts.exactReads_home isHome' fun g isHome _ needed => elementary.needs isHome needed]
    rfl
  exact ⟨accounts.isSettled.retains grows (fun _ _ => id) fun _ => .inl, ⟨.inr rfl, sameInit, holds⟩,
    accounts.recalled elementary isHome isNew grows below sameInit (by rw [isInitial]; rfl) needs holds⟩

theorem stageSnapshot_recalls {stage : Int} (elementary : p.Elementary r loss)
    (extended : r.Extends later) (accounts : p.Accounts loss boxes keys q s settled collected)
    (isHome : p.Home loss (some f)) (isInitial : (p.func f).init = some initial)
    (within : (stage + 1).toNat ≤ (p.func f).updates.length) :
    Accomplishes settings (stageSnapshot initial.args (p.func f).name stage) later q s
      fun _ left s' copy => ∃ settled', q.Retains left settled settled' ∧
        p.Recalls left settled' f stage copy ∧
        p.Accounts loss boxes keys left s' settled' collected ∧
        s' = { s with snapshots := s'.snapshots } := by
  unfold stageSnapshot
  refine .bind_get ?_
  split
  next known found =>
    exact .pure ⟨settled, .refl q settled, accounts.snapshots f stage known isHome found, accounts, rfl⟩
  next =>
    have copied : Achieves (stageSnapshot.copy initial.args (p.func f).name stage f) later q
        fun _ left copy => copy = q.funcs.size ∧ (∀ x, x < q.funcs.size → left.func x = q.func x) ∧
          MirrorsUpTo f copy (q.func f) (left.func copy) (stage + 1).toNat := by
      have kept := accounts.kept f isHome
      have run := copy_mirrors (elementary.copyable isHome isInitial kept extended) (by rw [kept]; exact within)
      rw [kept] at run ⊢
      exact run.achieves
    have built : Accomplishes settings (stageSnapshot.build initial.args (p.func f).name stage) later q s
        fun _ left s' copy => s' = s ∧ copy = q.funcs.size ∧
          (∀ x, x < q.funcs.size → left.func x = q.func x) ∧
          MirrorsUpTo f copy (q.func f) (left.func copy) (stage + 1).toNat := by
      unfold stageSnapshot.build
      refine .bind_get ?_
      rw [accounts.funcs f isHome]
      exact .lift copied
    refine built.bind fun r1 left s1 copy _ made => ?_
    obtain ⟨rfl, isNew, kept, mirrors⟩ := made
    obtain ⟨retains, recalls, accounts'⟩ :=
      recalls_snapshot elementary accounts isHome isInitial within isNew kept mirrors
    exact .bind (.modify (Q := fun _ left' s' _ => left' = left ∧
        s' = { s1 with snapshots := s1.snapshots.insert ⟨(p.func f).name, stage⟩ copy }) ⟨rfl, rfl⟩)
      fun r2 left' s2 _ _ done => .pure (by
        obtain ⟨rfl, rfl⟩ := done
        exact ⟨_, retains, recalls, accounts', rfl⟩)

end

end Program

structure Pass.Runs (pass : Pass) (p : Program) (loss : Expr) (r : Registry) (ctx : CallContext) :
    Prop where
  key : ctx.key = pass.caller
  declared : ctx.args.map Expr.name = pass.declared
  box : ctx.domain.map rangeEnds = pass.box
  held : r.HoldsDomain ctx.domain
  args : ∀ f initial, p.Home loss (some f) → (p.func f).name = pass.caller.name →
    (p.func f).init = some initial → ctx.args = initial.args

structure Pass.Seeds (pass : Pass) (p : Program) (loss : Expr) (r : Registry) (q : Program)
    (settled : FuncId → Prop) (reads : Reads ℚ) (seed : Expr) : Prop where
  held : r.Holds seed
  plain : Plain seed
  isFloat : seed.dtype = .float32
  placed : ∀ y name, Subnode y seed → y.variableName? = some name →
    name ∈ pass.declared ∧ y.isPureVariable = true
  uses : ∀ name ∈ pass.declared, Mentions seed name
  calls : ∀ x callee name, Subnode x seed → x.callee? = some (.func callee name) →
    settled callee ∧ ¬ p.Home loss (some callee) ∧ name ≠ pass.caller.name ∧
      q.exactReads callee = reads callee
  vanishes : ∀ env, ¬ Within pass.box (pass.declared.map env) → exact reads.answers env seed = 0
  home : ∀ f, p.Home loss (some f) → reads f = p.ratReads pass.caller f

structure Current (r : Registry) (q : Program) (settled : FuncId → Prop) (reads : Reads ℚ)
    (adjoint e : Expr) : Prop where
  held : r.Holds e
  plain : Plain e
  placed : ∀ y name, Subnode y e → y.variableName? = some name → ∃ x, Subnode x adjoint ∧
    x.variableName? = some name ∧ (y = x ∨ y.isPureVariable = true ∧ x.isPureVariable = true)
  uses : ∀ name, Mentions adjoint name → Mentions e name
  calls : ∀ callee, e.Calls callee → settled callee
  value : ∀ env, exact q.exactReads.answers env e = exact reads.answers env adjoint

section

variable {p q : Program} {r later : Registry} {loss : Expr} {boxes : Boxes} {keys : List StageKey}
  {s : Accumulation} {settled : FuncId → Prop} {collected : StageKey → Grid ℚ} {f callee : FuncId}
  {initial : Definition} {settings : Differentiation} {pass : Pass} {ctx : CallContext}
  {reads : Reads ℚ} {seed adjoint : Expr}

theorem Pass.Seeds.retain {q' : Program} {settled' : FuncId → Prop}
    (seeds : pass.Seeds p loss r q settled reads seed) (extended : r.Extends later)
    (retains : q.Retains q' settled settled') : pass.Seeds p loss later q' settled' reads seed :=
  { seeds with
    held := seeds.held.extend extended
    calls := fun x callee name within isCall => by
      obtain ⟨inside, other, differs, same⟩ := seeds.calls x callee name within isCall
      exact ⟨retains.stays callee inside, other, differs, (retains.values callee inside).trans same⟩ }

theorem Derived.calls {root : Expr} (derived : Derived r root seed adjoint)
    (called : adjoint.Calls callee) : root.Calls callee ∨ seed.Calls callee := by
  obtain ⟨x, within, name, isCall⟩ := called
  exact (derived.origin x within (.inr ⟨callee, name, isCall⟩)).imp (fun inside => ⟨x, inside, name, isCall⟩)
    fun inside => ⟨x, inside, name, isCall⟩

theorem Derived.around {root call x y : Expr} {name : String} (derived : Derived r root seed adjoint)
    (outer : Outer call root) (among : x ∈ adjoint :: call.operands) (within : Subnode y x)
    (named : y.variableName? = some name) : Subnode y root ∨ Subnode y seed := by
  rcases List.mem_cons.1 among with rfl | isArg
  · exact derived.origin y within (.inl ⟨name, named⟩)
  · exact .inl ((within.trans (subnode_operand isArg)).trans outer.subnode)

theorem Program.Passes.update_cases (elementary : p.Elementary r loss)
    (passes : p.Passes loss boxes pass) :
    (pass.caller.stage < 0 ∧ ∀ f, pass.value.Calls f → pass.caller.name ≠ (p.func f).name) ∨
      ∃ (f : FuncId) (n : Nat), p.Home loss (some f) ∧ pass.caller = ⟨(p.func f).name, n⟩ ∧
        n < (p.func f).updates.length := by
  obtain ⟨caller, declared, box, value⟩ := pass
  have place : p.Place loss caller declared value := passes.place
  have reached {g : FuncId} (called : value.Calls g) : p.Home loss (some g) :=
    place.home ((elementary.places _ _ _ place).meets called)
  dsimp only
  cases place with
  | root =>
      refine .inl ⟨show (-1 : Int) < 0 by decide, fun g called same => ?_⟩
      exact elementary.titled g (reached called) same.symm
  | @stage f entry isHome isStage =>
      obtain ⟨stage, d⟩ := entry
      obtain ⟨initial, isInitial, ⟨rfl, rfl⟩ | ⟨n, rfl, found⟩⟩ := mem_stages.1 isStage
      · refine .inl ⟨show (-1 : Int) < 0 by decide, fun g called same => ?_⟩
        obtain rfl := elementary.distinct g f (reached called) isHome same.symm
        exact ((elementary.funcs g isHome).initial d isInitial).2 called
      · exact .inr ⟨f, n, isHome, rfl, (List.getElem?_eq_some_iff.1 found).1⟩

variable (elementary : p.Elementary r loss) (passes : p.Passes loss boxes pass)
  (seeds : pass.Seeds p loss later q settled reads seed)
  (derived : Derived later pass.value seed adjoint)

include elementary passes seeds derived

theorem Derived.callsAs (isHome : p.Home loss (some f)) (named : pass.caller.name = (p.func f).name)
    (isInitial : (p.func f).init = some initial) :
    CallsAs pass.caller.name f initial.value.dtype adjoint := by
  intro node callee other type operands within
  rcases derived.origin _ within (.inr ⟨callee, other, rfl⟩) with inValue | inSeed
  · obtain ⟨isHome', isName, isCall⟩ := elementary.call passes.place inValue rfl
    refine ⟨⟨fun same => elementary.distinct callee f isHome' isHome
      (isName.symm.trans (same.trans named)), ?_⟩, ?_⟩
    · rintro rfl
      exact isName.trans named.symm
    · rintro rfl
      exact isCall.typed initial isInitial
  · obtain ⟨_, notHome, differs, _⟩ := seeds.calls _ callee other inSeed rfl
    refine ⟨⟨fun same => absurd same differs, ?_⟩, ?_⟩ <;>
    · rintro rfl
      exact absurd isHome notHome

variable (accounts : p.Accounts loss boxes keys q s settled collected)

include accounts

theorem reads_current (called : adjoint.Calls callee)
    (other : pass.value.Calls callee → pass.caller.name ≠ (p.func callee).name) :
    settled callee ∧ q.exactReads callee = reads callee := by
  rcases derived.calls called with inValue | ⟨x, within, name, isCall⟩
  · have isHome := passes.place.home ((elementary.places _ _ _ passes.place).meets inValue)
    refine ⟨accounts.reached callee isHome, ?_⟩
    rw [accounts.exactReads_home isHome fun g isHome _ needed => elementary.needs isHome needed,
      seeds.home callee isHome]
    exact (p.readsAt_other (elementary.funcs callee isHome).grounded (other inValue)).symm
  · obtain ⟨inside, _, _, same⟩ := seeds.calls x callee name within isCall
    exact ⟨inside, same⟩

theorem Current.of_foreign (foreign : ∀ f, pass.value.Calls f → pass.caller.name ≠ (p.func f).name) :
    Current later q settled reads adjoint adjoint where
  held := derived.held
  plain := derived.plain
  placed y _ within named := ⟨y, within, named, .inl rfl⟩
  uses _ := id
  calls callee called :=
    (reads_current elementary passes seeds derived accounts called (foreign callee)).1
  value _ := exact_congr_reads adjoint (fun _ _ => rfl) fun callee called =>
    (reads_current elementary passes seeds derived accounts called (foreign callee)).2

theorem Current.of_redirected {stage : Int} {copy : FuncId} {e : Expr}
    (isHome : p.Home loss (some f)) (caller : pass.caller = ⟨(p.func f).name, stage⟩)
    (recalls : p.Recalls q settled f (stage - 1) copy) (held : later.Holds e)
    (redirected : Redirected f copy adjoint e) : Current later q settled reads adjoint e := by
  have others {callee : FuncId} (called : adjoint.Calls callee) (other : callee ≠ f) :
      settled callee ∧ q.exactReads callee = reads callee := by
    refine reads_current elementary passes seeds derived accounts called fun inValue same => other ?_
    have isHome' := passes.place.home ((elementary.places _ _ _ passes.place).meets inValue)
    exact elementary.distinct callee f isHome' isHome (same.symm.trans (congrArg StageKey.name caller))
  refine ⟨held, redirected.plain derived.plain, fun y name within named => ?_,
    fun _ => redirected.mentions, fun callee called => ?_, fun env => ?_⟩
  · obtain ⟨x, inside, same⟩ := redirected.subnode within
    exact ⟨x, inside, same.variableName?_eq.symm.trans named, same.variable_cases named⟩
  · rcases redirected.calls called with ⟨inside, other⟩ | ⟨rfl, _⟩
    · exact (others inside other).1
    · exact recalls.stays
  · rw [redirected.exact]
    refine exact_congr_reads adjoint (fun _ _ => rfl) fun callee called => ?_
    by_cases own : callee = f
    · subst own
      rw [Function.update_self, recalls.holds, seeds.home callee isHome, caller]
      exact Program.readsAt_self.symm
    · rw [Function.update_of_ne own]
      exact (others called own).2

theorem redirect_current (extended : r.Extends later) (runs : pass.Runs p loss r ctx)
    (isUpdate : 0 ≤ ctx.key.stage) :
    Accomplishes settings (do
      let snapshot ← stageSnapshot ctx.args ctx.key.name (ctx.key.stage - 1)
      (replaceCalls adjoint ctx.key.name snapshot : ProgramM Expr)) later q s
      fun last left s' e => ∃ settled', q.Retains left settled settled' ∧
        p.Accounts loss boxes keys left s' settled' collected ∧
        Current last left settled' reads adjoint e ∧ s' = { s with snapshots := s'.snapshots } := by
  rw [runs.key] at isUpdate ⊢
  rcases passes.update_cases elementary with ⟨below, _⟩ | ⟨f, n, isHome, caller, within⟩
  · exact absurd isUpdate (not_le.2 below)
  have named : pass.caller.name = (p.func f).name := congrArg StageKey.name caller
  have isStage : pass.caller.stage = n := congrArg StageKey.stage caller
  obtain ⟨initial, isInitial, declares⟩ := elementary.declares isHome
  rw [runs.args f initial isHome named.symm isInitial, named, isStage]
  refine (Program.stageSnapshot_recalls elementary extended accounts isHome isInitial (by omega)).bind
    fun r1 q1 s1 copy ext1 made => ?_
  obtain ⟨settled1, retains1, recalls, accounts1, same1⟩ := made
  have typed (d : Definition) (isInit : (q1.func copy).init = some d) :
      d.value.dtype = initial.value.dtype := by
    rw [recalls.initial, isInitial] at isInit
    rw [Option.some.inj isInit]
  have derived1 := derived.extend ext1
  have callsAs : CallsAs (p.func f).name f initial.value.dtype adjoint :=
    named ▸ derived.callsAs elementary passes seeds isHome named isInitial
  refine (Accomplishes.lift (replaceCalls_sound derived.plain callsAs derived1.held typed)).mono
    fun r2 q2 s2 e ext2 made2 => ?_
  obtain ⟨rfl, same2, held, redirected⟩ := made2
  have grows : q1.Grows q2 fun _ => False := .of_funcs same2
  have retains := retains1.trans
    (accounts1.isSettled.retains grows (fun _ _ => id) fun _ => id)
  have recalls2 := recalls.grow accounts1.isSettled grows (fun _ _ => id) fun _ => id
  exact ⟨settled1, retains, accounts1.build same2, .of_redirected elementary passes
    (seeds.retain (ext1.trans ext2) retains) (derived1.extend ext2) (accounts1.build same2) isHome
    (by rw [caller]) recalls2 held redirected, same1⟩

end

section

variable {p q : Program} {r later : Registry} {loss : Expr} {boxes : Boxes} {settled : FuncId → Prop}
  {pass : Pass} {ctx : CallContext} {reads : Reads ℚ} {seed adjoint e : Expr}
  {call : Expr × StageKey}

theorem within_zip {names : List String} {box : List (Int × Int)} {env : Env}
    {entry : String × Int × Int} (member : entry ∈ names.zip box)
    (within : Within box (names.map env)) : Between entry.2 (env entry.1) := by
  unfold Within at within
  rw [List.forall₂_map_right_iff] at within
  induction within with
  | nil => cases member
  | cons first _ ih =>
      rcases List.mem_cons.1 member with rfl | member
      · exact first
      · exact ih member

def Pass.Sole (pass : Pass) (call : Expr × StageKey) (adjoint : Expr) : Prop :=
  pass.caller.name = call.2.name → ∀ x ∈ adjoint :: call.1.operands, ∀ y name, Subnode y x →
    y.variableName? = some name → name ∈ pass.declared ∧ y.isPureVariable = true

variable (elementary : p.Elementary r loss) (passes : p.Passes loss boxes pass)
  (runs : pass.Runs p loss r ctx) (extended : r.Extends later)

include elementary passes in
theorem Program.Passes.placed {y : Expr} {name : String} (within : Subnode y pass.value)
    (named : y.variableName? = some name) : name ∈ pass.declared ∧ y.isPureVariable = true ∨
      name ∉ pass.declared ∧ ∃ ends, (name, ends) ∈ pass.value.axes ∧ r.IsAxis ends y := by
  refine ((elementary.places _ _ _ passes.place).placed y name within named).imp_right fun isAxis => ?_
  obtain ⟨_, _, ends, member, isAxis⟩ := isAxis
  refine ⟨fun isDeclared => ?_, ends, member, isAxis⟩
  exact (passes.declared_distinct elementary).2 name isDeclared (List.mem_map.2 ⟨_, member, rfl⟩)

theorem Program.Passes.mem_stage (passes : p.Passes loss boxes pass) {name : String}
    (isDeclared : name ∈ pass.declared) : ∃ ends, (name, ends) ∈ pass.stage := by
  rw [← passes.names_stage] at isDeclared
  obtain ⟨entry, member, rfl⟩ := List.mem_map.1 isDeclared
  exact ⟨entry.2, member⟩

theorem Program.Passes.declared_of_stage (passes : p.Passes loss boxes pass)
    {entry : String × Int × Int} (member : entry ∈ pass.stage) : entry.1 ∈ pass.declared := by
  rw [← passes.names_stage]
  exact List.mem_map.2 ⟨entry, member, rfl⟩

theorem Pass.mem_axes {key : StageKey} {entry : String × Int × Int} (member : entry ∈ pass.axes key) :
    pass.caller.name ≠ key.name ∧ entry ∈ pass.value.axes := by
  unfold Pass.axes at member
  split at member
  next => cases member
  next other => exact ⟨other, member⟩

include elementary passes in
theorem Program.Passes.declared_unissued : ∀ name ∈ pass.declared, Unissued r.names name := by
  obtain ⟨caller, declared, box, value⟩ := pass
  cases passes.place with
  | root => exact fun _ member => absurd member List.not_mem_nil
  | @stage f entry isHome isStage =>
      obtain ⟨initial, _, declares⟩ := elementary.declares isHome
      have declared : (p.func f).declared = initial.args.map Expr.name := declares.declared
      intro name (member : name ∈ (p.func f).declared)
      rw [declared] at member
      exact declares.unissued name member

include elementary passes runs extended in
theorem calling_scope (key : StageKey) : Calling later ctx (fun _ => False) (pass.scope key) := by
  have isPlace := elementary.places _ _ _ passes.place
  obtain ⟨distinct, apart⟩ := passes.declared_distinct elementary
  have declared : ∀ name ∈ pass.declared, Unissued later.names name := fun name member =>
    (passes.declared_unissued elementary name member).mono extended.names_le
  have isStage : pass.stage = ctx.stageScope := by
    rw [Pass.stage, ← runs.declared, ← runs.box]
    rfl
  refine ⟨runs.held.extend extended, fun entry member i found => ?_, fun name member => ?_,
    runs.declared ▸ declared, fun _ => False.elim⟩
  · rw [runs.declared] at found
    have isDeclared := List.mem_of_getElem? found
    have inStage : entry ∈ ctx.stageScope := by
      rcases List.mem_append.1 member with inStage | inAxes
      · exact isStage ▸ inStage
      · exact absurd (List.mem_map.2 ⟨entry, (Pass.mem_axes inAxes).2, rfl⟩) (apart entry.1 isDeclared)
    obtain ⟨j, range, named, inDomain, same⟩ := CallContext.mem_stageScope inStage
    rw [CallContext.declared, runs.declared] at named
    have below := (List.getElem?_eq_some_iff.1 found).1
    obtain rfl := (List.getElem?_inj below distinct).1 (found.trans named.symm)
    exact ⟨range, inDomain, same⟩
  · obtain ⟨entry, inScope, rfl⟩ := List.mem_map.1 member
    rcases List.mem_append.1 inScope with inStage | inAxes
    · exact declared entry.1 (passes.declared_of_stage inStage)
    · exact (isPlace.mem_axes (Pass.mem_axes inAxes).2).2.1.mono extended.names_le

include elementary passes extended in
theorem Current.matching (seeds : pass.Seeds p loss later q settled reads seed)
    (derived : Derived later pass.value seed adjoint)
    (current : Current later q settled reads adjoint e) (member : call ∈ pass.calls p)
    (sole : pass.Sole call adjoint)
    (vanishes : ∀ env, exact reads.answers env seed = 0 → exact reads.answers env adjoint = 0) :
    Matching q.exactReads.answers pass.declared (fun _ => False) later (pass.scope call.2)
      (fun _ => False) call.1.operands e := by
  have isPlace := elementary.places _ _ _ passes.place
  obtain ⟨id, name, outer, isCall, -⟩ := passes.reads elementary member
  obtain ⟨_, _, elementaryCall⟩ := elementary.call passes.place outer.subnode isCall
  obtain ⟨distinct, apart⟩ := passes.declared_distinct elementary
  have uses {name : String} (isDeclared : name ∈ pass.declared) : Free name e := by
    obtain ⟨y, within, named⟩ := seeds.uses name isDeclared
    exact current.plain.free_iff.2
      (current.uses name ⟨y, within.trans derived.seeded, named⟩)
  have placed {x y : Expr} {name : String} (among : x ∈ adjoint :: call.1.operands)
      (within : Subnode y x) (named : y.variableName? = some name) :
      name ∈ pass.declared ∧ y.isPureVariable = true ∨
        name ∉ pass.declared ∧ ∃ ends, (name, ends) ∈ pass.scope call.2 ∧ later.IsAxis ends y := by
    by_cases own : pass.caller.name = call.2.name
    · exact .inl (sole own x among y name within named)
    rcases derived.around outer among within named with inValue | inSeed
    · refine (passes.placed elementary inValue named).imp_right fun ⟨other, ends, member, isAxis⟩ => ?_
      refine ⟨other, ends, List.mem_append_right _ ?_, isAxis.extend extended⟩
      rwa [Pass.axes, if_neg own]
    · exact .inl (seeds.placed y name inSeed named)
  have inScope {x y : Expr} {name : String} (among : x ∈ adjoint :: call.1.operands)
      (within : Subnode y x) (named : y.variableName? = some name) :
      later.Scoped pass.declared (pass.scope call.2) (fun _ => False) y name := by
    rcases placed among within named with ⟨isDeclared, isPure⟩ | ⟨other, ends, member, isAxis⟩
    · obtain ⟨ends, member⟩ := passes.mem_stage isDeclared
      exact .inr ⟨ends, List.mem_append_left _ member, .inl ⟨isDeclared, isPure⟩⟩
    · exact .inr ⟨ends, member, .inr ⟨other, isAxis⟩⟩
  refine ⟨fun a isArg => ?_, elementaryCall.isIndex, current.held, current.plain.shaped,
    fun name isBound => absurd isBound (current.plain.not_binds name), ?_,
    passes.distinct_scope elementary call.2, fun _ => False.elim, fun _ => False.elim,
    fun name _ isDeclared => uses isDeclared, fun entry member isDeclared env _ outside => ?_⟩
  · exact (isPlace.held.sub ((subnode_operand isArg).trans outer.subnode)).extend extended
  · refine List.forall_mem_cons.2 ⟨fun y name within named _ => ?_, fun a isArg y name within named _ =>
      inScope (.tail _ isArg) within named⟩
    obtain ⟨x, inside, sameName, rfl | ⟨isPure, isPure'⟩⟩ := current.placed y name within named
    · exact inScope (.head _) inside named
    · rcases inScope (.head _) inside sameName with
        ⟨absurd, _⟩ | ⟨ends, member, ⟨isDeclared, _⟩ | ⟨_, node, domain, axis, least, extent, same, _⟩⟩
      · exact absurd.elim
      · exact .inr ⟨ends, member, .inl ⟨isDeclared, isPure⟩⟩
      · rw [same] at isPure'
        cases isPure'
  · rw [current.value]
    refine vanishes env (seeds.vanishes env fun within => outside ?_)
    rcases List.mem_append.1 member with inStage | inAxes
    · exact within_zip inStage within
    · exact absurd (List.mem_map.2 ⟨entry, (Pass.mem_axes inAxes).2, rfl⟩) (apart entry.1 isDeclared)

include elementary passes runs extended in
theorem canonicalize_share {id : FuncId} {name : String} {initial : Definition}
    (seeds : pass.Seeds p loss later q settled reads seed)
    (derived : Derived later pass.value seed adjoint)
    (current : Current later q settled reads adjoint e) (member : call ∈ pass.calls p)
    (isCall : call.1.callee? = some (.func id name)) (isInitial : (p.func id).init = some initial)
    (sole : pass.Sole call adjoint)
    (weighed : ∀ axis, pass.value.Weighs axis call.1 → Mentions adjoint axis)
    (vanishes : ∀ env, exact reads.answers env seed = 0 → exact reads.answers env adjoint = 0) :
    Achieves (canonicalize ctx call.1 (p.func id) e) later q fun last left contribution =>
      left.funcs = q.funcs ∧ ∃ axes,
        Contributes q.exactReads.answers (initial.args.map Expr.name) last (pass.scope call.2)
          call.1.operands e contribution axes [] ∧
        ∀ index, index.length = initial.args.length →
          sumOver (fun env => exact q.exactReads.answers env contribution) axes
            (assign (initial.args.map Expr.name) index zeroEnv) =
          pass.share (fun _ env => exact reads.answers env adjoint) call call.2 index := by
  have isPlace := elementary.places _ _ _ passes.place
  obtain ⟨id', _, outer, isCall', _, isKey, _⟩ := passes.reads elementary member
  obtain rfl : id = id' := by
    rw [isCall] at isCall'
    cases isCall'
    rfl
  obtain ⟨isHome, _, elementaryCall⟩ := elementary.call passes.place outer.subnode isCall
  obtain ⟨initial', isInitial', declares⟩ := elementary.declares isHome
  obtain rfl := Option.some.inj (isInitial'.symm.trans isInitial)
  have isDeclared : (p.func id).declared = initial'.args.map Expr.name := declares.declared
  have sameLength : call.1.operands.length = initial'.args.length := by
    rw [elementaryCall.fitting, isDeclared, List.length_map]
  have matching := current.matching elementary passes extended seeds derived member sole vanishes
  refine (canonicalize_sound (declares.extend extended)
    (calling_scope elementary passes runs extended call.2) sameLength (fun name isName other => ?_)
    (fun _ => False.elim) (by rw [runs.declared]; exact matching)).mono
    fun last left contribution _ made => ?_
  · rw [runs.declared] at other
    obtain ⟨entry, inScope, rfl⟩ := List.mem_map.1 isName
    rcases List.mem_append.1 inScope with inStage | inAxes
    · exact absurd (passes.declared_of_stage inStage) other
    · rw [← isDeclared]
      exact (isPlace.mem_axes (Pass.mem_axes inAxes).2).1 id isHome
  · obtain ⟨same, axes, dropped, contributes⟩ := made
    -- the seed mentions the stage, and an axis moves the call or stands in its adjoint
    have keepsAll : dropped = [] := by
      refine List.eq_nil_iff_forall_not_mem.2 fun entry isDropped => ?_
      obtain ⟨inScope, notFree, ignores⟩ := contributes.ignores entry isDropped
      have inNames : entry.1 ∈ (pass.scope call.2).names := List.mem_map.2 ⟨entry, inScope, rfl⟩
      rcases List.mem_append.1 inScope with inStage | inAxes
      · exact notFree (matching.seeded entry.1 inNames (passes.declared_of_stage inStage))
      · obtain ⟨other, isAxis⟩ := Pass.mem_axes inAxes
        rw [isKey, calledStage_name] at other
        rcases elementaryCall.moves other entry.1 (List.mem_map.2 ⟨entry, isAxis, rfl⟩) with
          ⟨env, i, moves⟩ | weighs
        · exact moves (ignores env i)
        · exact notFree (current.plain.free_iff.2 (current.uses _ (weighed _ weighs)))
    subst keepsAll
    refine ⟨same, axes, contributes, fun index isIndex => ?_⟩
    have total := contributes.total index zeroEnv (by rw [isIndex, List.length_map])
    rw [Scope.count, List.map_nil, List.prod_nil, Nat.cast_one, one_mul] at total
    rw [total, Pass.share, if_pos rfl]
    simp only [current.value]

end

section

variable {p q : Program} {r later : Registry} {loss : Expr} {boxes : Boxes} {keys : List StageKey}
  {s : Accumulation} {settled : FuncId → Prop} {collected given : StageKey → Grid ℚ} {id target : FuncId}
  {initial : Definition} {key : StageKey} {answers : CallValues ℚ} {scope axes : Scope}
  {args vars : List Expr} {e contribution sum call : Expr}

theorem Contributes.scope_sum {node node' : NodeId} {dtype dtype' : DType} {called : Callee}
    (areVars : ∀ v ∈ vars, IsIndexVariable v v.name)
    (contributes : Contributes answers (vars.map Expr.name) r scope args e contribution axes []) :
    (Definition.scope ⟨vars, .node node (.binary .add) dtype
      [.node node' (.call called) dtype' vars, contribution]⟩).Perm axes := by
  have shaped : Shaped (.node node (.binary .add) dtype
      [.node node' (.call called) dtype' vars, contribution]) := by
    refine shaped_node.2 ⟨fun n arity => (Option.some.inj arity), fun y member => ?_⟩
    rcases List.mem_pair.1 member with rfl | rfl
    · exact shaped_node.2 ⟨nofun, fun v isVar => (areVars v isVar).index.plain.shaped⟩
    · exact contributes.shaped
  refine contributes.scope_perm_around areVars shaped (fun y isFree => ?_) fun name free =>
    .operand (by simp) (by simp) (.tail _ (.head _)) free
  obtain ⟨within, named, free⟩ := isFree
  have declared {v : Expr} (isVar : v ∈ vars) (inside : Subnode y v) :
      y.isPureVariable = true ∧ y.name ∈ vars.map Expr.name := by
    obtain ⟨same, isPure⟩ := (areVars v isVar).subnode inside named
    exact ⟨isPure, List.mem_map.2 ⟨v, isVar, same.symm⟩⟩
  rcases subnode_node.1 within with rfl | ⟨x, member, deeper⟩
  · cases named
  rcases List.mem_pair.1 member with rfl | rfl
  · rcases subnode_node.1 deeper with rfl | ⟨v, isVar, inside⟩
    · cases named
    · exact .inr (declared isVar inside)
  · by_cases isFree : Free y.name x
    · exact .inl ⟨deeper, named, isFree⟩
    -- a name that only the call uses freely is declared, and is not bound in the contribution
    obtain ⟨other, isOther, freeThere⟩ := (free_operands (by simp) (by simp)).1 free
    rcases List.mem_pair.1 isOther with rfl | rfl
    · obtain ⟨v, isVar, freeInVar⟩ := (free_operands (by simp) (by simp)).1 freeThere
      obtain ⟨z, inside, sameName⟩ := freeInVar.mentions
      obtain ⟨same, _⟩ := (areVars v isVar).subnode inside sameName
      have isDeclared : y.name ∈ vars.map Expr.name := List.mem_map.2 ⟨v, isVar, same.symm⟩
      exact absurd (Mentions.free ⟨y, deeper, named⟩ contributes.shaped fun bound =>
        contributes.binds y.name bound isDeclared) isFree
    · exact absurd freeThere isFree

theorem addUpdate_accounts (elementary : p.Elementary r loss) (extended : r.Extends later)
    (accounts : p.Accounts loss boxes keys q s settled collected)
    (isHome : p.Home loss (some id)) (isInitial : (p.func id).init = some initial) (isKey : key ∈ keys)
    (named : key.name = (p.func id).name) (notFinal : key ∉ s.finalized)
    (found : s.targets.find? key = some target)
    (contributes : Contributes q.exactReads.answers (initial.args.map Expr.name) later scope args e
      contribution axes []) (calls : ∀ callee, e.Calls callee → settled callee)
    (sum : ∀ index, index.length = initial.args.length →
      sumOver (fun env => exact q.exactReads.answers env contribution) axes
        (assign (initial.args.map Expr.name) index zeroEnv) = given key index)
    (elsewhere : ∀ other, other ≠ key → given other = 0) :
    Achieves (scatter.addUpdate (p.func id) target contribution) later q fun _ left _ =>
      q.Retains left settled settled ∧
        p.Accounts loss boxes keys left s settled (collected + given) := by
  obtain ⟨initial', isInitial', declares⟩ := elementary.declares isHome
  obtain rfl := Option.some.inj (isInitial'.symm.trans isInitial)
  obtain ⟨known, isKnown, isTarget⟩ :=
    accounts.collecting id initial' isHome isInitial key isKey named notFinal
  obtain rfl := Option.some.inj (isKnown.symm.trans found)
  obtain ⟨zero, isZero, node0, rfl⟩ := isTarget.initial
  have other (callee : FuncId) (called : e.Calls callee) : callee ≠ known :=
    fun same => isTarget.unsettled (same ▸ calls callee called)
  unfold scatter.addUpdate
  rw [declares.args_eq]
  refine Achieves.bind (Achieves.ofExcept (Q := fun last left vars => later = last ∧ q = left ∧
    initial'.args = vars) fun vars same => ⟨rfl, rfl, Except.ok.inj same⟩)
    fun r0 q0 vars _ made0 => ?_
  obtain ⟨rfl, rfl, rfl⟩ := made0
  refine Achieves.bind (callFunc_sound (declares.held.extend extended))
    fun r1 q1 current ext1 made1 => ?_
  obtain ⟨same1, zero', isZero', _, heldCurrent, node1, rfl⟩ := made1
  obtain rfl := Option.some.inj (isZero.symm.trans isZero')
  refine Achieves.bind (Achieves.builds (Builds.binary .add heldCurrent (contributes.held.extend ext1)))
    fun r2 q2 sum ext2 made2 => ?_
  obtain ⟨same2, _, node2, rfl⟩ := made2
  have same : q2.funcs = q.funcs := same2.trans same1
  have isZero2 : (q2.func known).init =
      some ⟨initial'.args, .node node0 (.const (.float 0.0)) .float32 []⟩ := by
    rw [func_eq_of_funcs same, isZero]
  have isFloat : DType.promote .float32 contribution.dtype = .float32 := if_pos (.inl rfl)
  refine Achieves.mono (define_update_sound isZero2 ?_) fun r3 left _ _ updated => ?_
  · exact isFloat
  replace updated := updated.2
  rw [func_eq_of_funcs same, same] at updated
  have grows : q.Grows left (· = known) := ⟨(size_set updated).ge, fun id _ differs =>
    (func_set isTarget.below updated).2 id differs⟩
  refine ⟨accounts.isSettled.retains grows (fun id inside same => isTarget.unsettled (same ▸ inside))
    fun _ inside => inside, accounts.update elementary isHome isInitial isKey named notFinal found
      declares updated ⟨⟨node2, _, _, rfl, node1, _, _, rfl⟩, ?_, fun called => ?_⟩
      (fun callee called differs => ?_) (fun name isDeclared inScope => ?_) (fun index isIndex => ?_)
      elsewhere⟩
  · exact List.forall₂_map_right_iff.2 (List.forall₂_same.2 fun v isVar => (declares.areVars v isVar).named)
  · exact other known ((contributes.calls known).1 called) rfl
  -- Besides its target the update calls only what the contribution calls.
  · rcases calls_node.1 called with ⟨_, here⟩ | ⟨x, member, within⟩
    · cases here
    rcases List.mem_pair.1 member with rfl | rfl
    · rcases calls_node.1 within with ⟨_, here⟩ | ⟨v, isVar, inVar⟩
      · cases here
        exact absurd rfl differs
      · exact absurd inVar ((declares.areVars v isVar).index.not_calls callee)
    · exact calls callee ((contributes.calls callee).1 within)
  · exact contributes.apart name
      (((contributes.scope_sum declares.areVars).map Prod.fst).mem_iff.1 inScope) isDeclared
  · exact (sumOver_perm (contributes.scope_sum declares.areVars) (Definition.nodup_scope _) _).trans
      (sum index isIndex)

theorem closeAdjoint_closed {settings : Differentiation} {adjoint : Expr} (bindings : s.bindings = []) :
    Accomplishes settings (closeAdjoint adjoint) later q s fun last left s' closed =>
      last = later ∧ left = q ∧ s' = s ∧ closed = adjoint := by
  unfold closeAdjoint
  refine .bind_get ?_
  have isClosed : bindNames s.bindings (s.bindings.length + 1) [] adjoint = pure adjoint := by
    simp [bindNames, bindings]
  dsimp only
  rw [isClosed]
  exact .pure ⟨rfl, rfl, rfl, rfl⟩

end

section

variable {p q : Program} {r later : Registry} {loss : Expr} {boxes : Boxes} {keys : List StageKey}
  {s : Accumulation} {settled : FuncId → Prop} {collected : StageKey → Grid ℚ}
  {settings : Differentiation} {pass : Pass} {ctx : CallContext} {reads : Reads ℚ}
  {seed adjoint : Expr} {call : Expr × StageKey} {id : FuncId} {name : String}

variable (elementary : p.Elementary r loss) (passes : p.Passes loss boxes pass)
  (runs : pass.Runs p loss r ctx) (extended : r.Extends later)
  (seeds : pass.Seeds p loss later q settled reads seed)
  (derived : Derived later pass.value seed adjoint)
  (accounts : p.Accounts loss boxes keys q s settled collected) (member : call ∈ pass.calls p)
  (isCall : call.1.callee? = some (.func id name)) (isKey : call.2 ∈ keys)
  (sole : pass.Sole call adjoint)
  (weighed : ∀ axis, pass.value.Weighs axis call.1 → Mentions adjoint axis)
  (vanishes : ∀ env, exact reads.answers env seed = 0 → exact reads.answers env adjoint = 0)

include elementary passes runs extended seeds derived accounts member isCall isKey sole weighed vanishes

theorem Current.adds {e : Expr} (current : Current later q settled reads adjoint e)
    (notFinal : call.2 ∉ s.finalized) (line : Expr → String) :
    Accomplishes settings (do
      let contribution ← (canonicalize ctx call.1 (p.func id) e : ProgramM Expr)
      (report Tracing.details (line contribution) : ProgramM Unit)
      match (← Accumulation.get).targets.find? call.2 with
      | none => (throw .missingStageEntry : ProgramM Unit)
      | some target => (scatter.addUpdate (p.func id) target contribution : ProgramM Unit)) later q s
      fun _ left s' _ => s' = s ∧ q.Retains left settled settled ∧ p.Accounts loss boxes keys left s
        settled (collected + pass.share (fun _ env => exact reads.answers env adjoint) call) := by
  obtain ⟨id', _, _, isCall', isHome, isStage, _⟩ := passes.reads elementary member
  obtain rfl : id = id' := by
    rw [isCall] at isCall'
    cases isCall'
    rfl
  obtain ⟨initial, isInitial, _⟩ := elementary.declares isHome
  have named : call.2.name = (p.func id).name := by rw [isStage, calledStage_name]
  refine .bind_lift (canonicalize_share elementary passes runs extended seeds derived current member
    isCall isInitial sole weighed vanishes) fun r1 q1 contribution ext1 made1 => ?_
  obtain ⟨same1, axes, contributes, sums⟩ := made1
  refine .bind_lift Achieves.report fun r2 q2 _ ext2 same2 => ?_
  have same : q2.funcs = q.funcs := same2.trans same1
  rw [← Program.exactReads_of_funcs same] at contributes sums
  refine .bind_get ?_
  split
  next => exact .throw
  next target found =>
    have grows : q.Grows q2 fun _ => False := .of_funcs same
    refine (Accomplishes.lift (addUpdate_accounts elementary (extended.trans (ext1.trans ext2))
      (accounts.build same) isHome isInitial isKey named notFinal found (contributes.extend ext2)
      current.calls sums fun other differs => Pass.share_other differs)).mono
      fun r3 left s' _ _ done => ?_
    exact ⟨done.1, (accounts.isSettled.retains grows (fun _ _ => nofun) fun _ inside => inside).trans
      done.2.1, done.2.2⟩

theorem scatter_accounts (bindings : s.bindings = []) :
    Accomplishes settings (scatter ctx call.1 id adjoint) later q s fun _ left s' _ =>
      call.2 ∉ s.finalized ∧ s' = { s with snapshots := s'.snapshots } ∧
        ∃ settled', q.Retains left settled settled' ∧ p.Accounts loss boxes keys left s' settled'
          (collected + pass.share (fun _ env => exact reads.answers env adjoint) call) := by
  obtain ⟨id', _, _, isCall', isHome, isStage, _⟩ := passes.reads elementary member
  obtain rfl : id = id' := by
    rw [isCall] at isCall'
    cases isCall'
    rfl
  unfold scatter
  refine .bind_lift (Achieves.getFunc (Q := fun last left f => last = later ∧ left = q ∧ f = q.func id)
    ⟨rfl, rfl, rfl⟩) fun r0 q0 callee _ made0 => ?_
  obtain ⟨rfl, rfl, rfl⟩ := made0
  rw [accounts.kept id isHome]
  dsimp only
  rw [show calledStage ctx.key (p.func id) = call.2 by rw [runs.key, isStage]]
  refine .bind_get ?_
  split
  next => exact .throw_bind
  next unfinished =>
    have notFinal : call.2 ∉ s.finalized := fun isFinal => unfinished (List.contains_iff_mem.2 isFinal)
    split
    next isZero =>
      refine .pure ⟨notFinal, rfl, settled, .refl q0 settled, ?_⟩
      rw [Pass.share_zero fun env => Expr.exactIn_of_isZero isZero, add_zero]
      exact accounts
    next =>
      refine (closeAdjoint_closed bindings).bind fun r1 q1 s1 closed _ made1 => ?_
      obtain ⟨rfl, rfl, rfl, rfl⟩ := made1
      split
      -- An update reads what the function was before it: the adjoint has to read a snapshot of that.
      next isUpdate =>
        rw [← bind_assoc]
        refine (redirect_current elementary passes seeds derived accounts extended runs isUpdate).bind
          fun r2 q2 s2 e ext2 made2 => ?_
        obtain ⟨settled2, retains2, accounts2, current, same2⟩ := made2
        refine (current.adds elementary passes runs (extended.trans ext2)
          (seeds.retain ext2 retains2) (derived.extend ext2) accounts2 member isCall isKey sole weighed
          vanishes (by rw [same2]; exact notFinal) _).mono fun r3 left s' _ _ done => ?_
        obtain ⟨rfl, retains, accounts'⟩ := done
        exact ⟨notFinal, same2, settled2, retains2.trans retains, accounts'⟩
      next notUpdate =>
        have current : Current r1 q1 settled reads closed closed := by
          refine .of_foreign elementary passes seeds derived accounts ?_
          rcases passes.update_cases elementary with ⟨_, foreign⟩ | ⟨f, n, _, caller, _⟩
          · exact foreign
          · rw [runs.key, caller] at notUpdate
            exact absurd (Int.natCast_nonneg n) notUpdate
        rw [pure_bind]
        refine (current.adds elementary passes runs extended seeds derived accounts member isCall
          isKey sole weighed vanishes notFinal _).mono fun r3 left s' _ _ done => ?_
        obtain ⟨rfl, retains, accounts'⟩ := done
        exact ⟨notFinal, rfl, settled, retains, accounts'⟩

end

end ReverseMode
