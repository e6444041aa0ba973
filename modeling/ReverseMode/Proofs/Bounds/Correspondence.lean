import ReverseMode.Proofs.Bounds.BoxWalk
import ReverseMode.Proofs.Bounds.Texts
import ReverseMode.Proofs.Program.Changes

namespace ReverseMode

open Expr

def Registry.HoldsTable (r : Registry) (table : StageTable (List Interval)) : Prop :=
  ∀ entry ∈ table, ∀ i ∈ entry.2, i.HeldBy r

theorem Registry.HoldsTable.extend {r later : Registry} {table : StageTable (List Interval)}
    (held : r.HoldsTable table) (extended : r.Extends later) : later.HoldsTable table :=
  fun entry member i inside => (held entry member i inside).extend extended

theorem Registry.HoldsTable.insert {r : Registry} {table : StageTable (List Interval)}
    (held : r.HoldsTable table) (key : StageKey) {intervals : List Interval}
    (heldNew : ∀ i ∈ intervals, i.HeldBy r) : r.HoldsTable (table.insert key intervals) := by
  intro entry member
  rcases StageTable.mem_insert member with rfl | old
  · exact heldNew
  · exact held entry old

def Infers (total : Prop) {α β : Type} (action : InferenceM α) (r : Registry) (program : Program)
    (state : Inference) (expected : Option β) (Q : Registry → Inference → α → β → Prop) : Prop :=
  Follows total (action.run state) r program expected fun later result b =>
    later.HoldsTable result.2.intervals ∧ Q later result.2 result.1 b

namespace Infers

variable {total : Prop} {α β γ δ : Type} {r : Registry} {program : Program} {state : Inference}
  {expected : Option β} {Q : Registry → Inference → α → β → Prop}
  {R : Registry → Inference → γ → δ → Prop}

theorem pure {a : α} {b : β} (held : r.HoldsTable state.intervals) (answer : Q r state a b) :
    Infers total (Pure.pure a) r program state (some b) Q := Follows.pure ⟨held, answer⟩

theorem bind {action : InferenceM α} {rest : α → InferenceM γ} {k : β → Option δ}
    (first : Infers total action r program state expected Q)
    (second : ∀ later left state' a b, r.Extends later → left.funcs = program.funcs →
      later.HoldsTable state'.intervals → expected = some b → Q later state' a b →
      Infers total (rest a) later left state' (k b) R) :
    Infers total (action >>= rest) r program state (expected.bind k) R := by
  unfold Infers
  rw [StateT.run_bind]
  exact Follows.bind first fun later left result b extended same isExpected answer =>
    second later left result.2 result.1 b extended same answer.1 isExpected answer.2

theorem bind_some {action : InferenceM α} {rest : α → InferenceM γ} {b : β} {expected : Option δ}
    (first : Infers total action r program state (some b) Q)
    (second : ∀ later left state' a, r.Extends later → left.funcs = program.funcs →
      later.HoldsTable state'.intervals → Q later state' a b →
      Infers total (rest a) later left state' expected R) :
    Infers total (action >>= rest) r program state expected R :=
  first.bind (k := fun _ => expected) fun later left state' a _ extended same held isExpected
    related => second later left state' a extended same held (Option.some.inj isExpected ▸ related)

theorem bind_last {action : InferenceM α} {rest : α → InferenceM γ}
    {R : Registry → Inference → γ → β → Prop}
    (first : Infers total action r program state expected Q)
    (second : ∀ later left state' a b, r.Extends later → left.funcs = program.funcs →
      later.HoldsTable state'.intervals → expected = some b → Q later state' a b →
      Infers total (rest a) later left state' (some b) R) :
    Infers total (action >>= rest) r program state expected R := by
  unfold Infers
  rw [StateT.run_bind]
  exact Follows.bind_last first fun later left result b extended same isExpected answer =>
    second later left result.2 result.1 b extended same answer.1 isExpected answer.2

theorem mono {action : InferenceM α} {Q' : Registry → Inference → α → β → Prop}
    (infers : Infers total action r program state expected Q)
    (implies : ∀ later state' a b, r.Extends later → Q later state' a b → Q' later state' a b) :
    Infers total action r program state expected Q' :=
  Follows.mono infers fun later result b extended answer =>
    ⟨answer.1, implies later result.2 result.1 b extended answer.2⟩

theorem known {action : InferenceM α} {b : β} {c : γ} {Q' : Registry → Inference → α → γ → Prop}
    (infers : Infers total action r program state (some b) Q)
    (implies : ∀ later state' a, r.Extends later → Q later state' a b → Q' later state' a c) :
    Infers total action r program state (some c) Q' :=
  Follows.known infers fun later result extended answer =>
    ⟨answer.1, implies later result.2 result.1 extended answer.2⟩

theorem lift {action : ProgramM α} {P : Registry → α → β → Prop}
    (held : r.HoldsTable state.intervals)
    (follows : Follows total action r program expected P) :
    Infers total (liftM action : InferenceM α) r program state expected fun later state' a b =>
      state' = state ∧ P later a b := by
  exact Follows.bind_last follows fun later left a b extended _ _ related =>
    Follows.pure ⟨held.extend extended, rfl, related⟩

theorem read (held : r.HoldsTable state.intervals) :
    Infers total (getThe Inference) r program state (some state) fun _ state' a b =>
      state' = state ∧ a = b :=
  Follows.pure ⟨held, rfl, rfl⟩

theorem throw {fault : Fault} :
    Infers total (liftM (throw fault : ProgramM α) : InferenceM α) r program state none Q :=
  ⟨Achieves.throw, fun _ _ _ _ _ => rfl⟩

theorem throw_bind {fault : Fault} {rest : α → InferenceM γ} :
    Infers total ((liftM (MonadExcept.throw fault : ProgramM α) : InferenceM α) >>= rest) r program
      state none R :=
  ⟨Achieves.throw, fun _ _ _ _ _ => rfl⟩

theorem throw_partial {fault : Fault} (isPartial : ¬ total) :
    Infers total (liftM (MonadExcept.throw fault : ProgramM α) : InferenceM α) r program state
      expected Q :=
  ⟨Achieves.throw, fun _ isTotal => absurd isTotal isPartial⟩

theorem setIntervals {key : StageKey} {intervals : List Interval}
    (held : r.HoldsTable state.intervals) (heldNew : ∀ i ∈ intervals, i.HeldBy r) :
    Infers total (Inference.setIntervals key intervals) r program state (some ())
      fun _ state' _ _ =>
      state'.intervals = state.intervals.insert key intervals :=
  Follows.pure (b := ()) ⟨held.insert key heldNew, rfl⟩

end Infers

structure Program.Indexed (program : Program) (r : Registry) (root : Expr) : Prop
    extends program.Stratified root where
  titled : ∀ id, program.Home root (some id) → (program.func id).name ≠ ""
  indices : ∀ home x id name, program.Home root home → program.StandsIn root home x →
    x.callee? = some (.func id name) → ∀ arg ∈ x.operands, r.HoldsIndex arg

namespace Skipping

def Answers (skips : Skipping) : Prop :=
  ∀ earlier merged, ∃ skipped, skips earlier merged = .ok skipped

structure Sound (skips : Skipping) : Prop where
  answers : skips.Answers
  same : ∀ r earlier merged, (∀ i ∈ earlier, i.HeldBy r) → (∀ i ∈ merged, i.HeldBy r ∧
      IsLiteral i.low i.ends.1 ∧ IsLiteral i.high i.ends.2) → earlier.length = merged.length →
    skips earlier merged = .ok true → merged.map Interval.ends = earlier.map Interval.ends

theorem never_sound : never.Sound where
  answers _ _ := ⟨false, rfl⟩
  same _ _ _ _ _ _ skipped := nomatch skipped

theorem map_eq_of_zip {α β γ : Type} {f : α → γ} {g : β → γ} {as : List α} {bs : List β}
    (sameLength : as.length = bs.length) (same : ∀ pair ∈ as.zip bs, f pair.1 = g pair.2) :
    as.map f = bs.map g := by
  induction as generalizing bs with
  | nil => rw [List.length_eq_zero_iff.1 sameLength.symm, List.map_nil, List.map_nil]
  | cons a rest ih =>
      cases bs with
      | nil => cases sameLength
      | cons b others =>
          rw [List.map_cons, List.map_cons, same (a, b) (.head _),
            ih (by simpa using sameLength) fun pair member => same pair (.tail _ member)]

theorem confirmed_sound (hash : String → String) : (confirmed hash).Sound where
  answers _ _ := ⟨_, rfl⟩
  same r earlier merged heldEarlier heldMerged sameLength skipped := by
    refine (map_eq_of_zip sameLength fun pair member => ?_).symm
    have members := List.of_mem_zip (a := pair.1) (b := pair.2) member
    obtain ⟨heldLow, heldHigh⟩ := heldEarlier _ members.1
    obtain ⟨_, literalLow, literalHigh⟩ := heldMerged _ members.2
    have both := Bool.and_eq_true_iff.1 (Except.ok.inj skipped)
    have sameTexts := List.all_eq_true.1 both.2 pair member
    obtain ⟨sameLow, sameHigh⟩ := Bool.and_eq_true_iff.1 sameTexts
    exact Prod.ext
      (integer_of_literalText heldLow.2 literalLow (beq_iff_eq.1 sameLow) _)
      (integer_of_literalText heldHigh.2 literalHigh (beq_iff_eq.1 sameHigh) _)

end Skipping

def CallContext.site (ctx : CallContext) : CallSite :=
  ⟨ctx.key, ctx.args.map Expr.name, ctx.domain.map rangeEnds⟩

theorem CallContext.site_key (ctx : CallContext) : ctx.site.key = ctx.key := rfl

section

variable {total : Prop} {program : Program} {root : Expr} {skips : Skipping} {base : Registry}

theorem argumentIntervals_follows {r : Registry} {p : Program} (ctx : CallContext)
    {args : List Expr}
    (held : ∀ a ∈ args, r.HoldsIndex a) (heldDomain : r.HoldsDomain ctx.domain) :
    Follows total (Inference.argumentIntervals ctx args) r p
      (args.mapM (Expr.span ctx.site.declared ctx.site.box)) fun later given box =>
        (∀ i ∈ given, i.HeldBy later) ∧ given.map Interval.ends = box := by
  have each := @Follows.mapM total _ _ _ r p
    (fun entry : Expr × Nat => (monadLift
      (entry.1.interval (ctx.args.map Expr.name) ctx.domain entry.2) : ProgramM Interval))
    (fun entry => entry.1.span ctx.site.declared ctx.site.box)
    (fun later i ends => i.HeldBy later ∧ i.ends = ends)
    (fun _ _ _ _ extended answer => ⟨answer.1.extend extended, answer.2⟩) args.zipIdx
    (fun entry member later left extended same => by
      have isArg := List.fst_mem_of_mem_zipIdx member
      exact Follows.buildsAs (interval_span _ ((held _ isArg).extend extended)
        (heldDomain.extend extended)))
  have onArgs : args.zipIdx.mapM (fun entry => entry.1.span ctx.site.declared ctx.site.box) =
      args.mapM (Expr.span ctx.site.declared ctx.site.box) := by
    conv_rhs => rw [← List.zipIdx_map_fst 0 args, List.mapM_map]
    rfl
  rw [onArgs] at each
  refine each.mono fun later given box _ related => ⟨fun i member => ?_, ?_⟩
  · obtain ⟨ends, _, answer⟩ := forall₂_mem_left related member
    exact answer.1
  · rw [← List.forall₂_eq_eq_eq, List.forall₂_map_left_iff]
    exact related.imp fun _ _ answer => answer.2

theorem mergeAll_follows {r : Registry} {p : Program} {earlier given : List Interval}
    (heldEarlier : ∀ i ∈ earlier, i.HeldBy r) (heldGiven : ∀ i ∈ given, i.HeldBy r) :
    Follows total (Inference.mergeAll earlier given) r p
      (some (List.zipWith hull (earlier.map Interval.ends) (given.map Interval.ends)))
      fun later merged box => (∀ i ∈ merged, i.HeldBy later ∧
        IsLiteral i.low i.ends.1 ∧ IsLiteral i.high i.ends.2) ∧ merged.map Interval.ends = box := by
  have each := @Follows.mapM total _ _ _ r p
    (fun pair : Interval × Interval => pair.1.merge pair.2)
    (fun pair => some (hull pair.1.ends pair.2.ends))
    (fun later i ends => i.HeldBy later ∧ i.ends = ends ∧
      IsLiteral i.low i.ends.1 ∧ IsLiteral i.high i.ends.2)
    (fun _ _ _ _ extended answer => ⟨answer.1.extend extended, answer.2⟩) (earlier.zip given)
    (fun pair member later left extended same => by
      have members := List.of_mem_zip (a := pair.1) (b := pair.2) member
      exact merge_follows ((heldEarlier _ members.1).extend extended)
        ((heldGiven _ members.2).extend extended))
  have hulls : (earlier.zip given).mapM (fun pair => some (hull pair.1.ends pair.2.ends)) =
      some (List.zipWith hull (earlier.map Interval.ends) (given.map Interval.ends)) := by
    rw [List.zipWith_map, ← List.map_uncurry_zip_eq_zipWith]
    exact List.mapM_pure
  rw [hulls] at each
  refine each.mono fun later merged box _ related => ⟨fun i member => ?_, ?_⟩
  · obtain ⟨ends, _, answer⟩ := forall₂_mem_left related member
    exact ⟨answer.1, answer.2.2⟩
  · rw [← List.forall₂_eq_eq_eq, List.forall₂_map_left_iff]
    exact related.imp fun _ _ answer => answer.2.1

/-- The intervals of a stage after a further call: those of the call if there were none, or literals
around the earlier ones. The function is entered unless the stage calls itself or the intervals, which
were there before, seem the same. -/
inductive Renewed (skips : Skipping) (isSelf : Bool) :
    Option (List Interval) → List Interval → Bool →
    Prop where
  | first {given : List Interval} : Renewed skips isSelf none given (!isSelf)
  | merged {earlier merged : List Interval} {skipped : Bool} : earlier.length = merged.length →
      (∀ i ∈ merged, IsLiteral i.low i.ends.1 ∧ IsLiteral i.high i.ends.2) →
      (isSelf = false → skips earlier merged = .ok skipped) →
      Renewed skips isSelf (some earlier) merged (!isSelf && !skipped)

theorem recordCall_renews (answers : skips.Answers) {r : Registry} {p : Program} {state : Inference} {callee : FuncId}
    {ctx : CallContext} {args : List Expr} (sameFunc : p.func callee = program.func callee)
    (held : ∀ a ∈ args, r.HoldsIndex a) (heldDomain : r.HoldsDomain ctx.domain)
    (heldTable : r.HoldsTable state.intervals) :
    Infers total (Inference.recordCallBy skips ctx callee args) r p state
      (program.record ctx.site (boxesOf state.intervals) (callee, args))
      fun later state' entered boxes => boxesOf state'.intervals = boxes ∧
        ∃ intervals, (∀ i ∈ intervals, i.HeldBy later) ∧ state'.intervals =
            state.intervals.insert (calledStage ctx.key (program.func callee)) intervals ∧
          Renewed skips (ctx.key.name = (program.func callee).name)
            (state.intervals.find? (calledStage ctx.key (program.func callee))) intervals
              entered := by
  unfold Inference.recordCallBy
  refine Infers.bind_some (Infers.lift heldTable Follows.getFunc)
    fun r1 p1 s1 f ext1 _ held1 answer => ?_
  obtain ⟨isState1, isFunc⟩ := answer
  subst isState1
  rw [sameFunc] at isFunc
  subst isFunc
  refine Infers.bind_some (Infers.read held1) fun r2 p2 s2 _ ext2 _ held2 answer => ?_
  obtain ⟨isState2, _⟩ := answer
  subst isState2
  refine Infers.bind_some (Infers.lift held2 Follows.report)
    fun r3 p3 s3 _ ext3 _ held3 answer => ?_
  obtain ⟨isState3, _⟩ := answer
  subst isState3
  have ext : r.Extends r3 := (ext1.trans ext2).trans ext3
  unfold Program.record
  refine Infers.bind (Infers.lift held3 (argumentIntervals_follows ctx
    (fun a member => (held a member).extend ext) (heldDomain.extend ext)))
    fun r4 p4 s4 given box ext4 _ held4 _ answer => ?_
  obtain ⟨isState4, heldGiven, isBox⟩ := answer
  subst isState4 isBox
  refine Infers.bind_some (Infers.read held4) fun r5 p5 s5 seen ext5 _ held5 answer => ?_
  obtain ⟨isState5, isSeen⟩ := answer
  subst isState5 isSeen
  replace heldGiven := fun i member => (heldGiven i member).extend ext5
  dsimp only [CallContext.site_key]
  split
  next unknown =>
    have noBox : boxesOf seen.intervals (calledStage ctx.key (program.func callee)) = none := by
      unfold boxesOf
      rw [unknown]
      rfl
    rw [if_pos (by rw [noBox]; rfl)]
    refine Infers.bind_some (Infers.setIntervals held5 heldGiven)
      fun r6 p6 s6 _ ext6 _ held6 inserted =>
      Infers.pure held6 ⟨?_, given, fun i member => (heldGiven i member).extend ext6, inserted, ?_⟩
    · rw [inserted, boxesOf_insert, Boxes.join, noBox]
      rfl
    · rw [unknown]
      exact .first
  next earlier found =>
    have isBox : boxesOf seen.intervals (calledStage ctx.key (program.func callee)) =
        some (earlier.map Interval.ends) := by
      unfold boxesOf
      rw [found]
      rfl
    have heldEarlier := held5 _ (StageTable.mem_of_find? found)
    -- Intervals of another number are refused by both.
    by_cases sameLength : earlier.length = given.length
    · rw [if_neg (not_not_intro sameLength), if_pos (by simp [isBox, sameLength])]
      refine Infers.bind_some (Infers.lift held5 (mergeAll_follows heldEarlier heldGiven))
        fun r6 p6 s6 merged ext6 _ held6 answer => ?_
      obtain ⟨isState6, heldMerged, hulls⟩ := answer
      subst isState6
      refine Infers.bind_some (Infers.setIntervals held6 fun i member => (heldMerged i member).1)
        fun r7 p7 s7 _ ext7 _ held7 inserted => ?_
      have lengths : earlier.length = merged.length := by
        have sameLengths := congrArg List.length hulls
        simpa [sameLength] using sameLengths.symm
      have isJoined : boxesOf s7.intervals = (boxesOf s6.intervals).join
          (calledStage ctx.key (program.func callee)) (given.map Interval.ends) := by
        rw [inserted, boxesOf_insert, Boxes.join, isBox, hulls]
        rfl
      have heldNew := fun i member => (heldMerged i member).1.extend ext7
      have literal := fun i member => (heldMerged i member).2
      rw [found]
      by_cases isSelf : ctx.key.name = (program.func callee).name
      · rw [if_pos isSelf, decide_eq_true isSelf]
        have stays : Renewed skips true (some earlier) merged (!true && !true) :=
          .merged lengths literal fun isFalse => absurd isFalse (by decide)
        exact Infers.pure held7 ⟨isJoined, merged, heldNew, inserted, stays⟩
      · rw [if_neg isSelf, decide_eq_false isSelf]
        obtain ⟨skipped, isSkipped⟩ := answers earlier merged
        rw [isSkipped]
        refine Infers.bind_some (Infers.lift held7 Follows.ofExcept)
          fun r8 p8 s8 _ ext8 _ held8 answer => ?_
        obtain ⟨isState8, isAnswer⟩ := answer
        subst isState8 isAnswer
        exact Infers.pure held8 ⟨isJoined, merged, fun i member => (heldNew i member).extend ext8,
          inserted, .merged lengths literal fun _ => isSkipped⟩
    · rw [if_pos sameLength, if_neg (by simp [isBox, sameLength])]
      exact Infers.throw_bind

theorem recordCall_follows (sound : skips.Sound) {r : Registry} {p : Program} {state : Inference}
    {callee : FuncId} {ctx : CallContext} {args : List Expr}
    (sameFunc : p.func callee = program.func callee)
    (held : ∀ a ∈ args, r.HoldsIndex a) (heldDomain : r.HoldsDomain ctx.domain)
    (heldTable : r.HoldsTable state.intervals) :
    Infers total (Inference.recordCallBy skips ctx callee args) r p state
      (program.record ctx.site (boxesOf state.intervals) (callee, args))
      fun _ state' entered boxes => boxesOf state'.intervals = boxes ∧
        (entered = true → ctx.key.name ≠ (program.func callee).name) ∧
        (entered = false → ctx.key.name ≠ (program.func callee).name →
          boxes = boxesOf state.intervals ∧
            ∃ stage box, boxes ⟨(program.func callee).name, stage⟩ = some box) := by
  refine (recordCall_renews sound.answers sameFunc held heldDomain heldTable).mono
    fun later state' entered boxes extended ⟨isBoxes, intervals, heldNew, inserted, renewed⟩ => ?_
  have renewedBox := inserted ▸ boxesOf_insert state.intervals
    (calledStage ctx.key (program.func callee)) intervals
  cases known : state.intervals.find? (calledStage ctx.key (program.func callee)) with
  | none =>
      rw [known] at renewed
      cases renewed
      refine ⟨isBoxes, by simp, ?_⟩
      simp only [Bool.not_eq_false', decide_eq_true_eq]
      exact fun isSelf other => absurd isSelf other
  | some earlier =>
      rw [known] at renewed
      cases renewed with
      | @merged _ _ skipped sameLength literal answered =>
          have isBox : boxesOf state.intervals (calledStage ctx.key (program.func callee)) =
              some (earlier.map Interval.ends) := by
            unfold boxesOf
            rw [known]
            rfl
          refine ⟨isBoxes, ?_, fun stays other => ?_⟩
          · simp only [Bool.and_eq_true, Bool.not_eq_true', decide_eq_false_iff_not]
            exact fun both => both.1
          · have isSkipped : skipped = true := by simpa [other] using stays
            have skips := isSkipped ▸ answered (decide_eq_false other)
            have unchanged := sound.same later earlier intervals
              (fun i member => (heldTable _ (StageTable.mem_of_find? known) i member).extend
                extended)
              (fun i member => ⟨heldNew i member, literal i member⟩) sameLength skips
            rw [← isBoxes, renewedBox, unchanged, ← isBox, Function.update_eq_self]
            exact ⟨rfl, present_of_called isBox⟩

structure Ready (program : Program) (root : Expr) (base : Registry) (busy : FuncId → Prop)
    (r : Registry) (p : Program) (state : Inference) : Prop where
  extended : base.Extends r
  sameFuncs : p.funcs = program.funcs
  held : r.HoldsTable state.intervals
  tracked : Tracked program root busy (boxesOf state.intervals)

/-- Entering a function follows entering it among boxes, which covers it and changes nothing where
all that it leads to is covered. -/
structure EntersAlike (total : Prop) (program : Program) (root : Expr) (base : Registry)
    (enter : FuncId → InferenceM Unit) (enterBoxes : FuncId → Boxes → Option Boxes)
    (callee : FuncId) : Prop where
  enters : Enters program root enterBoxes callee
  rests : ∀ boxes, (∀ x, Relation.ReflTransGen program.Leads callee x → Covered program boxes x) →
    enterBoxes callee boxes = some boxes
  follows : ∀ (busy : FuncId → Prop) r p state, Ready program root base
    (fun id => busy id ∨ id = callee) r p state →
    (∀ x, Relation.ReflTransGen program.Leads callee x → ¬ busy x) →
    Infers total (enter callee) r p state (enterBoxes callee (boxesOf state.intervals))
      fun _ state' _ boxes => boxesOf state'.intervals = boxes

def WalkableAlike (total : Prop) (program : Program) (root : Expr) (base : Registry)
    (enter : FuncId → InferenceM Unit) (enterBoxes : FuncId → Boxes → Option Boxes)
    (site : CallSite) (busy : FuncId → Prop) (value : Expr) : Prop :=
  ∀ callee, value.Meets callee → (program.func callee).name ≠ site.key.name →
    EntersAlike total program root base enter enterBoxes callee ∧
      ∀ x, Relation.ReflTransGen program.Leads callee x → ¬ busy x

variable {enter : FuncId → InferenceM Unit} {enterBoxes : FuncId → Boxes → Option Boxes}
  {busy : FuncId → Prop} {r : Registry} {p : Program} {state : Inference}

theorem WalkableAlike.walkable {site : CallSite} {value : Expr}
    (alike : WalkableAlike total program root base enter enterBoxes site busy value) :
    Walkable program root enterBoxes site busy value :=
  fun callee met other => ⟨(alike callee met other).1.enters, (alike callee met other).2⟩

theorem visit_follows (sound : skips.Sound) (indexed : program.Indexed base root)
    {ctx : CallContext} {value : Expr} {call : FuncId × List Expr} (member : call ∈ value.calls)
    (self : ∀ id, program.Home root (some id) → (program.func id).name = ctx.key.name → busy id)
    (alike : WalkableAlike total program root base enter enterBoxes ctx.site busy value)
    (ready : Ready program root base busy r p state) (heldDomain : r.HoldsDomain ctx.domain)
    (stands : Stands program root (boxesOf state.intervals) ctx.site value) :
    Infers total (Inference.visitBy skips enter ctx call) r p state
      (program.visit enterBoxes ctx.site (boxesOf state.intervals) call)
      fun _ state' _ boxes => boxesOf state'.intervals = boxes := by
  obtain ⟨callee, args⟩ := call
  have met := meets_of_mem_calls member
  have isHome : program.Home root (some callee) := stands.place.home met
  obtain ⟨x, name, outer, isCall, rfl⟩ := mem_calls.1 member
  obtain ⟨home, atHome, inHome⟩ := stands.place.calls outer
  unfold Inference.visitBy Program.visit
  refine Infers.bind (recordCall_follows sound (func_eq_of_funcs ready.sameFuncs callee)
    (fun arg isArg => (indexed.indices home x callee name atHome inHome isCall arg isArg).extend
      ready.extended) heldDomain ready.held)
    fun r1 p1 s1 entered recorded ext1 same1 held1 isRecorded answer => ?_
  obtain ⟨isBoxes, ofTrue, ofFalse⟩ := answer
  rw [CallContext.site_key]
  cases entered with
  | true =>
      have other := ofTrue rfl
      obtain ⟨entersCallee, idleBelow⟩ := alike callee met (Ne.symm other)
      have tracked : Tracked program root (fun id => busy id ∨ id = callee) recorded :=
        record_tracked indexed.toStratified member (ready.tracked.mono fun _ => .inl) stands
          (fun id isHome sameName => .inl (self id isHome sameName)) (fun _ => .inr rfl) isRecorded
      rw [if_neg other, ← isBoxes]
      refine Infers.bind_some (b := ()) (Q := fun _ state' _ _ => state'.intervals = s1.intervals)
        (Follows.pure ⟨held1, rfl⟩) fun r2 p2 s2 _ ext2 same2 held2 sameTable => ?_
      rw [← isBoxes] at tracked
      rw [← sameTable] at tracked ⊢
      refine Infers.bind_last (entersCallee.follows busy r2 p2 s2
        ⟨(ready.extended.trans ext1).trans ext2, (same2.trans same1).trans ready.sameFuncs,
          held2, tracked⟩ idleBelow) fun r3 p3 s3 _ boxes ext3 same3 held3 _ isBoxes3 => ?_
      exact Follows.pure ⟨held3, isBoxes3⟩
  | false =>
      by_cases isSelf : ctx.key.name = (program.func callee).name
      · rw [if_pos isSelf]
        exact Infers.pure held1 isBoxes
      · -- the function that is skipped is covered, so that the walk would change nothing
        obtain ⟨unchanged, present⟩ := ofFalse rfl isSelf
        obtain ⟨entersCallee, idleBelow⟩ := alike callee met (Ne.symm isSelf)
        rw [if_neg isSelf, entersCallee.rests recorded fun x below => ?_]
        · exact Infers.pure held1 isBoxes
        · rw [unchanged] at present ⊢
          exact ready.tracked.covered_below isHome idleBelow present below

theorem visits_follow (sound : skips.Sound) (indexed : program.Indexed base root)
    {ctx : CallContext} {value : Expr} {calls : List (FuncId × List Expr)}
    (within : ∀ call ∈ calls, call ∈ value.calls)
    (self : ∀ id, program.Home root (some id) → (program.func id).name = ctx.key.name → busy id)
    (alike : WalkableAlike total program root base enter enterBoxes ctx.site busy value)
    (ready : Ready program root base busy r p state) (heldDomain : r.HoldsDomain ctx.domain)
    (stands : Stands program root (boxesOf state.intervals) ctx.site value) :
    Infers total (calls.forM (Inference.visitBy skips enter ctx)) r p state
      (calls.foldlM (program.visit enterBoxes ctx.site) (boxesOf state.intervals))
      fun _ state' _ boxes => boxesOf state'.intervals = boxes := by
  induction calls generalizing r p state with
  | nil => exact Infers.pure ready.held rfl
  | cons call rest ih =>
      obtain ⟨member, others⟩ := List.forall_mem_cons.1 within
      rw [List.foldlM_cons]
      refine Infers.bind (visit_follows sound indexed member self alike ready heldDomain stands)
        fun r1 p1 s1 _ boxes ext1 same1 held1 visits isBoxes => ?_
      have walked :=
        visit_walked indexed.toStratified self alike.walkable member ready.tracked stands visits
      subst isBoxes
      exact ih others ⟨ready.extended.trans ext1, same1.trans ready.sameFuncs, held1,
        walked.tracked⟩ (heldDomain.extend ext1) (stands.widen walked.widens)

theorem recordCalls_follows (sound : skips.Sound) (indexed : program.Indexed base root)
    {ctx : CallContext} {value : Expr}
    (self : ∀ id, program.Home root (some id) → (program.func id).name = ctx.key.name → busy id)
    (alike : WalkableAlike total program root base enter enterBoxes ctx.site busy value)
    (ready : Ready program root base busy r p state) (heldDomain : r.HoldsDomain ctx.domain)
    (stands : Stands program root (boxesOf state.intervals) ctx.site value) :
    Infers total (value.recordCallsBy skips enter ctx) r p state
      (value.calls.foldlM (program.visit enterBoxes ctx.site) (boxesOf state.intervals))
      fun _ state' _ boxes => boxesOf state'.intervals = boxes := by
  rw [recordCallsBy_eq]
  exact visits_follow sound indexed (fun _ member => member) self alike ready heldDomain stands

theorem stageIntervals_follows {key : StageKey} {later : Option StageKey}
    (heldTable : r.HoldsTable state.intervals) :
    Infers total (Inference.stageIntervals key later) r p state
      ((boxesOf state.intervals).inherit key later) fun last state' intervals known =>
        boxesOf state'.intervals = known ∧ (∀ i ∈ intervals, i.HeldBy last) ∧
          known key = some (intervals.map Interval.ends) ∧ (state'.intervals = state.intervals ∨
            state.intervals.find? key = none ∧
              state'.intervals = state.intervals.insert key intervals) := by
  unfold Inference.stageIntervals Boxes.inherit
  refine Infers.bind_some (Infers.read heldTable)
    fun r1 p1 s1 seen ext1 _ held1 ⟨isState, isSeen⟩ => ?_
  subst isState isSeen
  dsimp only
  split
  next intervals found =>
    have isBox : boxesOf seen.intervals key = some (intervals.map Interval.ends) := by
      unfold boxesOf
      rw [found]
      rfl
    rw [isBox]
    exact Infers.pure held1 ⟨rfl, held1 _ (StageTable.mem_of_find? found), isBox, .inl rfl⟩
  next unknown =>
    have noBox : boxesOf seen.intervals key = none := by
      unfold boxesOf
      rw [unknown]
      rfl
    have inherited : later.bind (boxesOf seen.intervals) =
        (later.bind seen.intervals.find?).map fun intervals => intervals.map Interval.ends := by
      cases later <;> rfl
    rw [noBox, inherited]
    split
    next intervals foundLater =>
      obtain ⟨next, isLater, found⟩ := Option.bind_eq_some_iff.1 foundLater
      have heldIntervals := held1 _ (StageTable.mem_of_find? found)
      rw [foundLater]
      refine Infers.bind_some (Infers.setIntervals held1 heldIntervals)
        fun r2 p2 s2 _ ext2 _ held2 inserted => Infers.pure held2 ⟨?_,
          fun i member => (heldIntervals i member).extend ext2, Function.update_self ..,
          .inr ⟨unknown, inserted⟩⟩
      rw [inserted, boxesOf_insert]
    next noLater =>
      rw [noLater]
      exact Infers.throw

theorem declared_of_args {f : Func} {args : List Expr} (isArgs : f.args.toOption = some args) :
    args.map Expr.name = f.declared := by
  unfold Func.args Func.initial at isArgs
  unfold Func.declared
  cases defined : f.init with
  | none =>
      rw [defined] at isArgs
      cases isArgs
  | some initial =>
      rw [defined] at isArgs
      cases isArgs
      rfl

theorem defined_iff_args {β : Type} {f : Func} {walk : Option β} :
    (if f.init.isSome then walk else none) = f.args.toOption.bind fun _ => walk := by
  unfold Func.args Func.initial
  cases f.init <;> rfl

theorem walkStages_follows (sound : skips.Sound) (indexed : program.Indexed base root) {id : FuncId}
    (isHome : program.Home root (some id)) (isBusy : busy id) {args : List Expr}
    (declared : args.map Expr.name = (program.func id).declared)
    (alike : ∀ callee, program.Leads id callee →
      EntersAlike total program root base enter enterBoxes callee ∧
        ∀ x, Relation.ReflTransGen program.Leads callee x → ¬ busy x)
    {later : Option StageKey} {stages : List (Int × Definition)}
    (midway : Midway program root busy id later stages (boxesOf state.intervals))
    (ready : Ready program root base busy r p state) :
    Infers total (Inference.walkStages (Expr.recordCallsBy skips enter) (program.func id) args later
        stages) r p state
      (program.walkStages enterBoxes (program.func id) later stages (boxesOf state.intervals))
      fun _ state' _ boxes => boxesOf state'.intervals = boxes := by
  induction stages generalizing later r p state with
  | nil =>
      rw [Inference.walkStages]
      exact Infers.pure ready.held rfl
  | cons entry rest ih =>
      obtain ⟨stage, definition⟩ := entry
      have isStage := midway.within _ (.head _)
      have self (x : FuncId) (xHome : program.Home root (some x))
          (sameName : (program.func x).name = (program.func id).name) : busy x := by
        rw [indexed.distinct x id xHome isHome sameName]
        exact isBusy
      have alikeHere (box : List (Int × Int)) :
          WalkableAlike total program root base enter enterBoxes
            ⟨⟨(program.func id).name, stage⟩, (program.func id).declared, box⟩ busy
            definition.value :=
        fun callee met other => alike callee
          ⟨fun same => other (congrArg (fun id => (program.func id).name) same), _, isStage, met⟩
      rw [Inference.walkStages, Program.walkStages]
      refine Infers.bind (stageIntervals_follows ready.held)
        fun r1 p1 s1 intervals known ext1 same1 held1 inherits answer => ?_
      obtain ⟨isKnown, heldIntervals, isBox, _⟩ := answer
      rw [isBox]
      have trackedKnown := midway.inherit indexed.toStratified indexed.titled isHome isBusy inherits
      refine Infers.bind (Infers.lift held1 (toDomain_follows intervals heldIntervals))
        fun r2 p2 s2 domain box ext2 same2 held2 isEnds answer => ?_
      obtain ⟨isState2, heldDomain, isDomain⟩ := answer
      have stands := midway.stands indexed.titled isHome (isBox.trans isEnds)
      subst isState2 isKnown
      have isSite : CallContext.site ⟨⟨(program.func id).name, stage⟩, args, domain⟩ =
          ⟨⟨(program.func id).name, stage⟩, (program.func id).declared, box⟩ := by
        rw [CallContext.site, declared, isDomain]
      rw [← isSite] at stands
      have walks := @recordCalls_follows total _ _ _ _ _ _ _ r2 p2 s2 sound indexed
        ⟨⟨(program.func id).name, stage⟩, args, domain⟩ _ self (isSite ▸ alikeHere _)
        ⟨(ready.extended.trans ext1).trans ext2, (same2.trans same1).trans ready.sameFuncs, held2,
          trackedKnown⟩ heldDomain stands
      have walkable := (alikeHere box).walkable
      rw [isSite] at walks stands
      refine Infers.bind walks fun r3 p3 s3 _ here ext3 same3 held3 isHere isBoxes => ?_
      subst isBoxes
      have walked := calls_walked indexed.toStratified self walkable (fun _ member => member)
        trackedKnown stands isHere
      exact ih (midway.next (inherit_widens inherits) walked)
        ⟨((ready.extended.trans ext1).trans ext2).trans ext3,
          ((same3.trans same2).trans same1).trans ready.sameFuncs, held3, walked.tracked⟩

theorem enterFunc_alike (sound : skips.Sound) (indexed : program.Indexed base root)
    {limit depth : Nat}
    {id : FuncId} (isHome : program.Home root (some id)) (shallow : program.Shallow depth id)
    (room : total → program.Shallow limit id) :
    EntersAlike total program root base (Inference.enterFuncBy skips limit)
      (program.enterBoxes depth) id := by
  induction limit generalizing depth id with
  | zero =>
      exact ⟨enterBoxes_enters indexed.toStratified indexed.titled depth isHome,
        fun boxes => enterBoxes_of_covered shallow, fun _ _ _ _ _ _ => Infers.throw_partial room⟩
  | succ limit ih =>
      cases depth with
      | zero => exact shallow.elim
      | succ depth =>
          refine ⟨enterBoxes_enters indexed.toStratified indexed.titled _ isHome,
            fun boxes => enterBoxes_of_covered shallow, fun busy r p state ready idle => ?_⟩
          have below (callee : FuncId) (leads : program.Leads id callee) := ih
            (isHome.reaches (.single leads)) (shallow.2 callee leads)
            fun isTotal => (room isTotal).2 callee leads
          have callable := callable_below indexed.toStratified isHome
            (fun callee leads => (below callee leads).enters) idle
          have sameFunc := func_eq_of_funcs ready.sameFuncs id
          rw [Inference.enterFuncBy, Program.enterBoxes]
          refine Infers.bind_some (Infers.lift ready.held Follows.getFunc)
            fun r1 p1 s1 f ext1 same1 held1 answer => ?_
          obtain ⟨isState1, isFunc⟩ := answer
          rw [sameFunc] at isFunc
          subst isState1 isFunc
          rw [defined_iff_args]
          refine Infers.bind (Infers.lift held1 Follows.ofExcept)
            fun r2 p2 s2 args args' ext2 same2 held2 isArgs answer => ?_
          obtain ⟨isState2, sameArgs⟩ := answer
          subst isState2 sameArgs
          exact walkStages_follows sound indexed isHome (.inr rfl) (declared_of_args isArgs)
            (fun callee leads => ⟨below callee leads, (callable callee leads).2⟩)
            (midway_start ready.tracked) ⟨(ready.extended.trans ext1).trans ext2,
              (same2.trans same1).trans ready.sameFuncs, held2, ready.tracked⟩

theorem domains_follows {r : Registry} {p : Program} (table : StageTable (List Interval))
    (heldTable : r.HoldsTable table) :
    Follows total (Inference.domains table) r p (some (boxesOf table)) fun later domains boxes =>
      (∀ entry ∈ domains, later.HoldsDomain entry.2) ∧ spans domains = boxes := by
  induction table generalizing r p with
  | nil => exact Follows.pure ⟨by simp, rfl⟩
  | cons entry rest ih =>
      obtain ⟨key, intervals⟩ := entry
      obtain ⟨heldFirst, heldRest⟩ := List.forall_mem_cons.1 heldTable
      rw [Inference.domains]
      refine Follows.bind_some (toDomain_follows intervals heldFirst)
        fun r1 p1 domain ext1 _ made1 => ?_
      refine Follows.bind_some Follows.report fun r2 p2 _ ext2 _ _ => ?_
      refine Follows.bind_some (Follows.forM domain.zipIdx fun _ _ _ => Follows.report)
        fun r3 p3 _ ext3 _ _ => ?_
      have ext := (ext1.trans ext2).trans ext3
      refine Follows.bind_some
        (ih fun other member i inside => (heldRest other member i inside).extend ext)
        fun r4 p4 others ext4 _ made4 => ?_
      refine Follows.pure ⟨List.forall_mem_cons.2 ⟨?_, made4.1⟩, ?_⟩
      · exact ((made1.1.extend ext2).extend ext3).extend ext4
      · funext other
        have sameRest := congrFun made4.2 other
        unfold spans boxesOf StageTable.find? at sameRest ⊢
        by_cases isKey : other = key
        · simp [isKey, made1.2]
        · rw [List.lookup_cons, List.lookup_cons, beq_false_of_ne isKey]
          exact sameRest

theorem inferBounds_follows (sound : skips.Sound) (indexed : program.Indexed base root)
    {limit : Nat}
    (room : total → ∀ id, root.Meets id → program.Shallow limit id) :
    Follows total (inferBoundsBy skips limit root) base program (program.inferBoxes root)
      fun later domains boxes =>
        (∀ entry ∈ domains, later.HoldsDomain entry.2) ∧ spans domains = boxes := by
  have heldNone : base.HoldsTable ({} : Inference).intervals := fun _ member => nomatch member
  have alike : WalkableAlike total program root base (Inference.enterFuncBy skips limit)
      (program.enterBoxes program.funcs.size) CallContext.root.site (fun _ => False) root :=
    fun callee met _ => ⟨enterFunc_alike sound indexed (.of_root met)
      (indexed.shallow (.of_root met) (le_refl _))
      fun isTotal => room isTotal callee met, fun _ _ => not_false⟩
  have stands :
      Stands program root (boxesOf ({} : Inference).intervals) CallContext.root.site root :=
    ⟨.root, [], if_pos rfl, .nil⟩
  have tracked : Tracked program root (fun _ => False) (boxesOf ({} : Inference).intervals) :=
    tracked_none
  unfold inferBoundsBy
  refine Follows.bind_last (recordCalls_follows sound indexed
    (fun id isHome sameName => indexed.titled id isHome sameName) alike
    ⟨.refl base, rfl, heldNone, tracked⟩ (fun _ member => nomatch member) stands)
    fun r1 p1 result boxes ext1 _ _ ⟨held1, isBoxes⟩ => ?_
  subst isBoxes
  exact domains_follows _ held1

theorem inferBoundsWith_follows {hash : String → String} (apart : program.TellsTextsApart hash root)
    (indexed : program.Indexed base root)
    (room : total → ∀ id, root.Meets id → program.Shallow Inference.nestingLimit id) :
    Follows total (inferBoundsWith hash root) base program (program.inferBoxes root)
      fun later domains boxes =>
        (∀ entry ∈ domains, later.HoldsDomain entry.2) ∧ spans domains = boxes :=
  (inferBounds_follows (Skipping.confirmed_sound hash) indexed room).of_run
    (inferBounds_confirmed apart)

end

end ReverseMode
