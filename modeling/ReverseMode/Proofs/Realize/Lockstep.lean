import ReverseMode.Proofs.Realize.Agreement
import ReverseMode.Proofs.Realize.Realizing

namespace ReverseMode

open Expr Realizer

/-- The same functions run, with the same partial regions, and the same is kept of functions that are
not definite. -/
structure Alike (setting : Realization) (running : List (FuncId × Region)) (s s' : Realizer) :
    Prop where
  left : Consistent setting none running s
  right : Consistent setting none running s'
  same : ∀ id, ¬ setting.Definite id → s.cache.lookup id = s'.cache.lookup id

def AgreesOnBoxes (setting : Realization)
    (realizeBox : FuncId → List Int → List Int → RealizeM Region) : Prop :=
  ∀ id mins sizes running, Clear setting running id → ¬ setting.Definite id →
    Agrees setting (Alike setting running) (realizeBox id mins sizes) fun _ => Alike setting running

section

variable {setting : Realization} {realizeBox : FuncId → List Int → List Int → RealizeM Region}
  {running : List (FuncId × Region)} {id : FuncId}

theorem Alike.withLog {s s' : Realizer} (alike : Alike setting running s s')
    (log log' : Array String) : Alike setting running { s with log } { s' with log := log' } :=
  ⟨alike.left, alike.right, alike.same⟩

theorem Alike.frozen {s s' : Realizer} (alike : Alike setting running s s') :
    Consistent setting (some fun id => s.cache.lookup id) running s ∧
      Consistent setting (some fun id => s.cache.lookup id) running s' := by
  refine ⟨⟨⟨alike.left.1.fields, ?_⟩, alike.left.2⟩, ⟨⟨alike.right.1.fields, ?_⟩, alike.right.2⟩⟩
  · rintro _ ⟨⟩ id _
    rfl
  · rintro _ ⟨⟩ id indefinite
    exact (alike.same id indefinite).symm

theorem readDefinite_agrees (boxes : RealizesBoxes setting realizeBox)
    (clear : Clear setting running id) (definite : setting.Definite id)
    {shape : List Nat} {coordinates : List Tensor}
    (areCoordinates : AreCoordinates (setting.program.arity id) shape coordinates) :
    Agrees setting (Alike setting running) (readFrom realizeBox id shape coordinates) fun _ =>
      Alike setting running := by
  intro s s' alike t left t' left' here there
  have answers (frozen : Option (FuncId → Option Region)) :
      Answers setting (Consistent setting frozen running) setting.program.arity (· = id) True
        (setting.program.fields setting.kernels) (readFrom realizeBox) := by
    refine answers_readFrom boxes ?_
    rintro _ rfl
    exact .inr ⟨clear, fun _ => definite, fun _ => ⟨definite, rfl⟩⟩
  have ends := answers _ id shape coordinates rfl areCoordinates s alike.frozen.1
  have ends' := answers _ id shape coordinates rfl areCoordinates s' alike.frozen.2
  rw [here] at ends
  rw [there] at ends'
  obtain ⟨consistent, _, _, value⟩ := ends
  obtain ⟨consistent', _, _, value'⟩ := ends'
  refine ⟨(value trivial).trans (value' trivial).symm, consistent.thaw, consistent'.thaw,
    fun other indefinite => ?_⟩
  rw [consistent.1.others _ rfl other indefinite, consistent'.1.others _ rfl other indefinite]

theorem readsAlike (boxes : RealizesBoxes setting realizeBox)
    (agrees : AgreesOnBoxes setting realizeBox) {callable : FuncId → Prop}
    (known : ∀ id, callable id →
      (∃ region, running.lookup id = some region) ∨ Clear setting running id) :
    ReadsAlike setting (Alike setting running) (Consistent setting none running) setting.program.arity
      callable (readFrom realizeBox) where
  answers := answers_readFrom boxes fun id isCallable => (known id isCallable).imp
    (fun ⟨region, isRunning⟩ => ⟨region, isRunning, False.elim⟩)
    fun clear => ⟨clear, by simp, False.elim⟩
  starts _ _ alike := alike.left
  agrees := by
    intro id shape coordinates isCallable areCoordinates
    by_cases isDefinite : setting.Definite id ∧ Clear setting running id
    · exact readDefinite_agrees boxes isDefinite.2 isDefinite.1 areCoordinates
    unfold readFrom
    refine .bind_read (.bind_get (fun s s' alike => ?_) fun s s' alike => ?_)
    · simp only [alike.left.2, alike.right.2]
    rcases known id isCallable with ⟨region, isRunning⟩ | clear
    · rw [alike.left.2, isRunning]
      dsimp only
      split
      next => exact .throw
      next => exact .pure fun _ _ before => before
    · rw [alike.left.2, clear.self]
      dsimp only
      split
      next => exact .bind_except fun dtype _ => .pure fun _ _ before => before
      next ranges hasRanges =>
        refine .bind_report (fun _ _ _ _ alike => alike.withLog _ _) ?_
        refine (agrees id _ _ running clear fun definite => isDefinite ⟨definite, clear⟩).bind ?_
        exact fun region => .pure fun _ _ before => before

def RunAlike (setting : Realization) (running : List (FuncId × Region)) (id : FuncId)
    (s s' : Realizer) : Prop :=
  ∃ region, Alike setting ((id, region) :: running) s s'

theorem agrees_mapM {α β : Type} {P : Realizer → Realizer → Prop} {step : α → Except Fault β}
    (as : List α) :
    Agrees setting P (as.mapM fun a => (liftM (step a) : RealizeM β)) fun _ => P := by
  induction as with
  | nil => exact .pure fun _ _ before => before
  | cons a rest ih =>
      rw [List.mapM_cons]
      exact .bind_except fun b _ => ih.bind fun bs => .pure fun _ _ before => before

theorem writeUpdate_agrees {name : String} {stage : Nat} {value : Tensor} {indices : List Tensor}
    (absent : running.lookup id = none) :
    Agrees setting (RunAlike setting running id) (writeUpdate id name stage indices value) fun _ =>
      RunAlike setting running id := by
  refine .ofExists fun region => ?_
  unfold writeUpdate
  refine .bind_get (fun s s' alike => ?_) fun s s' alike => ?_
  · simp only [alike.left.2, alike.right.2]
  have found : s.running.lookup id = some region := by simp [alike.left.2]
  rw [found]
  dsimp only
  refine .bind_except ?_
  rintro ⟨shape, arrays⟩ _
  refine (agrees_mapM _).bind fun offsets => ?_
  split
  next => exact .throw
  split
  next => exact .throw
  refine .modify fun s s' alike => ?_
  generalize Region.positions shape _ _ offsets = places
  have changed := map_change absent region fun region => region.store places value
  refine ⟨region.store places value, ⟨alike.left.1, ?_⟩, ⟨alike.right.1, ?_⟩, alike.same⟩
  · rw [alike.left.2]
    exact changed
  · rw [alike.right.2]
    exact changed

variable {r : Registry} (wellBuilt : setting.program.WellBuilt r)
  (boxes : RealizesBoxes setting realizeBox) (agrees : AgreesOnBoxes setting realizeBox)
  (clear : Clear setting running id)

include boxes agrees clear in
theorem readsAlike_update {update : Definition}
    (isUpdate : update ∈ (setting.program.func id).updates) (region : Region) :
    ReadsAlike setting (Alike setting ((id, region) :: running))
      (Consistent setting none ((id, region) :: running)) setting.program.arity
      (fun callee => ∃ e ∈ update.parts, e.Calls callee) (readFrom realizeBox) := by
  refine readsAlike boxes agrees fun callee ⟨e, isPart, called⟩ => ?_
  by_cases isSelf : callee = id
  · exact .inl ⟨region, by simp [isSelf]⟩
  · cases found : ((id, region) :: running).lookup callee with
    | some other => exact .inl ⟨other, rfl⟩
    | none =>
        have read : setting.program.ReadBy callee id :=
          .inr ⟨update, isUpdate, e, isPart, called, isSelf⟩
        exact .inr (clear.whileRunning read found)

include wellBuilt boxes agrees clear in
theorem updateAt_agrees {update : Definition}
    (isUpdate : update ∈ (setting.program.func id).updates) {name : String} {stage : Nat}
    {env : Environment} {grid : List Nat} (fits : env.Fits grid) :
    Agrees setting (RunAlike setting running id)
      (updateAt (readFrom realizeBox) id name stage update env) fun _ =>
        RunAlike setting running id := by
  refine .ofExists fun region => ?_
  have alike := readsAlike_update boxes agrees clear isUpdate region
  refine (evalBoth_agrees alike (fun e member => readable_part wellBuilt isUpdate
    (List.mem_append_left _ member)) fits).bind fun _ => ?_
  exact (writeUpdate_agrees clear.self).mono (fun _ _ alike => ⟨region, alike⟩) fun _ _ _ after => after

theorem concrete_agrees {P : Realizer → Realizer → Prop} {P₁ : Realizer → Prop}
    {callable : FuncId → Prop} {arity : FuncId → Nat} {reader : FuncReader}
    (alike : ReadsAlike setting P P₁ arity callable reader) {e : Expr}
    (readable : e.Readable arity callable False r) :
    Agrees setting P (concrete reader e) fun _ => P := by
  unfold concrete
  split
  next => exact .throw
  next =>
    have fits : Environment.Fits [] [] := fun _ absurd => nomatch absurd
    exact (evaluate_agrees alike readable fits).bind fun t => .ofExcept

theorem concreteRanges_agrees {P : Realizer → Realizer → Prop} {P₁ : Realizer → Prop}
    {callable : FuncId → Prop} {arity : FuncId → Nat} {reader : FuncReader}
    (alike : ReadsAlike setting P P₁ arity callable reader) {entries : List (String × Expr × Expr)}
    (readable : ∀ entry ∈ entries, entry.2.1.Readable arity callable False r ∧
      entry.2.2.Readable arity callable False r) :
    Agrees setting P (concreteRanges reader entries) fun _ => P := by
  induction entries with
  | nil => exact .pure fun _ _ before => before
  | cons entry rest ih =>
      obtain ⟨name, least, extent⟩ := entry
      obtain ⟨isLeast, isExtent⟩ := readable _ (.head _)
      unfold concreteRanges
      refine (concrete_agrees alike isLeast).bind fun start => ?_
      refine (concrete_agrees alike isExtent).bind fun count => ?_
      exact (ih fun entry member => readable entry (.tail _ member)).bind fun ranges =>
        .pure fun _ _ before => before

include wellBuilt boxes agrees clear in
theorem runUpdate_agrees {update : Definition}
    (isUpdate : update ∈ (setting.program.func id).updates) {box : Box} {name : String}
    {stage : Nat} :
    Agrees setting (RunAlike setting running id)
      (Realizer.runUpdate (readFrom realizeBox) id name
        ((setting.program.func id).declared.zip box.coordinates) stage update) fun _ =>
      RunAlike setting running id := by
  unfold Realizer.runUpdate
  refine Agrees.bind (Q := fun _ => RunAlike setting running id) (.ofExists fun region => ?_) ?_
  · exact (concreteRanges_agrees (readsAlike_update boxes agrees clear isUpdate region)
      (readable_bounds wellBuilt isUpdate)).mono (fun _ _ before => before)
      fun _ _ _ after => ⟨region, after⟩
  · intro ranges
    dsimp only
    refine (Agrees.forEach fun point _ => updateAt_agrees wellBuilt boxes agrees clear isUpdate
      ((Environment.fits_ofIndex box.sizes _ point).append
        (Environment.fits_coordinates _ box))).bind fun _ => .pure fun _ _ before => before

include wellBuilt boxes agrees clear in
theorem runUpdates_agrees {box : Box} {name : String} {updates : List (Definition × Nat)}
    (among : ∀ entry ∈ updates, entry.1 ∈ (setting.program.func id).updates) :
    Agrees setting (RunAlike setting running id)
      (Realizer.runUpdates (readFrom realizeBox) id name
        ((setting.program.func id).declared.zip box.coordinates) updates) fun _ =>
      RunAlike setting running id := by
  induction updates with
  | nil => exact .pure fun _ _ before => before
  | cons entry rest ih =>
      obtain ⟨update, stage⟩ := entry
      unfold Realizer.runUpdates
      exact (runUpdate_agrees wellBuilt boxes agrees clear (among _ (.head _))).bind fun _ =>
        ih fun entry member => among entry (.tail _ member)

theorem whileRunning_agrees {action : RealizeM Unit} {region : Region}
    (absent : running.lookup id = none)
    (run : Agrees setting (RunAlike setting running id) action fun _ => RunAlike setting running id) :
    Agrees setting (Alike setting running) (whileRunning id region action) fun _ =>
      Alike setting running := by
  unfold whileRunning
  have starts {s : Realizer} (consistent : Consistent setting none running s) :
      Consistent setting none ((id, region) :: running)
        { s with running := keep id region s.running } := by
    obtain ⟨cache, rfl⟩ := consistent
    exact ⟨cache, congrArg (List.cons _) (drop_of_absent absent)⟩
  have ends {s : Realizer} {region : Region}
      (consistent : Consistent setting none ((id, region) :: running) s) :
      Consistent setting none running { s with running := drop id s.running } :=
    ⟨consistent.1, consistent.2 ▸ drop_cons absent⟩
  refine Agrees.bind (Q := fun _ => RunAlike setting running id) (.modify fun s s' alike => ?_)
    fun _ => ?_
  · exact ⟨region, starts alike.left, starts alike.right, alike.same⟩
  refine (Agrees.tryCatch run fun fault s a left failed => ?_).bind fun _ => .modifyGet ?_
  · cases failed
  · rintro s s' ⟨region, alike⟩
    refine ⟨?_, ends alike.left, ends alike.right, alike.same⟩
    simp [alike.left.2, alike.right.2]

include wellBuilt boxes agrees clear in
theorem compute_agrees {mins sizes : List Int} :
    Agrees setting (Alike setting running) (compute (readFrom realizeBox) id mins sizes) fun _ =>
      Alike setting running := by
  unfold compute
  refine .bind_read (.bind_except fun initial isInitial => ?_)
  obtain ⟨defined, declared⟩ := Func.initial_eq_ok isInitial
  rw [← declared]
  dsimp only
  split
  · exact .throw
  have among : initial.value ∈ (setting.program.func id).parts := by
    simp [Func.parts, defined]
  have alike : ReadsAlike setting (Alike setting running) (Consistent setting none running)
      setting.program.arity initial.value.Calls (readFrom realizeBox) := by
    refine readsAlike boxes agrees fun callee called => ?_
    cases found : running.lookup callee with
    | some other => exact .inl ⟨other, rfl⟩
    | none => exact .inr (clear.callee (.inl ⟨initial, defined, called⟩) found)
  refine (evaluate_agrees alike
    ⟨fun _ => wellBuilt.held id _ among, fun _ called => called, wellBuilt.fit id _ among⟩
    (Environment.fits_coordinates _ (requestBox mins sizes))).bind fun values => ?_
  exact whileRunning_agrees clear.self (runUpdates_agrees wellBuilt boxes agrees clear
    fun entry => List.fst_mem_of_mem_zipIdx)

include wellBuilt boxes agrees clear in
theorem fresh_agrees (indefinite : ¬ setting.Definite id) (mins sizes : List Int) :
    Agrees setting (Alike setting running) (fresh (readFrom realizeBox) id mins sizes) fun _ =>
      Alike setting running := by
  have keeps {s : Realizer} (consistent : Consistent setting none running s) (region : Region) :
      Consistent setting none running { s with cache := keep id region s.cache } := by
    refine ⟨⟨fun other kept found definite => ?_, fun _ absurd => nomatch absurd⟩, consistent.2⟩
    have differs : other ≠ id := by
      rintro rfl
      exact indefinite definite
    rw [lookup_keep, if_neg differs] at found
    exact consistent.1.fields other kept found definite
  unfold fresh
  refine .bind_read (.bind_report (fun _ _ _ _ alike => alike.withLog _ _) ?_)
  refine (compute_agrees wellBuilt boxes agrees clear).bind fun region => ?_
  refine Agrees.bind (Q := fun _ => Alike setting running) (.modify fun s s' alike => ?_)
    fun _ => .pure fun _ _ after => after
  refine ⟨keeps alike.left region, keeps alike.right region, fun other indefinite => ?_⟩
  rw [lookup_keep, lookup_keep, alike.same other indefinite]

end

variable {setting : Realization} {r : Registry} (wellBuilt : setting.program.WellBuilt r)

include wellBuilt in
theorem realizeBox_agrees (depth : Nat) : AgreesOnBoxes setting (realizeBox depth) := by
  induction depth with
  | zero =>
      intro id mins sizes running _ _
      unfold realizeBox
      exact .throw
  | succ depth ih =>
      intro id mins sizes running clear indefinite
      have fresh := fresh_agrees wellBuilt (realizeBox_yields wellBuilt depth) ih clear indefinite
      unfold realizeBox
      refine .bind_get (fun s s' alike => ?_) fun s s' alike => ?_
      · simp only [alike.same id indefinite]
      dsimp only
      split
      next =>
        split
        next => exact .pure fun _ _ before => before
        next => exact fresh _ _
      next => exact fresh _ _

end ReverseMode
