import ReverseMode.Proofs.Nodes.Building

namespace ReverseMode

def BuildsAs {ε α β : Type} (action : ExceptT ε NodeM α) (r : Registry) (expected : Option β)
    (Q : Registry → α → β → Prop) : Prop :=
  Builds action.run r fun later result =>
    match result with
    | .ok a => ∃ b, expected = some b ∧ Q later a b
    | .error _ => expected = none

namespace BuildsAs

variable {ε α β γ δ : Type} {r : Registry} {expected : Option β} {Q : Registry → α → β → Prop}
  {R : Registry → γ → δ → Prop}

theorem pure {a : α} {b : β} (answer : Q r a b) :
    BuildsAs (Pure.pure a : ExceptT ε NodeM α) r (some b) Q :=
  Builds.pure (a := (.ok a : Except ε α)) ⟨b, rfl, answer⟩

theorem throw {fault : ε} : BuildsAs (throw fault : ExceptT ε NodeM α) r none Q :=
  Builds.pure (a := (.error fault : Except ε α)) rfl

theorem ofBuilds {action : NodeM α} {b : β} (built : Builds action r fun later a => Q later a b) :
    BuildsAs (liftM action : ExceptT ε NodeM α) r (some b) Q := by
  intro supply fits
  obtain ⟨later, extended, fitsLater, answer⟩ := built supply fits
  exact ⟨later, extended, fitsLater, b, rfl, answer⟩

theorem bind {action : ExceptT ε NodeM α} {rest : α → ExceptT ε NodeM γ} {k : β → Option δ}
    (first : BuildsAs action r expected Q)
    (second : ∀ later a b, r.Extends later → Q later a b → BuildsAs (rest a) later (k b) R) :
    BuildsAs (action >>= rest) r (expected.bind k) R := by
  unfold BuildsAs at first second ⊢
  rw [ExceptT.run_bind]
  refine Builds.bind first fun later result extended answer => ?_
  cases result with
  | error fault =>
      dsimp only at answer
      rw [answer]
      exact Builds.pure (a := (.error fault : Except ε γ)) rfl
  | ok a =>
      obtain ⟨b, rfl, related⟩ := answer
      exact second later a b extended related

end BuildsAs

/-- Where the registry fits, the action keeps the functions and answers as expected. If the action is
total it fails only where no result is expected. -/
structure Follows (total : Prop) {α β : Type} (action : ProgramM α) (r : Registry)
    (program : Program) (expected : Option β) (Q : Registry → α → β → Prop) : Prop where
  answers : Achieves action r program fun later left a =>
    left.funcs = program.funcs ∧ ∃ b, expected = some b ∧ Q later a b
  fails : r.Fits program.supply → total → ∀ fault left,
    action.run.run program = (.error fault, left) → expected = none

namespace Follows

variable {total : Prop} {α β γ δ : Type} {r : Registry} {program : Program} {expected : Option β}
  {Q : Registry → α → β → Prop} {R : Registry → γ → δ → Prop}

theorem achieves {action : ProgramM α} {b : β}
    (follows : Follows total action r program (some b) Q) :
    Achieves action r program fun later left a => left.funcs = program.funcs ∧ Q later a b := by
  refine follows.answers.mono fun later left a _ answer => ⟨answer.1, ?_⟩
  obtain ⟨_, _, ⟨⟩, related⟩ := answer
  exact related

theorem of_run {action action' : ProgramM α} (follows : Follows total action r program expected Q)
    (same : action'.run.run program = action.run.run program) :
    Follows total action' r program expected Q where
  answers fits a left run := follows.answers fits a left (same ▸ run)
  fails fits isTotal fault left run := follows.fails fits isTotal fault left (same ▸ run)

theorem answers_of_total {action : ProgramM α} {b : β} (fits : r.Fits program.supply)
    (follows : Follows True action r program (some b) Q) :
    ∃ a left later, action.run.run program = (.ok a, left) ∧ r.Extends later ∧
      later.Fits left.supply ∧ Q later a b := by
  cases outcome : action.run.run program with
  | mk result left =>
      cases result with
      | error fault => cases follows.fails fits trivial fault left outcome
      | ok a =>
          obtain ⟨later, extended, fitsLater, _, related⟩ := follows.achieves fits a left outcome
          exact ⟨a, left, later, rfl, extended, fitsLater, related⟩

theorem pure {a : α} {b : β} (answer : Q r a b) :
    Follows total (Pure.pure a) r program (some b) Q :=
  ⟨Achieves.pure ⟨rfl, b, rfl, answer⟩, fun _ _ _ _ run => nomatch run⟩

theorem throw {fault : Fault} : Follows total (throw fault : ProgramM α) r program none Q :=
  ⟨Achieves.throw, fun _ _ _ _ _ => rfl⟩

theorem mono {action : ProgramM α} {Q' : Registry → α → β → Prop}
    (follows : Follows total action r program expected Q)
    (implies : ∀ later a b, r.Extends later → Q later a b → Q' later a b) :
    Follows total action r program expected Q' :=
  ⟨follows.answers.mono fun later _ a extended answer => ⟨answer.1, answer.2.imp fun b related =>
    ⟨related.1, implies later a b extended related.2⟩⟩, follows.fails⟩

theorem known {action : ProgramM α} {b : β} {c : γ} {R : Registry → α → γ → Prop}
    (follows : Follows total action r program (some b) Q)
    (implies : ∀ later a, r.Extends later → Q later a b → R later a c) :
    Follows total action r program (some c) R := by
  refine ⟨follows.achieves.mono fun later left a extended answer =>
    ⟨answer.1, c, rfl, implies later a extended answer.2⟩, fun fits isTotal fault left run => ?_⟩
  cases follows.fails fits isTotal fault left run

theorem bind {action : ProgramM α} {rest : α → ProgramM γ} {k : β → Option δ}
    (first : Follows total action r program expected Q)
    (second : ∀ later left a b, r.Extends later → left.funcs = program.funcs →
      expected = some b → Q later a b → Follows total (rest a) later left (k b) R) :
    Follows total (action >>= rest) r program (expected.bind k) R := by
  refine ⟨?_, fun fits isTotal fault left run => ?_⟩
  · refine Achieves.bind first.answers fun later left a extended answer => ?_
    obtain ⟨same, b, isExpected, related⟩ := answer
    refine (second later left a b extended same isExpected related).answers.mono
      fun _ _ _ _ done => ⟨done.1.trans same, ?_⟩
    rw [isExpected]
    exact done.2
  · rw [ExceptT.run_bind, StateT.run_bind] at run
    cases outcome : action.run.run program with
    | mk result middle =>
        rw [outcome] at run
        cases result with
        | error earlier =>
            rw [first.fails fits isTotal earlier middle outcome]
            rfl
        | ok a =>
            obtain ⟨later, extended, fitsLater, same, b, isExpected, related⟩ :=
              first.answers fits a middle outcome
            rw [isExpected]
            exact (second later middle a b extended same isExpected related).fails fitsLater isTotal
              fault left run

theorem bind_some {action : ProgramM α} {rest : α → ProgramM γ} {b : β} {expected : Option δ}
    (first : Follows total action r program (some b) Q)
    (second : ∀ later left a, r.Extends later → left.funcs = program.funcs → Q later a b →
      Follows total (rest a) later left expected R) :
    Follows total (action >>= rest) r program expected R :=
  first.bind (k := fun _ => expected) fun later left a _ extended same isExpected related =>
    second later left a extended same (Option.some.inj isExpected ▸ related)

theorem bind_last {action : ProgramM α} {rest : α → ProgramM γ} {R : Registry → γ → β → Prop}
    (first : Follows total action r program expected Q)
    (second : ∀ later left a b, r.Extends later → left.funcs = program.funcs →
      expected = some b → Q later a b → Follows total (rest a) later left (some b) R) :
    Follows total (action >>= rest) r program expected R := by
  have composed := first.bind second
  rw [Option.bind_fun_some] at composed
  exact composed

theorem builds {action : NodeM α} {P : Registry → α → Prop} (built : Builds action r P) :
    Follows total (liftM action : ProgramM α) r program (some ()) fun later a _ => P later a :=
  ⟨(Achieves.builds built).mono fun _ _ _ _ answer => ⟨answer.1, (), rfl, answer.2⟩,
    fun _ _ _ _ run => nomatch run⟩

theorem buildsAs {action : BuildM α} (built : BuildsAs action r expected Q) :
    Follows total (liftM action : ProgramM α) r program expected Q := by
  refine ⟨fun fits a left run => ?_, fun fits _ fault left run => ?_⟩ <;>
    obtain ⟨later, extended, fitsLater, answer⟩ := built program.supply fits <;>
    change ((action.run.run program.supply).1,
      { program with supply := (action.run.run program.supply).2 }) = (_, left) at run <;>
    obtain ⟨sameResult, rfl⟩ := Prod.mk.inj run <;>
    rw [show (StateT.run action.run program.supply).1 = _ from sameResult] at answer
  · exact ⟨later, extended, fitsLater, rfl, answer⟩
  · exact answer

theorem report {reported : Tracing → Bool} {line : String} :
    Follows total (ReverseMode.report reported line) r program (some ()) fun _ _ _ => True :=
  ⟨Achieves.report.mono fun _ _ _ _ same => ⟨same, (), rfl, trivial⟩,
    fun _ _ _ _ run => nomatch run⟩

theorem getFunc {id : FuncId} :
    Follows total (getFunc id) r program (some (program.func id)) fun _ f g => f = g :=
  ⟨Achieves.getFunc ⟨rfl, _, rfl, rfl⟩, fun _ _ _ _ run => nomatch run⟩

theorem ofExcept {result : Except Fault α} :
    Follows total (liftM result : ProgramM α) r program result.toOption fun _ a b => a = b := by
  refine ⟨Achieves.ofExcept fun a isOk => ⟨rfl, a, by rw [isOk]; rfl, rfl⟩,
    fun _ _ fault left run => ?_⟩
  cases result with
  | error => rfl
  | ok => cases run

theorem mapM {f : α → ProgramM β} {g : α → Option γ} {P : Registry → β → γ → Prop}
    (stays : ∀ r later b c, r.Extends later → P r b c → P later b c) (as : List α)
    (each : ∀ a ∈ as, ∀ later left, r.Extends later → left.funcs = program.funcs →
      Follows total (f a) later left (g a) P) :
    Follows total (as.mapM f) r program (as.mapM g) fun later bs cs =>
      List.Forall₂ (P later) bs cs := by
  induction as generalizing r program with
  | nil => exact pure .nil
  | cons a rest ih =>
      rw [List.mapM_cons, List.mapM_cons]
      refine bind (each a (.head _) r program (.refl r) rfl)
        fun later left b c extended same _ first => ?_
      refine bind
        (ih fun x member last after extendedAgain sameAgain => each x (.tail _ member) last
        after (extended.trans extendedAgain) (sameAgain.trans same))
        fun last after bs cs extendedAgain _ _ others => ?_
      exact pure (.cons (stays _ _ _ _ extendedAgain first) others)

theorem forM {f : α → ProgramM PUnit} (as : List α)
    (each : ∀ a later left, Follows total (f a) later left (some ()) fun _ _ _ => True) :
    Follows total (as.forM f) r program (some ()) fun _ _ _ => True := by
  induction as generalizing r program with
  | nil => exact pure trivial
  | cons a rest ih => exact bind_some (each a r program) fun _ _ _ _ _ _ => ih

end Follows

end ReverseMode
