import ReverseMode.Proofs.Nodes.Following
import ReverseMode.Proofs.Program.Changes

namespace ReverseMode

/-- Where the registry fits, the action answers, and the program that is left and the answer have the
property. -/
def Succeeds {α : Type} (action : ProgramM α) (r : Registry) (program : Program)
    (Q : Registry → Program → α → Prop) : Prop :=
  r.Fits program.supply → ∃ a left later, action.run.run program = (.ok a, left) ∧
    r.Extends later ∧ later.Fits left.supply ∧ Q later left a

namespace Succeeds

variable {α β γ : Type} {r : Registry} {program : Program} {Q : Registry → Program → α → Prop}
  {R : Registry → Program → β → Prop}

theorem pure {a : α} (answer : Q r program a) : Succeeds (Pure.pure a) r program Q :=
  fun fits => ⟨a, program, r, rfl, .refl r, fits, answer⟩

theorem bind {action : ProgramM α} {rest : α → ProgramM β} (first : Succeeds action r program Q)
    (second : ∀ later left a, r.Extends later → Q later left a → Succeeds (rest a) later left R) :
    Succeeds (action >>= rest) r program R := by
  intro fits
  obtain ⟨a, left, later, run, extended, fitsLater, answer⟩ := first fits
  obtain ⟨b, last, final, runAgain, extendedAgain, fitsFinal, done⟩ :=
    second later left a extended answer fitsLater
  refine ⟨b, last, final, ?_, extended.trans extendedAgain, fitsFinal, done⟩
  rw [ExceptT.run_bind, StateT.run_bind, run]
  exact runAgain

theorem mono {action : ProgramM α} {Q' : Registry → Program → α → Prop}
    (succeeds : Succeeds action r program Q)
    (implies : ∀ later left a, r.Extends later → Q later left a → Q' later left a) :
    Succeeds action r program Q' := by
  intro fits
  obtain ⟨a, left, later, run, extended, fitsLater, answer⟩ := succeeds fits
  exact ⟨a, left, later, run, extended, fitsLater, implies later left a extended answer⟩

theorem achieves {action : ProgramM α} (succeeds : Succeeds action r program Q) :
    Achieves action r program Q := by
  intro fits a left run
  obtain ⟨a', left', later, run', extended, fits', answer⟩ := succeeds fits
  rw [run] at run'
  cases run'
  exact ⟨later, extended, fits', answer⟩

theorem ofAchieves {action : ProgramM α} (achieved : Achieves action r program Q)
    (answers : ∃ a left, action.run.run program = (.ok a, left)) : Succeeds action r program Q := by
  intro fits
  obtain ⟨a, left, run⟩ := answers
  obtain ⟨later, extended, fitsLater, answer⟩ := achieved fits a left run
  exact ⟨a, left, later, run, extended, fitsLater, answer⟩

theorem ofFollows {action : ProgramM α} {b : β} {P : Registry → α → β → Prop}
    (follows : Follows True action r program (some b) P) :
    Succeeds action r program fun later left a => left.funcs = program.funcs ∧ P later a b := by
  intro fits
  obtain ⟨a, left, _, run, _⟩ := follows.answers_of_total fits
  exact ofAchieves follows.achieves ⟨a, left, run⟩ fits

theorem builds {action : NodeM α} {P : Registry → α → Prop} (built : Builds action r P) :
    Succeeds (liftM action : ProgramM α) r program fun later left a =>
      left.funcs = program.funcs ∧ P later a :=
  ofAchieves (Achieves.builds built) ⟨_, _, rfl⟩

theorem mapM {f : α → ProgramM β} {P : Registry → α → β → Prop}
    (stays : ∀ r later a b, r.Extends later → P r a b → P later a b) (as : List α)
    (each : ∀ a ∈ as, ∀ later left, r.Extends later → left.funcs = program.funcs →
      Succeeds (f a) later left fun last after b => after.funcs = left.funcs ∧ P last a b) :
    Succeeds (as.mapM f) r program fun later left bs =>
      left.funcs = program.funcs ∧ List.Forall₂ (P later) as bs := by
  induction as generalizing r program with
  | nil => exact pure ⟨rfl, .nil⟩
  | cons a rest ih =>
      rw [List.mapM_cons]
      refine bind (each a (.head _) r program (.refl r) rfl) fun later left b extended first => ?_
      refine bind (ih fun x member last after extendedAgain same => each x (.tail _ member) last
        after (extended.trans extendedAgain) (same.trans first.1))
        fun last after bs extendedAgain others => ?_
      exact pure ⟨others.1.trans first.1, .cons (stays _ _ _ _ extendedAgain first.2) others.2⟩

variable {id : FuncId}

theorem getFunc : Succeeds (getFunc id) r program fun later left f =>
    later = r ∧ left = program ∧ f = program.func id :=
  fun fits => ⟨_, program, r, rfl, .refl r, fits, rfl, rfl, rfl⟩

theorem ofExcept {result : Except Fault α} {a : α} (isOk : result = .ok a) :
    Succeeds (liftM result : ProgramM α) r program fun later left b =>
      later = r ∧ left = program ∧ b = a := by
  subst isOk
  exact fun fits => ⟨a, program, r, rfl, .refl r, fits, rfl, rfl, rfl⟩

theorem declareFunc {name : String} (named : name ≠ "") :
    Succeeds (declareFunc (some name)) r program fun later left id =>
      later = r ∧ id = program.funcs.size ∧ left.funcs = program.funcs.push { name } :=
  ofAchieves (declareFunc_sound named) ⟨_, _, rfl⟩

theorem setFunc {f : Func} : Succeeds (setFunc id f) r program fun later left _ => later = r ∧
    left.funcs = program.funcs.setIfInBounds id f :=
  ofAchieves setFunc_sound ⟨_, _, rfl⟩

theorem callFunc_id {args : List Expr} {initial : Definition} (held : r.HoldsAll args)
    (defined : (program.func id).init = some initial) (fitting : args.length = initial.args.length) :
    Succeeds (callFunc id args) r program fun later left e => left.funcs = program.funcs ∧
      later.Has (.call (.func id (program.func id).name)) initial.value.dtype args e ∧
        r.next ≤ e.id := by
  unfold ReverseMode.callFunc callFuncWith
  refine bind getFunc fun r0 p0 f _ ⟨sameR, sameP, sameF⟩ => ?_
  subst sameR sameP sameF
  rw [defined]
  dsimp only
  rw [if_neg (by simpa using fitting), toExprs_map]
  exact builds (Builds.new_id held)

theorem callFunc {args : List Expr} {initial : Definition} (held : r.HoldsAll args)
    (defined : (program.func id).init = some initial) (fitting : args.length = initial.args.length) :
    Succeeds (callFunc id args) r program fun later left e => left.funcs = program.funcs ∧
      later.Has (.call (.func id (program.func id).name)) initial.value.dtype args e :=
  (callFunc_id held defined fitting).mono fun _ _ _ _ made => made.imp_right And.left

theorem checkPure_ok {name : String} {seen : List String} {args : List Expr}
    (pure : ∀ a ∈ args, a.isPureVariable = true) (distinct : (args.map Expr.name).Nodup)
    (unseen : ∀ a ∈ args, a.name ∉ seen) : checkPure name seen args = .ok () := by
  induction args generalizing seen with
  | nil => rfl
  | cons a rest ih =>
      obtain ⟨isPure, others⟩ := List.forall_mem_cons.1 pure
      obtain ⟨fresh, unseenRest⟩ := List.forall_mem_cons.1 unseen
      rw [List.map_cons, List.nodup_cons] at distinct
      rw [checkPure, isPure, if_neg (by simp), if_neg (by simpa using fresh)]
      refine ih others distinct.2 fun b member repeated => ?_
      rcases List.mem_cons.1 repeated with same | earlier
      · exact distinct.1 (same ▸ List.mem_map_of_mem member)
      · exact unseenRest b member earlier

theorem define_initial {args : List Expr} {value : Expr} (undefined : (program.func id).init = none)
    (pure : ∀ a ∈ args, a.isPureVariable = true) (distinct : (args.map Expr.name).Nodup) :
    Succeeds (define id args value) r program fun later left _ => later = r ∧
      left.funcs = program.funcs.setIfInBounds id
        { program.func id with init := some ⟨args, value⟩ } := by
  unfold define
  refine bind getFunc fun r0 p0 f _ ⟨sameR, sameP, sameF⟩ => ?_
  subst sameR sameP sameF
  rw [undefined]
  have checked : checkPure (p0.func id).name [] args = .ok () :=
    checkPure_ok pure distinct fun _ _ => List.not_mem_nil
  refine bind (ofExcept checked) fun r1 p1 _ _ ⟨sameR, sameP, _⟩ => ?_
  subst sameR sameP
  exact setFunc

end Succeeds

end ReverseMode
