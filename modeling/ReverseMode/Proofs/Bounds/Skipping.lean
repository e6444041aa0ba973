import ReverseMode.Proofs.Bounds.Coverage

namespace ReverseMode

section

variable {program : Program} {root : Expr} {base : Registry}

theorem spans_of_follows {infer : ProgramM (StageTable Domain)} (fits : base.Fits program.supply)
    (follows : Follows True infer base program (program.inferBoxes root) fun later domains boxes =>
      (∀ entry ∈ domains, later.HoldsDomain entry.2) ∧ spans domains = boxes) :
    (infer.run.run program).1.toOption.map spans = program.inferBoxes root := by
  cases run : infer.run.run program with
  | mk result left =>
      cases result with
      | error fault => exact (follows.fails fits trivial fault left run).symm
      | ok domains =>
          obtain ⟨_, _, _, _, boxes, isBoxes, _, rfl⟩ := follows.answers fits domains left run
          exact isBoxes.symm

/-- Inference and the walk that enters every function at every call both fail or find the same
domains. -/
theorem skipping_changes_nothing (apart : program.TellsTextsApart Sha256.hexDigest root)
    (fits : base.Fits program.supply) (indexed : program.Indexed base root)
    (room : ∀ id, root.Meets id → program.Shallow Inference.nestingLimit id) :
    ((inferBounds root).run.run program).1.toOption.map spans =
      ((inferBoundsBy .never Inference.nestingLimit root).run.run program).1.toOption.map
        spans := by
  rw [inferBounds, spans_of_follows fits (inferBoundsWith_follows apart indexed fun _ => room),
    spans_of_follows fits (inferBounds_follows Skipping.never_sound indexed fun _ => room)]

end

/-! The root reads `g` twice at one index, and `g` is skipped the second time. -/

namespace Repeated

open Revisited

def twice : Expr := .node 13 (.binary .add) .float32 [readG, readG]

theorem indexed : program.Indexed registry twice := by
  have ordered : program.Ordered [1] := by decide
  have arguments : program.argumentsOf twice [1] ⊆ [x, next, axis, five] := by
    change [five, five, x, next] ⊆ _
    simp
  exact ordered.indexed (by decide) (by decide) fun arg member => holds_index (arguments member)

theorem spans_of_twice :
    ((inferBounds twice).run.run program).1.toOption.map spans =
        ((inferBoundsBy .never Inference.nestingLimit twice).run.run program).1.toOption.map spans ∧
      ((inferBounds twice).run.run program).1.toOption.map (fun domains =>
        spans domains ⟨"g", -1⟩) = some (some [(5, 6)]) := by
  have answers : ((inferBoundsBy (.watched Sha256.hexDigest .unreadStage) Inference.nestingLimit
      twice).run.run program).1.toOption.map (fun domains => spans domains ⟨"g", -1⟩) =
        some (some [(5, 6)]) := by
    rw [Sha256.hexDigest_eq]
    decide +kernel
  cases run : (inferBoundsBy (.watched Sha256.hexDigest .unreadStage) Inference.nestingLimit
      twice).run.run program with
  | mk result left =>
      rw [run] at answers
      cases result with
      | error => cases answers
      | ok domains =>
          obtain ⟨apart, infers⟩ := inferBounds_watched run
          refine ⟨skipping_changes_nothing apart ⟨rfl, rfl⟩ indexed fun id met =>
            indexed.shallow (.of_root met) (by decide), ?_⟩
          rw [inferBounds, infers]
          exact answers

end Repeated

end ReverseMode
