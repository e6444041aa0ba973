import ReverseMode.Proofs.Exact.Updates
import ReverseMode.Proofs.Program.Changes

namespace ReverseMode

namespace Program

theorem exactReads_of_funcs {p p' : Program} (same : p'.funcs = p.funcs) :
    p'.exactReads = p.exactReads := by
  have agrees : p.Agree p' fun _ => True :=
    ⟨fun f _ => func_eq_of_funcs same f, fun _ _ _ _ => trivial⟩
  exact funext fun _ => agrees.values_eq _ trivial

structure Settled (p : Program) (settled : FuncId → Prop) : Prop where
  below : ∀ id, settled id → id < p.funcs.size
  grounded : ∀ id, settled id → p.Grounded id
  needs : ∀ id, settled id → ∀ callee, (p.func id).Needs id callee → settled callee

namespace Settled

variable {p p' : Program} {settled changed : FuncId → Prop}

theorem agree (isSettled : p.Settled settled) (grows : p.Grows p' changed)
    (unchanged : ∀ id, settled id → ¬ changed id) : p.Agree p' settled where
  func_eq id inside := grows.func_eq id (isSettled.below id inside) (unchanged id inside)
  needs := isSettled.needs

theorem grows (isSettled : p.Settled settled) (grows : p.Grows p' changed)
    (unchanged : ∀ id, settled id → ¬ changed id) : p'.Settled settled where
  below id inside := (isSettled.below id inside).trans_le grows.size_le
  grounded id inside :=
    (isSettled.agree grows unchanged).grounded inside (isSettled.grounded id inside)
  needs id inside callee needed := by
    rw [(isSettled.agree grows unchanged).func_eq id inside] at needed
    exact isSettled.needs id inside callee needed

theorem exactReads_eq (isSettled : p.Settled settled) (grows : p.Grows p' changed)
    (unchanged : ∀ id, settled id → ¬ changed id) {id : FuncId} (inside : settled id) :
    p'.exactReads id = p.exactReads id :=
  (isSettled.agree grows unchanged).values_eq _ inside

theorem grounded_of_needs (isSettled : p.Settled settled) {id : FuncId}
    (defined : (p.func id).init.isSome)
    (needs : ∀ callee, (p.func id).Needs id callee → settled callee) : p.Grounded id :=
  .intro defined fun callee needed => isSettled.grounded callee (needs callee needed)

theorem insert (isSettled : p.Settled settled) {id : FuncId} (below : id < p.funcs.size)
    (defined : (p.func id).init.isSome)
    (needs : ∀ callee, (p.func id).Needs id callee → settled callee) :
    p.Settled fun x => settled x ∨ x = id where
  below x either := either.elim (isSettled.below x) fun same => same ▸ below
  grounded x either := either.elim (isSettled.grounded x) fun same =>
    same ▸ isSettled.grounded_of_needs defined needs
  needs x either callee needed := by
    rcases either with inside | rfl
    · exact .inl (isSettled.needs x inside callee needed)
    · exact .inl (needs callee needed)

end Settled

end Program

end ReverseMode
