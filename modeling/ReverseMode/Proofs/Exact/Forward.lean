import ReverseMode.Bounds.Inference
import ReverseMode.Proofs.Exact.Sensitivity
import ReverseMode.Proofs.Exact.Updates
import ReverseMode.Proofs.Program.Reached

namespace ReverseMode

open Expr

/-- An infinitesimal added to what a stage of a function stores at an index. -/
def bumpAt (id : FuncId) (stage : Int) (index : List Int) : Bump (DualNumber ℚ) :=
  fun id' stage' index' =>
    if id' = id ∧ stage' = stage ∧ index' = index then DualNumber.eps else 0

theorem standard_bumpAt (id : FuncId) (stage : Int) (index : List Int) :
    (fun id' stage' index' => standard (bumpAt id stage index id' stage' index')) =
      fun _ _ _ => 0 := by
  funext id' stage' index'
  unfold bumpAt
  split
  · exact DualNumber.fst_eps
  · rfl

theorem snd_bumpAt (id : FuncId) (stage : Int) (index : List Int) (id' : FuncId) (stage' : Int)
    (index' : List Int) : (bumpAt id stage index id' stage' index').snd =
      if id' = id ∧ stage' = stage ∧ index' = index then 1 else 0 := by
  unfold bumpAt
  split
  · exact DualNumber.snd_eps
  · rfl

namespace Program

section

variable {α : Type} [Scalar α]

noncomputable def stored (p : Program) (bump : Bump α) (id : FuncId) (stage : Int) : Grid α :=
  (p.func id).after id (p.values bump) (bump id) (stage + 1).toNat

noncomputable def readsAt (p : Program) (bump : Bump α) (caller : StageKey) : Reads α := fun id =>
  p.stored bump id (calledStage caller (p.func id)).stage

variable {p : Program} {bump : Bump α} {id : FuncId} {stage : Int} {d : Definition}

theorem readsAt_other {caller : StageKey} (grounded : p.Grounded id)
    (other : caller.name ≠ (p.func id).name) : p.readsAt bump caller id = p.values bump id := by
  have last : (calledStage caller (p.func id)).stage = (p.func id).lastStage := by
    rw [calledStage, if_neg other]
  have all : ((p.func id).lastStage + 1).toNat = (p.func id).updates.length := by
    unfold Func.lastStage
    omega
  rw [readsAt, last, stored, all, grounded.values_eq bump]
  rfl

theorem readsAt_self : p.readsAt bump ⟨(p.func id).name, stage⟩ id = p.stored bump id (stage - 1) := by
  rw [readsAt, calledStage, if_pos rfl]

def ReadsOthers (p : Program) (id : FuncId) (e : Expr) : Prop :=
  ∀ callee, e.Calls callee → callee ≠ id →
    p.Grounded callee ∧ (p.func id).name ≠ (p.func callee).name

theorem exact_readsAt {e : Expr} (others : p.ReadsOthers id e) (env : Env) :
    exact (p.readsAt bump ⟨(p.func id).name, stage⟩).answers env e =
      exact (Reads.answers (Function.update (p.values bump) id (p.stored bump id (stage - 1)))) env
        e := by
  refine exact_congr_reads e (fun _ _ => rfl) fun callee called => ?_
  by_cases isSelf : callee = id
  · rw [isSelf, Function.update_self, readsAt_self]
  · rw [Function.update_of_ne isSelf, readsAt_other (others callee called isSelf).1
      (others callee called isSelf).2]

theorem stored_initial (isInitial : (p.func id).init = some d) (others : p.ReadsOthers id d.value)
    (notSelf : ¬ d.value.Calls id) (index : List Int) :
    p.stored bump id (-1) index =
      exact (p.readsAt bump ⟨(p.func id).name, -1⟩).answers
        (assign (p.func id).declared index zeroEnv) d.value + bump id (-1) index := by
  have same : exact (p.values bump).answers (assign (p.func id).declared index zeroEnv) d.value =
      exact (p.readsAt bump ⟨(p.func id).name, -1⟩).answers
        (assign (p.func id).declared index zeroEnv) d.value := by
    rw [exact_readsAt others]
    refine exact_congr_reads _ (fun _ _ => rfl) fun callee called => ?_
    rw [Function.update_of_ne (ne_of_called notSelf called)]
  rw [← same]
  change (p.func id).initialGrid (p.values bump) index + _ = _
  rw [Func.initialGrid, isInitial]

theorem stored_update {n : Nat} (isUpdate : (p.func id).updates[n]? = some d) (index : List Int) :
    p.stored bump id n index = runUpdate (p.values bump) id (p.func id).declared d
      (p.stored bump id (n - 1)) index + bump id n index := by
  have here : ((n : Int) + 1).toNat = n + 1 := by omega
  have before : ((n : Int) - 1 + 1).toNat = n := by omega
  rw [stored, stored, here, before, Func.after, isUpdate]

theorem stored_once (isStage : (stage, d) ∈ (p.func id).stages) (others : p.ReadsOthers id d.value)
    (notSelf : stage = -1 → ¬ d.value.Calls id) (once : stage = -1 ∨ d.scope = [])
    (index : List Int) : p.stored bump id stage index =
      exact (p.readsAt bump ⟨(p.func id).name, stage⟩).answers
        (assign (p.func id).declared index zeroEnv) d.value + bump id stage index := by
  obtain ⟨initial, isInitial, ⟨rfl, rfl⟩ | ⟨n, rfl, isUpdate⟩⟩ := mem_stages.1 isStage
  · exact stored_initial isInitial others (notSelf rfl) index
  · have noScope := once.resolve_left (by omega)
    rw [stored_update isUpdate, runUpdate_once noScope, exact_readsAt others]

theorem stored_add {e : Expr} {n : Nat} (isUpdate : (p.func id).updates[n]? = some d)
    (adds : AddsTo id (p.func id).declared d e) (others : p.ReadsOthers id e)
    (distinct : (p.func id).declared.Nodup)
    (apart : ∀ name ∈ (p.func id).declared, name ∉ d.scope.names) {index : List Int}
    (sameLength : index.length = (p.func id).declared.length) :
    p.stored bump id n index = p.stored bump id (n - 1) index +
      (d.scope.points.map fun point => exact (p.readsAt bump ⟨(p.func id).name, n⟩).answers
        (assign d.scope.names point (assign (p.func id).declared index zeroEnv)) e).sum +
      bump id n index := by
  have same (env : Env) : exact (p.readsAt bump ⟨(p.func id).name, n⟩).answers env e =
      exact (p.values bump).answers env e := by
    rw [exact_readsAt others]
    refine exact_congr_reads _ (fun _ _ => rfl) fun callee called => ?_
    rw [Function.update_of_ne (ne_of_called adds.other called)]
  simp only [same]
  rw [stored_update isUpdate, runUpdate_points adds distinct apart _ sameLength]

theorem standard_stored (grounded : p.Grounded id) (index : List Int) :
    standard (p.stored bump id stage index) =
      p.stored (fun id stage index => standard (bump id stage index)) id stage index := by
  have same (n : Nat) : (p.func id).after id
        (fun callee index => standard (p.values bump callee index))
        (fun stage index => standard (bump id stage index)) n =
      (p.func id).after id (p.values fun id stage index => standard (bump id stage index))
        (fun stage index => standard (bump id stage index)) n := by
    refine after_congr (fun callee needed => ?_) n
    cases grounded with
    | intro _ below =>
        funext index
        exact (below callee needed).standard_values bump index
  rw [stored, standard_after, same]
  rfl

end

section

variable {p : Program} {caller : StageKey}

/-- The infinitesimal part of a value, where calls read the stages that they call. -/
noncomputable def tangent (p : Program) (bump : Bump (DualNumber ℚ)) (caller : StageKey) (env : Env)
    (e : Expr) : ℚ := (exact (p.readsAt bump caller).answers env e).snd

noncomputable def ratReads (p : Program) (caller : StageKey) : Reads ℚ :=
  p.readsAt (fun _ _ _ => 0) caller

theorem fst_readsAt {id : FuncId} {bump : Bump (DualNumber ℚ)} (grounded : p.Grounded id)
    (infinitesimal : (fun id stage index => standard (bump id stage index)) = fun _ _ _ => 0)
    (index : List Int) :
    standard (p.readsAt bump caller id index) = p.ratReads caller id index := by
  rw [readsAt, standard_stored grounded, infinitesimal]
  rfl

theorem fst_exact {bump : Bump (DualNumber ℚ)} {e : Expr}
    (grounded : ∀ callee, e.Calls callee → p.Grounded callee)
    (infinitesimal : (fun id stage index => standard (bump id stage index)) = fun _ _ _ => 0)
    (env : Env) : (exact (p.readsAt bump caller).answers env e).fst =
      exact (p.ratReads caller).answers env e := by
  refine (standard_exact (p.readsAt bump caller) env e).trans ?_
  refine exact_congr_reads e (fun _ _ => rfl) fun callee called => ?_
  funext index
  exact fst_readsAt (grounded callee called) infinitesimal index

theorem tangent_chain {bump : Bump (DualNumber ℚ)} {x : Expr} {env : Env} (plain : Plain x)
    (grounded : ∀ callee, x.Calls callee → p.Grounded callee)
    (infinitesimal : (fun id stage index => standard (bump id stage index)) = fun _ _ _ => 0)
    (noCall : ∀ id name, x.callee? ≠ some (.func id name))
    (smooth : Smooth (p.ratReads caller).answers env.scalars x) :
    p.tangent bump caller env x =
      ((slopes (p.ratReads caller).answers env.scalars [] x).map fun (c, slope) =>
        slope * p.tangent bump caller env c).sum := by
  cases x with
  | reduction id domain axis least extent =>
      simp [tangent, slopes]
  | node id head dtype operands =>
      have isPlain := plain.here
      rw [tangent, exact_node isPlain.2]
      refine snd_headExact isPlain smooth (fun x member => ?_) (fun name index _ => ?_)
        fun callee isCall args => ?_
      · exact fst_exact (fun callee called => grounded callee (called.sub (.operand member .here)))
          infinitesimal env
      · simp [Env.scalars]
      · cases callee with
        | func id name => exact absurd (by rw [isCall]; rfl) (noCall id name)
        | image source => rfl
        | primitive name => rfl

theorem tangent_call {bump : Bump (DualNumber ℚ)} {x : Expr} {id : FuncId} {name : String}
    (isCall : x.callee? = some (.func id name)) {S : String → Prop} {K : Bool → Prop}
    (isIndex : ∀ a ∈ x.operands, Index S K a) (env : Env) :
    p.tangent bump caller env x =
      (p.stored bump id (calledStage caller (p.func id)).stage
        (x.operands.map (Expr.integer env))).snd := by
  cases x with
  | reduction => cases isCall
  | node node head dtype operands =>
      cases head with
      | call callee =>
          cases isCall
          have arguments : (operands.map (exact (p.readsAt bump caller).answers env)).map
              (wholePart ∘ (standard : DualNumber ℚ → ℚ)) = operands.map (Expr.integer env) := by
            rw [List.map_map]
            refine List.map_congr_left fun a member => ?_
            rw [Function.comp_apply, (isIndex a member).exact]
            exact (wholePart_standard _).trans (wholePart_intCast _)
          rw [tangent, exact_node (by simp), headExact, Reads.answers, List.map_map, arguments]
          rfl
      | _ => cases isCall

end

end Program

end ReverseMode
