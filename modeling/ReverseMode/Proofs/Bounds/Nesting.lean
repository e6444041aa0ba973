import ReverseMode.Proofs.Bounds.Confined
import ReverseMode.Proofs.Digest.Sha256
import ReverseMode.Proofs.Program.Steady

/-!
# Inference ends

Inference enters functions from within each other. Where they do not call each other in cycles, those
that are entered at one time are different functions, whatever the bounds are and whichever functions
are skipped. In a cycle, a function is entered again as long as its box grows: this ends where no
call leaves given boxes, and where there are no such boxes every round may widen the next one.
-/

namespace ReverseMode

/-- What keeps functions from being entered deeper than the limit: there are no cycles of calls, or
no call leaves given boxes. -/
inductive Program.Limited (program : Program) (root : Expr) (limit : Nat) : Prop where
  | acyclic : program.Acyclic root → program.funcs.size ≤ limit → Limited program root limit
  | confined {base : Registry} {rooms : Boxes} {keys : List StageKey} : base.Fits program.supply →
      program.Confined base root rooms → (∀ key, (rooms key).isSome → key ∈ keys) →
      StageTable.changesLeft rooms keys [] ≤ limit → Limited program root limit

section

variable {program : Program} {root : Expr} {limit : Nat}

theorem Program.Acyclic.spares_nesting (isAcyclic : program.Acyclic root)
    (hash : String → String) (room : program.funcs.size ≤ limit) :
    Spares Fault.IsNesting ((inferBoundsBy (.unchanged hash) limit root).run.run program).1 := by
  have sparing : Sparing Fault.IsNesting program (inferBoundsBy (.unchanged hash) limit root) _ :=
    inferBoundsBy_sparing root fun _ _ meets => isAcyclic.shallow (.of_root meets) room
  exact (sparing program (.of_funcs rfl) _ _ rfl).1

/-- Inference ends with domains or with a fault of the program, and not because functions nest too
deep, if the limit is as high as the program requires. -/
theorem inference_ends (hash : String → String) (limited : program.Limited root limit) :
    (∃ domains, ((inferBoundsBy (.unchanged hash) limit root).run.run program).1 = .ok domains) ∨
      ∃ fault, ((inferBoundsBy (.unchanged hash) limit root).run.run program).1 = .error fault ∧
        ¬ fault.IsNesting := by
  cases run : (inferBoundsBy (.unchanged hash) limit root).run.run program with
  | mk result left =>
      cases result with
      | ok domains => exact .inl ⟨domains, rfl⟩
      | error fault =>
          refine .inr ⟨fault, rfl, ?_⟩
          cases limited with
          | acyclic isAcyclic room =>
              exact isAcyclic.spares_nesting hash room fault (by rw [run])
          | confined fits confined listed enough =>
              have follows :=
                inferBounds_confined (Skipping.unchanged_sharp hash) confined listed enough
              cases follows.fails fits trivial fault left run

end

/-!
The update of `f` reads `g`, which reads `f` at `5`. The root reads `f` from `0` to `2`, so that both are
entered again after `g` was entered first.
-/

namespace Returning

open Revisited

def readFive : Expr := .node 12 (.call (.func 0 "f")) .float32 [five]

def returning : Program :=
  { funcs := #[{ name := "f", init := some ⟨[x], value⟩, updates := [⟨[x], here⟩] },
      { name := "g", init := some ⟨[x], readFive⟩ }]
    supply := { nodes := 14 } }

def stages : List StageKey := [⟨"f", 0⟩, ⟨"f", -1⟩, ⟨"g", -1⟩]

def rooms : Boxes := fun key => if key ∈ stages then some [(0, 5)] else none

theorem rooms_eq_some {key : StageKey} {room : List (Int × Int)} (isRoom : rooms key = some room) :
    key ∈ stages ∧ room = [(0, 5)] := by
  unfold rooms at isRoom
  split at isRoom
  next listed => exact ⟨listed, (Option.some.inj isRoom).symm⟩
  next => cases isRoom

theorem encloses : returning.Encloses readF [0, 1] := ⟨by decide, by decide⟩

theorem populated {e : Expr} (member : e ∈ [axis, x, five]) : e.Populated := by
  simp only [List.mem_cons, List.not_mem_nil, or_false] at member
  rcases member with rfl | rfl | rfl
  · refine Expr.every_reduction.2 ?_
    rintro _ _ _ _ _ ⟨⟩
    decide
  · simp [Expr.Populated, x]
  · simp [Expr.Populated, five]

theorem confined : returning.Confined registry readF rooms where
  titled id isHome := by
    have titled : ∀ id ∈ [0, 1], (returning.func id).name ≠ "" := by decide
    exact titled id (encloses.home isHome id rfl)
  defined id isHome := by
    have defined : ∀ id ∈ [0, 1], (returning.func id).init.isSome := by decide
    exact defined id (encloses.home isHome id rfl)
  indices home y id name isHome stands isCall arg isArg := by
    have listed : arg ∈ [axis, x, five] := encloses.mem_argumentsOf isHome stands isCall isArg
    have among : [axis, x, five] ⊆ [x, next, axis, five] := by simp
    exact ⟨holds_index (among listed), populated listed⟩
  places caller declared body place := by
    have listed : (caller, declared, body) ∈ [(CallContext.root.key, [], readF),
        (⟨"f", -1⟩, ["x"], value), (⟨"f", 0⟩, ["x"], here), (⟨"g", -1⟩, ["x"], readFive)] :=
      encloses.mem_placesOf place
    simp only [List.mem_cons, Prod.mk.injEq, List.not_mem_nil, or_false] at listed
    have lands {caller : StageKey} {declared : List String} {box : List (Int × Int)} {body : Expr}
        (each : ∀ call ∈ body.calls, LandsCall returning rooms ⟨caller, declared, box⟩ call) :
        Lands returning rooms caller declared box body :=
      (@lands_iff_calls _ _ ⟨caller, declared, box⟩ _).2 each
    rcases listed with ⟨rfl, rfl, rfl⟩ | ⟨rfl, rfl, rfl⟩ | ⟨rfl, rfl, rfl⟩ | ⟨rfl, rfl, rfl⟩
    · refine ⟨[], rfl, lands (List.forall_mem_singleton.2 ⟨[(0, 5)], [(0, 2)], rfl, ?_, ?_⟩)⟩
      · exact spans_iff_mapM.1 rfl
      · exact .cons ⟨by decide, by decide⟩ .nil
    · exact ⟨[(0, 5)], rfl, lands fun _ absurd => nomatch absurd⟩
    · refine ⟨[(0, 5)], rfl, lands (List.forall_mem_singleton.2 ⟨[(0, 5)], [(0, 5)], rfl, ?_, ?_⟩)⟩
      · exact spans_iff_mapM.1 rfl
      · exact .refl _
    · refine ⟨[(0, 5)], rfl, lands (List.forall_mem_singleton.2 ⟨[(0, 5)], [(5, 5)], rfl, ?_, ?_⟩)⟩
      · exact spans_iff_mapM.1 rfl
      · exact .cons ⟨by decide, by decide⟩ .nil
  inherits id stage _ inner outer isInner isOuter := by
    rw [(rooms_eq_some isInner).2, (rooms_eq_some isOuter).2]
    exact .refl _

theorem limited : returning.Limited readF 21 :=
  .confined ⟨rfl, rfl⟩ confined (fun key isSome => by
    obtain ⟨room, isRoom⟩ := Option.isSome_iff_exists.1 isSome
    exact (rooms_eq_some isRoom).1) (by decide)

def skips : Skipping := .unchanged Sha256.hexDigest

/-- Without cycles as many functions nest as there are; in the cycle the boxes come to rest. -/
theorem ends_with_and_without_cycle :
    ((∃ domains, ((inferBoundsBy skips 2 loss).run.run program).1 = .ok domains) ∨
      ∃ fault, ((inferBoundsBy skips 2 loss).run.run program).1 = .error fault ∧
        ¬ fault.IsNesting) ∧
    ((∃ domains, ((inferBoundsBy skips 21 readF).run.run returning).1 = .ok domains) ∨
      ∃ fault, ((inferBoundsBy skips 21 readF).run.run returning).1 = .error fault ∧
        ¬ fault.IsNesting) ∧
    ((inferBoundsBy skips 21 readF).run.run returning).1.toOption.map
      (fun domains => spans domains ⟨"f", -1⟩) = some (some [(0, 5)]) := by
  refine ⟨inference_ends _ (.acyclic indexed.toAcyclic (by decide)), inference_ends _ limited, ?_⟩
  rw [skips, Sha256.hexDigest_eq]
  decide +kernel

def readNext : Expr := .node 12 (.call (.func 0 "f")) .float32 [next]

def drifting : Program :=
  { returning with funcs := #[returning.func 0, { name := "g", init := some ⟨[x], readNext⟩ }] }

-- there are no boxes that no call leaves
example : (match ((inferBoundsBy skips 12 readF).run.run drifting).1 with
    | .error fault => (fault matches .nestingTooDeep)
    | .ok _ => false) = true := by
  rw [skips, Sha256.hexDigest_eq]
  decide +kernel

end Returning

end ReverseMode
