import ReverseMode.Proofs.Bounds.Checks
import ReverseMode.Proofs.Digest.Sha256

namespace ReverseMode

open Expr

section

variable {program : Program} {root : Expr}

theorem inferBoundsWith_fitting {hash : String → String} {r : Registry}
    (apart : program.TellsTextsApart hash root) (indexed : program.Indexed r root) :
    Achieves (inferBoundsWith hash root) r program fun later left domains =>
      left.funcs = program.funcs ∧ (∀ entry ∈ domains, later.HoldsDomain entry.2) ∧
        Fitting program root (spans domains) := by
  refine (inferBoundsWith_follows apart indexed False.elim).answers.mono
    fun later left domains _ answer => ⟨answer.1, ?_⟩
  obtain ⟨_, _, isBoxes, held, rfl⟩ := answer
  exact ⟨held, inferBoxes_fitting indexed.toStratified indexed.titled isBoxes⟩

theorem Fitting.reads_within {boxes : Boxes} (fitting : Fitting program root boxes)
    {caller key : StageKey} {declared : List String} {value : Expr} {args : List Expr}
    {box : List (Int × Int)} {env : Env} (place : program.Place root caller declared value)
    (called : program.CallsStage caller value args key) (known : boxes.place caller = some box)
    (inside : Inside declared box env) (axes : ∀ arg ∈ args, AxesInside arg env) :
    ∃ target, boxes key = some target ∧ Within target (args.map (Expr.integer env)) := by
  obtain ⟨box', known', lands⟩ := fitting.places caller declared value place
  rw [known] at known'
  cases known'
  obtain ⟨target, given, isTarget, isSpans, wider⟩ := lands args key called
  exact ⟨target, isTarget, wider.within (isSpans.within inside axes)⟩

/-- The inferred domains of stages that are called are the hulls of the calls in the final domains
of the places they stand in, in whatever order the walk met the calls. -/
theorem inferred_hulls {r : Registry} (apart : program.TellsTextsApart Sha256.hexDigest root)
    (fits : r.Fits program.supply) (indexed : program.Indexed r root)
    {domains : StageTable Domain} {left : Program}
    (run : (inferBounds root).run.run program = (.ok domains, left)) :
    Fitting program root (spans domains) := by
  obtain ⟨_, _, _, _, _, fitting⟩ := inferBoundsWith_fitting apart indexed fits domains left run
  exact fitting

end

/-!
`f` and the root read `g`, whose update reads its initial values one further. `g` is walked when `f`
is entered, and again when the root's own call widens its box.
-/

namespace Revisited

def x : Expr := .node 0 (.var "x" false) .int32 []

def one : Expr := .node 1 (.const (.int 1)) .int32 []

def next : Expr := .node 2 (.binary .add) .int32 [x, one]

def value : Expr := .node 3 .cast .float32 [x]

def here : Expr := .node 4 (.call (.func 1 "g")) .float32 [x]

def further : Expr := .node 5 (.call (.func 1 "g")) .float32 [next]

def sum : Expr := .node 6 (.binary .add) .float32 [here, further]

def zero : Expr := .node 7 (.const (.int 0)) .int32 []

def three : Expr := .node 8 (.const (.int 3)) .int32 []

def axis : Expr := .reduction 9 "r" 0 zero three

def five : Expr := .node 10 (.const (.int 5)) .int32 []

def readF : Expr := .node 11 (.call (.func 0 "f")) .float32 [axis]

def readG : Expr := .node 12 (.call (.func 1 "g")) .float32 [five]

def loss : Expr := .node 13 (.binary .add) .float32 [readF, readG]

def program : Program :=
  { funcs := #[{ name := "f", init := some ⟨[x], here⟩ },
      { name := "g", init := some ⟨[x], value⟩, updates := [⟨[x], sum⟩] }]
    supply := { nodes := 14 } }

def registry : Registry where
  node id := ([x, one, next, value, here, further, sum, zero, three, axis, five, readF, readG,
    loss][id]?).getD loss
  next := 14
  names := 0

theorem held {e : Expr} (member : e ∈ [x, next, axis, five]) : registry.Holds e := by
  simp only [List.mem_cons, List.not_mem_nil, or_false] at member
  rcases member with rfl | rfl | rfl | rfl <;>
    simp [Registry.Holds, Registry.IsRegistered, registry, Expr.id, x, one, next, axis, five]

theorem literal {e : Expr} (member : e ∈ [zero, three]) : registry.HoldsClosed e := by
  simp only [List.mem_cons, List.not_mem_nil, or_false] at member
  rcases member with rfl | rfl <;>
    exact ⟨by simp [Registry.Holds, Registry.IsRegistered, registry, Expr.id, zero, three], .int⟩

theorem holds_index {e : Expr} (member : e ∈ [x, next, axis, five]) : registry.HoldsIndex e := by
  have closed (id : NodeId) (c : Int) : Closed (.node id (.const (.int c)) .int32 []) := .int
  have bounds : registry.HoldsClosed zero ∧ registry.HoldsClosed three :=
    ⟨literal (by simp), literal (by simp)⟩
  refine ⟨held member, ?_, ?_⟩ <;>
    simp only [List.mem_cons, List.not_mem_nil, or_false] at member <;>
    rcases member with rfl | rfl | rfl | rfl <;>
    simp [Registry.BoundsHeld, x, next, one, axis, five, closed]
  rintro _ _ _ _ _ rfl rfl rfl rfl rfl
  exact bounds

theorem indexed : program.Indexed registry loss := by
  have ordered : program.Ordered [0, 1] := by decide
  have arguments : program.argumentsOf loss [0, 1] ⊆ [x, next, axis, five] := by
    change [axis, five, x, x, next] ⊆ _
    simp
  exact ordered.indexed (by decide) (by decide) fun arg member => holds_index (arguments member)

theorem hulls_of_revisited : ∃ domains left,
    (inferBounds loss).run.run program = (.ok domains, left) ∧
      spans domains ⟨"g", -1⟩ = some [(0, 6)] ∧ Fitting program loss (spans domains) := by
  have answers : ((inferBoundsBy (.watched Sha256.hexDigest .unreadStage) Inference.nestingLimit
      loss).run.run program).1.toOption.map (fun domains => spans domains ⟨"g", -1⟩) =
        some (some [(0, 6)]) := by
    rw [Sha256.hexDigest_eq]
    decide +kernel
  cases run : (inferBoundsBy (.watched Sha256.hexDigest .unreadStage) Inference.nestingLimit
      loss).run.run program with
  | mk result left =>
      rw [run] at answers
      cases result with
      | error => cases answers
      | ok domains =>
          have fits : registry.Fits program.supply := ⟨rfl, rfl⟩
          obtain ⟨apart, run⟩ := inferBounds_watched run
          exact ⟨domains, left, run, Option.some.inj answers,
            inferred_hulls apart fits indexed run⟩

end Revisited

end ReverseMode
