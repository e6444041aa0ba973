import ReverseMode.Proofs.Derivative.Bookkeeping
import ReverseMode.Proofs.Digest.Sha256
import ReverseMode.Proofs.Program.Checks

namespace ReverseMode

open Expr

section

variable {program later : Program} {root : Expr} {settings : Differentiation}

namespace Program.Built

theorem preserve (built : program.Built root) (preserved : program.Preserves later) :
    later.Built root := by
  have home {f : FuncId} (isHome : later.Home root (some f)) : program.Home root (some f) :=
    (built.toLinked.home_iff preserved).1 isHome
  have func_eq {f : FuncId} (isHome : later.Home root (some f)) :=
    preserved.func_eq f (built.known f (home isHome)) not_false
  refine ⟨built.toLinked.preserve preserved, fun f isHome => ?_, fun f initial isHome defined => ?_⟩
  · rw [func_eq isHome]
    exact built.titled f (home isHome)
  · rw [func_eq isHome] at defined
    exact built.initial f initial (home isHome) defined

theorem enumerated (built : program.Built root) (preserved : program.Preserves later)
    {keys : List StageKey} (enumerated : program.Enumerated root keys) :
    later.Enumerated root keys := by
  have home_iff {f : FuncId} : later.Home root (some f) ↔ program.Home root (some f) :=
    built.toLinked.home_iff preserved
  have func_eq {f : FuncId} (isHome : program.Home root (some f)) :=
    preserved.func_eq f (built.known f isHome) not_false
  refine ⟨enumerated.nodup, fun key => (enumerated.mem_iff key).trans ?_, fun f isHome => ?_⟩
  · refine exists_congr fun f => ?_
    rw [home_iff]
    exact and_congr_right fun isHome => by rw [func_eq isHome]
  · have isHome := home_iff.1 isHome
    rw [func_eq isHome]
    exact enumerated.defined f isHome

theorem mem_keysOf (built : program.Built root) {keys : List StageKey}
    (enumerated : program.Enumerated root keys) {key : StageKey} :
    key ∈ program.keysOf (program.reachable root) ↔ key ∈ keys := by
  rw [enumerated.mem_iff, keysOf, List.mem_flatMap]
  refine exists_congr fun f => ?_
  rw [built.toLinked.mem_reachable]
  refine and_congr_right fun isHome => ?_
  obtain ⟨initial, defined⟩ := enumerated.defined f isHome
  exact Func.mem_keys defined

theorem serves (built : program.Built root) {keys : List StageKey}
    (enumerated : program.Enumerated root keys) {busy : List FuncId} {ctx : CallContext}
    {id : FuncId} (reads : ctx.Reads program root busy id) (final : List StageKey)
    (listed : 0 ≤ ctx.key.stage → ∃ f ∈ program.reachable root,
      ctx.key.name = (program.func f).name) :
    (program.ledger root final).Serves Fault.IsMissing program ctx id where
  known := built.known id reads.home
  timely _ _ _ _ _ _ := not_false
  stocked _ := (built.mem_keysOf enumerated).2
    ((enumerated.mem_iff _).2 ⟨id, reads.home, reads.stage⟩)
  listed _ inUpdate := by
    obtain ⟨f, isListed, isName⟩ := listed inUpdate
    refine List.lookup_isSome_iff.2 ⟨((program.func f).name, f), ?_, beq_iff_eq.2 isName⟩
    have paired := List.zip_map' (f := fun i => (program.func i).name) (g := fun i => i)
      (l := program.reachable root)
    rw [List.map_id'] at paired
    rw [ledger, List.mem_reverse, paired]
    exact List.mem_map.2 ⟨f, isListed, rfl⟩

theorem served (built : program.Built root) {domains : StageTable Domain}
    (enumerated : program.Enumerated root (domains.map Prod.fst)) :
    program.Served root Fault.IsMissing domains where
  known id listed := built.known id (built.toLinked.mem_reachable.1 listed)
  inDomains _ key member := (domains.isSome_find? key).2 ((built.mem_keysOf enumerated).1 member)
  atRoot id meets := by
    have reads : CallContext.root.Reads program root [] id := built.reads_of_root meets
    exact built.serves enumerated reads _ fun inUpdate => absurd inUpdate (by decide)
  atStage done f rest order walked entry left split args domain id meets := by
    have listed : f ∈ program.reachable root := order ▸ by simp
    have isHome := built.toLinked.mem_reachable.1 listed
    have isStage : entry ∈ (program.func f).stages := List.mem_reverse.1 (split ▸ by simp)
    have reads : CallContext.Reads ⟨(program.func f).key entry, args, domain⟩ program root [f] id :=
      built.reads_of_stage isHome (.head _) isStage meets
    exact built.serves enumerated reads _ fun _ => ⟨f, listed, rfl⟩

end Program.Built

/-- Every function that the root reaches is listed once and no other is. Where inference returns, it
has found the stages of these functions. No differentiation fails because a table has no entry. -/
theorem walks_agree (built : program.Built root)
    (rules : settings.rules.Sparing Fault.IsMissing) :
    (program.reachable root).Nodup ∧
    (∀ id, id ∈ program.reachable root ↔ program.Home root (some id)) ∧
    (∀ domains left, (inferBoundsWith settings.hash root).run.run program = (.ok domains, left) →
      (domains.map Prod.fst).Nodup ∧ ∀ key, key ∈ domains.map Prod.fst ↔
        ∃ id ∈ program.reachable root, (program.func id).HasStage key) ∧
    ((derivative settings root).run.run program).1 ≠ .error .missingStageEntry := by
  have infers : Sparing Fault.IsMissing program (inferBoundsWith settings.hash root) fun domains =>
      program.Enumerated root (domains.map Prod.fst) := inferBounds_keyed built
  refine ⟨built.toLinked.nodup_reachable, fun id => built.toLinked.mem_reachable,
    fun domains left run => ?_, fun failed => ?_⟩
  · obtain ⟨_, enumerated⟩ := (infers program (.of_funcs rfl) _ _ run).2 domains rfl
    refine ⟨enumerated.nodup, fun key => (enumerated.mem_iff key).trans ?_⟩
    exact exists_congr fun id => and_congr_left' built.toLinked.mem_reachable.symm
  · have sparing : Sparing Fault.IsMissing program (derivative settings root) Any :=
      derivative_sparing rules infers fun later domains preserved enumerated =>
        (built.preserve preserved).served (built.enumerated preserved enumerated)
    exact (sparing program (.of_funcs rfl) _ _ rfl).1 _ failed trivial

end

/-!
`g(x) = x`, then `f(x) = g(x) * x`, then `g(x) = g(x) + f(x)`: the functions call each other, and the
values of `x` are one node.
-/

namespace Mutual

def x : Expr := .node 0 (.var "x" true) .int32 []

def value : Expr := .node 1 .cast .float32 [x]

def readG : Expr := .node 2 (.call (.func 0 "g")) .float32 [x]

def product : Expr := .node 3 (.binary .mul) .float32 [readG, value]

def readF : Expr := .node 4 (.call (.func 1 "f")) .float32 [x]

def sum : Expr := .node 5 (.binary .add) .float32 [readG, readF]

def zero : Expr := .node 6 (.const (.int 0)) .int32 []

def loss : Expr := .node 7 (.call (.func 1 "f")) .float32 [zero]

def program : Program :=
  { funcs := #[{ name := "g", init := some ⟨[x], value⟩, updates := [⟨[x], sum⟩] },
      { name := "f", init := some ⟨[x], product⟩ }]
    supply := { nodes := 8 } }

theorem built : program.Built loss := by
  have encloses : program.Encloses loss [0, 1] := ⟨by decide, by decide⟩
  have isHome {f : FuncId} (home : program.Home loss (some f)) : f = 0 ∨ f = 1 := by
    simpa using encloses.home home f rfl
  have nodes : program.nodesOf loss [0, 1] =
      [loss, value, x, sum, readG, readF, product, readG, value, x] := rfl
  have known {home : Option FuncId} {y : Expr} (atHome : program.Home loss home)
      (standsIn : program.StandsIn loss home y) :
      y = loss ∨ y = value ∨ y = x ∨ y = sum ∨ y = readG ∨ y = readF ∨ y = product := by
    have member := encloses.mem_nodesOf atHome standsIn
    simp only [nodes, List.mem_cons, List.not_mem_nil, or_false] at member
    tauto
  refine ⟨⟨fun f home => ?_, fun f g home home' same => ?_, ?_, ?_⟩, fun f home => ?_, ?_⟩
  · rcases isHome home with rfl | rfl <;> decide
  · rcases isHome home with rfl | rfl <;> rcases isHome home' with rfl | rfl <;>
      first | rfl | exact absurd same (by decide)
  · exact fun home y f name atHome standsIn isCall => encloses.named atHome standsIn isCall
  · intro home home' y y' atHome atHome' standsIn standsIn' same
    rcases known atHome standsIn with rfl | rfl | rfl | rfl | rfl | rfl | rfl <;>
      rcases known atHome' standsIn' with rfl | rfl | rfl | rfl | rfl | rfl | rfl <;>
      first | rfl | cases same
  · rcases isHome home with rfl | rfl <;> decide
  · rintro f definition home isInitial ⟨call, outer, name, isCall⟩
    have isMet : (f, name) ∈ definition.value.met := mem_met.2 ⟨call, outer, isCall⟩
    have initials : value.met = [] ∧ product.met = [(0, "g")] := ⟨rfl, rfl⟩
    rcases isHome home with rfl | rfl <;> cases isInitial <;> simp [initials] at isMet

def settings : Differentiation := { rules := .standard }

/-- Inference returns in spite of the cycle, and what it finds are the stages of both functions. -/
theorem walks_agree_on_cycle : ∃ domains left,
    (inferBoundsWith settings.hash loss).run.run program = (.ok domains, left) ∧
      (∀ key, key ∈ domains.map Prod.fst ↔
        ∃ id ∈ program.reachable loss, (program.func id).HasStage key) ∧
      ((derivative settings loss).run.run program).1 ≠ .error .missingStageEntry := by
  have returns : ((inferBoundsWith settings.hash loss).run.run program).1.toOption.isSome := by
    rw [settings, Sha256.hexDigest_eq]
    decide +kernel
  have rules : settings.rules.Sparing Fault.IsMissing := DerivativeRules.standard_sparing
  obtain ⟨_, _, agree, spared⟩ := walks_agree built rules
  cases run : (inferBoundsWith settings.hash loss).run.run program with
  | mk result left =>
      rw [run] at returns
      cases result with
      | error => cases returns
      | ok domains => exact ⟨domains, left, rfl, (agree domains left run).2, spared⟩

end Mutual

end ReverseMode
