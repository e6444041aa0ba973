import ReverseMode.Proofs.Derivative.Bookkeeping
import ReverseMode.Proofs.Program.Checks

namespace ReverseMode

open Expr

section

variable {program : Program} {root : Expr} {settings : Differentiation}

theorem not_mem_of_sublist {α : Type} {a b : α} {before after : List α}
    (distinct : (before ++ a :: after).Nodup) (ordered : [a, b].Sublist (before ++ a :: after)) :
    b ∉ before := by
  obtain ⟨_, _, apart⟩ := List.nodup_append.1 distinct
  intro early
  obtain ⟨first, second, split, inBefore, inAfter⟩ := List.sublist_append_iff.1 ordered
  cases first with
  | nil =>
      rw [List.nil_append] at split
      subst split
      exact apart b early b (.tail _ ((List.cons_sublist_cons.1 inAfter).subset (.head _))) rfl
  | cons x others =>
      obtain ⟨rfl, _⟩ := List.cons.inj split
      exact apart _ (inBefore.subset (.head _)) _ (.head _) rfl

theorem not_complete (layered : program.Layered root) {done rest : List FuncId} {f callee : FuncId}
    (order : program.reachable root = done ++ f :: rest) {walked left : List (Int × Definition)}
    {entry : Int × Definition} (split : (program.func f).stages.reverse = walked ++ entry :: left)
    (meets : entry.2.value.Meets callee) :
    calledStage ((program.func f).key entry) (program.func callee) ∉
      program.keysOf done ++ (walked ++ [entry]).map (program.func f).key := by
  have isStage : entry ∈ (program.func f).stages := List.mem_reverse.1 (split ▸ by simp)
  have distinct : (done ++ f :: rest).Nodup := order ▸ program.nodup_reachable layered
  have listed : f ∈ program.reachable root := order ▸ by simp
  have isHome := (program.mem_reachable layered).1 listed
  have calleeHome := isHome.of_stage isStage meets
  have ofDone {key : StageKey} (isDone : key ∈ program.keysOf done) :
      ∃ id ∈ done, program.Home root (some id) ∧ (program.func id).name = key.name := by
    obtain ⟨id, member, isKey⟩ := List.mem_flatMap.1 isDone
    obtain ⟨_, _, rfl⟩ := List.mem_map.1 isKey
    exact ⟨id, member, (program.mem_reachable layered).1 (order ▸ List.mem_append_left _ member), rfl⟩
  intro isComplete
  unfold calledStage at isComplete
  split at isComplete
  next same =>
    rcases List.mem_append.1 isComplete with isDone | isWalked
    · obtain ⟨id, member, idHome, sameName⟩ := ofDone isDone
      have isSelf : id = f := layered.distinct id f idHome isHome (sameName.trans same.symm)
      exact (List.nodup_append.1 distinct).2.2 id member f (.head _) isSelf
    · -- stages are walked from the last one down
      obtain ⟨other, isWalked, sameKey⟩ := List.mem_map.1 isWalked
      have descending := split ▸ stages_descending (program.func f)
      have sameStage : other.1 = entry.1 - 1 := congrArg StageKey.stage sameKey
      rcases List.mem_append.1 isWalked with before | here
      · have less := (List.pairwise_append.1 descending).2.2 other before entry (.head _)
        omega
      · rw [List.mem_singleton.1 here] at sameStage
        omega
  next differs =>
    rcases List.mem_append.1 isComplete with isDone | isWalked
    · obtain ⟨id, member, idHome, sameName⟩ := ofDone isDone
      have isCallee : id = callee := layered.distinct id callee idHome calleeHome sameName
      have leads : program.Leads f callee :=
        ⟨fun same => differs (by rw [same]; rfl), entry, isStage, meets⟩
      exact not_mem_of_sublist distinct (order ▸ program.reachable_sorted layered listed leads)
        (isCallee ▸ member)
    · obtain ⟨_, _, sameKey⟩ := List.mem_map.1 isWalked
      exact differs (congrArg StageKey.name sameKey)

namespace Program.Layered

variable {later : Program}

theorem leads_of_preserves (layered : program.Layered root) (preserved : program.Preserves later)
    {f callee : FuncId} (isHome : program.Home root (some f)) (leads : later.Leads f callee) :
    program.Leads f callee ∧ program.Home root (some callee) := by
  unfold Leads at leads
  rw [preserved.func_eq f (layered.known f isHome) not_false] at leads
  obtain ⟨other, entry, isStage, meets⟩ := leads
  exact ⟨⟨other, entry, isStage, meets⟩, isHome.of_stage isStage meets⟩

theorem preserve (layered : program.Layered root) (preserved : program.Preserves later) :
    later.Layered root := by
  have linked := layered.linked.preserve preserved
  have home {h : Option FuncId} (isHome : later.Home root h) : program.Home root h :=
    (layered.linked.home_iff preserved).1 isHome
  have stands {h : Option FuncId} {x : Expr} (isHome : later.Home root h) :=
    layered.linked.standsIn_iff preserved (x := x) (home isHome)
  refine ⟨⟨⟨linked.known, fun f isHome cycle => ?_⟩, linked.distinct, linked.named⟩,
    linked.coherent, ?_⟩
  · have chain (g : FuncId) (reaches : Relation.TransGen later.Leads f g) :
        Relation.TransGen program.Leads f g ∧ program.Home root (some g) := by
      induction reaches with
      | single leads =>
          exact (layered.leads_of_preserves preserved (home isHome) leads).imp_left .single
      | tail _ leads ih =>
          exact (layered.leads_of_preserves preserved ih.2 leads).imp_left ih.1.tail
    exact layered.acyclic f (home isHome) (chain f cycle).1
  · exact fun f h x isHome isHome' standsX standsX' => layered.apart f h x (home isHome)
      (home isHome') ((stands isHome).1 standsX) ((stands isHome').1 standsX')

theorem served (layered : program.Layered root) (domains : StageTable Domain) :
    program.Served root Fault.IsLate domains where
  known id listed := layered.known id ((program.mem_reachable layered).1 listed)
  inDomains := False.elim
  atRoot id meets :=
    ⟨layered.known id (.of_root meets), fun complete => (nomatch complete), False.elim, False.elim⟩
  atStage done f rest order walked entry left split args domain id meets := by
    have isHome := (program.mem_reachable layered).1 (order ▸ by simp : f ∈ program.reachable root)
    have isStage : entry ∈ (program.func f).stages := List.mem_reverse.1 (split ▸ by simp)
    exact ⟨layered.known id (isHome.of_stage isStage meets),
      fun complete => absurd complete (not_complete layered order split meets), False.elim, False.elim⟩

end Program.Layered

/-- In a layered program every function is listed before the other functions its stages meet, and
no contribution comes too late. -/
theorem consumers_first (layered : program.Layered root) (rules : settings.rules.Steady) :
    (∀ id callee, id ∈ program.reachable root → program.Leads id callee →
      [id, callee].Sublist (program.reachable root)) ∧
    NotLate ((derivative settings root).run.run program).1 := by
  refine ⟨fun id callee => program.reachable_sorted layered, ?_⟩
  have sparing : Sparing Fault.IsLate program (derivative settings root) Any :=
    derivative_sparing rules (inferBounds_sparing root False.elim) fun later domains preserved _ =>
      (layered.preserve preserved).served domains
  exact (sparing program (.of_funcs rfl) _ _ rfl).1

end

theorem DerivativeRules.standard_steady : DerivativeRules.standard.Steady :=
  DerivativeRules.standard_sparing

/-!
`g(x) = x`, then `g(x) = g(x) + x`, and `f(x) = g(x) * x`, where the calls of `g` are one node and
the values of `x` are.
-/

namespace SharedReads

def x : Expr := .node 0 (.var "x" true) .int32 []

def value : Expr := .node 1 .cast .float32 [x]

def read : Expr := .node 2 (.call (.func 0 "g")) .float32 [x]

def sum : Expr := .node 3 (.binary .add) .float32 [read, value]

def product : Expr := .node 4 (.binary .mul) .float32 [read, value]

def loss : Expr :=
  .node 5 (.call (.func 1 "f")) .float32 [.node 6 (.const (.int 0)) .int32 []]

def program : Program :=
  { funcs := #[{ name := "g", init := some ⟨[x], value⟩, updates := [⟨[x], sum⟩] },
      { name := "f", init := some ⟨[x], product⟩ }]
    supply := { nodes := 7 } }

theorem callsHere {y : Expr} {f : FuncId} (calls : y.CallsHere f)
    (known : y = loss ∨ y = sum ∨ y = product ∨ y = read ∨ y = value ∨ y = x) :
    f = 0 ∧ y = read ∨ f = 1 ∧ y = loss := by
  obtain ⟨name, isCall⟩ := calls
  rcases known with rfl | rfl | rfl | rfl | rfl | rfl <;> cases isCall
  · exact .inr ⟨rfl, rfl⟩
  · exact .inl ⟨rfl, rfl⟩

theorem stages {f : FuncId} {entry : Int × Definition} :
    entry ∈ (program.func f).stages ↔
      f = 0 ∧ (entry = (-1, ⟨[x], value⟩) ∨ entry = (0, ⟨[x], sum⟩)) ∨
        f = 1 ∧ entry = (-1, ⟨[x], product⟩) := by
  match f with
  | 0 => simp [program, Program.func, Func.stages]
  | 1 => simp [program, Program.func, Func.stages]
  | f + 2 =>
      have none : (program.func (f + 2)).stages = [] := rfl
      simp [none]

theorem stands {home : Option FuncId} {y : Expr} (standsIn : program.StandsIn loss home y) :
    home = none ∧ y = loss ∨ home = some 0 ∧ (y = sum ∨ y = read ∨ y = value ∨ y = x) ∨
      home = some 1 ∧ (y = product ∨ y = read ∨ y = value ∨ y = x) := by
  cases home with
  | none => exact .inl ⟨rfl, List.mem_singleton.1 (mem_outers.2 standsIn)⟩
  | some f =>
      obtain ⟨entry, isStage, outer⟩ := standsIn
      have inside := mem_outers.2 outer
      rcases stages.1 isStage with ⟨rfl, rfl | rfl⟩ | ⟨rfl, rfl⟩
      · have nodes : value.outers = [value, x] := rfl
        rw [nodes, List.mem_pair] at inside
        exact .inr (.inl ⟨rfl, .inr (.inr inside)⟩)
      · have nodes : sum.outers = [sum, read, value, x] := rfl
        exact .inr (.inl ⟨rfl, by simpa [nodes] using inside⟩)
      · have nodes : product.outers = [product, read, value, x] := rfl
        exact .inr (.inr ⟨rfl, by simpa [nodes] using inside⟩)

theorem meets {home : Option FuncId} {y : Expr} {f : FuncId}
    (standsIn : program.StandsIn loss home y) (meets : y.Meets f) :
    home = none ∧ f = 1 ∨ (home = some 0 ∨ home = some 1) ∧ f = 0 := by
  obtain ⟨call, outer, calls⟩ := meets
  have place := stands (standsIn.outer outer)
  rcases callsHere calls (by tauto) with ⟨rfl, rfl⟩ | ⟨rfl, rfl⟩
  · rcases place with ⟨_, same⟩ | ⟨rfl, _⟩ | ⟨rfl, _⟩
    · cases same
    · exact .inr ⟨.inl rfl, rfl⟩
    · exact .inr ⟨.inr rfl, rfl⟩
  · rcases place with ⟨rfl, _⟩ | ⟨_, same⟩ | ⟨_, same⟩
    · exact .inl ⟨rfl, rfl⟩
    · rcases same with same | same | same | same <;> cases same
    · rcases same with same | same | same | same <;> cases same

theorem layered : program.Layered loss := by
  have known {home : Option FuncId} {y : Expr} (standsIn : program.StandsIn loss home y) :
      y = loss ∨ y = sum ∨ y = product ∨ y = read ∨ y = value ∨ y = x := by
    have := stands standsIn
    tauto
  have ordered : program.Ordered [1, 0] := by decide
  have fromRoot : program.MeetsAmong [1, 0] loss := by decide
  refine ⟨ordered.stratified fromRoot, ?_, ?_⟩
  · intro home home' y y' _ _ standsIn standsIn' same
    rcases known standsIn with rfl | rfl | rfl | rfl | rfl | rfl <;>
      rcases known standsIn' with rfl | rfl | rfl | rfl | rfl | rfl <;>
      first | rfl | cases same
  · intro f home y _ _ own standsIn met noCall
    rcases meets own met with ⟨none, _⟩ | ⟨_, rfl⟩
    · cases none
    have notValue : y ≠ value := by
      rintro rfl
      obtain ⟨call, outer, name, isCall⟩ := met
      rcases List.mem_pair.1 (mem_outers.2 outer) with rfl | rfl <;> cases isCall
    have notX : y ≠ x := by
      rintro rfl
      obtain ⟨call, outer, name, isCall⟩ := met
      obtain rfl := List.mem_singleton.1 (mem_outers.2 outer)
      cases isCall
    have isSum : y = sum := by
      rcases stands own with ⟨none, _⟩ | ⟨_, rfl | rfl | same | same⟩ | ⟨one, _⟩
      · cases none
      · rfl
      · exact absurd ⟨"g", rfl⟩ noCall
      · exact absurd same notValue
      · exact absurd same notX
      · cases one
    subst isSum
    rcases stands standsIn with ⟨_, same⟩ | ⟨here, _⟩ | ⟨_, same | same | same | same⟩
    · cases same
    · exact here
    all_goals cases same

def settings : Differentiation := { rules := .standard }

/-- `f` is listed before `g`, which it shares nodes with, and nothing comes too late. -/
theorem ordered_and_timely :
    1 ∈ program.reachable loss ∧ program.Leads 1 0 ∧
      [1, 0].Sublist (program.reachable loss) ∧
      NotLate ((derivative settings loss).run.run program).1 := by
  have isHome : program.Home loss (some 1) := .call .root (.here) ⟨"f", rfl⟩
  have listed : 1 ∈ program.reachable loss := (program.mem_reachable layered).2 isHome
  have led : program.Leads 1 0 :=
    ⟨by decide, (-1, ⟨[x], product⟩), stages.2 (.inr ⟨rfl, rfl⟩), read,
      mem_outers.1 (.tail _ (.head _)), "g", rfl⟩
  have steady : settings.rules.Steady := DerivativeRules.standard_steady
  have ordered := ReverseMode.consumers_first layered steady
  exact ⟨listed, led, ordered.1 1 0 listed led, ordered.2⟩

end SharedReads

end ReverseMode
