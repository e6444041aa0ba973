import ReverseMode.Proofs.Program.Redirection
import ReverseMode.Proofs.Program.Success

namespace ReverseMode

open Expr

def standIn (id copy callee : FuncId) : FuncId := if callee = id then copy else callee

theorem standIn_self {id copy : FuncId} : standIn id copy id = copy := if_pos rfl

theorem standIn_of_ne {id copy callee : FuncId} (other : callee ≠ id) :
    standIn id copy callee = callee := if_neg other

/-- The second expression is the first with calls of `id` going to `copy`. Nodes correspond as `R`
tells of their identities, and variables are the same. -/
inductive Mirrored (id copy : FuncId) (R : NodeId → NodeId → Prop) : Expr → Expr → Prop where
  | leaf {e : Expr} {name : String} : e.variableName? = some name → Mirrored id copy R e e
  | call {node node' : NodeId} {name name' : String} {dtype : DType}
      {operands operands' : List Expr} : R node node' →
      List.Forall₂ (Mirrored id copy R) operands operands' →
      Mirrored id copy R (.node node (.call (.func id name)) dtype operands)
        (.node node' (.call (.func copy name')) dtype operands')
  | node {node node' : NodeId} {head : Head} {dtype : DType} {operands operands' : List Expr} :
      R node node' → (∀ name, head ≠ .call (.func id name)) → (∀ name index, head ≠ .var name index) →
      List.Forall₂ (Mirrored id copy R) operands operands' →
      Mirrored id copy R (.node node head dtype operands) (.node node' head dtype operands')

theorem collectFree_operands {node : NodeId} {head : Head} {dtype : DType} {operands : List Expr}
    (plain : ∀ name index, head ≠ .var name index) (other : ¬ IsBinding head operands)
    {bound : List String} {seen : List Expr} :
    Expr.collectFree bound (.node node head dtype operands) seen =
      Expr.collectAllFree bound operands seen := by
  unfold Expr.collectFree
  split
  next same => cases same; exact absurd rfl (plain _ _)
  next same => cases same; exact absurd ⟨_, _, _, rfl, rfl⟩ other
  next same => cases same; rfl
  next same => cases same

namespace Mirrored

variable {id copy : FuncId} {R : NodeId → NodeId → Prop} {e e' : Expr}

theorem operands_induction {P : Expr → Expr → Prop} {operands operands' : List Expr}
    (below : List.Forall₂ (Mirrored id copy R) operands operands')
    (each : ∀ x ∈ operands, ∀ x', Mirrored id copy R x x' → P x x') :
    List.Forall₂ P operands operands' :=
  forall₂_imp_mem below fun x member x' _ mirrored => each x member x' mirrored

theorem mono {R' : NodeId → NodeId → Prop} (mirrored : Mirrored id copy R e e')
    (more : ∀ m n, R m n → R' m n) : Mirrored id copy R' e e' := by
  induction e using Expr.induction generalizing e' with
  | node node head dtype operands ih =>
      cases mirrored with
      | leaf named => exact .leaf named
      | call related below =>
          exact .call (more _ _ related) (operands_induction below fun x member x' => ih x member)
      | node related other plain below =>
          exact .node (more _ _ related) other plain
            (operands_induction below fun x member x' => ih x member)
  | reduction =>
      cases mirrored with
      | leaf named => exact .leaf named

theorem refl (free : ¬ e.Calls id) : Mirrored id copy Eq e e := by
  induction e using Expr.induction with
  | node node head dtype operands ih =>
      have below : List.Forall₂ (Mirrored id copy Eq) operands operands :=
        List.forall₂_same.2 fun x member =>
          ih x member fun called => free (called.sub (.operand member .here))
      by_cases isVariable : ∃ name index, head = .var name index
      · obtain ⟨name, index, rfl⟩ := isVariable
        exact .leaf rfl
      · refine .node rfl (fun name isCall => free (calls_node.2 (.inl ⟨name, isCall⟩)))
          (fun name index isVar => isVariable ⟨name, index, isVar⟩) below
  | reduction => exact .leaf rfl

theorem dtype (mirrored : Mirrored id copy R e e') : e'.dtype = e.dtype := by
  cases mirrored <;> rfl

theorem redirected (shaped : Shaped e) (mirrored : Mirrored id copy R e e') :
    Redirected id copy e e' := by
  induction e using Expr.induction generalizing e' with
  | node node head dtype operands ih =>
      have below {operands' : List Expr}
          (related : List.Forall₂ (Mirrored id copy R) operands operands') :
          List.Forall₂ (Redirected id copy) operands operands' :=
        operands_induction related fun x member x' => ih x member (shaped.operand member)
      cases mirrored with
      | leaf named =>
          cases head <;> cases named
          rw [shaped.operands_eq]
          exact .node (fun _ isCall => by cases isCall) .nil
      | call _ related => exact .call (below related)
      | node _ other _ related => exact .node other (below related)
  | reduction =>
      cases mirrored
      exact .axis

theorem collectAllFree {bound : List String} {operands operands' seen : List Expr}
    (related : List.Forall₂ (fun x x' => ∀ seen,
      Expr.collectFree bound x' seen = Expr.collectFree bound x seen) operands operands') :
    Expr.collectAllFree bound operands' seen = Expr.collectAllFree bound operands seen := by
  induction related generalizing seen with
  | nil => rfl
  | cons first _ ih => rw [Expr.collectAllFree, Expr.collectAllFree, first, ih]

theorem collectFree (mirrored : Mirrored id copy R e e') (bound : List String) (seen : List Expr) :
    Expr.collectFree bound e' seen = Expr.collectFree bound e seen := by
  induction e using Expr.induction generalizing e' bound seen with
  | node node head dtype operands ih =>
      cases mirrored with
      | leaf => rfl
      | call _ related =>
          exact collectAllFree (operands_induction related fun x member x' mirrored =>
            ih x member mirrored bound)
      | node _ _ plain related =>
          by_cases isBinding : IsBinding head operands
          · obtain ⟨name, value, body, rfl, rfl⟩ := isBinding
            obtain ⟨value', body', rfl, first, second⟩ := related_pair related
            rw [Expr.collectFree, Expr.collectFree, ih value (.head _) first,
              ih body (.tail _ (.head _)) second]
          · rw [collectFree_operands plain isBinding,
              collectFree_operands plain (mt (isBinding_of_related related) isBinding)]
            exact collectAllFree (operands_induction related fun x member x' mirrored =>
              ih x member mirrored bound)
  | reduction =>
      cases mirrored
      rfl

theorem freeVariables (mirrored : Mirrored id copy R e e') : e'.freeVariables = e.freeVariables :=
  mirrored.collectFree [] []

end Mirrored

theorem Expr.not_subnode_operand {node : NodeId} {head : Head} {dtype : DType} {operands : List Expr}
    {x : Expr} (member : x ∈ operands) : ¬ Subnode (.node node head dtype operands) x := by
  intro within
  have smaller := List.sizeOf_lt_of_mem member
  have larger := within.sizeOf_le
  simp only [Expr.node.sizeOf_spec] at larger
  omega

def TurnedInto (memo : RedirectionMemo) (m n : NodeId) : Prop := ∃ e : Expr, memo[m]? = some e ∧ e.id = n

structure Widens (es : List Expr) (memo later : RedirectionMemo) : Prop where
  kept : ∀ (m : NodeId) (e : Expr), memo[m]? = some e → later[m]? = some e
  added : ∀ (m : NodeId) (e : Expr), later[m]? = some e → memo[m]? = some e ∨
    ∃ x ∈ es, ∃ y, Subnode y x ∧ y.id = m

namespace Widens

variable {es es' : List Expr} {memo later last : RedirectionMemo}

theorem refl : Widens es memo memo := ⟨fun _ _ known => known, fun _ _ => .inl⟩

theorem mono (widens : Widens es memo later) (within : ∀ x ∈ es, ∃ y ∈ es', Subnode x y) :
    Widens es' memo later where
  kept := widens.kept
  added m e known := by
    refine (widens.added m e known).imp_right fun new => ?_
    obtain ⟨x, member, y, inside, same⟩ := new
    obtain ⟨z, isMember, below⟩ := within x member
    exact ⟨z, isMember, y, inside.trans below, same⟩

theorem trans (first : Widens es memo later) (second : Widens es later last) :
    Widens es memo last where
  kept m e known := second.kept m e (first.kept m e known)
  added m e known := (second.added m e known).elim (first.added m e) .inr

theorem turnedInto (widens : Widens es memo later) (m n : NodeId) :
    TurnedInto memo m n → TurnedInto later m n :=
  Exists.imp fun e => And.imp_left (widens.kept m e)

theorem insert {node e : Expr} (unknown : memo[node.id]? = none) :
    Widens [node] memo (memo.insert node.id e) where
  kept m known found := by
    rw [Std.TreeMap.getElem?_insert]
    split
    next same =>
      rw [compare_eq_iff_eq.1 same, found] at unknown
      cases unknown
    next => exact found
  added m known found := by
    rw [Std.TreeMap.getElem?_insert] at found
    split at found
    next same => exact .inr ⟨node, .head _, node, .here, compare_eq_iff_eq.1 same⟩
    next => exact .inl found

theorem unknown {r : Registry} {node : NodeId} {head : Head} {dtype : DType} {operands : List Expr}
    (widens : Widens operands memo later) (held : r.Holds (.node node head dtype operands))
    (unknown : memo[node]? = none) : later[node]? = none := by
  cases found : later[node]? with
  | none => rfl
  | some e =>
      exfalso
      rcases widens.added node e found with before | ⟨x, member, y, within, same⟩
      · rw [unknown] at before
        cases before
      · have isNode := ((held.operands x member).sub within).eq_of_id held same
        exact not_subnode_operand member (isNode ▸ within)

end Widens

/-- What is remembered mirrors nodes of a registry, of identities below `next`. Results are old nodes
or have later identities, and different nodes have different results. -/
structure Registry.Mirrors (r : Registry) (id copy : FuncId) (next : NodeId)
    (memo : RedirectionMemo) : Prop where
  mirrored : ∀ (m : NodeId) (e : Expr), memo[m]? = some e →
    r.Holds e ∧ Mirrored id copy (TurnedInto memo) (r.node m) e
  origin : ∀ (m : NodeId) (e : Expr), memo[m]? = some e → m < next ∧ (e.id = m ∨ next ≤ e.id)
  injective : ∀ (m n : NodeId) (e e' : Expr), memo[m]? = some e → memo[n]? = some e' →
    e.id = e'.id → m = n

structure Registry.Turns (r later : Registry) (id copy : FuncId) (memo : RedirectionMemo)
    (e result : Expr) : Prop where
  held : later.Holds result
  kept : result.id = e.id ∨ r.next ≤ result.id
  mirrored : Mirrored id copy (TurnedInto (memo.insert e.id result)) e result

namespace Registry.Mirrors

variable {r later : Registry} {id copy : FuncId} {next : NodeId} {memo : RedirectionMemo}

theorem biUnique (mirrors : r.Mirrors id copy next memo) : Relator.BiUnique (TurnedInto memo) := by
  constructor
  · rintro m n _ ⟨e, foundE, rfl⟩ ⟨e', foundE', same⟩
    exact mirrors.injective m n e e' foundE foundE' same.symm
  · rintro m _ _ ⟨e, foundE, rfl⟩ ⟨e', foundE', rfl⟩
    rw [Option.some.inj (foundE.symm.trans foundE')]

theorem empty : r.Mirrors id copy next {} where
  mirrored m e found := by simp at found
  origin m e found := by simp at found
  injective m n e e' found := by simp at found

theorem extend (mirrors : r.Mirrors id copy next memo) (extended : r.Extends later)
    (old : next ≤ r.next) : later.Mirrors id copy next memo where
  mirrored m e found := by
    obtain ⟨held, mirrored⟩ := mirrors.mirrored m e found
    rw [extended.node_eq m ((mirrors.origin m e found).1.trans_le old)]
    exact ⟨held.extend extended, mirrored⟩
  origin := mirrors.origin
  injective := mirrors.injective

theorem insert (mirrors : r.Mirrors id copy next memo) (extended : r.Extends later)
    (old : next ≤ r.next) {e e' : Expr} (held : later.Holds e) (below : e.id < next)
    (unknown : memo[e.id]? = none) (turns : r.Turns later id copy memo e e') :
    later.Mirrors id copy next (memo.insert e.id e') := by
  have widens : Widens [e] memo (memo.insert e.id e') := .insert unknown
  have entries (m : NodeId) (x : Expr) (found : (memo.insert e.id e')[m]? = some x) :
      m = e.id ∧ x = e' ∨ memo[m]? = some x := by
    rw [Std.TreeMap.getElem?_insert] at found
    split at found
    next same => exact .inl ⟨(compare_eq_iff_eq.1 same).symm, (Option.some.inj found).symm⟩
    next => exact .inr found
  have differ (m : NodeId) (x : Expr) (found : memo[m]? = some x) : x.id ≠ e'.id := by
    intro same
    obtain ⟨isOld, origin⟩ := mirrors.origin m x found
    have known := (mirrors.mirrored m x found).1.here.1
    rcases turns.kept with isKept | isNew
    · rcases origin with isNode | isNew
      · rw [← isKept, ← same, isNode, found] at unknown
        cases unknown
      · rw [same, isKept] at isNew
        exact Nat.not_lt.2 isNew below
    · rw [same] at known
      exact Nat.not_lt.2 isNew known
  refine ⟨fun m x found => ?_, fun m x found => ?_, fun m n x y found found' same => ?_⟩
  · rcases entries m x found with ⟨rfl, rfl⟩ | before
    · rw [held.here.2]
      exact ⟨turns.held, turns.mirrored⟩
    · obtain ⟨heldX, mirroredX⟩ := (mirrors.extend extended old).mirrored m x before
      exact ⟨heldX, mirroredX.mono widens.turnedInto⟩
  · rcases entries m x found with ⟨rfl, rfl⟩ | before
    · exact ⟨below, turns.kept.imp_right (old.trans ·)⟩
    · exact mirrors.origin m x before
  · rcases entries m x found with ⟨rfl, rfl⟩ | before <;>
      rcases entries n y found' with ⟨rfl, rfl⟩ | before'
    · rfl
    · exact absurd same.symm (differ n y before')
    · exact absurd same (differ m x before)
    · exact mirrors.injective m n x y before before' same

end Registry.Mirrors

theorem Succeeds.run_bind {σ α β : Type} {action : StateT σ ProgramM α}
    {rest : α → StateT σ ProgramM β} {state : σ} {r : Registry} {p : Program}
    {Q : Registry → Program → α × σ → Prop} {R : Registry → Program → β × σ → Prop}
    (first : Succeeds (action.run state) r p Q)
    (second : ∀ later left result, r.Extends later → Q later left result →
      Succeeds ((rest result.1).run result.2) later left R) :
    Succeeds ((action >>= rest).run state) r p R := by
  rw [StateT.run_bind]
  exact Succeeds.bind first second

theorem Succeeds.run_lift {σ α : Type} {action : ProgramM α} {state : σ} {r : Registry}
    {p : Program} {Q : Registry → Program → α → Prop} (succeeds : Succeeds action r p Q) :
    Succeeds ((liftM action : StateT σ ProgramM α).run state) r p fun later left result =>
      Q later left result.1 ∧ result.2 = state := by
  change Succeeds (action >>= fun a => Pure.pure (a, state)) r p _
  exact succeeds.bind fun _ _ _ _ answer => Succeeds.pure ⟨answer, rfl⟩

def CallsWith (id : FuncId) (count : Nat) (e : Expr) : Prop :=
  ∀ node name type operands, Subnode (.node node (.call (.func id name)) type operands) e →
    operands.length = count

theorem CallsWith.sub {id : FuncId} {count : Nat} {e x : Expr} (callsWith : CallsWith id count e)
    (within : Subnode x e) : CallsWith id count x :=
  fun node name type operands inside => callsWith node name type operands (inside.trans within)

def Retraces (name : String) (id copy : FuncId) (initial : Definition) (base : Registry)
    (e : Expr) : Prop :=
  ∀ (r : Registry) (p : Program) (memo : RedirectionMemo), base.Extends r →
    (p.func copy).init = some initial → r.Mirrors id copy base.next memo →
    Succeeds ((e.redirect name copy).run memo) r p fun later left result =>
      left.funcs = p.funcs ∧ later.Holds result.1 ∧
        Mirrored id copy (TurnedInto result.2) e result.1 ∧
        later.Mirrors id copy base.next result.2 ∧ Widens [e] memo result.2

section

variable {name : String} {id copy : FuncId} {initial : Definition} {base : Registry}

theorem redirectAll_mirrors {es : List Expr}
    (each : ∀ e ∈ es, Retraces name id copy initial base e) {r : Registry} {p : Program}
    {memo : RedirectionMemo} (extended : base.Extends r) (defined : (p.func copy).init = some initial)
    (mirrors : r.Mirrors id copy base.next memo) :
    Succeeds ((redirectAll name copy es).run memo) r p fun later left result =>
      left.funcs = p.funcs ∧ later.HoldsAll result.1 ∧
        List.Forall₂ (Mirrored id copy (TurnedInto result.2)) es result.1 ∧
        later.Mirrors id copy base.next result.2 ∧ Widens es memo result.2 := by
  induction es generalizing r p memo with
  | nil =>
      rw [redirectAll]
      exact Succeeds.pure ⟨rfl, .nil, .nil, mirrors, .refl⟩
  | cons e rest ih =>
      rw [redirectAll]
      refine Succeeds.run_bind (each e (.head _) r p memo extended defined mirrors)
        fun r1 p1 first ext1 answer => ?_
      obtain ⟨same1, heldFirst, mirrored, mirrors1, widens1⟩ := answer
      refine Succeeds.run_bind (ih (fun x member => each x (.tail _ member)) (extended.trans ext1)
        (by rw [func_eq_of_funcs same1, defined]) mirrors1)
        fun r2 p2 others ext2 answer => ?_
      obtain ⟨same2, heldOthers, related, mirrors2, widens2⟩ := answer
      exact Succeeds.pure ⟨same2.trans same1, .cons (heldFirst.extend ext2) heldOthers,
        .cons (mirrored.mono widens2.turnedInto) related, mirrors2,
        (widens1.mono fun x member => ⟨x, List.mem_cons.2 (.inl (List.mem_singleton.1 member)), .here⟩).trans
          (widens2.mono fun x member => ⟨x, .tail _ member, .here⟩)⟩

section

variable {r : Registry} {p : Program} {memo : RedirectionMemo} {node : NodeId} {head : Head}
  {dtype : DType} {operands operands' : List Expr}

theorem mirrored_insert {e : Expr} (unknown : memo[e.id]? = none)
    (related : List.Forall₂ (Mirrored id copy (TurnedInto memo)) operands operands') (result : Expr) :
    List.Forall₂ (Mirrored id copy (TurnedInto (memo.insert e.id result))) operands operands' := by
  have widens : Widens [e] memo (memo.insert e.id result) := .insert unknown
  exact Mirrored.operands_induction related fun x _ x' mirrored => mirrored.mono widens.turnedInto

theorem turnedInto_insert (memo : RedirectionMemo) (node : NodeId) (result : Expr) :
    TurnedInto (memo.insert node result) node result.id :=
  ⟨result, Std.TreeMap.getElem?_insert_self, rfl⟩

theorem rebuild_variable {R : Expr → Expr → Prop} {index : Bool}
    (shaped : Shaped (.node node (.var name index) dtype operands))
    (related : List.Forall₂ R operands operands') :
    rebuild (.node node (.var name index) dtype operands) operands' =
      pure (.node node (.var name index) dtype operands) := by
  obtain rfl := shaped.operands_eq
  obtain rfl := List.forall₂_nil_left_iff.1 related
  rfl

theorem rebuild_turns (held : r.Holds (.node node head dtype operands))
    (shaped : Shaped (.node node head dtype operands)) (other : ∀ name, head ≠ .call (.func id name))
    (heldOperands : r.HoldsAll operands')
    (related : List.Forall₂ (Mirrored id copy (TurnedInto memo)) operands operands')
    (unknown : memo[node]? = none) :
    Succeeds (liftM (rebuild (.node node head dtype operands) operands') : ProgramM Expr) r p
      fun later left result => left.funcs = p.funcs ∧
        r.Turns later id copy memo (.node node head dtype operands) result := by
  by_cases isVariable : ∃ name index, head = .var name index
  · obtain ⟨name, index, rfl⟩ := isVariable
    rw [rebuild_variable shaped related]
    exact Succeeds.builds (Builds.pure ⟨held, .inl rfl, .leaf rfl⟩)
  · refine (Succeeds.builds (Builds.rebuild_id held heldOperands
      related.length_eq.symm)).mono fun later left result _ made => ?_
    obtain ⟨same, ⟨heldResult, node', isResult⟩, kept⟩ := made
    refine ⟨same, heldResult, kept, ?_⟩
    have turned := turnedInto_insert memo node result
    have below := mirrored_insert (e := .node node head dtype operands) unknown related result
    rw [isResult] at turned below ⊢
    exact .node turned other (fun name index isVar => isVariable ⟨name, index, isVar⟩) below

theorem callFunc_turns (callsAs : CallsAs name id initial.value.dtype
      (.node node (.call (.func id name)) dtype operands))
    (callsWith : CallsWith id initial.args.length (.node node (.call (.func id name)) dtype operands))
    (defined : (p.func copy).init = some initial) (heldOperands : r.HoldsAll operands')
    (related : List.Forall₂ (Mirrored id copy (TurnedInto memo)) operands operands')
    (unknown : memo[node]? = none) :
    Succeeds (callFunc copy operands') r p fun later left result => left.funcs = p.funcs ∧
      r.Turns later id copy memo (.node node (.call (.func id name)) dtype operands) result := by
  have fitting := callsWith node name dtype operands .here
  rw [related.length_eq] at fitting
  refine (Succeeds.callFunc_id heldOperands defined fitting).mono
    fun later left result _ made => ?_
  obtain ⟨same, ⟨heldResult, node', isResult⟩, isNew⟩ := made
  refine ⟨same, heldResult, .inr isNew, ?_⟩
  have turned := turnedInto_insert memo node result
  have below := mirrored_insert (e := .node node (.call (.func id name)) dtype operands) unknown
    related result
  rw [isResult, ← (callsAs node id name dtype operands .here).2 rfl] at turned below ⊢
  exact .call turned below

end

theorem redirect_mirrors {e : Expr} (shaped : Shaped e)
    (callsAs : CallsAs name id initial.value.dtype e) (callsWith : CallsWith id initial.args.length e)
    (held : base.Holds e) : Retraces name id copy initial base e := by
  induction e using Expr.induction with
  | node node head type operands ih =>
      intro r p memo extended defined mirrors
      have each (x : Expr) (member : x ∈ operands) : Retraces name id copy initial base x :=
        ih x member (shaped.operand member) (callsAs.sub (.operand member .here))
          (callsWith.sub (.operand member .here)) (held.operands x member)
      rw [redirect]
      refine Succeeds.run_bind (Q := fun later left result => later = r ∧ left = p ∧
        result = (memo, memo)) (Succeeds.pure ⟨rfl, rfl, rfl⟩)
        fun r1 p1 result ext1 answer => ?_
      obtain ⟨sameR, sameP, isMemo⟩ := answer
      subst sameR sameP isMemo
      dsimp only
      split
      next known found =>
        obtain ⟨heldKnown, mirrored⟩ := mirrors.mirrored node known found
        have isNode : r1.node node = .node node head type operands := (held.extend extended).here.2
        rw [isNode] at mirrored
        exact Succeeds.pure ⟨rfl, heldKnown, mirrored, mirrors, .refl⟩
      next isUnknown =>
        have unknown : memo[node]? = none := Option.eq_none_iff_forall_ne_some.2 isUnknown
        refine Succeeds.run_bind (redirectAll_mirrors each extended defined mirrors)
          fun r2 p2 made ext2 answer => ?_
        obtain ⟨same2, heldOperands, related, mirrors2, widens2⟩ := answer
        have heldHere := held.extend (extended.trans ext2)
        have unknown2 := widens2.unknown heldHere unknown
        have rebuilt (other : ∀ name, head ≠ .call (.func id name)) :=
          rebuild_turns (p := p2) heldHere shaped other heldOperands related unknown2
        -- whatever the node is turned into is remembered
        have remembers (r3 : Registry) (p3 : Program) (result : Expr × RedirectionMemo)
            (ext3 : r2.Extends r3) (made3 : (p3.funcs = p2.funcs ∧ r2.Turns r3 id copy made.2
              (.node node head type operands) result.1) ∧ result.2 = made.2) :
            Succeeds ((do
              modify fun memo => memo.insert node result.1
              return result.1 : StateT RedirectionMemo ProgramM Expr).run result.2) r3 p3
              fun later left result => left.funcs = p1.funcs ∧ later.Holds result.1 ∧
                Mirrored id copy (TurnedInto result.2) (.node node head type operands) result.1 ∧
                later.Mirrors id copy base.next result.2 ∧
                Widens [.node node head type operands] memo result.2 := by
          obtain ⟨⟨same3, turns⟩, sameMemo⟩ := made3
          have below : Widens [.node node head type operands] memo made.2 :=
            widens2.mono fun x member => ⟨_, .head _, .operand member .here⟩
          refine Succeeds.pure ⟨same3.trans same2, turns.held, ?_⟩
          rw [sameMemo]
          exact ⟨turns.mirrored, mirrors2.insert ext3 (extended.trans ext2).next_le
            (heldHere.extend ext3) held.here.1 unknown2 turns, below.trans (.insert unknown2)⟩
        cases head with
        | call callee =>
            cases callee with
            | func callee other =>
                obtain ⟨isCallee, _⟩ := callsAs node callee other type operands .here
                dsimp only
                split
                next isName =>
                  obtain rfl := isName
                  obtain rfl := isCallee.1 rfl
                  exact Succeeds.run_bind (Succeeds.run_lift (callFunc_turns callsAs callsWith
                    (by rw [func_eq_of_funcs same2, defined]) heldOperands related unknown2))
                    remembers
                next notName =>
                  refine Succeeds.run_bind (Succeeds.run_lift (rebuilt fun name' same => ?_))
                    remembers
                  cases same
                  exact notName (isCallee.2 rfl)
            | image | primitive =>
                exact Succeeds.run_bind (Succeeds.run_lift (rebuilt fun _ same => by cases same))
                  remembers
        | const | var | cast | binary | select | letIn | other =>
            exact Succeeds.run_bind (Succeeds.run_lift (rebuilt fun _ same => by cases same))
              remembers
  | reduction node domain axis least extent =>
      intro r p memo extended defined mirrors
      rw [redirect]
      exact Succeeds.pure ⟨rfl, held.extend extended, .leaf rfl, mirrors, .refl⟩

theorem replaceCalls_mirrors {e : Expr} {p : Program} (shaped : Shaped e)
    (callsAs : CallsAs name id initial.value.dtype e) (callsWith : CallsWith id initial.args.length e)
    (held : base.Holds e) (defined : (p.func copy).init = some initial) :
    Succeeds (replaceCalls e name copy) base p fun later left e' => left.funcs = p.funcs ∧
      later.Holds e' ∧ ∃ R, Relator.BiUnique R ∧ Mirrored id copy R e e' := by
  unfold replaceCalls
  refine Succeeds.bind (redirect_mirrors shaped callsAs callsWith held base p {} (.refl base) defined
    .empty) fun r1 p1 result ext1 answer => ?_
  obtain ⟨same1, heldResult, mirrored, mirrors, _⟩ := answer
  exact Succeeds.pure ⟨same1, heldResult, _, mirrors.biUnique, mirrored⟩

end

end ReverseMode
