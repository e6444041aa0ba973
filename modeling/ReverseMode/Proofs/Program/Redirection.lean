import ReverseMode.Proofs.Derivative.Masks
import ReverseMode.Proofs.Nodes.Substitution
import ReverseMode.Proofs.Program.Changes

namespace ReverseMode

open Expr

inductive Redirected (id target : FuncId) : Expr → Expr → Prop where
  | axis {node : NodeId} {domain : String} {axis : Nat} {least extent : Expr} :
      Redirected id target (.reduction node domain axis least extent)
        (.reduction node domain axis least extent)
  | call {node node' : NodeId} {name name' : String} {dtype : DType}
      {operands operands' : List Expr} : List.Forall₂ (Redirected id target) operands operands' →
      Redirected id target (.node node (.call (.func id name)) dtype operands)
        (.node node' (.call (.func target name')) dtype operands')
  | node {node node' : NodeId} {head : Head} {dtype : DType} {operands operands' : List Expr} :
      (∀ name, head ≠ .call (.func id name)) →
      List.Forall₂ (Redirected id target) operands operands' →
      Redirected id target (.node node head dtype operands) (.node node' head dtype operands')

def CallsAs (name : String) (id : FuncId) (dtype : DType) (e : Expr) : Prop :=
  ∀ node callee other type operands,
    Subnode (.node node (.call (.func callee other)) type operands) e →
    (other = name ↔ callee = id) ∧ (callee = id → type = dtype)

theorem CallsAs.sub {name : String} {id : FuncId} {dtype : DType} {e x : Expr}
    (callsAs : CallsAs name id dtype e) (within : Subnode x e) : CallsAs name id dtype x :=
  fun node callee other type operands inside =>
    callsAs node callee other type operands (inside.trans within)

def Registry.RemembersRedirected (r : Registry) (id target : FuncId) (memo : RedirectionMemo) :
    Prop :=
  ∀ node e, memo[node]? = some e → node < r.next ∧ Redirected id target (r.node node) e ∧ r.Holds e

theorem Registry.RemembersRedirected.extend {r later : Registry} {id target : FuncId}
    {memo : RedirectionMemo} (remembers : r.RemembersRedirected id target memo)
    (extended : r.Extends later) : later.RemembersRedirected id target memo := by
  intro node e known
  obtain ⟨old, redirected, held⟩ := remembers node e known
  refine ⟨lt_of_lt_of_le old extended.next_le, ?_, held.extend extended⟩
  rw [extended.node_eq node old]
  exact redirected

theorem Registry.RemembersRedirected.insert {r : Registry} {id target : FuncId}
    {memo : RedirectionMemo} (remembers : r.RemembersRedirected id target memo) {e e' : Expr}
    (held : r.Holds e) (heldResult : r.Holds e') (redirected : Redirected id target e e') :
    r.RemembersRedirected id target (memo.insert e.id e') := by
  intro node known found
  rw [Std.TreeMap.getElem?_insert] at found
  split at found
  next same =>
    rw [← compare_eq_iff_eq.1 same, held.here.2]
    cases found
    exact ⟨held.here.1, redirected, heldResult⟩
  next => exact remembers node known found

theorem Achieves.run_bind {σ α β : Type} {action : StateT σ ProgramM α}
    {rest : α → StateT σ ProgramM β} {state : σ} {r : Registry} {p : Program}
    {Q : Registry → Program → α × σ → Prop} {R : Registry → Program → β × σ → Prop}
    (first : Achieves (action.run state) r p Q)
    (second : ∀ later left result, r.Extends later → Q later left result →
      Achieves ((rest result.1).run result.2) later left R) :
    Achieves ((action >>= rest).run state) r p R := by
  rw [StateT.run_bind]
  exact Achieves.bind first second

theorem Achieves.run_lift {σ α : Type} {action : ProgramM α} {state : σ} {r : Registry}
    {p : Program} {Q : Registry → Program → α → Prop} (achieved : Achieves action r p Q) :
    Achieves ((liftM action : StateT σ ProgramM α).run state) r p fun later left result =>
      Q later left result.1 ∧ result.2 = state := by
  change Achieves (action >>= fun a => Pure.pure (a, state)) r p _
  exact achieved.bind fun _ _ _ _ answer => Achieves.pure ⟨answer, rfl⟩

def Redirects (name : String) (id target : FuncId) (dtype : DType) (e : Expr) : Prop :=
  ∀ (r : Registry) (p : Program) (memo : RedirectionMemo), r.Holds e →
    (∀ initial, (p.func target).init = some initial → initial.value.dtype = dtype) →
    r.RemembersRedirected id target memo →
    Achieves ((e.redirect name target).run memo) r p fun later left result =>
      left.funcs = p.funcs ∧ later.Holds result.1 ∧ Redirected id target e result.1 ∧
        later.RemembersRedirected id target result.2

theorem redirectAll_sound {name : String} {id target : FuncId} {dtype : DType} {es : List Expr}
    (each : ∀ e ∈ es, Redirects name id target dtype e) {r : Registry} {p : Program}
    {memo : RedirectionMemo} (held : r.HoldsAll es)
    (typed : ∀ initial, (p.func target).init = some initial → initial.value.dtype = dtype)
    (remembers : r.RemembersRedirected id target memo) :
    Achieves ((redirectAll name target es).run memo) r p fun later left result =>
      left.funcs = p.funcs ∧ later.HoldsAll result.1 ∧
        List.Forall₂ (Redirected id target) es result.1 ∧
        later.RemembersRedirected id target result.2 := by
  induction es generalizing r p memo with
  | nil =>
      rw [redirectAll]
      exact Achieves.pure ⟨rfl, .nil, .nil, remembers⟩
  | cons e rest ih =>
      rw [redirectAll]
      obtain ⟨heldFirst, heldRest⟩ := List.forall_mem_cons.1 held
      refine Achieves.run_bind (each e (.head _) r p memo heldFirst typed remembers)
        fun r1 p1 first ext1 ⟨same1, heldResult, redirected, remembers1⟩ => ?_
      refine Achieves.run_bind (ih (fun x member => each x (.tail _ member))
        (Registry.HoldsAll.extend heldRest ext1) (by rwa [func_eq_of_funcs same1]) remembers1)
        fun r2 p2 others ext2 ⟨same2, heldOthers, related, remembers2⟩ => ?_
      exact Achieves.pure ⟨same2.trans same1, .cons (heldResult.extend ext2) heldOthers,
        .cons redirected related, remembers2⟩

theorem redirect_sound {name : String} {id target : FuncId} {dtype : DType} {e : Expr}
    (plain : Plain e) (callsAs : CallsAs name id dtype e) : Redirects name id target dtype e := by
  induction e using Expr.induction with
  | node node head type operands ih =>
      intro r p memo held typed remembers
      have each (x : Expr) (member : x ∈ operands) := ih x member (plain.operand member)
        (callsAs.sub (.operand member .here))
      rw [redirect]
      refine Achieves.run_bind (Q := fun later left result => later = r ∧ left = p ∧
        result = (memo, memo)) (Achieves.pure ⟨rfl, rfl, rfl⟩)
        fun r1 p1 result ext1 ⟨sameR, sameP, isMemo⟩ => ?_
      subst sameR sameP isMemo
      dsimp only
      split
      next known found =>
        obtain ⟨old, redirected, heldKnown⟩ := remembers node known found
        have isNode : r1.node node = .node node head type operands := held.here.2
        rw [isNode] at redirected
        exact Achieves.pure ⟨rfl, heldKnown, redirected, remembers⟩
      next unknown =>
        refine Achieves.run_bind (redirectAll_sound each held.operands typed remembers)
          fun r2 p2 made ext2 ⟨same2, heldOperands, related, remembers2⟩ => ?_
        -- Whatever the node becomes is remembered for it.
        have continues (r3 : Registry) (p3 : Program) (made3 : Expr × RedirectionMemo)
            (ext3 : r2.Extends r3) (made3' : (p3.funcs = p2.funcs ∧ r3.Holds made3.1 ∧
              Redirected id target (.node node head type operands) made3.1) ∧ made3.2 = made.2) :
            Achieves ((do
              modify fun memo => memo.insert node made3.1
              return made3.1 : StateT RedirectionMemo ProgramM Expr).run made3.2) r3 p3
              fun later left result => left.funcs = p1.funcs ∧ later.Holds result.1 ∧
                Redirected id target (.node node head type operands) result.1 ∧
                later.RemembersRedirected id target result.2 := by
          obtain ⟨⟨same3, heldResult, redirected⟩, sameMemo⟩ := made3'
          refine Achieves.pure ⟨same3.trans same2, heldResult, redirected, ?_⟩
          rw [sameMemo]
          exact (remembers2.extend ext3).insert (held.extend (ext2.trans ext3)) heldResult redirected
        have rebuilds (other : ∀ name, head ≠ .call (.func id name)) :
            Achieves (liftM (rebuild (.node node head type operands) made.1) : ProgramM Expr) r2 p2
              fun later left result => left.funcs = p2.funcs ∧ later.Holds result ∧
                Redirected id target (.node node head type operands) result := by
          refine (Achieves.builds (Builds.rebuild (held.extend ext2) heldOperands
            related.length_eq.symm)).mono fun r3 p3 result _ made3 => ?_
          obtain ⟨same3, heldResult, node', rfl⟩ := made3
          exact ⟨same3, heldResult, .node other related⟩
        -- The calls of this name are those of `id`, and they have the type that the new ones have.
        have calls (isName : ∃ callee other, head = .call (.func callee other) ∧ other = name) :
            Achieves (callFunc target made.1) r2 p2 fun later left result =>
              left.funcs = p2.funcs ∧ later.Holds result ∧
                Redirected id target (.node node head type operands) result := by
          obtain ⟨callee, other, rfl, rfl⟩ := isName
          obtain ⟨isCallee, isType⟩ := callsAs node callee other type operands .here
          obtain rfl := isCallee.1 rfl
          refine (callFunc_sound heldOperands).mono fun r3 p3 result _ made3 => ?_
          obtain ⟨same3, initial, defined, _, heldResult, node', rfl⟩ := made3
          rw [func_eq_of_funcs same2] at defined
          refine ⟨same3, heldResult, ?_⟩
          rw [typed initial defined, ← isType rfl]
          exact .call related
        cases head with
        | call callee =>
            cases callee with
            | func callee other =>
                dsimp only
                split
                next isName =>
                  exact Achieves.run_bind (Achieves.run_lift (calls ⟨callee, other, rfl, isName⟩))
                    continues
                next notName =>
                  refine Achieves.run_bind (Achieves.run_lift (rebuilds fun name' same => ?_))
                    continues
                  cases same
                  exact notName ((callsAs node id _ type operands .here).1.2 rfl)
            | image | primitive =>
                exact Achieves.run_bind (Achieves.run_lift (rebuilds fun _ same => nomatch same))
                  continues
        | const | var | cast | binary | select | letIn | other =>
            exact Achieves.run_bind (Achieves.run_lift (rebuilds fun _ same => nomatch same))
              continues
  | reduction node domain axis least extent =>
      intro r p memo held typed remembers
      rw [redirect]
      exact Achieves.pure ⟨rfl, held, .axis, remembers⟩

theorem replaceCalls_sound {name : String} {id target : FuncId} {dtype : DType} {e : Expr}
    {r : Registry} {p : Program} (plain : Plain e) (callsAs : CallsAs name id dtype e)
    (held : r.Holds e)
    (typed : ∀ initial, (p.func target).init = some initial → initial.value.dtype = dtype) :
    Achieves (replaceCalls e name target) r p fun later left e' => left.funcs = p.funcs ∧
      later.Holds e' ∧ Redirected id target e e' := by
  unfold replaceCalls
  have nothing : r.RemembersRedirected id target {} := fun node known found => by simp at found
  refine Achieves.bind (redirect_sound plain callsAs r p {} held typed nothing)
    fun r1 p1 result ext1 ⟨same1, heldResult, redirected, _⟩ => ?_
  exact Achieves.pure ⟨same1, heldResult, redirected⟩

theorem related_pair {R : Expr → Expr → Prop} {x y : Expr} {es : List Expr}
    (related : List.Forall₂ R [x, y] es) : ∃ x' y', es = [x', y'] ∧ R x x' ∧ R y y' := by
  obtain ⟨x', rest, first, more, rfl⟩ := List.forall₂_cons_left_iff.1 related
  obtain ⟨y', rest, second, nothing, rfl⟩ := List.forall₂_cons_left_iff.1 more
  obtain rfl := List.forall₂_nil_left_iff.1 nothing
  exact ⟨x', y', rfl, first, second⟩

theorem isBinding_of_related {R : Expr → Expr → Prop} {head : Head} {operands operands' : List Expr}
    (related : List.Forall₂ R operands operands') (isBinding : IsBinding head operands') :
    IsBinding head operands := by
  obtain ⟨name, value, body, rfl, rfl⟩ := isBinding
  obtain ⟨value', body', rfl, _⟩ := related_pair related.flip
  exact ⟨name, value', body', rfl, rfl⟩

namespace Redirected

variable {id target : FuncId} {e e' : Expr}

theorem operands_induction {P : Expr → Expr → Prop} {operands operands' : List Expr}
    (below : List.Forall₂ (Redirected id target) operands operands')
    (each : ∀ x ∈ operands, ∀ x', Redirected id target x x' → P x x') :
    List.Forall₂ P operands operands' := by
  induction below with
  | nil => exact .nil
  | cons first _ ih =>
      exact .cons (each _ (.head _) _ first) (ih fun x member => each x (.tail _ member))

theorem exactIn {α : Type} [Scalar α] (redirected : Redirected id target e e') (reads : Reads α)
    (env : String → α) : Expr.exactIn reads.answers env e' =
      Expr.exactIn (Reads.answers (Function.update reads id (reads target))) env e := by
  induction e using Expr.induction generalizing e' env with
  | node node head dtype operands ih =>
      have values {operands' : List Expr}
          (below : List.Forall₂ (Redirected id target) operands operands') :
          operands'.map (Expr.exactIn reads.answers env) =
            operands.map
              (Expr.exactIn (Reads.answers (Function.update reads id (reads target))) env) := by
        rw [← List.forall₂_eq_eq_eq, List.forall₂_map_left_iff, List.forall₂_map_right_iff]
        exact (operands_induction below fun x member x' redirected =>
          ih x member redirected env).flip
      cases redirected with
      | call below =>
          rw [exactIn_head (by simp), exactIn_head (by simp), values below]
          simp only [headExact, Reads.answers, Function.update_self]
      | node other below =>
          by_cases isBinding : IsBinding head operands
          · obtain ⟨name, value, body, rfl, rfl⟩ := isBinding
            obtain ⟨value', body', rfl, first, second⟩ := related_pair below
            rw [exactIn_let, exactIn_let, ih value (.head _) first,
              ih body (.tail _ (.head _)) second]
          · rw [exactIn_node isBinding, exactIn_node (mt (isBinding_of_related below) isBinding),
              values below]
            refine headExact_congr (fun _ _ _ => rfl) fun callee same => ?_
            cases callee with
            | func callee name =>
                have different : callee ≠ id := by
                  rintro rfl
                  exact other name same
                funext args
                simp only [Reads.answers, Function.update_of_ne different]
            | image => rfl
            | primitive => rfl
  | reduction =>
      cases redirected
      simp

theorem exact {α : Type} [Scalar α] (redirected : Redirected id target e e') (reads : Reads α)
    (env : Env) : Expr.exact reads.answers env e' =
      Expr.exact (Reads.answers (Function.update reads id (reads target))) env e :=
  redirected.exactIn reads env.scalars

theorem dtype (redirected : Redirected id target e e') : e'.dtype = e.dtype := by
  cases redirected <;> rfl

theorem operands {node : NodeId} {head : Head} {dtype : DType} {operands : List Expr}
    (redirected : Redirected id target (.node node head dtype operands) e') :
    ∃ node' head' operands', e' = .node node' head' dtype operands' ∧
      List.Forall₂ (Redirected id target) operands operands' := by
  cases redirected with
  | call related => exact ⟨_, _, _, rfl, related⟩
  | node other related => exact ⟨_, _, _, rfl, related⟩

theorem variableName?_eq (redirected : Redirected id target e e') :
    e'.variableName? = e.variableName? := by
  cases redirected with
  | axis => rfl
  | call => rfl
  | @node _ _ head => cases head <;> rfl

theorem variable_cases (redirected : Redirected id target e e') {name : String}
    (named : e'.variableName? = some name) :
    e' = e ∨ e'.isPureVariable = true ∧ e.isPureVariable = true := by
  cases redirected with
  | axis => exact .inl rfl
  | call => cases named
  | @node _ _ head =>
      cases head <;> cases named
      exact .inr ⟨rfl, rfl⟩

theorem subnode (redirected : Redirected id target e e') {x' : Expr} (within : Subnode x' e') :
    ∃ x, Subnode x e ∧ Redirected id target x x' := by
  induction e using Expr.induction generalizing e' with
  | node node head dtype operands ih =>
      obtain ⟨_, _, operands', rfl, related⟩ := redirected.operands
      rcases subnode_node.1 within with rfl | ⟨y', member, deeper⟩
      · exact ⟨_, .here, redirected⟩
      · have among := operands_induction (P := fun y y' => y ∈ operands ∧ Redirected id target y y')
          related fun y member y' redirected => ⟨member, redirected⟩
        obtain ⟨y, isOperand, below⟩ := forall₂_mem_right among member
        obtain ⟨x, inside, same⟩ := ih y isOperand below deeper
        exact ⟨x, .operand isOperand inside, same⟩
  | reduction =>
      cases redirected
      rw [subnode_reduction.1 within]
      exact ⟨_, .here, .axis⟩

theorem mentions (redirected : Redirected id target e e') {name : String} (mentioned : Mentions e name) :
    Mentions e' name := by
  induction e using Expr.induction generalizing e' with
  | node node head dtype operands ih =>
      obtain ⟨_, _, operands', rfl, related⟩ := redirected.operands
      rcases mentions_node.1 mentioned with named | ⟨x, member, deeper⟩
      · exact ⟨_, .here, redirected.variableName?_eq.trans named⟩
      · obtain ⟨x', member', below⟩ := forall₂_mem_left related member
        exact mentions_node.2 (.inr ⟨x', member', ih x member below deeper⟩)
  | reduction =>
      cases redirected
      exact mentioned

theorem calls (redirected : Redirected id target e e') {callee : FuncId}
    (called : e'.Calls callee) : e.Calls callee ∧ callee ≠ id ∨ callee = target ∧ e.Calls id := by
  obtain ⟨x', within, name, isCall⟩ := called
  obtain ⟨x, inside, same⟩ := redirected.subnode within
  cases same with
  | axis => cases isCall
  | call =>
      cases isCall
      exact .inr ⟨rfl, _, inside, _, rfl⟩
  | @node _ _ head _ _ _ other =>
      cases head <;> cases isCall
      refine .inl ⟨⟨_, inside, name, rfl⟩, ?_⟩
      rintro rfl
      exact other name rfl

theorem plain (redirected : Redirected id target e e') (plain : Plain e) : Plain e' := by
  intro x' within
  obtain ⟨x, inside, same⟩ := redirected.subnode within
  have isPlain := plain x inside
  cases same with
  | axis => trivial
  | call => exact ⟨fun _ arity => (nomatch arity), fun _ same => (nomatch same)⟩
  | node other related => exact ⟨fun n arity => related.length_eq ▸ isPlain.1 n arity, isPlain.2⟩

end Redirected

end ReverseMode
