import Mathlib.Logic.Relation
import ReverseMode.Proofs.Derivative.Bookkeeping
import ReverseMode.Proofs.Derivative.Walking

namespace ReverseMode

open Expr

def IsMade : Expr → Prop
  | .node _ head _ operands =>
      (∀ n, head.arity? = some n → operands.length = n) ∧ ∀ kind, head ≠ .other kind
  | .reduction .. => True

/-- An expression as the constructors make it, whatever its nodes share and its `let`s bind. -/
structure Made (root : Expr) : Prop where
  every : Every IsMade root
  coherent : Coherent root

theorem Registry.Holds.coherent {r : Registry} {root : Expr} (held : r.Holds root) :
    Coherent root :=
  fun _ _ within within' => (held.sub within).eq_of_id (held.sub within')

/-- Reached from the root by way of operands that are entered. -/
def Entered (root : Expr) : Expr → Prop :=
  Relation.ReflTransGen (fun y c => c ∈ y.branches) root

namespace Expr

variable {root x c : Expr}

theorem branch_listed (coherent : Coherent root) (listed : x ∈ root.differentiable)
    (isBranch : c ∈ x.branches) : [c, x].Sublist root.differentiable := by
  obtain ⟨rest, done, split⟩ := List.append_of_mem listed
  have backwards : root.differentiable.reverse = done.reverse ++ x :: rest.reverse := by
    simp [split]
  have among := (differentiable_branches coherent).rest backwards isBranch
  rw [split]
  exact (List.singleton_sublist.2 (List.mem_reverse.1 among)).append
    (List.singleton_sublist.2 (.head _))

theorem mem_differentiable_iff (coherent : Coherent root) :
    x ∈ root.differentiable ↔ Entered root x := by
  constructor
  · intro listed
    obtain ⟨done, rest, split⟩ := List.append_of_mem (List.mem_reverse.2 listed)
    induction h : done.length using Nat.strongRecOn generalizing x done rest with
    | _ length ih =>
    rcases consumer_done coherent split with rfl | ⟨y, isDone, isBranch⟩
    · exact .refl
    · obtain ⟨earlier, between, rfl⟩ := List.append_of_mem isDone
      have shorter : earlier.length < length := by
        rw [← h]
        simp
      have before : root.differentiable.reverse = earlier ++ y :: (between ++ x :: rest) := by
        simp [split]
      have isListed : y ∈ root.differentiable := by
        rw [← List.mem_reverse, before]
        simp
      exact (ih _ shorter isListed _ _ before rfl).tail isBranch
  · intro entered
    induction entered with
    | refl => exact mem_differentiable coherent
    | tail _ isBranch ih => exact (branch_listed coherent ih isBranch).subset (.head _)

theorem getLast_differentiable : root.differentiable.getLast? = some root := by
  have unknown : ({} : NodeOrder).visited.contains root.id ≠ true := by simp
  unfold differentiable
  rw [orderFrom_unknown unknown]
  simp

end Expr

def Hands (given : List Expr) (s left : Accumulation) : Prop :=
  ∀ id, (s.adjoints[id]?).isSome ∨ (∃ c ∈ given, c.id = id) → (left.adjoints[id]?).isSome

namespace Hands

variable {given given' : List Expr} {s middle left : Accumulation}

theorem nothing (same : left.adjoints = s.adjoints) : Hands [] s left := by
  intro id either
  simpa [same] using either

theorem mono (hands : Hands given s left) (fewer : given' ⊆ given) : Hands given' s left :=
  fun id either => hands id (either.imp_right fun ⟨c, member, same⟩ => ⟨c, fewer member, same⟩)

theorem trans (first : Hands given s middle) (second : Hands given' middle left) :
    Hands (given ++ given') s left := by
  intro id either
  apply second
  rcases either with earlier | ⟨c, member, same⟩
  · exact .inl (first id (.inl earlier))
  · rcases List.mem_append.1 member with inFirst | inSecond
    · exact .inl (first id (.inr ⟨c, inFirst, same⟩))
    · exact .inr ⟨c, inSecond, same⟩

theorem store {target total : Expr} :
    Hands [target] s { s with adjoints := s.adjoints.insert target.id total } := by
  intro id either
  by_cases same : target.id = id
  · simp [same]
  · simpa [Std.TreeMap.getElem?_insert, same] using either

end Hands

theorem Program.preserves_nothing (program : Program) : ({} : Program).Preserves program :=
  ⟨Nat.zero_le _, fun _ below => absurd below (Nat.not_lt_zero _)⟩

namespace Leaves

variable {α : Type} {settings : Differentiation} {E E' : Fault → Prop} {s : Accumulation}
  {Q Q' : α → Accumulation → Prop} {action : AdjointM α}

theorem and (first : Leaves settings E action s Q) (second : Leaves settings E' action s Q') :
    Leaves settings (fun fault => E fault ∧ E' fault) action s
      fun a left => Q a left ∧ Q' a left := by
  intro program
  have ends := first program
  have ends' := second program
  cases outcome : (((action.run settings).run s).run.run program).1 <;> rw [outcome] at ends ends'
  · exact ⟨ends, ends'⟩
  · exact ⟨ends, ends'⟩

theorem ofKeeps {bad : Fault → Prop} {P R : Accumulation → Prop}
    (keeps : Keeps bad {} settings P action R) (holds : P s) :
    Leaves settings (fun fault => ¬ bad fault) action s fun _ left => R left := by
  intro program
  obtain ⟨spares, answers⟩ := keeps s holds program program.preserves_nothing _ _ rfl
  cases outcome : (((action.run settings).run s).run.run program).1 with
  | ok answer => exact (answers answer outcome).2
  | error fault => exact spares fault outcome

theorem ofSpares {action : ProgramM α} {bad : Fault → Prop}
    (spares : ∀ program, Spares bad (action.run.run program).1) (kept : ∀ a, Q a s) :
    Leaves settings (fun fault => ¬ bad fault) (liftM action) s Q := by
  intro program
  have spared := spares program
  have unfolded : ((liftM action : AdjointM α).run settings).run s =
      (action >>= fun a => Pure.pure (a, s)) := rfl
  rw [unfolded, ExceptT.run_bind, StateT.run_bind]
  cases outcome : action.run.run program with
  | mk result later =>
      rw [outcome] at spared
      cases result with
      | ok a => exact kept a
      | error fault => exact spared fault rfl

end Leaves

section

variable {settings : Differentiation} {E : Fault → Prop} {s : Accumulation} {adjoint : Expr}

theorem anything {α : Type} (action : NodeM α) : Produces action fun _ => True := fun _ => trivial

theorem accumulate_hands {target : Expr} :
    Leaves settings E (accumulate target adjoint) s fun _ left => Hands [target] s left := by
  unfold accumulate
  apply Leaves.bind_get
  dsimp only
  split
  next => exact .modify .store
  next =>
    split
    next => exact .modify .store
    next =>
      split
      next => exact .modify .store
      next => exact .bind_build (anything _) fun _ _ => .modify .store

theorem accumulateEach_hands (contributions : List (Expr × Expr)) :
    Leaves settings E (accumulateEach contributions) s
      fun _ left => Hands (contributions.map Prod.fst) s left := by
  induction contributions generalizing s with
  | nil => exact .pure (.nothing rfl)
  | cons entry rest ih =>
      exact accumulate_hands.bind fun _ _ first => ih.after fun _ _ => first.trans

theorem accumulateVariable_hands {name : String} :
    Leaves settings E (accumulateVariable name adjoint) s fun _ left => Hands [] s left := by
  unfold accumulateVariable
  apply Leaves.bind_get
  split
  next => exact .pure (.nothing rfl)
  next =>
    have valued (adjoint value : Expr) :
        Leaves settings E (accumulate value adjoint) s fun _ left => Hands [] s left :=
      accumulate_hands.after fun _ _ hands => hands.mono (List.nil_subset _)
    split
    next => exact .bind_build (anything _) fun _ _ => valued _ _
    next => exact valued _ _

theorem binaryContributions_targets {op : BinaryOp} {a b : Expr}
    (arithmetic : op.isBoolean = false) :
    Produces (binaryContributions op a b adjoint)
      fun contributions => contributions.map Prod.fst = [a, b] := by
  intro supply
  cases op <;> first | rfl | cases arithmetic

theorem accumulatePrimitive_hands {call : Expr} {name : String} {args : List Expr}
    (rules : ∀ rule, settings.rules.lookup name = some rule → ∀ program,
      Spares Fault.IsForgotten ((rule args adjoint).run.run program).1) :
    Leaves settings (fun fault => ¬ fault.IsForgotten) (accumulatePrimitive call name args adjoint)
      s
      fun _ left => Hands args s left := by
  unfold accumulatePrimitive
  apply Leaves.bind_settings
  split
  next =>
    split
    next => exact fun _ => not_false
    next =>
      apply Leaves.bind_report
      refine Leaves.bind (Q := fun _ left => Hands args s left) ?_ fun _ _ hands => .pure hands
      induction args generalizing s with
      | nil => exact .pure (.nothing rfl)
      | cons arg rest ih =>
          rw [List.forIn_cons, bind_assoc]
          refine .bind_build (anything _) fun _ _ => ?_
          rw [bind_assoc]
          refine accumulate_hands.bind fun _ _ first => ?_
          rw [pure_bind]
          exact (ih fun rule known => absurd known (by simp_all)).after fun _ _ => first.trans
  next rule known =>
    refine (Leaves.ofSpares (Q := fun _ left => left = s) (rules rule known) fun _ => rfl).bind
      fun contributions left same => ?_
    subst same
    split
    next => exact fun _ => not_false
    next agree =>
      have targets : (args.zip contributions).map Prod.fst = args :=
        List.map_fst_zip (not_not.1 agree).ge
      simpa only [targets] using accumulateEach_hands (args.zip contributions)

theorem scatter_hands {ctx : CallContext} {call : Expr} {id : FuncId} :
    Leaves settings (fun fault => ¬ fault.IsForgotten) (scatter ctx call id adjoint) s
      fun _ left => Hands [] s left := by
  have start : s.Within {} ⟨s.funcs, s.finalized, []⟩ :=
    ⟨rfl, List.Subset.refl _, fun _ none => (nomatch none), fun _ _ => Nat.zero_le _⟩
  have spares : Minor Fault.IsForgotten {} settings ⟨s.funcs, s.finalized, []⟩
      (scatter ctx call id adjoint) :=
    scatter_spares (fun _ _ _ _ _ _ _ _ => not_false) (fun _ _ => False.elim) False.elim
  have remembers := Leaves.ofKeeps spares start
  exact (remembers.and (scatter_frames s)).mono (fun _ _ both => .nothing both.2.1)
    fun _ both => both.1

theorem propagateNode_hands {ctx : CallContext} {x : Expr} (made : IsMade x)
    (unmuted : settings.muted = [])
    (rules : ∀ name, x.callee? = some (.primitive name) → ∀ rule,
      settings.rules.lookup name = some rule → ∀ program,
        Spares Fault.IsForgotten ((rule x.operands adjoint).run.run program).1) :
    Leaves settings (fun fault => ¬ fault.IsForgotten) (propagateNode ctx x adjoint) s
      fun _ left => Hands x.branches s left := by
  unfold propagateNode
  apply Leaves.bind_settings
  rw [if_neg (by simp [unmuted])]
  cases x with
  | reduction => exact accumulateVariable_hands
  | node id head dtype operands =>
      obtain ⟨arity, known⟩ := made
      cases head with
      | const c =>
          obtain rfl := List.length_eq_zero_iff.1 (arity 0 rfl)
          exact .pure (.nothing rfl)
      | var name index =>
          obtain rfl := List.length_eq_zero_iff.1 (arity 0 rfl)
          exact accumulateVariable_hands
      | cast =>
          obtain ⟨a, rfl⟩ := List.length_eq_one_iff.1 (arity 1 rfl)
          exact accumulate_hands
      | binary op =>
          obtain ⟨a, b, rfl⟩ := List.length_eq_two.1 (arity 2 rfl)
          simp only [branches]
          split
          next =>
            refine .bind_build (anything _) fun contributions _ => ?_
            exact (accumulateEach_hands contributions).after fun _ _ hands =>
              hands.mono (List.nil_subset _)
          next boolean =>
            refine .bind_build (binaryContributions_targets (by simpa using boolean))
              fun contributions targets => ?_
            simpa only [targets] using accumulateEach_hands contributions
      | select =>
          obtain ⟨condition, a, b, rfl⟩ := List.length_eq_three.1 (arity 3 rfl)
          refine .bind_build (anything _) fun _ _ => accumulate_hands.bind fun _ _ first => ?_
          exact .bind_build (anything _) fun _ _ => accumulate_hands.after fun _ _ => first.trans
      | letIn name =>
          obtain ⟨value, body, rfl⟩ := List.length_eq_two.1 (arity 2 rfl)
          refine accumulate_hands.bind fun _ _ first => .bind_build (anything _) fun _ _ => ?_
          refine accumulate_hands.bind fun _ _ second => .modify ?_
          exact (first.trans second).mono (List.Perm.swap body value []).subset
      | call callee =>
          cases callee with
          | func id name => exact scatter_hands
          | image source => exact .pure (.nothing rfl)
          | primitive name => exact accumulatePrimitive_hands (rules name rfl)
      | other kind => exact absurd rfl (known kind)

def DerivativeRules.Local (rules : DerivativeRules) : Prop :=
  ∀ name rule, rules.lookup name = some rule → ∀ args adjoint program,
    Spares Fault.IsForgotten ((rule args adjoint).run.run program).1

theorem propagateNodes_hands {ctx : CallContext} {root : Expr} (made : Made root)
    (unmuted : settings.muted = []) (rules : settings.rules.Local)
    {done rest : List Expr} (split : root.differentiable.reverse = done ++ rest)
    (handed : ∀ x, x = root ∨ (∃ y ∈ done, x ∈ y.branches) → (s.adjoints[x.id]?).isSome) :
    Leaves settings (fun fault => ¬ fault.IsForgotten) (propagateNodes ctx rest) s fun _ left =>
      ∀ x, x = root ∨ (∃ y ∈ root.differentiable, x ∈ y.branches) →
        (left.adjoints[x.id]?).isSome := by
  induction rest generalizing done s with
  | nil =>
      rw [List.append_nil] at split
      simp only [← split, List.mem_reverse] at handed
      exact .pure handed
  | cons x rest ih =>
      have listed : x ∈ root.differentiable := by
        rw [← List.mem_reverse, split]
        simp
      unfold propagateNodes
      apply Leaves.bind_get
      split
      next forgotten =>
        have known := handed x (consumer_done made.coherent split)
        rw [forgotten] at known
        cases known
      next adjoint _ =>
        have isMade := made.every x (subnode_differentiable made.coherent listed)
        refine (propagateNode_hands isMade unmuted fun name _ rule known =>
          rules name rule known _ _).bind fun _ left hands => ?_
        have splitLater : root.differentiable.reverse = (done ++ [x]) ++ rest := by simp [split]
        refine ih splitLater fun c either => hands c.id ?_
        rcases either with rfl | ⟨y, isDone, isBranch⟩
        · exact .inl (handed c (.inl rfl))
        · rcases List.mem_append.1 isDone with earlier | here
          · exact .inl (handed c (.inr ⟨y, earlier, isBranch⟩))
          · exact .inr ⟨c, List.mem_singleton.1 here ▸ isBranch, rfl⟩

end

theorem propagate_hands {settings : Differentiation} {ctx : CallContext} {root seed : Expr}
    {s : Accumulation} (made : Made root) (unmuted : settings.muted = [])
    (rules : settings.rules.Local) :
    Leaves settings (fun fault => ¬ fault.IsForgotten) (propagate ctx root seed) s fun _ left =>
      ∀ x ∈ root.differentiable, (left.adjoints[x.id]?).isSome := by
  unfold propagate
  refine Leaves.bind (Q := fun _ left => (left.adjoints[root.id]?).isSome) (.modify (by simp))
    fun _ left isSeeded => .bind_report ?_
  have split : root.differentiable.reverse = [] ++ root.differentiable.reverse := rfl
  refine (propagateNodes_hands made unmuted rules split fun x either => ?_).after
    fun _ _ handed x listed => ?_
  · rcases either with rfl | ⟨_, none, _⟩
    · exact isSeeded
    · cases none
  · obtain ⟨done, rest, split⟩ := List.append_of_mem (List.mem_reverse.2 listed)
    refine handed x ((consumer_done made.coherent split).imp_right
      fun ⟨y, isDone, isBranch⟩ => ⟨y, ?_, isBranch⟩)
    rw [← List.mem_reverse, split]
    exact List.mem_append_left _ isDone

/-- The nodes that are reached by way of operands that are entered are listed once each, operands
before their consumers and the root last, and no walk over them fails because a node has no adjoint. -/
theorem no_consumer_forgotten {root : Expr} (made : Made root) :
    (root.differentiable.map Expr.id).Nodup ∧
      (∀ x, x ∈ root.differentiable ↔ Entered root x) ∧
      (∀ y ∈ root.differentiable, ∀ c ∈ y.branches, [c, y].Sublist root.differentiable) ∧
      root.differentiable.getLast? = some root ∧
      ∀ settings : Differentiation, settings.muted = [] → settings.rules.Local →
        ∀ ctx seed s program fault,
          ((((propagate ctx root seed).run settings).run s).run.run program).1 = .error fault →
            ¬ fault.IsForgotten := by
  refine ⟨?_, fun x => mem_differentiable_iff made.coherent,
    fun y listed c => branch_listed made.coherent listed, getLast_differentiable, ?_⟩
  · have distinct := List.nodup_reverse.2 (ids_differentiable made.coherent)
    rwa [← List.map_reverse, List.reverse_reverse] at distinct
  · intro settings unmuted rules ctx seed s program fault failed
    have ends : Leaves settings _ (propagate ctx root seed) s _ :=
      propagate_hands made unmuted rules
    have spared := ends program
    rwa [failed] at spared

theorem DerivativeRules.standard_local : DerivativeRules.standard.Local := by
  intro name rule known args adjoint program
  exact (standard_sparing name rule known {} args adjoint program program.preserves_nothing _ _
    rfl).1

/-!
`let t = g(x) in select(t < g(x), t * t, exp(t * t) + f(t < g(x)))`, where the calls of `g` are one
node, and so are the comparisons and the squares; `f` is a primitive without a rule.
-/

namespace Shared

def x : Expr := .node 0 (.var "x" true) .int32 []

def read : Expr := .node 1 (.call (.func 0 "g")) .float32 [x]

def t : Expr := .node 2 (.var "t" false) .float32 []

def less : Expr := .node 3 (.binary .lt) .bool [t, read]

def square : Expr := .node 4 (.binary .mul) .float32 [t, t]

def power : Expr := .node 5 (.call (.primitive "exp")) .float32 [square]

def flag : Expr := .node 6 (.call (.primitive "f")) .float32 [less]

def sum : Expr := .node 7 (.binary .add) .float32 [power, flag]

def choice : Expr := .node 8 .select .float32 [less, square, sum]

def root : Expr := .node 9 (.letIn "t") .float32 [read, choice]

def registry : Registry where
  node i := [x, read, t, less, square, power, flag, sum, choice, root].getD i default
  next := 10
  names := 0

theorem made : Made root where
  every := by
    simp [root, choice, sum, flag, power, square, less, t, read, x, IsMade, Head.arity?]
  coherent := by
    apply Registry.Holds.coherent (r := registry)
    simp [Registry.Holds, root, choice, sum, flag, power, square, less, t, read, x,
      Registry.IsRegistered, registry, Expr.id]

def settings : Differentiation := { rules := .standard }

theorem entersFlag : Entered root flag := by
  have viaChoice : Entered root choice := .tail .refl (.tail _ (.head _))
  have viaSum : Entered root sum := viaChoice.tail (.tail _ (.head _))
  exact viaSum.tail (.tail _ (.head _))

/-- The comparison is listed for the sake of `f`, which is its one consumer, and nothing is walked
without an adjoint. -/
theorem consumed : less ∈ root.differentiable ∧ [less, flag].Sublist root.differentiable ∧
    ∀ fault, ((((propagate .root root t).run settings).run {}).run.run {}).1 = .error fault →
      ¬ fault.IsForgotten := by
  obtain ⟨_, isEntered, ordered, _, remembers⟩ := no_consumer_forgotten made
  have isBranch : less ∈ flag.branches := .head _
  have listed := (isEntered flag).2 entersFlag
  have before := ordered flag listed less isBranch
  exact ⟨before.subset (.head _), before,
    remembers settings rfl DerivativeRules.standard_local .root t {} {}⟩

end Shared

end ReverseMode
