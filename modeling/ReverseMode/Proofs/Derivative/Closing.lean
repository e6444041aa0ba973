import ReverseMode.Proofs.Derivative.Walking

/-!
# Closing adjoints

Before an adjoint is scattered the bound names it uses are bound again around it, in rounds, until none
is left that was not bound. That never changes its value. None is left free exactly where no value uses
a name that was bound before it.
-/

namespace ReverseMode

open Expr

/-- Every name that is bound has the value of what it is bound to. -/
def Settles (answers : CallValues ℚ) (bindings : List (String × Expr)) (env : String → ℚ) : Prop :=
  ∀ name value, bindings.lookup name = some value → env name = value.exactIn answers env

def pendingNames (bindings : List (String × Expr)) (done names : List String) : List String :=
  names.filter fun name => (bindings.lookup name).isSome && !done.contains name

section

variable {answers : CallValues ℚ} {bindings : List (String × Expr)} {env : String → ℚ}
  {done names : List String} {name : String}

theorem mem_pendingNames : name ∈ pendingNames bindings done names ↔
    name ∈ names ∧ (bindings.lookup name).isSome ∧ name ∉ done := by
  simp [pendingNames]

theorem bindNames_succ (rounds : Nat) (done : List String) (adjoint : Expr) :
    bindNames bindings (rounds + 1) done adjoint =
      let pending := pendingNames bindings done adjoint.freeNames
      if pending.isEmpty then pure adjoint
      else (do
        let wrapped ← pending.foldlM (fun e name =>
          Expr.letIn name ((bindings.lookup name).getD e) e) adjoint
        bindNames bindings rounds (pending ++ done) wrapped) := rfl

theorem wrapAll_exact (settles : Settles answers bindings env) (pending : List String)
    (bound : ∀ name ∈ pending, (bindings.lookup name).isSome) (e : Expr) :
    Produces (pending.foldlM (fun e name => Expr.letIn name ((bindings.lookup name).getD e) e) e)
      fun wrapped => wrapped.exactIn answers env = e.exactIn answers env := by
  induction pending generalizing e with
  | nil => exact .pure rfl
  | cons name rest ih =>
      obtain ⟨here, others⟩ := List.forall_mem_cons.1 bound
      obtain ⟨value, found⟩ := Option.isSome_iff_exists.1 here
      rw [List.foldlM_cons, found, Option.getD_some]
      refine Produces.bind (P := fun wrapped => wrapped.exactIn answers env = e.exactIn answers env)
        (.new fun id => ?_) fun wrapped same => (ih others wrapped).mono fun _ later => ?_
      · rw [exactIn_let, ← settles name value found, Function.update_eq_self]
      · rw [later, same]

theorem bindNames_exact (settles : Settles answers bindings env) (rounds : Nat) (done : List String)
    (adjoint : Expr) :
    Produces (bindNames bindings rounds done adjoint) fun closed =>
      closed.exactIn answers env = adjoint.exactIn answers env := by
  induction rounds generalizing done adjoint with
  | zero => exact .pure rfl
  | succ rounds ih =>
      rw [bindNames_succ]
      extract_lets pending
      split
      next => exact .pure rfl
      next =>
        refine (wrapAll_exact settles pending (fun name isPending => (mem_pendingNames.1 isPending).2.1)
          adjoint).bind fun wrapped same => (ih _ wrapped).mono fun _ later => ?_
        rw [later, same]

end

def namesOf (bindings : List (String × Expr)) (name : String) : List String :=
  ((bindings.lookup name).map freeNames).getD []

def bindName (bindings : List (String × Expr)) (names : List String) (name : String) : List String :=
  namesOf bindings name ++ unseen [name] (namesOf bindings name) names

/-- Of names that are bound one around the other no value uses a bound name that is bound already. -/
def InRound (bindings : List (String × Expr)) : (done pending : List String) → Prop
  | _, [] => True
  | done, name :: rest =>
      (∀ other ∈ namesOf bindings name, (bindings.lookup other).isSome → other ∉ name :: done) ∧
        InRound bindings (name :: done) rest

/-- Round by round, no value uses a bound name that is bound already. -/
def InOrder (bindings : List (String × Expr)) : (rounds : Nat) → (done names : List String) → Prop
  | 0, _, _ => True
  | rounds + 1, done, names =>
      let pending := pendingNames bindings done names
      InRound bindings done pending ∧
        InOrder bindings rounds (pending ++ done) (pending.foldl (bindName bindings) names)

instance decidableInRound (bindings : List (String × Expr)) :
    (done pending : List String) → Decidable (InRound bindings done pending)
  | _, [] => inferInstanceAs (Decidable True)
  | done, name :: rest =>
      have := decidableInRound bindings (name :: done) rest
      inferInstanceAs (Decidable (_ ∧ InRound bindings (name :: done) rest))

instance decidableInOrder (bindings : List (String × Expr)) :
    (rounds : Nat) → (done names : List String) → Decidable (InOrder bindings rounds done names)
  | 0, _, _ => inferInstanceAs (Decidable True)
  | rounds + 1, done, names =>
      let pending := pendingNames bindings done names
      have := decidableInOrder bindings rounds (pending ++ done) (pending.foldl (bindName bindings) names)
      inferInstanceAs (Decidable (_ ∧ InOrder bindings rounds _ _))

def namesAfter (bindings : List (String × Expr)) : (rounds : Nat) → (done names : List String) →
    List String
  | 0, _, names => names
  | rounds + 1, done, names =>
      let pending := pendingNames bindings done names
      if pending.isEmpty then names
      else namesAfter bindings rounds (pending ++ done) (pending.foldl (bindName bindings) names)

def Awaiting (bindings : List (String × Expr)) (done names : List String) : Prop :=
  ∀ name ∈ names, (bindings.lookup name).isSome → name ∉ done

section

variable {bindings : List (String × Expr)} {done pending names : List String} {name : String}

theorem awaiting_bindName (new : name ∉ done) :
    Awaiting bindings (name :: done) (bindName bindings names name) ↔ Awaiting bindings done names ∧
      ∀ other ∈ namesOf bindings name, (bindings.lookup other).isSome → other ∉ name :: done := by
  unfold Awaiting bindName
  simp only [List.mem_append, mem_unseen]
  grind

theorem awaiting_round (distinct : pending.Nodup) (apart : ∀ name ∈ pending, name ∉ done) :
    Awaiting bindings (pending ++ done) (pending.foldl (bindName bindings) names) ↔
      Awaiting bindings done names ∧ InRound bindings done pending := by
  induction pending generalizing done names with
  | nil => simp [InRound]
  | cons name rest ih =>
      obtain ⟨other, distinct⟩ := List.nodup_cons.1 distinct
      have notDone : ∀ later ∈ rest, later ∉ name :: done := fun later isLater =>
        List.mem_cons.not.2 (not_or.2
          ⟨fun same => other (same ▸ isLater), apart later (.tail _ isLater)⟩)
      have moved : Awaiting bindings (name :: rest ++ done)
            (rest.foldl (bindName bindings) (bindName bindings names name)) ↔
          Awaiting bindings (rest ++ name :: done)
            (rest.foldl (bindName bindings) (bindName bindings names name)) := by
        simp only [Awaiting, List.cons_append, List.mem_cons, List.mem_append, or_left_comm]
      rw [List.foldl_cons, moved, ih distinct notDone, awaiting_bindName (apart name (.head _)), InRound,
        and_assoc]

theorem nodup_foldl_bindName (distinct : names.Nodup) (pending : List String) :
    (pending.foldl (bindName bindings) names).Nodup := by
  induction pending generalizing names with
  | nil => exact distinct
  | cons name rest ih =>
      refine ih (nodup_append_unseen ?_ distinct)
      unfold namesOf
      cases bindings.lookup name with
      | none => exact List.nodup_nil
      | some value => exact nodup_freeNames value

theorem fewer_remain (isPending : name ∈ pendingNames bindings done names) :
    (bindings.filter fun entry => entry.1 ∉ pendingNames bindings done names ++ done).length <
      (bindings.filter fun entry => entry.1 ∉ done).length := by
  obtain ⟨_, isBound, notDone⟩ := mem_pendingNames.1 isPending
  obtain ⟨value, found⟩ := Option.isSome_iff_exists.1 isBound
  have rest : bindings.filter (fun entry => entry.1 ∉ pendingNames bindings done names ++ done) =
      (bindings.filter fun entry => entry.1 ∉ done).filter fun entry =>
        entry.1 ∉ pendingNames bindings done names := by
    rw [List.filter_filter]
    exact List.filter_congr fun entry _ => by simp [List.mem_append, not_or]
  rw [rest, List.length_filter_lt_length_iff_exists]
  exact ⟨(name, value), List.mem_filter.2 ⟨mem_of_lookup found, by simpa using notDone⟩,
    by simpa using isPending⟩

theorem inOrder_of_nothing (nothing : pendingNames bindings done names = []) (rounds : Nat) :
    InOrder bindings rounds done names := by
  induction rounds with
  | zero => trivial
  | succ rounds ih =>
      rw [InOrder, nothing]
      exact ⟨trivial, ih⟩

theorem namesAfter_closed {rounds : Nat} (distinct : names.Nodup)
    (enough : (bindings.filter fun entry => entry.1 ∉ done).length < rounds) :
    (∀ name ∈ namesAfter bindings rounds done names, bindings.lookup name = none) ↔
      Awaiting bindings done names ∧ InOrder bindings rounds done names := by
  induction rounds generalizing done names with
  | zero => exact absurd enough (Nat.not_lt_zero _)
  | succ rounds ih =>
      rw [namesAfter]
      split
      next isEmpty =>
        have nothing := List.isEmpty_iff.1 isEmpty
        refine ⟨fun unbound => ⟨fun name isName isBound => ?_, inOrder_of_nothing nothing _⟩,
          fun ⟨awaiting, _⟩ name isName => Option.not_isSome_iff_eq_none.1 fun isBound => ?_⟩
        · rw [unbound name isName] at isBound
          cases isBound
        · have isPending := mem_pendingNames.2 ⟨isName, isBound, awaiting name isName isBound⟩
          rw [nothing] at isPending
          cases isPending
      next nonempty =>
        obtain ⟨name, isPending⟩ := List.exists_mem_of_ne_nil _ fun nothing =>
          nonempty (List.isEmpty_iff.2 nothing)
        have fewer := fewer_remain isPending
        have distinctRound : (pendingNames bindings done names).Nodup := distinct.filter _
        rw [ih (nodup_foldl_bindName distinct _) (by omega), awaiting_round distinctRound
          fun name isPending => (mem_pendingNames.1 isPending).2.2, InOrder, and_assoc]

end

section

variable {bindings : List (String × Expr)} {e : Expr}

theorem wrapAll_names (pending : List String)
    (bound : ∀ name ∈ pending, (bindings.lookup name).isSome) :
    Produces (pending.foldlM (fun e name => Expr.letIn name ((bindings.lookup name).getD e) e) e)
      fun wrapped => wrapped.freeNames = pending.foldl (bindName bindings) e.freeNames ∧
        ((∀ entry ∈ bindings, Shaped entry.2) → Shaped e → Shaped wrapped) := by
  induction pending generalizing e with
  | nil => exact .pure ⟨rfl, fun _ shaped => shaped⟩
  | cons name rest ih =>
      obtain ⟨here, others⟩ := List.forall_mem_cons.1 bound
      obtain ⟨value, found⟩ := Option.isSome_iff_exists.1 here
      rw [List.foldlM_cons, found, Option.getD_some]
      refine Produces.bind (P := fun wrapped => wrapped.freeNames = bindName bindings e.freeNames name ∧
        ((∀ entry ∈ bindings, Shaped entry.2) → Shaped e → Shaped wrapped)) (.new fun id => ⟨?_, ?_⟩)
        fun wrapped ⟨first, isShaped⟩ => (ih others).mono fun last ⟨names, lastShaped⟩ =>
          ⟨by rw [names, first, List.foldl_cons], fun values shaped =>
            lastShaped values (isShaped values shaped)⟩
      · rw [freeNames_let, bindName, namesOf, found]
        rfl
      · exact fun values shaped => by
          simp [shaped_node, Head.arity?, values _ (mem_of_lookup found), shaped]

theorem bindNames_names (rounds : Nat) (done : List String) (adjoint : Expr) :
    Produces (bindNames bindings rounds done adjoint) fun closed =>
      closed.freeNames = namesAfter bindings rounds done adjoint.freeNames ∧
        ((∀ entry ∈ bindings, Shaped entry.2) → Shaped adjoint → Shaped closed) := by
  induction rounds generalizing done adjoint with
  | zero => exact .pure ⟨rfl, fun _ shaped => shaped⟩
  | succ rounds ih =>
      rw [bindNames_succ, namesAfter]
      extract_lets pending
      split
      next => exact .pure ⟨rfl, fun _ shaped => shaped⟩
      next =>
        refine (wrapAll_names _ fun name isPending => (mem_pendingNames.1 isPending).2.1).bind
          fun wrapped ⟨first, isShaped⟩ => (ih _ wrapped).mono fun closed ⟨names, lastShaped⟩ =>
            ⟨by rw [names, first], fun values shaped => lastShaped values (isShaped values shaped)⟩

theorem bindNames_closed (adjoint : Expr) :
    Produces (bindNames bindings (bindings.length + 1) [] adjoint) fun closed =>
      (InOrder bindings (bindings.length + 1) [] adjoint.freeNames →
        ∀ name, Free name closed → bindings.lookup name = none) ∧
      ((∀ entry ∈ bindings, Shaped entry.2) → Shaped adjoint →
        (∀ name, Free name closed → bindings.lookup name = none) →
          InOrder bindings (bindings.length + 1) [] adjoint.freeNames) := by
  refine (bindNames_names _ _ adjoint).mono fun closed ⟨names, isShaped⟩ => ?_
  have exactly : (∀ name ∈ closed.freeNames, bindings.lookup name = none) ↔
      Awaiting bindings [] adjoint.freeNames ∧
        InOrder bindings (bindings.length + 1) [] adjoint.freeNames := by
    rw [names]
    exact namesAfter_closed (nodup_freeNames adjoint) (Nat.lt_succ_of_le (List.length_filter_le _ _))
  refine ⟨fun inOrder name free => ?_, fun values shaped unbound => ?_⟩
  · exact exactly.2 ⟨fun _ _ _ => List.not_mem_nil, inOrder⟩ name free.mem_freeNames
  · exact (exactly.1 fun name isName =>
      unbound name ((mem_freeNames (isShaped values shaped)).1 isName)).2

end

/-- Where no value uses a bound name that is bound already, closing leaves no bound name free, and the
closed adjoint has the value that the adjoint has with every bound name at its value. -/
theorem closeAdjoint_closes {settings : Differentiation} {E : Fault → Prop} {s : Accumulation}
    {adjoint : Expr}
    (inOrder : InOrder s.bindings (s.bindings.length + 1) [] adjoint.freeNames) :
    Leaves settings E (closeAdjoint adjoint) s fun closed left => left = s ∧
      (∀ name, Free name closed → s.bindings.lookup name = none) ∧
      ∀ answers env base, Settles answers s.bindings env →
        (∀ name, s.bindings.lookup name = none → base name = env name) →
        closed.exactIn answers base = adjoint.exactIn answers env := by
  refine .bind_get (.build (fun supply => ?_) fun closed both => ⟨rfl, both⟩)
  have closed := (bindNames_closed adjoint supply).1 inOrder
  refine ⟨closed, fun answers env base settles same => ?_⟩
  rw [exactIn_congr _ (fun name free => same name (closed name free)) fun _ _ _ _ => rfl]
  exact bindNames_exact settles _ _ adjoint supply

/-- Otherwise a bound name stays free. -/
theorem closeAdjoint_leaves_free {settings : Differentiation} {E : Fault → Prop} {s : Accumulation}
    {adjoint : Expr} (shaped : Shaped adjoint) (values : ∀ entry ∈ s.bindings, Shaped entry.2)
    (disorder : ¬ InOrder s.bindings (s.bindings.length + 1) [] adjoint.freeNames) :
    Leaves settings E (closeAdjoint adjoint) s fun closed _ =>
      ∃ name, Free name closed ∧ (s.bindings.lookup name).isSome := by
  refine .bind_get (.build (fun supply => ?_) fun closed both => both)
  by_contra none
  refine disorder ((bindNames_closed adjoint supply).2 values shaped fun name free => ?_)
  exact Option.not_isSome_iff_eq_none.1 fun isBound => none ⟨name, free, isBound⟩

/-!
`u` stands for `t * 2` and `t` for `x`.
-/

namespace Chained

def x : Expr := .node 0 (.var "x" false) .float32 []

def t : Expr := .node 1 (.var "t" false) .float32 []

def u : Expr := .node 2 (.var "u" false) .float32 []

def two : Expr := .node 3 (.const (.int 2)) .int32 []

def double : Expr := .node 4 (.binary .mul) .float32 [t, two]

def swapped : Expr := .node 5 (.binary .add) .float32 [t, u]

def state : Accumulation := { bindings := [("u", double), ("t", x)] }

def settings : Differentiation := { rules := .standard }

def answers : CallValues ℚ := fun _ _ => 0

def base : String → ℚ := fun name => if name = "x" then 3 else 0

def env : String → ℚ := fun name => if name = "u" then 6 else if name = "t" then 3 else base name

theorem settles : Settles answers state.bindings env := by
  intro name value found
  rcases List.mem_pair.1 (mem_of_lookup found) with same | same <;> cases same
  · simp [double, t, two, headExact, BinaryOp.exact, Constant.exact, env]
    norm_num
  · simp [x, headExact, env, base]

/-- The second round binds `t`, which the value of `u` uses. -/
theorem adjoint_closed :
    Leaves settings (fun _ => False) (closeAdjoint u) state fun closed _ =>
      ¬ Free "t" closed ∧ ¬ Free "u" closed ∧ closed.exactIn answers base = 6 := by
  refine (closeAdjoint_closes (by decide)).after fun closed _ result => ?_
  obtain ⟨_, unbound, value⟩ := result
  refine ⟨fun free => ?_, fun free => ?_, ?_⟩
  · cases unbound "t" free
  · cases unbound "u" free
  · rw [value answers env base settles fun name notBound => ?_]
    · simp [u, headExact, env]
    · rw [env, if_neg (by rintro rfl; cases notBound), if_neg (by rintro rfl; cases notBound)]

theorem swapped_open : Leaves settings (fun _ => False) (closeAdjoint swapped) state fun closed _ =>
    ∃ name, Free name closed ∧ (state.bindings.lookup name).isSome :=
  closeAdjoint_leaves_free (by simp [swapped, t, u, shaped_node, Head.arity?])
    (by simp [state, double, t, two, x, shaped_node, Head.arity?]) (by decide)

end Chained

end ReverseMode
