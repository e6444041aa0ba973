import ReverseMode.Proofs.Derivative.Walking

/-!
# Node adjoints are partial derivatives

While an expression is walked, the amounts of the nodes that are left, each times the sensitivity of
the node, and the amounts of the nodes that are done make up the sensitivity of the root times the
seed. So in the end every node has the partial derivative of the root as its adjoint.
-/

namespace ReverseMode

open Expr

section

variable {l rest : List Expr} {c : Expr}

theorem sum_single (distinct : (l.map Expr.id).Nodup) (member : c ∈ l) (f : Expr → ℚ) :
    (l.map fun m => if c.id = m.id then f m else 0).sum = f c := by
  induction l with
  | nil => cases member
  | cons m others ih =>
      obtain ⟨absent, distinct⟩ := List.nodup_cons.1 distinct
      rw [List.map_cons, List.sum_cons]
      rcases List.mem_cons.1 member with rfl | later
      · rw [if_pos rfl, List.sum_eq_zero, add_zero]
        intro v among
        obtain ⟨m, isOther, rfl⟩ := List.mem_map.1 among
        exact if_neg fun same => absent (List.mem_map.2 ⟨m, isOther, same.symm⟩)
      · rw [if_neg, ih distinct later, zero_add]
        exact fun same => absent (List.mem_map.2 ⟨c, later, same⟩)

theorem sum_given {given : List (Expr × ℚ)} (distinct : (rest.map Expr.id).Nodup)
    (among : ∀ entry ∈ given, entry.1 ∈ rest) (amount : NodeId → ℚ) (weight : Expr → ℚ) :
    (rest.map fun m => (amount m.id +
        (given.map fun (c, w) => if c.id = m.id then w else 0).sum) * weight m).sum =
      (rest.map fun m => amount m.id * weight m).sum +
        (given.map fun (c, w) => w * weight c).sum := by
  induction given generalizing amount with
  | nil => simp
  | cons entry others ih =>
      obtain ⟨c, w⟩ := entry
      obtain ⟨here, later⟩ := List.forall_mem_cons.1 among
      have others := ih later fun id => amount id + if c.id = id then w else 0
      have once : (rest.map fun m => (amount m.id + if c.id = m.id then w else 0) * weight m).sum =
          (rest.map fun m => amount m.id * weight m).sum + w * weight c := by
        rw [← sum_single distinct here fun m => w * weight m, ← List.sum_map_add]
        congr 2
        funext m
        split <;> ring
      simp only [List.map_cons, List.sum_cons, ← add_assoc] at others ⊢
      rw [others, once]

theorem sum_handed_on (edges : List (Expr × ℚ)) (v : ℚ) (weight : Expr → ℚ) :
    ((edges.map fun (c, slope) => (c, slope * v)).map fun (c, w) => w * weight c).sum =
      v * (edges.map fun (c, slope) => slope * weight c).sum := by
  rw [List.map_map, ← List.sum_map_mul_left]
  congr 2
  funext edge
  simp only [Function.comp_apply]
  ring

end

namespace Expr

variable {answers : CallValues ℚ} {env : String → ℚ} {lets : List (String × Expr)} {root x c : Expr}

theorem slopes_perm (shaped : Shaped x) (isKnown : x.IsKnown) :
    ((slopes answers env lets x).map Prod.fst).Perm
      (x.branches ++ (x.variableName?.bind fun name => lets.lookup name).toList) := by
  have arity := shaped.here
  cases x with
  | reduction => simp [slopes, branches, variableName?, Function.comp_def]
  | node id head dtype operands =>
      cases head with
      | const c =>
          obtain rfl := List.length_eq_zero_iff.1 (arity 0 rfl)
          exact .nil
      | var name index =>
          obtain rfl := shaped.operands_eq
          simp [slopes, branches, variableName?, Function.comp_def]
      | cast =>
          obtain ⟨a, rfl⟩ := List.length_eq_one_iff.1 (arity 1 rfl)
          exact .refl _
      | binary op =>
          obtain ⟨a, b, rfl⟩ := List.length_eq_two.1 (arity 2 rfl)
          cases op <;> exact .refl _
      | select =>
          obtain ⟨condition, a, b, rfl⟩ := List.length_eq_three.1 (arity 3 rfl)
          exact .refl _
      | letIn name =>
          obtain ⟨value, body, rfl⟩ := shaped.letIn
          exact .swap _ _ _
      | call callee =>
          cases callee <;> simp [slopes, branches, variableName?, Function.comp_def]
      | other kind => exact absurd rfl (isKnown id kind dtype operands)

theorem slopes_needs (tidy : Tidy root) (within : Subnode x root) (isKnown : x.IsKnown)
    {entry : Expr × ℚ} (member : entry ∈ slopes answers env root.lets x) : Needs root x entry.1 := by
  have among := (slopes_perm (tidy.shaped_sub within) isKnown).subset (List.mem_map_of_mem member)
  refine (List.mem_append.1 among).imp_right fun found => ?_
  obtain ⟨name, named, isBound⟩ := Option.bind_eq_some_iff.1 (Option.mem_toList.1 found)
  exact ⟨name, named, tidy.lookup_lets.1 isBound⟩

theorem branches_slopes (shaped : Shaped x) (isKnown : x.IsKnown) (member : c ∈ x.branches) :
    ∃ entry ∈ slopes answers env lets x, entry.1 = c :=
  List.mem_map.1 ((slopes_perm shaped isKnown).symm.subset (List.mem_append_left _ member))

end Expr

section

variable {root x : Expr} {done rest : List Expr}

theorem mem_ownLets {name : String} {value : Expr} :
    (name, value) ∈ x.ownLets ↔ ∃ id dtype body, x = .node id (.letIn name) dtype [value, body] := by
  unfold Expr.ownLets
  split <;> simp_all [eq_comm]

theorem mem_of_split (split : root.differentiable.reverse = done ++ x :: rest) :
    x ∈ root.differentiable := by
  rw [← List.mem_reverse, split]
  simp

theorem lets_of_walked (tidy : Tidy root) (among : ∀ y ∈ done, y ∈ root.differentiable)
    {name : String} {value : Expr} (member : (name, value) ∈ done.reverse.flatMap Expr.ownLets) :
    Lets root name value := by
  obtain ⟨y, isDone, own⟩ := List.mem_flatMap.1 member
  obtain ⟨id, dtype, body, rfl⟩ := mem_ownLets.1 own
  exact ⟨id, dtype, body, subnode_differentiable tidy.coherent (among _ (List.mem_reverse.1 isDone))⟩

theorem lookup_walked (tidy : Tidy root) (split : root.differentiable.reverse = done ++ x :: rest)
    {name : String} (named : x.variableName? = some name) :
    (done.reverse.flatMap Expr.ownLets).lookup name = root.lets.lookup name := by
  have among (y : Expr) (isDone : y ∈ done) : y ∈ root.differentiable := by
    rw [← List.mem_reverse, split]
    exact List.mem_append_left _ isDone
  have isLet (value : Expr) (member : (name, value) ∈ done.reverse.flatMap Expr.ownLets) :=
    lets_of_walked tidy among member
  cases found : root.lets.lookup name with
  | none =>
      refine List.lookup_eq_none_iff.2 fun entry member => ?_
      rw [bne_iff_ne]
      rintro rfl
      rw [tidy.lookup_lets.2 (isLet entry.2 member)] at found
      cases found
  | some value =>
      have bound := tidy.lookup_lets.1 found
      obtain ⟨y, isDone, isNamed⟩ := let_done tidy split (free_variable named) bound.binds
      have within := subnode_differentiable tidy.coherent (among y isDone)
      obtain ⟨id, dtype, other, body, rfl⟩ := let_of_boundName (tidy.shaped_sub within) isNamed
      refine lookup_of_unique (List.mem_flatMap.2 ⟨_, List.mem_reverse.2 isDone, ?_⟩) fun _ member =>
        tidy.lets_unique (isLet _ member) bound
      rw [tidy.lets_unique bound ⟨id, dtype, body, within⟩]
      exact mem_ownLets.2 ⟨id, dtype, body, rfl⟩

end

/-- What is known while an expression is walked: the weighted amounts of the nodes that are left and
the amounts of those that are done make up the sensitivity of the root times the seed. -/
structure Swept (answers : CallValues ℚ) (base : String → ℚ) (root : Expr) (total : ℚ)
    (done rest : List Expr) (s : Accumulation) : Prop where
  floats : s.Floats
  bindings : s.bindings = done.reverse.flatMap Expr.ownLets
  known : ∀ x, x = root ∨ (∃ y ∈ done, x ∈ y.branches) → (s.adjoints[x.id]?).isSome
  balance : ∀ k,
    (rest.map fun m => s.amount answers (settled answers base root) m.id *
        sensitivityIn answers base root k m).sum +
      (done.map fun m =>
        if k = m.id then s.amount answers (settled answers base root) m.id else 0).sum =
      total * sensitivityIn answers base root k root

section

variable {answers : CallValues ℚ} {base : String → ℚ} {root x : Expr} {total : ℚ}
  {done rest : List Expr} {s left : Accumulation}

theorem Takes.amount_done {env : String → ℚ} {given : List (Expr × ℚ)} {bound : List (String × Expr)}
    (tidy : Tidy root) (split : root.differentiable.reverse = done ++ x :: rest)
    (among : ∀ entry ∈ given, entry.1 ∈ rest) (takes : Takes answers env given bound s left)
    {m : Expr} (isDone : m ∈ done ++ [x]) :
    left.amount answers env m.id = s.amount answers env m.id := by
  have distinct := ids_differentiable tidy.coherent
  rw [split, List.append_cons, List.map_append, List.nodup_append] at distinct
  rw [takes.amount, List.sum_eq_zero, add_zero]
  rw [List.forall_mem_map]
  intro entry member
  refine if_neg fun same => ?_
  exact distinct.2.2 _ (List.mem_map_of_mem isDone) _ (List.mem_map_of_mem (among entry member))
    same.symm

theorem Swept.balance_step (tidy : Tidy root)
    (split : root.differentiable.reverse = done ++ x :: rest)
    (smooth : Smooth answers (settled answers base root) x)
    (swept : Swept answers base root total done (x :: rest) s)
    (takes : Takes answers (settled answers base root)
      ((slopes answers (settled answers base root) root.lets x).map fun (c, slope) =>
        (c, slope * s.amount answers (settled answers base root) x.id)) x.ownLets s left)
    (k : NodeId) :
    (rest.map fun m => left.amount answers (settled answers base root) m.id *
        sensitivityIn answers base root k m).sum +
      ((done ++ [x]).map fun m =>
        if k = m.id then left.amount answers (settled answers base root) m.id else 0).sum =
      total * sensitivityIn answers base root k root := by
  have within := subnode_differentiable tidy.coherent (mem_of_split split)
  have distinctRest : (rest.map Expr.id).Nodup := by
    have distinct := ids_differentiable tidy.coherent
    rw [split, List.append_cons, List.map_append, List.nodup_append] at distinct
    exact distinct.2.1
  have among : ∀ entry ∈ (slopes answers (settled answers base root) root.lets x).map
      (fun (c, slope) => (c, slope * s.amount answers (settled answers base root) x.id)),
      entry.1 ∈ rest := by
    rw [List.forall_mem_map]
    intro edge isEdge
    have needed : Needs root x edge.1 := slopes_needs tidy within smooth.isKnown isEdge
    exact needs_rest tidy split needed
  have restSum : (rest.map fun m => left.amount answers (settled answers base root) m.id *
      sensitivityIn answers base root k m).sum =
        (rest.map fun m => s.amount answers (settled answers base root) m.id *
          sensitivityIn answers base root k m).sum +
        s.amount answers (settled answers base root) x.id *
          ((slopes answers (settled answers base root) root.lets x).map fun (c, slope) =>
            slope * sensitivityIn answers base root k c).sum := by
    simp only [takes.amount]
    rw [sum_given distinctRest among (s.amount answers (settled answers base root)), sum_handed_on]
  have doneSum : ((done ++ [x]).map fun m =>
      if k = m.id then left.amount answers (settled answers base root) m.id else 0).sum =
        (done.map fun m =>
          if k = m.id then s.amount answers (settled answers base root) m.id else 0).sum +
        if k = x.id then s.amount answers (settled answers base root) x.id else 0 := by
    rw [List.map_congr_left fun m isDone => by rw [takes.amount_done tidy split among isDone],
      List.map_append, List.sum_append]
    simp
  -- the weight of the node splits by its slopes, up to the node itself
  have before := swept.balance k
  rw [List.map_cons, List.sum_cons, sensitivityIn_eq tidy within smooth] at before
  rw [restSum, doneSum, ← before]
  by_cases same : k = x.id
  · simp only [same, if_true]
    ring
  · simp only [same, Ne.symm same, if_false]
    ring

theorem Swept.step (tidy : Tidy root) (split : root.differentiable.reverse = done ++ x :: rest)
    (smooth : Smooth answers (settled answers base root) x)
    (swept : Swept answers base root total done (x :: rest) s)
    (takes : Takes answers (settled answers base root)
      ((slopes answers (settled answers base root) root.lets x).map fun (c, slope) =>
        (c, slope * s.amount answers (settled answers base root) x.id)) x.ownLets s left) :
    Swept answers base root total (done ++ [x]) rest left where
  floats := takes.floats swept.floats
  bindings := by rw [takes.bindings, swept.bindings]; simp
  known y either := by
    refine takes.known y.id ?_
    rcases either with rfl | ⟨z, isDone, isBranch⟩
    · exact .inl (swept.known y (.inl rfl))
    · rcases List.mem_append.1 isDone with earlier | isHere
      · exact .inl (swept.known y (.inr ⟨z, earlier, isBranch⟩))
      · obtain rfl := List.mem_singleton.1 isHere
        have within := subnode_differentiable tidy.coherent (mem_of_split split)
        obtain ⟨entry, member, rfl⟩ := branches_slopes (tidy.shaped_sub within) smooth.isKnown isBranch
        exact .inr ⟨_, List.mem_map_of_mem member, rfl⟩
  balance := swept.balance_step tidy split smooth takes

/-- A differentiation that passes over no nodes, and takes primitives for constants. -/
structure Plainly (settings : Differentiation) (root : Expr) : Prop where
  unmuted : settings.muted = []
  policy : settings.unknownPrimitive = .zero
  ruleless : ∀ x ∈ root.differentiable, ∀ name, x.callee? = some (.primitive name) →
    settings.rules.lookup name = none

theorem propagateNodes_swept {settings : Differentiation} {ctx : CallContext} (tidy : Tidy root)
    (smooth : ∀ x ∈ root.differentiable, Smooth answers (settled answers base root) x)
    (plainly : Plainly settings root) (split : root.differentiable.reverse = done ++ rest)
    (swept : Swept answers base root total done rest s) :
    Leaves settings (ScatterFault settings ctx root.differentiable) (propagateNodes ctx rest) s
      fun _ left => Swept answers base root total root.differentiable.reverse [] left := by
  induction rest generalizing done s with
  | nil =>
      refine .pure ?_
      rwa [split, List.append_nil]
  | cons x rest ih =>
      have listed := mem_of_split split
      have within := subnode_differentiable tidy.coherent listed
      unfold propagateNodes
      refine .bind_get ?_
      split
      next missing =>
        -- one of the consumers of the node was walked before it
        have known := swept.known x (consumer_done tidy.coherent split)
        rw [missing] at known
        cases known
      next adjoint known =>
        have amounts : Amounts answers (settled answers base root)
            (s.amount answers (settled answers base root) x.id) adjoint :=
          ⟨swept.floats x.id adjoint known, by simp [Accumulation.amount, known]⟩
        have found (name : String) (named : x.variableName? = some name) :
            s.bindings.lookup name = root.lets.lookup name := by
          rw [swept.bindings]
          exact lookup_walked tidy split named
        have bound (name : String) (value : Expr) (isBound : s.bindings.lookup name = some value) :
            settled answers base root name = value.exactIn answers (settled answers base root) := by
          rw [swept.bindings] at isBound
          refine settledWith_lets tidy
            (lets_of_walked tidy (fun y isDone => ?_) (mem_of_lookup isBound))
          rw [← List.mem_reverse, split]
          exact List.mem_append_left _ isDone
        refine (propagateNode_takes listed (tidy.shaped_sub within) (smooth x listed).isKnown plainly.unmuted
          (fun _ _ => plainly.policy) (plainly.ruleless x listed) amounts found bound).bind fun _ left takes => ?_
        refine ih ?_ (swept.step tidy split (smooth x listed) takes)
        rw [split, List.append_assoc, List.singleton_append]

variable {seed : Expr}

section

variable (adjoints : s.adjoints = ({} : Std.TreeMap NodeId Expr).insert root.id seed)

include adjoints

theorem adjoint_seeded (id : NodeId) :
    s.adjoints[id]? = if root.id = id then some seed else none := by
  rw [adjoints, Std.TreeMap.getElem?_insert]
  simp

theorem floats_seeded (isFloat : seed.dtype = .float32) : s.Floats := by
  intro id a found
  rw [adjoint_seeded adjoints] at found
  split at found <;> cases found
  exact isFloat

theorem amount_seeded (env : String → ℚ) (id : NodeId) :
    s.amount answers env id = if root.id = id then seed.exactIn answers env else 0 := by
  rw [Accumulation.amount, adjoint_seeded adjoints]
  split <;> rfl

end

theorem swept_start (tidy : Tidy root) (isFloat : seed.dtype = .float32)
    (apart : ∀ name, Binds root name → ¬ Free name seed)
    (adjoints : s.adjoints = ({} : Std.TreeMap NodeId Expr).insert root.id seed)
    (bindings : s.bindings = []) :
    Swept answers base root (seed.exactIn answers base) [] root.differentiable.reverse s := by
  refine ⟨floats_seeded adjoints isFloat, bindings, fun x either => ?_, fun k => ?_⟩
  · obtain rfl : x = root := either.resolve_right (by simp)
    simp [adjoint_seeded adjoints]
  · have amounts (m : Expr) : s.amount answers (settled answers base root) m.id *
          sensitivityIn answers base root k m =
        if root.id = m.id then seed.exactIn answers base * sensitivityIn answers base root k m
        else 0 := by
      rw [amount_seeded adjoints]
      split
      · exact congrArg (· * _) (exactWith_settled tidy apart)
      · exact zero_mul _
    simp only [amounts, List.map_nil, List.sum_nil, add_zero]
    exact sum_single (ids_differentiable tidy.coherent)
      (List.mem_reverse.2 (mem_differentiable tidy.coherent)) _

/-- Propagated from a float seed, the adjoint of every node amounts to the seed times the sensitivity of
the expression to the node. Nothing fails but scattering. -/
theorem propagate_partials {settings : Differentiation} {ctx : CallContext} (tidy : Tidy root)
    (smooth : ∀ x ∈ root.differentiable, Smooth answers (settled answers base root) x)
    (plainly : Plainly settings root) (isFloat : seed.dtype = .float32)
    (apart : ∀ name, Binds root name → ¬ Free name seed) :
    Leaves settings (ScatterFault settings ctx root.differentiable) (propagate ctx root seed) s
      fun _ left => ∀ n ∈ root.differentiable, ∃ adjoint, left.adjoints[n.id]? = some adjoint ∧
        adjoint.exactIn answers (settled answers base root) =
          seed.exactIn answers base * sensitivity answers base root n.id := by
  unfold propagate
  refine Leaves.bind (Q := fun _ left => Swept answers base root (seed.exactIn answers base) []
    root.differentiable.reverse left) ?_ fun _ left swept => .bind_report ?_
  · exact .modify (swept_start tidy isFloat apart rfl rfl)
  refine (propagateNodes_swept tidy smooth plainly rfl swept).after fun _ left swept n listed => ?_
  obtain ⟨done, rest, split⟩ := List.append_of_mem (List.mem_reverse.2 listed)
  have known : (left.adjoints[n.id]?).isSome := by
    refine swept.known n ((consumer_done tidy.coherent split).imp_right
      fun ⟨y, isDone, isBranch⟩ => ?_)
    exact ⟨y, split ▸ List.mem_append_left _ isDone, isBranch⟩
  obtain ⟨adjoint, found⟩ := Option.isSome_iff_exists.1 known
  have balance := swept.balance n.id
  rw [List.map_nil, List.sum_nil, zero_add, sum_single (ids_differentiable tidy.coherent)
    (List.mem_reverse.2 listed) fun m => left.amount answers (settled answers base root) m.id]
    at balance
  have atRoot : sensitivityIn answers base root n.id root = sensitivity answers base root n.id :=
    congrArg TrivSqZeroExt.snd (exactWith_settled tidy tidy.apart)
  refine ⟨adjoint, found, ?_⟩
  rw [← atRoot, ← balance]
  simp [Accumulation.amount, found]

end

/-!
`let t = x * x in t / y`, where both factors are one node, at `x = 3` and `y = 2`.
-/

namespace SquareOver

def x : Expr := .node 0 (.var "x" false) .float32 []

def y : Expr := .node 1 (.var "y" false) .float32 []

def t : Expr := .node 2 (.var "t" false) .float32 []

def square : Expr := .node 3 (.binary .mul) .float32 [x, x]

def quotient : Expr := .node 4 (.binary .div) .float32 [t, y]

def root : Expr := .node 5 (.letIn "t") .float32 [square, quotient]

def seed : Expr := .node 6 (.const (.float 1.0)) .float32 []

def settings : Differentiation := { rules := .standard }

def base : String → ℚ := fun name => if name = "x" then 3 else 2

def answers : CallValues ℚ := fun _ _ => 0

theorem differentiable_root : root.differentiable = [x, square, t, y, quotient, root] := by
  rfl

theorem nodes {e : Expr} (within : Subnode e root) :
    e = root ∨ e = square ∨ e = x ∨ e = quotient ∨ e = t ∨ e = y := by
  simpa [root, square, quotient, x, y, t, subnode_node, or_assoc] using within

theorem binds {name : String} (bound : Binds root name) : name = "t" := by
  simpa [root, square, quotient, x, y, t, binds_node, eq_comm] using bound

theorem free {name : String} (free : Free name root) : name = "x" ∨ name = "y" := by
  have mentioned := free.mem_freeNames
  have names : root.freeNames = ["x", "y"] := by decide +kernel
  simpa [names] using mentioned

theorem tidy : Tidy root where
  shaped := by simp [root, square, quotient, x, y, t, shaped_node, Head.arity?]
  coherent e e' within within' same := by
    rcases nodes within with rfl | rfl | rfl | rfl | rfl | rfl <;>
      rcases nodes within' with rfl | rfl | rfl | rfl | rfl | rfl <;>
      first | rfl | cases same
  distinct e e' name within within' named named' := by
    rcases nodes within with rfl | rfl | rfl | rfl | rfl | rfl <;> cases named
    rcases nodes within' with rfl | rfl | rfl | rfl | rfl | rfl <;> cases named'
    rfl
  apart name bound isFree := by
    rcases free isFree with rfl | rfl <;> exact absurd (binds bound) (by decide)

theorem smooth : ∀ e ∈ root.differentiable, Smooth answers (settled answers base root) e := by
  intro e listed
  rcases nodes (subnode_differentiable tidy.coherent listed) with rfl | rfl | rfl | rfl | rfl | rfl <;>
    try exact trivial
  refine ⟨rfl, ?_⟩
  have atY : settled answers base root "y" = 2 :=
    (settledWith_other tidy fun bound => absurd (binds bound) (by decide)).trans (by decide)
  simp [y, headExact, atY]

theorem plainly : Plainly settings root where
  unmuted := rfl
  policy := rfl
  ruleless e listed name isCall := by
    rcases nodes (subnode_differentiable tidy.coherent listed) with rfl | rfl | rfl | rfl | rfl | rfl <;>
      cases isCall

theorem sensitivity_x : sensitivity answers base root x.id = 3 := by
  have value : exactWith (nudgeAt 0) answers.rigid (rigidly base) root =
      (ofRat 3 + DualNumber.eps) * (ofRat 3 + DualNumber.eps) / ofRat 2 := by
    simp [root, square, quotient, x, y, t, exactWith_let, exactWith_node, IsBinding, headExact,
      BinaryOp.exact, DType.isFloat, nudgeAt, rigidly, base]
  have divisor : (ofRat 2 : DualNumber ℚ).fst = 2 := rfl
  have three : (ofRat 3 : DualNumber ℚ).fst = 3 := rfl
  change (exactWith (nudgeAt 0) answers.rigid (rigidly base) root).snd = 3
  rw [value, snd_div _ _ (by rw [divisor]; norm_num), divisor]
  simp [three]

/-- The adjoint of `x` amounts to `2 * 3 / 2`. -/
theorem adjoint_x : Leaves settings (fun _ => False) (propagate .root root seed) {} fun _ left =>
    ∃ adjoint, left.adjoints[x.id]? = some adjoint ∧
      adjoint.exactIn answers (settled answers base root) = 3 := by
  refine (propagate_partials tidy smooth plainly rfl fun name bound isFree => ?_).mono
    (fun _ left partials => ?_) fun fault failed => ?_
  · simp [seed, free_operands] at isFree
  · have listed : x ∈ root.differentiable := by simp [differentiable_root]
    obtain ⟨adjoint, found, value⟩ := partials x listed
    have isOne : seed.exactIn answers base = 1 := by simp [seed, headExact, Constant.exact_one]
    exact ⟨adjoint, found, by rw [value, isOne, sensitivity_x, one_mul]⟩
  · obtain ⟨call, listed, id, name, _, _, _, isCall, _⟩ := failed
    rcases nodes (subnode_differentiable tidy.coherent listed) with rfl | rfl | rfl | rfl | rfl | rfl <;>
      cases isCall

end SquareOver

/-!
`a / b` with an integer seed, where `b` is an integer variable: the adjoint of `a` is a quotient of
integers.
-/

namespace IntegerSeed

def a : Expr := .node 0 (.var "a" false) .float32 []

def b : Expr := .node 1 (.var "b" false) .int32 []

def root : Expr := .node 2 (.binary .div) .float32 [a, b]

def seed : Expr := .node 3 (.const (.int 1)) .int32 []

def settings : Differentiation := { rules := .standard }

def base : String → ℚ := fun name => if name = "a" then 3 else 2

def answers : CallValues ℚ := fun _ _ => 0

def program : Program := { supply := { nodes := 4 } }

theorem nodes {e : Expr} (within : Subnode e root) : e = root ∨ e = a ∨ e = b := by
  simpa [root, a, b, subnode_node, or_assoc] using within

theorem not_binds {name : String} : ¬ Binds root name := by
  simp [root, a, b, binds_node]

theorem tidy : Tidy root where
  shaped := by simp [root, a, b, shaped_node, Head.arity?]
  coherent e e' within within' same := by
    rcases nodes within with rfl | rfl | rfl <;> rcases nodes within' with rfl | rfl | rfl <;>
      first | rfl | cases same
  distinct e e' name within _ named _ := by
    rcases nodes within with rfl | rfl | rfl <;> cases named
  apart name bound := absurd bound not_binds

theorem settled_eq : settled answers base root = base :=
  funext fun _ => settledWith_other tidy not_binds

theorem smooth : ∀ e ∈ root.differentiable, Smooth answers (settled answers base root) e := by
  intro e listed
  rcases nodes (subnode_differentiable tidy.coherent listed) with rfl | rfl | rfl <;> try exact trivial
  exact ⟨rfl, by simp [settled_eq, b, headExact, base]⟩

/-- The adjoint of `a` is zero, the rounded half, and not the half of the seed. -/
theorem adjoint_rounded : Tidy root ∧
    (∀ e ∈ root.differentiable, Smooth answers (settled answers base root) e) ∧
    Plainly settings root ∧ (∀ name, Binds root name → ¬ Free name seed) ∧
    ∃ left later adjoint,
      (((propagate .root root seed).run settings).run {}).run.run program = (.ok ((), left), later) ∧
        left.adjoints[a.id]? = some adjoint ∧
        adjoint.exactIn answers (settled answers base root) = 0 ∧
        seed.exactIn answers base * sensitivity answers base root a.id = 1 / 2 := by
  refine ⟨tidy, smooth, ⟨rfl, rfl, fun e listed name isCall => ?_⟩,
    fun name bound => absurd bound not_binds, ?_⟩
  · rcases nodes (subnode_differentiable tidy.coherent listed) with rfl | rfl | rfl <;> cases isCall
  refine ⟨_, _, .node 4 (.binary .div) .int32 [seed, b], rfl, ?_, ?_, ?_⟩
  · rfl
  · rw [settled_eq]
    simp [seed, b, headExact, BinaryOp.exact, Constant.exact, DType.isFloat, base]
    norm_num
  · have value : exactWith (nudgeAt 0) answers.rigid (rigidly base) root =
        (ofRat 3 + DualNumber.eps) / ofRat 2 := by
      simp [root, a, b, exactWith_node, IsBinding, headExact, BinaryOp.exact, DType.isFloat, nudgeAt,
        rigidly, base]
    have divisor : (ofRat 2 : DualNumber ℚ).fst = 2 := rfl
    change _ * (exactWith (nudgeAt 0) answers.rigid (rigidly base) root).snd = 1 / 2
    rw [value, snd_div _ _ (by rw [divisor]; norm_num), divisor]
    simp [seed, headExact, Constant.exact]

end IntegerSeed

end ReverseMode
