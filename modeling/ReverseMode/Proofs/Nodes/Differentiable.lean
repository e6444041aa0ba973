import Mathlib.Data.List.Nodup
import Mathlib.Order.Defs.LinearOrder
import Mathlib.Tactic.Tauto
import ReverseMode.Expr.Order
import ReverseMode.Proofs.Nodes.Free

namespace ReverseMode

namespace Expr

/-- The operands that are entered: no arguments of function and image calls, no operands of booleans
and no condition of a select. -/
def branches : Expr → List Expr
  | node _ (.call (.func _ _)) _ _ => []
  | node _ (.call (.image _)) _ _ => []
  | node _ (.binary op) _ operands => if op.isBoolean then [] else operands
  | node _ .select _ operands => operands.tail
  | node _ _ _ operands => operands
  | reduction .. => []

theorem branches_subset (e : Expr) : e.branches ⊆ e.operands := by
  intro x member
  unfold branches at member
  split at member
  · cases member
  · cases member
  · split at member
    · cases member
    · exact member
  · exact List.mem_of_mem_tail member
  · exact member
  · cases member

theorem subnode_branch {e x : Expr} (member : x ∈ e.branches) : Subnode x e := by
  cases e with
  | node => exact .operand (branches_subset _ member) .here
  | reduction => cases member

theorem sizeOf_branch {e x : Expr} (member : x ∈ e.branches) : sizeOf x < sizeOf e := by
  cases e with
  | node =>
      have smaller := List.sizeOf_lt_of_mem (branches_subset _ member)
      simp only [node.sizeOf_spec, operands] at smaller ⊢
      omega
  | reduction => cases member

def Lets (e : Expr) (name : String) (value : Expr) : Prop :=
  ∃ id dtype body, Subnode (.node id (.letIn name) dtype [value, body]) e

/-- An expression whose nodes have identities of their own, and whose `let`s have names of their own,
which are not used outside of them. -/
structure Tidy (root : Expr) : Prop where
  shaped : Shaped root
  coherent : ∀ x y, Subnode x root → Subnode y root → x.id = y.id → x = y
  distinct : ∀ x y name, Subnode x root → Subnode y root → x.boundName? = some name →
    y.boundName? = some name → x = y
  apart : ∀ name, Binds root name → ¬ Free name root

theorem Lets.binds {e value : Expr} {name : String} (bound : Lets e name value) : Binds e name := by
  obtain ⟨id, dtype, body, within⟩ := bound
  exact ⟨_, within, rfl⟩

theorem let_of_boundName {e : Expr} {name : String} (shaped : Shaped e)
    (named : e.boundName? = some name) :
    ∃ id dtype value body, e = .node id (.letIn name) dtype [value, body] := by
  cases e with
  | node id head dtype operands =>
      cases head <;> cases named
      obtain ⟨value, body, rfl⟩ := shaped.letIn
      exact ⟨id, dtype, value, body, rfl⟩
  | reduction => cases named

theorem Binds.lets {e : Expr} {name : String} (bound : Binds e name) (shaped : Shaped e) :
    ∃ value, Lets e name value := by
  obtain ⟨x, within, named⟩ := bound
  obtain ⟨id, dtype, value, body, rfl⟩ := let_of_boundName (Every.sub shaped within) named
  exact ⟨value, id, dtype, body, within⟩

theorem Tidy.lets_unique {root value value' : Expr} {name : String} (tidy : Tidy root)
    (bound : Lets root name value) (bound' : Lets root name value') : value = value' := by
  obtain ⟨id, dtype, body, within⟩ := bound
  obtain ⟨id', dtype', body', within'⟩ := bound'
  have same := tidy.distinct _ _ name within within' rfl rfl
  simp only [node.injEq, List.cons.injEq] at same
  exact same.2.2.2.1

theorem Tidy.shaped_sub {root x : Expr} (tidy : Tidy root) (within : Subnode x root) : Shaped x :=
  Every.sub tidy.shaped within

theorem free_branch {e x : Expr} {name : String} {before after : List Expr} (shaped : Shaped e)
    (split : e.branches = before ++ x :: after) (free : Free name x) :
    Free name e ∨ e.boundName? = some name ∧ ∃ value ∈ before, Lets e name value := by
  have member : x ∈ e.branches := by simp [split]
  cases e with
  | node id head dtype operands =>
      have isOperand := branches_subset _ member
      by_cases isLet : ∃ bound, head = .letIn bound
      · obtain ⟨bound, rfl⟩ := isLet
        obtain ⟨value, body, rfl⟩ := shaped.letIn
        by_cases same : bound = name
        · subst same
          cases before with
          | nil =>
              obtain ⟨rfl, _⟩ := List.cons.inj split
              exact .inl (.value free)
          | cons first rest =>
              obtain ⟨rfl, _⟩ := List.cons.inj split
              exact .inr ⟨rfl, _, .head _, id, dtype, body, .here⟩
        · rcases List.mem_pair.1 isOperand with rfl | rfl
          · exact .inl (.value free)
          · exact .inl (.body same free)
      · refine .inl (.operand (fun bound same => isLet ⟨bound, same⟩) ?_ isOperand free)
        rintro other index rfl
        rw [shaped.operands_eq] at isOperand
        cases isOperand
  | reduction => cases member

theorem free_variable {x : Expr} {name : String} (named : x.variableName? = some name) :
    Free name x := by
  cases x with
  | node id head dtype operands =>
      cases head <;> cases named
      exact .var
  | reduction =>
      cases named
      exact .reduction rfl

def Coherent (root : Expr) : Prop :=
  ∀ x y, Subnode x root → Subnode y root → x.id = y.id → x = y

/-- What a walk asks of the list at a node before it is entered, and what is in the list once the
node's branches are. -/
structure Discipline (root : Expr) (needs : Expr → Expr → Prop)
    (ready : Expr → List Expr → Prop) : Prop where
  branch : ∀ {e x before after listed all}, Subnode e root → ready e listed →
    e.branches = before ++ x :: after → listed ⊆ all → before ⊆ all → ready x all
  met : ∀ {e c listed all}, ready e listed → listed ⊆ all → e.branches ⊆ all → needs e c → c ∈ all

structure Lists (root : Expr) (needs : Expr → Expr → Prop) (pending : Expr → Prop)
    (order : NodeOrder) : Prop where
  visited : ∀ x, Subnode x root →
    (order.visited.contains x.id = true ↔ x ∈ order.nodes.toList ∨ pending x)
  within : ∀ x ∈ order.nodes.toList, Subnode x root
  nodup : order.nodes.toList.Nodup
  apart : ∀ x ∈ order.nodes.toList, ¬ pending x
  needs : ∀ before x after, order.nodes.toList = before ++ x :: after →
    ∀ c, needs x c → c ∈ before

structure Reaches (root : Expr) (needs : Expr → Expr → Prop) (pending : Expr → Prop)
    (targets : List Expr) (order left : NodeOrder) : Prop where
  lists : Lists root needs pending left
  listed : ∀ x ∈ targets, x ∈ left.nodes.toList
  grows : ∃ new, left.nodes.toList = order.nodes.toList ++ new ∧
    ∀ x ∈ new, x ∈ targets ∨ ∃ y ∈ new, x ∈ y.branches

variable {root e : Expr} {needs : Expr → Expr → Prop} {ready : Expr → List Expr → Prop}
  {pending : Expr → Prop} {order : NodeOrder}

theorem Reaches.subset {targets : List Expr} {left : NodeOrder}
    (reaches : Reaches root needs pending targets order left) :
    order.nodes.toList ⊆ left.nodes.toList := by
  obtain ⟨new, same, _⟩ := reaches.grows
  rw [same]
  exact List.subset_append_left _ _

theorem Lists.visit (coherent : Coherent root) (below : Subnode e root)
    (lists : Lists root needs pending order) (unknown : order.visited.contains e.id ≠ true) :
    Lists root needs (fun x => pending x ∨ x = e)
      { order with visited := order.visited.insert e.id } where
  visited x within := by
    rw [Std.TreeSet.contains_insert, Bool.or_eq_true, lists.visited x within, beq_iff_eq,
      Nat.compare_eq_eq]
    constructor
    · rintro (same | listed | isPending)
      · exact .inr (.inr (coherent x e within below same.symm))
      · exact .inl listed
      · exact .inr (.inl isPending)
    · rintro (listed | isPending | rfl)
      · exact .inr (.inl listed)
      · exact .inr (.inr isPending)
      · exact .inl rfl
  within := lists.within
  nodup := lists.nodup
  apart x listed either := by
    rcases either with isPending | rfl
    · exact lists.apart x listed isPending
    · exact unknown ((lists.visited x below).2 (.inl listed))
  needs := lists.needs

theorem Lists.push (below : Subnode e root) (notPending : ¬ pending e)
    (lists : Lists root needs (fun x => pending x ∨ x = e) order)
    (met : ∀ c, needs e c → c ∈ order.nodes.toList) :
    Lists root needs pending { order with nodes := order.nodes.push e } where
  visited x within := by
    rw [lists.visited x within, Array.toList_push, List.mem_append, List.mem_singleton]
    tauto
  within x listed := by
    rw [Array.toList_push, List.mem_append, List.mem_singleton] at listed
    rcases listed with earlier | rfl
    · exact lists.within x earlier
    · exact below
  nodup := by
    rw [Array.toList_push, List.nodup_append]
    refine ⟨lists.nodup, by simp, ?_⟩
    rintro x listed _ isLast rfl
    exact lists.apart x listed (.inr (List.mem_singleton.1 isLast))
  apart x listed isPending := by
    rw [Array.toList_push, List.mem_append, List.mem_singleton] at listed
    rcases listed with earlier | rfl
    · exact lists.apart x earlier (.inl isPending)
    · exact notPending isPending
  needs before x after split c needed := by
    rw [Array.toList_push] at split
    rcases List.append_eq_append_iff.1 split with ⟨more, rfl, rest⟩ | ⟨more, same, rest⟩
    · rcases List.singleton_eq_append_iff.1 rest with ⟨rfl, last⟩ | ⟨_, none⟩
      · obtain ⟨rfl, _⟩ := List.cons.inj last
        rw [List.append_nil]
        exact met c needed
      · cases none
    · cases more with
      | nil =>
          obtain ⟨rfl, _⟩ := List.cons.inj rest
          rw [List.append_nil] at same
          rw [← same]
          exact met c needed
      | cons first others =>
          obtain ⟨rfl, _⟩ := List.cons.inj rest
          exact lists.needs before x others same c needed

theorem orderFrom_known (known : order.visited.contains e.id = true) :
    ((orderFrom e).run order).2 = order := by
  cases e <;>
  · unfold orderFrom
    rw [StateT.run_bind, StateT.run_get]
    simp only [pure_bind, Expr.id] at known ⊢
    rw [if_pos known]
    rfl

theorem orderFrom_unknown (unknown : order.visited.contains e.id ≠ true) :
    ((orderFrom e).run order).2 =
      let left := ((orderAll e.branches).run
        { order with visited := order.visited.insert e.id }).2
      { left with nodes := left.nodes.push e } := by
  cases e with
  | reduction id domain axis least extent =>
      unfold orderFrom
      rw [StateT.run_bind, StateT.run_get]
      simp only [pure_bind, Expr.id] at unknown ⊢
      rw [if_neg unknown]
      rfl
  | node id head dtype operands =>
      unfold orderFrom
      rw [StateT.run_bind, StateT.run_get]
      simp only [pure_bind, Expr.id] at unknown ⊢
      rw [if_neg unknown]
      cases head with
      | call callee => cases callee <;> rfl
      | binary op =>
          cases boolean : op.isBoolean <;> simp only [branches, boolean] <;> rfl
      | select => cases operands <;> rfl
      | _ => rfl

def IsReached (root : Expr) (needs : Expr → Expr → Prop) (ready : Expr → List Expr → Prop)
    (e : Expr) : Prop :=
  ∀ (pending : Expr → Prop) (order : NodeOrder), Lists root needs pending order →
    (∀ x, pending x → sizeOf e < sizeOf x) → ready e order.nodes.toList →
    Reaches root needs pending [e] order ((orderFrom e).run order).2

theorem orderAll_reaches {es : List Expr} (each : ∀ e ∈ es, IsReached root needs ready e)
    (lists : Lists root needs pending order)
    (larger : ∀ e ∈ es, ∀ x, pending x → sizeOf e < sizeOf x)
    (prepared : ∀ before e after all, es = before ++ e :: after → order.nodes.toList ⊆ all →
      before ⊆ all → ready e all) :
    Reaches root needs pending es order ((orderAll es).run order).2 := by
  induction es generalizing order with
  | nil => exact ⟨lists, by simp, [], (List.append_nil _).symm, by simp⟩
  | cons e rest ih =>
      obtain ⟨eachHere, eachRest⟩ := List.forall_mem_cons.1 each
      obtain ⟨largerHere, largerRest⟩ := List.forall_mem_cons.1 larger
      have first := eachHere pending order lists largerHere
        (prepared [] e rest _ rfl (List.Subset.refl _) (List.nil_subset _))
      have here := first.listed e (.head _)
      -- what was listed for the first element is there for the others
      have others := ih eachRest first.lists largerRest fun before x after all split listed among =>
        prepared (e :: before) x after all (by rw [split]; rfl) (List.Subset.trans first.subset listed)
          (List.cons_subset.2 ⟨listed here, among⟩)
      obtain ⟨new1, same1, consumed1⟩ := first.grows
      obtain ⟨new2, same2, consumed2⟩ := others.grows
      refine ⟨others.lists, List.forall_mem_cons.2 ⟨others.subset here, others.listed⟩,
        new1 ++ new2, ?_, ?_⟩
      · rw [← List.append_assoc, ← same1]
        exact same2
      · intro x member
        rcases List.mem_append.1 member with inFirst | inSecond
        · refine (consumed1 x inFirst).imp (fun isHere => ?_) fun ⟨y, isNew, isBranch⟩ =>
            ⟨y, List.mem_append_left _ isNew, isBranch⟩
          rw [List.mem_singleton.1 isHere]
          exact .head _
        · exact (consumed2 x inSecond).imp (.tail _) fun ⟨y, isNew, isBranch⟩ =>
            ⟨y, List.mem_append_right _ isNew, isBranch⟩

theorem isReached (coherent : Coherent root) (discipline : Discipline root needs ready)
    (below : Subnode e root) : IsReached root needs ready e := by
  induction h : sizeOf e using Nat.strongRecOn generalizing e with
  | _ size ih =>
  intro pending order lists larger isReady
  -- what is pending encloses the node
  have notPending : ¬ pending e := fun isPending => Nat.lt_irrefl _ (larger e isPending)
  by_cases known : order.visited.contains e.id = true
  · rw [orderFrom_known known]
    have listed := ((lists.visited e below).1 known).resolve_right notPending
    exact ⟨lists, fun x isHere => List.mem_singleton.1 isHere ▸ listed, [], by simp, by simp⟩
  · rw [orderFrom_unknown known]
    have branch (x : Expr) (member : x ∈ e.branches) : IsReached root needs ready x :=
      ih (sizeOf x) (h ▸ sizeOf_branch member) ((subnode_branch member).trans below) rfl
    have entered := orderAll_reaches branch (lists.visit coherent below known)
      (fun x member y either => ?_) fun before x after all split listed among =>
        discipline.branch below isReady split listed among
    · have pushed := entered.lists.push below notPending fun c =>
        discipline.met isReady entered.subset entered.listed
      obtain ⟨new, same, consumed⟩ := entered.grows
      refine ⟨pushed, fun x isHere => ?_, new ++ [e], ?_, fun x member => ?_⟩
      · rw [List.mem_singleton.1 isHere, Array.toList_push]
        exact List.mem_append_right _ (.head _)
      · rw [Array.toList_push, same, List.append_assoc]
      · rcases List.mem_append.1 member with isNew | isHere
        · rcases consumed x isNew with isBranch | ⟨y, isNew', isBranch⟩
          · exact .inr ⟨e, List.mem_append_right _ (.head _), isBranch⟩
          · exact .inr ⟨y, List.mem_append_left _ isNew', isBranch⟩
        · exact .inl isHere
    · have smaller := sizeOf_branch member
      rcases either with isPending | rfl
      · exact Nat.lt_trans smaller (larger y isPending)
      · exact smaller

theorem differentiable_reached (coherent : Coherent root) (discipline : Discipline root needs ready)
    (isReady : ready root []) :
    Reaches root needs (fun _ => False) [root] {} ((orderFrom root).run {}).2 := by
  have nothing : Lists root needs (fun _ => False) {} :=
    ⟨fun x _ => by simp, by simp, by simp, by simp, by simp⟩
  exact isReached coherent discipline .here _ _ nothing (fun _ no => no.elim) isReady

theorem Reaches.rest {targets : List Expr}
    (reaches : Reaches root needs pending targets {} ((orderFrom root).run {}).2)
    {done rest : List Expr} {x c : Expr}
    (split : root.differentiable.reverse = done ++ x :: rest) (needed : needs x c) : c ∈ rest := by
  have forward : root.differentiable = rest.reverse ++ x :: done.reverse := by
    rw [← List.reverse_reverse root.differentiable, split]
    simp
  exact List.mem_reverse.1 (reaches.lists.needs _ _ _ forward c needed)

theorem differentiable_branches (coherent : Coherent root) :
    Reaches root (fun x c => c ∈ x.branches) (fun _ => False) [root] {}
      ((orderFrom root).run {}).2 := by
  have discipline : Discipline root (fun x c => c ∈ x.branches) fun _ _ => True :=
    ⟨fun _ _ _ _ _ => trivial, fun _ _ entered member => entered member⟩
  exact differentiable_reached coherent discipline trivial

theorem mem_differentiable (coherent : Coherent root) : root ∈ root.differentiable :=
  (differentiable_branches coherent).listed root (.head _)

theorem nodup_differentiable (coherent : Coherent root) : root.differentiable.Nodup :=
  (differentiable_branches coherent).lists.nodup

theorem subnode_differentiable (coherent : Coherent root) {x : Expr}
    (listed : x ∈ root.differentiable) : Subnode x root :=
  (differentiable_branches coherent).lists.within x listed

theorem ids_differentiable (coherent : Coherent root) :
    (root.differentiable.reverse.map Expr.id).Nodup :=
  (List.nodup_reverse.2 (nodup_differentiable coherent)).map_on fun x listed y listed' =>
    coherent x y (subnode_differentiable coherent (List.mem_reverse.1 listed))
      (subnode_differentiable coherent (List.mem_reverse.1 listed'))

theorem consumer_done (coherent : Coherent root) {done rest : List Expr} {x : Expr}
    (split : root.differentiable.reverse = done ++ x :: rest) :
    x = root ∨ ∃ y ∈ done, x ∈ y.branches := by
  have reached := differentiable_branches coherent
  have listed : x ∈ root.differentiable := by
    rw [← List.mem_reverse, split]
    simp
  obtain ⟨new, same, consumed⟩ := reached.grows
  have isNew : new = root.differentiable := same.symm
  rw [isNew] at consumed
  refine (consumed x listed).imp List.mem_singleton.1
    fun ⟨y, isListed, isBranch⟩ => ⟨y, ?_, isBranch⟩
  rw [← List.mem_reverse, split] at isListed
  rcases List.mem_append.1 isListed with isDone | isHere | isRest
  · exact isDone
  · exact absurd (sizeOf_branch isBranch) (Nat.lt_irrefl _)
  · -- the operand of a later node would come later still
    obtain ⟨before, after, rfl⟩ := List.append_of_mem ‹y ∈ rest›
    have later : root.differentiable.reverse = (done ++ x :: before) ++ y :: after := by simp [split]
    have below := reached.rest later isBranch
    have distinct := List.nodup_reverse.2 (nodup_differentiable coherent)
    rw [split] at distinct
    have apart := (List.nodup_cons.1 (List.nodup_append.1 distinct).2.1).1
    exact absurd (by simp [below]) apart

def Needs (root x c : Expr) : Prop :=
  c ∈ x.branches ∨ ∃ name, x.variableName? = some name ∧ Lets root name c

def Bound (root x : Expr) (listed : List Expr) : Prop :=
  ∀ name value, Free name x → Lets root name value → value ∈ listed

theorem Tidy.discipline (tidy : Tidy root) : Discipline root (Needs root) (Bound root) where
  branch {e x before after listed all} below isBound split subset among := by
    intro name value free isLet
    rcases free_branch (tidy.shaped_sub below) split free with isFree | ⟨named, value', first, here⟩
    · exact subset (isBound name value isFree isLet)
    · obtain ⟨id, dtype, body, within⟩ := here
      rw [tidy.lets_unique isLet ⟨id, dtype, body, within.trans below⟩]
      exact among first
  met isBound subset entered needed := by
    rcases needed with isBranch | ⟨name, named, isLet⟩
    · exact entered isBranch
    · exact subset (isBound name _ (free_variable named) isLet)

theorem needs_rest (tidy : Tidy root) {done rest : List Expr} {x c : Expr}
    (split : root.differentiable.reverse = done ++ x :: rest) (needed : Needs root x c) :
    c ∈ rest := by
  refine (differentiable_reached tidy.coherent tidy.discipline ?_).rest split needed
  exact fun name value free bound => absurd free (tidy.apart name bound.binds)

theorem let_done (tidy : Tidy root) {done rest : List Expr} {x : Expr} {name : String}
    (split : root.differentiable.reverse = done ++ x :: rest) (free : Free name x)
    (binds : Binds root name) : ∃ y ∈ done, y.boundName? = some name := by
  induction h : done.length using Nat.strongRecOn generalizing done x rest with
  | _ length ih =>
  rcases consumer_done tidy.coherent split with rfl | ⟨y, isDone, isBranch⟩
  · exact absurd free (tidy.apart name binds)
  · obtain ⟨before, after, same⟩ := List.append_of_mem isBranch
    have listed : y ∈ root.differentiable := by
      rw [← List.mem_reverse, split]
      simp [isDone]
    have shaped := tidy.shaped_sub (subnode_differentiable tidy.coherent listed)
    rcases free_branch shaped same free with isFree | ⟨named, _⟩
    · obtain ⟨earlier, between, rfl⟩ := List.append_of_mem isDone
      have shorter : earlier.length < length := by
        rw [← h]
        simp
      have before : root.differentiable.reverse = earlier ++ y :: (between ++ x :: rest) := by
        simp [split]
      obtain ⟨z, isEarlier, named⟩ := ih earlier.length shorter before isFree rfl
      exact ⟨z, List.mem_append_left _ isEarlier, named⟩
    · exact ⟨y, isDone, named⟩

end Expr

end ReverseMode
