import ReverseMode.Proofs.Derivative.Mentioning
import ReverseMode.Proofs.Program.Redirection

namespace ReverseMode

open Expr

def Accomplishes {α : Type} (settings : Differentiation) (action : AdjointM α) (r : Registry)
    (p : Program) (s : Accumulation) (Q : Registry → Program → Accumulation → α → Prop) : Prop :=
  Achieves ((action.run settings).run s) r p fun later left result => Q later left result.2 result.1

namespace Accomplishes

variable {α β : Type} {settings : Differentiation} {r : Registry} {p : Program} {s : Accumulation}
  {Q Q' : Registry → Program → Accumulation → α → Prop}
  {R : Registry → Program → Accumulation → β → Prop}

theorem pure {a : α} (answer : Q r p s a) : Accomplishes settings (Pure.pure a) r p s Q :=
  Achieves.pure (a := (a, s)) answer

theorem bind {action : AdjointM α} {rest : α → AdjointM β}
    (first : Accomplishes settings action r p s Q)
    (second : ∀ later left s' a, r.Extends later → Q later left s' a →
      Accomplishes settings (rest a) later left s' R) :
    Accomplishes settings (action >>= rest) r p s R := by
  change Achieves ((action.run settings >>= fun a => (rest a).run settings).run s) r p _
  exact Achieves.run_bind first fun later left result extended answer =>
    second later left result.2 result.1 extended answer

theorem mono {action : AdjointM α} (run : Accomplishes settings action r p s Q)
    (implies : ∀ later left s' a, r.Extends later → Q later left s' a → Q' later left s' a) :
    Accomplishes settings action r p s Q' :=
  Achieves.mono run fun later left result extended answer =>
    implies later left result.2 result.1 extended answer

theorem lift {action : ProgramM α} {P : Registry → Program → α → Prop}
    (achieved : Achieves action r p P) :
    Accomplishes settings (liftM action) r p s fun later left s' a => s' = s ∧ P later left a := by
  change Achieves ((liftM action : StateT Accumulation ProgramM α).run s) r p _
  exact (Achieves.run_lift achieved).mono fun _ _ _ _ answer => ⟨answer.2, answer.1⟩

theorem bind_lift {action : ProgramM α} {rest : α → AdjointM β} {P : Registry → Program → α → Prop}
    (achieved : Achieves action r p P)
    (second : ∀ later left a, r.Extends later → P later left a →
      Accomplishes settings (rest a) later left s R) :
    Accomplishes settings (liftM action >>= rest) r p s R := by
  refine (lift achieved).bind fun later left s' a extended answer => ?_
  obtain ⟨rfl, answer⟩ := answer
  exact second later left a extended answer

theorem bind_get {rest : Accumulation → AdjointM β} (second : Accomplishes settings (rest s) r p s R) :
    Accomplishes settings (Accumulation.get >>= rest) r p s R := second

theorem bind_settings {rest : Differentiation → AdjointM β}
    (second : Accomplishes settings (rest settings) r p s R) :
    Accomplishes settings (readThe Differentiation >>= rest) r p s R := second

theorem modify {change : Accumulation → Accumulation}
    {Q : Registry → Program → Accumulation → Unit → Prop} (answer : Q r p (change s) ()) :
    Accomplishes settings (Accumulation.modify change) r p s Q :=
  Achieves.pure (a := ((), change s)) answer

theorem throw {fault : Fault} :
    Accomplishes settings (liftM (MonadExcept.throw fault : ProgramM α)) r p s Q :=
  (lift (P := fun _ _ _ => False) Achieves.throw).mono fun _ _ _ _ _ answer => answer.2.elim

theorem throw_bind {fault : Fault} {rest : α → AdjointM β} :
    Accomplishes settings (liftM (MonadExcept.throw fault : ProgramM α) >>= rest) r p s R :=
  (throw (Q := fun _ _ _ _ => False)).bind fun _ _ _ _ _ => False.elim

theorem leaves {action : AdjointM α} {E : Fault → Prop} {P : α → Accumulation → Prop}
    (run : Accomplishes settings action r p s Q) (leaves : Leaves settings E action s P) :
    Accomplishes settings action r p s fun later left s' a => Q later left s' a ∧ P a s' := by
  intro fits result left ran
  obtain ⟨later, extended, fits', answer⟩ := run fits result left ran
  have ends := leaves p
  rw [ran] at ends
  exact ⟨later, extended, fits', answer, ends⟩

end Accomplishes

structure Spun (r : Registry) (root seed e : Expr) : Prop where
  held : r.Holds e
  plain : Plain e
  origin : ∀ y, Subnode y e → (∃ name, y.variableName? = some name) ∨ (∃ id, y.CallsHere id) →
    Subnode y root ∨ Subnode y seed

namespace Spun

variable {r later : Registry} {root seed a b condition e x : Expr}

theorem extend (spun : Spun r root seed e) (extended : r.Extends later) : Spun later root seed e :=
  ⟨spun.held.extend extended, spun.plain, spun.origin⟩

theorem of_root (held : r.Holds root) (plain : Plain root) (within : Subnode x root) :
    Spun r root seed x :=
  ⟨held.sub within, plain.sub within, fun _ deeper _ => .inl (deeper.trans within)⟩

theorem of_seed (held : r.Holds seed) (plain : Plain seed) : Spun r root seed seed :=
  ⟨held, plain, fun _ within _ => .inr within⟩

theorem node {id : NodeId} {head : Head} {dtype : DType} {operands : List Expr}
    (held : r.Holds (.node id head dtype operands)) (plain : IsPlain (.node id head dtype operands))
    (notVar : ∀ name index, head ≠ .var name index) (notCall : ∀ callee, head ≠ .call callee)
    (each : ∀ x ∈ operands, Spun r root seed x) : Spun r root seed (.node id head dtype operands) where
  held := held
  plain := plain_node.2 ⟨plain, fun x member => (each x member).plain⟩
  origin y within leaf := by
    rcases subnode_node.1 within with rfl | ⟨x, member, deeper⟩
    · rcases leaf with ⟨name, named⟩ | ⟨callee, name, called⟩
      · cases head <;> cases named
        exact absurd rfl (notVar name _)
      · cases head <;> cases called
        exact absurd rfl (notCall _)
    · exact (each x member).origin y deeper leaf

variable (root seed) in
theorem const (c : Constant) : Builds (Expr.const c) r fun later e => Spun later root seed e := by
  refine (Builds.const c).mono fun later e _ made => ?_
  obtain ⟨held, id, rfl⟩ := made
  refine .node held ⟨fun n arity => ?_, by simp⟩ (by simp) (by simp) (by simp)
  cases arity
  rfl

theorem binary (op : BinaryOp) (left : Spun r root seed a) (right : Spun r root seed b) :
    Builds (Expr.mkBinary op a b) r fun later e => Spun later root seed e ∧
      ∀ y, Subnode y a ∨ Subnode y b → Subnode y e := by
  refine (Builds.binary op left.held right.held).mono fun later e extended made => ?_
  obtain ⟨held, id, rfl⟩ := made
  refine ⟨.node held ⟨fun n arity => ?_, by simp⟩ (by simp) (by simp) fun x member => ?_,
    fun y either => ?_⟩
  · cases arity
    rfl
  · rcases List.mem_pair.1 member with rfl | rfl
    · exact left.extend extended
    · exact right.extend extended
  · rcases either with inLeft | inRight
    · exact .operand (.head _) inLeft
    · exact .operand (.tail _ (.head _)) inRight

theorem compare (op : BinaryOp) (left : Spun r root seed a) (right : Spun r root seed b) :
    Builds (Expr.compare op a b) r fun later e => Spun later root seed e := by
  unfold Expr.compare
  split
  · exact (binary _ right left).mono fun _ _ _ => And.left
  · exact (binary _ left right).mono fun _ _ _ => And.left

theorem select (first : Spun r root seed condition) (second : Spun r root seed a)
    (third : Spun r root seed b) :
    Builds (Expr.select condition a b) r fun later e => Spun later root seed e ∧
      ∀ y, Subnode y a ∨ Subnode y b → Subnode y e := by
  refine (Builds.select first.held second.held third.held).mono fun later e extended made => ?_
  obtain ⟨held, id, rfl⟩ := made
  refine ⟨.node held ⟨fun n arity => ?_, by simp⟩ (by simp) (by simp) fun x member => ?_,
    fun y either => ?_⟩
  · cases arity
    rfl
  · simp only [List.mem_cons, List.not_mem_nil, or_false] at member
    rcases member with rfl | rfl | rfl
    · exact first.extend extended
    · exact second.extend extended
    · exact third.extend extended
  · rcases either with inFirst | inSecond
    · exact .operand (.tail _ (.head _)) inFirst
    · exact .operand (.tail _ (.tail _ (.head _))) inSecond

end Spun

/-- An expression spun over the seed. -/
structure Derived (r : Registry) (root seed e : Expr) : Prop extends Spun r root seed e where
  seeded : Subnode seed e

namespace Derived

variable {r later : Registry} {root seed a b adjoint condition e : Expr}

theorem extend (derived : Derived r root seed e) (extended : r.Extends later) :
    Derived later root seed e :=
  ⟨derived.toSpun.extend extended, derived.seeded⟩

theorem over_left (op : BinaryOp) (left : Derived r root seed a) (right : Spun r root seed b) :
    Builds (Expr.mkBinary op a b) r fun later e => Derived later root seed e :=
  (Spun.binary op left.toSpun right).mono fun _ _ _ made => ⟨made.1, made.2 _ (.inl left.seeded)⟩

theorem neg (derived : Derived r root seed e) :
    Builds e.neg r fun later e => Derived later root seed e := by
  have subtracted (c : Constant) : Builds (do (← Expr.const c).sub e) r
      fun later e => Derived later root seed e :=
    Builds.bind (Spun.const root seed c) fun later zero extended isZero =>
      (Spun.binary .sub isZero (derived.toSpun.extend extended)).mono fun _ _ _ made =>
        ⟨made.1, made.2 _ (.inr derived.seeded)⟩
  unfold Expr.neg
  split
  · exact subtracted _
  · exact subtracted _

theorem whereHolds (isCondition : Spun r root seed condition) (derived : Derived r root seed adjoint) :
    Builds (adjointWhere condition adjoint) r fun later e => Derived later root seed e := by
  refine Builds.bind (Spun.const root seed (.float 0.0))
    fun later zero extended isZero => ?_
  exact (Spun.select (isCondition.extend extended) (derived.toSpun.extend extended) isZero).mono
    fun _ _ _ made => ⟨made.1, made.2 _ (.inl derived.seeded)⟩

theorem unlessHolds (isCondition : Spun r root seed condition) (derived : Derived r root seed adjoint) :
    Builds (adjointUnless condition adjoint) r fun later e => Derived later root seed e := by
  refine Builds.bind (Spun.const root seed (.float 0.0))
    fun later zero extended isZero => ?_
  exact (Spun.select (isCondition.extend extended) isZero (derived.toSpun.extend extended)).mono
    fun _ _ _ made => ⟨made.1, made.2 _ (.inr derived.seeded)⟩

def Contribute (r : Registry) (root seed a b : Expr) (contributions : List (Expr × Expr)) : Prop :=
  ∀ contribution ∈ contributions, contribution.1 ∈ [a, b] ∧ Derived r root seed contribution.2

theorem Contribute.pair {first second : Expr} (isFirst : Derived r root seed first)
    (isSecond : Derived r root seed second) : Contribute r root seed a b [(a, first), (b, second)] := by
  intro contribution member
  rcases List.mem_pair.1 member with rfl | rfl
  · exact ⟨.head _, isFirst⟩
  · exact ⟨.tail _ (.head _), isSecond⟩

theorem selected (op : BinaryOp) (left : Spun r root seed a) (right : Spun r root seed b)
    (derived : Derived r root seed adjoint) :
    Builds (do
      let first ← adjointWhere (← Expr.compare op a b) adjoint
      let second ← adjointWhere (← Expr.compare op b a) adjoint
      return [(a, first), (b, second)]) r fun later => Contribute later root seed a b := by
  refine Builds.bind (Spun.compare op left right) fun r1 condition ext1 isCondition => ?_
  refine Builds.bind (whereHolds isCondition (derived.extend ext1)) fun r2 first ext2 isFirst => ?_
  have ext02 := ext1.trans ext2
  refine Builds.bind (Spun.compare op (right.extend ext02) (left.extend ext02))
    fun r3 condition' ext3 isCondition' => ?_
  refine Builds.bind (whereHolds isCondition' (derived.extend (ext02.trans ext3)))
    fun r4 second ext4 isSecond => ?_
  exact .pure (.pair (isFirst.extend (ext3.trans ext4)) isSecond)

theorem contributions (op : BinaryOp) (left : Spun r root seed a) (right : Spun r root seed b)
    (derived : Derived r root seed adjoint) :
    Builds (binaryContributions op a b adjoint) r fun later contributions =>
      Contribute later root seed a b contributions ∧ (op.isBoolean = true → contributions = []) ∧
        (op = .add → contributions = [(a, adjoint), (b, adjoint)]) := by
  have other {action : NodeM (List (Expr × Expr))} (arithmetic : op.isBoolean = false)
      (notAdd : op ≠ .add) (built : Builds action r fun later => Contribute later root seed a b) :
      Builds action r fun later contributions =>
        Contribute later root seed a b contributions ∧ (op.isBoolean = true → contributions = []) ∧
          (op = .add → contributions = [(a, adjoint), (b, adjoint)]) :=
    built.mono fun _ _ _ made => ⟨made, by simp [arithmetic], by simp [notAdd]⟩
  unfold binaryContributions
  cases op with
  | add => exact .pure ⟨.pair derived derived, by simp [BinaryOp.isBoolean], fun _ => rfl⟩
  | sub =>
      refine other rfl (by decide) (Builds.bind derived.neg fun r1 negative ext1 isNegative => ?_)
      exact .pure (.pair (derived.extend ext1) isNegative)
  | mul =>
      refine other rfl (by decide) (Builds.bind (derived.over_left .mul right)
        fun r1 first ext1 isFirst => ?_)
      refine Builds.bind ((derived.extend ext1).over_left .mul (left.extend ext1))
        fun r2 second ext2 isSecond => ?_
      exact .pure (.pair (isFirst.extend ext2) isSecond)
  | div =>
      refine other rfl (by decide) (Builds.bind (derived.over_left .div right)
        fun r1 first ext1 isFirst => ?_)
      refine Builds.bind (derived.extend ext1).neg fun r2 negative ext2 isNegative => ?_
      have ext02 := ext1.trans ext2
      refine Builds.bind (isNegative.over_left .mul (left.extend ext02))
        fun r3 weighted ext3 isWeighted => ?_
      have ext03 := ext02.trans ext3
      refine Builds.bind (Spun.binary .mul (right.extend ext03) (right.extend ext03))
        fun r4 square ext4 isSquare => ?_
      refine Builds.bind ((isWeighted.extend ext4).over_left .div isSquare.1)
        fun r5 second ext5 isSecond => ?_
      exact .pure (.pair (isFirst.extend (ext2.trans (ext3.trans (ext4.trans ext5)))) isSecond)
  | min => exact other rfl (by decide) (selected .le left right derived)
  | max => exact other rfl (by decide) (selected .ge left right derived)
  | _ => exact .pure ⟨fun _ absent => absurd absent List.not_mem_nil, fun _ => rfl, by simp⟩

end Derived

def Accumulation.Derives (s : Accumulation) (r : Registry) (root seed : Expr) : Prop :=
  ∀ (id : NodeId) (a : Expr), s.adjoints[id]? = some a → Derived r root seed a

structure Spreads (r : Registry) (root seed : Expr) (given : List Expr) (s left : Accumulation) :
    Prop where
  derives : left.Derives r root seed
  kept : ∀ id, (∀ c ∈ given, c.id ≠ id) → left.adjoints[id]? = s.adjoints[id]?
  stays : ∀ id name, s.Mentions id name → left.Mentions id name
  rest : left = { s with adjoints := left.adjoints }

namespace Spreads

variable {r later : Registry} {root seed : Expr} {given given' : List Expr} {s middle left : Accumulation}

theorem nothing (derives : s.Derives r root seed) : Spreads r root seed given s s :=
  ⟨derives, fun _ _ => rfl, fun _ _ => id, rfl⟩

theorem trans (first : Spreads r root seed given s middle)
    (second : Spreads later root seed given' middle left) :
    Spreads later root seed (given ++ given') s left where
  derives := second.derives
  kept id others :=
    (second.kept id fun c member => others c (List.mem_append_right _ member)).trans
      (first.kept id fun c member => others c (List.mem_append_left _ member))
  stays id name mentioned := second.stays id name (first.stays id name mentioned)
  rest := by
    rw [second.rest, first.rest]

theorem mono (spreads : Spreads r root seed given s left) (among : ∀ c ∈ given, c ∈ given') :
    Spreads r root seed given' s left :=
  ⟨spreads.derives, fun id others => spreads.kept id fun c member => others c (among c member),
    spreads.stays, spreads.rest⟩

end Spreads

section

variable {settings : Differentiation} {r : Registry} {p : Program} {s : Accumulation}
  {root seed target adjoint x : Expr}

theorem Derived.not_mentions {e : Expr} {name : String} (derived : Derived r root seed e)
    (isZero : e.isZero = true) : ¬ Mentions e name := by
  have arity := derived.plain.shaped.here
  cases e with
  | reduction => cases isZero
  | node id head dtype operands =>
      cases head <;> try cases isZero
      obtain rfl := List.length_eq_zero_iff.1 (arity 0 rfl)
      rw [mentions_operands rfl]
      simp

theorem accumulate_spreads (derives : s.Derives r root seed) (derived : Derived r root seed adjoint) :
    Accomplishes settings (accumulate target adjoint) r p s fun later left s' _ =>
      left.funcs = p.funcs ∧ Spreads later root seed [target] s s' ∧
        (s.adjoints[target.id]? = none → s'.adjoints[target.id]? = some adjoint) ∧
        ∀ name, Mentions adjoint name → s'.Mentions target.id name := by
  have stored {later : Registry} {total : Expr} (extended : r.Extends later)
      (isDerived : Derived later root seed total)
      (first : s.adjoints[target.id]? = none → total = adjoint)
      (keeps : ∀ name, s.Mentions target.id name ∨ Mentions adjoint name → Mentions total name) :
      Spreads later root seed [target] s
          { s with adjoints := s.adjoints.insert target.id total } ∧
        (s.adjoints[target.id]? = none →
          (s.adjoints.insert target.id total)[target.id]? = some adjoint) ∧
        ∀ name, Mentions adjoint name → Accumulation.Mentions
          { s with adjoints := s.adjoints.insert target.id total } target.id name := by
    have isTotal : (s.adjoints.insert target.id total)[target.id]? = some total := by simp
    refine ⟨⟨fun id a found => ?_, fun id others => ?_, fun id name mentioned => ?_, rfl⟩,
      fun unknown => ?_, fun name mentioned => ⟨total, isTotal, keeps name (.inr mentioned)⟩⟩
    · dsimp only at found
      rw [Std.TreeMap.getElem?_insert] at found
      split at found
      next => cases found; exact isDerived
      next => exact (derives id a found).extend extended
    · have other := others target (.head _)
      simp [Std.TreeMap.getElem?_insert, other]
    · by_cases same : target.id = id
      · subst same
        exact ⟨total, isTotal, keeps name (.inl mentioned)⟩
      · obtain ⟨a, found, inside⟩ := mentioned
        exact ⟨a, by simp [Std.TreeMap.getElem?_insert, same, found], inside⟩
    · rw [isTotal, first unknown]
  unfold accumulate
  refine .bind_get ?_
  dsimp only
  split
  next unknown =>
    refine .modify ⟨rfl, stored (.refl r) derived (fun _ => rfl) fun name either => ?_⟩
    refine either.resolve_left fun ⟨a, found, _⟩ => ?_
    rw [unknown] at found
    cases found
  next earlier known =>
    have isEarlier := derives _ _ known
    have occupied {total : Expr} (unknown : s.adjoints[target.id]? = none) : total = adjoint := by
      rw [known] at unknown
      cases unknown
    have ofEarlier {name : String} (mentioned : s.Mentions target.id name) : Mentions earlier name := by
      obtain ⟨a, found, inside⟩ := mentioned
      rwa [← Option.some.inj (found.symm.trans known)]
    -- A zero mentions no name, so that none is lost with it.
    split
    next isZero =>
      exact .modify ⟨rfl, stored (.refl r) derived (fun _ => rfl) fun name either =>
        either.resolve_left fun mentioned => isEarlier.not_mentions isZero (ofEarlier mentioned)⟩
    next =>
      split
      next isZero =>
        exact .modify ⟨rfl, stored (.refl r) isEarlier occupied fun name either =>
          either.elim ofEarlier fun mentioned => absurd mentioned (derived.not_mentions isZero)⟩
      next =>
        refine .bind_lift (Achieves.builds ((isEarlier.over_left .add derived.toSpun).produces
          (mkBinary_over .add earlier adjoint))) fun later left total extended made => ?_
        obtain ⟨same, isTotal, within⟩ := made
        exact .modify ⟨same, stored extended isTotal occupied fun name either =>
          either.elim (fun mentioned => (ofEarlier mentioned).sub within.1) (·.sub within.2)⟩

theorem accumulateEach_spreads {contributions : List (Expr × Expr)} (derives : s.Derives r root seed)
    (each : ∀ contribution ∈ contributions, Derived r root seed contribution.2) :
    Accomplishes settings (accumulateEach contributions) r p s fun later left s' _ =>
      left.funcs = p.funcs ∧ Spreads later root seed (contributions.map Prod.fst) s s' ∧
        (∀ first rest, contributions = first :: rest → (∀ other ∈ rest, other.1.id ≠ first.1.id) →
          s.adjoints[first.1.id]? = none → s'.adjoints[first.1.id]? = some first.2) ∧
        ∀ contribution ∈ contributions, ∀ name, Mentions contribution.2 name →
          s'.Mentions contribution.1.id name := by
  induction contributions generalizing r p s with
  | nil => exact .pure ⟨rfl, .nothing derives, by simp, by simp⟩
  | cons first rest ih =>
      obtain ⟨isFirst, others⟩ := List.forall_mem_cons.1 each
      refine (accumulate_spreads derives isFirst).bind fun r1 p1 s1 _ ext1 given => ?_
      obtain ⟨same, spreads, isNew, gains⟩ := given
      refine (ih spreads.derives fun other member => (others other member).extend ext1).mono
        fun r2 p2 s2 _ _ done => ?_
      obtain ⟨sameRest, spreadsRest, _, gainsRest⟩ := done
      refine ⟨sameRest.trans same, spreads.trans spreadsRest, ?_,
        List.forall_mem_cons.2 ⟨fun name mentioned => spreadsRest.stays _ name (gains name mentioned),
          gainsRest⟩⟩
      rintro _ _ ⟨⟩ apart unknown
      rw [spreadsRest.kept _ fun c member => ?_, isNew unknown]
      obtain ⟨other, inRest, rfl⟩ := List.mem_map.1 member
      exact apart other inRest

theorem propagateNode_spreads {ctx : CallContext} (unmuted : settings.muted = [])
    (bindings : s.bindings = []) (held : r.Holds root) (plain : Plain root)
    (within : Subnode x root) (elementary : IsElementary x)
    (noCall : ∀ id name, x.callee? ≠ some (.func id name)) (derives : s.Derives r root seed)
    (derived : Derived r root seed adjoint) :
    Accomplishes settings (propagateNode ctx x adjoint) r p s fun later left s' _ =>
      left.funcs = p.funcs ∧ Spreads later root seed x.branches s s' ∧
        (∀ id dtype a b, x = .node id (.binary .add) dtype [a, b] → b.id ≠ a.id →
          s.adjoints[a.id]? = none → s'.adjoints[a.id]? = some adjoint) ∧ s'.Weighed x adjoint := by
  have arity := (plain.shaped x within)
  have operand {a : Expr} (member : a ∈ x.operands) : Spun r root seed a :=
    .of_root held plain ((subnode_operand member).trans within)
  unfold propagateNode
  refine .bind_settings ?_
  rw [unmuted]
  -- No name is bound, so that what reaches a variable is dropped.
  have variable_spreads (name : String) (notSum : ∀ id dtype a b,
      x ≠ .node id (.binary .add) dtype [a, b]) (weightless : x.weights = []) :
      Accomplishes settings (accumulateVariable name adjoint) r p s fun later left s' _ =>
        left.funcs = p.funcs ∧ Spreads later root seed x.branches s s' ∧
          (∀ id dtype a b, x = .node id (.binary .add) dtype [a, b] → b.id ≠ a.id →
            s.adjoints[a.id]? = none → s'.adjoints[a.id]? = some adjoint) ∧ s'.Weighed x adjoint := by
    unfold accumulateVariable
    refine .bind_get ?_
    rw [bindings]
    exact .pure ⟨rfl, .nothing derives, fun id dtype a b same => absurd same (notSum id dtype a b),
      .of_weightless weightless⟩
  cases x with
  | reduction id domain axis least extent => exact variable_spreads _ (by simp) rfl
  | node id head dtype operands =>
      cases head with
      | const c => exact .pure ⟨rfl, .nothing derives, by simp, .of_weightless rfl⟩
      | var name index => exact variable_spreads name (by simp) rfl
      | cast =>
          obtain ⟨a, rfl⟩ := List.length_eq_one_iff.1 (arity 1 rfl)
          exact (accumulate_spreads derives derived).mono fun _ _ _ _ _ done =>
            ⟨done.1, done.2.1, by simp, List.forall_mem_singleton.2
              (List.forall_mem_singleton.2 done.2.2.2)⟩
      | binary op =>
          obtain ⟨a, b, rfl⟩ := List.length_eq_two.1 (arity 2 rfl)
          refine .bind_lift (Achieves.builds ((derived.contributions op (operand (.head _))
            (operand (.tail _ (.head _)))).produces (binaryContributions_over a b adjoint op)))
            fun r1 p1 contributions ext1 made => ?_
          obtain ⟨same, ⟨each, isBoolean, isSum⟩, built⟩ := made
          refine (accumulateEach_spreads (fun id a found => (derives id a found).extend ext1)
            fun contribution member => (each contribution member).2).mono fun r2 p2 s2 _ _ done => ?_
          obtain ⟨sameLast, spreads, first, gains⟩ := done
          refine ⟨sameLast.trans same, ?_, ?_, fun branch isBranch w member name mentioned => ?_⟩
          · refine spreads.mono fun c member => ?_
            obtain ⟨contribution, among, rfl⟩ := List.mem_map.1 member
            change contribution.1 ∈ if op.isBoolean then [] else [a, b]
            split
            next boolean => rw [isBoolean boolean] at among; cases among
            next => exact (each contribution among).1
          · rintro _ _ _ _ ⟨⟩ apart unknown
            exact first _ _ (isSum rfl) (by simpa using apart) unknown
          · obtain ⟨contribution, among, goes⟩ := forall₂_mem_left built.flip isBranch
            rw [← goes.1]
            exact gains contribution among name (Over.mentions goes member mentioned)
      | select =>
          obtain ⟨condition, a, b, rfl⟩ := List.length_eq_three.1 (arity 3 rfl)
          refine .bind_lift (Achieves.builds ((derived.whereHolds (operand (.head _))).produces
            (adjointWhere_over condition adjoint))) fun r1 p1 first ext1 made1 => ?_
          obtain ⟨same1, isFirst, over1⟩ := made1
          refine (accumulate_spreads (fun id a found => (derives id a found).extend ext1)
            isFirst).bind fun r2 p2 s2 _ ext2 done2 => ?_
          obtain ⟨same2, spreads2, _, gains2⟩ := done2
          refine .bind_lift (Achieves.builds (((derived.extend (ext1.trans ext2)).unlessHolds
            ((operand (.head _)).extend (ext1.trans ext2))).produces
            (adjointUnless_over condition adjoint))) fun r3 p3 second ext3 made3 => ?_
          obtain ⟨same3, isSecond, over3⟩ := made3
          refine (accumulate_spreads (fun id a found => (spreads2.derives id a found).extend ext3)
            isSecond).mono fun r4 p4 s4 _ ext4 done4 => ?_
          obtain ⟨same4, spreads4, _, gains4⟩ := done4
          refine ⟨same4.trans (same3.trans (same2.trans same1)), spreads2.trans spreads4, by simp,
            List.forall_mem_cons.2 ⟨fun w member name mentioned => ?_,
              List.forall_mem_singleton.2 fun w member name mentioned => ?_⟩⟩
          · refine spreads4.stays _ name (gains2 name (mentioned.sub ?_))
            rcases List.mem_pair.1 member with rfl | rfl
            · exact over1.2
            · exact over1.1
          · refine gains4 name (mentioned.sub ?_)
            rcases List.mem_pair.1 member with rfl | rfl
            · exact over3.2
            · exact over3.1
      | letIn name => exact absurd rfl (elementary.1.2 name)
      | call callee =>
          cases callee with
          | func id name => exact absurd rfl (noCall id name)
          | image source => exact .pure ⟨rfl, .nothing derives, by simp, .of_weightless rfl⟩
          | primitive name => exact absurd rfl (elementary.2.1 name)
      | other kind => exact absurd rfl (elementary.2.2 id kind dtype operands)

end

end ReverseMode
