import ReverseMode.Proofs.Algebra.Shapes
import ReverseMode.Proofs.Algebra.Solving

namespace ReverseMode

open Form Expr Nest

namespace Expr

/-- Neither a literal, nor a variable, nor arithmetic on two operands. -/
def isUnknown : Expr → Bool
  | node _ (.const _) _ _ => false
  | node _ (.var _ _) _ _ => false
  | node _ (.binary op) dtype [_, _] => !isArithmetic op dtype
  | node _ _ _ _ => true
  | reduction _ _ _ _ _ => false

/-- The integer that arithmetic stands for, each unknown node standing for the given integer. -/
def integerWith (env : Env) (unknowns : NodeId → Int) : Expr → Int
  | node _ (.const (.int c)) _ _ => c
  | node _ (.var name _) _ _ => env name
  | node id (.binary op) dtype [a, b] =>
      if isArithmetic op dtype then
        integerOf op (integerWith env unknowns a) (integerWith env unknowns b)
      else unknowns id
  | node id _ _ _ => unknowns id
  | reduction _ domain axis _ _ => env (axisName domain axis)

def unknownNodes : Expr → List Expr
  | node _ (.const _) _ _ => []
  | node _ (.var _ _) _ _ => []
  | node id (.binary op) dtype [a, b] =>
      if isArithmetic op dtype then unknownNodes a ++ unknownNodes b
      else [node id (.binary op) dtype [a, b]]
  | node id head dtype operands => [node id head dtype operands]
  | reduction _ _ _ _ _ => []

/-- Integer arithmetic with extrema in `K`. At most one operand of an extremum has extrema of the other
kind in it, as that of a clamp `max(min(e, high), low)` has, and no others stand inside these. -/
inductive Arithmetic : (Nest → Prop) → Expr → Prop where
  | int {K : Nest → Prop} {id : NodeId} {c : Int} :
      Arithmetic K (.node id (.const (.int c)) .int32 [])
  | var {K : Nest → Prop} {id : NodeId} {name : String} {isIndex : Bool} :
      Arithmetic K (.node id (.var name isIndex) .int32 [])
  | axis {K : Nest → Prop} {id : NodeId} {domain : String} {axis : Nat} {least extent : Expr} :
      Arithmetic K (.reduction id domain axis least extent)
  | unknown {K : Nest → Prop} {e : Expr} :
      e.isUnknown = true → e.dtype = .int32 → Arithmetic K e
  | add {K : Nest → Prop} {id : NodeId} {a b : Expr} :
      Arithmetic K a → Arithmetic K b → Arithmetic K (.node id (.binary .add) .int32 [a, b])
  | sub {K : Nest → Prop} {id : NodeId} {a b : Expr} :
      Arithmetic K a → Arithmetic K b → Arithmetic K (.node id (.binary .sub) .int32 [a, b])
  | mul {K : Nest → Prop} {id : NodeId} {a b : Expr} :
      Arithmetic K a → Arithmetic K b → Arithmetic K (.node id (.binary .mul) .int32 [a, b])
  | extremum {K : Nest → Prop} {id : NodeId} {greatest : Bool} {a b : Expr} :
      Admits K greatest false → Arithmetic (Pure greatest) a → Arithmetic (Pure greatest) b →
        Arithmetic K (.node id (.binary (extremumOp greatest)) .int32 [a, b])
  | mixedLeft {K : Nest → Prop} {id : NodeId} {greatest : Bool} {a b : Expr} :
      Admits K greatest true → Arithmetic (Mixed greatest) a → Arithmetic (Pure greatest) b →
        Arithmetic K (.node id (.binary (extremumOp greatest)) .int32 [a, b])
  | mixedRight {K : Nest → Prop} {id : NodeId} {greatest : Bool} {a b : Expr} :
      Admits K greatest true → Arithmetic (Pure greatest) a → Arithmetic (Mixed greatest) b →
        Arithmetic K (.node id (.binary (extremumOp greatest)) .int32 [a, b])

structure IsInteger (v : Expr) (name : String) : Prop where
  named : v.variableName? = some name
  dtype : v.dtype = .int32
  leaf : v.operands = []

theorem IsInteger.mentions {v : Expr} {name other : String} (isInteger : v.IsInteger name) :
    Mentions v other ↔ other = name := by
  obtain ⟨named, _, leaf⟩ := isInteger
  cases v with
  | node id head dtype operands =>
      obtain rfl : operands = [] := leaf
      rw [mentions_node, named]
      simp [eq_comm]
  | reduction id domain axis least extent =>
      rw [mentions_reduction, ← Option.some.inj named, eq_comm]

inductive Integral : Expr → Prop where
  | int {id : NodeId} {c : Int} : Integral (.node id (.const (.int c)) .int32 [])
  | named {v : Expr} {name : String} : v.IsInteger name → Integral v
  | unknown {e : Expr} : e.isUnknown = true → e.dtype = .int32 → Integral e
  | binary {id : NodeId} {op : BinaryOp} {a b : Expr} : isArithmetic op .int32 = true →
      Integral a → Integral b → Integral (.node id (.binary op) .int32 [a, b])

variable {K : Nest → Prop} {e : Expr}

theorem Integral.dtype (integral : Integral e) : e.dtype = .int32 := by
  cases integral with
  | named isInteger => exact isInteger.dtype
  | unknown _ integral => exact integral
  | int | binary => rfl

theorem Arithmetic.integral (arithmetic : Arithmetic K e) : Integral e := by
  induction arithmetic with
  | int => exact .int
  | var | axis => exact .named ⟨rfl, rfl, rfl⟩
  | unknown isUnknown integral => exact .unknown isUnknown integral
  | add _ _ left right | sub _ _ left right | mul _ _ left right => exact .binary rfl left right
  | @extremum _ _ greatest _ _ _ _ _ left right | @mixedLeft _ _ greatest _ _ _ _ _ left right
  | @mixedRight _ _ greatest _ _ _ _ _ left right =>
      exact .binary (by cases greatest <;> rfl) left right

theorem Arithmetic.dtype (arithmetic : Arithmetic K e) : e.dtype = .int32 := by
  cases arithmetic <;> first | rfl | assumption

theorem integerWith_unknown (isUnknown : e.isUnknown = true) (env : Env) (unknowns : NodeId → Int) :
    e.integerWith env unknowns = unknowns e.id := by
  unfold Expr.isUnknown at isUnknown
  split at isUnknown <;> simp_all [integerWith, Expr.id]

theorem unknownNodes_unknown (isUnknown : e.isUnknown = true) : e.unknownNodes = [e] := by
  unfold Expr.isUnknown at isUnknown
  split at isUnknown <;> simp_all [unknownNodes]

theorem integerWith_variable {name : String} (isVariable : e.variableName? = some name) :
    e.unknownNodes = [] ∧ ∀ env unknowns, e.integerWith env unknowns = env name := by
  cases e with
  | node id head dtype operands =>
      cases head <;> simp_all [variableName?, integerWith, unknownNodes]
  | reduction => simp_all [variableName?, integerWith, unknownNodes]

theorem read_unknown (isUnknown : e.isUnknown = true) :
    (Expr.read e : ReadM (Form Int)) = readUnknown e := by
  unfold Expr.isUnknown at isUnknown
  split at isUnknown <;> simp_all [Expr.read]

theorem subnode_of_unknownNodes {u : Expr} (member : u ∈ e.unknownNodes) : Subnode u e := by
  induction e using Expr.induction with
  | node id head dtype operands ih =>
      match head, operands with
      | .binary op, [a, b] =>
          rw [unknownNodes] at member
          split at member
          next =>
            rcases List.mem_append.1 member with left | right
            · exact .operand (.head _) (ih a (.head _) left)
            · exact .operand (.tail _ (.head _)) (ih b (.tail _ (.head _)) right)
          next => exact List.mem_singleton.1 member ▸ .here
      | .const _, _ | .var _ _, _ => cases member
      | .binary _, [] | .binary _, [_] | .binary _, _ :: _ :: _ :: _ | .cast, _ | .select, _
      | .letIn _, _ | .call _, _ | .other _, _ => exact List.mem_singleton.1 member ▸ .here
  | reduction => cases member

end Expr

namespace Symbols

variable {before middle after later symbols : Symbols} {root e : Expr}

def assignment (symbols : Symbols) (env : Env) (unknowns : NodeId → Int) : Assignment where
  symbol := env
  unknown rank := unknowns (symbols.unknowns.getD rank default).id

def parts (symbols : Symbols) : Composition where
  symbol name := ∃ v, symbols.node? name = some v
  unknown rank := rank < symbols.unknowns.length
  collected := False

structure Grows (before after : Symbols) : Prop where
  vars : ∀ name v, before.node? name = some v → after.node? name = some v
  unknowns : before.unknowns <+: after.unknowns
  allowed : after.allowUnknowns = before.allowUnknowns

theorem Grows.refl (symbols : Symbols) : symbols.Grows symbols :=
  ⟨fun _ _ known => known, List.prefix_rfl, rfl⟩

theorem Grows.trans (first : before.Grows middle) (second : middle.Grows after) :
    before.Grows after :=
  ⟨fun name v known => second.vars name v (first.vars name v known),
    first.unknowns.trans second.unknowns, second.allowed.trans first.allowed⟩

structure PartsOf (symbols : Symbols) (root : Expr) : Prop where
  vars : ∀ name v, symbols.node? name = some v → Subnode v root ∧ v.IsInteger name
  unknowns : ∀ u ∈ symbols.unknowns, u ∈ root.unknownNodes ∧ u.isUnknown = true ∧ u.dtype = .int32

theorem unknowns_noteVariable (name : String) (v : Expr) (symbols : Symbols) :
    (symbols.noteVariable name v).unknowns = symbols.unknowns ∧
      (symbols.noteVariable name v).allowUnknowns = symbols.allowUnknowns := by
  unfold noteVariable
  split <;> exact ⟨rfl, rfl⟩

theorem grows_noteVariable (name : String) (v : Expr) (symbols : Symbols) :
    symbols.Grows (symbols.noteVariable name v) := by
  refine ⟨fun other w known => ?_, ?_, (unknowns_noteVariable name v symbols).2⟩
  · rw [node?_noteVariable]
    split
    next same => rw [← same, known, Option.getD_some]
    next => exact known
  · rw [(unknowns_noteVariable name v symbols).1]

theorem PartsOf.noteVariable {name : String} {v : Expr} (known : symbols.PartsOf root)
    (within : Subnode v root) (isInteger : v.IsInteger name) :
    (symbols.noteVariable name v).PartsOf root := by
  refine ⟨fun other w found => ?_, ?_⟩
  · rw [node?_noteVariable] at found
    split at found
    next same =>
      cases earlier : symbols.node? name with
      | none =>
          rw [earlier, Option.getD_none] at found
          rw [← Option.some.inj found, same]
          exact ⟨within, isInteger⟩
      | some x =>
          rw [earlier, Option.getD_some] at found
          exact known.vars other w (by rw [same, earlier, found])
    next => exact known.vars other w found
  · rw [(unknowns_noteVariable name v symbols).1]
    exact known.unknowns

theorem rankOf_sound (e : Expr) (symbols : Symbols) :
    symbols.Grows (symbols.rankOf e).2 ∧ (symbols.rankOf e).2.vars = symbols.vars ∧
      (∀ u ∈ (symbols.rankOf e).2.unknowns, u ∈ symbols.unknowns ∨ u = e) ∧
      ∃ u, (symbols.rankOf e).2.unknowns[(symbols.rankOf e).1]? = some u ∧ u.id = e.id := by
  unfold rankOf
  split
  next rank found =>
    obtain ⟨inside, isSame, _⟩ := List.findIdx?_eq_some_iff_getElem.1 found
    exact ⟨.refl _, rfl, fun u member => .inl member, _, List.getElem?_eq_getElem inside,
      (beq_iff_eq.1 isSame).symm⟩
  next =>
    refine ⟨⟨fun _ _ known => known, List.prefix_append _ _, rfl⟩, rfl, fun u member => ?_, e, ?_,
      rfl⟩
    · simpa using member
    · simp

end Symbols

theorem readUnknown_run (e : Expr) {before : Symbols} (allowed : before.allowUnknowns = true) :
    (readUnknown e : ReadM (Form Int)).run.run before =
      (.ok (.unknown e.kind (before.rankOf e).1 (e.dtype = .int32)), (before.rankOf e).2) := by
  obtain ⟨vars, unknowns, allow⟩ := before
  obtain rfl : allow = true := allowed
  rfl

/-- The form stands for the value of the expression, whatever is noted later. -/
structure ReadAs (K : Nest → Prop) (e : Expr) (f : Form Int) (after : Symbols) : Prop where
  composed : ∀ later, after.Grows later → Composed later.parts K f
  value : ∀ later, after.Grows later → ∀ env unknowns,
    Form.value (later.assignment env unknowns) f = e.integerWith env unknowns

theorem ReadAs.later {K : Nest → Prop} {e : Expr} {f : Form Int} {middle after : Symbols}
    (isRead : ReadAs K e f middle) (grows : middle.Grows after) : ReadAs K e f after :=
  ⟨fun later more => isRead.composed later (grows.trans more),
    fun later more => isRead.value later (grows.trans more)⟩

def ReadsArithmetic (K : Nest → Prop) (root e : Expr) : Prop :=
  (∀ v, Subnode v e → Subnode v root) → (∀ u ∈ e.unknownNodes, u ∈ root.unknownNodes) →
    ∀ before : Symbols, before.allowUnknowns = true → before.PartsOf root → ∃ f after,
      (Expr.read e : ReadM (Form Int)).run.run before = (.ok f, after) ∧ before.Grows after ∧
        after.PartsOf root ∧ ReadAs K e f after

theorem reads_operands {K K' K'' : Nest → Prop} {root a b : Expr} {id : NodeId} {op : BinaryOp}
    {combine : Form Int → Form Int → Form Int} (arithmetic : isArithmetic op .int32 = true)
    (combines : ∀ f g, readBinary op f g = .ok (combine f g)) (left : ReadsArithmetic K root a)
    (right : ReadsArithmetic K' root b)
    (represents : ∀ {D : Composition} {f g : Form Int}, Composed D K f → Composed D K' g →
      Represents D.loose K'' (fun σ => integerOf op (value σ f) (value σ g)) (combine f g)) :
    ReadsArithmetic K'' root (.node id (.binary op) .int32 [a, b]) := by
  intro within among before allowed known
  have nodes : (Expr.node id (.binary op) .int32 [a, b]).unknownNodes =
      a.unknownNodes ++ b.unknownNodes := by rw [unknownNodes, if_pos arithmetic]
  rw [nodes] at among
  obtain ⟨f, middle, readLeft, growsLeft, knownLeft, formLeft⟩ :=
    left (fun v inside => within v (.operand (.head _) inside))
      (fun u member => among u (List.mem_append_left _ member)) before allowed known
  obtain ⟨g, after, readRight, growsRight, knownRight, formRight⟩ :=
    right (fun v inside => within v (.operand (.tail _ (.head _)) inside))
      (fun u member => among u (List.mem_append_right _ member)) middle
      (growsLeft.allowed.trans allowed) knownLeft
  replace formLeft := formLeft.later growsRight
  refine ⟨combine f g, after, read_pair arithmetic readLeft readRight (combines f g),
    growsLeft.trans growsRight, knownRight, fun later grows => ?_, fun later grows env unknowns => ?_⟩
  · exact (represents (formLeft.composed later grows) (formRight.composed later grows)).composed
  · rw [(represents (formLeft.composed later grows) (formRight.composed later grows)).value,
      formLeft.value later grows, formRight.value later grows, integerWith, if_pos arithmetic]

theorem reads_extremum {K K₁ K₂ : Nest → Prop} {root a b : Expr} {id : NodeId} {greatest mixed : Bool}
    (admits : Admits K greatest mixed) (left : ReadsArithmetic K₁ root a)
    (right : ReadsArithmetic K₂ root b)
    (seated : ∀ {D : Composition} {f g : Form Int}, Composed D K₁ f → Composed D K₂ g →
      ∃ guest : Option (Form Int), guest.isSome = mixed ∧ ∀ h ∈ [f, g],
        Composed D (Pure greatest) h ∨ guest = some h ∧ Composed D (Mixed greatest) h) :
    ReadsArithmetic K root (.node id (.binary (extremumOp greatest)) .int32 [a, b]) := by
  have isBinary (f g : Form Int) :
      readBinary (extremumOp greatest) f g = .ok (extreme greatest [f, g]) := by
    rw [← readExtremum_int]
    cases greatest <;> rfl
  have arithmetic : isArithmetic (extremumOp greatest) .int32 = true := by
    cases greatest <;> rfl
  refine reads_operands arithmetic isBinary left right fun {D f g} first second => ?_
  obtain ⟨guest, rfl, each⟩ := seated first second
  obtain ⟨composed, hasValue⟩ := composed_extreme admits (by simp) each
  refine ⟨composed, fun σ => ?_⟩
  rw [hasValue]
  cases greatest <;> rfl

theorem read_arithmetic {K : Nest → Prop} {root e : Expr} (arithmetic : Arithmetic K e) :
    ReadsArithmetic K root e := by
  have named {K : Nest → Prop} {v : Expr} {name : String} (isInteger : v.IsInteger name)
      (reads : (Expr.read v : ReadM (Form Int)) = readVariable name v)
      (isValue : ∀ env unknowns, v.integerWith env unknowns = env name) :
      ReadsArithmetic K root v := by
    intro within _ before _ known
    refine ⟨symbol name, before.noteVariable name v, by rw [reads]; rfl,
      Symbols.grows_noteVariable name v before,
      known.noteVariable (within v .here) isInteger,
      fun later grows => composed_symbol.2 ⟨_, grows.vars name ((before.node? name).getD v) ?_⟩,
      fun later grows env unknowns => ?_⟩
    · rw [node?_noteVariable, if_pos rfl]
    · rw [value_symbol, isValue]
      rfl
  have combines {op : BinaryOp} {combine : Form Int → Form Int → Form Int}
      (isPlain : op = .add ∧ combine = Form.add ∨ op = .sub ∧ combine = Form.sub ∨
        op = .mul ∧ combine = Form.mul) (f g : Form Int) :
      readBinary op f g = .ok (combine f g) := by
    rcases isPlain with ⟨rfl, rfl⟩ | ⟨rfl, rfl⟩ | ⟨rfl, rfl⟩ <;>
      simp only [readBinary, defined_int] <;> rfl
  induction arithmetic with
  | @int K id c =>
      exact fun _ _ before _ known => ⟨number c, before, rfl, .refl before, known,
        fun _ _ => composed_number c, fun later _ env unknowns => by simp [integerWith]⟩
  | var => exact named ⟨rfl, rfl, rfl⟩ rfl fun env unknowns => by simp [integerWith]
  | axis => exact named ⟨rfl, rfl, rfl⟩ rfl fun env unknowns => by simp [integerWith]
  | @unknown K e isUnknown integral =>
      intro _ among before allowed known
      obtain ⟨grows, sameVars, origin, u, stands, sameId⟩ := before.rankOf_sound e
      have reads := read_unknown isUnknown ▸ readUnknown_run e allowed
      generalize before.rankOf e = noted at grows sameVars origin stands reads
      have position {later : Symbols} (more : noted.2.Grows later) :
          later.unknowns[noted.1]? = some u := by
        obtain ⟨more, same⟩ := more.unknowns
        rw [← same]
        exact List.getElem?_append_left (List.getElem?_eq_some_iff.1 stands).1 ▸ stands
      refine ⟨_, _, reads, grows, ⟨fun name v found => ?_, fun v member => ?_⟩, fun later more => ?_,
        fun later more env unknowns => ?_⟩
      · rw [Symbols.node?, sameVars] at found
        exact known.vars name v found
      · rcases origin v member with old | rfl
        · exact known.unknowns v old
        · exact ⟨among v (by simp [unknownNodes_unknown isUnknown]), isUnknown, integral⟩
      · exact composed_unknown.2 (List.getElem?_eq_some_iff.1 (position more)).1
      · rw [value_unknown, integerWith_unknown isUnknown, ← sameId]
        simp only [Symbols.assignment, List.getD_eq_getElem?_getD, position more, Option.getD_some]
  | add _ _ left right =>
      exact reads_operands rfl (combines (.inl ⟨rfl, rfl⟩)) left right fun first second =>
        (Represents.self first.toLoose).add (Represents.self second.toLoose)
  | sub _ _ left right =>
      exact reads_operands rfl (combines (.inr (.inl ⟨rfl, rfl⟩))) left right fun first second =>
        (Represents.self first.toLoose).sub (Represents.self second.toLoose)
  | mul _ _ left right =>
      exact reads_operands rfl (combines (.inr (.inr ⟨rfl, rfl⟩))) left right fun first second =>
        (Represents.self first.toLoose).mul (Represents.self second.toLoose)
  | extremum admits _ _ left right =>
      exact reads_extremum admits left right fun first second => ⟨none, rfl, by simp [first, second]⟩
  | mixedLeft admits _ _ left right =>
      exact reads_extremum admits left right fun {_ f _} first second =>
        ⟨some f, rfl, by simp [first, second]⟩
  | mixedRight admits _ _ left right =>
      exact reads_extremum admits left right fun {_ _ g} first second =>
        ⟨some g, rfl, by simp [first, second]⟩

end ReverseMode
