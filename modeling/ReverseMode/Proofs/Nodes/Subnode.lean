import ReverseMode.Expr.Variables

namespace ReverseMode.Expr

@[elab_as_elim]
theorem induction {P : Expr → Prop}
    (node : ∀ id head dtype operands, (∀ x ∈ operands, P x) → P (.node id head dtype operands))
    (reduction : ∀ id domain axis least extent, P (.reduction id domain axis least extent))
    (e : Expr) : P e :=
  match e with
  | .node id head dtype operands =>
      node id head dtype operands fun x member =>
        have := List.sizeOf_lt_of_mem member
        induction node reduction x
  | .reduction id domain axis least extent => reduction id domain axis least extent

/-- `x` is `e` or stands below it. -/
inductive Subnode (x : Expr) : Expr → Prop where
  | here : Subnode x x
  | operand {id : NodeId} {head : Head} {dtype : DType} {operands : List Expr} {y : Expr} :
      y ∈ operands → Subnode x y → Subnode x (.node id head dtype operands)

def Every (P : Expr → Prop) (e : Expr) : Prop := ∀ x, Subnode x e → P x

theorem Subnode.trans {x y z : Expr} (first : Subnode x y) (second : Subnode y z) :
    Subnode x z := by
  induction second with
  | here => exact first
  | operand member _ ih => exact .operand member ih

theorem subnode_node {x : Expr} {id : NodeId} {head : Head} {dtype : DType}
    {operands : List Expr} :
    Subnode x (.node id head dtype operands) ↔
      x = .node id head dtype operands ∨ ∃ y ∈ operands, Subnode x y := by
  constructor
  · intro within
    cases within with
    | here => exact .inl rfl
    | operand member deeper => exact .inr ⟨_, member, deeper⟩
  · rintro (rfl | ⟨y, member, deeper⟩)
    · exact .here
    · exact .operand member deeper

theorem subnode_reduction {x : Expr} {id : NodeId} {domain : String} {axis : Nat}
    {least extent : Expr} :
    Subnode x (.reduction id domain axis least extent) ↔
      x = .reduction id domain axis least extent := by
  constructor
  · intro within
    cases within
    rfl
  · rintro rfl
    exact .here

theorem subnode_operand {e x : Expr} (member : x ∈ e.operands) : Subnode x e := by
  cases e with
  | node id head dtype operands => exact .operand member .here
  | reduction => cases member

@[simp] theorem every_node {P : Expr → Prop} {id : NodeId} {head : Head} {dtype : DType}
    {operands : List Expr} :
    Every P (.node id head dtype operands) ↔
      P (.node id head dtype operands) ∧ ∀ y ∈ operands, Every P y := by
  simp only [Every, subnode_node]
  constructor
  · intro all
    exact ⟨all _ (.inl rfl), fun y member x deeper => all x (.inr ⟨y, member, deeper⟩)⟩
  · rintro ⟨here, below⟩ x (rfl | ⟨y, member, deeper⟩)
    · exact here
    · exact below y member x deeper

@[simp] theorem every_reduction {P : Expr → Prop} {id : NodeId} {domain : String} {axis : Nat}
    {least extent : Expr} :
    Every P (.reduction id domain axis least extent) ↔
      P (.reduction id domain axis least extent) := by
  simp [Every, subnode_reduction]

theorem Every.here {P : Expr → Prop} {e : Expr} (all : Every P e) : P e := all e .here

theorem Every.sub {P : Expr → Prop} {e x : Expr} (all : Every P e) (within : Subnode x e) :
    Every P x :=
  fun y deeper => all y (deeper.trans within)

theorem Every.mono {P Q : Expr → Prop} {e : Expr} (implies : ∀ x, P x → Q x) (all : Every P e) :
    Every Q e :=
  fun x within => implies x (all x within)

theorem Subnode.sizeOf_le {x e : Expr} (within : Subnode x e) : sizeOf x ≤ sizeOf e := by
  induction within with
  | here => exact Nat.le_refl _
  | operand member _ ih =>
      have smaller := List.sizeOf_lt_of_mem member
      simp only [node.sizeOf_spec]
      omega

def Mentions (e : Expr) (name : String) : Prop := ∃ x, Subnode x e ∧ x.variableName? = some name

theorem mentions_node {id : NodeId} {head : Head} {dtype : DType} {operands : List Expr}
    {name : String} :
    Mentions (.node id head dtype operands) name ↔
      (node id head dtype operands).variableName? = some name ∨
        ∃ y ∈ operands, Mentions y name := by
  constructor
  · rintro ⟨x, within, named⟩
    rcases subnode_node.1 within with rfl | ⟨y, member, deeper⟩
    · exact .inl named
    · exact .inr ⟨y, member, x, deeper, named⟩
  · rintro (named | ⟨y, member, x, deeper, named⟩)
    · exact ⟨_, .here, named⟩
    · exact ⟨x, .operand member deeper, named⟩

@[simp] theorem mentions_reduction {id : NodeId} {domain : String} {axis : Nat}
    {least extent : Expr} {name : String} :
    Mentions (.reduction id domain axis least extent) name ↔ axisName domain axis = name := by
  simp [Mentions, subnode_reduction, variableName?]

theorem Mentions.sub {e x : Expr} {name : String} (within : Subnode x e)
    (mentioned : Mentions x name) : Mentions e name := by
  obtain ⟨y, deeper, named⟩ := mentioned
  exact ⟨y, deeper.trans within, named⟩

theorem mentions_operands {id : NodeId} {head : Head} {dtype : DType} {operands : List Expr}
    {name : String} (plain : (node id head dtype operands).variableName? = none) :
    Mentions (.node id head dtype operands) name ↔ ∃ y ∈ operands, Mentions y name := by
  rw [mentions_node, plain]
  simp

def Calls (e : Expr) (id : FuncId) : Prop :=
  ∃ x, Subnode x e ∧ ∃ name, x.callee? = some (.func id name)

theorem Calls.sub {e x : Expr} {id : FuncId} (within : Subnode x e) (called : Calls x id) :
    Calls e id := by
  obtain ⟨y, deeper, callee⟩ := called
  exact ⟨y, deeper.trans within, callee⟩

theorem calls_node {id : NodeId} {head : Head} {dtype : DType} {operands : List Expr}
    {callee : FuncId} :
    Calls (.node id head dtype operands) callee ↔
      (∃ name, head = .call (.func callee name)) ∨ ∃ y ∈ operands, Calls y callee := by
  constructor
  · rintro ⟨x, within, name, called⟩
    rcases subnode_node.1 within with rfl | ⟨y, member, deeper⟩
    · refine .inl ⟨name, ?_⟩
      cases head <;> simp_all [callee?]
    · exact .inr ⟨y, member, x, deeper, name, called⟩
  · rintro (⟨name, rfl⟩ | ⟨y, member, x, deeper, name, called⟩)
    · exact ⟨_, .here, name, rfl⟩
    · exact ⟨x, .operand member deeper, name, called⟩

@[simp] theorem not_calls_reduction {id : NodeId} {domain : String} {axis : Nat}
    {least extent : Expr} {callee : FuncId} :
    ¬ Calls (.reduction id domain axis least extent) callee := by
  rintro ⟨x, within, name, called⟩
  rw [subnode_reduction.1 within] at called
  simp [callee?] at called

def boundName? : Expr → Option String
  | node _ (.letIn name) _ _ => some name
  | _ => none

def Binds (e : Expr) (name : String) : Prop := ∃ x, Subnode x e ∧ x.boundName? = some name

theorem Binds.sub {e x : Expr} {name : String} (within : Subnode x e) (bound : Binds x name) :
    Binds e name := by
  obtain ⟨y, deeper, named⟩ := bound
  exact ⟨y, deeper.trans within, named⟩

theorem binds_node {id : NodeId} {head : Head} {dtype : DType} {operands : List Expr}
    {name : String} :
    Binds (.node id head dtype operands) name ↔
      head = .letIn name ∨ ∃ y ∈ operands, Binds y name := by
  constructor
  · rintro ⟨x, within, named⟩
    rcases subnode_node.1 within with rfl | ⟨y, member, deeper⟩
    · refine .inl ?_
      cases head <;> simp_all [boundName?]
    · exact .inr ⟨y, member, x, deeper, named⟩
  · rintro (rfl | ⟨y, member, x, deeper, named⟩)
    · exact ⟨_, .here, rfl⟩
    · exact ⟨x, .operand member deeper, named⟩

def HasArity : Expr → Prop
  | node _ head _ operands => ∀ n, head.arity? = some n → operands.length = n
  | reduction .. => True

/-- An expression whose nodes have the operands they need. -/
def Shaped (e : Expr) : Prop := Every HasArity e

theorem shaped_node {id : NodeId} {head : Head} {dtype : DType} {operands : List Expr} :
    Shaped (.node id head dtype operands) ↔
      (∀ n, head.arity? = some n → operands.length = n) ∧ ∀ y ∈ operands, Shaped y := every_node

theorem shaped_reduction {id : NodeId} {domain : String} {axis : Nat}
    {least extent : Expr} : Shaped (.reduction id domain axis least extent) := by
  simp [Shaped, HasArity]

theorem Shaped.operands_eq {id : NodeId} {name : String} {index : Bool} {dtype : DType}
    {operands : List Expr} (shaped : Shaped (.node id (.var name index) dtype operands)) :
    operands = [] :=
  List.length_eq_zero_iff.1 (shaped.here 0 rfl)

theorem Shaped.operand {id : NodeId} {head : Head} {dtype : DType} {operands : List Expr}
    {x : Expr} (shaped : Shaped (.node id head dtype operands)) (member : x ∈ operands) :
    Shaped x := (shaped_node.1 shaped).2 x member

theorem Shaped.letIn {id : NodeId} {name : String} {dtype : DType} {operands : List Expr}
    (shaped : Shaped (.node id (.letIn name) dtype operands)) :
    ∃ value body, operands = [value, body] := by
  have two := shaped.here 2 rfl
  match operands, two with
  | [value, body], _ => exact ⟨value, body, rfl⟩

def IsPlain : Expr → Prop
  | node _ head _ operands =>
      (∀ n, head.arity? = some n → operands.length = n) ∧ ∀ name, head ≠ .letIn name
  | reduction .. => True

/-- An expression of plain nodes, in which every variable is free. -/
def Plain (e : Expr) : Prop := Every IsPlain e

theorem plain_node {id : NodeId} {head : Head} {dtype : DType} {operands : List Expr} :
    Plain (.node id head dtype operands) ↔
      IsPlain (.node id head dtype operands) ∧ ∀ y ∈ operands, Plain y := every_node

@[simp] theorem plain_reduction {id : NodeId} {domain : String} {axis : Nat}
    {least extent : Expr} : Plain (.reduction id domain axis least extent) := by
  simp [Plain, IsPlain]

theorem Plain.shaped {e : Expr} (plain : Plain e) : Shaped e :=
  Every.mono (fun x isPlain => by cases x with
    | node => exact isPlain.1
    | reduction => trivial) plain

theorem Plain.not_binds {e : Expr} (plain : Plain e) (name : String) : ¬ Binds e name := by
  rintro ⟨x, within, named⟩
  have isPlain := plain x within
  cases x with
  | node id head dtype operands => cases head <;> cases named; exact isPlain.2 _ rfl
  | reduction => cases named

theorem Plain.operand {id : NodeId} {head : Head} {dtype : DType} {operands : List Expr}
    {x : Expr} (plain : Plain (.node id head dtype operands)) (member : x ∈ operands) :
    Plain x := (plain_node.1 plain).2 x member

theorem variableName?_eq_name {e : Expr} {name : String}
    (isVariable : e.variableName? = some name) : e.name = name := by
  cases e with
  | node id head dtype operands => cases head <;> simp_all [variableName?, Expr.name, Head.name]
  | reduction => simpa [variableName?, Expr.name] using isVariable

end ReverseMode.Expr
