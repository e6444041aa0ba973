import ReverseMode.Proofs.Bounds.Coverage
import ReverseMode.Proofs.Derivative.Canonical
import ReverseMode.Proofs.Derivative.Bookkeeping
import ReverseMode.Proofs.Exact.Forward
import ReverseMode.Proofs.Exact.Ranges

/-!
# Elementary programs

Elementary programs compute with arithmetic, selects, reads of images and calls at index expressions,
without `let`s and primitives. Their updates write at the declared variables and run once, or they add
an expression to the function's own value. Every reduction variable of the place that a call stands in
moves the call or stands in its adjoint, and has another name than the declared variables. A loss demands the stages that
calls read at the points that are demanded of their callers.
-/

namespace ReverseMode

open Expr

def IsElementary (x : Expr) : Prop :=
  IsPlain x ∧ (∀ name, x.callee? ≠ some (.primitive name)) ∧ x.IsKnown

def Expr.axes (e : Expr) : Scope := Definition.scope ⟨[], e⟩

def binaryWeights (op : BinaryOp) (a b : Expr) : List (Expr × List Expr) :=
  match op with
  | .add | .sub => [(a, []), (b, [])]
  | .mul => [(a, [b]), (b, [a])]
  | .div => [(a, [b]), (b, [a, b])]
  | .min | .max => [(a, [a, b]), (b, [a, b])]
  | _ => []

def Expr.weights : Expr → List (Expr × List Expr)
  | node _ .cast _ [a] => [(a, [])]
  | node _ (.binary op) _ [a, b] => binaryWeights op a b
  | node _ .select _ [condition, a, b] => [(a, [condition]), (b, [condition])]
  | _ => []

theorem Expr.weights_call {x : Expr} {callee : Callee} (isCall : x.callee? = some callee) :
    x.weights = [] := by
  cases x with
  | reduction => rfl
  | node id head dtype operands =>
      cases head <;> cases isCall
      rfl

theorem mem_operands_of_binaryWeights {op : BinaryOp} {a b c : Expr} {weights : List Expr}
    (isBranch : (c, weights) ∈ binaryWeights op a b) : op.isBoolean = false ∧ c ∈ [a, b] := by
  cases op <;> simp_all [binaryWeights, BinaryOp.isBoolean]
  all_goals tauto

theorem Expr.mem_branches_of_weights {x c : Expr} {weights : List Expr}
    (isBranch : (c, weights) ∈ x.weights) : c ∈ x.branches := by
  unfold Expr.weights at isBranch
  split at isBranch
  case h_1 => simp_all [branches]
  case h_2 =>
    obtain ⟨arithmetic, among⟩ := mem_operands_of_binaryWeights isBranch
    simpa [branches, arithmetic] using among
  case h_3 =>
    simp only [List.mem_cons, Prod.mk.injEq, List.not_mem_nil, or_false] at isBranch
    rcases isBranch with ⟨rfl, -⟩ | ⟨rfl, -⟩
    · exact .head _
    · exact .tail _ (.head _)
  case h_4 => cases isBranch

/-- The variable stands in the adjoint of a node of the value: some contribution on the way to the node
is made of an operand with the variable. -/
inductive Expr.Weighs (value : Expr) (name : String) : Expr → Prop
  | operand {x c w : Expr} {weights : List Expr} : x ∈ value.differentiable → (c, weights) ∈ x.weights →
      w ∈ weights → Mentions w name → value.Weighs name c
  | branch {x c : Expr} {weights : List Expr} : x ∈ value.differentiable → (c, weights) ∈ x.weights →
      value.Weighs name x → value.Weighs name c

/-- The index that the arguments stand for changes with the variable. -/
def Moves (args : List Expr) (name : String) : Prop :=
  ∃ env i, args.map (Expr.integer (Function.update env name i)) ≠ args.map (Expr.integer env)

namespace Program

/-- A call in the place: it has the arity and the type of its function, and its arguments are index
expressions. Unless it reads its own function, every reduction variable of the place moves its index or
stands in its adjoint. -/
structure ElementaryCall (p : Program) (caller : StageKey) (value x : Expr) (id : FuncId) : Prop where
  isIndex : ∀ a ∈ x.operands, Index (fun _ => True) (fun _ => True) a
  fitting : x.operands.length = (p.func id).declared.length
  typed : ∀ initial, (p.func id).init = some initial → x.dtype = initial.value.dtype
  moves : caller.name ≠ (p.func id).name → ∀ axis ∈ value.axes.names,
    Moves x.operands axis ∨ value.Weighs axis x

/-- A place of calls: its variables are the declared ones and reduction variables with constant
bounds, which have names of their own. -/
structure ElementaryPlace (p : Program) (r : Registry) (loss : Expr) (caller : StageKey)
    (declared : List String) (value : Expr) : Prop where
  held : r.Holds value
  elementary : Every IsElementary value
  calls : ∀ x id name, Outer x value → x.callee? = some (.func id name) →
    p.ElementaryCall caller value x id
  placed : ∀ y name, Subnode y value → y.variableName? = some name →
    name ∈ declared ∧ y.isPureVariable = true ∨
      (∀ id, p.Home loss (some id) → name ∉ (p.func id).declared) ∧ Unissued r.names name ∧
        ∃ ends, (name, ends) ∈ value.axes ∧ r.IsAxis ends y

/-- A function that ends in definitions. Its initial value has no reduction variables, and every update
writes at the declared variables and runs once, or adds an expression. -/
structure ElementaryFunc (p : Program) (r : Registry) (id : FuncId) : Prop where
  grounded : p.Grounded id
  declares : ∃ vars, Declares r (p.func id) vars
  initial : ∀ d, (p.func id).init = some d → d.value.axes = [] ∧ ¬ d.value.Calls id
  typed : ∀ d, (p.func id).init = some d → ∀ u ∈ (p.func id).updates, u.value.dtype = d.value.dtype
  writes : ∀ u ∈ (p.func id).updates, List.Forall₂ IsIndexVariable u.args (p.func id).declared
  repeats : ∀ u ∈ (p.func id).updates,
    u.value.axes = [] ∨ ∃ e, AddsTo id (p.func id).declared u e

structure Elementary (p : Program) (r : Registry) (loss : Expr) : Prop
    extends p.Indexed r loss where
  places : ∀ caller declared value, p.Place loss caller declared value →
    p.ElementaryPlace r loss caller declared value
  funcs : ∀ id, p.Home loss (some id) → p.ElementaryFunc r id

/-- The stages and the points at which the value of the loss is made up. -/
inductive Demands (p : Program) (loss : Expr) : StageKey → List Int → Prop
  | loss : p.Demands loss CallContext.root.key []
  | call {caller key : StageKey} {declared : List String} {value : Expr} {args : List Expr}
      {env : Env} : p.Place loss caller declared value →
      p.Demands loss caller (declared.map env) →
      (∀ arg ∈ args, AxesInside arg env) → p.CallsStage caller value args key →
      p.Demands loss key (args.map (Expr.integer env))

/-- Every value that is demanded has a derivative. -/
def SmoothlyDemanded (p : Program) (loss : Expr) : Prop :=
  ∀ caller declared value (env : Env), p.Place loss caller declared value →
    p.Demands loss caller (declared.map env) → AxesInside value env →
    ∀ x ∈ value.differentiable, Smooth (p.ratReads caller).answers env.scalars x

/-- The derivative of the loss, summed over its reduction variables, by the value that a stage of a
function stores at an index. -/
noncomputable def forward (p : Program) (loss : Expr) (id : FuncId) (stage : Int)
    (index : List Int) : ℚ :=
  sumOver (fun env => (exact (p.values (bumpAt id stage index)).answers env loss).snd) loss.axes
    zeroEnv

end Program

theorem plain_of_elementary {e : Expr} (elementary : Every IsElementary e) : Plain e :=
  elementary.mono fun _ => And.left

theorem reductionRanges_append {args : List Expr} {value : Expr}
    (areVars : ∀ a ∈ args, ∃ name, IsIndexVariable a name) :
    Realizer.reductionRanges ⟨args, value⟩ = Realizer.reductionRanges ⟨[], value⟩ := by
  have ignored : ∀ seen, (args.flatMap Expr.freeVariables).foldl Realizer.noteRange seen = seen := by
    induction args with
    | nil => exact fun _ => rfl
    | cons a rest ih =>
        intro seen
        obtain ⟨⟨name, node, index, rfl⟩, others⟩ := List.forall_mem_cons.1 areVars
        rw [List.flatMap_cons, List.foldl_append, ih others]
        rfl
  rw [Realizer.reductionRanges_eq, Realizer.reductionRanges_eq, List.flatMap_append,
    List.foldl_append, ignored]
  rfl

theorem scope_eq_axes {d : Definition} {declared : List String}
    (writes : List.Forall₂ IsIndexVariable d.args declared) : d.scope = d.value.axes := by
  have areVars : ∀ a ∈ d.args, ∃ name, IsIndexVariable a name := fun a member =>
    (forall₂_mem_left writes member).imp fun _ => And.right
  unfold Expr.axes Definition.scope
  rw [reductionRanges_append areVars]

namespace Program

variable {p : Program} {r : Registry} {loss : Expr} {caller : StageKey} {declared : List String}
  {value x : Expr} {id : FuncId} {name : String}

theorem ElementaryPlace.outer (place : p.ElementaryPlace r loss caller declared value)
    (within : Subnode x value) (isCall : x.callee? = some (.func id name)) : Outer x value := by
  have below {e : Expr} (outer : Outer e value) (within : Subnode x e) : Outer x e := by
    induction e using Expr.induction with
    | reduction =>
        obtain rfl := subnode_reduction.1 within
        exact .here
    | node node head dtype operands ih =>
        rcases subnode_node.1 within with rfl | ⟨a, member, deeper⟩
        · exact .here
        by_cases atCall : ∃ callee name, head = .call (.func callee name)
        · obtain ⟨callee, name', rfl⟩ := atCall
          have isIndex := (place.calls _ callee name' outer rfl).isIndex a member
          exact absurd ⟨x, deeper, name, isCall⟩ (isIndex.not_calls id)
        · have other : ∀ callee name, head ≠ .call (.func callee name) := fun callee name same =>
            atCall ⟨callee, name, same⟩
          exact .operand other member
            (ih a member (Outer.trans (.operand other member .here) outer) deeper)
  exact below .here within

theorem ElementaryPlace.meets (place : p.ElementaryPlace r loss caller declared value)
    (called : value.Calls id) : value.Meets id := by
  obtain ⟨x, within, name, isCall⟩ := called
  exact ⟨x, place.outer within isCall, name, isCall⟩

namespace ElementaryPlace

variable (place : p.ElementaryPlace r loss caller declared value)

include place

theorem plain : Plain value := plain_of_elementary place.elementary

theorem shaped : ∀ e ∈ ([] : List Expr) ++ [value], Shaped e :=
  List.forall_mem_singleton.2 place.plain.shaped

theorem mem_axes {entry : String × Int × Int} (member : entry ∈ value.axes) :
    (∀ id, p.Home loss (some id) → entry.1 ∉ (p.func id).declared) ∧ Unissued r.names entry.1 ∧
      ∃ y, Subnode y value ∧ y.variableName? = some entry.1 ∧ y.isReductionVariable = true := by
  obtain ⟨e, among, node, domain, axis, least, extent, free, rfl⟩ :=
    Definition.mem_scope place.shaped member
  obtain rfl : e = value := List.mem_singleton.1 among
  rcases place.placed _ _ free.1 rfl with ⟨_, isPure⟩ | ⟨apart, unissued, _⟩
  · cases isPure
  · exact ⟨apart, unissued, _, free.1, rfl, rfl⟩

theorem axesInside {env : Env} (between : ∀ entry ∈ value.axes, Between entry.2 (env entry.1)) :
    AxesInside value env := by
  rintro y within node domain axis least extent rfl
  rcases place.placed _ _ within rfl with ⟨_, isPure⟩ | ⟨_, _, ends, member, isAxis⟩
  · cases isPure
  · obtain ⟨_, _, _, _, _, same, isRange, _⟩ := isAxis
    cases same
    rw [isRange]
    exact between _ member

end ElementaryPlace

theorem Elementary.extend {later : Registry} (elementary : p.Elementary r loss)
    (extended : r.Extends later) : p.Elementary later loss where
  toIndexed := { elementary.toIndexed with
    indices := fun home x id name atHome standsIn isCall arg isArg =>
      (elementary.indices home x id name atHome standsIn isCall arg isArg).extend extended }
  places caller declared value place := by
    have isPlace := elementary.places caller declared value place
    refine { isPlace with held := isPlace.held.extend extended, placed := fun y name within named => ?_ }
    refine (isPlace.placed y name within named).imp_right fun ⟨other, unissued, ends, member, isAxis⟩ => ?_
    exact ⟨other, unissued.mono extended.names_le, ends, member, isAxis.extend extended⟩
  funcs id isHome := by
    have isFunc := elementary.funcs id isHome
    exact { isFunc with declares := isFunc.declares.imp fun _ declares => declares.extend extended }

namespace Elementary

variable (elementary : p.Elementary r loss)

include elementary

theorem grounded_of_calls (place : p.Place loss caller declared value) (within : Subnode x value)
    (called : x.Calls id) : p.Grounded id := by
  exact (elementary.funcs id
    (place.home ((elementary.places _ _ _ place).meets (called.sub within)))).grounded

theorem call (place : p.Place loss caller declared value) (within : Subnode x value)
    (isCall : x.callee? = some (.func id name)) : p.Home loss (some id) ∧ name = (p.func id).name ∧
      p.ElementaryCall caller value x id := by
  have isPlace := elementary.places _ _ _ place
  have outer := isPlace.outer within isCall
  obtain ⟨home, isHome, stands⟩ := place.calls outer
  exact ⟨place.home ⟨x, outer, name, isCall⟩, elementary.named home x id name isHome stands isCall,
    isPlace.calls x id name outer isCall⟩

theorem readsOthers {f : FuncId} {entry : Int × Definition} (isHome : p.Home loss (some f))
    (isStage : entry ∈ (p.func f).stages) {e : Expr} (within : Subnode e entry.2.value) :
    p.ReadsOthers f e := by
  intro callee called other
  have place := Place.stage isHome isStage
  have isHome' := place.home ((elementary.places _ _ _ place).meets (called.sub within))
  exact ⟨(elementary.funcs callee isHome').grounded, fun same =>
    other (elementary.distinct callee f isHome' isHome same.symm)⟩

theorem linked : p.Linked loss where
  known := elementary.known
  distinct := elementary.distinct
  named := elementary.named
  coherent home home' x x' isHome isHome' stands stands' sameId := by
    have held {home : Option FuncId} {x : Expr} (isHome : p.Home loss home)
        (stands : p.StandsIn loss home x) : r.Holds x := by
      cases home with
      | none => exact (elementary.places _ _ _ .root).held.sub stands.subnode
      | some f =>
          obtain ⟨entry, isStage, outer⟩ := stands
          exact (elementary.places _ _ _ (.stage isHome isStage)).held.sub outer.subnode
    exact (held isHome stands).eq_of_id (held isHome' stands') sameId

end Elementary

end Program

end ReverseMode
