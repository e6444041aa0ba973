import ReverseMode.Bounds.Exterior
import ReverseMode.Proofs.Algebra.Unknowns
import ReverseMode.Proofs.Derivative.Canonical
import ReverseMode.Proofs.Program.Success

namespace ReverseMode

open Expr

namespace Expr

variable {e : Expr}

theorem IsInteger.exact {name : String} (isInteger : e.IsInteger name) (answers : CallValues ℚ)
    (env : Env) : Expr.exact answers env e = env name := by
  have named := isInteger.named
  match e with
  | .node _ (.var _ _) _ _ =>
      cases named
      simp [headExact, Env.scalars]
  | .reduction _ domain axis _ _ =>
      cases named
      simp

theorem exact_arithmetic {op : BinaryOp} (arithmetic : isArithmetic op .int32 = true) (m n : Int) :
    op.exact .int32 (m : ℚ) (n : ℚ) = integerOf op m n := by
  cases op with
  | add | sub | mul => simp [BinaryOp.exact, integerOf]
  | min => exact exact_extremumOp false .int32 m n
  | max => exact exact_extremumOp true .int32 m n
  | _ => cases arithmetic

theorem Integral.exact (integral : Integral e) {answers : CallValues ℚ} {env : Env}
    {unknowns : NodeId → Int}
    (stand : ∀ u ∈ e.unknownNodes, Expr.exact answers env u = unknowns u.id) :
    Expr.exact answers env e = e.integerWith env unknowns := by
  induction integral with
  | int => simp [headExact, Constant.exact, integerWith]
  | named isInteger =>
      rw [isInteger.exact, (integerWith_variable isInteger.named).2]
  | unknown isUnknown _ =>
      rw [integerWith_unknown isUnknown]
      exact stand _ (by simp [unknownNodes_unknown isUnknown])
  | @binary id op a b arithmetic _ _ left right =>
      rw [unknownNodes, if_pos arithmetic] at stand
      have first := left fun u member => stand u (List.mem_append_left _ member)
      have second := right fun u member => stand u (List.mem_append_right _ member)
      rw [exact_node (by simp), List.map_cons, List.map_cons, List.map_nil, first, second, headExact,
        integerWith, if_pos arithmetic]
      exact exact_arithmetic arithmetic _ _

theorem Integral.calls (integral : Integral e) {x : Expr} {callee : Callee} (within : Subnode x e)
    (called : x.callee? = some callee) : ∃ u ∈ e.unknownNodes, Subnode x u := by
  induction integral with
  | int =>
      obtain rfl | ⟨_, member, _⟩ := subnode_node.1 within
      · cases called
      · cases member
  | @named v _ isInteger =>
      have leaf := isInteger.leaf
      have named := isInteger.named
      match v with
      | .node _ (.var _ _) _ _ =>
          obtain rfl | ⟨_, member, _⟩ := subnode_node.1 within
          · cases called
          · obtain rfl : _ = [] := leaf
            cases member
      | .reduction _ _ _ _ _ =>
          obtain rfl := subnode_reduction.1 within
          cases called
  | unknown isUnknown _ =>
      exact ⟨_, by rw [unknownNodes_unknown isUnknown]; exact .head _, within⟩
  | @binary id op a b arithmetic _ _ left right =>
      rw [unknownNodes, if_pos arithmetic]
      obtain rfl | ⟨y, member, below⟩ := subnode_node.1 within
      · cases called
      · simp only [List.mem_cons, List.not_mem_nil, or_false] at member
        rcases member with rfl | rfl
        · obtain ⟨u, among, inside⟩ := left below
          exact ⟨u, List.mem_append_left _ among, inside⟩
        · obtain ⟨u, among, inside⟩ := right below
          exact ⟨u, List.mem_append_right _ among, inside⟩

end Expr

abbrev Border := List (Expr × Expr)

def Whole (answers : CallValues ℚ) (env : Env) (border : Border) : Prop :=
  ∀ bound ∈ border, ∀ u ∈ bound.1.unknownNodes ++ bound.2.unknownNodes,
    ∃ i : Int, exact answers env u = i

def Covers (answers : CallValues ℚ) (env : Env) (bound : Expr × Expr) (i : Int) : Prop :=
  exact answers env bound.1 ≤ i ∧ (i : ℚ) < exact answers env bound.1 + exact answers env bound.2

def WithinBorder (answers : CallValues ℚ) (env : Env) (border : Border) (index : List Int) : Prop :=
  List.Forall₂ (Covers answers env) border index

def CallsOf (border : Border) (e : Expr) : Prop :=
  ∀ x callee, Subnode x e → x.callee? = some callee →
    ∃ bound ∈ border, Subnode x bound.1 ∨ Subnode x bound.2

structure IsLast (bound : Expr × Expr) (high : Expr) : Prop where
  integral : high.Integral
  unknowns : ∀ u ∈ high.unknownNodes, u ∈ bound.1.unknownNodes ++ bound.2.unknownNodes
  value : ∀ env unknowns, high.integerWith env unknowns =
    bound.1.integerWith env unknowns + bound.2.integerWith env unknowns - 1

/-- Both bounds are integer arithmetic and their last index can be simplified, in any program. -/
structure Registry.Encloses (r : Registry) (bound : Expr × Expr) : Prop where
  held : r.Holds bound.1 ∧ r.Holds bound.2
  integral : bound.1.Integral ∧ bound.2.Integral
  last : ∀ later, r.Extends later →
    Builds (Expr.lastIndex bound.1 bound.2) later fun middle last => ∀ q,
      Follows True (simplify last) middle q (some ()) fun final high _ =>
        final.Holds high ∧ IsLast bound high

def Registry.HoldsBounds (r : Registry) (border : Border) : Prop :=
  ∀ bound ∈ border, r.Encloses bound

/-- A condition that is true exactly where the property holds. -/
structure Registry.Tells (r : Registry) (border : Border) (P : CallValues ℚ → Env → Prop)
    (e : Expr) : Prop where
  held : r.Holds e
  calls : CallsOf border e
  truth : ∀ answers env, Whole answers env border → (exact answers env e ≠ 0 ↔ P answers env)

structure Registry.ClampedTo (r : Registry) (border : Border) (name : String) (bound : Expr × Expr)
    (e : Expr) : Prop where
  held : r.Holds e
  calls : CallsOf border e
  value : ∀ answers env, Whole answers env border → ∃ i : Int, exact answers env e = i ∧
    (Covers answers env bound (env name) → i = env name) ∧
    (1 ≤ exact answers env bound.2 → Covers answers env bound i)

variable {r : Registry} {p : Program} {border : Border}

theorem Registry.HoldsBounds.extend {later : Registry} (held : r.HoldsBounds border)
    (extended : r.Extends later) : later.HoldsBounds border :=
  fun bound member =>
    have here := held bound member
    ⟨here.held.imp (·.extend extended) (·.extend extended), here.integral,
      fun final further => here.last final (extended.trans further)⟩

theorem Registry.HoldsBounds.integers (held : r.HoldsBounds border) {answers : CallValues ℚ}
    {env : Env} (whole : Whole answers env border) :
    ∃ unknowns : NodeId → Int, ∀ bound ∈ border, ∀ u ∈ bound.1.unknownNodes ++ bound.2.unknownNodes,
      exact answers env u = unknowns u.id := by
  refine ⟨fun id => wholePart (exact answers env (r.node id)), fun bound member u among => ?_⟩
  obtain ⟨heldLeast, heldExtent⟩ := (held bound member).held
  have heldU : r.Holds u := (List.mem_append.1 among).elim
    (fun left => heldLeast.sub (subnode_of_unknownNodes left))
    fun right => heldExtent.sub (subnode_of_unknownNodes right)
  obtain ⟨i, isInteger⟩ := whole bound member u among
  dsimp only
  rw [heldU.here.2, isInteger, wholePart_intCast]

theorem CallsOf.node {id : NodeId} {head : Head} {dtype : DType} {operands : List Expr}
    (notCall : ∀ callee, head ≠ .call callee) (calls : ∀ x ∈ operands, CallsOf border x) :
    CallsOf border (.node id head dtype operands) := by
  intro x callee within called
  obtain rfl | ⟨y, member, below⟩ := subnode_node.1 within
  · cases head with
    | call callee => exact absurd rfl (notCall callee)
    | _ => cases called
  · exact calls y member x callee below called

theorem IsAtLeast.callsOf {a b e : Expr} (atLeast : IsAtLeast a b e) (left : CallsOf border a)
    (right : CallsOf border b) : CallsOf border e := by
  rcases atLeast with ⟨id, rfl⟩ | ⟨id, rfl⟩ <;>
    exact .node (by simp) (by simp [left, right])

theorem callsOf_variable {v : Expr} {name : String} (isVariable : IsIndexVariable v name) :
    CallsOf border v := by
  obtain ⟨node, index, rfl⟩ := isVariable
  exact .node (by simp) (by simp)

namespace IsLast

variable {bound : Expr × Expr} {high : Expr}

theorem callsOf (isLast : IsLast bound high) (member : bound ∈ border) : CallsOf border high := by
  intro x callee within called
  obtain ⟨u, among, inside⟩ := isLast.integral.calls within called
  exact ⟨bound, member, (List.mem_append.1 (isLast.unknowns u among)).imp
    (fun left => inside.trans (subnode_of_unknownNodes left))
    fun right => inside.trans (subnode_of_unknownNodes right)⟩

theorem exact (isLast : IsLast bound high) (held : r.HoldsBounds border) (member : bound ∈ border)
    {answers : CallValues ℚ} {env : Env} (whole : Whole answers env border) :
    ∃ low size : Int, Expr.exact answers env bound.1 = low ∧ Expr.exact answers env bound.2 = size ∧
      Expr.exact answers env high = (low + size - 1 : Int) := by
  obtain ⟨unknowns, stand⟩ := held.integers whole
  have stand := stand bound member
  have integral := (held bound member).integral
  refine ⟨bound.1.integerWith env unknowns, bound.2.integerWith env unknowns, ?_, ?_, ?_⟩
  · exact integral.1.exact fun u among => stand u (List.mem_append_left _ among)
  · exact integral.2.exact fun u among => stand u (List.mem_append_right _ among)
  · rw [isLast.integral.exact fun u among => stand u (isLast.unknowns u among), isLast.value]

end IsLast

theorem clamp_sound {x low high : Expr} (heldX : r.Holds x) (heldLow : r.Holds low)
    (heldHigh : r.Holds high) :
    Builds (Expr.clamp x low high) r fun later e => later.Holds e ∧ ∃ node node' dtype dtype',
      e = .node node (.binary .max) dtype [.node node' (.binary .min) dtype' [x, high], low] := by
  unfold Expr.clamp
  refine Builds.bind (Builds.binary .min heldX heldHigh) fun r1 below ext1 made1 => ?_
  refine (Builds.binary .max made1.1 (heldLow.extend ext1)).mono fun r2 e _ made2 => ?_
  obtain ⟨_, node', rfl⟩ := made1
  obtain ⟨held, node, rfl⟩ := made2
  exact ⟨held, node, node', _, _, rfl⟩

theorem toExpr_succeeds {e : Expr} :
    Succeeds (liftM (Operand.expr e).toExpr : ProgramM Expr) r p fun later left x =>
      later = r ∧ left = p ∧ e = x :=
  fun fits => ⟨e, p, r, rfl, .refl r, fits, rfl, rfl, rfl⟩

theorem exteriorAxis_sound {v : Expr} {name : String} {bound : Expr × Expr} (heldV : r.Holds v)
    (isVariable : IsIndexVariable v name) (held : r.HoldsBounds border) (member : bound ∈ border) :
    Succeeds (Exterior.axis v (.expr bound.1) (.expr bound.2)) r p fun later left made =>
      left.funcs = p.funcs ∧
      later.Tells border (fun answers env => Covers answers env bound (env name)) made.1 ∧
      later.ClampedTo border name bound made.2 := by
  obtain ⟨least, extent⟩ := bound
  obtain ⟨⟨heldLeast, _⟩, _, simplifies⟩ := held _ member
  unfold Exterior.axis
  refine Succeeds.bind toExpr_succeeds fun r1 p1 low _ ⟨sameR, sameP, sameLow⟩ => ?_
  subst sameR sameP sameLow
  refine Succeeds.bind toExpr_succeeds fun r2 p2 size _ ⟨sameR, sameP, sameSize⟩ => ?_
  subst sameR sameP sameSize
  refine Succeeds.bind (.builds (simplifies _ (.refl _))) fun r3 p3 last ext3 ⟨same3, follows⟩ => ?_
  refine Succeeds.bind (.ofFollows (follows p3)) fun r4 p4 high ext4 ⟨same4, heldHigh, isLast⟩ => ?_
  have ext := ext3.trans ext4
  refine Succeeds.bind (.builds (ge_sound (heldV.extend ext) (heldLeast.extend ext)))
    fun r5 p5 above ext5 ⟨same5, heldAbove, isAbove⟩ => ?_
  refine Succeeds.bind (.builds (le_sound ((heldV.extend ext).extend ext5) (heldHigh.extend ext5)))
    fun r6 p6 below ext6 ⟨same6, heldBelow, isBelow⟩ => ?_
  refine Succeeds.bind (.builds (Builds.binary .and (heldAbove.extend ext6) heldBelow))
    fun r7 p7 both ext7 ⟨same7, made7⟩ => ?_
  obtain ⟨heldBoth, root, isBoth⟩ := made7
  have ext' := (ext.trans ext5).trans (ext6.trans ext7)
  refine Succeeds.bind (.builds (clamp_sound (heldV.extend ext') (heldLeast.extend ext')
    (heldHigh.extend (ext5.trans (ext6.trans ext7)))))
    fun r8 p8 clamped ext8 ⟨same8, heldClamped, isClamped⟩ => ?_
  obtain ⟨node1, node2, dtype1, dtype2, rfl⟩ := isClamped
  have callsLeast : CallsOf border least := fun x callee within _ => ⟨_, member, .inl within⟩
  have callsHigh := isLast.callsOf member
  have callsV : CallsOf border v := callsOf_variable isVariable
  have isV (answers : CallValues ℚ) (env : Env) : exact answers env v = env name := by
    rw [isVariable.index.exact, isVariable.integer]
  refine Succeeds.pure ⟨?_, ⟨heldBoth.extend ext8, ?_, fun answers env whole => ?_⟩, heldClamped, ?_,
    fun answers env whole => ?_⟩
  · rw [same8, same7, same6, same5, same4, same3]
  · rw [isBoth]
    exact .node (by simp)
      (by simp [isAbove.callsOf callsV callsLeast, isBelow.callsOf callsHigh callsV])
  · obtain ⟨low, size, isLow, isSize, isHigh⟩ := isLast.exact held member whole
    rw [isBoth, exact_node (by simp)]
    simp only [List.map_cons, List.map_nil, headExact, BinaryOp.exact, isAbove.exact, isBelow.exact,
      standard_rat, truth_ne_zero, isV, isLow, isHigh, Covers, isSize]
    norm_cast
    omega
  · exact .node (by simp) (by simpa using ⟨.node (by simp) (by simp [callsV, callsHigh]), callsLeast⟩)
  · obtain ⟨low, size, isLow, isSize, isHigh⟩ := isLast.exact held member whole
    refine ⟨max (min (env name) (low + size - 1)) low, ?_, ?_, ?_⟩
    · rw [exact_node (by simp), List.map_cons, List.map_cons, List.map_nil, exact_node (by simp),
        List.map_cons, List.map_cons, List.map_nil, isV, isHigh, isLow]
      exact (congrArg (BinaryOp.exact .max dtype1 · (low : ℚ)) (exact_extremumOp false dtype2 _ _)).trans
        (exact_extremumOp true dtype1 _ _)
    · simp only [Covers, isLow, isSize]
      norm_cast
      omega
    · simp only [Covers, isLow, isSize]
      norm_cast
      omega

theorem Registry.Tells.extend {later : Registry} {P : CallValues ℚ → Env → Prop} {e : Expr}
    (tells : r.Tells border P e) (extended : r.Extends later) : later.Tells border P e :=
  { tells with held := tells.held.extend extended }

theorem Registry.Tells.and {P P' : CallValues ℚ → Env → Prop} {a b e : Expr}
    (first : r.Tells border P a) (second : r.Tells border P' b)
    (made : r.Has (.binary .and) .bool [a, b] e) :
    r.Tells border (fun answers env => P answers env ∧ P' answers env) e := by
  obtain ⟨held, id, rfl⟩ := made
  refine ⟨held, .node (by simp) (by simp [first.calls, second.calls]), fun answers env whole => ?_⟩
  rw [exact_node (by simp)]
  simp only [List.map_cons, List.map_nil, headExact, BinaryOp.exact, standard_rat, truth_ne_zero]
  rw [first.truth answers env whole, second.truth answers env whole]

def Registry.TellsSoFar (r : Registry) (border : Border) (P : CallValues ℚ → Env → Prop) :
    Option Expr → Prop
  | none => ∀ answers env, P answers env
  | some e => r.Tells border P e

theorem Registry.TellsSoFar.congr {P P' : CallValues ℚ → Env → Prop} {inside : Option Expr}
    (tells : r.TellsSoFar border P inside) (same : ∀ answers env, P answers env ↔ P' answers env) :
    r.TellsSoFar border P' inside := by
  have equal : P = P' := funext fun answers => funext fun env => propext (same answers env)
  exact equal ▸ tells

theorem Registry.ClampedTo.extend {later : Registry} {name : String} {bound : Expr × Expr} {e : Expr}
    (clamped : r.ClampedTo border name bound e) (extended : r.Extends later) :
    later.ClampedTo border name bound e :=
  { clamped with held := clamped.held.extend extended }

theorem exteriorAxes_sound {vars : List Expr} {names : List String} {rest : Border} {inside : Option Expr}
    {P : CallValues ℚ → Env → Prop} (areVars : List.Forall₂ IsIndexVariable vars names)
    (sameLength : rest.length = vars.length) (heldVars : r.HoldsAll vars) (held : r.HoldsBounds border)
    (among : ∀ bound ∈ rest, bound ∈ border) (soFar : r.TellsSoFar border P inside) :
    Succeeds (Exterior.axes inside (vars.zip (rest.map fun bound =>
      (Operand.expr bound.1, Operand.expr bound.2)))) r p fun later left made =>
      left.funcs = p.funcs ∧
      later.TellsSoFar border (fun answers env =>
        P answers env ∧ WithinBorder answers env rest (names.map env)) made.1 ∧
      (made.1 = none → inside = none ∧ rest = []) ∧
      List.Forall₂ (fun axis e => later.ClampedTo border axis.1 axis.2 e) (names.zip rest) made.2 := by
  induction areVars generalizing rest r p inside P with
  | nil =>
      obtain rfl := List.length_eq_zero_iff.1 sameLength
      refine Succeeds.pure ⟨rfl, soFar.congr fun answers env => ?_, fun isNone => ⟨isNone, rfl⟩, .nil⟩
      exact (and_iff_left .nil).symm
  | @cons v name vars names isVariable _ ih =>
      cases rest with
      | nil => cases sameLength
      | cons bound rest =>
          obtain ⟨heldV, heldRest⟩ := List.forall_mem_cons.1 heldVars
          obtain ⟨isBound, amongRest⟩ := List.forall_mem_cons.1 among
          rw [List.map_cons, List.zip_cons_cons, Exterior.axes]
          refine Succeeds.bind (exteriorAxis_sound heldV isVariable held isBound)
            fun r1 p1 made1 ext1 spec1 => ?_
          obtain ⟨same1, tells, clamped⟩ := spec1
          -- The other axes go on from a joined condition, whether there was an earlier one or not.
          have continues {r2 : Registry} {p2 : Program} (joined : Expr) (ext2 : r1.Extends r2)
              (same2 : p2.funcs = p1.funcs) (isJoined : r2.TellsSoFar border
                (fun answers env => P answers env ∧ Covers answers env bound (env name)) (some joined)) :
              Succeeds (do
                let made ← Exterior.axes (some joined) (vars.zip (rest.map fun bound =>
                  (Operand.expr bound.1, Operand.expr bound.2)))
                return (made.1, made1.2 :: made.2)) r2 p2 fun later left made =>
                left.funcs = p.funcs ∧
                later.TellsSoFar border (fun answers env => P answers env ∧
                  WithinBorder answers env (bound :: rest) ((name :: names).map env)) made.1 ∧
                (made.1 = none → inside = none ∧ bound :: rest = []) ∧
                List.Forall₂ (fun axis e => later.ClampedTo border axis.1 axis.2 e)
                  ((name :: names).zip (bound :: rest)) made.2 := by
            have ext := ext1.trans ext2
            refine Succeeds.bind (ih (by simpa using sameLength)
              (fun x member => (heldRest x member).extend ext) (held.extend ext) amongRest isJoined)
              fun r3 p3 made3 ext3 spec3 => ?_
            obtain ⟨same3, tellsAll, none3, clampedRest⟩ := spec3
            refine Succeeds.pure ⟨same3.trans (same2.trans same1),
              tellsAll.congr fun answers env => ?_, fun isNone => absurd (none3 isNone).1 (by simp),
              .cons (clamped.extend (ext2.trans ext3)) clampedRest⟩
            rw [List.map_cons, WithinBorder, WithinBorder, List.forall₂_cons, and_assoc]
          cases inside with
          | none =>
              have isHere : r1.TellsSoFar border _ (some made1.1) := tells
              exact continues made1.1 (.refl r1) rfl
                (isHere.congr fun answers env => by simp [soFar answers env])
          | some earlier =>
              have soFar : r1.Tells border P earlier := Registry.Tells.extend soFar ext1
              refine Succeeds.bind (.builds (Builds.binary .and soFar.held tells.held))
                fun r2 p2 joined ext2 made2 => ?_
              exact continues joined ext2 made2.1
                ((soFar.extend ext2).and (tells.extend ext2) made2.2)

/-- A variable of the wrapper bears the name that the function declares, or a generated one in place
of the empty name. -/
def Renews (names : Nat) (declared name : String) : Prop :=
  name = declared ∨ declared = "" ∧ ∃ n, names ≤ n ∧ name = generatedName "v" n

theorem index_renews {name : String} {names : Nat} (issued : names ≤ r.names) :
    Builds (Expr.index (some name)) r fun later v => later.Holds v ∧ IsIndexVariable v v.name ∧
      Renews names name v.name := by
  by_cases named : name = ""
  · subst named
    unfold Expr.index
    refine Builds.bind (Builds.freshName "v") fun later fresh ext ⟨_, isFresh⟩ => ?_
    refine (Builds.new .nil).mono fun last v _ ⟨heldV, root, isNode⟩ => ?_
    subst isNode
    exact ⟨heldV, ⟨root, true, rfl⟩, .inr ⟨rfl, r.names, issued, isFresh⟩⟩
  · refine (Builds.index named).mono fun later v _ ⟨heldV, root, isNode⟩ => ?_
    subst isNode
    exact ⟨heldV, ⟨root, true, rfl⟩, .inl rfl⟩

theorem indices_renew {args : List Expr} :
    Succeeds (args.mapM fun a => (Expr.index (some a.name) : ProgramM Expr)) r p
      fun later left vars => left.funcs = p.funcs ∧
        (∀ v ∈ vars, later.Holds v ∧ IsIndexVariable v v.name) ∧
        List.Forall₂ (Renews r.names) (args.map Expr.name) (vars.map Expr.name) := by
  refine (Succeeds.mapM (P := fun later (a v : Expr) => later.Holds v ∧
    IsIndexVariable v v.name ∧ Renews r.names a.name v.name)
    (fun _ _ _ _ ext both => ⟨both.1.extend ext, both.2⟩) _ fun a _ s q ext _ =>
      .builds (index_renews ext.names_le)).mono fun later left vars _ made => ?_
  obtain ⟨same, each⟩ := made
  refine ⟨same, fun v member => ?_, ?_⟩
  · obtain ⟨_, _, held, isVariable, _⟩ := forall₂_mem_left each.flip member
    exact ⟨held, isVariable⟩
  · rw [List.forall₂_map_left_iff, List.forall₂_map_right_iff]
    exact each.imp fun _ _ spec => spec.2.2

/-- How a wrapper is written. Without axes it calls the function, otherwise it chooses between the call
at the clamped indices and the value. -/
inductive Registry.Encases (r : Registry) (target : FuncId) (border : Border) (value : Constant)
    (dtype : DType) (names : List String) : Expr → Prop where
  | call {root : NodeId} {name : String} : border = [] →
      Encases r target border value dtype names (.node root (.call (.func target name)) dtype [])
  | select {root root' root'' : NodeId} {name : String} {condition : Expr} {clamped : List Expr} :
      r.Tells border (fun answers env => WithinBorder answers env border (names.map env)) condition →
      List.Forall₂ (fun axis e => r.ClampedTo border axis.1 axis.2 e) (names.zip border) clamped →
      Encases r target border value dtype names (.node root .select (dtype.promote value.dtype)
        [condition, .node root' (.call (.func target name)) dtype clamped,
          .node root'' (.const value) value.dtype []])

theorem clamped_values {names : List String} {some : Border} {clamped : List Expr}
    {answers : CallValues ℚ} {env : Env} (sameLength : some.length = names.length)
    (whole : Whole answers env border)
    (each : List.Forall₂ (fun axis e => r.ClampedTo border axis.1 axis.2 e) (names.zip some) clamped) :
    ∃ index : List Int, clamped.map (exact answers env) = index.map Int.cast ∧
      (WithinBorder answers env some (names.map env) → index = names.map env) ∧
      ((∀ bound ∈ some, 1 ≤ exact answers env bound.2) → WithinBorder answers env some index) := by
  induction names generalizing some clamped with
  | nil =>
      obtain rfl := List.length_eq_zero_iff.1 sameLength
      cases each
      exact ⟨[], rfl, fun _ => rfl, fun _ => .nil⟩
  | cons name names ih =>
      cases some with
      | nil => cases sameLength
      | cons bound rest =>
          obtain _ | ⟨first, others⟩ := each
          obtain ⟨i, isValue, same, inside⟩ := first.value answers env whole
          obtain ⟨index, areValues, sameRest, insideRest⟩ := ih (by simpa using sameLength) others
          refine ⟨i :: index, by rw [List.map_cons, List.map_cons, isValue, areValues], fun within => ?_,
            fun extents => ?_⟩
          · obtain ⟨here, further⟩ := List.forall₂_cons.1 within
            rw [List.map_cons, same here, sameRest further]
          · obtain ⟨here, further⟩ := List.forall_mem_cons.1 extents
            exact .cons (inside here) (insideRest further)

theorem exact_clamped {target : FuncId} {root : NodeId} {name : String} {dtype : DType}
    {clamped : List Expr} (reads : Reads ℚ) (env : Env) {index : List Int}
    (values : clamped.map (exact reads.answers env) = index.map Int.cast) :
    exact reads.answers env (.node root (.call (.func target name)) dtype clamped) =
      reads target index := by
  rw [exact_node (by simp), headExact, Reads.answers, values]
  simp [Function.comp_def]

namespace Registry.Encases

variable {target : FuncId} {value : Constant} {dtype : DType} {names : List String} {e : Expr}
  (encases : r.Encases target border value dtype names e)

theorem isFloat {value : Constant} (isFloat : value.dtype = .float32)
    (encases : r.Encases target border value .float32 names e) : e.dtype = .float32 := by
  cases encases with
  | call => rfl
  | select =>
      rw [isFloat]
      rfl

include encases

theorem calls_target : e.Calls target := by
  cases encases with
  | call => exact ⟨_, .here, _, rfl⟩
  | select => exact ⟨_, .operand (.tail _ (.head _)) .here, _, rfl⟩

theorem calls {x : Expr} {callee : Callee} (within : Subnode x e) (called : x.callee? = some callee) :
    (∃ bound ∈ border, Subnode x bound.1 ∨ Subnode x bound.2) ∨
      (∃ name, callee = .func target name) ∧
        List.Forall₂ (fun axis e => r.ClampedTo border axis.1 axis.2 e) (names.zip border) x.operands := by
  cases encases with
  | call noAxes =>
      obtain rfl | ⟨_, absurd, _⟩ := subnode_node.1 within
      · cases called
        rw [noAxes, List.zip_nil_right]
        exact .inr ⟨⟨_, rfl⟩, .nil⟩
      · cases absurd
  | select tells areClamped =>
      obtain rfl | ⟨y, member, below⟩ := subnode_node.1 within
      · cases called
      · simp only [List.mem_cons, List.not_mem_nil, or_false] at member
        rcases member with rfl | rfl | rfl
        · exact .inl (tells.calls x callee below called)
        · obtain rfl | ⟨z, member, further⟩ := subnode_node.1 below
          · cases called
            exact .inr ⟨⟨_, rfl⟩, areClamped⟩
          · obtain ⟨_, _, isClamped⟩ := forall₂_mem_left areClamped.flip member
            exact .inl (isClamped.calls x callee further called)
        · obtain rfl | ⟨_, absurd, _⟩ := subnode_node.1 below
          · cases called
          · cases absurd

section

variable {reads : Reads ℚ} {env : Env} (whole : Whole reads.answers env border)

include whole

theorem inside (sameLength : border.length = names.length)
    (within : WithinBorder reads.answers env border (names.map env)) :
    exact reads.answers env e = reads target (names.map env) := by
  cases encases with
  | call noAxes =>
      subst noAxes
      obtain rfl := List.length_eq_zero_iff.1 sameLength.symm
      exact exact_clamped reads env rfl
  | select tells areClamped =>
      obtain ⟨index, values, same, _⟩ := clamped_values sameLength whole areClamped
      rw [exact_node (by simp)]
      refine (if_pos ((tells.truth _ _ whole).2 within)).trans ?_
      rw [exact_clamped reads env values, same within]

theorem outside (outside : ¬ WithinBorder reads.answers env border (names.map env))
    (sameLength : border.length = names.length) :
    exact reads.answers env e = value.exact := by
  cases encases with
  | call noAxes =>
      subst noAxes
      obtain rfl := List.length_eq_zero_iff.1 sameLength.symm
      exact absurd .nil outside
  | select tells =>
      rw [exact_node (by simp)]
      refine (if_neg (mt (tells.truth _ _ whole).1 outside)).trans ?_
      rw [exact_node (by simp)]
      rfl

end

end Registry.Encases

/-- A new function beside the others, which are kept, encases the target. -/
structure Wrapping (r later : Registry) (p left : Program) (target : FuncId) (initial : Definition)
    (border : Border) (value : Constant) (wrapper : FuncId) (wrapped : Definition) : Prop where
  isNew : wrapper = p.funcs.size
  size : left.funcs.size = p.funcs.size + 1
  others : ∀ id, id < p.funcs.size → left.func id = p.func id
  isWrapped : left.func wrapper = { name := (p.func target).name ++ "_ce", init := some wrapped }
  renewed : List.Forall₂ (Renews r.names) (initial.args.map Expr.name) (wrapped.args.map Expr.name)
  encases : later.Encases target border value initial.value.dtype (wrapped.args.map Expr.name)
    wrapped.value

theorem suffix_ne_empty (stem : String) : s!"{stem}_ce" ≠ "" := by
  intro isEmpty
  simp [toString] at isEmpty

/-- Wrapping succeeds if the variables that the wrapper declares differ. -/
theorem constantExterior_sound {target : FuncId} {value : Constant} {initial : Definition}
    (defined : (p.func target).init = some initial) (sameLength : border.length = initial.args.length)
    (held : r.HoldsBounds border) (distinct : ∀ names,
      List.Forall₂ (Renews r.names) (initial.args.map Expr.name) names → names.Nodup) :
    Succeeds (constantExterior target (.literal value) (border.map fun bound =>
      (Operand.expr bound.1, Operand.expr bound.2))) r p fun later left wrapper =>
      ∃ wrapped, Wrapping r later p left target initial border value wrapper wrapped := by
  unfold constantExterior
  refine Succeeds.bind Succeeds.getFunc fun r0 p0 f _ made0 => ?_
  obtain ⟨sameR, sameP, sameF⟩ := made0
  subst sameR sameP sameF
  have args : (p0.func target).args = .ok initial.args := by
    simp [Func.args, Func.initial, defined, Except.map]
  refine Succeeds.bind (.ofExcept args) fun r1 p1 _ _ made1 => ?_
  obtain ⟨sameR, sameP, sameArgs⟩ := made1
  subst sameR sameP sameArgs
  rw [if_neg (by simpa using sameLength)]
  refine Succeeds.bind indices_renew fun r2 p2 vars ext2 made2 => ?_
  obtain ⟨same2, ofVar, renewed⟩ := made2
  have areVars : List.Forall₂ IsIndexVariable vars (vars.map Expr.name) := by
    rw [List.forall₂_map_right_iff, List.forall₂_same]
    exact fun v member => (ofVar v member).2
  have sameCount : border.length = vars.length := by simpa [sameLength] using renewed.length_eq
  have start : r2.TellsSoFar border (fun _ _ => True) none := fun _ _ => trivial
  refine Succeeds.bind (exteriorAxes_sound areVars sameCount (fun v member => (ofVar v member).1)
    (held.extend ext2) (fun _ member => member) start) fun r3 p3 made ext3 made3 => ?_
  obtain ⟨inside, clamped⟩ := made
  obtain ⟨same3, tells, whenNone, areClamped⟩ := made3
  have same : p3.funcs = p1.funcs := same3.trans same2
  refine Succeeds.bind (.declareFunc (suffix_ne_empty _)) fun r4 p4 wrapper ext4 made4 => ?_
  obtain ⟨sameR, isNew, pushed⟩ := made4
  subst sameR
  rw [same] at isNew pushed
  obtain ⟨isFresh, others⟩ := func_push pushed
  have below := below_of_defined defined
  have definedNow : (p4.func target).init = some initial := by rw [others target below, defined]
  have heldClamped : r4.HoldsAll clamped := by
    intro e member
    obtain ⟨_, _, clamped⟩ := forall₂_mem_left areClamped.flip member
    exact clamped.held
  have fitting : clamped.length = initial.args.length := by
    rw [← areClamped.length_eq, List.length_zip, List.length_map, ← sameCount, Nat.min_self,
      sameLength]
  refine Succeeds.bind (.callFunc heldClamped definedNow fitting) fun r5 p5 call ext5 made5 => ?_
  obtain ⟨same5, heldCall, root, rfl⟩ := made5
  have fresh : p5.func wrapper = { name := (p1.func target).name ++ "_ce" } := by
    rw [func_eq_of_funcs same5, isNew]
    exact isFresh
  have size5 : p5.funcs.size = p1.funcs.size + 1 := by rw [same5, size_push pushed]
  -- The wrapper is the only function that changes, whichever definition it gets.
  have defines {later : Registry} {left : Program} {e : Expr}
      (encases : later.Encases target border value initial.value.dtype (vars.map Expr.name) e)
      (set : left.funcs = p5.funcs.setIfInBounds wrapper
        { p5.func wrapper with init := some ⟨vars, e⟩ }) :
      Wrapping r1 later p1 left target initial border value wrapper ⟨vars, e⟩ := by
    obtain ⟨isDefined, unchanged⟩ := func_set (by rw [isNew, size5]; exact Nat.lt_succ_self _) set
    refine ⟨isNew, (size_set set).trans size5, fun id old => ?_, by rw [isDefined, fresh], renewed,
      encases⟩
    have different : id ≠ wrapper := by
      rw [isNew]
      exact Nat.ne_of_lt old
    rw [unchanged id different, func_eq_of_funcs same5, others id old]
  cases inside with
  | none =>
      obtain rfl := (whenNone rfl).2
      obtain rfl : vars = [] := List.length_eq_zero_iff.1 sameCount.symm
      cases areClamped
      refine Succeeds.bind (.define_initial (by rw [fresh]) (by simp) .nil)
        fun r6 p6 _ _ made6 => ?_
      obtain ⟨_, set⟩ := made6
      exact Succeeds.pure ⟨_, defines (.call rfl) set⟩
  | some condition =>
      refine Succeeds.bind (.ofFollows (Follows.buildsAs (BuildsAs.ofBuilds (b := ())
        (Q := fun later e _ => later.Has (.const value) value.dtype [] e) (Builds.const value))))
        fun r6 p6 outer ext6 made6 => ?_
      obtain ⟨same6, heldOuter, root'', isOuter⟩ := made6
      have ext46 := ext5.trans ext6
      have tells : r4.Tells border _ condition := tells
      refine Succeeds.bind (.builds (Builds.select (tells.held.extend ext46) (heldCall.extend ext6)
        heldOuter)) fun r7 p7 e ext7 made7 => ?_
      obtain ⟨same7, _, root', isSelect⟩ := made7
      subst isOuter isSelect
      have same57 := same7.trans same6
      have isPure (v : Expr) (member : v ∈ vars) : v.isPureVariable = true := by
        have isVariable := (ofVar v member).2
        exact (isVariable.subnode .here isVariable.named).2
      refine Succeeds.bind (.define_initial (by rw [func_eq_of_funcs same57, fresh]) isPure
        (distinct _ renewed)) fun r8 p8 _ ext8 made8 => ?_
      obtain ⟨_, set⟩ := made8
      rw [func_eq_of_funcs same57, same57] at set
      have ext48 := ext46.trans (ext7.trans ext8)
      refine Succeeds.pure ⟨_, defines (.select { tells.extend ext48 with
        truth := fun answers env whole => (tells.truth answers env whole).trans (and_iff_right trivial) }
        (areClamped.imp fun _ _ clamped => clamped.extend ext48)) set⟩

theorem Expr.Closed.integral {e : Expr} (closed : Closed e) : Integral e ∧ e.unknownNodes = [] ∧
    ∀ env unknowns, e.integerWith env unknowns = e.integer env := by
  induction closed with
  | int => exact ⟨.int, rfl, fun _ _ => rfl⟩
  | add _ _ left right | sub _ _ left right =>
      exact ⟨.binary rfl left.1 right.1, by simp [unknownNodes, isArithmetic, left.2.1, right.2.1],
        fun env unknowns => by simp [integerWith, integer, isArithmetic, left.2.2, right.2.2]⟩
  | @extremum _ greatest _ _ _ _ left right =>
      have arithmetic : isArithmetic (extremumOp greatest) .int32 = true := by cases greatest <;> rfl
      exact ⟨.binary arithmetic left.1 right.1,
        by simp [unknownNodes, arithmetic, left.2.1, right.2.1],
        fun env unknowns => by simp [integerWith, integer, arithmetic, left.2.2, right.2.2]⟩

theorem Registry.HoldsDomain.bounds {domain : Domain} (held : r.HoldsDomain domain) :
    r.HoldsBounds domain := by
  intro bound member
  obtain ⟨least, extent⟩ := held bound member
  have leastIs := least.2.integral
  have extentIs := extent.2.integral
  refine ⟨⟨least.1, extent.1⟩, ⟨leastIs.1, extentIs.1⟩, fun later extended => ?_⟩
  refine (lastIndex_sound (least.extend extended) (extent.extend extended)).mono
    fun middle last _ made q => ?_
  obtain ⟨isClosed, lastValue⟩ := made
  refine (simplify_follows isClosed.1 isClosed.2 fun _ => 0).mono
    fun final high _ _ made => ?_
  obtain ⟨heldHigh, id, rfl⟩ := made
  refine ⟨heldHigh, .int, by simp [unknownNodes], fun env unknowns => ?_⟩
  rw [leastIs.2.2, extentIs.2.2, least.2.integer_value, extent.2.integer_value, ← lastValue]
  rfl

theorem Registry.HoldsDomain.whole {domain : Domain} (held : r.HoldsDomain domain)
    (answers : CallValues ℚ) (env : Env) : Whole answers env domain := by
  intro bound member u among
  obtain ⟨least, extent⟩ := held bound member
  rw [least.2.integral.2.1, extent.2.integral.2.1] at among
  cases among

theorem Registry.HoldsDomain.withinBorder_iff {domain : Domain} (held : r.HoldsDomain domain)
    (answers : CallValues ℚ) (env : Env) (index : List Int) :
    WithinBorder answers env domain index ↔ Within (domain.map rangeEnds) index := by
  rw [Within, List.forall₂_map_left_iff]
  have covers (bound : Expr × Expr) (member : bound ∈ domain) (i : Int) :
      Covers answers env bound i ↔ Between (rangeEnds bound) i := by
    obtain ⟨least, extent⟩ := held bound member
    rw [Covers, least.2.exact, extent.2.exact, least.2.integer_value, extent.2.integer_value]
    simp only [Between, rangeEnds]
    norm_cast
    omega
  exact ⟨fun within => forall₂_imp_mem within fun bound member i _ => (covers bound member i).1,
    fun within => forall₂_imp_mem within fun bound member i _ => (covers bound member i).2⟩

/-- A new function has the target's values within the domain, and zero elsewhere. -/
structure Wraps (p left : Program) (target : FuncId) (vars : List Expr) (domain : Domain)
    (wrapper : FuncId) : Prop where
  isNew : wrapper = p.funcs.size
  size : left.funcs.size = p.funcs.size + 1
  others : ∀ id, id < p.funcs.size → left.func id = p.func id
  name : (left.func wrapper).name = (p.func target).name ++ "_ce"
  updates : (left.func wrapper).updates = []
  sameLength : domain.length = vars.length
  initial : ∃ initial, (left.func wrapper).init = some initial ∧
    initial.args.map Expr.name = vars.map Expr.name ∧ initial.value.dtype = .float32 ∧
    (∀ callee, initial.value.Calls callee ↔ callee = target) ∧
    ∀ (reads : Reads ℚ) env, exact reads.answers env initial.value =
      if Within (domain.map rangeEnds) ((vars.map Expr.name).map env)
        then reads target ((vars.map Expr.name).map env) else 0

theorem constantExterior_arity {target : FuncId} {value : Operand} {initial : Definition}
    {bounds : List (Operand × Operand)} {Q : Registry → Program → FuncId → Prop}
    (defined : (p.func target).init = some initial) (differs : bounds.length ≠ initial.args.length) :
    Achieves (constantExterior target value bounds) r p Q := by
  have args : (p.func target).args = .ok initial.args := by
    simp [Func.args, Func.initial, defined, Except.map]
  unfold constantExterior
  refine Achieves.bind (Achieves.getFunc (Q := fun _ _ f => f = p.func target) rfl)
    fun r0 p0 f _ isFunc => ?_
  subst isFunc
  refine Achieves.bind (Achieves.ofExcept (Q := fun _ _ a => a = initial.args)
    fun a isArgs => Except.ok.inj (isArgs.symm.trans args)) fun r1 p1 a _ isArgs => ?_
  subst isArgs
  rw [if_pos differs]
  exact Achieves.throw_bind

theorem Wrapping.wraps {later : Registry} {left : Program} {target wrapper : FuncId}
    {initial wrapped : Definition} {domain : Domain}
    (wrapping : Wrapping r later p left target initial domain (.float 0.0) wrapper wrapped)
    (heldDomain : r.HoldsDomain domain) (sameLength : domain.length = initial.args.length)
    (isFloat : initial.value.dtype = .float32)
    (sameNames : wrapped.args.map Expr.name = initial.args.map Expr.name) :
    Wraps p left target initial.args domain wrapper := by
  have encases := wrapping.encases
  rw [sameNames] at encases
  have sameCount : domain.length = (initial.args.map Expr.name).length := by simpa using sameLength
  refine ⟨wrapping.isNew, wrapping.size, wrapping.others, ?_, ?_, sameLength, wrapped, ?_, sameNames,
    ?_, fun callee => ⟨fun called => ?_, ?_⟩, fun reads env => ?_⟩
  · rw [wrapping.isWrapped]
  · rw [wrapping.isWrapped]
  · rw [wrapping.isWrapped]
  · rw [isFloat] at encases
    exact encases.isFloat rfl
  · obtain ⟨x, within, name, isCall⟩ := called
    obtain ⟨bound, member, least | extent⟩ | ⟨⟨_, same⟩, _⟩ := encases.calls within isCall
    · exact absurd ⟨x, least, name, isCall⟩ ((heldDomain bound member).1.2.not_calls callee)
    · exact absurd ⟨x, extent, name, isCall⟩ ((heldDomain bound member).2.2.not_calls callee)
    · cases same
      rfl
  · rintro rfl
    exact encases.calls_target
  · have whole := heldDomain.whole reads.answers env
    have iff := heldDomain.withinBorder_iff reads.answers env
    split
    next within => exact encases.inside whole sameCount ((iff _).2 within)
    next beyond =>
      rw [encases.outside whole (mt (iff _).1 beyond) sameCount]
      exact Constant.exact_zero

/-- Adjoints are wrapped over the closed bounds that were inferred. -/
theorem constantExterior_wraps {target : FuncId} {vars : List Expr} {domain : Domain}
    (declares : Declares r (p.func target) vars) (heldDomain : r.HoldsDomain domain)
    (isFloat : ∀ initial, (p.func target).init = some initial → initial.value.dtype = .float32) :
    Achieves (constantExterior target (.literal (.float 0.0))
      (domain.map fun (least, extent) => (Operand.expr least, Operand.expr extent))) r p
      fun _ left wrapper => Wraps p left target vars domain wrapper := by
  obtain ⟨initial, defined, rfl⟩ := declares.args
  by_cases sameLength : domain.length = initial.args.length
  · have keepsNames {names : List String}
        (renewed : List.Forall₂ (Renews r.names) (initial.args.map Expr.name) names) :
        names = initial.args.map Expr.name := by
      rw [← List.forall₂_eq_eq_eq]
      refine (forall₂_imp_mem renewed fun name member name' _ renews => ?_).flip
      rcases renews with same | ⟨empty, _⟩
      · exact same
      · obtain ⟨v, isVar, named⟩ := List.mem_map.1 member
        exact absurd (named.trans empty) (declares.named v isVar)
    refine (constantExterior_sound defined sameLength heldDomain.bounds fun names renewed =>
      (keepsNames renewed).symm ▸ declares.distinct).achieves.mono fun _ _ _ _ made => ?_
    obtain ⟨_, wrapping⟩ := made
    exact wrapping.wraps heldDomain sameLength (isFloat initial defined) (keepsNames wrapping.renewed)
  · exact constantExterior_arity defined (by simpa using sameLength)

end ReverseMode
