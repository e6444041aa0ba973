import ReverseMode.Proofs.Algebra.Preserving
import ReverseMode.Proofs.Bounds.Exterior

namespace ReverseMode

open Expr

def Registry.HoldsBorder (r : Registry) (border : Border) : Prop :=
  ∀ bound ∈ border, (r.Holds bound.1 ∧ r.Holds bound.2) ∧
    Arithmetic (fun _ => True) bound.1 ∧ Arithmetic (fun _ => True) bound.2

variable {r : Registry} {p : Program} {border : Border}

theorem Builds.binary_integer (op : BinaryOp) {a b : Expr} (arithmetic : isArithmetic op .int32 = true)
    (left : r.Holds a) (right : r.Holds b) (integralA : a.dtype = .int32) (integralB : b.dtype = .int32) :
    Builds (Expr.mkBinary op a b) r fun later => later.Has (.binary op) .int32 [a, b] := by
  have integral : (if op.isBoolean then DType.bool else a.dtype.promote b.dtype) = .int32 := by
    rw [integralA, integralB]
    cases op <;> first | rfl | cases arithmetic
  rw [← integral]
  exact Builds.binary op left right

theorem lastIndex_arithmetic {least extent : Expr} (heldLeast : r.Holds least)
    (heldExtent : r.Holds extent) (first : Arithmetic (fun _ => True) least)
    (second : Arithmetic (fun _ => True) extent) :
    Builds (Expr.lastIndex least extent) r fun later e => later.Holds e ∧
      Arithmetic (fun _ => True) e ∧ e.unknownNodes = least.unknownNodes ++ extent.unknownNodes ∧
      ∀ env unknowns, e.integerWith env unknowns =
        least.integerWith env unknowns + extent.integerWith env unknowns - 1 := by
  refine Builds.bind (Builds.binary_integer .add rfl heldLeast heldExtent first.dtype second.dtype)
    fun r1 stop ext1 made1 => ?_
  refine Builds.bind (Builds.const (.int 1)) fun r2 one ext2 made2 => ?_
  obtain ⟨heldStop, id1, rfl⟩ := made1
  obtain ⟨heldOne, id2, rfl⟩ := made2
  refine (Builds.binary_integer .sub rfl (heldStop.extend ext2) heldOne rfl rfl).mono
    fun r3 e _ made3 => ?_
  obtain ⟨heldResult, id3, rfl⟩ := made3
  exact ⟨heldResult, .sub (.add first second) .int,
    by simp [unknownNodes, isArithmetic],
    fun env unknowns => by simp [integerWith, isArithmetic, integerOf]⟩

theorem Registry.HoldsBorder.bounds (held : r.HoldsBorder border) : r.HoldsBounds border := by
  intro bound member
  obtain ⟨⟨heldLeast, heldExtent⟩, first, second⟩ := held bound member
  refine ⟨⟨heldLeast, heldExtent⟩, ⟨first.integral, second.integral⟩, fun later extended => ?_⟩
  refine (lastIndex_arithmetic (heldLeast.extend extended) (heldExtent.extend extended) first
    second).mono fun middle last _ made q => ?_
  obtain ⟨heldLast, arithmetic, unknowns, value⟩ := made
  refine (simplify_yields heldLast arithmetic).mono fun final high _ _ done => ?_
  obtain ⟨heldHigh, same⟩ := done
  exact ⟨heldHigh, same.integral, fun u among => unknowns ▸ same.unknowns u among,
    fun env unknowns => (same.value env unknowns).trans (value env unknowns)⟩

def BorderMentions (border : Border) (name : String) : Prop :=
  ∃ bound ∈ border, Mentions bound.1 name ∨ Mentions bound.2 name

/-- The declared names differ and occur in no bound. Where one of them is empty, the name that is
generated in its place is new. -/
structure Declarable (names : Nat) (border : Border) (declared : List String) : Prop where
  distinct : declared.Nodup
  apart : ∀ name ∈ declared, ¬ BorderMentions border name
  fresh : "" ∈ declared → ∀ name, name ∈ declared ∨ BorderMentions border name →
    Unissued names name

namespace Declarable

variable {names : Nat} {declared renewed : List String}

theorem renewed_apart (declarable : Declarable names border declared)
    (renews : List.Forall₂ (Renews names) declared renewed) {name : String} (member : name ∈ renewed) :
    ¬ BorderMentions border name := by
  obtain ⟨old, isOld, renews⟩ := forall₂_mem_left renews.flip member
  rcases renews with rfl | ⟨rfl, n, later, rfl⟩
  · exact declarable.apart _ isOld
  · exact fun mentioned => (declarable.fresh isOld _ (.inr mentioned) n later "v").1 rfl

theorem ne_generated (declarable : Declarable names border declared) {name : String} {n : Nat}
    (empty : "" ∈ declared) (member : name ∈ declared) (later : names ≤ n) :
    name ≠ generatedName "v" n :=
  (declarable.fresh empty name (.inl member) n later "v").1

theorem renewed_nodup (declarable : Declarable names border declared)
    (renews : List.Forall₂ (Renews names) declared renewed) : renewed.Nodup := by
  have ofSome {some renewed : List String} (among : ∀ name ∈ some, name ∈ declared)
      (distinct : some.Nodup) (renews : List.Forall₂ (Renews names) some renewed) :
      renewed.Nodup := by
    induction renews with
    | nil => exact .nil
    | @cons old name rest others renew renews ih =>
        obtain ⟨isOld, amongRest⟩ := List.forall_mem_cons.1 among
        obtain ⟨absent, distinctRest⟩ := List.nodup_cons.1 distinct
        refine List.nodup_cons.2 ⟨fun repeated => ?_, ih amongRest distinctRest⟩
        obtain ⟨old', member, renew'⟩ := forall₂_mem_left renews.flip repeated
        have isOld' := amongRest old' member
        rcases renew with rfl | ⟨rfl, n, later, rfl⟩ <;> rcases renew' with same | ⟨same, m, later', same'⟩
        · exact absent (same ▸ member)
        · exact declarable.ne_generated (same ▸ isOld') isOld later' same'
        · exact declarable.ne_generated isOld isOld' later same.symm
        · exact absent (same ▸ member)
  exact ofSome (fun _ member => member) declarable.distinct renews

end Declarable

def AgreesOff (names : List String) (params env : Env) : Prop :=
  ∀ name, name ∉ names → env name = params name

/-- The wrapper has the values of the function where the index lies within the border, and the given
value elsewhere. It calls nothing that the bounds do not call but the function itself, and wherever
there is an inside, that call reads inside. -/
structure Borders (target : FuncId) (border : Border) (value : Constant) (wrapped : Definition) :
    Prop where
  sameLength : wrapped.args.length = border.length
  distinct : (wrapped.args.map Expr.name).Nodup
  inside : ∀ (reads : Reads ℚ) (params env : Env),
    AgreesOff (wrapped.args.map Expr.name) params env → Whole reads.answers params border →
    WithinBorder reads.answers params border ((wrapped.args.map Expr.name).map env) →
    exact reads.answers env wrapped.value = reads target ((wrapped.args.map Expr.name).map env)
  outside : ∀ (reads : Reads ℚ) (params env : Env),
    AgreesOff (wrapped.args.map Expr.name) params env → Whole reads.answers params border →
    ¬ WithinBorder reads.answers params border ((wrapped.args.map Expr.name).map env) →
    exact reads.answers env wrapped.value = value.exact
  reads : ∀ (reads : Reads ℚ) (params env : Env),
    AgreesOff (wrapped.args.map Expr.name) params env → Whole reads.answers params border →
    (∀ bound ∈ border, 1 ≤ exact reads.answers params bound.2) →
    ∀ x callee, Subnode x wrapped.value → x.callee? = some callee →
      (∃ bound ∈ border, Subnode x bound.1 ∨ Subnode x bound.2) ∨
        (∃ name, callee = .func target name) ∧ ∃ index : List Int,
          x.operands.map (exact reads.answers env) = index.map Int.cast ∧
            WithinBorder reads.answers params border index

section

variable {names : List String} {answers : CallValues ℚ} {params env : Env}

theorem AgreesOff.exact (agrees : AgreesOff names params env)
    (apart : ∀ name ∈ names, ¬ BorderMentions border name) {bound : Expr × Expr} (member : bound ∈ border)
    {e : Expr} (within : Subnode e bound.1 ∨ Subnode e bound.2) :
    Expr.exact answers env e = Expr.exact answers params e := by
  refine exact_congr e (fun name mentions => agrees name fun among => apart name among ?_)
    fun _ _ _ _ => rfl
  exact ⟨bound, member, within.imp (Mentions.sub · mentions) (Mentions.sub · mentions)⟩

theorem AgreesOff.whole (agrees : AgreesOff names params env)
    (apart : ∀ name ∈ names, ¬ BorderMentions border name) (whole : Whole answers params border) :
    Whole answers env border := by
  intro bound member u among
  have within := (List.mem_append.1 among).imp subnode_of_unknownNodes subnode_of_unknownNodes
  rw [agrees.exact apart member within]
  exact whole bound member u among

theorem AgreesOff.covers (agrees : AgreesOff names params env)
    (apart : ∀ name ∈ names, ¬ BorderMentions border name) {bound : Expr × Expr} (member : bound ∈ border)
    (i : Int) : Covers answers env bound i ↔ Covers answers params bound i := by
  rw [Covers, Covers, agrees.exact apart member (.inl .here), agrees.exact apart member (.inr .here)]

theorem AgreesOff.within (agrees : AgreesOff names params env)
    (apart : ∀ name ∈ names, ¬ BorderMentions border name) (index : List Int) :
    WithinBorder answers env border index ↔ WithinBorder answers params border index := by
  constructor <;> refine fun within => forall₂_imp_mem within fun bound member i _ => ?_
  · exact (agrees.covers apart member i).1
  · exact (agrees.covers apart member i).2

end

theorem Wrapping.borders {later : Registry} {left : Program} {target wrapper : FuncId}
    {initial wrapped : Definition} {value : Constant}
    (wrapping : Wrapping r later p left target initial border value wrapper wrapped)
    (sameLength : border.length = initial.args.length)
    (declarable : Declarable r.names border (initial.args.map Expr.name)) :
    Borders target border value wrapped := by
  have encases := wrapping.encases
  have apart (name : String) (member : name ∈ wrapped.args.map Expr.name) :
      ¬ BorderMentions border name := declarable.renewed_apart wrapping.renewed member
  have sameCount : border.length = (wrapped.args.map Expr.name).length := by
    rw [sameLength, ← List.length_map (f := Expr.name), wrapping.renewed.length_eq]
  refine ⟨by simpa using sameCount.symm, declarable.renewed_nodup wrapping.renewed,
    fun reads params env agrees whole within => ?_, fun reads params env agrees whole beyond => ?_,
    fun reads params env agrees whole extents x callee within called => ?_⟩
  · exact encases.inside (agrees.whole apart whole) sameCount ((agrees.within apart _).2 within)
  · exact encases.outside (agrees.whole apart whole) (mt (agrees.within apart _).1 beyond) sameCount
  · refine (encases.calls within called).imp_right (And.imp_right fun areClamped => ?_)
    obtain ⟨index, values, _, inside⟩ :=
      clamped_values sameCount (agrees.whole apart whole) areClamped
    refine ⟨index, values, (agrees.within apart index).1 (inside fun bound member => ?_)⟩
    rw [agrees.exact apart member (.inr .here)]
    exact extents bound member

/-- A function is wrapped for any value and any bounds of integer arithmetic, clamps included. Inside
the bounds the wrapper has the values of the function, outside the given value, and if no axis is empty
it reads the function inside only. -/
theorem constantExterior_values {target : FuncId} {value : Constant} {initial : Definition}
    (fits : r.Fits p.supply) (defined : (p.func target).init = some initial)
    (declarable : Declarable r.names border (initial.args.map Expr.name))
    (sameLength : border.length = initial.args.length) (held : r.HoldsBorder border) :
    ∃ wrapper left wrapped,
      (constantExterior target (.literal value) (border.map fun bound =>
        (Operand.expr bound.1, Operand.expr bound.2))).run.run p = (.ok wrapper, left) ∧
      left.func target = p.func target ∧
      left.func wrapper = { name := (p.func target).name ++ "_ce", init := some wrapped } ∧
      List.Forall₂ (Renews r.names) (initial.args.map Expr.name) (wrapped.args.map Expr.name) ∧
      Borders target border value wrapped := by
  obtain ⟨wrapper, left, _, run, _, _, wrapped, wrapping⟩ := constantExterior_sound defined sameLength
    held.bounds (fun _ renewed => declarable.renewed_nodup renewed) fits
  exact ⟨wrapper, left, wrapped, run, wrapping.others target (below_of_defined defined),
    wrapping.isWrapped, wrapping.renewed, wrapping.borders sameLength declarable⟩

namespace Window

def named (id : NodeId) (name : String) : Expr := .node id (.var name true) .int32 []

def least : Expr := .node 3 (.binary .max) .int32 [named 1 "a", named 2 "b"]

def window : Border := [(least, named 4 "n")]

def registry : Registry where
  node
    | 0 => named 0 "x"
    | 1 => named 1 "a"
    | 2 => named 2 "b"
    | 3 => least
    | _ => named 4 "n"
  next := 5
  names := 0

def program : Program where
  supply := { nodes := 5 }
  funcs := #[{ name := "f", init := some ⟨[named 0 "x"], named 0 "x"⟩ }]

/-- A function of `x` from the greater one of `a` and `b` on, for `n` indices. -/
theorem window_values : ∃ wrapper left wrapped,
    (constantExterior 0 (.literal (.int (-1))) (window.map fun bound =>
      (Operand.expr bound.1, Operand.expr bound.2))).run.run program = (.ok wrapper, left) ∧
    (left.func wrapper).init = some wrapped ∧
    ∀ (reads : Reads ℚ) (env : Env), exact reads.answers env wrapped.value =
      if max (env "a") (env "b") ≤ env "x" ∧ env "x" < max (env "a") (env "b") + env "n"
      then reads 0 [env "x"] else -1 := by
  have held : registry.HoldsBorder window := by
    have isRegistered : registry.Holds least ∧ registry.Holds (named 4 "n") := by
      constructor <;>
        simp [Registry.Holds, Registry.IsRegistered, registry, least, named, Expr.id]
    intro bound member
    obtain rfl := List.mem_singleton.1 member
    exact ⟨isRegistered, @Arithmetic.extremum _ _ true _ _ trivial .var .var, .var⟩
  have declarable : Declarable registry.names window ["x"] := by
    refine ⟨by decide, fun name member mentioned => ?_, fun empty => absurd empty (by decide)⟩
    obtain rfl := List.mem_singleton.1 member
    obtain ⟨bound, isBound, mentions⟩ := mentioned
    obtain rfl := List.mem_singleton.1 isBound
    simp [least, named, mentions_node, variableName?] at mentions
  obtain ⟨wrapper, left, wrapped, run, _, isWrapped, renewed, borders⟩ :=
    @constantExterior_values registry program window 0 (.int (-1)) ⟨[named 0 "x"], named 0 "x"⟩
      ⟨rfl, rfl⟩ rfl declarable rfl held
  refine ⟨wrapper, left, wrapped, run, by rw [isWrapped], fun reads env => ?_⟩
  have sameNames : wrapped.args.map Expr.name = ["x"] := by
    obtain ⟨name, others, renews, none, same⟩ := List.forall₂_cons_left_iff.1 renewed
    cases none
    rcases renews with isX | ⟨empty, _⟩
    · rw [same, isX]
      rfl
    · exact absurd empty (by decide)
  have leastValue : exact reads.answers env least = (max (env "a") (env "b") : Int) := by
    have values : least.Integral := .binary rfl (.named ⟨rfl, rfl, rfl⟩) (.named ⟨rfl, rfl, rfl⟩)
    exact @Integral.exact _ values reads.answers env (fun _ => 0)
      (by simp [least, named, unknownNodes, isArithmetic])
  have whole : Whole reads.answers env window := by
    intro bound member u among
    obtain rfl := List.mem_singleton.1 member
    simp [least, named, unknownNodes, isArithmetic] at among
  have within : WithinBorder reads.answers env window [env "x"] ↔
      max (env "a") (env "b") ≤ env "x" ∧ env "x" < max (env "a") (env "b") + env "n" := by
    have isName : (named 4 "n").IsInteger "n" := ⟨rfl, rfl, rfl⟩
    have extent := isName.exact reads.answers env
    simp only [WithinBorder, window, List.forall₂_cons, List.forall₂_nil_left_iff, and_true, Covers,
      leastValue, extent, Int.cast_le, ← Int.cast_add, Int.cast_lt]
  have agrees : AgreesOff (wrapped.args.map Expr.name) env env := fun _ _ => rfl
  split
  next inside =>
    have value := borders.inside reads env env agrees whole
    rw [sameNames] at value
    exact value (within.2 inside)
  next outside =>
    have value := borders.outside reads env env agrees whole
    rw [sameNames] at value
    rw [value (mt within.1 outside)]
    norm_num [Constant.exact]

end Window

end ReverseMode
