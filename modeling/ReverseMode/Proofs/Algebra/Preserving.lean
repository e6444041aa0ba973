import ReverseMode.Proofs.Algebra.Unknowns
import ReverseMode.Proofs.Nodes.Following
import ReverseMode.Program.Simplify

/-!
# Simplification keeps values

A composed form is written as an expression of its value over the nodes its symbols and unknowns stand
for. So integer arithmetic, clamps included, is simplified to arithmetic of the same value, and every
unknown node in the result is one of the original nodes.
-/

namespace ReverseMode

open Form Expr Nest

variable {r : Registry} {symbols : Symbols} {D : Composition} {U : Expr → Prop} {K : Nest → Prop}

/-- The nodes that the symbols and unknowns of `D` stand for are registered integers, the unknown ones
in `U`. -/
structure Registry.Provides (r : Registry) (symbols : Symbols) (D : Composition) (U : Expr → Prop) :
    Prop where
  vars : ∀ name, D.symbol name →
    ∃ v, symbols.node? name = some v ∧ r.Holds v ∧ v.IsInteger name
  unknowns : ∀ rank, D.unknown rank → ∃ u, symbols.unknowns[rank]? = some u ∧
    r.Holds u ∧ U u ∧ u.isUnknown = true ∧ u.dtype = .int32

theorem Registry.Provides.extend {later : Registry} (provides : r.Provides symbols D U)
    (extended : r.Extends later) : later.Provides symbols D U where
  vars name known := by
    obtain ⟨v, found, held, isInteger⟩ := provides.vars name known
    exact ⟨v, found, held.extend extended, isInteger⟩
  unknowns rank known := by
    obtain ⟨u, found, held, rest⟩ := provides.unknowns rank known
    exact ⟨u, found, held.extend extended, rest⟩

/-- A registered integer expression of the given value, its unknown nodes in `U` and all names outside
of them in `D`. -/
structure Registry.Yields (r : Registry) (symbols : Symbols) (D : Composition) (U : Expr → Prop)
    (v : Assignment → Int) (e : Expr) : Prop where
  held : r.Holds e
  integral : e.Integral
  within : ∀ u ∈ e.unknownNodes, U u
  names : ∀ name, Mentions e name → D.symbol name ∨ ∃ u, U u ∧ Mentions u name
  value : ∀ env unknowns, e.integerWith env unknowns = v (symbols.assignment env unknowns)

namespace Registry.Yields

variable {later : Registry} {v w : Assignment → Int} {e a b : Expr}

theorem dtype (yields : r.Yields symbols D U v e) : e.dtype = .int32 := yields.integral.dtype

theorem extend (yields : r.Yields symbols D U v e) (extended : r.Extends later) :
    later.Yields symbols D U v e :=
  { yields with held := yields.held.extend extended }

theorem of_eq (yields : r.Yields symbols D U v e) (same : ∀ σ, v σ = w σ) :
    r.Yields symbols D U w e :=
  { yields with value := fun env unknowns => (yields.value env unknowns).trans (same _) }

end Registry.Yields

theorem yields_literal (r : Registry) (c : Int) :
    Builds (literal c) r fun later e => later.Yields symbols D U (fun _ => c) e := by
  refine (Builds.const (.int c)).mono fun later e _ made => ?_
  obtain ⟨held, id, rfl⟩ := made
  exact ⟨held, .int, fun u member => (nomatch member),
    fun name mentioned => by simp [mentions_node, variableName?] at mentioned,
    fun env unknowns => by simp [integerWith]⟩

theorem yields_binary {op : BinaryOp} {v w : Assignment → Int} {a b : Expr}
    (arithmetic : isArithmetic op .int32 = true) (left : r.Yields symbols D U v a)
    (right : r.Yields symbols D U w b) :
    Builds (Expr.mkBinary op a b) r fun later e =>
      later.Yields symbols D U (fun σ => integerOf op (v σ) (w σ)) e := by
  refine (Builds.binary op left.held right.held).mono fun later e _ made => ?_
  obtain ⟨held, id, isNode⟩ := made
  have integral : (if op.isBoolean then DType.bool else a.dtype.promote b.dtype) = .int32 := by
    rw [left.dtype, right.dtype]
    cases op <;> first | rfl | cases arithmetic
  rw [integral] at isNode
  subst isNode
  refine ⟨held, .binary arithmetic left.integral right.integral, fun u member => ?_,
    fun name mentioned => (mentions_pair.1 mentioned).elim (left.names name) (right.names name),
    fun env unknowns => ?_⟩
  · rw [unknownNodes, if_pos arithmetic] at member
    exact (List.mem_append.1 member).elim (left.within u) (right.within u)
  · rw [integerWith, if_pos arithmetic, left.value, right.value]

def arithmeticJudgement (symbols : Symbols) (D : Composition) (U : Expr → Prop) :
    Judgement Assignment where
  judges r v e := r.Yields symbols D U v e
  dtype yields := yields.dtype
  extend yields extended := yields.extend extended
  literal := yields_literal
  signed isSigned left right := by
    refine yields_binary ?_ left right
    rcases isSigned with rfl | rfl <;> rfl
  multiple {r c _ _} yields :=
    Builds.bind (yields_literal r c) fun _ _ extended made =>
      yields_binary rfl made (yields.extend extended)

theorem yields_repeated {v : Assignment → Int} {e : Expr} (yields : r.Yields symbols D U v e)
    (n : Nat) :
    Builds (repeated e (n + 1)) r fun later power =>
      later.Yields symbols D U (fun σ => v σ ^ (n + 1)) power := by
  induction n with
  | zero => exact Builds.pure (yields.of_eq fun σ => (pow_one _).symm)
  | succ n ih =>
      change Builds (repeated e (n + 1) >>= fun power => Expr.mul power e) r _
      refine Builds.bind ih fun later power extended made => ?_
      exact (yields_binary rfl made (yields.extend extended)).mono fun _ _ _ done =>
        done.of_eq fun σ => (pow_succ _ _).symm

theorem extremeOf_cons_cons (greatest : Bool) (a b : Int) (rest : List Int) :
    extremeOf greatest (integerOf (extremumOp greatest) a b :: rest) =
      extremeOf greatest (a :: b :: rest) := by
  cases greatest <;> cases rest <;>
    simp [extremeOf, integerOf, extremumOp, min_assoc, max_assoc]

mutual

theorem yields_signed {r : Registry} {K : Nest → Prop} {f : Form Int} {reversed : Bool}
    (provides : r.Provides symbols D U) (composed : Composed D.loose K f)
    (negative : reversed = true → f.isNegativeTerm = true) :
    BuildsOk (writeSigned symbols reversed f) r fun later e =>
      later.Yields symbols D U (fun σ => (if reversed then -1 else 1) * value σ f) e := by
  -- Only negative terms are written reversed; all others are written as they are.
  have plain {e : Expr} {later : Registry} (positive : f.isNegativeTerm = false)
      (yields : later.Yields symbols D U (value · f) e) :
      later.Yields symbols D U (fun σ => (if reversed then -1 else 1) * value σ f) e := by
    cases reversed with
    | true => simp [positive] at negative
    | false => exact yields.of_eq fun σ => by simp
  match f with
  | number c =>
      cases reversed with
      | true =>
          rw [writeSigned, if_pos rfl]
          exact BuildsOk.ofBuilds ((@yields_literal symbols D U r (-1 * c)).mono fun _ _ _ made =>
            made.of_eq fun σ => by simp)
      | false =>
          rw [writeSigned, if_neg (by simp)]
          exact BuildsOk.ofBuilds ((@yields_literal symbols D U r c).mono fun _ _ _ made =>
            made.of_eq fun σ => by simp)
  | symbol name =>
      have known : D.symbol name := (composed_symbol (D := D.loose)).1 composed
      obtain ⟨v, found, held, isInteger⟩ := provides.vars name known
      rw [writeSigned, found, Option.getD_some]
      obtain ⟨noUnknowns, isValue⟩ := integerWith_variable isInteger.named
      refine BuildsOk.pure (plain rfl ⟨held, .named isInteger, fun u member => ?_,
        fun other mentioned => .inl ?_, fun env unknowns => ?_⟩)
      · rw [noUnknowns] at member
        cases member
      · rwa [isInteger.mentions.1 mentioned]
      · rw [isValue, value_symbol]
        rfl
  | unknown kind rank whole =>
      have known : D.unknown rank := (composed_unknown (D := D.loose)).1 composed
      obtain ⟨u, found, held, among, isUnknown, integral⟩ := provides.unknowns rank known
      have isRank : symbols.unknowns.getD rank default = u := by
        rw [List.getD_eq_getElem?_getD, found, Option.getD_some]
      rw [writeSigned, isRank]
      refine BuildsOk.pure (plain rfl ⟨held, .unknown isUnknown integral, fun u' member => ?_,
        fun name mentioned => .inr ⟨u, among, mentioned⟩, fun env unknowns => ?_⟩)
      · rw [unknownNodes_unknown isUnknown] at member
        exact List.mem_singleton.1 member ▸ among
      · rw [integerWith_unknown isUnknown, value_unknown]
        exact congrArg (fun x => unknowns (Expr.id x)) isRank.symm
  | extremum greatest [] =>
      rw [writeSigned]
      exact BuildsOk.throw
  | extremum greatest (g :: rest) =>
      obtain ⟨_, guest, _, seated⟩ := composed_extremum.1 composed
      obtain ⟨first, others⟩ := List.forall_mem_cons.1 fun h member => (seated h member).mixed
      rw [writeSigned]
      refine BuildsOk.bind (yields_signed provides first (fun absurd => nomatch absurd))
        fun later e extended made => ?_
      exact (yields_extremum (provides.extend extended) others made).mono fun _ _ _ done =>
        plain rfl (done.of_eq fun σ => by simp)
  | inverse _ => exact (not_composed_inverse composed).elim
  | power base e =>
      obtain ⟨inside, several, _⟩ := composed_power.1 composed
      have whole : writeSigned symbols reversed (power base e) =
          writeSigned symbols false base >>= fun b => (repeated b e : NodeM Expr) := by
        cases base with
        | inverse _ => exact (not_composed_inverse inside).elim
        | _ => rfl
      rw [whole]
      refine BuildsOk.bind (yields_signed provides inside (fun absurd => nomatch absurd))
        fun later b extended made => ?_
      match e, several with
      | n + 1, _ =>
          exact BuildsOk.ofBuilds ((yields_repeated made n).mono fun _ _ _ done =>
            plain rfl (done.of_eq fun σ => by simp))
  | product c factors =>
      have one (e : Expr) (absurd : none = some e) : r.Yields symbols D U (fun _ => 1) e :=
        nomatch absurd
      rw [writeSigned]
      refine BuildsOk.bind
        (yields_product provides (composed_product.1 composed).1 one fun _ _ => rfl)
        fun later e extended made => ?_
      refine BuildsOk.ofBuilds
        ((Judgement.withCoefficient (J := arithmeticJudgement symbols D U) made _).mono
          fun _ _ _ done => Judgement.of_eq done fun σ => ?_)
      cases reversed <;> simp
  | sum [] =>
      rw [writeSigned]
      exact BuildsOk.throw
  | sum (t :: rest) =>
      obtain ⟨first, others⟩ := List.forall_mem_cons.1 (composed_sum.1 composed)
      rw [writeSigned]
      refine BuildsOk.bind (yields_signed provides first (fun absurd => nomatch absurd))
        fun later e extended made => ?_
      have added := Judgement.sum (J := arithmeticJudgement symbols D U) (fun s member last more =>
        yields_signed (provides.extend (extended.trans more)) (others s member) fun negative => negative)
        made
      exact added.mono fun _ _ _ done => plain rfl (Judgement.of_eq done fun σ => by simp)

theorem yields_product {r : Registry} {K : Nest → Prop} {fs : List (Form Int)}
    {before : Option Expr} {v : Assignment → Int} (provides : r.Provides symbols D U)
    (composed : ∀ f ∈ fs, Composed D.loose K f)
    (yields : ∀ e, before = some e → r.Yields symbols D U v e)
    (first : before = none → ∀ σ, v σ = 1) :
    BuildsOk (writeProduct symbols before fs) r fun later e =>
      later.Yields symbols D U (fun σ => v σ * (fs.map (value σ)).prod) e := by
  match fs with
  | [] =>
      cases before with
      | none => exact BuildsOk.throw
      | some e => exact BuildsOk.pure ((yields e rfl).of_eq fun σ => by simp)
  | f :: rest =>
      obtain ⟨head, others⟩ := List.forall_mem_cons.1 composed
      have advance {last : Registry} {next : Expr} (reached : r.Extends last)
          (made : last.Yields symbols D U (fun σ => v σ * value σ f) next) :
          BuildsOk (writeProduct symbols (some next) rest) last fun later e =>
            later.Yields symbols D U (fun σ => v σ * ((f :: rest).map (value σ)).prod) e := by
        have started (e : Expr) (same : some next = some e) :
            last.Yields symbols D U (fun σ => v σ * value σ f) e := Option.some.inj same ▸ made
        refine (yields_product (provides.extend reached) others started
          fun absurd => nomatch absurd).mono fun _ _ _ done => done.of_eq fun σ => ?_
        rw [List.map_cons, List.prod_cons, mul_assoc]
      rw [writeProduct]
      refine BuildsOk.bind (yields_signed provides head (fun absurd => nomatch absurd))
        fun later e extended made => ?_
      cases before with
      | none => exact advance extended (made.of_eq fun σ => by simp [first rfl σ])
      | some b =>
          refine BuildsOk.bind (BuildsOk.ofBuilds (yields_binary rfl ((yields b rfl).extend extended)
            made)) fun last next extendedAgain done => ?_
          exact advance (extended.trans extendedAgain) (done.of_eq fun σ => by simp [integerOf])

theorem yields_extremum {r : Registry} {K : Nest → Prop} {greatest : Bool} {fs : List (Form Int)}
    {before : Expr} {v : Assignment → Int} (provides : r.Provides symbols D U)
    (composed : ∀ f ∈ fs, Composed D.loose K f) (yields : r.Yields symbols D U v before) :
    BuildsOk (writeExtremum symbols (extremumOp greatest) before fs) r fun later e =>
      later.Yields symbols D U (fun σ => extremeOf greatest (v σ :: fs.map (value σ))) e := by
  match fs with
  | [] =>
      rw [writeExtremum]
      exact BuildsOk.pure (yields.of_eq fun σ => by simp [extremeOf])
  | f :: rest =>
      obtain ⟨head, others⟩ := List.forall_mem_cons.1 composed
      rw [writeExtremum]
      refine BuildsOk.bind (yields_signed provides head (fun absurd => nomatch absurd))
        fun later e extended made => ?_
      have arithmetic : isArithmetic (extremumOp greatest) .int32 = true := by
        cases greatest <;> rfl
      refine BuildsOk.bind
        (BuildsOk.ofBuilds (yields_binary arithmetic (yields.extend extended) made))
        fun last next extendedAgain made => ?_
      refine (yields_extremum (provides.extend (extended.trans extendedAgain)) others made).mono
        fun _ _ _ done => done.of_eq fun σ => ?_
      simpa using extremeOf_cons_cons greatest (v σ) (value σ f) (rest.map (value σ))

end

structure Expr.SameValue (e e' : Expr) : Prop where
  integral : e'.Integral
  unknowns : ∀ u ∈ e'.unknownNodes, u ∈ e.unknownNodes
  value : ∀ env unknowns, e'.integerWith env unknowns = e.integerWith env unknowns

theorem Expr.SameValue.dtype {e e' : Expr} (same : e.SameValue e') : e'.dtype = .int32 :=
  same.integral.dtype

theorem simplified_arithmetic {r : Registry} {e : Expr} (held : r.Holds e)
    (arithmetic : Arithmetic K e) :
    BuildsAs e.simplified r (some ()) fun later result _ =>
      later.Holds result.expr ∧ e.SameValue result.expr := by
  have same : e.SameValue e := ⟨arithmetic.integral, fun _ member => member, fun _ _ => rfl⟩
  unfold Expr.simplified
  split
  next => exact BuildsAs.pure ⟨held, same⟩
  next =>
    have empty : Symbols.PartsOf {} e :=
      ⟨fun name v found => by simp [Symbols.node?] at found,
        fun u member => (List.not_mem_nil member).elim⟩
    obtain ⟨f, symbols, reads, _, parts, isRead⟩ :=
      read_arithmetic arithmetic (fun _ below => below) (fun _ member => member) {} rfl empty
    have reads : ExceptT.run (Expr.read e : ReadM (Form Int)) {} = (.ok f, symbols) := reads
    have provides : r.Provides symbols symbols.parts (· ∈ e.unknownNodes) := by
      refine ⟨fun name known => ?_, fun rank inside => ?_⟩
      · obtain ⟨v, found⟩ := known
        exact ⟨v, found, (parts.vars name v found).imp_left held.sub⟩
      · have found := List.getElem?_eq_getElem inside
        obtain ⟨among, isUnknown, integral⟩ := parts.unknowns _ (List.mem_of_getElem? found)
        exact ⟨_, found, held.sub (subnode_of_unknownNodes among), among, isUnknown, integral⟩
    have simplest := represents_simplest (isRead.composed symbols (.refl _)).toLoose
    rw [reads]
    refine BuildsAs.ofBuilds ?_
    unfold writeSimplest
    refine Builds.bind (yields_signed provides simplest.composed
      fun absurd => (Bool.false_ne_true absurd).elim)
      fun later result extended answer => ?_
    cases result with
    | error text => exact Builds.pure ⟨held.extend extended, same⟩
    | ok e' =>
        have yields := answer e' rfl
        dsimp only
        rw [if_pos (yields.dtype.trans arithmetic.dtype.symm)]
        refine Builds.pure ⟨yields.held, yields.integral, yields.within, fun env unknowns => ?_⟩
        rw [yields.value, if_neg (by simp), one_mul, simplest.value,
          isRead.value symbols (.refl _)]

theorem simplify_yields {r : Registry} {program : Program} {e : Expr} (held : r.Holds e)
    (arithmetic : Arithmetic K e) :
    Follows True (simplify e) r program (some ()) fun later result _ =>
      later.Holds result ∧ e.SameValue result := by
  unfold simplify
  refine Follows.bind_some (Follows.buildsAs (simplified_arithmetic held arithmetic))
    fun later left result _ _ answer => ?_
  split
  next => exact Follows.bind_some Follows.report fun _ _ _ extended _ _ =>
    Follows.pure (answer.imp_left (·.extend extended))
  next => exact Follows.pure answer

theorem simplify_arithmetic {r : Registry} {program : Program} {e : Expr} (held : r.Holds e)
    (arithmetic : Arithmetic K e) :
    Follows True (simplify e) r program (some ()) fun _ result _ => e.SameValue result :=
  (simplify_yields held arithmetic).mono fun _ _ _ _ both => both.2

/-- Integer arithmetic is simplified to an integer expression of the same value for all values of its
variables and unknown nodes, if at most one operand of each extremum has extrema of the other kind in
it and no others stand inside these. The unknown nodes of the result are unknown nodes of the
original. -/
theorem simplify_keeps_value {r : Registry} {program : Program} {e : Expr}
    (fits : r.Fits program.supply) (held : r.Holds e) (arithmetic : Arithmetic (fun _ => True) e) :
    ∃ e' left, (simplify e).run.run program = (.ok e', left) ∧ e'.dtype = .int32 ∧
      (∀ u ∈ e'.unknownNodes, u ∈ e.unknownNodes) ∧
      ∀ env unknowns, e'.integerWith env unknowns = e.integerWith env unknowns := by
  obtain ⟨e', left, _, run, _, _, same⟩ :=
    (simplify_arithmetic held arithmetic).answers_of_total fits
  exact ⟨e', left, run, same.dtype, same.unknowns, same.value⟩

namespace Bounding

def x : Expr := .node 0 (.var "x" true) .int32 []

def two : Expr := .node 1 (.const (.int 2)) .int32 []

def half : Expr := .node 2 (.binary .div) .int32 [x, two]

def sum : Expr := .node 3 (.binary .add) .int32 [half, x]

def next : Expr := .node 4 (.binary .add) .int32 [sum, two]

def least : Expr := .node 5 (.binary .min) .int32 [next, sum]

def clamp : Expr := .node 6 (.binary .max) .int32 [least, two]

def registry : Registry where
  node
    | 0 => x
    | 1 => two
    | 2 => half
    | 3 => sum
    | 4 => next
    | 5 => least
    | _ => clamp
  next := 7
  names := 0

def program : Program := { supply := { nodes := 7 } }

/-- What `max(min(x / 2 + x + 2, x / 2 + x), 2)` becomes has the value of `max(x / 2 + x, 2)`, and no
unknown node but the one quotient. -/
theorem clamp_simplified : ∃ e left, (simplify clamp).run.run program = (.ok e, left) ∧
    (∀ u ∈ e.unknownNodes, u = half) ∧
    ∀ env unknowns, e.integerWith env unknowns = max (unknowns 2 + env "x") 2 := by
  have isUnknown : half.isUnknown = true := rfl
  have arithmetic : Arithmetic (fun _ => True) clamp := by
    have isSum {K : Nest → Prop} : Arithmetic K sum := .add (.unknown isUnknown rfl) .var
    have isLeast : Arithmetic (Mixed true) least :=
      @Arithmetic.extremum _ _ false _ _ (by simp [Admits, Mixed]) (.add isSum .int) isSum
    exact @Arithmetic.mixedLeft _ _ true _ _ (fun _ _ => trivial) isLeast .int
  have held : registry.Holds clamp := by
    simp [Registry.Holds, Registry.IsRegistered, registry, clamp, least, next, sum, half, two, x,
      Expr.id]
  obtain ⟨e, left, run, _, unknowns, value⟩ :=
    @simplify_keeps_value registry program clamp ⟨rfl, rfl⟩ held arithmetic
  refine ⟨e, left, run, fun u member => ?_, fun env unknowns => ?_⟩
  · have member := unknowns u member
    simpa [clamp, least, next, sum, unknownNodes, isArithmetic, unknownNodes_unknown isUnknown, x,
      two] using member
  · rw [value]
    change max (min (unknowns 2 + env "x" + 2) (unknowns 2 + env "x")) 2 =
      max (unknowns 2 + env "x") 2
    omega

end Bounding

namespace Mixed

def name (id : NodeId) (name : String) : Expr := .node id (.var name true) .int32 []

def int (id : NodeId) (c : Int) : Expr := .node id (.const (.int c)) .int32 []

def pair (id : NodeId) (op : BinaryOp) (a b : Expr) : Expr := .node id (.binary op) .int32 [a, b]

/-- The minimum of `10`, of the maximum of `2`, `a` and `min(4, b)`, and of `max(5, c)`. -/
def least : Expr :=
  pair 10 .min
    (pair 8 .min (int 0 10)
      (pair 7 .max (pair 5 .max (int 1 2) (name 2 "a")) (pair 6 .min (int 3 4) (name 4 "b"))))
    (pair 9 .max (int 11 5) (name 12 "c"))

def env : Env := fun name => if name = "a" then 100 else if name = "b" then 0 else 6

/-- The value changes where a minimum stands in a maximum inside a minimum. -/
example : (least.integerWith env fun _ => 0) = 6 ∧
    ((simplify least).run.run { supply := { nodes := 13 } }).1.toOption.map
      (fun e => e.integerWith env fun _ => 0) = some 10 := by
  constructor <;> decide +kernel

end Mixed

end ReverseMode
