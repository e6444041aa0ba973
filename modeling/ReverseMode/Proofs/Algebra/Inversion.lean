import ReverseMode.Proofs.Algebra.Preserving
import ReverseMode.Proofs.Algebra.Unimodular

/-!
# Inverting polynomial arguments

An equation between a fresh variable and a polynomial argument is solved for a variable of the
argument exactly if that variable occurs once in it, with a unit as its coefficient. The solution does
not mention the variable, and the equation holds exactly where the variable has its value.
-/

namespace ReverseMode

open Form Expr MvPolynomial

namespace Expr

/-- Integer arithmetic of literals and variables with sums, differences and products. -/
inductive IsPolynomial : Expr → Prop where
  | int {id : NodeId} {c : Int} : IsPolynomial (.node id (.const (.int c)) .int32 [])
  | named {v : Expr} {name : String} : v.IsInteger name → IsPolynomial v
  | add {id : NodeId} {a b : Expr} :
      IsPolynomial a → IsPolynomial b → IsPolynomial (.node id (.binary .add) .int32 [a, b])
  | sub {id : NodeId} {a b : Expr} :
      IsPolynomial a → IsPolynomial b → IsPolynomial (.node id (.binary .sub) .int32 [a, b])
  | mul {id : NodeId} {a b : Expr} :
      IsPolynomial a → IsPolynomial b → IsPolynomial (.node id (.binary .mul) .int32 [a, b])

noncomputable def polynomial : Expr → MvPolynomial String Int
  | node _ (.const (.int c)) _ _ => C c
  | node _ (.var name _) _ _ => X name
  | node _ (.binary .add) _ [a, b] => polynomial a + polynomial b
  | node _ (.binary .sub) _ [a, b] => polynomial a - polynomial b
  | node _ (.binary .mul) _ [a, b] => polynomial a * polynomial b
  | node _ _ _ _ => 0
  | reduction _ domain axis _ _ => X (axisName domain axis)

variable {e v : Expr} {name : String}

theorem IsInteger.polynomial (isInteger : v.IsInteger name) : v.polynomial = X name := by
  obtain ⟨named, _, _⟩ := isInteger
  cases v with
  | node id head dtype operands =>
      cases head <;> simp_all [variableName?, Expr.polynomial]
  | reduction => simp_all [variableName?, Expr.polynomial]

theorem IsPolynomial.integer (isPolynomial : e.IsPolynomial) (env : Env) :
    e.integer env = eval env e.polynomial := by
  induction isPolynomial with
  | int => simp [Expr.integer, Expr.polynomial]
  | named isInteger => rw [integer_variable isInteger.named, isInteger.polynomial, eval_X]
  | add _ _ left right =>
      rw [Expr.integer, Expr.polynomial, map_add, left, right]
      rfl
  | sub _ _ left right =>
      rw [Expr.integer, Expr.polynomial, map_sub, left, right]
      rfl
  | mul _ _ left right =>
      rw [Expr.integer, Expr.polynomial, map_mul, left, right]
      rfl

theorem IsPolynomial.mentions (isPolynomial : e.IsPolynomial) (known : name ∈ e.polynomial.vars) :
    Mentions e name := by
  induction isPolynomial with
  | int =>
      rw [Expr.polynomial, vars_C] at known
      exact nomatch known
  | named isInteger =>
      rw [isInteger.polynomial, vars_X, Finset.mem_singleton] at known
      exact isInteger.mentions.2 known
  | add _ _ left right =>
      rw [Expr.polynomial] at known
      exact mentions_pair.2 ((Finset.mem_union.1 (vars_add_subset _ _ known)).imp left right)
  | sub _ _ left right =>
      rw [Expr.polynomial] at known
      exact mentions_pair.2 ((Finset.mem_union.1 (vars_sub_subset _ known)).imp left right)
  | mul _ _ left right =>
      rw [Expr.polynomial] at known
      exact mentions_pair.2 ((Finset.mem_union.1 (vars_mul _ _ known)).imp left right)

theorem IsPolynomial.variable (isPolynomial : e.IsPolynomial) (within : Subnode v e)
    (named : v.variableName? = some name) : v.IsInteger name := by
  have operand {id : NodeId} {op : BinaryOp} {dtype : DType} {a b : Expr}
      (inside : Subnode v (.node id (.binary op) dtype [a, b])) : Subnode v a ∨ Subnode v b := by
    rcases subnode_node.1 inside with rfl | ⟨y, member, deeper⟩
    · cases named
    · simp only [List.mem_cons, List.not_mem_nil, or_false] at member
      rcases member with rfl | rfl
      · exact .inl deeper
      · exact .inr deeper
  induction isPolynomial with
  | int =>
      rcases subnode_node.1 within with rfl | ⟨y, absurd, _⟩
      · cases named
      · cases absurd
  | @named w other isInteger =>
      have same : v = w := by
        have leaf := isInteger.leaf
        cases w with
        | node id head dtype operands =>
            obtain rfl : operands = [] := leaf
            rcases subnode_node.1 within with same | ⟨y, absurd, _⟩
            · exact same
            · cases absurd
        | reduction => exact subnode_reduction.1 within
      rw [same] at named ⊢
      exact (Option.some.inj (isInteger.named.symm.trans named)) ▸ isInteger
  | add _ _ left right | sub _ _ left right | mul _ _ left right =>
      exact (operand within).elim left right

end Expr

theorem Expr.IsInteger.read {v : Expr} {name : String} (isInteger : v.IsInteger name) :
    (Expr.read v : ReadM (Form Int)) = readVariable name v := by
  have named := isInteger.named
  cases v with
  | node id head dtype operands =>
      cases head with
      | var other index =>
          obtain rfl : other = name := Option.some.inj named
          rfl
      | _ => cases named
  | reduction id domain axis least extent =>
      obtain rfl : axisName domain axis = name := Option.some.inj named
      rfl

def ReadsAs (e : Expr) (P : MvPolynomial String Int) : Prop :=
  ∀ before : Symbols, ∃ f after,
    (Expr.read e : ReadM (Form Int)).run.run before = (.ok f, after) ∧ Symbolic f ∧ Denotes f P ∧
      Records e before after

theorem readsAs_operands {id : NodeId} {op : BinaryOp} {a b : Expr} {P Q R : MvPolynomial String Int}
    {combine : Form Int → Form Int → Form Int} (arithmetic : isArithmetic op .int32 = true)
    (combines : ∀ f g, readBinary op f g = .ok (combine f g)) (left : ReadsAs a P)
    (right : ReadsAs b Q) (sound : ∀ {f g : Form Int}, Symbolic f → Denotes f P → Symbolic g →
      Denotes g Q → Symbolic (combine f g) ∧ Denotes (combine f g) R) :
    ReadsAs (.node id (.binary op) .int32 [a, b]) R := by
  intro before
  obtain ⟨f, middle, readLeft, symbolicLeft, denotesLeft, recordLeft⟩ := left before
  obtain ⟨g, after, readRight, symbolicRight, denotesRight, recordRight⟩ := right middle
  obtain ⟨symbolic, denotes⟩ := sound symbolicLeft denotesLeft symbolicRight denotesRight
  exact ⟨combine f g, after, read_pair arithmetic readLeft readRight (combines f g), symbolic,
    denotes, recordLeft.pair recordRight⟩

theorem readsAs_polynomial {e : Expr} (isPolynomial : e.IsPolynomial) : ReadsAs e e.polynomial := by
  induction isPolynomial with
  | int =>
      refine fun before => ⟨_, before, rfl, composed_number _, Denotes.number _, ?_⟩
      exact records_leaf before (by simp [mentions_node, variableName?])
  | @named v name isInteger =>
      refine fun before => ⟨symbol name, _, by rw [isInteger.read]; rfl, composed_symbol.2 trivial, ?_,
        records_variable before (fun other => isInteger.mentions) isInteger.named⟩
      rw [isInteger.polynomial]
      exact Denotes.symbol name
  | add _ _ left right =>
      refine readsAs_operands rfl (fun f g => ?_) left right fun inF isF inG isG =>
        ⟨inF.add inG, isF.add isG⟩
      simp only [readBinary, defined_int]
      rfl
  | sub _ _ left right =>
      refine readsAs_operands rfl (fun f g => ?_) left right fun inF isF inG isG =>
        ⟨inF.sub inG, isF.sub isG⟩
      simp only [readBinary, defined_int]
      rfl
  | mul _ _ left right =>
      refine readsAs_operands rfl (fun f g => ?_) left right fun inF isF inG isG =>
        ⟨inF.mul inG, isF.mul isG⟩
      simp only [readBinary, defined_int]
      rfl

def NeverFails {ε α : Type} (action : ExceptT ε NodeM α) : Prop :=
  ∀ supply : Supply, ∃ a, (action.run.run supply).1 = .ok a

namespace NeverFails

variable {ε α β : Type}

theorem pure {a : α} : NeverFails (Pure.pure a : ExceptT ε NodeM α) := fun _ => ⟨a, rfl⟩

theorem lift {action : NodeM α} : NeverFails (liftM action : ExceptT ε NodeM α) :=
  fun supply => ⟨(action.run supply).1, rfl⟩

theorem bind {action : ExceptT ε NodeM α} {rest : α → ExceptT ε NodeM β} (first : NeverFails action)
    (second : ∀ a, NeverFails (rest a)) : NeverFails (action >>= rest) := by
  intro supply
  obtain ⟨a, isOk⟩ := first supply
  cases outcome : action.run.run supply with
  | mk result left =>
      rw [outcome] at isOk
      obtain rfl : result = .ok a := isOk
      obtain ⟨b, isOkAgain⟩ := second a left
      refine ⟨b, ?_⟩
      rw [ExceptT.run_bind, StateT.run_bind, outcome]
      exact isOkAgain

theorem builds {r : Registry} {action : ExceptT ε NodeM α} {Q : Registry → α → Prop}
    (runs : NeverFails action) (built : BuildsOk action r Q) :
    Builds action.run r fun later result => ∃ a, result = .ok a ∧ Q later a := by
  intro supply fits
  obtain ⟨later, extended, fitsLater, answer⟩ := built supply fits
  obtain ⟨a, isOk⟩ := runs supply
  exact ⟨later, extended, fitsLater, a, isOk, answer a isOk⟩

end NeverFails

section

variable {symbols : Symbols} {t : Form Int}

theorem neverFails_symbolPower (p : String × Nat) :
    NeverFails (writeSigned symbols false (symbolPower p)) := by
  rcases symbolPower_cases p with ⟨isSymbol, _⟩ | isPower
  · rw [isSymbol]
    exact NeverFails.pure
  · rw [isPower]
    exact NeverFails.bind NeverFails.pure fun _ => NeverFails.lift

theorem neverFails_product (ps : List (String × Nat)) (before : Option Expr)
    (nonempty : before = none → ps ≠ []) :
    NeverFails (writeProduct symbols before (ps.map symbolPower)) := by
  induction ps generalizing before with
  | nil =>
      cases before with
      | none => exact (nonempty rfl rfl).elim
      | some e => exact NeverFails.pure
  | cons p rest ih =>
      rw [List.map_cons, writeProduct]
      refine NeverFails.bind (neverFails_symbolPower p) fun e => ?_
      cases before with
      | none => exact ih (some e) fun absurd => (Option.some_ne_none _ absurd).elim
      | some b =>
          refine NeverFails.bind NeverFails.lift fun next => ?_
          exact ih (some next) fun absurd => (Option.some_ne_none _ absurd).elim

theorem neverFails_term (term : IsTerm t) (reversed : Bool) :
    NeverFails (writeSigned symbols reversed t) := by
  obtain ⟨ps, _, factors⟩ := term.monomial
  have own (single : t.split.2 = [t]) : (∃ name, t = symbol name) ∨
      ∃ name e, t = power (symbol name) e := by
    rw [single] at factors
    have member : t ∈ ps.map symbolPower := factors ▸ List.mem_singleton_self t
    obtain ⟨p, _, isPower⟩ := List.mem_map.1 member
    rcases symbolPower_cases p with ⟨isSymbol, _⟩ | power
    · exact .inl ⟨p.1, isPower.symm.trans isSymbol⟩
    · exact .inr ⟨p.1, p.2, isPower.symm.trans power⟩
  match t with
  | number c =>
      cases reversed with
      | true => exact NeverFails.lift
      | false => exact NeverFails.lift
  | product c fs =>
      obtain rfl : fs = ps.map symbolPower := factors
      refine NeverFails.bind (neverFails_product ps none fun _ empty => ?_) fun e => NeverFails.lift
      cases term.constant (by rw [empty]; rfl)
  | symbol _ | unknown _ _ _ | extremum _ _ | inverse _ | power _ _ | sum _ =>
      rcases own rfl with ⟨name, isSymbol⟩ | ⟨name, e, isPower⟩
      · rw [isSymbol]
        exact NeverFails.pure
      · rw [isPower]
        exact NeverFails.bind NeverFails.pure fun _ => NeverFails.lift

theorem neverFails_sum {ts : List (Form Int)} (terms : ∀ t ∈ ts, IsTerm t) (before : Expr) :
    NeverFails (writeSum symbols before ts) := by
  induction ts generalizing before with
  | nil => exact NeverFails.pure
  | cons t rest ih =>
      obtain ⟨first, others⟩ := List.forall_mem_cons.1 terms
      rw [writeSum]
      exact NeverFails.bind (neverFails_term first _) fun e => NeverFails.bind NeverFails.lift fun next =>
        ih others next

theorem neverFails_write {f : Form Int} (expanded : Expanded f) (notEmpty : f ≠ sum []) :
    NeverFails (f.write symbols) := by
  rcases expanded.cases with rfl | term | ⟨ts, rfl, multiples⟩
  · exact NeverFails.lift
  · exact neverFails_term term false
  · match ts with
    | [] => exact (notEmpty rfl).elim
    | t :: rest =>
        obtain ⟨first, others⟩ := List.forall_mem_cons.1 multiples.terms
        rw [write, writeSigned]
        exact NeverFails.bind (neverFails_term first false) fun e => neverFails_sum others e

end

theorem Expr.Integral.integer {e : Expr} (integral : e.Integral) (known : ∀ u, u ∉ e.unknownNodes)
    (env : Env) (unknowns : NodeId → Int) : e.integer env = e.integerWith env unknowns := by
  induction integral with
  | int => simp [Expr.integer, integerWith]
  | named isInteger =>
      rw [integer_variable isInteger.named, (integerWith_variable isInteger.named).2]
  | unknown isUnknown _ =>
      rw [unknownNodes_unknown isUnknown] at known
      exact (known _ (.head _)).elim
  | binary arithmetic _ _ left right =>
      rw [unknownNodes, if_pos arithmetic] at known
      rw [Expr.integer, integerWith, if_pos arithmetic,
        left fun u member => known u (List.mem_append_left _ member),
        right fun u member => known u (List.mem_append_right _ member)]

section

variable {r : Registry} {program : Program} {id : NodeId} {dtype : DType} {target arg : Expr}
  {fresh name : String}

/-- What solving an equation between a fresh variable and a polynomial answers. -/
structure ExactInverse (target arg : Expr) (name : String) (solution : Solution) :
    Prop where
  solved_iff : solution.solved = true ↔ Unimodular name arg.polynomial
  inverse : solution.solved = true → ∃ id first inverse,
    solution.result = .node id (.binary .eq) .bool [first, inverse] ∧ first.IsInteger name ∧
      ¬ Mentions inverse name ∧
        ∀ env, target.integer env = arg.integer env ↔ first.integer env = inverse.integer env

theorem readSides_fresh (held : r.Holds (.node id (.binary .eq) dtype [target, arg]))
    (isTarget : target.IsInteger fresh) (isPolynomial : arg.IsPolynomial) :
    ∃ g symbols, (readSides target arg : ReadM (Form Int × Form Int)).run.run
        { allowUnknowns := false } = (.ok (symbol fresh, g), symbols) ∧
      Symbolic g ∧ Denotes g arg.polynomial ∧
      (∀ name, name = fresh ∨ Mentions arg name → ∃ v, symbols.node? name = some v) ∧
      ∀ name v, symbols.node? name = some v → r.Holds v ∧ v.IsInteger name := by
  have readTarget : (Expr.read target : ReadM (Form Int)).run.run { allowUnknowns := false } =
      (.ok (symbol fresh), Symbols.noteVariable fresh target { allowUnknowns := false }) := by
    rw [isTarget.read]
    rfl
  have recordTarget : Records target { allowUnknowns := false } _ :=
    records_variable _ (fun other => isTarget.mentions) isTarget.named
  obtain ⟨g, symbols, readArg, symbolic, denotes, recordArg⟩ := readsAs_polynomial isPolynomial
    (Symbols.noteVariable fresh target { allowUnknowns := false })
  have inTarget : r.Holds target := held.operands target (.head _)
  have inArg : r.Holds arg := held.operands arg (.tail _ (.head _))
  refine ⟨g, symbols, readSides_run readTarget readArg, symbolic, denotes, fun name known => ?_,
    fun name v found => ?_⟩
  · rcases known with rfl | mentioned
    · obtain ⟨v, found⟩ := recordTarget.found name (isTarget.mentions.2 rfl)
      exact ⟨v, recordArg.kept name v found⟩
    · exact recordArg.found name mentioned
  · rcases recordArg.source name v found with earlier | ⟨within, named⟩
    · rcases recordTarget.source name v earlier with absurd | ⟨within, named⟩
      · cases absurd
      · exact ⟨inTarget.sub within, (IsPolynomial.named isTarget).variable within named⟩
    · exact ⟨inArg.sub within, isPolynomial.variable within named⟩

theorem solve_inverts (held : r.Holds (.node id (.binary .eq) dtype [target, arg]))
    (isTarget : target.IsInteger fresh) (isPolynomial : arg.IsPolynomial)
    (isFresh : ¬ Mentions arg fresh) (occurs : Mentions arg name) :
    BuildsAs (Expr.solve (.node id (.binary .eq) dtype [target, arg]) name) r (some ())
      fun _ solution _ => ExactInverse target arg name solution := by
  obtain ⟨g, symbols, sides, symbolic, denotes, found, noted⟩ :=
    readSides_fresh held isTarget isPolynomial
  have differ : fresh ≠ name := fun same => isFresh (same ▸ occurs)
  have free : fresh ∉ arg.polynomial.vars := fun known => isFresh (isPolynomial.mentions known)
  have solved : Expr.solve (.node id (.binary .eq) dtype [target, arg]) name =
      (writeRoot (.node id (.binary .eq) dtype [target, arg]) name symbols (symbol fresh) g :
        NodeM Solution) := by
    have sides : ExceptT.run (readSides target arg : ReadM (Form Int × Form Int))
        { allowUnknowns := false } = (.ok (symbol fresh, g), symbols) := sides
    unfold Expr.solve
    dsimp only
    rw [sides]
  rw [solved]
  refine BuildsAs.ofBuilds ?_
  obtain ⟨first, isFirst⟩ := found name (.inr occurs)
  unfold writeRoot
  dsimp only
  rw [isFirst]
  dsimp only
  cases isRoot : (symbol fresh).solveFor? name (first.dtype != .float32) g with
  | none =>
      -- A unimodular argument would have a root.
      refine Builds.pure ⟨⟨fun absurd => (Bool.false_ne_true absurd).elim, fun unimodular => ?_⟩,
        fun absurd => (Bool.false_ne_true absurd).elim⟩
      obtain ⟨root, _, isSome, _⟩ := solveFor?_of_unimodular (first.dtype != .float32)
        symbolic denotes differ free unimodular
      cases isRoot.symm.trans isSome
  | some root =>
      have unimodular := unimodular_of_solveFor? symbolic denotes differ free isRoot
      obtain ⟨root', R, isSome, expanded, notEmpty, denotesRoot, origin, solves⟩ :=
        solveFor?_of_unimodular (first.dtype != .float32) symbolic denotes differ free unimodular
      obtain rfl : root = root' := Option.some.inj (isRoot.symm.trans isSome)
      have provides : r.Provides symbols ⟨(· ∈ R.vars), fun _ => False, False⟩ fun _ => False := by
        refine ⟨fun other known => ?_, fun _ absurd => absurd.elim⟩
        obtain ⟨v, isNoted⟩ := found other ((origin other known).2.imp_right isPolynomial.mentions)
        exact ⟨v, isNoted, noted other v isNoted⟩
      have written := (neverFails_write expanded notEmpty).builds
        (yields_signed provides (expanded.composed denotesRoot)
          fun absurd => (Bool.false_ne_true absurd).elim)
      refine Builds.bind written fun later result extended answer => ?_
      obtain ⟨inverse, rfl, yields⟩ := answer
      obtain ⟨heldFirst, isInteger⟩ := noted name first isFirst
      refine Builds.bind (Builds.binary .eq (heldFirst.extend extended) yields.held)
        fun last result _ made => ?_
      obtain ⟨_, id', rfl⟩ := made
      refine Builds.pure ⟨⟨fun _ => unimodular, fun _ => rfl⟩, fun _ => ⟨id', first, inverse, rfl,
        isInteger, fun mentioned => ?_, fun env => ?_⟩⟩
      · rcases yields.names name mentioned with known | ⟨_, absurd, _⟩
        · exact (origin name known).1 rfl
        · exact absurd
      · have value := yields.value env fun _ => 0
        rw [if_neg Bool.false_ne_true, one_mul] at value
        rw [integer_variable isTarget.named, isPolynomial.integer, integer_variable isInteger.named,
          yields.integral.integer yields.within env fun _ => 0, value, solves env]
        exact Eq.congr_right (denotesRoot env).symm

/-- Inversion is exact and complete. An equation between a fresh integer variable and a polynomial is
solved for a variable of the polynomial exactly if that variable occurs once, with a unit as its
coefficient; then the variable is equated with an expression that does not mention it, and both
equations hold for the same integers. -/
theorem inversion_exact_and_complete (fits : r.Fits program.supply)
    (held : r.Holds (.node id (.binary .eq) dtype [target, arg])) (isTarget : target.IsInteger fresh)
    (isPolynomial : arg.IsPolynomial) (isFresh : ¬ Mentions arg fresh) (occurs : Mentions arg name) :
    ∃ solution left,
      (solve (.node id (.binary .eq) dtype [target, arg]) name).run.run program =
        (.ok solution, left) ∧
      (solution.solved = true ↔ ∃ (c : Int) (q : MvPolynomial String Int), (c = 1 ∨ c = -1) ∧
        name ∉ q.vars ∧ arg.polynomial = C c * X name + q) ∧
      (solution.solved = true → ∃ id first inverse,
        solution.result = .node id (.binary .eq) .bool [first, inverse] ∧ first.IsInteger name ∧
          ¬ Mentions inverse name ∧
            ∀ env, target.integer env = arg.integer env ↔ first.integer env = inverse.integer env) := by
  have follows : Follows True (solve (.node id (.binary .eq) dtype [target, arg]) name) r program
      (some ()) fun _ solution _ => ExactInverse target arg name solution :=
    Follows.buildsAs (solve_inverts held isTarget isPolynomial isFresh occurs)
  obtain ⟨solution, left, _, run, _, _, inverts⟩ := follows.answers_of_total fits
  exact ⟨solution, left, run, inverts.solved_iff, inverts.inverse⟩

end

namespace Parabola

def p : Expr := .node 0 (.var "p" true) .int32 []

def x : Expr := .node 1 (.var "x" true) .int32 []

def y : Expr := .node 2 (.var "y" true) .int32 []

def square : Expr := .node 3 (.binary .mul) .int32 [y, y]

def skewed : Expr := .node 4 (.binary .sub) .int32 [square, x]

def equation : Expr := .node 5 (.binary .eq) .bool [p, skewed]

def registry : Registry where
  node
    | 0 => p
    | 1 => x
    | 2 => y
    | 3 => square
    | 4 => skewed
    | _ => equation
  next := 6
  names := 0

def program : Program := { supply := { nodes := 6 } }

/-- The equation `p = y * y - x` is solved for `x`. -/
theorem equation_inverted : ∃ solution left,
    (solve equation "x").run.run program = (.ok solution, left) ∧ solution.solved = true ∧
      ∃ id first inverse, solution.result = .node id (.binary .eq) .bool [first, inverse] ∧
        first.IsInteger "x" ∧ ¬ Mentions inverse "x" ∧
          ∀ env, env "p" = env "y" * env "y" - env "x" ↔ first.integer env = inverse.integer env := by
  have held : registry.Holds equation := by
    simp [Registry.Holds, Registry.IsRegistered, registry, equation, skewed, square, y, x, p, Expr.id]
  have isPolynomial : skewed.IsPolynomial :=
    .sub (.mul (.named ⟨rfl, rfl, rfl⟩) (.named ⟨rfl, rfl, rfl⟩)) (.named ⟨rfl, rfl, rfl⟩)
  have mentions (name : String) : Mentions skewed name ↔ name = "y" ∨ name = "x" := by
    simp [skewed, square, x, y, mentions_node, variableName?, eq_comm]
  obtain ⟨solution, left, run, solved, inverse⟩ := @inversion_exact_and_complete registry program 5
    .bool p skewed "p" "x" ⟨rfl, rfl⟩ held ⟨rfl, rfl, rfl⟩ isPolynomial (by simp [mentions])
    (by simp [mentions])
  have isSolved : solution.solved = true := by
    refine solved.2 ⟨-1, X "y" * X "y", .inr rfl, fun known => ?_, ?_⟩
    · have among := Finset.mem_union.1 (vars_mul _ _ known)
      simp at among
    · simp only [skewed, square, x, y, Expr.polynomial, map_neg, map_one]
      ring
  obtain ⟨id, first, result, isResult, isInteger, absent, solves⟩ := inverse isSolved
  refine ⟨solution, left, run, isSolved, id, first, result, isResult, isInteger, absent, fun env => ?_⟩
  simpa [skewed, square, x, y, p, Expr.integer, integerOf] using solves env

/-- For `y` it is not. -/
example : ((solve equation "y").run.run program).1.toOption.map Solution.solved = some false := by
  decide +kernel

end Parabola

end ReverseMode
