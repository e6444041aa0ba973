import ReverseMode.Proofs.Algebra.Extremum
import ReverseMode.Proofs.Algebra.Judgement
import ReverseMode.Proofs.Algebra.Root

namespace ReverseMode

open Form Expr

variable {S : String → Prop} {K : Bool → Prop} {V : Expr → Prop}

structure Records (e : Expr) (before after : Symbols) : Prop where
  kept : ∀ name v, before.node? name = some v → after.node? name = some v
  found : ∀ name, Mentions e name → ∃ v, after.node? name = some v
  source : ∀ name v, after.node? name = some v →
    before.node? name = some v ∨ Subnode v e ∧ v.variableName? = some name

theorem node?_noteVariable (name other : String) (e : Expr) (symbols : Symbols) :
    (symbols.noteVariable name e).node? other =
      if other = name then some ((symbols.node? name).getD e) else symbols.node? other := by
  have known : (symbols.vars.any fun entry => entry.1 == name) = true ↔
      (symbols.vars.lookup name).isSome = true := by
    simp [List.lookup_isSome_iff]
  unfold Symbols.noteVariable Symbols.node?
  split
  next present =>
    obtain ⟨v, found⟩ := Option.isSome_iff_exists.1 (known.1 present)
    split
    next same => rw [same, found, Option.getD_some]
    next => rfl
  next absent =>
    have none : symbols.vars.lookup name = none := by
      rw [← Option.not_isSome_iff_eq_none, ← known]
      exact absent
    rw [List.lookup_append]
    split
    next same =>
      rw [same, none]
      simp
    next different =>
      simp [List.lookup_cons, beq_eq_false_iff_ne.2 different]

theorem records_leaf {e : Expr} (before : Symbols) (none : ∀ name, ¬ Mentions e name) :
    Records e before before :=
  ⟨fun _ _ known => known, fun name absurd => (none name absurd).elim,
    fun _ _ known => .inl known⟩

theorem records_variable {e : Expr} {name : String} (before : Symbols)
    (own : ∀ other, Mentions e other ↔ other = name) (isVariable : e.variableName? = some name) :
    Records e before (before.noteVariable name e) := by
  refine ⟨fun other v known => ?_, fun other mentioned => ?_, fun other v known => ?_⟩
  · rw [node?_noteVariable]
    split
    next same => rw [← same, known, Option.getD_some]
    next => exact known
  · rw [node?_noteVariable, if_pos ((own other).1 mentioned)]
    exact ⟨_, rfl⟩
  · rw [node?_noteVariable] at known
    split at known
    next same =>
      cases earlier : before.node? name with
      | none =>
          rw [earlier, Option.getD_none] at known
          rw [← Option.some.inj known, same]
          exact .inr ⟨.here, isVariable⟩
      | some w =>
          rw [earlier, Option.getD_some] at known
          rw [same, earlier]
          exact .inl known
    next => exact .inl known

theorem Records.pair {id : NodeId} {op : BinaryOp} {dtype : DType} {a b : Expr}
    {before middle after : Symbols} (left : Records a before middle)
    (right : Records b middle after) :
    Records (.node id (.binary op) dtype [a, b]) before after where
  kept name v known := right.kept name v (left.kept name v known)
  found name mentioned := by
    rcases mentions_pair.1 mentioned with inLeft | inRight
    · obtain ⟨v, known⟩ := left.found name inLeft
      exact ⟨v, right.kept name v known⟩
    · exact right.found name inRight
  source name v known := by
    rcases right.source name v known with earlier | ⟨within, named⟩
    · rcases left.source name v earlier with old | ⟨within, named⟩
      · exact .inl old
      · exact .inr ⟨.operand (by simp) within, named⟩
    · exact .inr ⟨.operand (by simp) within, named⟩

theorem undefined?_int (f : Form Int) : f.undefined? = none := by
  cases f <;> rfl

theorem defined_int (f : Form Int) : defined f = .ok f := by
  rw [defined, undefined?_int]

theorem readExtremum_int (greatest : Bool) (f g : Form Int) :
    readExtremum greatest f g = .ok (extreme greatest [f, g]) := by
  simp only [readExtremum, undefined?_int]

theorem read_pair {id : NodeId} {op : BinaryOp} {dtype : DType} {a b : Expr} {f g h : Form Int}
    {before middle after : Symbols} (arithmetic : isArithmetic op dtype = true)
    (left : (Expr.read a : ReadM (Form Int)).run.run before = (.ok f, middle))
    (right : (Expr.read b : ReadM (Form Int)).run.run middle = (.ok g, after))
    (combined : readBinary op f g = .ok h) :
    (Expr.read (.node id (.binary op) dtype [a, b]) : ReadM (Form Int)).run.run before =
      (.ok h, after) := by
  rw [Expr.read, if_pos arithmetic, ExceptT.run_bind, StateT.run_bind, left]
  change StateT.run (ExceptT.run (do
    let g ← Expr.read b
    (readBinary op f g : Except Unreadable (Form Int)))) middle = (.ok h, after)
  rw [ExceptT.run_bind, StateT.run_bind, right]
  change StateT.run (ExceptT.run (liftM (readBinary op f g) : ReadM (Form Int))) after = _
  rw [combined]
  rfl

theorem read_index {e : Expr} (isIndex : Index S K e) (before : Symbols) :
    ∃ f after, (Expr.read e : ReadM (Form Int)).run.run before = (.ok f, after) ∧ Linear S K f ∧
      (∀ env, value env f = e.integer env) ∧ Records e before after := by
  induction isIndex generalizing before with
  | @int K id c =>
      refine ⟨number c, before, rfl, linear_number c, fun env => by simp [integer], ?_⟩
      exact records_leaf before (by simp [mentions_node, variableName?])
  | @var K id name isIndex known =>
      refine ⟨symbol name, _, rfl, linear_symbol.2 known, fun env => by simp [integer], ?_⟩
      refine records_variable before (fun other => ?_) rfl
      simp [mentions_node, variableName?, eq_comm]
  | @axis K id domain axis least extent known =>
      refine ⟨symbol (axisName domain axis), _, rfl, linear_symbol.2 known,
        fun env => by simp [integer], ?_⟩
      refine records_variable before (fun other => ?_) rfl
      rw [mentions_reduction, eq_comm]
  | add _ _ left right =>
      obtain ⟨f, middle, readLeft, linearLeft, valueLeft, recordLeft⟩ := left before
      obtain ⟨g, after, readRight, linearRight, valueRight, recordRight⟩ := right middle
      refine ⟨f.add g, after, read_pair rfl readLeft readRight ?_, linearLeft.add linearRight,
        fun env => ?_, recordLeft.pair recordRight⟩
      · simp only [readBinary, defined_int]
        rfl
      · rw [value_add, valueLeft, valueRight]
        rfl
  | sub _ _ left right =>
      obtain ⟨f, middle, readLeft, linearLeft, valueLeft, recordLeft⟩ := left before
      obtain ⟨g, after, readRight, linearRight, valueRight, recordRight⟩ := right middle
      refine ⟨f.sub g, after, read_pair rfl readLeft readRight ?_, linearLeft.sub linearRight,
        fun env => ?_, recordLeft.pair recordRight⟩
      · simp only [readBinary, defined_int]
        rfl
      · rw [value_sub, valueLeft, valueRight]
        rfl
  | @multiple K id factor c a _ ih =>
      obtain ⟨g, after, readRight, linearRight, valueRight, recordRight⟩ := ih before
      have readFactor : (Expr.read (.node factor (.const (.int c)) .int32 []) :
          ReadM (Form Int)).run.run before = (.ok (number c), before) := rfl
      refine ⟨(number c).mul g, after, read_pair rfl readFactor readRight ?_,
        linearRight.scale c, fun env => ?_, ?_⟩
      · simp only [readBinary, defined_int]
        rfl
      · rw [value_mul, valueRight, value_number]
        rfl
      · exact (records_leaf before (by simp [mentions_node, variableName?])).pair recordRight
  | @extremum K id greatest a b kind _ _ left right =>
      obtain ⟨f, middle, readLeft, linearLeft, valueLeft, recordLeft⟩ := left before
      obtain ⟨g, after, readRight, linearRight, valueRight, recordRight⟩ := right middle
      have both : ∀ h ∈ [f, g], Linear S (· = greatest) h := by simp [linearLeft, linearRight]
      refine ⟨extreme greatest [f, g], after, read_pair ?_ readLeft readRight ?_, ?_,
        fun env => ?_, recordLeft.pair recordRight⟩
      · cases greatest <;> rfl
      · rw [← readExtremum_int]
        cases greatest <;> rfl
      · refine (extreme_sound (σ := ⟨fun _ => 0, fun _ => 0⟩) (by simp) both).1.mono (fun _ known => known) ?_
        rintro _ rfl
        exact kind
      · rw [(extreme_sound (by simp) both).2]
        simp only [List.map_cons, List.map_nil, valueLeft, valueRight]
        cases greatest <;> rfl

def VariablesFrom (V : Expr → Prop) (e : Expr) : Prop :=
  Every (fun y => y.variableName?.isSome → V y) e

def Registry.Knows (r : Registry) (symbols : Symbols) (S : String → Prop) (V : Expr → Prop) : Prop :=
  ∀ name, S name → ∃ v, symbols.node? name = some v ∧ r.Holds v ∧
    v.variableName? = some name ∧ Index (· = name) (fun _ => False) v ∧ VariablesFrom V v

theorem Registry.Knows.extend {r later : Registry} {symbols : Symbols}
    (knows : r.Knows symbols S V) (extended : r.Extends later) : later.Knows symbols S V := by
  intro name known
  obtain ⟨v, found, held, rest⟩ := knows name known
  exact ⟨v, found, held.extend extended, rest⟩

theorem integer_variable {e : Expr} {name : String} (isVariable : e.variableName? = some name)
    (env : Env) : e.integer env = env name := by
  cases e with
  | node id head dtype operands =>
      cases head <;> simp_all [variableName?, integer]
  | reduction => simp_all [variableName?, integer]

def Registry.Writes (r : Registry) (S : String → Prop) (V : Expr → Prop) (value : Env → Int)
    (e : Expr) : Prop :=
  r.Holds e ∧ Index S (fun _ => False) e ∧ VariablesFrom V e ∧ ∀ env, e.integer env = value env

theorem writes_literal (r : Registry) (c : Int) :
    Builds (literal c) r fun later e => later.Writes S V (fun _ => c) e ∧
      ∃ id, e = .node id (.const (.int c)) .int32 [] := by
  refine (Builds.const (.int c)).mono fun later e _ made => ?_
  obtain ⟨held, id, rfl⟩ := made
  exact ⟨⟨held, .int, by simp [VariablesFrom, variableName?], fun env => by simp [integer]⟩, id, rfl⟩

theorem writes_binary {r : Registry} {op : BinaryOp} {v w : Env → Int} {a b : Expr}
    (isSigned : op = .add ∨ op = .sub) (left : r.Writes S V v a) (right : r.Writes S V w b) :
    Builds (Expr.mkBinary op a b) r fun later e =>
      later.Writes S V (fun env => integerOf op (v env) (w env)) e := by
  obtain ⟨heldLeft, indexLeft, varsLeft, valueLeft⟩ := left
  obtain ⟨heldRight, indexRight, varsRight, valueRight⟩ := right
  refine (Builds.binary op heldLeft heldRight).mono fun later e _ made => ?_
  obtain ⟨held, id, isNode⟩ := made
  rw [indexLeft.dtype, indexRight.dtype] at isNode
  rcases isSigned with rfl | rfl <;> subst isNode
  · exact ⟨held, .add indexLeft indexRight,
      by simpa [VariablesFrom, variableName?] using ⟨varsLeft, varsRight⟩,
      fun env => by rw [integer, valueLeft, valueRight]⟩
  · exact ⟨held, .sub indexLeft indexRight,
      by simpa [VariablesFrom, variableName?] using ⟨varsLeft, varsRight⟩,
      fun env => by rw [integer, valueLeft, valueRight]⟩

theorem writes_multiple {r : Registry} {c : Int} {v : Env → Int} {e : Expr}
    (written : r.Writes S V v e) :
    Builds (do let factor ← Form.literal c; Expr.mul factor e) r fun later product =>
      later.Writes S V (fun env => c * v env) product := by
  obtain ⟨held, isIndex, vars, hasValue⟩ := written
  refine Builds.bind (@writes_literal S V r c) fun later factor extended made => ?_
  obtain ⟨⟨heldFactor, _⟩, id, rfl⟩ := made
  refine (Builds.binary .mul heldFactor (held.extend extended)).mono fun last result _ made => ?_
  obtain ⟨heldResult, id', rfl⟩ := made
  refine ⟨heldResult, ?_, ?_, fun env => ?_⟩
  · rw [isIndex.dtype]
    exact .multiple isIndex
  · simpa [VariablesFrom, variableName?] using vars
  · simp [integer, integerOf, hasValue]

def indexJudgement (S : String → Prop) (V : Expr → Prop) : Judgement Env where
  judges r value e := r.Writes S V value e
  dtype written := written.2.1.dtype
  extend written extended := ⟨written.1.extend extended, written.2⟩
  literal r c := (writes_literal r c).mono fun _ _ _ made => made.1
  signed := writes_binary
  multiple := writes_multiple

def PolynomialTerm (S : String → Prop) (K : Bool → Prop) (t : Form Int) : Prop :=
  LinearTerm S K t ∧ ∀ g ∈ t.split.2, ∃ name, g.basePower.1 = symbol name

theorem PolynomialTerm.cases {t : Form Int} (term : PolynomialTerm S K t) :
    (∃ c, t = number c) ∨ (∃ name, t = symbol name ∧ S name) ∨
      ∃ c name, t = product c [symbol name] ∧ S name := by
  obtain ⟨⟨linear, flat⟩, polynomial⟩ := term
  match t with
  | number c => exact .inl ⟨c, rfl⟩
  | symbol name => exact .inr (.inl ⟨name, rfl, linear_symbol.1 linear⟩)
  | extremum _ _ =>
      obtain ⟨name, absurd⟩ := polynomial _ (.head _)
      cases absurd
  | product c [f] =>
      rw [Linear] at linear
      obtain ⟨atom, linearFactor⟩ := linear
      obtain ⟨name, base⟩ := polynomial f (.head _)
      cases f with
      | symbol other =>
          exact .inr (.inr ⟨c, other, rfl, linear_symbol.1 linearFactor⟩)
      | extremum _ _ => cases base
      | unknown _ _ _ => cases base
      | _ => cases atom
  | unknown _ _ _ | inverse _ | power _ _ | product _ [] | product _ (_ :: _ :: _) =>
      rw [Linear] at linear
      exact linear.elim
  | sum ts => cases flat

theorem writes_symbol {r : Registry} {symbols : Symbols} {name : String}
    (knows : r.Knows symbols S V) (known : S name) :
    r.Writes S V (fun env => env name) ((symbols.node? name).getD default) := by
  obtain ⟨v, found, held, isVariable, isIndex, vars⟩ := knows name known
  rw [found, Option.getD_some]
  refine ⟨held, isIndex.mono (fun other (same : other = name) => same ▸ known) (fun _ absurd => absurd),
    vars, integer_variable isVariable⟩

theorem writes_term {r : Registry} {symbols : Symbols} {t : Form Int} {reversed : Bool}
    (knows : r.Knows symbols S V) (term : PolynomialTerm S K t)
    (negative : reversed = true → t.isNegativeTerm = true) :
    BuildsOk (writeSigned symbols reversed t) r fun later e =>
      later.Writes S V (fun env => (if reversed then -1 else 1) * value env t) e := by
  rcases term.cases with ⟨c, rfl⟩ | ⟨name, rfl, known⟩ | ⟨c, name, rfl, known⟩
  · cases reversed with
    | true =>
        rw [writeSigned, if_pos rfl]
        refine BuildsOk.ofBuilds ((writes_literal (S := S) (V := V) r (-1 * c)).mono fun later e _ made => ?_)
        simpa using made.1
    | false =>
        rw [writeSigned, if_neg (by simp)]
        refine BuildsOk.ofBuilds ((writes_literal (S := S) (V := V) r c).mono fun later e _ made => ?_)
        simpa using made.1
  · cases reversed with
    | true => simp [isNegativeTerm, split, Number.isNegative] at negative
    | false =>
        rw [writeSigned]
        exact BuildsOk.pure (by simpa using writes_symbol knows known)
  · have factor : BuildsOk (writeProduct symbols none [(symbol name : Form Int)]) r fun later e =>
        later.Writes S V (fun env => env name) e := by
      rw [writeProduct, writeSigned, pure_bind]
      change BuildsOk (pure _ >>= fun next => writeProduct symbols (some next) []) r _
      rw [pure_bind, writeProduct]
      exact BuildsOk.pure (writes_symbol knows known)
    rw [writeSigned]
    refine BuildsOk.bind factor fun later e extended written => ?_
    refine BuildsOk.ofBuilds ((Judgement.withCoefficient (J := indexJudgement S V) written _).mono
      fun last product _ done => ?_)
    refine Judgement.of_eq done fun env => ?_
    cases reversed <;> simp

theorem writes_polynomial {r : Registry} {symbols : Symbols} {f : Form Int}
    (knows : r.Knows symbols S V) (linear : Linear S K f)
    (polynomial : f.isIntegerPolynomial = true) :
    BuildsOk (f.write symbols) r fun later e => later.Writes S V (fun env => value env f) e := by
  have terms : ∀ t ∈ f.terms, PolynomialTerm S K t := fun t member =>
    ⟨linear.terms t member, isIntegerPolynomial_plain polynomial t member⟩
  have single (term : PolynomialTerm S K f) : BuildsOk (f.write symbols) r fun later e =>
      later.Writes S V (fun env => value env f) e := by
    have notReversed : false = true → f.isNegativeTerm = true := by simp
    refine (writes_term knows term notReversed).mono fun later e _ done => ?_
    simpa using done
  match f with
  | sum [] =>
      rw [write, writeSigned]
      exact BuildsOk.throw
  | sum (t :: rest) =>
      obtain ⟨first, others⟩ := List.forall_mem_cons.1 terms
      rw [write, writeSigned]
      have notReversed : false = true → t.isNegativeTerm = true := by simp
      refine BuildsOk.bind (writes_term knows first notReversed)
        fun later e extended written => ?_
      have added := Judgement.sum (J := indexJudgement S V) (fun s member last more =>
        writes_term (knows.extend (extended.trans more)) (others s member) fun negative => negative)
        written
      refine added.mono fun _ _ _ done => Judgement.of_eq done fun env => ?_
      simp
  | number c => exact single ⟨⟨linear, rfl⟩, by simp [split]⟩
  | symbol _ | unknown _ _ _ | extremum _ _ | inverse _ | power _ _ | product _ _ =>
      exact single (terms _ (.head _))

theorem readSides_run {left right : Expr} {f g : Form Int} {before middle after : Symbols}
    (readLeft : (Expr.read left : ReadM (Form Int)).run.run before = (.ok f, middle))
    (readRight : (Expr.read right : ReadM (Form Int)).run.run middle = (.ok g, after)) :
    (readSides left right : ReadM (Form Int × Form Int)).run.run before = (.ok (f, g), after) := by
  rw [readSides, ExceptT.run_bind, StateT.run_bind, readLeft]
  change StateT.run (ExceptT.run (do
    let g ← Expr.read right
    pure (f, g))) middle = (.ok (f, g), after)
  rw [ExceptT.run_bind, StateT.run_bind, readRight]
  rfl

theorem index_of_subnode {e v : Expr} {name : String} (isIndex : Index S K e)
    (within : Subnode v e) (isVariable : v.variableName? = some name) :
    Index (· = name) (fun _ => False) v := by
  have pair {id : NodeId} {op : BinaryOp} {dtype : DType} {a b : Expr}
      (inside : Subnode v (.node id (.binary op) dtype [a, b])) : Subnode v a ∨ Subnode v b := by
    rcases subnode_node.1 inside with rfl | ⟨y, member, deeper⟩
    · cases isVariable
    · simp only [List.mem_cons, List.not_mem_nil, or_false] at member
      rcases member with rfl | rfl
      · exact .inl deeper
      · exact .inr deeper
  induction isIndex with
  | int =>
      rcases subnode_node.1 within with rfl | ⟨y, absurd, _⟩
      · cases isVariable
      · cases absurd
  | var _ =>
      rcases subnode_node.1 within with rfl | ⟨y, absurd, _⟩
      · exact .var (Option.some.inj isVariable)
      · cases absurd
  | axis _ =>
      rw [subnode_reduction.1 within] at isVariable ⊢
      exact .axis (Option.some.inj isVariable)
  | add _ _ left right | sub _ _ left right | extremum _ _ _ left right =>
      exact (pair within).elim left right
  | multiple _ ih =>
      rcases pair within with constant | inside
      · rcases subnode_node.1 constant with rfl | ⟨y, absurd, _⟩
        · cases isVariable
        · cases absurd
      · exact ih inside

theorem solve_sound {r : Registry} {id : NodeId} {dtype : DType} {target arg : Expr}
    {unknownName : String} (heldTarget : r.Holds target) (heldArg : r.Holds arg)
    (isTarget : Index S K target) (isArg : Index S K arg) :
    BuildsOk (Expr.solve (.node id (.binary .eq) dtype [target, arg]) unknownName) r
      fun later solution => solution.solved = true → ∃ first inverse,
        solution.result.operands = [first, inverse] ∧ later.Holds inverse ∧
        Index (Without (fun name => Mentions target name ∨ Mentions arg name) unknownName)
          (fun _ => False) inverse ∧
        VariablesFrom (fun y => Subnode y target ∨ Subnode y arg) inverse ∧
        ∀ env, target.integer env = arg.integer env ↔ env unknownName = inverse.integer env := by
  obtain ⟨f, middle, readTarget, linearTarget, valueTarget, recordTarget⟩ :=
    read_index isTarget.own { allowUnknowns := false }
  obtain ⟨g, symbols, readArg, linearArg, valueArg, recordArg⟩ := read_index isArg.own middle
  have sides : ExceptT.run (readSides target arg : ReadM (Form Int × Form Int))
      { allowUnknowns := false } = (.ok (f, g), symbols) := readSides_run readTarget readArg
  -- The node that a symbol is written with stands in the side that was the first to name it.
  have origin (name : String) (v : Expr) (known : symbols.node? name = some v) :
      r.Holds v ∧ v.variableName? = some name ∧ Index (· = name) (fun _ => False) v ∧
        VariablesFrom (fun y => Subnode y target ∨ Subnode y arg) v := by
    rcases recordArg.source name v known with earlier | ⟨within, named⟩
    · rcases recordTarget.source name v earlier with absurd | ⟨within, named⟩
      · cases absurd
      · exact ⟨heldTarget.sub within, named, index_of_subnode isTarget within named,
          fun y below _ => .inl (below.trans within)⟩
    · exact ⟨heldArg.sub within, named, index_of_subnode isArg within named,
        fun y below _ => .inr (below.trans within)⟩
  have knows : r.Knows symbols (fun name => Mentions target name ∨ Mentions arg name)
      fun y => Subnode y target ∨ Subnode y arg := by
    intro name mentioned
    have known : ∃ v, symbols.node? name = some v := by
      rcases mentioned with inTarget | inArg
      · obtain ⟨v, known⟩ := recordTarget.found name inTarget
        exact ⟨v, recordArg.kept name v known⟩
      · exact recordArg.found name inArg
    obtain ⟨v, known⟩ := known
    exact ⟨v, known, origin name v known⟩
  have solved : Expr.solve (.node id (.binary .eq) dtype [target, arg]) unknownName =
      (writeRoot (.node id (.binary .eq) dtype [target, arg]) unknownName symbols f g :
        NodeM Solution) := by
    unfold Expr.solve
    dsimp only
    rw [sides]
  rw [solved]
  refine BuildsOk.ofBuilds ?_
  unfold writeRoot
  dsimp only
  split
  next => exact Builds.pure fun absurd => nomatch absurd
  next targetNode found =>
    split
    next => exact Builds.pure fun absurd => nomatch absurd
    next root isRoot =>
      obtain ⟨linearRoot, polynomial, solves⟩ := solveFor?_sound
        (S := fun name => Mentions target name ∨ Mentions arg name)
        (linearTarget.mono (fun _ inTarget => .inl inTarget) fun _ same => same)
        (linearArg.mono (fun _ inArg => .inr inArg) fun _ same => same) isRoot
      have written := writes_polynomial (fun name known => knows name known.1) linearRoot polynomial
      refine Builds.bind written fun later result extended answer => ?_
      cases result with
      | error => exact Builds.pure fun absurd => nomatch absurd
      | ok inverse =>
          obtain ⟨held, isIndex, vars, hasValue⟩ := answer inverse rfl
          have heldNode := (origin unknownName targetNode found).1.extend extended
          refine Builds.bind (Builds.binary .eq heldNode held) fun last result extendedAgain made => ?_
          obtain ⟨heldResult, id', rfl⟩ := made
          refine Builds.pure fun _ =>
            ⟨targetNode, inverse, rfl, held.extend extendedAgain, isIndex, vars, fun env => ?_⟩
          rw [hasValue env, ← solves env, valueTarget, valueArg]

end ReverseMode
