import ReverseMode.Proofs.Algebra.Closed
import ReverseMode.Proofs.Digest.Sha256
import ReverseMode.Proofs.Algebra.Written

/-!
# Simplification is canonical on affine expressions

Affine expressions of one value are simplified to structurally equal ones. Conversely, where no two
texts of the results share a digest, structurally equal results have one value.
-/

namespace ReverseMode

open Form Expr

variable {S S' : String → Prop} {hash : String → String}

theorem letter_of_text {e : Expr} (affine : Affine e) :
    (e.textWith hash).toList.head? = e.kind.toList.head? := by
  have pair {id : NodeId} {op : BinaryOp} {a b : Expr} (named : op.kind.toList ≠ []) :
      ((Expr.node id (.binary op) .int32 [a, b]).textWith hash).toList.head? =
        op.kind.toList.head? := by
    have text : (Expr.node id (.binary op) .int32 [a, b]).textWith hash =
        nodeText (.binary op) .int32 [hash (a.textWith hash), hash (b.textWith hash)] := rfl
    rw [text, toList_nodeText, List.head?_append_of_ne_nil _ named]
  cases affine with
  | int => simp [textWith, Expr.constantText, toString, Expr.kind, Head.kind]
  | var | axis => simp [textWith, toList_variableText, Expr.kind, Head.kind]
  | add | sub | mul => exact pair (by decide)

theorem TellsApart.pair {id id' : NodeId} {op : BinaryOp} {a b a' b' : Expr}
    (separated : ∀ s, ',' ∉ (hash s).toList)
    (apart : TellsApart hash (.node id (.binary op) .int32 [a, b]) (.node id' (.binary op) .int32 [a', b']))
    (same : (Expr.node id (.binary op) .int32 [a, b]).textWith hash =
      (Expr.node id' (.binary op) .int32 [a', b']).textWith hash) :
    (TellsApart hash a a' ∧ a.textWith hash = a'.textWith hash) ∧
      TellsApart hash b b' ∧ b.textWith hash = b'.textWith hash := by
  have digests : hash (a.textWith hash) = hash (a'.textWith hash) ∧
      hash (b.textWith hash) = hash (b'.textWith hash) :=
    nodeText_injective (separated _) (separated _) same
  have left : TellsApart hash a a' := fun x y below below' =>
    apart x y (.operand (.head _) below) (.operand (.head _) below')
  have right : TellsApart hash b b' := fun x y below below' =>
    apart x y (.operand (.tail _ (.head _)) below) (.operand (.tail _ (.head _)) below')
  exact ⟨⟨left, left a a' .here .here digests.1⟩, right, right b b' .here .here digests.2⟩

theorem integer_of_text (separated : ∀ s, ',' ∉ (hash s).toList) {a b : Expr} (affineA : Affine a)
    (affineB : Affine b) (apart : TellsApart hash a b) (same : a.textWith hash = b.textWith hash)
    (env : Env) : a.integer env = b.integer env := by
  have letters {a b : Expr} (affineA : Affine a) (affineB : Affine b)
      (same : a.textWith hash = b.textWith hash) : a.kind.toList.head? = b.kind.toList.head? := by
    rw [← letter_of_text affineA, ← letter_of_text affineB, same]
  have sameName {name name' tag tag' : String} (isTag : IsTag name tag) (isTag' : IsTag name' tag')
      (same : variableText .int32 name tag = variableText .int32 name' tag') :
      env name = env name' := congrArg env (name_of_variableText isTag isTag' same)
  have ofAxis (domain : String) (axis : Nat) : IsTag (axisName domain axis) (axisTag domain axis) :=
    .inr ⟨domain, axis, rfl, rfl⟩
  have pair {id id' : NodeId} {op : BinaryOp} {a b a' b' : Expr}
      (left : TellsApart hash a a' → a.textWith hash = a'.textWith hash → a.integer env = a'.integer env)
      (right : TellsApart hash b b' → b.textWith hash = b'.textWith hash →
        b.integer env = b'.integer env)
      (apart : TellsApart hash (.node id (.binary op) .int32 [a, b])
        (.node id' (.binary op) .int32 [a', b']))
      (same : (Expr.node id (.binary op) .int32 [a, b]).textWith hash =
        (Expr.node id' (.binary op) .int32 [a', b']).textWith hash) :
      (Expr.node id (.binary op) .int32 [a, b]).integer env =
        (Expr.node id' (.binary op) .int32 [a', b']).integer env := by
    obtain ⟨⟨apartLeft, sameLeft⟩, apartRight, sameRight⟩ := apart.pair separated same
    simp only [integer, left apartLeft sameLeft, right apartRight sameRight]
  induction affineA generalizing b with
  | int =>
      have letter := letters .int affineB same
      cases affineB <;> simp [Expr.kind, Head.kind, BinaryOp.kind] at letter
      simpa [integer] using constantText_injective same
  | var =>
      have letter := letters .var affineB same
      cases affineB <;> simp [Expr.kind, Head.kind, BinaryOp.kind] at letter
      · simpa [integer] using sameName (.inl rfl) (.inl rfl) same
      · simpa [integer] using sameName (.inl rfl) (ofAxis _ _) same
  | axis =>
      have letter := letters .axis affineB same
      cases affineB <;> simp [Expr.kind, Head.kind, BinaryOp.kind] at letter
      · simpa [integer] using sameName (ofAxis _ _) (.inl rfl) same
      · simpa [integer] using sameName (ofAxis _ _) (ofAxis _ _) same
  | add affineLeft affineRight left right =>
      have letter := letters (.add affineLeft affineRight) affineB same
      cases affineB with
      | add affineLeft' affineRight' => exact pair (left affineLeft') (right affineRight') apart same
      | _ => simp [Expr.kind, Head.kind, BinaryOp.kind] at letter
  | sub affineLeft affineRight left right =>
      have letter := letters (.sub affineLeft affineRight) affineB same
      cases affineB with
      | sub affineLeft' affineRight' => exact pair (left affineLeft') (right affineRight') apart same
      | _ => simp [Expr.kind, Head.kind, BinaryOp.kind] at letter
  | mul affineLeft affineRight constant left right =>
      have letter := letters (.mul affineLeft affineRight constant) affineB same
      cases affineB with
      | mul affineLeft' affineRight' _ =>
          exact pair (left affineLeft') (right affineRight') apart same
      | _ => simp [Expr.kind, Head.kind, BinaryOp.kind] at letter

theorem sameText_of_name {v w : Expr} {name : String} {K K' : Bool → Prop}
    (indexV : Index S K v) (indexW : Index S' K' w) (isV : v.variableName? = some name)
    (isW : w.variableName? = some name) (sameKind : v.isReductionVariable = w.isReductionVariable) :
    SameText v w := by
  cases indexV <;> cases indexW <;>
    simp only [variableName?, isReductionVariable, Option.some.injEq, reduceCtorEq, Bool.false_eq_true,
      Bool.true_eq_false] at isV isW sameKind
  · subst isV isW
    exact ⟨rfl, fun _ => rfl⟩
  · have lists := congrArg String.toList (isV.trans isW.symm)
    rw [toList_axisName, toList_axisName] at lists
    have parts := append_cons_inj (fun member => (axisText_plain member).2 rfl)
      (fun member => (axisText_plain member).2 rfl) lists
    rw [String.toList_inj, String.toList_inj] at parts
    obtain ⟨rfl, sameAxis⟩ := parts
    rw [axisText_injective sameAxis]
    exact ⟨rfl, fun _ => rfl⟩

def WrittenAs (symbols : Symbols) (f : Form Int) (e : Expr) : Prop :=
  ∃ supply, ((f.write symbols).run.run supply).1 = .ok e

theorem Form.Canonical.isIntegerPolynomial {f : Form Int} (canonical : Canonical f) :
    f.isIntegerPolynomial = true := by
  refine List.all_eq_true.2 fun t member => ?_
  cases canonical.collected.terms t member <;> rfl

theorem WrittenAs.sameText {symbols symbols' : Symbols} {f : Form Int} {e e' : Expr}
    (written : WrittenAs symbols f e) (written' : WrittenAs symbols' f e')
    (agree : AgreeOn f.terms symbols symbols') (canonical : Canonical f) : SameText e e' := by
  obtain ⟨supply, isE⟩ := written
  obtain ⟨supply', isE'⟩ := written'
  obtain ⟨x, y, isX, isY, same⟩ := parallel_write agree canonical supply supply'
  rw [← Except.ok.inj (isX.symm.trans isE), ← Except.ok.inj (isY.symm.trans isE')]
  exact same

/-- Variables of one name are both pure or both reduction variables. -/
def NamesAgree (among : Expr → Prop) : Prop :=
  ∀ v w name, among v → among w → v.variableName? = some name → w.variableName? = some name →
    v.isReductionVariable = w.isReductionVariable

structure SimplifiesTo (r : Registry) (e e' : Expr) : Prop where
  writes : r.Writes (Mentions e) (Subnode · e) (fun env => e.integer env) e'
  written : ∃ f symbols, IsForm (Mentions e) e f ∧ r.Knows symbols (Mentions e) (Subnode · e) ∧
    WrittenAs symbols f e'

theorem Builds.run {α : Type} {r : Registry} {action : NodeM α} {Q : Registry → α → Prop}
    (built : Builds action r Q) :
    Builds action r fun later a => Q later a ∧ ∃ supply, (action.run supply).1 = a := by
  intro supply fits
  obtain ⟨later, extended, fitsLater, answer⟩ := built supply fits
  exact ⟨later, extended, fitsLater, answer, supply, rfl⟩

theorem simplifiesTo_self {r : Registry} {e : Expr} (held : r.Holds e) (affine : Affine e)
    (atomic : e.constant?.isSome = true ∨ e.variableName?.isSome = true) : SimplifiesTo r e e := by
  have named {name : String} (isVariable : e.variableName? = some name)
      (own : ∀ other, Mentions e other ↔ name = other) : SimplifiesTo r e e := by
    have isIndex := affine.index_of_subnode .here isVariable
    have within : VariablesFrom (Subnode · e) e := fun y below _ => below
    have known : Symbols.node? ⟨[(name, e)], [], true⟩ name = some e := by simp [Symbols.node?]
    refine ⟨⟨held, isIndex.own, within, fun _ => rfl⟩, symbol name, ⟨[(name, e)], [], true⟩,
      ⟨AffineTerm.bare.canonical, linear_symbol.2 ((own name).2 rfl), fun env => ?_⟩,
      fun other mentioned => ?_, ⟨0, 0⟩, ?_⟩
    · rw [value_symbol, integer_variable isVariable]
    · obtain rfl := (own other).1 mentioned
      exact ⟨e, known, held, isVariable, isIndex, within⟩
    · rw [write, writeSigned, known]
      rfl
  cases affine with
  | @int id c =>
      refine ⟨⟨held, .int, ?_, fun _ => rfl⟩, number c, {},
        ⟨canonical_number c, linear_number c, fun env => by simp [integer]⟩, ?_, ⟨id, 0⟩, rfl⟩
      · simp [VariablesFrom, variableName?]
      · intro name mentioned
        simp [mentions_node, variableName?] at mentioned
  | var => exact named rfl fun other => by simp [mentions_node, variableName?]
  | axis => exact named rfl fun other => mentions_reduction
  | add | sub | mul => simp [constant?, variableName?] at atomic

theorem simplified_affine {r : Registry} {e : Expr} (held : r.Holds e) (affine : Affine e) :
    BuildsAs e.simplified r (some ()) fun later result _ =>
      result.obstacle = none ∧ SimplifiesTo later e result.expr := by
  unfold Expr.simplified
  split
  next atomic =>
    exact BuildsAs.pure ⟨rfl, simplifiesTo_self held affine (Bool.or_eq_true_iff.1 atomic)⟩
  next =>
    obtain ⟨f, symbols, form, isForm, records⟩ := read_affine affine (fun _ inside => inside) {}
    have form : ExceptT.run (Expr.read e : ReadM (Form Int)) {} = (.ok f, symbols) := form
    have knows : r.Knows symbols (Mentions e) (Subnode · e) := by
      intro name mentioned
      obtain ⟨v, known⟩ := records.found name mentioned
      rcases records.source name v known with absurd | ⟨within, named⟩
      · cases absurd
      · exact ⟨v, known, held.sub within, named, affine.index_of_subnode within named,
          fun y below _ => below.trans within⟩
    rw [form]
    refine BuildsAs.ofBuilds ?_
    unfold writeSimplest
    rw [isForm.canonical.simplest_eq]
    refine Builds.bind (writes_polynomial knows isForm.linear
      isForm.canonical.isIntegerPolynomial).run fun later result extended answer => ?_
    obtain ⟨properties, supply, isResult⟩ := answer
    obtain ⟨e', _, isOk, _, _⟩ :=
      parallel_write (.refl f.terms symbols) isForm.canonical supply supply
    obtain rfl : result = .ok e' := isResult.symm.trans isOk
    obtain ⟨heldResult, isIndex, vars, hasValue⟩ := properties e' rfl
    dsimp only
    rw [if_pos (isIndex.dtype.trans affine.dtype.symm)]
    refine Builds.pure ⟨rfl, ⟨heldResult, isIndex, vars, fun env => ?_⟩, f, symbols, isForm,
      knows.extend extended, supply, isOk⟩
    rw [hasValue]
    exact isForm.value env

theorem simplify_affine {r : Registry} {program : Program} {e : Expr} (held : r.Holds e)
    (affine : Affine e) :
    Follows True (simplify e) r program (some ()) fun later result _ => SimplifiesTo later e result := by
  unfold simplify
  refine Follows.bind_some (Follows.buildsAs (simplified_affine held affine))
    fun later left result _ _ answer => ?_
  rw [answer.1]
  exact Follows.pure answer.2

theorem SimplifiesTo.affine {r : Registry} {e e' : Expr} (simplifies : SimplifiesTo r e e') :
    Affine e' := simplifies.writes.2.1.affine fun _ absurd => absurd

theorem SimplifiesTo.sameText {r r' : Registry} {a b a' b' : Expr} {among : Expr → Prop}
    (names : NamesAgree among) (left : SimplifiesTo r a a') (right : SimplifiesTo r' b b')
    (amongA : ∀ v, v.variableName?.isSome → Subnode v a → among v)
    (amongB : ∀ v, v.variableName?.isSome → Subnode v b → among v)
    (same : ∀ env, a.integer env = b.integer env) : SameText a' b' := by
  obtain ⟨_, f, symbols, isForm, knows, written⟩ := left
  obtain ⟨_, f', symbols', isForm', knows', written'⟩ := right
  obtain rfl := isForm.eq isForm' same
  refine written.sameText written' (fun t member name isSymbol => ?_) isForm.canonical
  obtain ⟨v, found, _, isV, indexV, fromA⟩ := knows name (isForm.linear.symbol member isSymbol)
  obtain ⟨w, found', _, isW, indexW, fromB⟩ := knows' name (isForm'.linear.symbol member isSymbol)
  have someV : v.variableName?.isSome := by simp [isV]
  have someW : w.variableName?.isSome := by simp [isW]
  rw [found, found', Option.getD_some, Option.getD_some]
  exact sameText_of_name indexV indexW isV isW
    (names v w name (amongA v someV (fromA.here someV)) (amongB w someW (fromB.here someW)) isV isW)

/-- Affine expressions of one value are simplified to structurally equal ones, and what is simplified
already to one structurally equal to it. Where different texts below the results have different
digests, expressions that are simplified to structurally equal ones have one value. -/
theorem simplify_canonical {r : Registry} {program : Program} {a b : Expr}
    (fits : r.Fits program.supply) (heldA : r.Holds a) (heldB : r.Holds b) (affineA : Affine a)
    (affineB : Affine b) (names : NamesAgree fun v => Subnode v a ∨ Subnode v b) :
    ∃ a' b' again p q s, (simplify a).run.run program = (.ok a', p) ∧
      (simplify b).run.run p = (.ok b', q) ∧ (simplify a').run.run q = (.ok again, s) ∧
      again.equal a' = true ∧
      ((∀ env, a.integer env = b.integer env) → a'.equal b' = true) ∧
      (TellsApart Sha256.hexDigest a' b' → a'.equal b' = true →
        ∀ env, a.integer env = b.integer env) := by
  obtain ⟨a', p, r₁, runA, extended₁, fits₁, simplifiesA⟩ :=
    (simplify_affine heldA affineA).answers_of_total fits
  obtain ⟨b', q, r₂, runB, extended₂, fits₂, simplifiesB⟩ :=
    (simplify_affine (heldB.extend extended₁) affineB).answers_of_total fits₁
  have heldA' := simplifiesA.writes.1.extend extended₂
  obtain ⟨again, s, r₃, runAgain, extended₃, _, simplifiesAgain⟩ :=
    (simplify_affine heldA' simplifiesA.affine).answers_of_total fits₂
  have valueA := simplifiesA.writes.2.2.2
  have valueB := simplifiesB.writes.2.2.2
  refine ⟨a', b', again, p, q, s, runA, runB, runAgain, ?_, fun same => ?_, fun apart equal env => ?_⟩
  · refine (equalWith_iff simplifiesAgain.writes.1 (heldA'.extend extended₃)).2 (congrArg _ ?_)
    refine (SimplifiesTo.sameText names simplifiesAgain simplifiesA ?_ ?_ valueA).2 _
    · exact fun v isSome below => .inl (simplifiesA.writes.2.2.1 v below isSome)
    · exact fun v _ below => .inl below
  · refine (equalWith_iff heldA' simplifiesB.writes.1).2 (congrArg _ ?_)
    exact (SimplifiesTo.sameText names simplifiesA simplifiesB (fun _ _ => .inl) (fun _ _ => .inr)
      same).2 _
  · have sameText := apart a' b' .here .here ((equalWith_iff heldA' simplifiesB.writes.1).1 equal)
    have sameValue := integer_of_text Sha256.hexDigest_separated simplifiesA.affine
      simplifiesB.affine apart sameText env
    exact (valueA env).symm.trans (sameValue.trans (valueB env))

namespace Rearranged

def x : Expr := .node 0 (.var "x" true) .int32 []

def axis : Expr := .reduction 1 "r" 0 x x

def one : Expr := .node 2 (.const (.int 1)) .int32 []

def difference : Expr := .node 4 (.binary .sub) .int32 [.node 3 (.binary .add) .int32 [x, axis], x]

def product : Expr := .node 5 (.binary .mul) .int32 [axis, one]

def registry : Registry where
  node
    | 0 => x
    | 1 => axis
    | 2 => one
    | 3 => .node 3 (.binary .add) .int32 [x, axis]
    | 4 => difference
    | _ => product
  next := 6
  names := 0

def program : Program := { supply := { nodes := 6 } }

theorem held {e : Expr} (member : e ∈ [difference, product, x]) : registry.Holds e := by
  simp only [List.mem_cons, List.not_mem_nil, or_false] at member
  rcases member with rfl | rfl | rfl <;>
    simp [Registry.Holds, Registry.IsRegistered, registry, difference, product, x, axis, one, Expr.id]

theorem named {e : Expr} (member : e ∈ [difference, product, x]) :
    Every (fun v => ∀ name, v.variableName? = some name →
      v.isReductionVariable = decide (name = "r.x")) e := by
  simp only [List.mem_cons, List.not_mem_nil, or_false] at member
  have axisNamed : axisName "r" 0 = "r.x" := rfl
  rcases member with rfl | rfl | rfl <;>
    simp [difference, product, x, axis, one, variableName?, isReductionVariable, axisNamed]

theorem digests_apart : Sha256.hexDigest (axis.textWith Sha256.hexDigest) ≠
    Sha256.hexDigest (x.textWith Sha256.hexDigest) := by
  rw [Sha256.hexDigest_eq]
  decide +kernel

/-- Both `(x + r.x) - x` and `r.x * 1` become `r.x`, which is not structurally equal to `x`. -/
theorem rearranged_canonical :
    (∃ a' b' p q, (simplify difference).run.run program = (.ok a', p) ∧
      (simplify product).run.run p = (.ok b', q) ∧ a'.equal b' = true) ∧
    ∃ a' b' p q, (simplify difference).run.run program = (.ok a', p) ∧
      (simplify x).run.run p = (.ok b', q) ∧ a'.equal b' = false := by
  have affineDifference : Affine difference := .sub (.add .var .axis) .var
  have affineProduct : Affine product := .mul .axis .int (.inr fun _ _ => rfl)
  have agree {b : Expr} (member : b ∈ [difference, product, x]) :
      NamesAgree fun v => Subnode v difference ∨ Subnode v b := by
    intro v w name amongV amongW isV isW
    have kind {v : Expr} (among : Subnode v difference ∨ Subnode v b)
        (isV : v.variableName? = some name) : v.isReductionVariable = decide (name = "r.x") :=
      among.elim (named (.head _) v · name isV) (named member v · name isV)
    rw [kind amongV isV, kind amongW isW]
  constructor
  · obtain ⟨a', b', _, p, q, _, runA, runB, _, _, equal, _⟩ :=
      @simplify_canonical registry program difference product ⟨rfl, rfl⟩ (held (.head _))
        (held (.tail _ (.head _))) affineDifference affineProduct (agree (.tail _ (.head _)))
    refine ⟨a', b', p, q, runA, runB, equal fun env => ?_⟩
    simp [difference, product, integer, integerOf, x, axis, one]
  · obtain ⟨a', b', _, p, q, _, runA, runB, _, _, _, sameValue⟩ :=
      @simplify_canonical registry program difference x ⟨rfl, rfl⟩ (held (.head _))
        (held (by simp)) affineDifference .var (agree (by simp))
    refine ⟨a', b', p, q, runA, runB, Bool.eq_false_iff.2 fun equal => ?_⟩
    have isAxis : (Except.ok a' : Except Fault Expr) = .ok axis := congrArg Prod.fst runA.symm
    have isX : (Except.ok b' : Except Fault Expr) = .ok x := congrArg Prod.fst runB.symm
    cases isAxis
    cases isX
    have apart : TellsApart Sha256.hexDigest axis x := by
      intro e e' below below' same
      obtain rfl := subnode_reduction.1 below
      obtain rfl | ⟨y, absurd, _⟩ := subnode_node.1 below'
      · exact absurd same digests_apart
      · cases absurd
    have sameOne := sameValue apart equal fun name => if name = "x" then 1 else 0
    simp [difference, integer, integerOf, x, axis, show axisName "r" 0 = "r.x" from rfl] at sameOne

end Rearranged

end ReverseMode
