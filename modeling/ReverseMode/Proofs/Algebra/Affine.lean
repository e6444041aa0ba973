import ReverseMode.Algebra.Simplify
import ReverseMode.Proofs.Algebra.Collected
import ReverseMode.Proofs.Algebra.Solving

namespace ReverseMode

open Form Expr

namespace Form

variable {f t : Form Int} {ts : List (Form Int)}

theorem canonical_foldr_add (each : ∀ t ∈ ts, Canonical t) : Canonical (ts.foldr Form.add (ofInt 0)) := by
  induction ts with
  | nil => exact canonical_number 0
  | cons t rest ih =>
      obtain ⟨first, others⟩ := List.forall_mem_cons.1 each
      exact first.add (ih others)

theorem value_foldr_add {σ : Assignment} (ts : List (Form Int)) :
    value σ (ts.foldr Form.add (ofInt 0)) = (ts.map (value σ)).sum := by
  induction ts with
  | nil => simp
  | cons t rest ih => simp [ih]

theorem canonical_foldl_add {total : Form Int} (each : ∀ t ∈ ts, Canonical t)
    (canonical : Canonical total) : Canonical (ts.foldl Form.add total) := by
  induction ts generalizing total with
  | nil => exact canonical
  | cons t rest ih =>
      obtain ⟨first, others⟩ := List.forall_mem_cons.1 each
      exact ih others (canonical.add first)

theorem scale_symbol {c : Int} (name : String) (isNonzero : c ≠ 0) :
    scale c (symbol name) = join c [symbol name] := by
  simp [scale, isNonzero, scaleTerm, split]

theorem join_multiple {c : Int} (name : String) (isNonzero : c ≠ 0) (several : c ≠ 1) :
    join c [symbol name] = (product c [symbol name] : Form Int) := by
  simp [join, isNonzero, several]

theorem AffineTerm.settled (term : AffineTerm t) :
    settleAtoms t = t ∧ normalizeTermSigns t = t ∧ expand t = t := by
  have times_one (name : String) : (symbol name : Form Int).mul (ofInt 1) = symbol name := rfl
  have one_times (name : String) : (ofInt 1 : Form Int).mul (symbol name) = symbol name := rfl
  cases term with
  | @constant c isNonzero =>
      refine ⟨rfl, ?_, rfl⟩
      simp [normalizeTermSigns, split, scale, isNonzero, scaleTerm, Form.join, ofInt]
  | bare => exact ⟨rfl, rfl, rfl⟩
  | @multiple c name isNonzero several =>
      have scaled : scale c (symbol name) = product c [symbol name] :=
        (scale_symbol name isNonzero).trans (join_multiple name isNonzero several)
      have distributed : distribute (symbol name) (ofInt 1) = (symbol name : Form Int) := rfl
      refine ⟨?_, scaled, ?_⟩
      · rw [settleAtoms, settleProduct, settleProduct, settleAtoms, times_one, scaled]
        all_goals simp
      · rw [expand, expandProduct, expandProduct, expand, distributed, scaled]
        all_goals simp

theorem settleSum_eq (terms : ∀ t ∈ ts, AffineTerm t) : settleSum ts = ts.foldr Form.add (ofInt 0) := by
  induction ts with
  | nil => rfl
  | cons t rest ih =>
      obtain ⟨first, others⟩ := List.forall_mem_cons.1 terms
      rw [settleSum, first.settled.1, ih others, List.foldr_cons]

theorem expandSum_eq (terms : ∀ t ∈ ts, AffineTerm t) : expandSum ts = ts.foldr Form.add (ofInt 0) := by
  induction ts with
  | nil => rfl
  | cons t rest ih =>
      obtain ⟨first, others⟩ := List.forall_mem_cons.1 terms
      rw [expandSum, first.settled.2.2, ih others, List.foldr_cons]

theorem map_normalizeTermSigns (terms : ∀ t ∈ ts, AffineTerm t) :
    ts.map normalizeTermSigns = ts :=
  List.map_congr_left (fun t member => (terms t member).settled.2.1) |>.trans (List.map_id ts)

theorem Canonical.foldr_terms (canonical : Canonical (sum ts)) : ts.foldr Form.add (ofInt 0) = sum ts := by
  have each (t : Form Int) (member : t ∈ ts) : Canonical t :=
    (canonical.collected.terms t member).canonical
  refine (canonical_foldr_add each).eq_of_value canonical fun σ => ?_
  rw [value_foldr_add, value_sum]

theorem Canonical.foldl_terms (canonical : Canonical (sum ts)) : ts.foldl Form.add (ofInt 0) = sum ts := by
  have each (t : Form Int) (member : t ∈ ts) : Canonical t :=
    (canonical.collected.terms t member).canonical
  refine (canonical_foldl_add each (canonical_number 0)).eq_of_value canonical fun σ => ?_
  have total := value_foldl_add (σ := σ) id ts (ofInt 0)
  exact total.trans (by simp)

theorem Canonical.settleAtoms_eq (canonical : Canonical f) : settleAtoms f = f := by
  rcases canonical.cases with rfl | term | ⟨ts, rfl, collected⟩
  · rfl
  · exact term.settled.1
  · exact (settleSum_eq collected.terms).trans canonical.foldr_terms

theorem Canonical.normalizeSigns_eq (canonical : Canonical f) : normalizeSigns f = f := by
  rcases canonical.cases with rfl | term | ⟨ts, rfl, collected⟩
  · rfl
  · have flat : normalizeSigns f = normalizeTermSigns f := by cases term <;> rfl
    exact flat.trans term.settled.2.1
  · rw [normalizeSigns, map_normalizeTermSigns collected.terms]
    exact canonical.foldl_terms

theorem Canonical.expand_eq (canonical : Canonical f) : expand f = f := by
  rcases canonical.cases with rfl | term | ⟨ts, rfl, collected⟩
  · rfl
  · exact term.settled.2.2
  · exact (expandSum_eq collected.terms).trans canonical.foldr_terms

theorem Canonical.isAffine (canonical : Canonical f) : f.isAffine = true := by
  refine List.all_eq_true.2 fun t member => ?_
  cases canonical.collected.terms t member <;> rfl

theorem Canonical.simplest_eq (canonical : Canonical f) : f.simplest = f := by
  rw [simplest, canonical.settleAtoms_eq, choose]
  split
  · rfl
  · have expanded : (Literals.multipliedOut (normalizeSigns f) : Form Int) = f := by
      rw [canonical.normalizeSigns_eq]
      exact canonical.expand_eq
    simp only [expanded, canonical.isAffine, hasReal_int]
    rfl

theorem Canonical.eq_number (canonical : Canonical f)
    (constant : ∀ σ τ : String → Int, value σ f = value τ f) : f = number (value (unitOf none) f) := by
  refine canonical.eq_of_value (canonical_number _) fun σ => ?_
  rw [value_number]
  exact constant σ _

theorem Linear.symbol {S : String → Prop} {K : Bool → Prop} {name : String} (linear : Linear S K f)
    (member : t ∈ f.terms) (isSymbol : t.symbol? = some name) : S name := by
  unfold symbol? at isSymbol
  split at isSymbol
  next other isFactor =>
    rcases (linear.terms t member).split_cases with none | ⟨g, single, _, linearFactor⟩
    · rw [none] at isFactor
      cases isFactor
    · rw [single] at isFactor
      cases isFactor
      rw [← Option.some.inj isSymbol]
      exact linear_symbol.1 linearFactor
  next => cases isSymbol

end Form

namespace Expr

def IsConstant (e : Expr) : Prop := ∀ env env', e.integer env = e.integer env'

/-- Integer literals and variables under sums, differences and products with a constant factor. -/
inductive Affine : Expr → Prop where
  | int {id : NodeId} {c : Int} : Affine (.node id (.const (.int c)) .int32 [])
  | var {id : NodeId} {name : String} {isIndex : Bool} :
      Affine (.node id (.var name isIndex) .int32 [])
  | axis {id : NodeId} {domain : String} {axis : Nat} {least extent : Expr} :
      Affine (.reduction id domain axis least extent)
  | add {id : NodeId} {a b : Expr} :
      Affine a → Affine b → Affine (.node id (.binary .add) .int32 [a, b])
  | sub {id : NodeId} {a b : Expr} :
      Affine a → Affine b → Affine (.node id (.binary .sub) .int32 [a, b])
  | mul {id : NodeId} {a b : Expr} : Affine a → Affine b → a.IsConstant ∨ b.IsConstant →
      Affine (.node id (.binary .mul) .int32 [a, b])

theorem Affine.dtype {e : Expr} (affine : Affine e) : e.dtype = .int32 := by
  cases affine <;> rfl

theorem Index.affine {S : String → Prop} {K : Bool → Prop} {e : Expr} (isIndex : Index S K e)
    (noExtrema : ∀ greatest, ¬ K greatest) : Affine e := by
  induction isIndex with
  | int => exact .int
  | var _ => exact .var
  | axis _ => exact .axis
  | add _ _ left right => exact .add (left noExtrema) (right noExtrema)
  | sub _ _ left right => exact .sub (left noExtrema) (right noExtrema)
  | multiple _ ih => exact .mul .int (ih noExtrema) (.inl fun env env' => by simp [integer])
  | extremum kind _ _ _ _ => exact absurd kind (noExtrema _)

theorem Affine.index_of_subnode {e v : Expr} {name : String} (affine : Affine e)
    (within : Subnode v e) (isVariable : v.variableName? = some name) :
    Index (· = name) (fun _ => False) v := by
  induction affine with
  | int =>
      rcases subnode_node.1 within with rfl | ⟨y, absurd, _⟩
      · cases isVariable
      · cases absurd
  | var =>
      rcases subnode_node.1 within with rfl | ⟨y, absurd, _⟩
      · exact .var (Option.some.inj isVariable)
      · cases absurd
  | axis =>
      rw [subnode_reduction.1 within] at isVariable ⊢
      exact .axis (Option.some.inj isVariable)
  | add _ _ left right | sub _ _ left right | mul _ _ _ left right =>
      rcases subnode_node.1 within with rfl | ⟨y, member, deeper⟩
      · cases isVariable
      · rcases List.mem_pair.1 member with rfl | rfl
        · exact left deeper
        · exact right deeper

end Expr

structure IsForm (S : String → Prop) (e : Expr) (f : Form Int) : Prop where
  canonical : Canonical f
  linear : Linear S (fun _ => False) f
  value : ∀ env : Env, value env f = e.integer env

theorem IsForm.eq {S S' : String → Prop} {e e' : Expr} {f f' : Form Int} (isForm : IsForm S e f)
    (isForm' : IsForm S' e' f') (same : ∀ env, e.integer env = e'.integer env) : f = f' :=
  isForm.canonical.eq_of_value isForm'.canonical fun env => by
    rw [isForm.value, isForm'.value, same]

theorem IsForm.constant {S : String → Prop} {e : Expr} {f : Form Int} (isForm : IsForm S e f)
    (constant : e.IsConstant) : ∃ c, f = number c :=
  ⟨_, isForm.canonical.eq_number fun σ τ => by rw [isForm.value, isForm.value, constant σ τ]⟩

def ReadsAffine (S : String → Prop) (e : Expr) : Prop :=
  (∀ name, Mentions e name → S name) → ∀ before, ∃ f after,
    (Expr.read e : ReadM (Form Int)).run.run before = (.ok f, after) ∧ IsForm S e f ∧
      Records e before after

theorem reads_pair {S : String → Prop} {id : NodeId} {op : BinaryOp} {a b : Expr}
    {combine : Form Int → Form Int → Form Int} (arithmetic : isArithmetic op .int32 = true)
    (combines : ∀ f g, readBinary op f g = .ok (combine f g)) (left : ReadsAffine S a)
    (right : ReadsAffine S b)
    (isForm : ∀ f g, IsForm S a f → IsForm S b g →
      IsForm S (.node id (.binary op) .int32 [a, b]) (combine f g)) :
    ReadsAffine S (.node id (.binary op) .int32 [a, b]) := by
  intro names before
  obtain ⟨f, middle, readLeft, formLeft, recordLeft⟩ :=
    left (fun name inside => names name (mentions_pair.2 (.inl inside))) before
  obtain ⟨g, after, readRight, formRight, recordRight⟩ :=
    right (fun name inside => names name (mentions_pair.2 (.inr inside))) middle
  exact ⟨combine f g, after, read_pair arithmetic readLeft readRight (combines f g),
    isForm f g formLeft formRight, recordLeft.pair recordRight⟩

theorem read_affine {S : String → Prop} {e : Expr} (affine : Affine e) : ReadsAffine S e := by
  have combines {op : BinaryOp} {combine : Form Int → Form Int → Form Int}
      (isPlain : op = .add ∧ combine = Form.add ∨ op = .sub ∧ combine = Form.sub ∨
        op = .mul ∧ combine = Form.mul) (f g : Form Int) :
      readBinary op f g = .ok (combine f g) := by
    rcases isPlain with ⟨rfl, rfl⟩ | ⟨rfl, rfl⟩ | ⟨rfl, rfl⟩ <;>
      simp only [readBinary, defined_int] <;> rfl
  induction affine with
  | @int id c =>
      refine fun _ before => ⟨number c, before, rfl,
        ⟨canonical_number c, linear_number c, fun env => by simp [integer]⟩, ?_⟩
      exact records_leaf before (by simp [mentions_node, variableName?])
  | @var id name isIndex =>
      refine fun names before => ⟨symbol name, _, rfl, ⟨AffineTerm.bare.canonical,
        linear_symbol.2 (names name (mentions_node.2 (.inl rfl))), fun env => by simp [integer]⟩, ?_⟩
      refine records_variable before (fun other => ?_) rfl
      simp [mentions_node, variableName?, eq_comm]
  | @axis id domain axis least extent =>
      refine fun names before => ⟨symbol (axisName domain axis), _, rfl,
        ⟨AffineTerm.bare.canonical, linear_symbol.2 (names _ (mentions_reduction.2 rfl)),
          fun env => by simp [integer]⟩, ?_⟩
      refine records_variable before (fun other => ?_) rfl
      rw [mentions_reduction, eq_comm]
  | add _ _ left right =>
      refine reads_pair rfl (combines (.inl ⟨rfl, rfl⟩)) left right fun f g formLeft formRight =>
        ⟨formLeft.canonical.add formRight.canonical, formLeft.linear.add formRight.linear, fun env => ?_⟩
      rw [value_add, formLeft.value, formRight.value]
      rfl
  | sub _ _ left right =>
      refine reads_pair rfl (combines (.inr (.inl ⟨rfl, rfl⟩))) left right
        fun f g formLeft formRight => ⟨formLeft.canonical.sub formRight.canonical,
          formLeft.linear.sub formRight.linear, fun env => ?_⟩
      rw [value_sub, formLeft.value, formRight.value]
      rfl
  | @mul id a b _ _ constant left right =>
      refine reads_pair rfl (combines (.inr (.inr ⟨rfl, rfl⟩))) left right
        fun f g formLeft formRight => ?_
      have value (env : Env) : Form.value env (f.mul g) = a.integer env * b.integer env := by
        rw [value_mul, formLeft.value, formRight.value]
      rcases constant with constant | constant
      · obtain ⟨c, rfl⟩ := formLeft.constant constant
        exact ⟨formRight.canonical.number_mul c, formRight.linear.scale c, value⟩
      · obtain ⟨c, rfl⟩ := formRight.constant constant
        exact ⟨formLeft.canonical.mul_number c, formLeft.linear.mul_number c, value⟩

end ReverseMode
