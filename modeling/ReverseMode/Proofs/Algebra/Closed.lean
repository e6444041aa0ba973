import ReverseMode.Program.Simplify
import ReverseMode.Proofs.Algebra.Solving
import ReverseMode.Proofs.Nodes.Digest
import ReverseMode.Proofs.Nodes.Following

namespace ReverseMode

open Form Expr

theorem keepArgument_number (greatest : Bool) (m n : Int) :
    ∃ k, keepArgument greatest [number m] (number n) = [number k] := by
  have decided : (number m : Form Int).dominates greatest (number n) = true ∨
      (number n : Form Int).dominates greatest (number m) = true := by
    have real (k : Int) : (number k : Form Int).isReal = true := rfl
    simp only [dominates, real, Form.sub, Form.sign, add_int, neg_int, toNumber_int,
      Number.isNegative, Number.isPositive, Bool.true_and]
    cases greatest <;> simp <;> omega
  unfold keepArgument
  split
  next => exact ⟨m, rfl⟩
  next kept =>
    have loses : (number n : Form Int).dominates greatest (number m) = true := by
      rcases decided with first | second
      · simp [first] at kept
      · exact second
    exact ⟨n, by simp [loses]⟩

theorem keepArguments_number (greatest : Bool) {fs : List (Form Int)} {m : Int}
    (numbers : ∀ f ∈ fs, ∃ n, f = number n) :
    ∃ k, fs.foldl (keepArgument greatest) [number m] = [number k] := by
  induction fs generalizing m with
  | nil => exact ⟨m, rfl⟩
  | cons f rest ih =>
      obtain ⟨⟨n, rfl⟩, others⟩ := List.forall_mem_cons.1 numbers
      obtain ⟨k, kept⟩ := keepArgument_number greatest m n
      rw [List.foldl_cons, kept]
      exact ih others

theorem extreme_number (greatest : Bool) (m n : Int) :
    ∃ k, extreme greatest [number m, number n] = (number k : Form Int) := by
  have flat : ∀ f ∈ [(number m : Form Int), number n], Flat greatest [] f := by
    simp only [List.forall_mem_cons, List.not_mem_nil, false_imp_iff, implies_true, and_true]
    exact ⟨⟨by simp [flatten], by simp [flatten, Sits, isExtremum]⟩,
      ⟨by simp [flatten], by simp [flatten, Sits, isExtremum]⟩⟩
  obtain ⟨candidates, isExtreme, origin, top⟩ := extreme_candidates (by simp) flat
  have numbers (f : Form Int) (member : f ∈ candidates) : ∃ k, f = number k := by
    obtain ⟨g, among, inside⟩ := origin f member
    rcases List.mem_pair.1 among with rfl | rfl <;> exact ⟨_, List.mem_singleton.1 inside⟩
  rw [isExtreme]
  cases candidates with
  | nil =>
      obtain ⟨f, member, _⟩ := (top ⟨fun _ => 0, fun _ => 0⟩).1
      cases member
  | cons f rest =>
      obtain ⟨⟨k, rfl⟩, others⟩ := List.forall_mem_cons.1 numbers
      obtain ⟨k', kept⟩ := keepArguments_number greatest (m := k) others
      have first : keepArgument greatest [] (number k) = [(number k : Form Int)] := rfl
      rw [List.foldl_cons, first, kept]
      exact ⟨k', rfl⟩

theorem extreme_number_eq (greatest : Bool) (m n : Int) :
    extreme greatest [number m, number n] =
      (number (integerOf (extremumOp greatest) m n) : Form Int) := by
  obtain ⟨k, isNumber⟩ := extreme_number greatest m n
  have linear : ∀ f ∈ [number m, number n], Linear (fun _ => True) (· = greatest) f := by
    simp [linear_number]
  have sound := (extreme_sound (σ := ⟨fun _ => 0, fun _ => 0⟩) (by simp) linear).2
  rw [isNumber] at sound ⊢
  simp only [value_number, List.map_cons, List.map_nil] at sound
  rw [sound]
  cases greatest <;> rfl

theorem read_closed {e : Expr} (closed : Closed e) (env : Env) (before : Symbols) :
    (Expr.read e : ReadM (Form Int)).run.run before = (.ok (number (e.integer env)), before) := by
  induction closed with
  | int => rfl
  | add _ _ left right =>
      refine read_pair rfl left right ?_
      simp only [readBinary, defined_int]
      rfl
  | sub _ _ left right =>
      refine read_pair rfl left right ?_
      simp only [readBinary, defined_int]
      rfl
  | @extremum id greatest a b _ _ left right =>
      have combined : readBinary (extremumOp greatest) (number (a.integer env))
          (number (b.integer env)) =
          .ok (number (integerOf (extremumOp greatest) (a.integer env) (b.integer env))) := by
        rw [← extreme_number_eq, ← readExtremum_int]
        cases greatest <;> rfl
      refine read_pair ?_ left right combined
      cases greatest <;> rfl

def IsLiteral (e : Expr) (c : Int) : Prop := ∃ id, e = .node id (.const (.int c)) .int32 []

theorem IsLiteral.closed {e : Expr} {c : Int} (literal : IsLiteral e c) : Closed e := by
  obtain ⟨id, rfl⟩ := literal
  exact .int

theorem IsLiteral.integer {e : Expr} {c : Int} (literal : IsLiteral e c) (env : Env) :
    e.integer env = c := by
  obtain ⟨id, rfl⟩ := literal
  simp [Expr.integer]

theorem simplified_closed {r : Registry} {e : Expr} (held : r.Holds e) (closed : Closed e)
    (env : Env) :
    BuildsAs e.simplified r (some ()) fun later result _ =>
      later.Holds result.expr ∧ IsLiteral result.expr (e.integer env) := by
  have hasVariable : e.variableName? = none := by cases closed <;> rfl
  unfold Expr.simplified
  split
  next atomic =>
    refine BuildsAs.pure ⟨held, ?_⟩
    cases closed with
    | int => exact ⟨_, rfl⟩
    | add | sub | extremum => simp [constant?, variableName?] at atomic
  next =>
    have form : ExceptT.run (Expr.read e : ReadM (Form Int)) {} =
        (.ok (number (e.integer env)), {}) := read_closed closed env {}
    rw [form]
    refine BuildsAs.ofBuilds ?_
    have simplest : (number (e.integer env) : Form Int).simplest = number (e.integer env) := rfl
    unfold writeSimplest
    rw [simplest]
    have written : (write {} (number (e.integer env))).run =
        literal (e.integer env) >>= fun result => pure (.ok result) := by
      rw [write, writeSigned, if_neg (by simp)]
      rfl
    rw [written, bind_assoc]
    refine Builds.bind (writes_literal (S := fun _ => True) (V := fun _ => True) r _) fun later result extended made => ?_
    rw [pure_bind]
    have isLiteral : IsLiteral result (e.integer env) := made.2
    dsimp only
    rw [if_pos (by rw [isLiteral.closed.dtype, closed.dtype])]
    exact Builds.pure ⟨made.1.1, isLiteral⟩

theorem simplify_follows {total : Prop} {r : Registry} {program : Program} {e : Expr}
    (held : r.Holds e) (closed : Closed e) (env : Env) :
    Follows total (simplify e) r program (some ()) fun later result _ =>
      later.Holds result ∧ IsLiteral result (e.integer env) := by
  unfold simplify
  refine Follows.bind_some (Follows.buildsAs (simplified_closed held closed env))
    fun later left result extended _ answer => ?_
  split
  next =>
    exact Follows.bind_some Follows.report fun _ _ _ extendedAgain _ _ =>
      Follows.pure ⟨answer.1.extend extendedAgain, answer.2⟩
  next => exact Follows.pure answer

theorem simplify_closed {r : Registry} {program : Program} {e : Expr} (held : r.Holds e)
    (closed : Closed e) (env : Env) :
    Achieves (simplify e) r program fun later left result =>
      left.funcs = program.funcs ∧ later.Holds result ∧ IsLiteral result (e.integer env) :=
  have follows : Follows True (simplify e) r program (some ()) _ := simplify_follows held closed env
  follows.achieves

theorem integer_of_literalText {hash : String → String} {e literal : Expr} {c : Int}
    (closed : Closed e) (isLiteral : IsLiteral literal c)
    (sameText : e.textWith hash = literal.textWith hash) (env : Env) : e.integer env = c := by
  obtain ⟨id, rfl⟩ := isLiteral
  cases closed with
  | int =>
      simp only [Expr.integer]
      exact constantText_injective sameText
  | add => exact absurd sameText (constantText_ne_nodeText (by simp))
  | sub => exact absurd sameText (constantText_ne_nodeText (by simp))
  | @extremum _ greatest =>
      refine absurd sameText (constantText_ne_nodeText ?_)
      cases greatest <;> simp [extremumOp]

end ReverseMode
