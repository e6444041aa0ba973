import ReverseMode.Proofs.Exact.Value

namespace ReverseMode

def integerOf (op : BinaryOp) (m n : Int) : Int :=
  match op with
  | .add => m + n
  | .sub => m - n
  | .mul => m * n
  | .min => min m n
  | .max => max m n
  | _ => 0

namespace Expr

/-- The integer an index expression stands for. -/
def integer (env : Env) : Expr → Int
  | node _ (.const (.int c)) _ _ => c
  | node _ (.var name _) _ _ => env name
  | node _ (.binary op) _ [a, b] => integerOf op (integer env a) (integer env b)
  | node _ _ _ _ => 0
  | reduction _ domain axis _ _ => env (axisName domain axis)

def extremumOp (greatest : Bool) : BinaryOp := if greatest then .max else .min

/-- An index expression in the variables of `S`, with extrema of the kinds in `K`. Inside an
extremum only extrema of its own kind stand. -/
inductive Index (S : String → Prop) : (Bool → Prop) → Expr → Prop where
  | int {K : Bool → Prop} {id : NodeId} {c : Int} :
      Index S K (.node id (.const (.int c)) .int32 [])
  | var {K : Bool → Prop} {id : NodeId} {name : String} {isIndex : Bool} :
      S name → Index S K (.node id (.var name isIndex) .int32 [])
  | axis {K : Bool → Prop} {id : NodeId} {domain : String} {axis : Nat} {least extent : Expr} :
      S (axisName domain axis) → Index S K (.reduction id domain axis least extent)
  | add {K : Bool → Prop} {id : NodeId} {a b : Expr} :
      Index S K a → Index S K b → Index S K (.node id (.binary .add) .int32 [a, b])
  | sub {K : Bool → Prop} {id : NodeId} {a b : Expr} :
      Index S K a → Index S K b → Index S K (.node id (.binary .sub) .int32 [a, b])
  | multiple {K : Bool → Prop} {id factor : NodeId} {c : Int} {a : Expr} :
      Index S K a →
        Index S K (.node id (.binary .mul) .int32 [.node factor (.const (.int c)) .int32 [], a])
  | extremum {K : Bool → Prop} {id : NodeId} {greatest : Bool} {a b : Expr} :
      K greatest → Index S (· = greatest) a → Index S (· = greatest) b →
        Index S K (.node id (.binary (extremumOp greatest)) .int32 [a, b])

inductive Closed : Expr → Prop where
  | int {id : NodeId} {c : Int} : Closed (.node id (.const (.int c)) .int32 [])
  | add {id : NodeId} {a b : Expr} :
      Closed a → Closed b → Closed (.node id (.binary .add) .int32 [a, b])
  | sub {id : NodeId} {a b : Expr} :
      Closed a → Closed b → Closed (.node id (.binary .sub) .int32 [a, b])
  | extremum {id : NodeId} {greatest : Bool} {a b : Expr} :
      Closed a → Closed b → Closed (.node id (.binary (extremumOp greatest)) .int32 [a, b])

variable {S : String → Prop} {K : Bool → Prop}

theorem Index.dtype {e : Expr} (isIndex : Index S K e) : e.dtype = .int32 := by
  cases isIndex <;> rfl

theorem Closed.dtype {e : Expr} (closed : Closed e) : e.dtype = .int32 := by
  cases closed <;> rfl

theorem Index.mono {S' : String → Prop} {K' : Bool → Prop} {e : Expr}
    (names : ∀ name, S name → S' name) (kinds : ∀ greatest, K greatest → K' greatest)
    (isIndex : Index S K e) : Index S' K' e := by
  induction isIndex generalizing K' with
  | int => exact .int
  | var known => exact .var (names _ known)
  | axis known => exact .axis (names _ known)
  | add _ _ left right => exact .add (left kinds) (right kinds)
  | sub _ _ left right => exact .sub (left kinds) (right kinds)
  | multiple _ ih => exact .multiple (ih kinds)
  | extremum kind _ _ left right =>
      exact .extremum (kinds _ kind) (left fun _ same => same) (right fun _ same => same)

theorem Index.names {e : Expr} (isIndex : Index S K e) {name : String}
    (mentioned : Mentions e name) : S name := by
  induction isIndex with
  | int => simp [mentions_node, variableName?] at mentioned
  | var known =>
      simp only [mentions_node, variableName?, Option.some.injEq, List.not_mem_nil, false_and,
        exists_false, or_false] at mentioned
      exact mentioned ▸ known
  | axis known => simpa [mentions_reduction.1 mentioned] using known
  | add _ _ left right | sub _ _ left right | extremum _ _ _ left right =>
      rw [mentions_operands (by rfl)] at mentioned
      simp only [List.mem_cons, List.not_mem_nil, or_false, exists_eq_or_imp,
        exists_eq_left] at mentioned
      exact mentioned.elim left right
  | multiple _ ih =>
      rw [mentions_operands (by rfl)] at mentioned
      simp only [List.mem_cons, List.not_mem_nil, or_false, exists_eq_or_imp,
        exists_eq_left] at mentioned
      rcases mentioned with constant | inside
      · simp [mentions_node, variableName?] at constant
      · exact ih inside

theorem mentions_pair {id : NodeId} {op : BinaryOp} {dtype : DType} {a b : Expr} {name : String} :
    Mentions (.node id (.binary op) dtype [a, b]) name ↔ Mentions a name ∨ Mentions b name := by
  rw [mentions_operands (by rfl)]
  simp

theorem Index.not_calls {e : Expr} (isIndex : Index S K e) (callee : FuncId) :
    ¬ Calls e callee := by
  induction isIndex with
  | int | var _ => simp [calls_node]
  | axis _ => exact not_calls_reduction
  | add _ _ left right | sub _ _ left right | extremum _ _ _ left right =>
      simp [calls_node, left, right]
  | multiple _ ih => simp [calls_node, ih]

theorem Index.plain {e : Expr} (isIndex : Index S K e) : Plain e := by
  induction isIndex with
  | int => simp [plain_node, IsPlain, Head.arity?]
  | var _ => simp [plain_node, IsPlain, Head.arity?]
  | axis _ => exact plain_reduction
  | add _ _ left right | sub _ _ left right | extremum _ _ _ left right =>
      simp [plain_node, IsPlain, Head.arity?, left, right]
  | multiple _ ih => simp [plain_node, IsPlain, Head.arity?, ih]

theorem Index.own {e : Expr} (isIndex : Index S K e) : Index (Mentions e) K e := by
  induction isIndex with
  | int => exact .int
  | var _ => exact .var (mentions_node.2 (.inl rfl))
  | axis _ => exact .axis (mentions_reduction.2 rfl)
  | add _ _ left right =>
      exact .add (left.mono (fun _ inside => mentions_pair.2 (.inl inside)) fun _ same => same)
        (right.mono (fun _ inside => mentions_pair.2 (.inr inside)) fun _ same => same)
  | sub _ _ left right =>
      exact .sub (left.mono (fun _ inside => mentions_pair.2 (.inl inside)) fun _ same => same)
        (right.mono (fun _ inside => mentions_pair.2 (.inr inside)) fun _ same => same)
  | multiple _ ih =>
      exact .multiple (ih.mono (fun _ inside => mentions_pair.2 (.inr inside)) fun _ same => same)
  | extremum kind _ _ left right =>
      exact .extremum kind
        (left.mono (fun _ inside => mentions_pair.2 (.inl inside)) fun _ same => same)
        (right.mono (fun _ inside => mentions_pair.2 (.inr inside)) fun _ same => same)

theorem Index.integer_congr {e : Expr} (isIndex : Index S K e) {env env' : Env}
    (agree : ∀ name, S name → env name = env' name) : e.integer env = e.integer env' := by
  induction isIndex with
  | int => simp [integer]
  | var known => simpa [integer] using agree _ known
  | axis known => simpa [integer] using agree _ known
  | add _ _ left right | sub _ _ left right => simp only [integer, left, right]
  | multiple _ ih => simp only [integer, ih]
  | extremum _ _ _ left right => simp only [integer, left, right]

section

variable {α : Type} [Scalar α]

theorem exact_extremumOp (greatest : Bool) (dtype : DType) (m n : Int) :
    (extremumOp greatest).exact dtype (m : α) (n : α) =
      (integerOf (extremumOp greatest) m n : α) := by
  cases greatest
  · simp only [extremumOp, Bool.false_eq_true, if_false, BinaryOp.exact, integerOf,
      standard_intCast, Int.cast_le]
    split
    next below => rw [min_eq_left below]
    next above => rw [min_eq_right (by omega)]
  · simp only [extremumOp, if_true, BinaryOp.exact, integerOf, standard_intCast, Int.cast_le]
    split
    next above => rw [max_eq_left above]
    next below => rw [max_eq_right (by omega)]

theorem Index.exactIn {e : Expr} (isIndex : Index S K e) (answers : CallValues α) {env : String → α}
    {integers : Env} (agree : ∀ name, S name → env name = (integers name : α)) :
    Expr.exactIn answers env e = (e.integer integers : α) := by
  induction isIndex with
  | int => simp [headExact, Constant.exact, integer]
  | var known => simp [headExact, integer, agree _ known]
  | axis known => simp [integer, agree _ known]
  | add _ _ left right => simp [headExact, BinaryOp.exact, integer, integerOf, left, right]
  | sub _ _ left right => simp [headExact, BinaryOp.exact, integer, integerOf, left, right]
  | multiple _ ih => simp [headExact, BinaryOp.exact, Constant.exact, integer, integerOf, ih]
  | @extremum _ _ greatest _ _ _ _ _ left right =>
      rw [exactIn_head (by simp), List.map_cons, List.map_cons, List.map_nil, left, right, headExact,
        integer]
      exact exact_extremumOp greatest .int32 _ _

theorem Index.exact {e : Expr} (isIndex : Index S K e) (answers : CallValues α) (env : Env) :
    Expr.exact answers env e = (e.integer env : α) := isIndex.exactIn answers fun _ _ => rfl

theorem Closed.exactIn {e : Expr} (closed : Closed e) (answers : CallValues α) (env : String → α) :
    Expr.exactIn answers env e = (e.integer (fun _ => 0) : α) := by
  induction closed with
  | int => simp [headExact, Constant.exact, integer]
  | add _ _ left right => simp [headExact, BinaryOp.exact, integer, integerOf, left, right]
  | sub _ _ left right => simp [headExact, BinaryOp.exact, integer, integerOf, left, right]
  | @extremum _ greatest _ _ _ _ left right =>
      rw [exactIn_head (by simp), List.map_cons, List.map_cons, List.map_nil, left, right, headExact,
        integer]
      exact exact_extremumOp greatest .int32 _ _

end

theorem Closed.integer_eq {e : Expr} (closed : Closed e) (env env' : Env) :
    e.integer env = e.integer env' := by
  induction closed with
  | int => simp [integer]
  | add _ _ left right | sub _ _ left right => simp only [integer, left, right]
  | extremum _ _ left right => simp only [integer, left, right]

def constantValue (e : Expr) : Int := e.integer fun _ => 0

theorem Closed.exact {α : Type} [Scalar α] {e : Expr} (closed : Closed e) (answers : CallValues α)
    (env : Env) : Expr.exact answers env e = (e.integer env : α) :=
  (closed.exactIn answers _).trans (congrArg (Int.cast : Int → α) (closed.integer_eq _ env))

theorem Closed.integer_value {e : Expr} (closed : Closed e) (env : Env) :
    e.integer env = e.constantValue := closed.integer_eq _ _

theorem Closed.not_mentions {e : Expr} (closed : Closed e) (name : String) : ¬ Mentions e name := by
  induction closed with
  | int => simp [mentions_node, variableName?]
  | add _ _ left right | sub _ _ left right | extremum _ _ left right =>
      rw [mentions_pair]
      exact fun either => either.elim left right

theorem Closed.no_variable {e y : Expr} {name : String} (closed : Closed e)
    (isVariable : y.variableName? = some name) : ¬ Subnode y e :=
  fun within => closed.not_mentions name ⟨y, within, isVariable⟩

theorem Closed.not_calls {e : Expr} (closed : Closed e) (callee : FuncId) : ¬ Calls e callee := by
  induction closed with
  | int => simp [calls_node]
  | add _ _ left right | sub _ _ left right | extremum _ _ left right =>
      simp [calls_node, left, right]

theorem Closed.plain {e : Expr} (closed : Closed e) : Plain e := by
  induction closed with
  | int => simp [plain_node, IsPlain, Head.arity?]
  | add _ _ left right | sub _ _ left right | extremum _ _ left right =>
      simp [plain_node, IsPlain, Head.arity?, left, right]

def IsIndexVariable (e : Expr) (name : String) : Prop :=
  ∃ node index, e = .node node (.var name index) .int32 []

theorem IsIndexVariable.index {e : Expr} {name : String} (isVariable : IsIndexVariable e name) :
    Index (· = name) (fun _ => False) e := by
  obtain ⟨node, index, rfl⟩ := isVariable
  exact .var rfl

theorem IsIndexVariable.named {e : Expr} {name : String} (isVariable : IsIndexVariable e name) :
    e.variableName? = some name := by
  obtain ⟨node, index, rfl⟩ := isVariable
  rfl

theorem IsIndexVariable.integer {e : Expr} {name : String} (isVariable : IsIndexVariable e name)
    (env : Env) : e.integer env = env name := by
  obtain ⟨node, index, rfl⟩ := isVariable
  simp [Expr.integer]

theorem IsIndexVariable.subnode {e y : Expr} {name name' : String}
    (isVariable : IsIndexVariable e name) (within : Subnode y e) (named : y.variableName? = some name') :
    name' = name ∧ y.isPureVariable = true := by
  obtain ⟨node, index, rfl⟩ := isVariable
  rcases subnode_node.1 within with rfl | ⟨x, member, _⟩
  · cases named
    exact ⟨rfl, rfl⟩
  · cases member

end Expr

end ReverseMode
