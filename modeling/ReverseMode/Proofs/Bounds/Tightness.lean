import ReverseMode.Proofs.Bounds.Interval

namespace ReverseMode

open Expr

def Decides {α : Type} (action : BuildM α) (Q : α → Prop) (E : Fault → Prop) : Prop :=
  ∀ supply, match (action.run.run supply).1 with
    | .ok a => Q a
    | .error fault => E fault

namespace Decides

variable {α β : Type} {Q Q' : α → Prop} {R : β → Prop} {E E' : Fault → Prop}

theorem pure {a : α} (answer : Q a) : Decides (Pure.pure a : BuildM α) Q E := fun _ => answer

theorem throw {fault : Fault} (refused : E fault) :
    Decides (MonadExcept.throw fault : BuildM α) Q E := fun _ => refused

theorem ofNode {action : NodeM α} (answer : ∀ supply, Q (action.run supply).1) :
    Decides (liftM action : BuildM α) Q E := answer

theorem bind {action : BuildM α} {rest : α → BuildM β} (first : Decides action Q E)
    (second : ∀ a, Q a → Decides (rest a) R E) : Decides (action >>= rest) R E := by
  intro supply
  have here := first supply
  rw [ExceptT.run_bind, StateT.run_bind]
  cases outcome : action.run.run supply with
  | mk result left =>
      rw [outcome] at here
      cases result with
      | ok a => exact second a here left
      | error fault => exact here

theorem mono {action : BuildM α} (decides : Decides action Q E) (answer : ∀ a, Q a → Q' a)
    (refused : ∀ fault, E fault → E' fault) : Decides action Q' E' := by
  intro supply
  have here := decides supply
  generalize (action.run.run supply).1 = result at here ⊢
  cases result with
  | ok a => exact answer a here
  | error fault => exact refused fault here

end Decides

namespace Expr

inductive IsIndex (declared : List String) : Expr → Prop where
  | const {id : NodeId} {c : Constant} {dtype : DType} {operands : List Expr} :
      IsIndex declared (.node id (.const c) dtype operands)
  | var {id : NodeId} {name : String} {index : Bool} {dtype : DType} {operands : List Expr}
      (isDeclared : name ∈ declared) : IsIndex declared (.node id (.var name index) dtype operands)
  | reduction {id : NodeId} {domain : String} {axis : Nat} {least extent : Expr} :
      IsIndex declared (.reduction id domain axis least extent)
  | binary {id : NodeId} {op : BinaryOp} {dtype : DType} {a b : Expr}
      (operator : op = .add ∨ op = .sub ∨ op = .min ∨ op = .max) (left : IsIndex declared a)
      (right : IsIndex declared b) : IsIndex declared (.node id (.binary op) dtype [a, b])

/-- The variables of an index as often as they stand in it, with their ranges. -/
def places (declared : List String) (domain : Domain) : Expr → List (String × Expr × Expr)
  | node _ (.binary _) _ [a, b] => places declared domain a ++ places declared domain b
  | reduction _ name axis least extent => [(axisName name axis, least, extent)]
  | node _ (.var name _) _ _ =>
      ((declared.findIdx? (· == name)).bind (domain[·]?)).toList.map (name, ·)
  | _ => []

end Expr

def Interval.values (answers : CallValues ℚ) (env : Env) (i : Interval) : ℚ × ℚ :=
  (i.low.exact answers env, i.high.exact answers env)

def combinedValues (op : BinaryOp) (a b : ℚ × ℚ) : ℚ × ℚ :=
  match op with
  | .sub => (a.1 - b.2, a.2 - b.1)
  | op => (op.exact .int32 a.1 b.1, op.exact .int32 a.2 b.2)

theorem exact_min (dtype : DType) (v w : ℚ) : BinaryOp.min.exact dtype v w = min v w := by
  rw [min_def]
  simp only [BinaryOp.exact, standard_rat]

theorem exact_max (dtype : DType) (v w : ℚ) : BinaryOp.max.exact dtype v w = max v w := by
  rw [max_comm, max_def]
  simp only [BinaryOp.exact, standard_rat]

namespace Interval

variable {answers : CallValues ℚ} {env : Env}

theorem exact_binary {id : NodeId} {op : BinaryOp} {dtype : DType} {a b : Expr} :
    exact answers env (.node id (.binary op) dtype [a, b]) =
      op.exact dtype (a.exact answers env) (b.exact answers env) := by
  rw [exact_node (by simp)]
  rfl

inductive Spans (declared : List String) (domain : Domain) : Expr → Interval → Prop where
  | const {id : NodeId} {c : Constant} {dtype : DType} {operands : List Expr} :
      Spans declared domain (.node id (.const c) dtype operands)
        ⟨.node id (.const c) dtype operands, .node id (.const c) dtype operands⟩
  | var {id : NodeId} {name : String} {index : Bool} {dtype : DType} {operands : List Expr}
      {position : Nat} {least extent : Expr} {i : Interval}
      (isDeclared : declared.findIdx? (· == name) = some position)
      (range : domain[position]? = some (least, extent))
      (values : ∀ answers env, i.values answers env =
        (least.exact answers env, least.exact answers env + extent.exact answers env - 1)) :
      Spans declared domain (.node id (.var name index) dtype operands) i
  | reduction {id : NodeId} {name : String} {axis : Nat} {least extent : Expr} {i : Interval}
      (values : ∀ answers env, i.values answers env =
        (least.exact answers env, least.exact answers env + extent.exact answers env - 1)) :
      Spans declared domain (.reduction id name axis least extent) i
  | binary {id : NodeId} {op : BinaryOp} {dtype : DType} {a b : Expr} {left right i : Interval}
      (operator : op = .add ∨ op = .sub ∨ op = .min ∨ op = .max)
      (isLeft : Spans declared domain a left) (isRight : Spans declared domain b right)
      (values : ∀ answers env, i.values answers env =
        combinedValues op (left.values answers env) (right.values answers env)) :
      Spans declared domain (.node id (.binary op) dtype [a, b]) i

end Interval

section

variable {declared : List String} {domain : Domain}

theorem mem_of_findIdx? {name : String} {position : Nat}
    (found : declared.findIdx? (· == name) = some position) :
    name ∈ declared ∧ position < declared.length := by
  obtain ⟨bound, isName, _⟩ := List.findIdx?_eq_some_iff_getElem.1 found
  exact ⟨beq_iff_eq.1 isName ▸ List.getElem_mem bound, bound⟩

theorem Interval.Spans.isIndex {e : Expr} {i : Interval} (spans : i.Spans declared domain e) :
    e.IsIndex declared := by
  induction spans with
  | const => exact .const
  | var isDeclared => exact .var (mem_of_findIdx? isDeclared).1
  | reduction => exact .reduction
  | binary operator _ _ _ ihLeft ihRight => exact .binary operator ihLeft ihRight

end

section

variable {declared : List String} {domain : Domain} {answers : CallValues ℚ} {env env' base : Env}
  {e : Expr} {i : Interval}

def Expr.placeNames (declared : List String) (domain : Domain) (e : Expr) : List String :=
  (e.places declared domain).map Prod.fst

/-- The least index and the extent of a range are integers, and the variable lies in it. The range is
evaluated in an environment of its own. -/
def Lies (answers : CallValues ℚ) (base env : Env) (place : String × Expr × Expr) : Prop :=
  ∃ least extent : Int, place.2.1.exact answers base = (least : ℚ) ∧
    place.2.2.exact answers base = (extent : ℚ) ∧ least ≤ env place.1 ∧
    env place.1 < least + extent

def Inhabits (answers : CallValues ℚ) (base : Env) (place : String × Expr × Expr) : Prop :=
  ∃ least extent : Int, place.2.1.exact answers base = (least : ℚ) ∧
    place.2.2.exact answers base = (extent : ℚ) ∧ 0 < extent

namespace Interval.Spans

theorem places_var {id : NodeId} {name : String} {index : Bool} {dtype : DType}
    {operands : List Expr} {position : Nat} {least extent : Expr}
    (isDeclared : declared.findIdx? (· == name) = some position)
    (range : domain[position]? = some (least, extent)) :
    places declared domain (.node id (.var name index) dtype operands) = [(name, least, extent)] := by
  simp [places, isDeclared, range]

theorem between_of_lies {place : String × Expr × Expr} (lies : Lies answers env env place) :
    place.2.1.exact answers env ≤ (env place.1 : ℚ) ∧ (env place.1 : ℚ) ≤
      place.2.1.exact answers env + place.2.2.exact answers env - 1 := by
  obtain ⟨least, extent, isLeast, isExtent, above, below⟩ := lies
  rw [isLeast, isExtent]
  constructor
  · exact_mod_cast above
  · have last : env place.1 ≤ least + extent - 1 := by omega
    exact_mod_cast last

theorem contains (spans : i.Spans declared domain e)
    (inside : ∀ place ∈ e.places declared domain, Lies answers env env place) :
    (i.values answers env).1 ≤ e.exact answers env ∧ e.exact answers env ≤ (i.values answers env).2 := by
  induction spans with
  | const => exact ⟨le_refl _, le_refl _⟩
  | var isDeclared range values =>
      rw [places_var isDeclared range, List.forall_mem_singleton] at inside
      have between := between_of_lies inside
      rw [values, exact_node (by simp)]
      exact between
  | reduction values =>
      rw [places, List.forall_mem_singleton] at inside
      have between := between_of_lies inside
      rw [values, exact_reduction]
      exact between
  | @binary id op dtype a b left right i operator _ _ values ihLeft ihRight =>
      rw [places, List.forall_mem_append] at inside
      obtain ⟨leftLow, leftHigh⟩ := ihLeft inside.1
      obtain ⟨rightLow, rightHigh⟩ := ihRight inside.2
      rw [values, exact_binary]
      rcases operator with rfl | rfl | rfl | rfl
      · simp only [combinedValues, BinaryOp.exact]
        exact ⟨add_le_add leftLow rightLow, add_le_add leftHigh rightHigh⟩
      · simp only [combinedValues, BinaryOp.exact]
        exact ⟨sub_le_sub leftLow rightHigh, sub_le_sub leftHigh rightLow⟩
      · simp only [combinedValues, exact_min]
        exact ⟨min_le_min leftLow rightLow, min_le_min leftHigh rightHigh⟩
      · simp only [combinedValues, exact_max]
        exact ⟨max_le_max leftLow rightLow, max_le_max leftHigh rightHigh⟩

theorem exact_congr (spans : i.Spans declared domain e)
    (same : ∀ name ∈ e.placeNames declared domain, env name = env' name) :
    e.exact answers env = e.exact answers env' := by
  induction spans with
  | const =>
      rw [exact_node (by simp), exact_node (by simp)]
      rfl
  | var isDeclared range _ =>
      rw [placeNames, places_var isDeclared range] at same
      rw [exact_node (by simp), exact_node (by simp)]
      exact congrArg (Int.cast : Int → ℚ) (same _ (.head _))
  | reduction _ =>
      rw [exact_reduction, exact_reduction, same _ (.head _)]
  | binary _ _ _ _ ihLeft ihRight =>
      rw [placeNames, places, List.map_append, List.forall_mem_append] at same
      rw [exact_binary, exact_binary, ihLeft same.1, ihRight same.2]

end Interval.Spans

/-- Some choice of the variables in an index, each from its range, gives it the value. -/
def Expr.Attains (declared : List String) (domain : Domain) (answers : CallValues ℚ) (base : Env)
    (e : Expr) (value : ℚ) : Prop :=
  ∃ env : Env, (∀ name, name ∉ e.placeNames declared domain → env name = base name) ∧
    (∀ place ∈ e.places declared domain, Lies answers base env place) ∧ e.exact answers env = value

namespace Interval.Spans

theorem reaches_place {name : String} {range : Expr × Expr}
    (isPlace : e.places declared domain = [(name, range)])
    (isVariable : ∀ env : Env, e.exact answers env = (env name : ℚ))
    (inhabited : Inhabits answers base (name, range)) :
    e.Attains declared domain answers base (range.1.exact answers base) ∧
      e.Attains declared domain answers base
        (range.1.exact answers base + range.2.exact answers base - 1) := by
  obtain ⟨least, extent, isLeast, isExtent, positive⟩ := inhabited
  have reaches (v : Int) (above : least ≤ v) (below : v < least + extent) :
      e.Attains declared domain answers base (v : ℚ) := by
    refine ⟨Function.update base name v, fun other absent => ?_, ?_, ?_⟩
    · rw [placeNames, isPlace] at absent
      exact Function.update_of_ne (by simpa using absent) v base
    · rw [isPlace, List.forall_mem_singleton]
      refine ⟨least, extent, isLeast, isExtent, ?_⟩
      rw [Function.update_self]
      exact ⟨above, below⟩
    · rw [isVariable, Function.update_self]
  rw [isLeast, isExtent]
  refine ⟨reaches least (le_refl _) (by omega), ?_⟩
  exact_mod_cast reaches (least + extent - 1) (by omega) (by omega)

theorem reaches_binary {id : NodeId} {op : BinaryOp} {dtype : DType} {a b : Expr} {left right : Interval}
    {v w : ℚ} (isLeft : left.Spans declared domain a) (isRight : right.Spans declared domain b)
    (apart : ∀ name ∈ a.placeNames declared domain, name ∉ b.placeNames declared domain)
    (attainsLeft : a.Attains declared domain answers base v)
    (attainsRight : b.Attains declared domain answers base w) :
    (node id (.binary op) dtype [a, b]).Attains declared domain answers base (op.exact dtype v w) := by
  obtain ⟨env, sameLeft, liesLeft, rfl⟩ := attainsLeft
  obtain ⟨env', sameRight, liesRight, rfl⟩ := attainsRight
  let both : Env := fun name => if name ∈ a.placeNames declared domain then env name else env' name
  have onLeft : ∀ name ∈ a.placeNames declared domain, both name = env name := fun _ member =>
    if_pos member
  have onRight : ∀ name ∈ b.placeNames declared domain, both name = env' name := fun name member =>
    if_neg fun isLeft => apart name isLeft member
  have named {place : String × Expr × Expr} {x : Expr} (member : place ∈ x.places declared domain) :
      place.1 ∈ x.placeNames declared domain := List.mem_map_of_mem member
  refine ⟨both, fun name absent => ?_, ?_, ?_⟩
  · rw [placeNames, places, List.map_append, List.mem_append, not_or] at absent
    exact (if_neg absent.1).trans (sameRight name absent.2)
  · rw [places, List.forall_mem_append]
    refine ⟨fun place member => ?_, fun place member => ?_⟩
    · rw [Lies, onLeft place.1 (named member)]
      exact liesLeft place member
    · rw [Lies, onRight place.1 (named member)]
      exact liesRight place member
  · rw [exact_binary, isLeft.exact_congr onLeft, isRight.exact_congr onRight]

theorem reaches (spans : i.Spans declared domain e)
    (distinct : (e.placeNames declared domain).Nodup)
    (inhabited : ∀ place ∈ e.places declared domain, Inhabits answers base place) :
    e.Attains declared domain answers base (i.values answers base).1 ∧
      e.Attains declared domain answers base (i.values answers base).2 := by
  induction spans with
  | const => exact ⟨⟨base, by simp, by simp [places], rfl⟩, ⟨base, by simp, by simp [places], rfl⟩⟩
  | var isDeclared range values =>
      rw [values]
      rw [places_var isDeclared range, List.forall_mem_singleton] at inhabited
      exact reaches_place (places_var isDeclared range) (fun env => exact_node (by simp)) inhabited
  | reduction values =>
      rw [values]
      rw [places, List.forall_mem_singleton] at inhabited
      exact reaches_place rfl (fun env => exact_reduction) inhabited
  | @binary id op dtype a b left right i operator isLeft isRight values ihLeft ihRight =>
      rw [placeNames, places, List.map_append] at distinct
      rw [places, List.forall_mem_append] at inhabited
      obtain ⟨distinctLeft, distinctRight, apart⟩ := List.nodup_append.1 distinct
      have separate : ∀ name ∈ a.placeNames declared domain, name ∉ b.placeNames declared domain :=
        fun name inLeft inRight => apart name inLeft name inRight rfl
      obtain ⟨lowLeft, highLeft⟩ := ihLeft distinctLeft inhabited.1
      obtain ⟨lowRight, highRight⟩ := ihRight distinctRight inhabited.2
      have both {v w : ℚ} (attainsLeft : a.Attains declared domain answers base v)
          (attainsRight : b.Attains declared domain answers base w) :
          (node id (.binary op) dtype [a, b]).Attains declared domain answers base
            (op.exact dtype v w) :=
        reaches_binary isLeft isRight separate attainsLeft attainsRight
      rw [values]
      rcases operator with rfl | rfl | rfl | rfl
      · exact ⟨both lowLeft lowRight, both highLeft highRight⟩
      · exact ⟨both lowLeft highRight, both highLeft lowRight⟩
      · exact ⟨both lowLeft lowRight, both highLeft highRight⟩
      · exact ⟨both lowLeft lowRight, both highLeft highRight⟩

end Interval.Spans

/-- No range mentions a variable of the index. -/
def Expr.Independent (declared : List String) (domain : Domain) (e : Expr) : Prop :=
  ∀ place ∈ e.places declared domain, ∀ name ∈ e.placeNames declared domain,
    ¬ Free name place.2.1 ∧ ¬ Free name place.2.2

theorem Expr.Independent.same (independent : e.Independent declared domain)
    (answers : CallValues ℚ)
    (same : ∀ name, name ∉ e.placeNames declared domain → env' name = env name) :
    ∀ place ∈ e.places declared domain, place.2.1.exact answers env = place.2.1.exact answers env' ∧
      place.2.2.exact answers env = place.2.2.exact answers env' := by
  have congr {x : Expr} (absent : ∀ name ∈ e.placeNames declared domain, ¬ Free name x) :
      x.exact answers env = x.exact answers env' := by
    refine exactIn_congr x (fun name free => ?_) fun _ _ _ _ => rfl
    exact congrArg (Int.cast : Int → ℚ) (same name fun member => absent name member free).symm
  intro place member
  exact ⟨congr fun name named => (independent place member name named).1,
    congr fun name named => (independent place member name named).2⟩

end

namespace Crossing

def literal (id : NodeId) (c : Int) : Expr := .node id (.const (.int c)) .int32 []

def x : Expr := .node 0 (.var "x" true) .int32 []

def axis : Expr := .reduction 1 "r" 0 (literal 2 0) (literal 3 3)

def difference : Expr := .node 4 (.binary .sub) .int32 [x, axis]

def domain : Domain := [(literal 5 2, literal 6 5)]

end Crossing

end ReverseMode
