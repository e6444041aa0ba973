import ReverseMode.Proofs.Derivative.Consumers
import ReverseMode.Proofs.Exact.Elementary

namespace ReverseMode

open Expr Finset

def Program.callsAmong (p : Program) (caller : StageKey) (nodes : List Expr) :
    List (Expr × StageKey) :=
  nodes.filterMap fun x =>
    match x.callee? with
    | some (.func callee _) => some (x, calledStage caller (p.func callee))
    | _ => none

theorem Program.mem_callsAmong {p : Program} {caller : StageKey} {nodes : List Expr}
    {call : Expr × StageKey} : call ∈ p.callsAmong caller nodes ↔ call.1 ∈ nodes ∧
      ∃ id name, call.1.callee? = some (.func id name) ∧ call.2 = calledStage caller (p.func id) := by
  unfold callsAmong
  rw [List.mem_filterMap]
  constructor
  · rintro ⟨x, member, found⟩
    split at found
    next id name isCall =>
      cases found
      exact ⟨member, id, name, isCall, rfl⟩
    next => cases found
  · rintro ⟨member, id, name, isCall, isKey⟩
    refine ⟨call.1, member, ?_⟩
    rw [isCall]
    exact congrArg some (Prod.ext rfl isKey.symm)

/-- Weights of nodes that obey the chain rule, function calls apart. -/
def Chains (answers : CallValues ℚ) (env : Env) (value : Expr) (weight : Expr → ℚ) : Prop :=
  ∀ x ∈ value.differentiable, (∀ id name, x.callee? ≠ some (.func id name)) →
    weight x = ((slopes answers env.scalars [] x).map fun (c, slope) => slope * weight c).sum

/-- A pass over a definition: the stage it defines, its variables with the box they run through, and
the value. -/
structure Pass where
  caller : StageKey
  declared : List String
  box : List (Int × Int)
  value : Expr

namespace Pass

variable (pass : Pass) (p : Program)

def calls : List (Expr × StageKey) := p.callsAmong pass.caller pass.value.differentiable

def stage : Scope := pass.declared.zip pass.box

def axes (key : StageKey) : Scope := if pass.caller.name = key.name then [] else pass.value.axes

def scope (key : StageKey) : Scope := pass.stage ++ pass.axes key

noncomputable def share (amount : Expr → Env → ℚ) (call : Expr × StageKey) : StageKey → Grid ℚ :=
  fun key index =>
    if call.2 = key then
      sumOver (fun env => if index = call.1.operands.map (Expr.integer env) then amount call.1 env
        else 0) (pass.scope key) zeroEnv
    else 0

noncomputable def handed (amount : Expr → Env → ℚ) (calls : List (Expr × StageKey)) :
    StageKey → Grid ℚ :=
  fun key index => (calls.map fun call => pass.share amount call key index).sum

variable {pass} {amount amount' : Expr → Env → ℚ} {call : Expr × StageKey}

theorem share_other {key : StageKey} (differs : key ≠ call.2) : pass.share amount call key = 0 := by
  funext index
  rw [share, if_neg differs.symm]
  rfl

theorem share_zero (nothing : ∀ env, amount call.1 env = 0) : pass.share amount call = 0 := by
  funext key index
  simp [share, nothing, sumOver_zero]

theorem share_congr (same : amount call.1 = amount' call.1) :
    pass.share amount call = pass.share amount' call := by
  unfold share
  rw [same]

theorem handed_nil : pass.handed amount [] = 0 := rfl

theorem handed_cons (rest : List (Expr × StageKey)) :
    pass.handed amount (call :: rest) = pass.share amount call + pass.handed amount rest := rfl

theorem handed_append (first second : List (Expr × StageKey)) :
    pass.handed amount (first ++ second) = pass.handed amount first + pass.handed amount second := by
  induction first with
  | nil => rw [List.nil_append, handed_nil, zero_add]
  | cons call rest ih => rw [List.cons_append, handed_cons, handed_cons, ih, add_assoc]

theorem handed_congr {calls : List (Expr × StageKey)}
    (same : ∀ call ∈ calls, amount call.1 = amount' call.1) :
    pass.handed amount calls = pass.handed amount' calls := by
  induction calls with
  | nil => rfl
  | cons call rest ih =>
      obtain ⟨first, others⟩ := List.forall_mem_cons.1 same
      rw [handed_cons, handed_cons, share_congr first, ih others]

theorem handed_perm {calls calls' : List (Expr × StageKey)} (perm : calls.Perm calls') :
    pass.handed amount calls = pass.handed amount calls' := by
  funext key index
  exact (perm.map _).sum_eq

variable (pass)

/-- At a point, the amounts that calls get of an adjoint: none if it is zero, and as much as it weighs
for all weights that obey the chain rule. -/
structure Flows (env : Env) (seed : ℚ) (amount : Expr → ℚ) : Prop where
  vanishes : seed = 0 → ∀ call ∈ pass.calls p, amount call.1 = 0
  balance : ∀ weight, Chains (p.ratReads pass.caller).answers env pass.value weight →
    seed * weight pass.value = ((pass.calls p).map fun call => amount call.1 * weight call.1).sum

def Conveys (seed : Grid ℚ) (given : StageKey → Grid ℚ) : Prop :=
  ∃ amount : Expr → Env → ℚ, given = pass.handed amount (pass.calls p) ∧
    ∀ env, pass.Flows p env (seed (pass.declared.map env)) fun x => amount x env

end Pass

section

variable {pass : Pass} {p : Program} {amount : Expr → Env → ℚ} {points : StageKey → Finset (List Int)}
  {weight : StageKey → Grid ℚ}

theorem sum_share {keys : Finset StageKey} {call : Expr × StageKey} (inKeys : call.2 ∈ keys)
    (distinct : (pass.scope call.2).names.Nodup)
    (lands : ∀ env, (pass.scope call.2).Reaches zeroEnv env →
      call.1.operands.map (Expr.integer env) ∈ points call.2) :
    ∑ key ∈ keys, ∑ index ∈ points key, pass.share amount call key index * weight key index =
      sumOver (fun env => amount call.1 env *
        weight call.2 (call.1.operands.map (Expr.integer env))) (pass.scope call.2) zeroEnv := by
  have others (key : StageKey) (other : key ≠ call.2) :
      ∑ index ∈ points key, pass.share amount call key index * weight key index = 0 := by
    refine Finset.sum_eq_zero fun index _ => ?_
    rw [Pass.share, if_neg (Ne.symm other), zero_mul]
  rw [Finset.sum_eq_single_of_mem call.2 inKeys fun key _ => others key]
  have here (index : List Int) : pass.share amount call call.2 index * weight call.2 index =
      sumOver (fun env => if index = call.1.operands.map (Expr.integer env)
        then weight call.2 index * amount call.1 env else 0) (pass.scope call.2) zeroEnv := by
    rw [Pass.share, if_pos rfl, mul_comm, ← sumOver_mul_left]
    simp only [mul_ite, mul_zero]
  simp only [here]
  rw [← sumOver_sum]
  refine sumOver_congr distinct fun env reaches => ?_
  rw [Finset.sum_ite_eq', if_pos (lands env reaches), mul_comm]

theorem sum_handed {keys : Finset StageKey} {calls : List (Expr × StageKey)}
    (inKeys : ∀ call ∈ calls, call.2 ∈ keys)
    (distinct : ∀ call ∈ calls, (pass.scope call.2).names.Nodup)
    (lands : ∀ call ∈ calls, ∀ env, (pass.scope call.2).Reaches zeroEnv env →
      call.1.operands.map (Expr.integer env) ∈ points call.2) :
    ∑ key ∈ keys, ∑ index ∈ points key, pass.handed amount calls key index * weight key index =
      (calls.map fun call => sumOver (fun env => amount call.1 env *
        weight call.2 (call.1.operands.map (Expr.integer env))) (pass.scope call.2) zeroEnv).sum := by
  induction calls with
  | nil => simp [Pass.handed]
  | cons call rest ih =>
      obtain ⟨inKeys, inKeysRest⟩ := List.forall_mem_cons.1 inKeys
      obtain ⟨distinct, distinctRest⟩ := List.forall_mem_cons.1 distinct
      obtain ⟨lands, landsRest⟩ := List.forall_mem_cons.1 lands
      rw [List.map_cons, List.sum_cons, ← ih inKeysRest distinctRest landsRest,
        ← sum_share inKeys distinct lands, ← Finset.sum_add_distrib]
      refine Finset.sum_congr rfl fun key _ => ?_
      rw [← Finset.sum_add_distrib]
      refine Finset.sum_congr rfl fun index _ => ?_
      rw [Pass.handed, Pass.handed, List.map_cons, List.sum_cons, add_mul]

theorem map_declared {declared : List String} {scope : Scope}
    (apart : ∀ name ∈ declared, name ∉ scope.names) {base env : Env}
    (reaches : scope.Reaches base env) : declared.map env = declared.map base :=
  List.map_congr_left fun name member => reaches.outside name (apart name member)

theorem sumOver_seeded {declared : List String} {box : List (Int × Int)} {axes : Scope}
    (distinct : declared.Nodup) (sameLength : declared.length = box.length)
    (distinctAxes : axes.names.Nodup) (apart : ∀ name ∈ declared, name ∉ axes.names) (seed : Grid ℚ)
    (f : Env → ℚ) :
    sumOver (fun env => seed (declared.map env) * f env) (declared.zip box ++ axes) zeroEnv =
      ∑ index ∈ boxPoints box, seed index * sumOver f axes (assign declared index zeroEnv) := by
  rw [sumOver_append, sumOver_box _ distinct sameLength]
  refine Finset.sum_congr rfl fun index member => ?_
  have given : declared.map (assign declared index zeroEnv) = index :=
    map_assign distinct ((mem_boxPoints.1 member).length_eq.symm.trans sameLength.symm)
  rw [← sumOver_mul_left]
  refine sumOver_congr distinctAxes fun env reaches => ?_
  rw [map_declared apart reaches, given]

variable {seed : Grid ℚ} {tangent : Env → Expr → ℚ}

theorem sum_whole {axes : Scope}
    (flows : ∀ env, pass.Flows p env (seed (pass.declared.map env)) fun x => amount x env)
    (uniform : ∀ call ∈ pass.calls p, pass.axes call.2 = axes)
    (distinct : Scope.names (pass.stage ++ axes) |>.Nodup)
    (chains : ∀ env, Scope.Reaches (pass.stage ++ axes) zeroEnv env →
      seed (pass.declared.map env) ≠ 0 →
      Chains (p.ratReads pass.caller).answers env pass.value (tangent env))
    (reads : ∀ call ∈ pass.calls p, ∀ env, tangent env call.1 =
      weight call.2 (call.1.operands.map (Expr.integer env))) :
    ((pass.calls p).map fun call => sumOver (fun env => amount call.1 env *
        weight call.2 (call.1.operands.map (Expr.integer env))) (pass.scope call.2) zeroEnv).sum =
      sumOver (fun env => seed (pass.declared.map env) * tangent env pass.value)
        (pass.stage ++ axes) zeroEnv := by
  have each : (pass.calls p).map (fun call => sumOver (fun env => amount call.1 env *
        weight call.2 (call.1.operands.map (Expr.integer env))) (pass.scope call.2) zeroEnv) =
      (pass.calls p).map fun call => sumOver (fun env => amount call.1 env * tangent env call.1)
        (pass.stage ++ axes) zeroEnv := by
    refine List.map_congr_left fun call member => ?_
    simp only [Pass.scope, uniform call member, reads call member]
  rw [each, ← sumOver_list_sum]
  refine sumOver_congr distinct fun env reaches => ?_
  by_cases isZero : seed (pass.declared.map env) = 0
  · rw [isZero, zero_mul]
    refine List.sum_eq_zero (List.forall_mem_map.2 fun call member => ?_)
    rw [(flows env).vanishes isZero call member, zero_mul]
  · exact ((flows env).balance _ (chains env reaches isZero)).symm

theorem mem_operands_of_slopes {answers : CallValues ℚ} {env : String → ℚ} {x : Expr}
    {edge : Expr × ℚ} (member : edge ∈ slopes answers env [] x) : edge.1 ∈ x.operands := by
  unfold slopes at member
  split at member
  next => cases member
  next => simp_all [Expr.operands]
  next => exact (List.of_mem_zip (a := edge.1) (b := edge.2) member).1
  next =>
    simp only [List.mem_cons, List.not_mem_nil, or_false] at member
    rcases member with rfl | rfl <;> simp [Expr.operands]
  next =>
    simp only [List.mem_cons, List.not_mem_nil, or_false] at member
    rcases member with rfl | rfl <;> simp [Expr.operands]
  next =>
    obtain ⟨arg, isArg, rfl⟩ := List.mem_map.1 member
    exact isArg
  next => cases member
  next => cases member

theorem subnode_of_slopes {answers : CallValues ℚ} {env : String → ℚ} {x : Expr}
    {edge : Expr × ℚ} (member : edge ∈ slopes answers env [] x) : Subnode edge.1 x :=
  subnode_operand (mem_operands_of_slopes member)

theorem subnode_of_entered {root x : Expr} (entered : Entered root x) : Subnode x root := by
  induction entered with
  | refl => exact .here
  | tail _ isBranch ih => exact (subnode_branch isBranch).trans ih

structure IsAdded (value call e : Expr) (id : FuncId) : Prop where
  isSum : ∃ node dtype, value = .node node (.binary .add) dtype [call, e]
  isCall : ∃ name, call.callee? = some (.func id name)
  other : ¬ e.Calls id
  coherent : Coherent value

namespace IsAdded

variable {value call e x : Expr} {id : FuncId} (added : IsAdded value call e id)

include added

theorem ne_call (within : Subnode x e) : x ≠ call := by
  rintro rfl
  exact added.other ⟨x, within, added.isCall⟩

theorem ne_value (within : Subnode x e) : x ≠ value := by
  obtain ⟨node, dtype, rfl⟩ := added.isSum
  rintro rfl
  have := within.sizeOf_le
  simp at this
  omega

theorem value_ne_call : value ≠ call := by
  obtain ⟨node, dtype, rfl⟩ := added.isSum
  obtain ⟨name, isCall⟩ := added.isCall
  rintro same
  rw [← same] at isCall
  cases isCall

theorem listed (member : x ∈ value.differentiable) : x = value ∨ x = call ∨ Subnode x e := by
  rcases Relation.ReflTransGen.cases_head
    ((mem_differentiable_iff added.coherent).1 member) with rfl | ⟨y, isBranch, entered⟩
  · exact .inl rfl
  obtain ⟨node, dtype, rfl⟩ := added.isSum
  have isOperand : y = call ∨ y = e := by simpa [branches, BinaryOp.isBoolean] using isBranch
  refine .inr ?_
  rcases isOperand with rfl | rfl
  · left
    rcases Relation.ReflTransGen.cases_head entered with rfl | ⟨z, isBranch, _⟩
    · rfl
    · obtain ⟨name, isCall⟩ := added.isCall
      cases y with
      | reduction => cases isCall
      | node node' head dtype' operands =>
          cases head with
          | call callee =>
              cases isCall
              cases isBranch
          | _ => cases isCall
  · exact .inr (subnode_of_entered entered)

open Classical in
theorem chains_call (answers : CallValues ℚ) (env : Env) (w : ℚ) :
    Chains answers env value fun x => if x = call ∨ x = value then w else 0 := by
  intro x member noCall
  rcases added.listed member with rfl | rfl | within
  · have notCall := added.ne_call (x := e) .here
    have notValue := added.ne_value (x := e) .here
    obtain ⟨node, dtype, rfl⟩ := added.isSum
    simp [slopes, binarySlopes, notCall, notValue]
  · obtain ⟨name, isCall⟩ := added.isCall
    exact absurd isCall (noCall id name)
  · dsimp only
    rw [if_neg (not_or.2 ⟨added.ne_call within, added.ne_value within⟩)]
    refine (List.sum_eq_zero (List.forall_mem_map.2 fun edge isEdge => ?_)).symm
    have below : Subnode edge.1 e := (subnode_of_slopes isEdge).trans within
    rw [if_neg (not_or.2 ⟨added.ne_call below, added.ne_value below⟩), mul_zero]

open Classical in
theorem chains_rest {answers : CallValues ℚ} {env : Env} {weight : Expr → ℚ}
    (chains : Chains answers env value weight) : Chains answers env value fun x =>
      if x = call then 0 else if x = value then weight e else weight x := by
  intro x member noCall
  rcases added.listed member with rfl | rfl | within
  · have notCall := added.ne_call (x := e) .here
    have notValue := added.ne_value (x := e) .here
    have isOther := added.value_ne_call
    obtain ⟨node, dtype, rfl⟩ := added.isSum
    simp [slopes, binarySlopes, notCall, notValue, isOther]
  · obtain ⟨name, isCall⟩ := added.isCall
    exact absurd isCall (noCall id name)
  · dsimp only
    rw [if_neg (added.ne_call within), if_neg (added.ne_value within), chains x member noCall]
    refine congrArg List.sum (List.map_congr_left fun edge isEdge => ?_)
    have below : Subnode edge.1 e := (subnode_of_slopes isEdge).trans within
    rw [if_neg (added.ne_call below), if_neg (added.ne_value below)]

end IsAdded

theorem sum_added {axes : Scope} {call e : Expr} {id : FuncId}
    (flows : ∀ env, pass.Flows p env (seed (pass.declared.map env)) fun x => amount x env)
    (added : IsAdded pass.value call e id)
    (once : pass.axes (calledStage pass.caller (p.func id)) = [])
    (uniform : ∀ other ∈ pass.calls p, other.1 ≠ call → pass.axes other.2 = axes)
    (distinct : Scope.names (pass.stage ++ axes) |>.Nodup)
    (chains : ∀ env, Scope.Reaches (pass.stage ++ axes) zeroEnv env →
      seed (pass.declared.map env) ≠ 0 →
      Chains (p.ratReads pass.caller).answers env pass.value (tangent env))
    (reads : ∀ call ∈ pass.calls p, ∀ env, tangent env call.1 =
      weight call.2 (call.1.operands.map (Expr.integer env))) :
    ((pass.calls p).map fun call => sumOver (fun env => amount call.1 env *
        weight call.2 (call.1.operands.map (Expr.integer env))) (pass.scope call.2) zeroEnv).sum =
      sumOver (fun env => seed (pass.declared.map env) * tangent env call) pass.stage zeroEnv +
        sumOver (fun env => seed (pass.declared.map env) * tangent env e) (pass.stage ++ axes)
          zeroEnv := by
  classical
  have ownKey {c : Expr × StageKey} (member : c ∈ pass.calls p) (isOwn : c.1 = call) :
      pass.axes c.2 = [] := by
    obtain ⟨name, isCall⟩ := added.isCall
    obtain ⟨_, callee, name', isCall', isKey⟩ := Program.mem_callsAmong.1 member
    rw [isOwn, isCall] at isCall'
    cases isCall'
    rw [isKey, once]
  have notValue {c : Expr × StageKey} (member : c ∈ pass.calls p) : c.1 ≠ pass.value := by
    intro same
    obtain ⟨node, dtype, isSum⟩ := added.isSum
    obtain ⟨_, callee, name', isCall', _⟩ := Program.mem_callsAmong.1 member
    rw [same, isSum] at isCall'
    cases isCall'
  -- The function's own value is read at each point of the stage, the others at each point of the axes too.
  have each {c : Expr × StageKey} (member : c ∈ pass.calls p) :
      sumOver (fun env => amount c.1 env * weight c.2 (c.1.operands.map (Expr.integer env)))
          (pass.scope c.2) zeroEnv =
        sumOver (fun env => if c.1 = call then amount c.1 env * tangent env call else 0)
            pass.stage zeroEnv +
          sumOver (fun env => if c.1 = call then 0 else amount c.1 env * tangent env c.1)
            (pass.stage ++ axes) zeroEnv := by
    by_cases isOwn : c.1 = call
    · simp only [Pass.scope, ownKey member isOwn, List.append_nil, isOwn, if_true, sumOver_zero,
        add_zero, ← isOwn ▸ reads c member]
    · simp only [Pass.scope, uniform c member isOwn, isOwn, if_false, sumOver_zero, zero_add,
        reads c member]
  rw [List.map_congr_left fun c member => each member, List.sum_map_add, ← sumOver_list_sum,
    ← sumOver_list_sum]
  congr 1
  · refine congrArg (fun f => sumOver f pass.stage zeroEnv) (funext fun env => ?_)
    have balance := (flows env).balance _ (added.chains_call _ env (tangent env call))
    rw [if_pos (.inr rfl)] at balance
    rw [balance]
    refine congrArg List.sum (List.map_congr_left fun c member => ?_)
    simp only [notValue member, or_false, mul_ite, mul_zero]
  · refine sumOver_congr distinct fun env reaches => ?_
    by_cases isZero : seed (pass.declared.map env) = 0
    · rw [isZero, zero_mul]
      refine List.sum_eq_zero (List.forall_mem_map.2 fun c member => ?_)
      rw [(flows env).vanishes isZero c member]
      simp
    · have balance := (flows env).balance _ (added.chains_rest (chains env reaches isZero))
      rw [if_neg added.value_ne_call, if_pos rfl] at balance
      rw [balance]
      refine congrArg List.sum (List.map_congr_left fun c member => ?_)
      simp only [notValue member, if_false, mul_ite, mul_zero]

end

end ReverseMode
