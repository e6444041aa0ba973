import ReverseMode.Proofs.Algebra.Root
import ReverseMode.Proofs.Bounds.Interval
import ReverseMode.Proofs.Derivative.Masks
import ReverseMode.Proofs.Exact.Sums
import ReverseMode.Proofs.Nodes.Names
import ReverseMode.Proofs.Nodes.Substitution

namespace ReverseMode

open Expr

structure Restricts (used : List Expr) (condition : Env → Prop) (adjoint e : Expr) : Prop where
  shaped : Shaped e
  binds : ∀ name, Binds e name → Binds adjoint name
  subnode : ∀ y name, y.variableName? = some name →
    (Subnode y e ↔ (∃ x ∈ used, Subnode y x) ∨ Subnode y adjoint)
  free : ∀ name, Free name e ↔ (∃ x ∈ used, Mentions x name) ∨ Free name adjoint
  calls : ∀ callee, e.Calls callee ↔ adjoint.Calls callee
  inside : ∀ (answers : CallValues ℚ) env, condition env → exact answers env e = exact answers env adjoint
  outside : ∀ (answers : CallValues ℚ) env, ¬ condition env → exact answers env e = 0

theorem Restricts.ofMask {used : List Expr} {holds : Env → Prop} {condition adjoint e : Expr}
    (masked : IsMasked condition adjoint e) (plain : Plain condition) (shaped : Shaped adjoint)
    (occurring : ∀ y name, y.variableName? = some name →
      (Subnode y condition ↔ ∃ x ∈ used, Subnode y x))
    (noCalls : ∀ callee, ¬ condition.Calls callee)
    (meaning : ∀ (answers : CallValues ℚ) env, standard (Expr.exact answers env condition) ≠ 0 ↔ holds env) :
    Restricts used holds adjoint e where
  shaped := masked.shaped plain.shaped shaped
  binds name bound := (masked.binds.1 bound).resolve_left (plain.not_binds name)
  subnode y name named := by rw [masked.subnode named, occurring y name named]
  free name := by
    rw [masked.free, plain.free_iff]
    refine or_congr_left ⟨?_, ?_⟩
    · rintro ⟨y, within, named⟩
      obtain ⟨x, member, inside⟩ := (occurring y name named).1 within
      exact ⟨x, member, y, inside, named⟩
    · rintro ⟨x, member, y, within, named⟩
      exact ⟨y, (occurring y name named).2 ⟨x, member, within⟩, named⟩
  calls callee := by simp [masked.calls, noCalls]
  inside answers env here := by rw [masked.exact, if_pos ((meaning answers env).2 here)]
  outside answers env elsewhere := by rw [masked.exact, if_neg (mt (meaning answers env).1 elsewhere)]

theorem Restricts.free_cases {used : List Expr} {condition : Env → Prop} {adjoint e : Expr}
    (restricts : Restricts used condition adjoint e) (shaped : Shaped adjoint)
    (unbound : ∀ x ∈ used, ∀ name, Mentions x name → ¬ Binds adjoint name) {y : Expr}
    {name : String} (within : Subnode y e) (named : y.variableName? = some name)
    (free : Free name e) :
    (∃ x ∈ used, Subnode y x) ∨ Subnode y adjoint ∧ Free name adjoint := by
  rcases (restricts.subnode y name named).1 within with inCondition | inside
  · exact .inl inCondition
  · refine .inr ⟨inside, ?_⟩
    by_cases isBound : Binds adjoint name
    · refine ((restricts.free name).1 free).resolve_left ?_
      rintro ⟨x, member, mentioned⟩
      exact unbound x member name mentioned isBound
    · exact Mentions.free ⟨y, inside, named⟩ shaped isBound

theorem restrictToBounds_sound {r : Registry} {p : Program} {node : NodeId} {domain : String}
    {axis : Nat} {least extent inverse adjoint : Expr} {S : String → Prop} {K : Bool → Prop}
    (heldLeast : r.HoldsClosed least) (heldExtent : r.HoldsClosed extent)
    (heldInverse : r.Holds inverse) (isIndex : Index S K inverse) (held : r.Holds adjoint)
    (shaped : Shaped adjoint) :
    Achieves (restrictToBounds (.reduction node domain axis least extent) inverse adjoint) r p
      fun later left e => left.funcs = p.funcs ∧ later.Holds e ∧
        Restricts [inverse] (fun env => Between (rangeEnds (least, extent)) (inverse.integer env))
          adjoint e := by
  unfold restrictToBounds
  refine Achieves.bind (Achieves.builds (lastIndex_sound heldLeast heldExtent))
    fun r1 p1 last ext1 made1 => ?_
  refine Achieves.bind (simplify_closed made1.2.1.1 made1.2.1.2 fun _ => 0)
    fun r2 p2 high ext2 made2 => ?_
  have ext12 := ext1.trans ext2
  refine Achieves.bind (Achieves.builds (ge_sound (heldInverse.extend ext12)
    (heldLeast.1.extend ext12))) fun r3 p3 above ext3 made3 => ?_
  refine Achieves.bind (Achieves.builds (le_sound (heldInverse.extend (ext12.trans ext3))
    (made2.2.1.extend ext3))) fun r4 p4 below ext4 made4 => ?_
  refine Achieves.bind (Achieves.builds (Builds.binary .and (made3.2.1.extend ext4) made4.2.1))
    fun r5 p5 both ext5 made5 => ?_
  have ext := ((ext12.trans ext3).trans ext4).trans ext5
  refine (Achieves.builds (adjointWhere_sound made5.2.1 (held.extend ext))).mono
    fun r6 p6 e _ made6 => ?_
  obtain ⟨same6, heldResult, masked⟩ := made6
  obtain ⟨same5, _, node', isBoth⟩ := made5
  have closedHigh : Closed high := made2.2.2.closed
  have highValue (env : Env) : high.integer env = (rangeEnds (least, extent)).2 := by
    rw [made2.2.2.integer]
    exact made1.2.2
  have leastValue (env : Env) : least.integer env = (rangeEnds (least, extent)).1 :=
    heldLeast.2.integer_value env
  refine ⟨?_, heldResult, Restricts.ofMask masked ?_ shaped (fun y name named => ?_) (fun callee => ?_)
    fun answers env => ?_⟩
  · rw [same6, same5, made4.1, made3.1, made2.1, made1.1]
  · rw [isBoth]
    exact plain_pair.2 ⟨made3.2.2.plain isIndex.plain heldLeast.2.plain,
      made4.2.2.plain closedHigh.plain isIndex.plain⟩
  · rw [isBoth, subnode_pair named, made3.2.2.subnode named, made4.2.2.subnode named]
    simp [heldLeast.2.no_variable named, closedHigh.no_variable named]
  · rw [isBoth, calls_pair, made3.2.2.calls, made4.2.2.calls]
    simp [isIndex.not_calls, heldLeast.2.not_calls, closedHigh.not_calls]
  · rw [isBoth, exact_node (by simp)]
    simp only [List.map_cons, List.map_nil, headExact, BinaryOp.exact, made3.2.2.exact,
      made4.2.2.exact, isIndex.exact, heldLeast.2.exact, closedHigh.exact, standard_rat,
      truth_ne_zero, Int.cast_le, highValue, leastValue]
    rfl

theorem adjointWhereEqual_sound {r : Registry} {p : Program} {target arg adjoint : Expr}
    {S : String → Prop} {K : Bool → Prop} (heldTarget : r.Holds target) (heldArg : r.Holds arg)
    (isTarget : Index S K target) (isArg : Index S K arg) (held : r.Holds adjoint)
    (shaped : Shaped adjoint) :
    Achieves (do
      let condition ← (Expr.eq target arg : ProgramM Expr)
      (adjointWhere condition adjoint : ProgramM Expr)) r p
      fun later left e => left.funcs = p.funcs ∧ later.Holds e ∧
        Restricts [target, arg] (fun env => target.integer env = arg.integer env) adjoint e := by
  refine Achieves.bind (Achieves.builds (Builds.binary .eq heldTarget heldArg))
    fun r1 p1 both ext1 made1 => ?_
  refine (Achieves.builds (adjointWhere_sound made1.2.1 (held.extend ext1))).mono
    fun r2 p2 e _ made2 => ?_
  obtain ⟨same2, heldResult, masked⟩ := made2
  obtain ⟨same1, _, node', isBoth⟩ := made1
  refine ⟨same2.trans same1, heldResult, Restricts.ofMask masked ?_ shaped (fun y name named => ?_)
    (fun callee => ?_) fun answers env => ?_⟩
  · rw [isBoth]
    exact plain_pair.2 ⟨isTarget.plain, isArg.plain⟩
  · rw [isBoth, subnode_pair named]
    simp
  · rw [isBoth, calls_pair]
    simp [isTarget.not_calls, isArg.not_calls]
  · rw [isBoth, exact_node (by simp)]
    simp only [List.map_cons, List.map_nil, headExact, BinaryOp.exact, isTarget.exact, isArg.exact,
      standard_rat, truth_ne_zero, Int.cast_inj]

def Registry.IsAxis (r : Registry) (ends : Int × Int) (y : Expr) : Prop :=
  ∃ node domain axis least extent, y = .reduction node domain axis least extent ∧
    rangeEnds (least, extent) = ends ∧ r.HoldsClosed least ∧ r.HoldsClosed extent

theorem Registry.IsAxis.extend {r later : Registry} {ends : Int × Int} {y : Expr}
    (isAxis : r.IsAxis ends y) (extended : r.Extends later) : later.IsAxis ends y := by
  obtain ⟨node, domain, axis, least, extent, same, range, heldLeast, heldExtent⟩ := isAxis
  exact ⟨node, domain, axis, least, extent, same, range, heldLeast.extend extended,
    heldExtent.extend extended⟩

def Registry.Scoped (r : Registry) (declared : List String) (scope : Scope) (past : String → Prop)
    (y : Expr) (name : String) : Prop :=
  past name ∧ y.isPureVariable = true ∨
    ∃ ends, (name, ends) ∈ scope ∧
      (name ∈ declared ∧ y.isPureVariable = true ∨ name ∉ declared ∧ r.IsAxis ends y)

def AxesBetween (declared : List String) (scope : Scope) (env : Env) : Prop :=
  ∀ entry ∈ scope, entry.1 ∉ declared → Between entry.2 (env entry.1)

/-- A state of the matching: arguments that remain and an adjoint, whose free variables are those of
a scope. The adjoint uses the declared variables and vanishes where one of them leaves its range
while the reduction variables stay in theirs.
What it binds has names of its own. -/
structure Matching (answers : CallValues ℚ) (declared : List String) (bound : String → Prop)
    (r : Registry) (scope : Scope) (past : String → Prop) (args : List Expr) (adjoint : Expr) :
    Prop where
  heldArgs : r.HoldsAll args
  isIndex : ∀ a ∈ args, Index (fun _ => True) (fun _ => True) a
  held : r.Holds adjoint
  shaped : Shaped adjoint
  binds : ∀ name, Binds adjoint name → bound name
  placed : ∀ e ∈ adjoint :: args, ∀ y name, Subnode y e → y.variableName? = some name →
    Free name e → r.Scoped declared scope past y name
  distinct : scope.names.Nodup
  apart : ∀ name, past name → name ∉ scope.names ∧ name ∉ declared
  unbound : ∀ name, bound name → ¬ past name ∧ name ∉ scope.names
  seeded : ∀ name ∈ scope.names, name ∈ declared → Free name adjoint
  vanishes : ∀ entry ∈ scope, entry.1 ∈ declared → ∀ env, AxesBetween declared scope env →
    ¬ Between entry.2 (env entry.1) → exact answers env adjoint = 0

/-- What matching all arguments achieves: the sum over the scope of the adjoint where the arguments
equal the targets is the sum of the new adjoint over the variables that remain. Each of them is
mentioned, unless the arguments do not depend on it. -/
structure Matched (answers : CallValues ℚ) (scope rest : Scope) (targets args : List Expr)
    (adjoint result : Expr) : Prop where
  sublist : rest.Sublist scope
  sum : ∀ env, sumOver (fun env =>
      if targets.map (Expr.integer env) = args.map (Expr.integer env)
      then exact answers env adjoint else 0) scope env =
    sumOver (fun env => exact answers env result) rest env
  retains : ∀ name ∈ rest.names, Free name adjoint → Free name result
  independent : ∀ name ∈ rest.names, Free name result ∨ ∀ env i,
    args.map (Expr.integer (Function.update env name i)) = args.map (Expr.integer env)
  calls : ∀ callee, result.Calls callee ↔ adjoint.Calls callee

section

variable {answers : CallValues ℚ} {declared : List String} {bound : String → Prop}
  {r later : Registry} {scope : Scope}
  {past : String → Prop} {args : List Expr} {arg adjoint : Expr} {target : Expr} {name : String}

theorem Registry.Scoped.mono {scope' : Scope} {past' : String → Prop} {y : Expr}
    (placed : r.Scoped declared scope past y name) (extended : r.Extends later)
    (pasts : ∀ name, past name → past' name) (kept : ∀ ends, (name, ends) ∈ scope →
      (name, ends) ∈ scope') : later.Scoped declared scope' past' y name := by
  rcases placed with ⟨isPast, isPure⟩ | ⟨ends, member, isDeclared | ⟨other, isAxis⟩⟩
  · exact .inl ⟨pasts name isPast, isPure⟩
  · exact .inr ⟨ends, kept ends member, .inl isDeclared⟩
  · exact .inr ⟨ends, kept ends member, .inr ⟨other, isAxis.extend extended⟩⟩

theorem Matching.extend (matching : Matching answers declared bound r scope past args adjoint)
    (extended : r.Extends later) : Matching answers declared bound later scope past args adjoint :=
  { matching with
    heldArgs := matching.heldArgs.extend extended
    held := matching.held.extend extended
    placed := fun e among y name within named free =>
      (matching.placed e among y name within named free).mono extended (fun _ => id) fun _ => id }

theorem Matching.used (matching : Matching answers declared bound r scope past args adjoint)
    {e : Expr} (among : e ∈ adjoint :: args) (free : Free name e) :
    past name ∨ name ∈ scope.names := by
  obtain ⟨y, within, named⟩ := free.mentions
  rcases matching.placed e among y name within named free with ⟨isPast, _⟩ | ⟨ends, member, _⟩
  · exact .inl isPast
  · exact .inr (List.mem_map.2 ⟨_, member, rfl⟩)

theorem Matching.placed_arg (matching : Matching answers declared bound r scope past args adjoint)
    (member : arg ∈ args) {y : Expr} (within : Subnode y arg) (named : y.variableName? = some name) :
    r.Scoped declared scope past y name :=
  matching.placed arg (.tail _ member) y name within named
    ((matching.isIndex arg member).plain.free_iff.2 ⟨y, within, named⟩)

theorem Matching.used_arg (matching : Matching answers declared bound r scope past args adjoint)
    (member : arg ∈ args) (mentioned : Mentions arg name) : past name ∨ name ∈ scope.names :=
  matching.used (.tail _ member) ((matching.isIndex arg member).plain.free_iff.2 mentioned)

theorem Matching.of_noPivot (matching : Matching answers declared bound r scope past (arg :: args) adjoint)
    (noPivot : choosePivot arg declared = none) (mentioned : Mentions arg name) : past name := by
  have plain := (matching.isIndex arg (.head _)).plain
  obtain ⟨v, member, isName⟩ := List.mem_map.1 (plain.mem_freeNames.2 mentioned)
  obtain ⟨within, isVariable, _⟩ := mem_freeVariables plain.shaped member
  unfold choosePivot at noPivot
  dsimp only at noPivot
  split at noPivot
  next => cases noPivot
  next noDeclared =>
    have named : v.variableName? = some name := isName ▸ isVariable
    rcases matching.placed_arg (.head _) within named with
      ⟨isPast, _⟩ | ⟨ends, _, ⟨isDeclared, isPure⟩ | ⟨_, node, domain, axis, least, extent, same, _⟩⟩
    · exact isPast
    · have refused := List.find?_eq_none.1 noDeclared v member
      simp [isPure, isName, isDeclared] at refused
    · have refused := List.find?_eq_none.1 noPivot v member
      simp [same, isReductionVariable] at refused

structure IsPivot (r : Registry) (declared : List String) (scope : Scope) (arg pivot : Expr)
    (name : String) (ends : Int × Int) : Prop where
  named : pivot.variableName? = some name
  within : Subnode pivot arg
  member : (name, ends) ∈ scope
  kind : name ∈ declared ∧ pivot.isPureVariable = true ∨ name ∉ declared ∧ r.IsAxis ends pivot

theorem Matching.isPivot (matching : Matching answers declared bound r scope past (arg :: args) adjoint)
    {pivot : Expr} (chosen : choosePivot arg declared = some pivot) :
    ∃ ends, IsPivot r declared scope arg pivot pivot.name ends := by
  have plain := (matching.isIndex arg (.head _)).plain
  have choice : pivot ∈ arg.freeVariables ∧
      (pivot.isPureVariable = true ∧ pivot.name ∈ declared ∨ pivot.isReductionVariable = true) := by
    unfold choosePivot at chosen
    dsimp only at chosen
    split at chosen
    next v found =>
      cases chosen
      refine ⟨List.mem_of_find?_eq_some found, .inl ?_⟩
      simpa using List.find?_some found
    next => exact ⟨List.mem_of_find?_eq_some chosen, .inr (List.find?_some chosen)⟩
  obtain ⟨within, named, _⟩ := mem_freeVariables plain.shaped choice.1
  rcases matching.placed_arg (.head _) within named with
    ⟨isPast, isPure⟩ | ⟨ends, member, kind⟩
  · rcases choice.2 with ⟨_, isDeclared⟩ | isReduction
    · exact absurd isDeclared (matching.apart _ isPast).2
    · cases pivot <;> simp_all [isPureVariable, isReductionVariable]
  · exact ⟨ends, named, within, member, kind⟩

theorem invertArgument_sound {p : Program} {ctx : CallContext} {call pivot : Expr} {position : Nat}
    {targetName : String} (heldTarget : r.Holds target) (heldArg : r.Holds arg)
    (isTarget : IsIndexVariable target targetName) (isIndex : Index (fun _ => True) (fun _ => True) arg)
    (within : Subnode pivot arg) (named : pivot.variableName? = some name) :
    Achieves (invertArgument ctx call position arg pivot target) r p fun later left inverse =>
      left.funcs = p.funcs ∧ later.Holds inverse ∧
      Index (fun n => n = targetName ∨ Mentions arg n ∧ n ≠ name) (fun _ => False) inverse ∧
      VariablesFrom (fun y => Subnode y target ∨ Subnode y arg) inverse ∧
      ∀ env, env targetName = arg.integer env ↔ env name = inverse.integer env := by
  unfold invertArgument
  split
  next isVariable =>
    refine Achieves.pure ⟨rfl, heldTarget, isTarget.index.mono (fun _ same => .inl same)
      fun _ no => no, fun y inside _ => .inl inside, fun env => ?_⟩
    have isPivot : arg = pivot := by
      cases isIndex with
      | var =>
          rcases subnode_node.1 within with same | ⟨y, member, _⟩
          · exact same.symm
          · cases member
      | axis => exact (subnode_reduction.1 within).symm
      | int | add | sub | multiple | extremum => simp [variableName?] at isVariable
    rw [isPivot, integer_variable named, isTarget.integer, eq_comm]
  next =>
    refine Achieves.bind (Achieves.builds (Builds.binary .eq heldTarget heldArg))
      fun r1 p1 equation ext1 made1 => ?_
    obtain ⟨same1, _, node, rfl⟩ := made1
    refine Achieves.bind (Achieves.buildsOk (solve_sound (heldTarget.extend ext1)
      (heldArg.extend ext1) (isTarget.index.mono (fun _ _ => trivial) fun _ no => no.elim) isIndex))
      fun r2 p2 solution ext2 made2 => ?_
    obtain ⟨same2, solved⟩ := made2
    split
    next first inverse isSolved isPair =>
      rw [variableName?_eq_name named] at solved
      obtain ⟨first', inverse', isPair', held, index, vars, solves⟩ := solved isSolved
      rw [isPair'] at isPair
      cases isPair
      refine Achieves.pure ⟨same2.trans same1, held, index.mono ?_ fun _ no => no, vars,
        fun env => ?_⟩
      · rintro n ⟨inTarget | inArg, different⟩
        · obtain ⟨y, inside, isName⟩ := inTarget
          exact .inl (isTarget.subnode inside isName).1
        · exact .inr ⟨inArg, different⟩
      · rw [← isTarget.integer env, solves env]
    next => exact Achieves.throw

theorem Matching.skip {t : String} {e : Expr}
    (matching : Matching answers declared bound r scope past (arg :: args) adjoint)
    (extended : r.Extends later) (isTarget : IsIndexVariable target t)
    (fresh : t ∉ scope.names ∧ t ∉ declared) (unbound : ¬ bound t)
    (only : ∀ name, Mentions arg name → past name) (held : later.Holds e)
    (restricts : Restricts [target, arg] (fun env => target.integer env = arg.integer env) adjoint e) :
    Matching answers declared bound later scope (fun n => past n ∨ n = t) args e where
  heldArgs a member := (matching.heldArgs a (.tail _ member)).extend extended
  isIndex a member := matching.isIndex a (.tail _ member)
  held := held
  shaped := restricts.shaped
  binds name isBound := matching.binds name (restricts.binds name isBound)
  placed := by
    have older (x : Expr) (among : x ∈ adjoint :: arg :: args) (y : Expr) (name : String)
        (within : Subnode y x) (named : y.variableName? = some name) (free : Free name x) :
        later.Scoped declared scope (fun n => past n ∨ n = t) y name :=
      (matching.placed x among y name within named free).mono extended (fun _ => .inl) fun _ => id
    refine List.forall_mem_cons.2 ⟨fun y name within named free => ?_, fun x member =>
      older x (.tail _ (.tail _ member))⟩
    have notBound : ∀ x ∈ [target, arg], ∀ n, Mentions x n → ¬ Binds adjoint n := by
      intro x member n mentioned isBound
      obtain ⟨notPast, notScope⟩ := matching.unbound n (matching.binds n isBound)
      simp only [List.mem_cons, List.not_mem_nil, or_false] at member
      rcases member with rfl | rfl
      · obtain ⟨z, inside, named⟩ := mentioned
        rw [(isTarget.subnode inside named).1] at isBound
        exact unbound (matching.binds t isBound)
      · exact (matching.used_arg (.head _) mentioned).elim notPast notScope
    rcases restricts.free_cases matching.shaped notBound within named free with
      ⟨x, member, inside⟩ | ⟨inside, isFree⟩
    · simp only [List.mem_cons, List.not_mem_nil, or_false] at member
      rcases member with rfl | rfl
      · obtain ⟨isName, isPure⟩ := isTarget.subnode inside named
        exact .inl ⟨.inr isName, isPure⟩
      · exact older _ (.tail _ (.head _)) y name inside named
          ((matching.isIndex x (.head _)).plain.free_iff.2 ⟨y, inside, named⟩)
    · exact older _ (.head _) y name inside named isFree
  distinct := matching.distinct
  apart name either := either.elim (matching.apart name) fun same => same ▸ fresh
  unbound name isBound := by
    obtain ⟨notPast, notScope⟩ := matching.unbound name isBound
    refine ⟨?_, notScope⟩
    rintro (isPast | rfl)
    · exact notPast isPast
    · exact unbound isBound
  seeded name member isDeclared :=
    (restricts.free name).2 (.inr (matching.seeded name member isDeclared))
  vanishes entry member isDeclared env between leaves := by
    by_cases equal : target.integer env = arg.integer env
    · rw [restricts.inside answers env equal]
      exact matching.vanishes entry member isDeclared env between leaves
    · exact restricts.outside answers env equal

theorem Matched.skip {e result : Expr} {rest : Scope} {targets : List Expr}
    (matching : Matching answers declared bound r scope past (arg :: args) adjoint)
    (only : ∀ name, Mentions arg name → past name)
    (restricts : Restricts [target, arg] (fun env => target.integer env = arg.integer env) adjoint e)
    (matched : Matched answers scope rest targets args e result) :
    Matched answers scope rest (target :: targets) (arg :: args) adjoint result where
  sublist := matched.sublist
  sum env := by
    rw [← matched.sum env]
    congr 1
    funext env
    simp only [List.map_cons, List.cons.injEq]
    by_cases equal : target.integer env = arg.integer env
    · simp [equal, restricts.inside answers env equal]
    · simp [equal, restricts.outside answers env equal]
  retains name member mentioned :=
    matched.retains name member ((restricts.free name).2 (.inr mentioned))
  independent name member := by
    refine (matched.independent name member).imp_right fun others env i => ?_
    have here : arg.integer (Function.update env name i) = arg.integer env := by
      refine (matching.isIndex arg (.head _)).own.integer_congr fun other mentioned => ?_
      have inScope : name ∈ scope.names := (matched.sublist.map Prod.fst).subset member
      exact Function.update_of_ne
        (ne_of_mem_of_not_mem inScope (matching.apart other (only other mentioned)).1).symm _ _
    rw [List.map_cons, List.map_cons, here, others env i]
  calls callee := (matched.calls callee).trans (restricts.calls callee)

def Scope.without (scope : Scope) (name : String) : Scope := scope.filter fun entry => entry.1 ≠ name

theorem Scope.mem_without {entry : String × Int × Int} {scope : Scope} {name : String} :
    entry ∈ scope.without name ↔ entry ∈ scope ∧ entry.1 ≠ name := by
  simp [Scope.without]

theorem Scope.mem_names_without {other : String} {scope : Scope} {name : String} :
    other ∈ (scope.without name).names ↔ other ∈ scope.names ∧ other ≠ name := by
  simp only [Scope.names, List.mem_map, Scope.mem_without]
  constructor
  · rintro ⟨entry, ⟨member, different⟩, rfl⟩
    exact ⟨⟨entry, member, rfl⟩, different⟩
  · rintro ⟨⟨entry, member, rfl⟩, different⟩
    exact ⟨entry, ⟨member, different⟩, rfl⟩

theorem Scope.without_sublist (scope : Scope) (name : String) :
    (scope.without name).Sublist scope := List.filter_sublist

theorem Scope.perm_without {scope : Scope} {name : String} {ends : Int × Int}
    (distinct : scope.names.Nodup) (member : (name, ends) ∈ scope) :
    scope.Perm ((name, ends) :: scope.without name) := by
  induction scope with
  | nil => cases member
  | cons entry rest ih =>
      obtain ⟨absent, distinctRest⟩ := List.nodup_cons.1 distinct
      rcases List.mem_cons.1 member with rfl | later
      · have kept : Scope.without ((name, ends) :: rest) name = rest := by
          have others : Scope.without rest name = rest := by
            refine List.filter_eq_self.2 fun other inside => ?_
            simp only [ne_eq, decide_not, Bool.not_eq_true', decide_eq_false_iff_not]
            exact fun same => absent (List.mem_map.2 ⟨other, inside, same⟩)
          rw [Scope.without, List.filter_cons_of_neg (by simp)]
          exact others
        rw [kept]
      · have different : entry.1 ≠ name := by
          intro same
          exact absent (List.mem_map.2 ⟨_, later, same.symm⟩)
        have kept : Scope.without (entry :: rest) name = entry :: Scope.without rest name := by
          rw [Scope.without, List.filter_cons_of_pos (by simpa using different)]
          rfl
        rw [kept]
        exact ((ih distinctRest later).cons entry).trans (List.Perm.swap _ _ _)

theorem find?_single (name other : String) (x : Expr) :
    Replacements.find? [(name, x)] other = if other = name then some x else none := by
  unfold Replacements.find?
  by_cases same : other = name
  · simp [same]
  · simp [List.lookup_cons, beq_false_of_ne same, same]

theorem gives_single (name other m : String) (x : Expr) :
    Replacements.Gives [(name, x)] other m ↔ if other = name then Mentions x m else other = m := by
  unfold Replacements.Gives
  rw [find?_single]
  split <;> simp_all

theorem apply_single (name : String) (x : Expr) (env : Env) :
    Replacements.apply [(name, x)] env = Function.update env name (x.integer env) := by
  funext other
  unfold Replacements.apply
  rw [find?_single]
  by_cases same : other = name
  · subst same
    simp
  · simp [same]

structure Inverts (declared : List String) (bound : String → Prop) (r later : Registry)
    (scope : Scope) (past : String → Prop) (arg pivot target : Expr) (name t : String) (ends : Int × Int)
    (inverse : Expr) : Prop where
  extended : r.Extends later
  isPivot : IsPivot r declared scope arg pivot name ends
  isTarget : IsIndexVariable target t
  fresh : ¬ past t ∧ t ∉ scope.names ∧ t ∉ declared
  unbound : ¬ bound t
  isIndex : Index (fun n => n = t ∨ Mentions arg n ∧ n ≠ name) (fun _ => False) inverse
  vars : VariablesFrom (fun y => Subnode y target ∨ Subnode y arg) inverse
  solves : ∀ env, env t = arg.integer env ↔ env name = inverse.integer env

namespace Inverts

variable {pivot inverse substituted e : Expr} {t : String} {ends : Int × Int}

theorem inScope (inverts : Inverts declared bound r later scope past arg pivot target name t ends inverse) :
    name ∈ scope.names := List.mem_map.2 ⟨_, inverts.isPivot.member, rfl⟩

theorem other (inverts : Inverts declared bound r later scope past arg pivot target name t ends inverse) :
    t ≠ name := fun same => inverts.fresh.2.1 (same ▸ inverts.inScope)

theorem indices (inverts : Inverts declared bound r later scope past arg pivot target name t ends inverse) :
    Replacements.Indices [(name, inverse)] := by
  intro other x found
  rw [find?_single] at found
  split at found
  · cases found
    exact inverts.isIndex.mono (fun _ _ => trivial) fun _ no => no.elim
  · cases found

theorem ignores (inverts : Inverts declared bound r later scope past arg pivot target name t ends inverse)
    (env : Env) (i : Int) : inverse.integer (Function.update env name i) = inverse.integer env := by
  refine inverts.isIndex.integer_congr fun other known => Function.update_of_ne ?_ _ _
  rcases known with rfl | ⟨_, different⟩
  · exact inverts.other
  · exact different

theorem avoids
    (inverts : Inverts declared bound r later scope past arg pivot target name t ends inverse)
    (matching : Matching answers declared bound r scope past (arg :: args) adjoint) :
    Replacements.Avoids [(name, inverse)] adjoint := by
  intro other isBound
  have isName := matching.binds other isBound
  obtain ⟨notPast, notScope⟩ := matching.unbound other isName
  refine ⟨?_, fun n x found mentioned => ?_⟩
  · rw [find?_single, if_neg]
    rintro rfl
    exact notScope inverts.inScope
  · rw [find?_single] at found
    split at found
    · cases found
      rcases inverts.isIndex.names mentioned with rfl | ⟨inArg, _⟩
      · exact inverts.unbound isName
      · exact (matching.used_arg (.head _) inArg).elim notPast notScope
    · cases found

theorem placed (inverts : Inverts declared bound r later scope past arg pivot target name t ends inverse)
    (matching : Matching answers declared bound r scope past (arg :: args) adjoint) {y : Expr} {n : String}
    (within : Subnode y inverse) (named : y.variableName? = some n) :
    later.Scoped declared (scope.without name) (fun n => past n ∨ n = t) y n := by
  have known : n = t ∨ Mentions arg n ∧ n ≠ name := inverts.isIndex.names ⟨y, within, named⟩
  rcases inverts.vars y within (by simp [named]) with inTarget | inArg
  · obtain ⟨isName, isPure⟩ := inverts.isTarget.subnode inTarget named
    exact .inl ⟨.inr isName, isPure⟩
  · refine (matching.placed_arg (.head _) inArg named).mono inverts.extended
      (fun _ => .inl) fun ends' member => Scope.mem_without.2 ⟨member, ?_⟩
    rcases known with rfl | ⟨_, different⟩
    · exact inverts.other
    · exact different

theorem index_replaced
    (inverts : Inverts declared bound r later scope past arg pivot target name t ends inverse)
    {x x' : Expr} (isIndex : Index (fun _ => True) (fun _ => True) x)
    (replaced : Replaced [(name, inverse)] x x') : Index (fun _ => True) (fun _ => True) x' := by
  refine replaced.index isIndex (fun other z _ found => ?_) fun _ _ _ => trivial
  rw [find?_single] at found
  split at found
  · cases found
    exact inverts.isIndex.mono (fun _ _ => trivial) fun _ no => no
  · cases found

theorem placed_replaced
    (inverts : Inverts declared bound r later scope past arg pivot target name t ends inverse)
    (matching : Matching answers declared bound r scope past (arg :: args) adjoint) {x x' y : Expr}
    {n : String} (among : x ∈ adjoint :: arg :: args) (shaped : Shaped x)
    (avoids : Replacements.Avoids [(name, inverse)] x) (replaced : Replaced [(name, inverse)] x x')
    (within : Subnode y x') (named : y.variableName? = some n) (free : Free n x') :
    later.Scoped declared (scope.without name) (fun n => past n ∨ n = t) y n := by
  rcases replaced.free_cases inverts.indices avoids shaped within named free with
    ⟨inside, isFree, kept⟩ | ⟨m, z, _, found, inside⟩
  · refine (matching.placed x among y n inside named isFree).mono inverts.extended (fun _ => .inl)
      fun ends' member => Scope.mem_without.2 ⟨member, ?_⟩
    rw [find?_single] at kept
    rintro rfl
    simp at kept
  · rw [find?_single] at found
    split at found
    · cases found
      exact inverts.placed matching inside named
    · cases found

theorem axesBetween
    (inverts : Inverts declared bound r later scope past arg pivot target name t ends inverse)
    (matching : Matching answers declared bound r scope past (arg :: args) adjoint) {env : Env}
    (between : AxesBetween declared (scope.without name) env)
    (inRange : name ∉ declared → Between ends (inverse.integer env)) :
    AxesBetween declared scope (Function.update env name (inverse.integer env)) := by
  intro entry member notDeclared
  by_cases same : entry.1 = name
  · have isPivot : entry = (name, ends) :=
      List.inj_on_of_nodup_map matching.distinct member inverts.isPivot.member same
    rw [isPivot] at notDeclared ⊢
    rw [Function.update_self]
    exact inRange notDeclared
  · rw [Function.update_of_ne same]
    exact between entry (Scope.mem_without.2 ⟨member, same⟩) notDeclared

end Inverts

/-- The adjoint after the pivot was replaced by its inverse and, where it is a reduction variable,
restricted to its bounds. -/
structure Narrows (declared : List String) (r : Registry) (name : String) (ends : Int × Int)
    (inverse adjoint substituted : Expr) (used : List Expr) (condition : Env → Prop) (e : Expr) :
    Prop where
  replaced : Replaced [(name, inverse)] adjoint substituted
  held : r.Holds e
  restricts : Restricts used condition substituted e
  only : ∀ x ∈ used, x = inverse
  covers : (inverse ∈ used ∧ ∀ env, condition env ↔ Between ends (inverse.integer env)) ∨
    name ∈ declared ∧ ∀ env, condition env

theorem Matching.pivot {pivot inverse substituted e : Expr} {t : String} {ends : Int × Int}
    {used args' : List Expr} {condition : Env → Prop}
    (matching : Matching answers declared bound r scope past (arg :: args) adjoint)
    (inverts : Inverts declared bound r later scope past arg pivot target name t ends inverse)
    (narrows : Narrows declared later name ends inverse adjoint substituted used condition e)
    (heldOthers : later.HoldsAll args')
    (others : List.Forall₂ (Replaced [(name, inverse)]) args args') :
    Matching answers declared bound later (scope.without name) (fun n => past n ∨ n = t) args' e where
  heldArgs := heldOthers
  isIndex a' member := by
    have related := Replaced.operands_induction (P := fun _ x' =>
      Index (fun _ => True) (fun _ => True) x') others fun x member x' =>
        inverts.index_replaced (matching.isIndex x (.tail _ member))
    obtain ⟨_, isIndex⟩ := forall₂_mem_right related member
    exact isIndex
  held := narrows.held
  shaped := narrows.restricts.shaped
  binds n isBound := matching.binds n (narrows.replaced.binds inverts.indices
    (narrows.restricts.binds n isBound))
  placed := by
    have avoids := inverts.avoids matching
    have shaped := narrows.replaced.shaped inverts.indices matching.shaped
    refine List.forall_mem_cons.2 ⟨fun y n within named free => ?_,
      fun x' member y n within named free => ?_⟩
    · have notBound : ∀ x ∈ used, ∀ m, Mentions x m → ¬ Binds substituted m := by
        intro x isUsed m mentioned isBound
        rw [narrows.only x isUsed] at mentioned
        have older := narrows.replaced.binds inverts.indices isBound
        refine (avoids m older).2 name inverse ?_ mentioned
        rw [find?_single, if_pos rfl]
      rcases narrows.restricts.free_cases shaped notBound within named free with
        ⟨x, isUsed, inside⟩ | ⟨inside, isFree⟩
      · rw [narrows.only x isUsed] at inside
        exact inverts.placed matching inside named
      · exact inverts.placed_replaced matching (.head _) matching.shaped avoids narrows.replaced
          inside named isFree
    · have related := Replaced.operands_induction (P := fun x x' =>
        x ∈ args ∧ Replaced [(name, inverse)] x x') others fun x member x' replaced =>
          ⟨member, replaced⟩
      obtain ⟨x, among, replaced⟩ := forall₂_mem_right related member
      have plain := (matching.isIndex x (.tail _ among)).plain
      exact inverts.placed_replaced matching (.tail _ (.tail _ among)) plain.shaped
        (fun m isBound => absurd isBound (plain.not_binds m)) replaced within named free
  distinct := List.Nodup.sublist ((Scope.without_sublist scope name).map Prod.fst) matching.distinct
  apart n either := by
    rcases either with isPast | rfl
    · exact ⟨fun member => (matching.apart n isPast).1 (Scope.mem_names_without.1 member).1,
        (matching.apart n isPast).2⟩
    · exact ⟨fun member => inverts.fresh.2.1 (Scope.mem_names_without.1 member).1,
        inverts.fresh.2.2⟩
  unbound n isBound := by
    obtain ⟨notPast, notScope⟩ := matching.unbound n isBound
    refine ⟨?_, fun member => notScope (Scope.mem_names_without.1 member).1⟩
    rintro (isPast | rfl)
    · exact notPast isPast
    · exact inverts.unbound isBound
  seeded n member isDeclared := by
    obtain ⟨inScope, different⟩ := Scope.mem_names_without.1 member
    refine (narrows.restricts.free n).2 (.inr ((narrows.replaced.free inverts.indices
      (inverts.avoids matching)).2 ⟨n, matching.seeded n inScope isDeclared, ?_⟩))
    rw [gives_single, if_neg different]
  vanishes entry member isDeclared env between leaves := by
    obtain ⟨inScope, different⟩ := Scope.mem_without.1 member
    -- Where the condition fails, the new adjoint vanishes in any case.
    by_cases holds : condition env
    · rw [narrows.restricts.inside answers env holds, narrows.replaced.exact inverts.indices
        (inverts.avoids matching), apply_single]
      refine matching.vanishes entry inScope isDeclared _
        (inverts.axesBetween matching between fun notDeclared => ?_) ?_
      · exact ((narrows.covers.resolve_right fun either => notDeclared either.1).2 env).1 holds
      · rw [Function.update_of_ne different]
        exact leaves
    · exact narrows.restricts.outside answers env holds

theorem Narrows.exact {pivot inverse substituted e : Expr} {t : String} {ends : Int × Int}
    {used : List Expr} {condition : Env → Prop}
    (matching : Matching answers declared bound r scope past (arg :: args) adjoint)
    (inverts : Inverts declared bound r later scope past arg pivot target name t ends inverse)
    (narrows : Narrows declared later name ends inverse adjoint substituted used condition e)
    {env : Env} (between : AxesBetween declared (scope.without name) env) : Expr.exact answers env e =
      if ends.1 ≤ inverse.integer env ∧ inverse.integer env ≤ ends.2
      then Expr.exact answers (Function.update env name (inverse.integer env)) adjoint else 0 := by
  have replaced : Expr.exact answers env substituted =
      Expr.exact answers (Function.update env name (inverse.integer env)) adjoint := by
    rw [narrows.replaced.exact inverts.indices (inverts.avoids matching), apply_single]
  rcases narrows.covers with ⟨_, covers⟩ | ⟨isDeclared, always⟩
  · split
    next between =>
      rw [narrows.restricts.inside answers env ((covers env).2 between), replaced]
    next leaves => exact narrows.restricts.outside answers env (mt (covers env).1 leaves)
  · rw [narrows.restricts.inside answers env (always env), replaced]
    split
    next => rfl
    next leaves =>
      refine matching.vanishes _ inverts.isPivot.member isDeclared _
        (inverts.axesBetween matching between fun notDeclared => absurd isDeclared notDeclared) ?_
      rw [Function.update_self]
      exact leaves

theorem Inverts.args_replaced {pivot inverse : Expr} {t : String} {ends : Int × Int} {args' : List Expr}
    (matching : Matching answers declared bound r scope past (arg :: args) adjoint)
    (inverts : Inverts declared bound r later scope past arg pivot target name t ends inverse)
    (others : List.Forall₂ (Replaced [(name, inverse)]) args args') (env : Env) :
    args'.map (Expr.integer env) =
      args.map (Expr.integer (Function.update env name (inverse.integer env))) := by
  rw [← List.forall₂_eq_eq_eq, List.forall₂_map_left_iff, List.forall₂_map_right_iff]
  refine List.Forall₂.flip (Replaced.operands_induction others fun x member x' replaced => ?_)
  have isIndex := matching.isIndex x (.tail _ member)
  change x'.integer env = x.integer _
  rw [replaced.integer isIndex (inverts.index_replaced isIndex replaced) inverts.indices, apply_single]

/-- The arguments do not depend on a variable on which neither the inverse nor the replaced arguments
do. For the target may be given the value of the argument, which then determines the pivot. -/
theorem Inverts.independent {pivot inverse : Expr} {t n : String} {ends : Int × Int}
    {args' : List Expr}
    (matching : Matching answers declared bound r scope past (arg :: args) adjoint)
    (inverts : Inverts declared bound r later scope past arg pivot target name t ends inverse)
    (others : List.Forall₂ (Replaced [(name, inverse)]) args args')
    (inScope : n ∈ scope.names) (different : n ≠ name) (absent : ¬ Mentions inverse n)
    (unaffected : ∀ env i,
      args'.map (Expr.integer (Function.update env n i)) = args'.map (Expr.integer env))
    (env : Env) (i : Int) : (arg :: args).map (Expr.integer (Function.update env n i)) =
      (arg :: args).map (Expr.integer env) := by
  have ignores (x : Expr) (among : x ∈ arg :: args) (env : Env) (k : Int) :
      x.integer (Function.update env t k) = x.integer env := by
    refine (matching.isIndex x among).own.integer_congr fun other mentioned =>
      Function.update_of_ne ?_ _ _
    rintro rfl
    rcases matching.used_arg among mentioned with isPast | inScope
    · exact inverts.fresh.1 isPast
    · exact inverts.fresh.2.1 inScope
  have otherTarget : t ≠ n := fun same => inverts.fresh.2.1 (same ▸ inScope)
  let before := Function.update env t (arg.integer env)
  let after := Function.update before n i
  have pivotBefore : before name = inverse.integer before := by
    rw [← inverts.solves, ignores arg (.head _)]
    exact Function.update_self _ _ _
  have pivotAfter : after name = inverse.integer after := by
    rw [show after name = before name from Function.update_of_ne (Ne.symm different) _ _,
      pivotBefore]
    refine (inverts.isIndex.own.integer_congr fun other mentioned =>
      Function.update_of_ne ?_ _ _).symm
    rintro rfl
    exact absent mentioned
  have unfolded (x : Expr) (among : x ∈ arg :: args) :
      x.integer (Function.update env n i) = x.integer after := by
    rw [show after = Function.update (Function.update env n i) t (arg.integer env) from
      Function.update_comm otherTarget _ _ _, ignores x among]
  have sameArg : arg.integer (Function.update env n i) = arg.integer env := by
    rw [unfolded arg (.head _), ← (inverts.solves after).2 pivotAfter]
    exact (Function.update_of_ne otherTarget _ _).trans (Function.update_self _ _ _)
  have sameRest : args.map (Expr.integer (Function.update env n i)) =
      args.map (Expr.integer env) := by
    have atAfter := inverts.args_replaced matching others after
    have atBefore := inverts.args_replaced matching others before
    rw [← pivotAfter, Function.update_eq_self] at atAfter
    rw [← pivotBefore, Function.update_eq_self] at atBefore
    rw [List.map_congr_left fun x member => unfolded x (.tail _ member), ← atAfter,
      unaffected before i, atBefore]
    exact List.map_congr_left fun x member => ignores x (.tail _ member) env _
  rw [List.map_cons, List.map_cons, sameArg, sameRest]

theorem Matched.pivot {pivot inverse substituted e result : Expr} {t : String} {ends : Int × Int}
    {used args' targets : List Expr} {rest : Scope} {condition : Env → Prop}
    (matching : Matching answers declared bound r scope past (arg :: args) adjoint)
    (inverts : Inverts declared bound r later scope past arg pivot target name t ends inverse)
    (narrows : Narrows declared later name ends inverse adjoint substituted used condition e)
    (heldOthers : later.HoldsAll args')
    (others : List.Forall₂ (Replaced [(name, inverse)]) args args')
    (differs : ∀ x ∈ targets, ∃ t', IsIndexVariable x t' ∧ t' ≠ name)
    (matched : Matched answers (scope.without name) rest targets args' e result) :
    Matched answers scope rest (target :: targets) (arg :: args) adjoint result := by
  have next := matching.pivot inverts narrows heldOthers others
  have sameTargets (env : Env) (i : Int) : targets.map (Expr.integer (Function.update env name i)) =
      targets.map (Expr.integer env) := by
    refine List.map_congr_left fun x member => ?_
    obtain ⟨t', isTarget, different⟩ := differs x member
    rw [isTarget.integer, isTarget.integer, Function.update_of_ne different]
  refine ⟨matched.sublist.trans (Scope.without_sublist scope name), fun env => ?_,
    fun n member mentioned => ?_, fun n member => ?_, fun callee => ?_⟩
  · have split : (fun env => if (target :: targets).map (Expr.integer env) =
          (arg :: args).map (Expr.integer env) then exact answers env adjoint else 0) =
        fun env => if target.integer env = arg.integer env then
          if targets.map (Expr.integer env) = args.map (Expr.integer env)
          then exact answers env adjoint else 0 else 0 := by
      funext env
      by_cases equal : target.integer env = arg.integer env <;> simp [equal]
    have solves (env : Env) :
        target.integer env = arg.integer env ↔ env name = inverse.integer env := by
      rw [inverts.isTarget.integer]
      exact inverts.solves env
    rw [split, sumOver_perm (Scope.perm_without matching.distinct inverts.isPivot.member)
      matching.distinct, sumOver_determined
      (fun member => (Scope.mem_names_without.1 member).2 rfl) next.distinct solves inverts.ignores,
      ← matched.sum env]
    refine sumOver_congr next.distinct fun env reaches => ?_
    rw [narrows.exact matching inverts fun entry member _ => reaches.between entry member,
      sameTargets, inverts.args_replaced matching others]
    split <;> simp
  · have inWithout := (matched.sublist.map Prod.fst).subset member
    refine matched.retains n member ((narrows.restricts.free n).2 (.inr
      ((narrows.replaced.free inverts.indices (inverts.avoids matching)).2 ⟨n, mentioned, ?_⟩)))
    rw [gives_single, if_neg (Scope.mem_names_without.1 inWithout).2]
  · obtain ⟨inScope, different⟩ :=
      Scope.mem_names_without.1 ((matched.sublist.map Prod.fst).subset member)
    by_cases inInverse : Mentions inverse n
    · refine .inl (matched.retains n member ((narrows.restricts.free n).2 ?_))
      rcases narrows.covers with ⟨isUsed, _⟩ | ⟨isDeclared, _⟩
      · exact .inl ⟨inverse, isUsed, inInverse⟩
      · refine .inr ((narrows.replaced.free inverts.indices (inverts.avoids matching)).2 ⟨name,
          matching.seeded name inverts.inScope isDeclared, ?_⟩)
        rwa [gives_single, if_pos rfl]
    · refine (matched.independent n member).imp_right fun unaffected env i => ?_
      exact inverts.independent matching others inScope different inInverse unaffected env i
  · rw [matched.calls, narrows.restricts.calls, narrows.replaced.calls inverts.indices matching.shaped]

theorem restrictToPivot_sound {p : Program} {pivot inverse substituted : Expr} {t : String}
    {ends : Int × Int} {base : Registry}
    (matching : Matching answers declared bound base scope past (arg :: args) adjoint)
    (inverts : Inverts declared bound base r scope past arg pivot target name t ends inverse)
    (extended : r.Extends later) (heldInverse : later.Holds inverse)
    (held : later.Holds substituted) (replaced : Replaced [(name, inverse)] adjoint substituted) :
    Achieves (restrictToBounds pivot inverse substituted) later p fun last left e =>
      left.funcs = p.funcs ∧ ∃ used condition,
        Narrows declared last name ends inverse adjoint substituted used condition e := by
  have shaped := replaced.shaped inverts.indices matching.shaped
  rcases inverts.isPivot.kind with ⟨isDeclared, isPure⟩ |
    ⟨other, node, domain, axis, least, extent, rfl, range, heldLeast, heldExtent⟩
  · have unchanged : restrictToBounds pivot inverse substituted = Pure.pure substituted := by
      cases pivot with
      | node => rfl
      | reduction => cases isPure
    rw [unchanged]
    refine Achieves.pure ⟨rfl, [], fun _ => True, replaced, held, ?_, ?_, .inr ⟨isDeclared, ?_⟩⟩
    · refine ⟨shaped, fun _ => id, fun y n _ => ?_, fun n => ?_, fun _ => Iff.rfl, fun _ _ _ => rfl,
        fun _ _ no => absurd trivial no⟩
      · simp
      · simp
    · exact fun x member => nomatch member
    · exact fun _ => trivial
  · have ext := inverts.extended.trans extended
    refine (restrictToBounds_sound (heldLeast.extend ext) (heldExtent.extend ext) heldInverse
      inverts.isIndex held shaped).mono fun last left e _ made => ?_
    refine ⟨made.1, [inverse], _, replaced, made.2.1, made.2.2, ?_, .inl ⟨.head _, fun env => ?_⟩⟩
    · exact fun x member => List.mem_singleton.1 member
    · rw [range]

theorem substituteArgs_sound {p : Program} {inverse : Expr} (plain : ∀ a ∈ args, Plain a)
    (heldArgs : r.HoldsAll args) (held : r.Holds inverse) :
    Achieves (args.mapM fun a => (substitute [(name, inverse)] a : ProgramM Expr)) r p
      fun later left args' => left.funcs = p.funcs ∧ later.HoldsAll args' ∧
        List.Forall₂ (Replaced [(name, inverse)]) args args' := by
  refine (Achieves.mapM (P := fun s a b => s.Holds b ∧ Replaced [(name, inverse)] a b)
    (fun _ _ _ _ ext both => ⟨both.1.extend ext, both.2⟩) args fun a member s q ext _ =>
      Achieves.builds (substitute_sound (fun n isBound => absurd isBound ((plain a member).not_binds n))
        ((heldArgs a member).extend ext) fun x isPair => ?_)).mono
    fun later left args' _ made => ?_
  · rw [List.mem_singleton.1 isPair]
    exact held.extend ext
  · obtain ⟨same, each⟩ := made
    refine ⟨same, fun a' member => ?_, each.imp fun _ _ => And.right⟩
    obtain ⟨_, held, _⟩ := forall₂_mem_right each member
    exact held

theorem matchArguments_sound {p : Program} {ctx : CallContext} {call : Expr} {position : Nat}
    {targets : List Expr} {names : List String} (areTargets : List.Forall₂ IsIndexVariable targets names)
    (distinct : names.Nodup)
    (fresh : ∀ t ∈ names, ¬ past t ∧ t ∉ scope.names ∧ t ∉ ctx.args.map Expr.name)
    (unbound : ∀ t ∈ names, ¬ bound t)
    (heldTargets : r.HoldsAll targets) (sameLength : args.length = targets.length)
    (matching : Matching answers (ctx.args.map Expr.name) bound r scope past args adjoint) :
    Achieves (matchArguments ctx call position targets args adjoint) r p fun later left result =>
      left.funcs = p.funcs ∧ ∃ rest, Matched answers scope rest targets args adjoint result ∧
        Matching answers (ctx.args.map Expr.name) bound later rest (fun n => past n ∨ n ∈ names) [] result := by
  induction areTargets generalizing r p scope past args adjoint position with
  | nil =>
      obtain rfl := List.length_eq_zero_iff.1 sameLength
      unfold matchArguments
      refine Achieves.pure ⟨rfl, scope, ⟨.refl _, fun env => by simp, fun _ _ => id, fun _ _ => ?_,
        fun _ => Iff.rfl⟩, ?_⟩
      · exact .inr fun _ _ => rfl
      · simpa using matching
  | @cons target t targets names isTarget areTargets ih =>
      obtain ⟨absent, distinctRest⟩ := List.nodup_cons.1 distinct
      obtain ⟨heldTarget, heldRest⟩ := List.forall_mem_cons.1 heldTargets
      obtain ⟨freshHere, freshRest⟩ := List.forall_mem_cons.1 fresh
      obtain ⟨unboundHere, unboundRest⟩ := List.forall_mem_cons.1 unbound
      cases args with
      | nil => cases sameLength
      | cons arg args =>
          have sameRest : args.length = targets.length := by simpa using sameLength
          have isArg := matching.isIndex arg (.head _)
          have heldArg := matching.heldArgs arg (.head _)
          have pasts : (fun n => (past n ∨ n = t) ∨ n ∈ names) = fun n => past n ∨ n ∈ t :: names := by
            funext n
            simp [or_assoc]
          have heldLater {s : Registry} (ext : r.Extends s) : s.HoldsAll targets :=
            fun x member => (heldRest x member).extend ext
          have freshLater (scope' : Scope) (kept : ∀ n ∈ scope'.names, n ∈ scope.names) :
              ∀ t' ∈ names, ¬ (past t' ∨ t' = t) ∧ t' ∉ scope'.names ∧
                t' ∉ ctx.args.map Expr.name := by
            intro t' member
            obtain ⟨notPast, notScope, notDeclared⟩ := freshRest t' member
            refine ⟨?_, fun inside => notScope (kept t' inside), notDeclared⟩
            rintro (isPast | rfl)
            · exact notPast isPast
            · exact absent member
          unfold matchArguments
          split
          -- Without a pivot the argument names earlier targets only: the comparison leaves the scope.
          next noPivot =>
            rw [← bind_assoc]
            refine Achieves.bind (adjointWhereEqual_sound heldTarget heldArg
              (isTarget.index.mono (fun _ _ => trivial) fun _ no => no.elim) isArg matching.held
              matching.shaped) fun r1 p1 e ext1 made1 => ?_
            obtain ⟨same1, heldResult, restricts⟩ := made1
            have only (n : String) : Mentions arg n → past n := matching.of_noPivot noPivot
            have next := matching.skip ext1 isTarget freshHere.2 unboundHere only heldResult restricts
            refine (ih distinctRest (freshLater scope fun _ => id) unboundRest (heldLater ext1) sameRest
              next).mono fun r2 p2 result _ made2 => ?_
            obtain ⟨same2, rest, matched, last⟩ := made2
            exact ⟨same2.trans same1, rest, matched.skip matching only restricts, pasts ▸ last⟩
          -- A pivot gives way to its inverse, in the adjoint and in the arguments that are left.
          next pivot chosen =>
            obtain ⟨ends, isPivot⟩ := matching.isPivot chosen
            refine Achieves.bind (invertArgument_sound heldTarget heldArg isTarget isArg
              isPivot.within isPivot.named) fun r1 p1 inverse ext1 made1 => ?_
            obtain ⟨same1, heldInverse, isIndex, vars, solves⟩ := made1
            have inverts : Inverts (ctx.args.map Expr.name) bound r r1 scope past arg pivot target
                pivot.name t ends inverse := ⟨ext1, isPivot, isTarget, freshHere, unboundHere, isIndex, vars,
                solves⟩
            refine Achieves.bind (Achieves.builds (substitute_sound
              (fun n isBound => (inverts.avoids matching n isBound).1) (matching.held.extend ext1)
              (fun x member => List.mem_singleton.1 member ▸ heldInverse))) fun r2 p2 substituted ext2 made2 => ?_
            obtain ⟨same2, heldSubstituted, replaced⟩ := made2
            refine Achieves.bind (restrictToPivot_sound matching inverts ext2
              (heldInverse.extend ext2) heldSubstituted replaced) fun r3 p3 e ext3 made3 => ?_
            obtain ⟨same3, used, condition, narrows⟩ := made3
            have ext13 := (ext1.trans ext2).trans ext3
            refine Achieves.bind (substituteArgs_sound
              (fun a member => (matching.isIndex a (.tail _ member)).plain)
              (fun a member => (matching.heldArgs a (.tail _ member)).extend ext13)
              (heldInverse.extend (ext2.trans ext3))) fun r4 p4 args' ext4 made4 => ?_
            obtain ⟨same4, heldOthers, others⟩ := made4
            have ext := ext13.trans ext4
            have inverts' : Inverts (ctx.args.map Expr.name) bound r r4 scope past arg pivot target
                pivot.name t ends inverse := { inverts with extended := ext }
            have narrows' : Narrows (ctx.args.map Expr.name) r4 pivot.name ends inverse adjoint
                substituted used condition e := { narrows with held := narrows.held.extend ext4 }
            have next := matching.pivot inverts' narrows' heldOthers others
            have kept (n : String) (member : n ∈ (scope.without pivot.name).names) :
                n ∈ scope.names := (Scope.mem_names_without.1 member).1
            refine (ih distinctRest (freshLater _ kept) unboundRest (heldLater ext)
              (others.length_eq.symm.trans sameRest) next).mono fun r5 p5 result _ made5 => ?_
            obtain ⟨same5, rest, matched, last⟩ := made5
            refine ⟨same5.trans (same4.trans (same3.trans (same2.trans same1))), rest,
              matched.pivot matching inverts' narrows' heldOthers others fun x member => ?_,
              pasts ▸ last⟩
            obtain ⟨t', inNames, isTarget'⟩ := forall₂_mem_left areTargets member
            refine ⟨t', isTarget', ?_⟩
            rintro rfl
            exact (freshRest _ inNames).2.1 inverts.inScope

end

end ReverseMode
