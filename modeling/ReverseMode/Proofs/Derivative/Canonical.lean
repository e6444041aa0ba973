import ReverseMode.Proofs.Derivative.Leftover

namespace ReverseMode

open Expr

structure ArePlaceholders (r later : Registry) (targets : List Expr) (names : List String) :
    Prop where
  held : later.HoldsAll targets
  areTargets : List.Forall₂ IsIndexVariable targets names
  distinct : names.Nodup
  generated : ∀ name ∈ names, ∃ stem n, r.names ≤ n ∧ n < later.names ∧
    name = generatedName stem n

theorem ArePlaceholders.extend {r later last : Registry} {targets : List Expr} {names : List String}
    (placeholders : ArePlaceholders r later targets names) (extended : later.Extends last) :
    ArePlaceholders r last targets names where
  held := placeholders.held.extend extended
  areTargets := placeholders.areTargets
  distinct := placeholders.distinct
  generated name member := by
    obtain ⟨stem, n, atLeast, below, same⟩ := placeholders.generated name member
    exact ⟨stem, n, atLeast, below.trans_le extended.names_le, same⟩

theorem generatedName_ne_empty (stem : String) (n : Nat) : generatedName stem n ≠ "" := by
  intro isEmpty
  have lists := congrArg String.toList isEmpty
  rw [toList_generatedName] at lists
  simp at lists

theorem placeholders_sound {r : Registry} {p : Program} (vars : List Expr) :
    Achieves (vars.mapM fun v => do
      let name ← (freshName (v.name ++ "_p") : ProgramM String)
      (Expr.index (some name) : ProgramM Expr)) r p
      fun later left targets => left.funcs = p.funcs ∧ targets.length = vars.length ∧
        ∃ names, ArePlaceholders r later targets names := by
  induction vars generalizing r p with
  | nil =>
      exact Achieves.pure ⟨rfl, rfl, [], .nil, .nil, .nil, fun _ member => nomatch member⟩
  | cons v rest ih =>
      rw [List.mapM_cons, bind_assoc]
      refine Achieves.bind (Achieves.builds (Builds.freshName (v.name ++ "_p")))
        fun r1 p1 name ext1 made1 => ?_
      obtain ⟨same1, later1, isName⟩ := made1
      refine Achieves.bind (Achieves.builds (Builds.index (isName ▸ generatedName_ne_empty _ _)))
        fun r2 p2 target ext2 made2 => ?_
      obtain ⟨same2, heldTarget, node, isTarget⟩ := made2
      refine Achieves.bind ih fun r3 p3 targets ext3 made3 => ?_
      obtain ⟨same3, sameLength, names, made⟩ := made3
      refine Achieves.pure ⟨same3.trans (same2.trans same1), congrArg (· + 1) sameLength,
        name :: names, .cons (heldTarget.extend ext3) made.held,
        .cons ⟨node, true, isTarget⟩ made.areTargets,
        List.nodup_cons.2 ⟨fun member => ?_, made.distinct⟩, fun other member => ?_⟩
      · obtain ⟨stem, n, atLeast, _, same⟩ := made.generated name member
        have := generatedName_injective (isName.symm.trans same)
        have := ext2.names_le
        omega
      · have := ext2.names_le
        have := ext3.names_le
        have := ext1.names_le
        rcases List.mem_cons.1 member with rfl | inRest
        · exact ⟨_, r.names, le_rfl, by omega, isName⟩
        · obtain ⟨stem, n, atLeast, below, same⟩ := made.generated other inRest
          exact ⟨stem, n, by omega, below, same⟩

structure Contributes (answers : CallValues ℚ) (declared : List String) (r : Registry) (scope : Scope)
    (args : List Expr) (adjoint e : Expr) (axes dropped : Scope) : Prop where
  held : r.Holds e
  shaped : Shaped e
  calls : ∀ callee, e.Calls callee ↔ adjoint.Calls callee
  binds : ∀ name, Binds e name → name ∉ declared
  placed : ∀ y name, Subnode y e → y.variableName? = some name → Free name e →
    name ∈ declared ∧ y.isPureVariable = true ∨
      name ∉ declared ∧ ∃ ends, (name, ends) ∈ axes ∧ r.IsAxis ends y
  used : ∀ name ∈ axes.names, Free name e
  apart : ∀ name ∈ axes.names, name ∉ declared
  distinct : axes.names.Nodup
  ignores : ∀ entry ∈ dropped, entry ∈ scope ∧ ¬ Free entry.1 adjoint ∧
    ∀ env i, args.map (Expr.integer (Function.update env entry.1 i)) = args.map (Expr.integer env)
  total : ∀ index base, index.length = declared.length →
    dropped.count * sumOver (fun env => exact answers env e) axes (assign declared index base) =
      sumOver (fun env => if index = args.map (Expr.integer env) then exact answers env adjoint else 0)
        scope base

theorem Contributes.extend {answers : CallValues ℚ} {declared : List String} {r later : Registry}
    {scope axes dropped : Scope} {args : List Expr} {adjoint e : Expr}
    (contributes : Contributes answers declared r scope args adjoint e axes dropped)
    (extended : r.Extends later) : Contributes answers declared later scope args adjoint e axes dropped :=
  { contributes with
    held := contributes.held.extend extended
    placed := fun y name within named free => (contributes.placed y name within named free).imp_right
      fun ⟨other, ends, member, isAxis⟩ => ⟨other, ends, member, isAxis.extend extended⟩ }

theorem find?_zip {names : List String} {vars : List Expr} (distinct : names.Nodup)
    {i : Nat} {name : String} {v : Expr} (named : names[i]? = some name)
    (found : vars[i]? = some v) : Replacements.find? (names.zip vars) name = some v := by
  unfold Replacements.find?
  induction names generalizing i vars with
  | nil => cases named
  | cons first rest ih =>
      obtain ⟨absent, distinctRest⟩ := List.nodup_cons.1 distinct
      cases vars with
      | nil => cases found
      | cons x others =>
          rw [List.zip_cons_cons, List.lookup_cons]
          cases i with
          | zero =>
              cases named
              cases found
              simp
          | succ i =>
              have member : name ∈ rest := List.mem_of_getElem? named
              rw [beq_false_of_ne (ne_of_mem_of_not_mem member absent)]
              exact ih distinctRest named found

theorem find?_zip_cases {names : List String} {vars : List Expr} {name : String} {v : Expr}
    (found : Replacements.find? (names.zip vars) name = some v) :
    ∃ i : Nat, names[i]? = some name ∧ vars[i]? = some v := by
  unfold Replacements.find? at found
  obtain ⟨before, after, split, _⟩ := List.lookup_eq_some_iff.1 found
  have member : (name, v) ∈ names.zip vars := by simp [split]
  obtain ⟨i, isEntry⟩ := List.getElem?_of_mem member
  exact ⟨i, List.getElem?_zip_eq_some.1 isEntry⟩

/-- The parts of a canonical contribution: the arguments were matched against the targets, the
leftover variables summed over, and the targets replaced by the callee's variables. -/
structure Canonical (answers : CallValues ℚ) (declared : List String) (bound : String → Prop)
    (r middle later last : Registry)
    (scope rest : Scope) (args vars targets : List Expr) (names : List String)
    (rename : String → String) (adjoint matched summed e : Expr) : Prop where
  matching : Matching answers declared bound r scope (fun _ => False) args adjoint
  isMatched : Matched answers scope rest targets args adjoint matched
  isSummed : Summed answers declared middle later (· ∈ names) rest rename matched summed
  placeholders : ArePlaceholders r middle targets names
  extended : r.Extends middle
  isLast : later.Extends last
  sameLength : names.length = vars.length
  areVars : ∀ v ∈ vars, IsIndexVariable v v.name
  distinct : (vars.map Expr.name).Nodup
  unissued : ∀ name ∈ vars.map Expr.name, Unissued r.names name
  apart : ∀ name ∈ scope.names, name ∉ declared → name ∉ vars.map Expr.name
  fresh : ∀ name ∈ names, name ∉ scope.names
  avoids : Replacements.Avoids (names.zip vars) summed
  replaced : Replaced (names.zip vars) summed e
  held : last.Holds e

namespace Canonical

variable {answers : CallValues ℚ} {declared names : List String} {bound : String → Prop}
  {r middle later last : Registry}
  {scope rest : Scope} {args vars targets : List Expr} {rename : String → String}
  {adjoint matched summed e : Expr}

theorem rename_other {name : String} (other : name ∉ names) :
    Replacements.rename (names.zip vars) name = name := by
  refine Replacements.rename_of_none ?_
  cases found : Replacements.find? (names.zip vars) name with
  | none => rfl
  | some v =>
      obtain ⟨i, isName, _⟩ := find?_zip_cases found
      exact absurd (List.mem_of_getElem? isName) other

variable (canonical : Canonical answers declared bound r middle later last scope rest args vars targets
  names rename adjoint matched summed e)

include canonical

theorem renames : Replacements.Renames (names.zip vars) := by
  intro name v found
  obtain ⟨i, _, isVar⟩ := find?_zip_cases found
  have isVariable := canonical.areVars v (List.mem_of_getElem? isVar)
  exact ⟨isVariable.named, isVariable.index.mono (fun _ _ => trivial) fun _ no => no⟩

theorem map_rename :
    names.map (Replacements.rename (names.zip vars)) = vars.map Expr.name := by
  refine List.ext_getElem? fun i => ?_
  rw [List.getElem?_map, List.getElem?_map]
  cases isName : names[i]? with
  | none =>
      have beyond := List.getElem?_eq_none_iff.1 isName
      rw [canonical.sameLength] at beyond
      rw [List.getElem?_eq_none_iff.2 beyond]
      rfl
  | some name =>
      have below := (List.getElem?_eq_some_iff.1 isName).1
      rw [canonical.sameLength] at below
      have isVar : vars[i]? = some vars[i] := List.getElem?_eq_getElem below
      rw [isVar, Option.map_some, Option.map_some, Replacements.rename,
        find?_zip canonical.placeholders.distinct isName isVar]

theorem axis_apart {name : String} (inRest : name ∈ rest.names) :
    rename name ∉ names ∧ rename name ∉ vars.map Expr.name := by
  rcases canonical.isSummed.fresh name inRest with ⟨notDeclared, keeps⟩ | ⟨n, axis, atLeast, isAxis⟩
  · have inScope := (canonical.isMatched.sublist.map Prod.fst).subset inRest
    rw [keeps]
    exact ⟨fun member => canonical.fresh name member inScope,
      canonical.apart name inScope notDeclared⟩
  · refine ⟨fun member => ?_, fun member => ?_⟩
    · obtain ⟨stem, m, _, _, same⟩ := canonical.placeholders.generated _ member
      exact generatedName_ne_axisName stem m _ axis (same.symm.trans isAxis)
    · exact (canonical.unissued _ member n (canonical.extended.names_le.trans atLeast) "r").2 axis
        isAxis

end Canonical

def Scope.kept (scope : Scope) (rename : String → String) (e : Expr) : Scope :=
  scope.filter fun entry => e.freeNames.contains (rename entry.1)

def Scope.lost (scope : Scope) (rename : String → String) (e : Expr) : Scope :=
  scope.filter fun entry => !e.freeNames.contains (rename entry.1)

theorem Scope.mem_kept {scope : Scope} {rename : String → String} {e : Expr} (shaped : Shaped e)
    {entry : String × Int × Int} :
    entry ∈ scope.kept rename e ↔ entry ∈ scope ∧ Free (rename entry.1) e := by
  simp [Scope.kept, mem_freeNames shaped]

theorem Scope.mem_lost {scope : Scope} {rename : String → String} {e : Expr} (shaped : Shaped e)
    {entry : String × Int × Int} :
    entry ∈ scope.lost rename e ↔ entry ∈ scope ∧ ¬ Free (rename entry.1) e := by
  simp [Scope.lost, mem_freeNames shaped]

theorem sumOver_lost {answers : CallValues ℚ} {scope : Scope} {rename : String → String} {e : Expr}
    (shaped : Shaped e) (distinct : (scope.renamed rename).names.Nodup) (env : Env) :
    sumOver (fun env => exact answers env e) (scope.renamed rename) env =
      (scope.lost rename e).count *
        sumOver (fun env => exact answers env e) ((scope.kept rename e).renamed rename) env := by
  have perm : (scope.kept rename e ++ scope.lost rename e).Perm scope := by
    unfold Scope.kept Scope.lost
    exact List.filter_append_perm _ scope
  have ignored : ∀ name ∈ ((scope.lost rename e).renamed rename).names,
      name ∉ {name | Free name e} := by
    rw [Scope.names_renamed]
    intro name member
    obtain ⟨other, inLost, rfl⟩ := List.mem_map.1 member
    obtain ⟨entry, inside, rfl⟩ := List.mem_map.1 inLost
    exact ((Scope.mem_lost shaped).1 inside).2
  rw [sumOver_perm (Scope.perm_renamed rename perm.symm) distinct, Scope.renamed_append,
    sumOver_append, ← sumOver_mul_left]
  congr 1
  funext env
  rw [sumOver_ignored (depends_free answers e) ignored, Scope.count_renamed]

namespace Canonical

variable {answers : CallValues ℚ} {declared names : List String} {bound : String → Prop}
  {r middle later last : Registry}
  {scope rest : Scope} {args vars targets : List Expr} {rename : String → String}
  {adjoint matched summed e : Expr}

variable (canonical : Canonical answers declared bound r middle later last scope rest args vars targets
  names rename adjoint matched summed e)

include canonical

theorem nodup_renamed : (rest.renamed rename).names.Nodup := by
  rw [Scope.names_renamed]
  exact ((canonical.isMatched.sublist.map Prod.fst).nodup canonical.matching.distinct).map_on
    canonical.isSummed.injective

theorem sum_replaced {axes : Scope} (inRest : ∀ name ∈ axes.names, ∃ other ∈ rest.names,
    name = rename other) (env : Env) :
    sumOver (fun env => exact answers env e) axes env =
      sumOver (fun env => exact answers env summed) axes
        fun name => env (Replacements.rename (names.zip vars) name) := by
  have apart (name : String) (member : name ∈ axes.names) :
      name ∉ names ∧ name ∉ vars.map Expr.name := by
    obtain ⟨other, inside, rfl⟩ := inRest name member
    exact canonical.axis_apart inside
  have unchanged : axes.renamed (Replacements.rename (names.zip vars)) = axes := by
    refine (List.map_congr_left fun entry member => ?_).trans (List.map_id axes)
    rw [rename_other (apart entry.1 (List.mem_map.2 ⟨entry, member, rfl⟩)).1]
    rfl
  simp only [canonical.replaced.exact_rename canonical.renames canonical.avoids]
  conv_lhs => rw [← unchanged]
  refine sumOver_rename (depends_free answers summed) (fun name _ other member same => ?_) env
  rw [rename_other (apart other member).1] at same
  by_cases isTarget : name ∈ names
  · have isVar : Replacements.rename (names.zip vars) name ∈ vars.map Expr.name := by
      rw [← canonical.map_rename]
      exact List.mem_map.2 ⟨name, isTarget, rfl⟩
    rw [same] at isVar
    exact absurd isVar (apart other member).2
  · rwa [rename_other isTarget] at same

theorem sum_matched {index : List Int} {env : Env} (given : names.map env = index) (base : Env) :
    sumOver (fun env => exact answers env matched) rest env =
      sumOver (fun env => if index = args.map (Expr.integer env) then exact answers env adjoint else 0)
        scope base := by
  rw [← canonical.isMatched.sum env]
  have targetValues (env : Env) : targets.map (Expr.integer env) = names.map env := by
    rw [← List.forall₂_eq_eq_eq, List.forall₂_map_left_iff, List.forall₂_map_right_iff]
    exact canonical.placeholders.areTargets.imp fun _ _ isTarget => isTarget.integer env
  have atIndex : sumOver (fun env => if targets.map (Expr.integer env) =
        args.map (Expr.integer env) then exact answers env adjoint else 0) scope env =
      sumOver (fun env => if index = args.map (Expr.integer env) then exact answers env adjoint else 0)
        scope env := by
    refine sumOver_congr canonical.matching.distinct fun env' reaches => ?_
    have kept : names.map env' = names.map env := by
      refine List.map_congr_left fun name member => ?_
      exact reaches.outside name (canonical.fresh name member)
    rw [targetValues, kept, given]
  have depends : DependsOn (fun env => if index = args.map (Expr.integer env)
      then exact answers env adjoint else 0) {name | name ∈ scope.names} := by
    intro env env' same
    have sameArgs : args.map (Expr.integer env) = args.map (Expr.integer env') := by
      refine List.map_congr_left fun x member => ?_
      exact (canonical.matching.isIndex x member).own.integer_congr fun name mentioned =>
        same name ((canonical.matching.used_arg member mentioned).resolve_left id)
    have sameAdjoint : exact answers env adjoint = exact answers env' adjoint :=
      depends_free answers adjoint fun name free =>
        same name ((canonical.matching.used (.head _) free).resolve_left id)
    dsimp only
    rw [sameArgs, sameAdjoint]
  rw [atIndex]
  exact sumOver_dependsOn depends scope fun name member => absurd member.1 member.2

theorem contributes : Contributes answers (vars.map Expr.name) last scope args adjoint e
    ((rest.kept rename summed).renamed rename) (rest.lost rename summed) := by
  have isSummed := canonical.isSummed
  have inRest {name : String} (member : name ∈ ((rest.kept rename summed).renamed rename).names) :
      ∃ other ∈ rest.names, name = rename other ∧ Free name summed := by
    rw [Scope.names_renamed] at member
    obtain ⟨other, inKept, rfl⟩ := List.mem_map.1 member
    obtain ⟨entry, inside, rfl⟩ := List.mem_map.1 inKept
    obtain ⟨inRest, free⟩ := (Scope.mem_kept isSummed.shaped).1 inside
    exact ⟨entry.1, List.mem_map.2 ⟨entry, inRest, rfl⟩, rfl, free⟩
  refine ⟨canonical.held, canonical.replaced.shaped canonical.renames.indices isSummed.shaped,
    fun callee => ?_, fun name isBound isDeclared => ?_, fun y name within named free => ?_,
    fun name member => ?_, fun name member => ?_, ?_, fun entry member => ?_,
    fun index base sameLength => ?_⟩
  · rw [canonical.replaced.calls canonical.renames.indices isSummed.shaped, isSummed.calls,
      canonical.isMatched.calls]
  · obtain ⟨v, member, rfl⟩ := List.mem_map.1 isDeclared
    obtain ⟨i, below, isVar⟩ := List.mem_iff_getElem.1 member
    have isName := List.getElem?_eq_getElem (canonical.sameLength.symm ▸ below)
    have found := find?_zip canonical.placeholders.distinct isName
      ((List.getElem?_eq_getElem below).trans (congrArg some isVar))
    exact (canonical.avoids v.name (canonical.replaced.binds canonical.renames.indices isBound)).2 _ v
      found ⟨v, .here, (canonical.areVars v member).named⟩
  · rcases canonical.replaced.free_cases canonical.renames.indices canonical.avoids isSummed.shaped
      within named free with ⟨inside, isFree, none⟩ | ⟨m, v, _, found, inside⟩
    · rcases isSummed.placed y name inside named isFree with
        ⟨isTarget, _⟩ | ⟨entry, member, rfl, isAxis⟩
      · obtain ⟨i, isName⟩ := List.getElem?_of_mem isTarget
        have below := (List.getElem?_eq_some_iff.1 isName).1
        rw [canonical.sameLength] at below
        rw [find?_zip canonical.placeholders.distinct isName (List.getElem?_eq_getElem below)] at none
        cases none
      · have inNames : entry.1 ∈ rest.names := List.mem_map.2 ⟨entry, member, rfl⟩
        refine .inr ⟨(canonical.axis_apart inNames).2, entry.2, ?_, isAxis.extend canonical.isLast⟩
        exact List.mem_map.2 ⟨entry, (Scope.mem_kept isSummed.shaped).2 ⟨member, isFree⟩, rfl⟩
    · obtain ⟨i, _, isVar⟩ := find?_zip_cases found
      have member := List.mem_of_getElem? isVar
      obtain ⟨rfl, isPure⟩ := (canonical.areVars v member).subnode inside named
      exact .inl ⟨List.mem_map.2 ⟨v, member, rfl⟩, isPure⟩
  · obtain ⟨other, inside, rfl, free⟩ := inRest member
    refine (canonical.replaced.free canonical.renames.indices canonical.avoids).2
      ⟨rename other, free, ?_⟩
    unfold Replacements.Gives
    cases found : Replacements.find? (names.zip vars) (rename other) with
    | none => rfl
    | some v =>
        obtain ⟨i, isName, _⟩ := find?_zip_cases found
        exact absurd (List.mem_of_getElem? isName) (canonical.axis_apart inside).1
  · obtain ⟨other, inside, rfl, _⟩ := inRest member
    exact (canonical.axis_apart inside).2
  · refine List.Nodup.sublist ?_ canonical.nodup_renamed
    exact (List.filter_sublist.map _).map _
  · obtain ⟨inside, notFree⟩ := (Scope.mem_lost isSummed.shaped).1 member
    have inNames : entry.1 ∈ rest.names := List.mem_map.2 ⟨entry, inside, rfl⟩
    rw [isSummed.free entry.1 inNames] at notFree
    exact ⟨canonical.isMatched.sublist.subset inside,
      mt (canonical.isMatched.retains entry.1 inNames) notFree,
      (canonical.isMatched.independent entry.1 inNames).resolve_left notFree⟩
  -- An axis that is lost counts its values; summed over all axes, the targets are matched.
  · rw [canonical.sum_replaced fun name member => by
        obtain ⟨other, inside, same, _⟩ := inRest member
        exact ⟨other, inside, same⟩,
      ← sumOver_lost isSummed.shaped canonical.nodup_renamed, isSummed.sum]
    refine canonical.sum_matched ?_ base
    have values : names.map (fun name => assign (vars.map Expr.name) index base
          (Replacements.rename (names.zip vars) (rename name))) =
        (names.map (Replacements.rename (names.zip vars))).map
          (assign (vars.map Expr.name) index base) := by
      rw [List.map_map]
      refine List.map_congr_left fun name member => ?_
      rw [isSummed.fixes name member]
      rfl
    rw [values, canonical.map_rename, map_assign canonical.distinct sameLength]

end Canonical

structure Declares (r : Registry) (f : Func) (vars : List Expr) : Prop where
  args : ∃ initial, f.init = some initial ∧ initial.args = vars
  held : r.HoldsAll vars
  areVars : ∀ v ∈ vars, IsIndexVariable v v.name
  named : ∀ v ∈ vars, v.name ≠ ""
  distinct : (vars.map Expr.name).Nodup
  unissued : ∀ name ∈ vars.map Expr.name, Unissued r.names name

theorem Declares.declared {r : Registry} {f : Func} {vars : List Expr}
    (declares : Declares r f vars) : f.declared = vars.map Expr.name := by
  obtain ⟨initial, defined, rfl⟩ := declares.args
  unfold Func.declared
  rw [defined]

theorem Declares.args_eq {r : Registry} {f : Func} {vars : List Expr}
    (declares : Declares r f vars) : f.args = .ok vars := by
  obtain ⟨initial, defined, rfl⟩ := declares.args
  simp [Func.args, Func.initial, defined, Except.map]

theorem Declares.extend {r later : Registry} {f : Func} {vars : List Expr}
    (declares : Declares r f vars) (extended : r.Extends later) : Declares later f vars :=
  { declares with
    held := declares.held.extend extended
    unissued := fun name member => (declares.unissued name member).mono extended.names_le }

structure Calling (r : Registry) (ctx : CallContext) (bound : String → Prop) (scope : Scope) :
    Prop where
  held : r.HoldsDomain ctx.domain
  ranged : ∀ entry ∈ scope, ∀ i : Nat, (ctx.args.map Expr.name)[i]? = some entry.1 →
    ∃ range, ctx.domain[i]? = some range ∧ rangeEnds range = entry.2
  unissued : ∀ name ∈ scope.names, Unissued r.names name
  declared : ∀ name ∈ ctx.args.map Expr.name, Unissued r.names name
  bound : ∀ name, bound name → Unissued r.names name

theorem canonicalize_sound {answers : CallValues ℚ} {r : Registry} {p : Program} {ctx : CallContext}
    {call adjoint : Expr} {callee : Func} {vars : List Expr} {scope : Scope} {bound : String → Prop}
    (declares : Declares r callee vars) (calling : Calling r ctx bound scope)
    (sameLength : call.operands.length = vars.length)
    (apart : ∀ name ∈ scope.names, name ∉ ctx.args.map Expr.name → name ∉ vars.map Expr.name)
    (outside : ∀ name, bound name → name ∉ vars.map Expr.name)
    (matching : Matching answers (ctx.args.map Expr.name) bound r scope (fun _ => False) call.operands
      adjoint) :
    Achieves (canonicalize ctx call callee adjoint) r p fun later left e => left.funcs = p.funcs ∧
      ∃ axes dropped, Contributes answers (vars.map Expr.name) later scope call.operands adjoint e
        axes dropped := by
  unfold canonicalize
  rw [declares.args_eq]
  refine Achieves.bind (Achieves.ofExcept (Q := fun later left a => r = later ∧ p = left ∧
    vars = a) fun a same => ⟨rfl, rfl, Except.ok.inj same⟩)
    fun r0 p0 vars _ ⟨sameR, sameP, sameVars⟩ => ?_
  subst sameR sameP sameVars
  refine Achieves.bind (placeholders_sound vars) fun r1 p1 targets ext1 made1 => ?_
  obtain ⟨same1, targetLength, names, placeholders⟩ := made1
  have ungenerated {name : String} (isName : name ∈ names) {other : String}
      (unissued : Unissued r.names other) : name ≠ other := by
    obtain ⟨stem, n, atLeast, _, rfl⟩ := placeholders.generated name isName
    exact ((unissued n atLeast stem).1).symm
  have nameLength : names.length = targets.length := placeholders.areTargets.length_eq.symm
  have areNames : targets.map Expr.name = names := by
    rw [← List.forall₂_eq_eq_eq, List.forall₂_map_left_iff]
    refine placeholders.areTargets.imp fun target name isTarget => ?_
    exact variableName?_eq_name isTarget.named
  have fresh : ∀ name ∈ names, name ∉ scope.names := fun name member inScope =>
    ungenerated member (calling.unissued name inScope) rfl
  refine Achieves.bind (matchArguments_sound placeholders.areTargets placeholders.distinct
    (fun name member => ⟨id, fresh name member, fun inDeclared =>
      ungenerated member (calling.declared name inDeclared) rfl⟩)
    (fun name member isBound => ungenerated member (calling.bound name isBound) rfl) placeholders.held
    (sameLength.trans targetLength.symm) (matching.extend ext1)) fun r2 p2 matched ext2 made2 => ?_
  obtain ⟨same2, rest, isMatched, last⟩ := made2
  have pasts : (fun name => False ∨ name ∈ names) = fun name => name ∈ names := by
    funext name
    simp
  rw [pasts] at last
  refine Achieves.bind (sumLeftover_sound (calling.held.extend (ext1.trans ext2)) last
    (fun entry member => calling.ranged entry (isMatched.sublist.subset member))
    (fun name either => ?_) fun name isBound =>
      (calling.bound name isBound).mono (ext1.trans ext2).names_le) fun r3 p3 summed ext3 made3 => ?_
  · rcases either with isName | inRest
    · obtain ⟨stem, n, _, below, rfl⟩ := placeholders.generated name isName
      exact unissued_generatedName stem (below.trans_le ext2.names_le)
    · exact (calling.unissued name ((isMatched.sublist.map Prod.fst).subset inRest)).mono
        (ext1.trans ext2).names_le
  obtain ⟨same3, rename, isSummed⟩ := made3
  have heldVars : ∀ x ∈ names.zip vars, r3.Holds x.2 := fun x member =>
    (declares.held x.2 (List.of_mem_zip member).2).extend ((ext1.trans ext2).trans ext3)
  -- No `let` binds a variable of the callee, so that none is captured where it takes a target's place.
  have avoids : Replacements.Avoids (names.zip vars) summed := by
    intro name inSummed
    have isBound := last.binds name (isSummed.binds name inSummed)
    refine ⟨?_, fun other v found mentioned => ?_⟩
    · cases found : Replacements.find? (names.zip vars) name with
      | none => rfl
      | some v =>
          obtain ⟨i, isName, _⟩ := find?_zip_cases found
          exact absurd rfl (ungenerated (List.mem_of_getElem? isName) (calling.bound name isBound))
    · obtain ⟨i, _, isVar⟩ := find?_zip_cases found
      have member := List.mem_of_getElem? isVar
      obtain ⟨y, inside, named⟩ := mentioned
      obtain ⟨rfl, _⟩ := (declares.areVars v member).subnode inside named
      exact outside _ isBound (List.mem_map.2 ⟨v, member, rfl⟩)
  rw [areNames]
  refine (Achieves.builds (substitute_sound (fun name isBound => (avoids name isBound).1)
    isSummed.held heldVars)).mono
    fun r4 p4 e ext4 made4 => ?_
  obtain ⟨same4, held, replaced⟩ := made4
  have canonical : Canonical answers (ctx.args.map Expr.name) bound r r2 r3 r4 scope rest call.operands
      vars targets names rename adjoint matched summed e :=
    { matching, isMatched, isSummed, placeholders := placeholders.extend ext2,
      extended := ext1.trans ext2, isLast := ext4, sameLength := nameLength.trans targetLength,
      areVars := declares.areVars, distinct := declares.distinct, unissued := declares.unissued,
      apart, fresh, avoids, replaced, held }
  exact ⟨same4.trans (same3.trans (same2.trans same1)), _, _, canonical.contributes⟩

end ReverseMode
