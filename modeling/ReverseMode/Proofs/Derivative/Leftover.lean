import ReverseMode.Proofs.Derivative.Matching

namespace ReverseMode

open Expr

def AreAxes (domain : String) (first : Nat) (bounds : Domain) (vars : List Expr) : Prop :=
  ∀ (i : Nat) (v : Expr), vars[i]? = some v → ∃ node least extent,
    bounds[i]? = some (least, extent) ∧ v = .reduction node domain (first + i) least extent

theorem axes_sound {r : Registry} (domain : String) (first : Nat) (bounds : Domain) :
    Builds (ReductionDomain.axes domain first bounds) r fun later vars =>
      later.HoldsAll vars ∧ AreAxes domain first bounds vars := by
  induction bounds generalizing r first with
  | nil => exact Builds.pure ⟨.nil, fun i v found => by simp at found⟩
  | cons range rest ih =>
      obtain ⟨least, extent⟩ := range
      unfold ReductionDomain.axes
      have fresh : Builds freshId r fun later id =>
          later.Holds (.reduction id domain first least extent) := by
        intro supply fits
        refine ⟨r.push (.reduction r.next domain first least extent), r.extends_push _,
          ⟨congrArg (· + 1) fits.nodes, fits.names⟩, ?_⟩
        change Registry.Holds _ (.reduction supply.nodes domain first least extent)
        rw [fits.nodes]
        exact every_reduction.2 ⟨Nat.lt_succ_self _, by simp [Registry.push, Expr.id]⟩
      refine Builds.bind fresh fun r1 id ext1 held => ?_
      refine Builds.bind (ih (first + 1)) fun r2 vars ext2 made => ?_
      obtain ⟨heldVars, each⟩ := made
      refine Builds.pure ⟨.cons (held.extend ext2) heldVars, ?_⟩
      intro i v found
      cases i with
      | zero =>
          cases found
          exact ⟨id, least, extent, rfl, rfl⟩
      | succ i =>
          obtain ⟨node, least', extent', inBounds, isAxis⟩ := each i v found
          exact ⟨node, least', extent', inBounds, by rw [isAxis]; congr 1; omega⟩

theorem declaredPosition?_sound {declared : List String} {name : String} {i : Nat}
    (found : declaredPosition? declared name = some i) : declared[i]? = some name := by
  obtain ⟨⟨other, j⟩, isEntry, rfl⟩ := Option.map_eq_some_iff.1 found
  have member := List.mem_reverse.1 (List.mem_of_find?_eq_some isEntry)
  have same := List.find?_some isEntry
  rw [← eq_of_beq same]
  exact List.mem_zipIdx_iff_getElem?.1 member

def LeftoverReplacements (declared leftover : List String) (vars : List Expr)
    (replacements : Replacements) : Prop :=
  List.Forall₂ (fun name (entry : String × Expr) => entry.1 = name ∧
    ∃ i : Nat, declared[i]? = some name ∧ vars[i]? = some entry.2) leftover replacements

theorem LeftoverReplacements.find? {declared leftover : List String} {vars : List Expr}
    {replacements : Replacements}
    (areReplacements : LeftoverReplacements declared leftover vars replacements) (name : String) :
    name ∉ leftover ∧ replacements.find? name = none ∨
      ∃ (i : Nat) (v : Expr), name ∈ leftover ∧ declared[i]? = some name ∧ vars[i]? = some v ∧
        replacements.find? name = some v := by
  unfold Replacements.find?
  induction areReplacements with
  | nil => exact .inl ⟨List.not_mem_nil, rfl⟩
  | @cons other entry leftover replacements here _ ih =>
      obtain ⟨rfl, i, inDeclared, inVars⟩ := here
      by_cases same : name = entry.1
      · refine .inr ⟨i, entry.2, ?_, same ▸ inDeclared, inVars, ?_⟩
        · rw [same]
          exact .head _
        · rw [List.lookup_cons, same, beq_self_eq_true]
      · rw [List.lookup_cons, beq_false_of_ne same]
        rcases ih with ⟨absent, none⟩ | ⟨i, v, member, found⟩
        · exact .inl ⟨List.not_mem_cons_of_ne_of_not_mem same absent, none⟩
        · exact .inr ⟨i, v, .tail _ member, found⟩

def Replacements.rename (ρ : Replacements) (name : String) : String :=
  match ρ.find? name with
  | some x => x.name
  | none => name

theorem Replacements.rename_of_none {ρ : Replacements} {name : String}
    (none : ρ.find? name = none) : ρ.rename name = name := by
  unfold rename
  rw [none]

def Replacements.Renames (ρ : Replacements) : Prop :=
  ∀ name x, ρ.find? name = some x → x.variableName? = some x.name ∧
    Index (fun _ => True) (fun _ => False) x

theorem Replacements.Renames.indices {ρ : Replacements} (renames : ρ.Renames) : ρ.Indices :=
  fun name x found => (renames name x found).2.mono (fun _ same => same) fun _ no => no.elim

theorem Replaced.exact_rename {ρ : Replacements} {e e' : Expr} (replaced : Replaced ρ e e')
    (renames : ρ.Renames) (avoids : ρ.Avoids e) (answers : CallValues ℚ) (env : Env) :
    Expr.exact answers env e' = Expr.exact answers (fun name => env (ρ.rename name)) e := by
  rw [replaced.exact renames.indices avoids]
  congr 1
  funext name
  unfold Replacements.apply Replacements.rename
  cases found : ρ.find? name with
  | none => rfl
  | some x => exact integer_variable (renames name x found).1 env

theorem depends_free (answers : CallValues ℚ) (e : Expr) :
    DependsOn (fun env => Expr.exact answers env e) {name | Free name e} :=
  fun _ _ same => exactIn_congr e (fun name free => congrArg (Int.cast : Int → ℚ) (same name free))
    fun _ _ _ _ => rfl

/-- What summing over leftover variables achieves: the sum of the matched adjoint over the rest is
that of the new expression over the renamed rest, which consists of reduction variables. -/
structure Summed (answers : CallValues ℚ) (declared : List String) (r later : Registry)
    (past : String → Prop) (rest : Scope) (rename : String → String) (matched e : Expr) : Prop where
  held : later.Holds e
  shaped : Shaped e
  binds : ∀ name, Binds e name → Binds matched name
  calls : ∀ callee, e.Calls callee ↔ matched.Calls callee
  placed : ∀ y name, Subnode y e → y.variableName? = some name → Free name e →
    past name ∧ y.isPureVariable = true ∨ ∃ entry ∈ rest, name = rename entry.1 ∧
      later.IsAxis entry.2 y
  injective : ∀ a ∈ rest.names, ∀ b ∈ rest.names, rename a = rename b → a = b
  fixes : ∀ name, past name → rename name = name
  fresh : ∀ name ∈ rest.names, name ∉ declared ∧ rename name = name ∨
    ∃ n axis, r.names ≤ n ∧ rename name = axisName (generatedName "r" n) axis
  free : ∀ name ∈ rest.names, Free (rename name) e ↔ Free name matched
  sum : ∀ env, sumOver (fun env => exact answers env e) (rest.renamed rename) env =
    sumOver (fun env => exact answers env matched) rest fun name => env (rename name)

/-- Axes over the bounds, with new names, take the place of the declared variables that are free in
the matched adjoint. -/
structure Leftover (answers : CallValues ℚ) (declared : List String) (bound : String → Prop)
    (r : Registry) (rest : Scope) (past : String → Prop) (matched : Expr) (bounds : Domain) (n : Nat)
    (vars : List Expr) (replacements : Replacements) : Prop where
  atLeast : r.names ≤ n
  heldBounds : r.HoldsDomain bounds
  matching : Matching answers declared bound r rest past [] matched
  ranged : ∀ entry ∈ rest, ∀ i : Nat, declared[i]? = some entry.1 →
    ∃ range, bounds[i]? = some range ∧ rangeEnds range = entry.2
  unissued : ∀ name, past name ∨ name ∈ rest.names → Unissued r.names name
  boundUnissued : ∀ name, bound name → Unissued r.names name
  areAxes : AreAxes (generatedName "r" n) 0 bounds vars
  areReplacements : LeftoverReplacements declared (matched.freeNames.filter declared.contains) vars
    replacements

section

variable {answers : CallValues ℚ} {declared : List String} {r later : Registry} {rest : Scope}
  {past bound : String → Prop} {matched e : Expr} {bounds : Domain} {vars : List Expr} {n : Nat}
  {replacements : Replacements}

namespace Leftover

variable (leftover : Leftover answers declared bound r rest past matched bounds n vars replacements)

include leftover

theorem cases (name : String) :
    (Free name matched → name ∉ declared) ∧ replacements.find? name = none ∧
        replacements.rename name = name ∨
      ∃ (i : Nat) (node : NodeId) (least extent : Expr), Free name matched ∧
        declared[i]? = some name ∧ bounds[i]? = some (least, extent) ∧
        replacements.find? name =
          some (.reduction node (generatedName "r" n) i least extent) ∧
        replacements.rename name = axisName (generatedName "r" n) i := by
  have shaped := leftover.matching.shaped
  unfold Replacements.rename
  rcases leftover.areReplacements.find? name with ⟨absent, none⟩ | ⟨i, v, member, inDeclared, inVars, found⟩
  · refine .inl ⟨fun free isDeclared => absent (List.mem_filter.2 ⟨?_, ?_⟩), none, by rw [none]⟩
    · exact (mem_freeNames shaped).2 free
    · simpa using isDeclared
  · obtain ⟨node, least, extent, inBounds, rfl⟩ := leftover.areAxes i v inVars
    rw [Nat.zero_add] at found
    refine .inr ⟨i, node, least, extent, ?_, inDeclared, inBounds, found, by rw [found]; rfl⟩
    exact (mem_freeNames shaped).1 (List.mem_filter.1 member).1

theorem renames : replacements.Renames := by
  intro name x found
  rcases leftover.cases name with ⟨_, none, _⟩ | ⟨i, node, least, extent, _, _, _, some, _⟩
  · rw [none] at found
    cases found
  · rw [some] at found
    cases found
    exact ⟨rfl, .axis trivial⟩

theorem avoids : replacements.Avoids matched := by
  intro name isBound
  have isName := leftover.matching.binds name isBound
  refine ⟨?_, fun other x found mentioned => ?_⟩
  · rcases leftover.cases name with ⟨_, none, _⟩ | ⟨_, _, _, _, free, _⟩
    · exact none
    · obtain ⟨notPast, notScope⟩ := leftover.matching.unbound name isName
      exact absurd (leftover.matching.used (.head _) free) (not_or.2 ⟨notPast, notScope⟩)
  · rcases leftover.cases other with ⟨_, none, _⟩ | ⟨i, _, _, _, _, _, _, some, _⟩
    · rw [none] at found
      cases found
    · rw [some] at found
      cases found
      exact (leftover.boundUnissued name isName n leftover.atLeast "r").2 i
        (mentions_reduction.1 mentioned).symm

/-- The axes have new names, so that none of them is one of the names that stay. -/
theorem injective {a b : String} (known : past a ∨ a ∈ rest.names) (known' : past b ∨ b ∈ rest.names)
    (same : replacements.rename a = replacements.rename b) : a = b := by
  have isNew {name : String} (known : past name ∨ name ∈ rest.names) (i : Nat) :
      name ≠ axisName (generatedName "r" n) i :=
    (leftover.unissued name known n leftover.atLeast "r").2 i
  rcases leftover.cases a with ⟨_, _, keepsA⟩ | ⟨i, _, _, _, _, atI, _, _, toI⟩ <;>
  rcases leftover.cases b with ⟨_, _, keepsB⟩ | ⟨j, _, _, _, _, atJ, _, _, toJ⟩
  · rwa [keepsA, keepsB] at same
  · rw [keepsA, toJ] at same
    exact absurd same (isNew known j)
  · rw [toI, keepsB] at same
    exact absurd same.symm (isNew known' i)
  · rw [toI, toJ] at same
    rw [axisName_injective same] at atI
    exact Option.some.inj (atI.symm.trans atJ)

theorem fixes {name : String} (isPast : past name) : replacements.rename name = name := by
  rcases leftover.cases name with ⟨_, _, keeps⟩ | ⟨i, _, _, _, _, inDeclared, _⟩
  · exact keeps
  · exact absurd (List.mem_of_getElem? inDeclared) (leftover.matching.apart name isPast).2

theorem gives_iff {name other : String} :
    replacements.Gives name other ↔ replacements.rename name = other := by
  unfold Replacements.Gives
  rcases leftover.cases name with ⟨_, none, keeps⟩ | ⟨i, _, _, _, _, _, _, some, toI⟩
  · rw [none, keeps]
  · rw [some, toI]
    exact mentions_reduction

theorem placed (extended : r.Extends later) (replaced : Replaced replacements matched e) {y : Expr}
    {name : String} (within : Subnode y e) (named : y.variableName? = some name)
    (free : Free name e) : past name ∧ y.isPureVariable = true ∨
      ∃ entry ∈ rest, name = replacements.rename entry.1 ∧ later.IsAxis entry.2 y := by
  have matching := leftover.matching
  rcases replaced.free_cases leftover.renames.indices leftover.avoids matching.shaped within named free
    with ⟨inside, isFree, none⟩ | ⟨m, x, isFree, found, inside⟩
  · rcases matching.placed _ (.head _) y name inside named isFree with isPast | ⟨ends, member, kind⟩
    · exact .inl isPast
    · rcases leftover.cases name with ⟨notDeclared, _, keeps⟩ | ⟨_, _, _, _, _, _, _, some, _⟩
      · rcases kind with ⟨isDeclared, _⟩ | ⟨_, isAxis⟩
        · exact absurd isDeclared (notDeclared isFree)
        · exact .inr ⟨_, member, keeps.symm, isAxis.extend extended⟩
      · rw [none] at some
        cases some
  · rcases leftover.cases m with ⟨_, none, _⟩ | ⟨i, node, least, extent, _, atI, inBounds, some, toI⟩
    · rw [none] at found
      cases found
    · rw [some] at found
      cases found
      obtain rfl := subnode_reduction.1 inside
      rcases matching.used (.head _) isFree with isPast | inRest
      · exact absurd (List.mem_of_getElem? atI) (matching.apart m isPast).2
      · obtain ⟨entry, member, rfl⟩ := List.mem_map.1 inRest
        obtain ⟨range, isRange, isEnds⟩ := leftover.ranged entry member i atI
        rw [inBounds] at isRange
        cases isRange
        have heldRange := leftover.heldBounds _ (List.mem_of_getElem? inBounds)
        cases named
        exact .inr ⟨entry, member, toI.symm, node, _, i, least, extent, rfl, isEnds,
          heldRange.1.extend extended, heldRange.2.extend extended⟩

theorem summed (extended : r.Extends later) (held : later.Holds e)
    (replaced : Replaced replacements matched e) :
    Summed answers declared r later past rest replacements.rename matched e := by
  have matching := leftover.matching
  have indices := leftover.renames.indices
  have used (name : String) (free : Free name matched) : past name ∨ name ∈ rest.names :=
    matching.used (.head _) free
  refine ⟨held, replaced.shaped indices matching.shaped, fun name => replaced.binds indices,
    fun callee => replaced.calls indices matching.shaped,
    fun y name => leftover.placed extended replaced,
    fun a inA b inB => leftover.injective (.inr inA) (.inr inB), fun name => leftover.fixes,
    fun name inRest => ?_, fun name inRest => ?_, fun env => ?_⟩
  · rcases leftover.cases name with ⟨notDeclared, _, keeps⟩ | ⟨i, _, _, _, _, _, _, _, toI⟩
    · exact .inl ⟨fun isDeclared =>
        notDeclared (matching.seeded name inRest isDeclared) isDeclared, keeps⟩
    · exact .inr ⟨n, i, leftover.atLeast, toI⟩
  · rw [replaced.free indices leftover.avoids]
    constructor
    · rintro ⟨m, free, gives⟩
      have same := leftover.gives_iff.1 gives
      rwa [leftover.injective (used m free) (.inr inRest) same] at free
    · exact fun free => ⟨name, free, leftover.gives_iff.2 rfl⟩
  · simp only [replaced.exact_rename leftover.renames leftover.avoids]
    exact sumOver_rename (depends_free answers matched) (fun a free b inB same =>
      leftover.injective (used a free) (.inr inB) same) env

end Leftover

theorem ofBounds_sound (bounds : Domain) :
    Builds (ReductionDomain.ofBounds none bounds) r fun later domain => ∃ n, r.names ≤ n ∧
      later.HoldsAll domain.vars ∧ AreAxes (generatedName "r" n) 0 bounds domain.vars := by
  unfold ReductionDomain.ofBounds
  refine Builds.bind (Builds.freshName "r") fun r1 name ext1 made1 => ?_
  refine Builds.bind (axes_sound name 0 bounds) fun r2 vars ext2 made2 => ?_
  refine Builds.pure ⟨r.names, le_rfl, made2.1, ?_⟩
  rw [← made1.2]
  exact made2.2

theorem sumLeftover_sound {p : Program} {ctx : CallContext} (heldBounds : r.HoldsDomain ctx.domain)
    (matching : Matching answers (ctx.args.map Expr.name) bound r rest past [] matched)
    (ranged : ∀ entry ∈ rest, ∀ i : Nat, (ctx.args.map Expr.name)[i]? = some entry.1 →
      ∃ range, ctx.domain[i]? = some range ∧ rangeEnds range = entry.2)
    (unissued : ∀ name, past name ∨ name ∈ rest.names → Unissued r.names name)
    (boundUnissued : ∀ name, bound name → Unissued r.names name) :
    Achieves (sumLeftover ctx matched) r p fun later left e => left.funcs = p.funcs ∧
      ∃ rename, Summed answers (ctx.args.map Expr.name) r later past rest rename matched e := by
  unfold sumLeftover
  dsimp only
  split
  next isEmpty =>
    have noVars : AreAxes (generatedName "r" r.names) 0 ctx.domain [] := fun i v found => by
      simp at found
    have areReplacements : LeftoverReplacements (ctx.args.map Expr.name)
        (matched.freeNames.filter (ctx.args.map Expr.name).contains) [] [] := by
      rw [List.isEmpty_iff.1 isEmpty]
      exact .nil
    have leftover : Leftover answers (ctx.args.map Expr.name) bound r rest past matched ctx.domain
        r.names [] [] :=
      ⟨le_rfl, heldBounds, matching, ranged, unissued, boundUnissued, noVars, areReplacements⟩
    exact Achieves.pure ⟨rfl, Replacements.rename [],
      leftover.summed (.refl r) matching.held (replaced_nil matched)⟩
  next =>
    refine Achieves.bind (Achieves.builds (ofBounds_sound ctx.domain))
      fun r1 p1 domain ext1 made1 => ?_
    obtain ⟨same1, n, atLeast, heldVars, areAxes⟩ := made1
    refine Achieves.bind (Achieves.mapM (P := fun _ name (entry : String × Expr) => entry.1 = name ∧
      ∃ i : Nat, (ctx.args.map Expr.name)[i]? = some name ∧ domain.vars[i]? = some entry.2)
      (fun _ _ _ _ _ placed => placed) _ fun name member s q ext sameFuncs => ?_)
      fun r2 p2 replacements ext2 made2 => ?_
    · split
      next v found =>
        obtain ⟨i, isPosition, inVars⟩ := Option.bind_eq_some_iff.1 found
        exact Achieves.pure ⟨rfl, rfl, i, declaredPosition?_sound isPosition, inVars⟩
      next => exact Achieves.throw
    obtain ⟨same2, areReplacements⟩ := made2
    have heldAll : ∀ x ∈ replacements, r2.Holds x.2 := by
      intro x member
      obtain ⟨_, _, i, _, inVars⟩ := forall₂_mem_right areReplacements member
      exact (heldVars _ (List.mem_of_getElem? inVars)).extend ext2
    have leftover : Leftover answers (ctx.args.map Expr.name) bound r rest past matched ctx.domain n
        domain.vars replacements :=
      ⟨atLeast, heldBounds, matching, ranged, unissued, boundUnissued, areAxes, areReplacements⟩
    refine (Achieves.builds (substitute_sound (fun name isBound => (leftover.avoids name isBound).1)
      (matching.held.extend (ext1.trans ext2)) heldAll)).mono fun r3 p3 e ext3 made3 => ?_
    exact ⟨made3.1.trans (same2.trans same1), Replacements.rename replacements,
      leftover.summed ((ext1.trans ext2).trans ext3) made3.2.1 made3.2.2⟩

end

end ReverseMode
