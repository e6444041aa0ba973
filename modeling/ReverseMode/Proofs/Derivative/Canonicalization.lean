import ReverseMode.Proofs.Derivative.Canonical
import ReverseMode.Proofs.Exact.Ranges

namespace ReverseMode

open Expr

namespace CallContext

def declared (ctx : CallContext) : List String := ctx.args.map Expr.name

def stageScope (ctx : CallContext) : Scope := ctx.declared.zip (ctx.domain.map rangeEnds)

def callingScope (ctx : CallContext) (call adjoint : Expr) : Scope :=
  ctx.stageScope ++ Definition.scope ⟨call.operands, adjoint⟩

variable {ctx : CallContext}

theorem names_stageScope (sameRank : ctx.domain.length = ctx.args.length) :
    ctx.stageScope.names = ctx.declared := by
  refine List.map_fst_zip ?_
  simp [declared, sameRank]

theorem mem_stageScope {entry : String × Int × Int} (member : entry ∈ ctx.stageScope) :
    ∃ (i : Nat) (range : Expr × Expr), ctx.declared[i]? = some entry.1 ∧
      ctx.domain[i]? = some range ∧ rangeEnds range = entry.2 := by
  obtain ⟨i, isEntry⟩ := List.getElem?_of_mem member
  obtain ⟨isName, isEnds⟩ := List.getElem?_zip_eq_some.1 isEntry
  obtain ⟨range, inDomain, same⟩ :=
    Option.map_eq_some_iff.1 ((List.getElem?_map ..).symm.trans isEnds)
  exact ⟨i, range, isName, inDomain, same⟩

end CallContext

/-- A call whose adjoint is scattered. Its arguments are index expressions none of whose variables
cancels out. The free variables of the arguments and the adjoint are those of the stage and reduction
variables, each with its range. The adjoint uses all variables of the stage and vanishes outside of
its domain. Variables of different kinds have different names, and no name that is yet to be generated
is one of them. -/
structure Scatterable (answers : CallValues ℚ) (r : Registry) (ctx : CallContext) (vars : List Expr)
    (ranges : String → Int × Int) (call adjoint : Expr) : Prop where
  heldArgs : r.HoldsAll call.operands
  isIndex : ∀ a ∈ call.operands, Index (fun _ => True) (fun _ => True) a
  matters : ∀ a ∈ call.operands, ∀ name, Mentions a name →
    ∃ env i, a.integer (Function.update env name i) ≠ a.integer env
  held : r.Holds adjoint
  shaped : Shaped adjoint
  heldDomain : r.HoldsDomain ctx.domain
  sameRank : ctx.domain.length = ctx.args.length
  distinct : ctx.declared.Nodup
  placed : ∀ e ∈ call.operands ++ [adjoint], ∀ y, IsFreeVariable e y →
    y.name ∈ ctx.declared ∧ y.isPureVariable = true ∨
      y.name ∉ ctx.declared ∧ y.name ∉ vars.map Expr.name ∧ r.IsAxis (ranges y.name) y
  uses : ∀ name ∈ ctx.declared, Free name adjoint
  vanishes : ∀ env,
    (∀ entry ∈ Definition.scope ⟨call.operands, adjoint⟩, Between entry.2 (env entry.1)) →
    ¬ Within (ctx.domain.map rangeEnds) (ctx.declared.map env) → exact answers env adjoint = 0
  binds : ∀ name, Binds adjoint name → name ∉ ctx.declared ∧ name ∉ vars.map Expr.name ∧
    ∀ e ∈ call.operands ++ [adjoint], ¬ Free name e
  unissued : ∀ name, name ∈ ctx.declared ∨ Binds adjoint name ∨
    (∃ e ∈ call.operands ++ [adjoint], Free name e) → Unissued r.names name

namespace Scatterable

variable {answers : CallValues ℚ} {r : Registry} {ctx : CallContext} {vars : List Expr}
  {ranges : String → Int × Int} {call adjoint : Expr}

variable (scatterable : Scatterable answers r ctx vars ranges call adjoint)

include scatterable

theorem allShaped : ∀ e ∈ call.operands ++ [adjoint], Shaped e := by
  intro e among
  rcases List.mem_append.1 among with isArg | isAdjoint
  · exact (scatterable.isIndex e isArg).plain.shaped
  · obtain rfl := List.mem_singleton.1 isAdjoint
    exact scatterable.shaped

theorem axis_apart {entry : String × Int × Int}
    (member : entry ∈ Definition.scope ⟨call.operands, adjoint⟩) :
    (∃ e ∈ call.operands ++ [adjoint], Free entry.1 e) ∧ entry.1 ∉ ctx.declared ∧
      entry.1 ∉ vars.map Expr.name ∧ entry.2 = ranges entry.1 := by
  obtain ⟨e, among, node, domain, axis, least, extent, free, rfl⟩ :=
    Definition.mem_scope scatterable.allShaped member
  rcases scatterable.placed e among _ free with ⟨_, isPure⟩ | ⟨notDeclared, notVar, isAxis⟩
  · cases isPure
  · obtain ⟨_, _, _, _, _, same, isRange, _⟩ := isAxis
    cases same
    exact ⟨⟨e, among, free.2.2⟩, notDeclared, notVar, isRange⟩

theorem mem_stage {entry : String × Int × Int} (member : entry ∈ ctx.callingScope call adjoint)
    (isDeclared : entry.1 ∈ ctx.declared) : entry ∈ ctx.stageScope :=
  (List.mem_append.1 member).resolve_right fun inAxes =>
    (scatterable.axis_apart inAxes).2.1 isDeclared

theorem mem_names {name : String} (member : name ∈ (ctx.callingScope call adjoint).names) :
    name ∈ ctx.declared ∨ name ∉ vars.map Expr.name ∧
      ∃ e ∈ call.operands ++ [adjoint], Free name e := by
  obtain ⟨entry, inside, rfl⟩ := List.mem_map.1 member
  rcases List.mem_append.1 inside with inStage | inAxes
  · refine .inl ?_
    rw [← CallContext.names_stageScope scatterable.sameRank]
    exact List.mem_map.2 ⟨entry, inStage, rfl⟩
  · obtain ⟨free, _, notVar, _⟩ := scatterable.axis_apart inAxes
    exact .inr ⟨notVar, free⟩

theorem inScope {e y : Expr} (among : e ∈ call.operands ++ [adjoint]) (free : IsFreeVariable e y) :
    r.Scoped ctx.declared (ctx.callingScope call adjoint) (fun _ => False) y y.name := by
  rcases scatterable.placed e among y free with ⟨isDeclared, isPure⟩ | ⟨notDeclared, _, isAxis⟩
  · rw [← CallContext.names_stageScope scatterable.sameRank] at isDeclared
    obtain ⟨entry, inStage, named⟩ := List.mem_map.1 isDeclared
    refine .inr ⟨entry.2, List.mem_append_left _ (named ▸ inStage), .inl ⟨?_, isPure⟩⟩
    rwa [CallContext.names_stageScope scatterable.sameRank] at isDeclared
  · have inScope : y.name ∈ (Definition.scope ⟨call.operands, adjoint⟩).names := by
      refine Definition.name_mem_scope scatterable.allShaped among free.2.2 fun z isFree named => ?_
      rcases scatterable.placed e among z isFree with ⟨isDeclared, _⟩ | ⟨_, _, isAxis⟩
      · exact absurd (named ▸ isDeclared) notDeclared
      · obtain ⟨_, _, _, _, _, rfl, _⟩ := isAxis
        rfl
    obtain ⟨entry, inAxes, named⟩ := List.mem_map.1 inScope
    have isRange := (scatterable.axis_apart inAxes).2.2.2
    refine .inr ⟨ranges y.name, List.mem_append_right _ ?_, .inr ⟨notDeclared, isAxis⟩⟩
    rwa [← named, ← isRange]

theorem matching : Matching answers ctx.declared (Binds adjoint) r (ctx.callingScope call adjoint)
    (fun _ => False) call.operands adjoint where
  heldArgs := scatterable.heldArgs
  isIndex := scatterable.isIndex
  held := scatterable.held
  shaped := scatterable.shaped
  binds _ bound := bound
  placed e among y name within named free := by
    obtain rfl := variableName?_eq_name named
    exact scatterable.inScope (by simpa [or_comm] using among) ⟨within, named, free⟩
  distinct := by
    have names : (ctx.callingScope call adjoint).names =
        ctx.declared ++ (Definition.scope ⟨call.operands, adjoint⟩).names := by
      rw [← CallContext.names_stageScope scatterable.sameRank]
      exact List.map_append
    rw [names, List.nodup_append]
    refine ⟨scatterable.distinct, Definition.nodup_scope _, ?_⟩
    rintro name isDeclared _ inAxes rfl
    obtain ⟨entry, inside, rfl⟩ := List.mem_map.1 inAxes
    exact (scatterable.axis_apart inside).2.1 isDeclared
  apart _ no := no.elim
  unbound name bound := by
    obtain ⟨notDeclared, _, notFree⟩ := scatterable.binds name bound
    refine ⟨id, fun inScope => ?_⟩
    rcases scatterable.mem_names inScope with isDeclared | ⟨_, e, among, free⟩
    · exact notDeclared isDeclared
    · exact notFree e among free
  seeded name _ isDeclared := scatterable.uses name isDeclared
  vanishes entry member isDeclared env between outside := by
    have inAxes : ∀ other ∈ Definition.scope ⟨call.operands, adjoint⟩,
        Between other.2 (env other.1) := fun other inside =>
      between other (List.mem_append_right _ inside) (scatterable.axis_apart inside).2.1
    refine scatterable.vanishes env inAxes fun within => outside ?_
    obtain ⟨i, range, isName, inDomain, same⟩ :=
      CallContext.mem_stageScope (scatterable.mem_stage member isDeclared)
    have isBound : (ctx.domain.map rangeEnds)[i]? = some entry.2 := by
      rw [List.getElem?_map, inDomain, ← same]
      rfl
    have isValue : (ctx.declared.map env)[i]? = some (env entry.1) := by
      rw [List.getElem?_map, isName]
      rfl
    obtain ⟨below, isEnds⟩ := List.getElem?_eq_some_iff.1 isBound
    obtain ⟨below', isNumber⟩ := List.getElem?_eq_some_iff.1 isValue
    have between := within.get below below'
    rwa [List.get_eq_getElem, List.get_eq_getElem, isEnds, isNumber] at between

theorem calling : Calling r ctx (Binds adjoint) (ctx.callingScope call adjoint) where
  held := scatterable.heldDomain
  ranged entry member i named := by
    have isDeclared : entry.1 ∈ ctx.declared := List.mem_of_getElem? named
    obtain ⟨j, range, named', inDomain, same⟩ :=
      CallContext.mem_stageScope (scatterable.mem_stage member isDeclared)
    have below := (List.getElem?_eq_some_iff.1 named).1
    obtain rfl := (List.getElem?_inj below scatterable.distinct).1 (named.trans named'.symm)
    exact ⟨range, inDomain, same⟩
  unissued name inScope := by
    rcases scatterable.mem_names inScope with isDeclared | ⟨_, free⟩
    · exact scatterable.unissued name (.inl isDeclared)
    · exact scatterable.unissued name (.inr (.inr free))
  declared name isDeclared := scatterable.unissued name (.inl isDeclared)
  bound name bound := scatterable.unissued name (.inr (.inl bound))

end Scatterable

theorem Contributes.scope_perm_around {answers : CallValues ℚ} {r : Registry} {scope axes dropped : Scope}
    {args vars : List Expr} {adjoint e value : Expr} (areVars : ∀ v ∈ vars, IsIndexVariable v v.name)
    (contributes : Contributes answers (vars.map Expr.name) r scope args adjoint e axes dropped)
    (shaped : Shaped value) (free : ∀ y, IsFreeVariable value y → IsFreeVariable e y ∨
      y.isPureVariable = true ∧ y.name ∈ vars.map Expr.name)
    (uses : ∀ name, Free name e → Free name value) : (Definition.scope ⟨vars, value⟩).Perm axes := by
  refine Definition.scope_perm ?_ contributes.distinct (fun x among y isFree either => ?_)
    fun name member => ⟨value, by simp, uses name (contributes.used name member)⟩
  · refine List.forall_mem_append.2 ⟨fun v member => (areVars v member).index.plain.shaped, ?_⟩
    exact List.forall_mem_singleton.2 shaped
  · have other (isDeclared : y.name ∈ vars.map Expr.name) : ¬ y.isPureVariable = true := by
      rcases either with isReduction | inAxes
      · cases y <;> simp_all [isPureVariable, isReductionVariable]
      · exact absurd isDeclared (contributes.apart y.name inAxes)
    rcases List.mem_append.1 among with isVar | isResult
    · obtain ⟨same, isPure⟩ := (areVars x isVar).subnode isFree.1 isFree.2.1
      exact absurd isPure (other (List.mem_map.2 ⟨x, isVar, same.symm⟩))
    · obtain rfl := List.mem_singleton.1 isResult
      rcases free y isFree with isFree | ⟨isPure, isDeclared⟩
      · rcases contributes.placed y y.name isFree.1 isFree.2.1 isFree.2.2 with
          ⟨isDeclared, isPure⟩ | ⟨_, ends, member, node, domain, axis, least, extent, same, isRange, _⟩
        · exact absurd isPure (other isDeclared)
        · exact ⟨node, domain, axis, least, extent, same, isRange ▸ member⟩
      · exact absurd isPure (other isDeclared)

theorem Contributes.scope_perm {answers : CallValues ℚ} {r : Registry} {scope axes dropped : Scope}
    {args vars : List Expr} {adjoint e : Expr} (areVars : ∀ v ∈ vars, IsIndexVariable v v.name)
    (contributes : Contributes answers (vars.map Expr.name) r scope args adjoint e axes dropped) :
    (Definition.scope ⟨vars, e⟩).Perm axes :=
  contributes.scope_perm_around areVars contributes.shaped (fun _ => .inl) fun _ => id

/-- At every index the canonical contribution, summed over its reduction variables, is the adjoint
summed over the calling points whose arguments are that index. -/
theorem canonicalize_sum {answers : CallValues ℚ} {r : Registry} {program left : Program}
    {ctx : CallContext} {call adjoint contribution : Expr} {callee : Func} {vars : List Expr}
    {ranges : String → Int × Int} (fits : r.Fits program.supply) (declares : Declares r callee vars)
    (sameLength : call.operands.length = vars.length)
    (scatterable : Scatterable answers r ctx vars ranges call adjoint)
    (run : (canonicalize ctx call callee adjoint).run.run program = (.ok contribution, left))
    {index : List Int} (isIndex : index.length = vars.length) (base : Env) :
    sumOver (fun env => exact answers env contribution) (Definition.scope ⟨vars, contribution⟩)
        (assign (vars.map Expr.name) index base) =
      sumOver (fun env => if index = call.operands.map (Expr.integer env)
        then exact answers env adjoint else 0) (ctx.callingScope call adjoint) base := by
  obtain ⟨later, _, _, _, axes, dropped, contributes⟩ := canonicalize_sound declares
    scatterable.calling sameLength
    (fun name inScope notDeclared => ((scatterable.mem_names inScope).resolve_left notDeclared).1)
    (fun name bound => (scatterable.binds name bound).2.1) scatterable.matching fits contribution left
    run
  -- an axis that was dropped is ignored by the arguments, but all they use matters to them
  have keepsAll : dropped = [] := by
    refine List.eq_nil_iff_forall_not_mem.2 fun entry member => ?_
    obtain ⟨inScope, notFree, ignored⟩ := contributes.ignores entry member
    have inNames : entry.1 ∈ (ctx.callingScope call adjoint).names :=
      List.mem_map.2 ⟨entry, inScope, rfl⟩
    rcases scatterable.mem_names inNames with isDeclared | ⟨_, e, among, free⟩
    · exact notFree (scatterable.uses entry.1 isDeclared)
    · rcases List.mem_append.1 among with isArg | isAdjoint
      · obtain ⟨env, i, differs⟩ := scatterable.matters e isArg entry.1 free.mentions
        exact differs (List.map_inj_left.1 (ignored env i) e isArg)
      · exact notFree (List.mem_singleton.1 isAdjoint ▸ free)
  have total := contributes.total index base (by simpa using isIndex)
  rw [keepsAll] at total
  rw [sumOver_perm (contributes.scope_perm declares.areVars) (Definition.nodup_scope _), ← total]
  simp [Scope.count]

/-!
A stage with a variable `x` in `[0, 3)` calls `f(x + r.x)` for `r.x` in `[0, 2)`. The adjoint of the
call is that of the stage.
-/

namespace Skewed

def x : Expr := .node 0 (.var "x" false) .int32 []

def zero : Expr := .node 1 (.const (.int 0)) .int32 []

def two : Expr := .node 2 (.const (.int 2)) .int32 []

def three : Expr := .node 3 (.const (.int 3)) .int32 []

def axis : Expr := .reduction 4 "r" 0 zero two

def shifted : Expr := .node 5 (.binary .add) .int32 [x, axis]

def call : Expr := .node 6 (.call (.func 0 "f")) .float32 [shifted]

def adjoint : Expr := .node 7 (.call (.func 1 "g_d_ce")) .float32 [x]

def i : Expr := .node 8 (.var "i" false) .int32 []

def value : Expr := .node 9 .cast .float32 [i]

def callee : Func := { name := "f", init := some ⟨[i], value⟩ }

def ctx : CallContext := ⟨⟨"g", -1⟩, [x], [(zero, three)]⟩

def program : Program := { funcs := #[callee], supply := { nodes := 10 } }

def registry : Registry where
  node id := ([x, zero, two, three, axis, shifted, call, adjoint, i, value][id]?).getD x
  next := 10
  names := 0

def answers : CallValues ℚ := fun _ args => if args = [0] ∨ args = [1] ∨ args = [2] then 1 else 0

theorem held {e : Expr} (member : e ∈ [shifted, adjoint, i]) : registry.Holds e := by
  simp only [List.mem_cons, List.not_mem_nil, or_false] at member
  rcases member with rfl | rfl | rfl <;>
    simp [Registry.Holds, Registry.IsRegistered, registry, Expr.id, x, axis, shifted, adjoint, i]

theorem literal {e : Expr} (member : e ∈ [zero, two, three]) : registry.HoldsClosed e := by
  simp only [List.mem_cons, List.not_mem_nil, or_false] at member
  rcases member with rfl | rfl | rfl <;>
    exact
      ⟨by simp [Registry.Holds, Registry.IsRegistered, registry, Expr.id, zero, two, three], .int⟩

theorem indexed : Index (fun _ => True) (fun _ => True) shifted :=
  .add (.var trivial) (.axis trivial)

theorem plain {e : Expr} (member : e ∈ [shifted, adjoint]) : Plain e := by
  simp only [List.mem_cons, List.not_mem_nil, or_false] at member
  rcases member with rfl | rfl
  · exact indexed.plain
  · simp [Plain, IsPlain, Head.arity?, adjoint, x]

theorem mentioned {e : Expr} (member : e ∈ [shifted, adjoint]) {y : Expr} {name : String}
    (within : Subnode y e) (named : y.variableName? = some name) :
    name = "x" ∧ y = x ∨ name = "r.x" ∧ y = axis := by
  simp only [List.mem_cons, List.not_mem_nil, or_false] at member
  rcases member with rfl | rfl <;>
    simp only [shifted, adjoint, x, axis, subnode_node, subnode_reduction, List.mem_cons,
      List.not_mem_nil, or_false, false_and, exists_false, exists_eq_or_imp, exists_eq_left]
      at within
  · rcases within with rfl | rfl | rfl <;> cases named
    · exact .inl ⟨rfl, rfl⟩
    · exact .inr ⟨rfl, rfl⟩
  · rcases within with rfl | rfl <;> cases named
    exact .inl ⟨rfl, rfl⟩

theorem exact_adjoint (env : Env) : exact answers env adjoint =
    if env "x" = 0 ∨ env "x" = 1 ∨ env "x" = 2 then 1 else 0 := by
  have isTwo : (env "x" : ℚ) = 2 ↔ env "x" = 2 := by norm_cast
  simp [adjoint, x, headExact, answers, Env.scalars, isTwo]

theorem declares : Declares registry callee [i] where
  args := ⟨⟨[i], value⟩, rfl, rfl⟩
  held := List.forall_mem_singleton.2 (held (by simp))
  areVars := List.forall_mem_singleton.2 ⟨8, false, rfl⟩
  named := List.forall_mem_singleton.2 (by decide)
  distinct := by decide
  unissued := List.forall_mem_singleton.2 (unissued_of_plain (by decide) 0)

theorem scatterable : Scatterable answers registry ctx [i] (fun _ => (0, 1)) call adjoint where
  heldArgs := List.forall_mem_singleton.2 (held (by simp))
  isIndex := List.forall_mem_singleton.2 indexed
  matters := by
    refine List.forall_mem_singleton.2 fun name ⟨y, within, named⟩ => ⟨fun _ => 0, 1, ?_⟩
    rcases mentioned (.head _) within named with ⟨rfl, rfl⟩ | ⟨rfl, rfl⟩ <;> decide
  held := held (by simp)
  shaped := (plain (by simp)).shaped
  heldDomain := List.forall_mem_singleton.2 ⟨literal (by simp), literal (by simp)⟩
  sameRank := rfl
  distinct := by decide
  placed e among y free := by
    rcases mentioned among free.1 free.2.1 with ⟨name, rfl⟩ | ⟨name, rfl⟩
    · exact .inl ⟨by decide, rfl⟩
    · exact .inr ⟨by decide, by decide, 4, "r", 0, zero, two, rfl, rfl, literal (by simp),
        literal (by simp)⟩
  uses := List.forall_mem_singleton.2 (.operand (by simp) (by simp) (.head _) .var)
  vanishes env _ outside := by
    rw [exact_adjoint, if_neg fun inside => outside ?_]
    refine .cons ?_ .nil
    change 0 ≤ env "x" ∧ env "x" ≤ 2
    omega
  binds name bound := absurd bound ((plain (by simp)).not_binds name)
  unissued name used := by
    have isVariable : name = "x" ∨ name = "r.x" := by
      rcases used with isDeclared | bound | ⟨e, among, free⟩
      · exact .inl (List.mem_singleton.1 isDeclared)
      · exact absurd bound ((plain (by simp)).not_binds name)
      · obtain ⟨y, within, named⟩ := free.mentions
        exact (mentioned among within named).imp And.left And.left
    rcases isVariable with rfl | rfl <;> exact unissued_of_plain (by decide) 0

/-- The contribution to `f` at `1` comes from the points `(1, 0)` and `(0, 1)`. -/
theorem sum_at_one : ∃ contribution left,
    (canonicalize ctx call callee adjoint).run.run program = (.ok contribution, left) ∧
      sumOver (fun env => exact answers env contribution) (Definition.scope ⟨[i], contribution⟩)
          (assign ["i"] [1] zeroEnv) =
        sumOver (fun env => if [1] = call.operands.map (Expr.integer env)
          then exact answers env adjoint else 0) (ctx.callingScope call adjoint) zeroEnv := by
  have answers :
      ((canonicalize ctx call callee adjoint).run.run program).1.toOption.isSome = true := by
    decide +kernel
  cases run : (canonicalize ctx call callee adjoint).run.run program with
  | mk result left =>
      rw [run] at answers
      cases result with
      | error => cases answers
      | ok contribution =>
          have fits : registry.Fits program.supply := ⟨rfl, rfl⟩
          exact ⟨contribution, left, rfl,
            canonicalize_sum fits declares rfl scatterable run rfl zeroEnv⟩

end Skewed

end ReverseMode
