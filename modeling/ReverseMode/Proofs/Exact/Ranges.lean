import ReverseMode.Proofs.Exact.Sums

namespace ReverseMode

open Expr

namespace Realizer

def noteRange (seen : List (String × Expr × Expr)) (v : Expr) : List (String × Expr × Expr) :=
  match v with
  | .reduction _ domain axis least extent =>
      let name := axisName domain axis
      if (seen.lookup name).isSome then seen else seen ++ [(name, least, extent)]
  | _ => seen

theorem reductionRanges_eq (d : Definition) : reductionRanges d =
    ((d.args ++ [d.value]).flatMap Expr.freeVariables).foldl noteRange [] := rfl

theorem nodup_noteRange {seen : List (String × Expr × Expr)} (distinct : (seen.map Prod.fst).Nodup)
    (v : Expr) : ((noteRange seen v).map Prod.fst).Nodup := by
  unfold noteRange
  split
  next node domain axis least extent =>
    dsimp only
    split
    next => exact distinct
    next unknown =>
      rw [List.map_append, List.nodup_append]
      refine ⟨distinct, List.nodup_singleton _, fun name member other isNew same => unknown ?_⟩
      obtain rfl : other = axisName domain axis := by simpa using isNew
      rw [List.lookup_isSome_iff]
      obtain ⟨entry, inside, isName⟩ := List.mem_map.1 member
      exact ⟨entry, inside, by simp [isName, same]⟩
  next => exact distinct

theorem mem_noteRange {seen : List (String × Expr × Expr)} {v : Expr}
    {entry : String × Expr × Expr} (member : entry ∈ noteRange seen v) : entry ∈ seen ∨
      ∃ node domain axis, v = .reduction node domain axis entry.2.1 entry.2.2 ∧
        entry.1 = axisName domain axis := by
  unfold noteRange at member
  split at member
  next node domain axis least extent =>
    dsimp only at member
    split at member
    next => exact .inl member
    next =>
      rcases List.mem_append.1 member with old | new
      · exact .inl old
      · obtain rfl := List.mem_singleton.1 new
        exact .inr ⟨node, domain, axis, rfl, rfl⟩
  next => exact .inl member

theorem names_noteRange {seen : List (String × Expr × Expr)} {v : Expr} {name : String}
    (either : name ∈ seen.map Prod.fst ∨ ∃ node domain axis least extent,
      v = .reduction node domain axis least extent ∧ name = axisName domain axis) :
    name ∈ (noteRange seen v).map Prod.fst := by
  unfold noteRange
  rcases either with old | ⟨node, domain, axis, least, extent, rfl, rfl⟩
  · split
    next =>
      dsimp only
      split
      · exact old
      · rw [List.map_append]
        exact List.mem_append_left _ old
    next => exact old
  · dsimp only
    split
    next known =>
      rw [List.lookup_isSome_iff] at known
      obtain ⟨entry, inside, same⟩ := known
      exact List.mem_map.2 ⟨entry, inside, (eq_of_beq same).symm⟩
    next => simp

theorem nodup_reductionRanges (d : Definition) : ((reductionRanges d).map Prod.fst).Nodup := by
  rw [reductionRanges_eq]
  generalize (d.args ++ [d.value]).flatMap Expr.freeVariables = vars
  suffices ∀ seen : List (String × Expr × Expr), (seen.map Prod.fst).Nodup →
      ((vars.foldl noteRange seen).map Prod.fst).Nodup from this [] List.nodup_nil
  induction vars with
  | nil => exact fun _ distinct => distinct
  | cons v rest ih => exact fun seen distinct => ih _ (nodup_noteRange distinct v)

theorem mem_reductionRanges {d : Definition} {entry : String × Expr × Expr}
    (member : entry ∈ reductionRanges d) : ∃ e ∈ d.args ++ [d.value], ∃ node domain axis,
      .reduction node domain axis entry.2.1 entry.2.2 ∈ e.freeVariables ∧
        entry.1 = axisName domain axis := by
  have noted : ∃ v ∈ (d.args ++ [d.value]).flatMap Expr.freeVariables, ∃ node domain axis,
      v = .reduction node domain axis entry.2.1 entry.2.2 ∧ entry.1 = axisName domain axis := by
    rw [reductionRanges_eq] at member
    revert member
    generalize (d.args ++ [d.value]).flatMap Expr.freeVariables = vars
    intro member
    suffices ∀ seen : List (String × Expr × Expr), entry ∈ vars.foldl noteRange seen →
        entry ∈ seen ∨ ∃ v ∈ vars, ∃ node domain axis,
          v = .reduction node domain axis entry.2.1 entry.2.2 ∧ entry.1 = axisName domain axis from
      (this [] member).resolve_left fun no => nomatch no
    clear member
    induction vars with
    | nil => exact fun _ old => .inl old
    | cons v rest ih =>
        intro seen member
        rcases ih _ member with now | ⟨w, inside, found⟩
        · exact (mem_noteRange now).imp_right fun found => ⟨v, .head _, found⟩
        · exact .inr ⟨w, .tail _ inside, found⟩
  obtain ⟨v, inside, node, domain, axis, rfl, named⟩ := noted
  obtain ⟨e, among, free⟩ := List.mem_flatMap.1 inside
  exact ⟨e, among, node, domain, axis, free, named⟩

theorem names_reductionRanges {d : Definition} {e : Expr} (among : e ∈ d.args ++ [d.value])
    {node : NodeId} {domain : String} {axis : Nat} {least extent : Expr}
    (free : .reduction node domain axis least extent ∈ e.freeVariables) :
    axisName domain axis ∈ (reductionRanges d).map Prod.fst := by
  have inside := List.mem_flatMap.2 ⟨e, among, free⟩
  rw [reductionRanges_eq]
  revert inside
  generalize (d.args ++ [d.value]).flatMap Expr.freeVariables = vars
  intro inside
  have kept (vars : List Expr) : ∀ seen : List (String × Expr × Expr),
      axisName domain axis ∈ seen.map Prod.fst →
      axisName domain axis ∈ (vars.foldl noteRange seen).map Prod.fst := by
    induction vars with
    | nil => exact fun _ old => old
    | cons v rest ih => exact fun seen old => ih _ (names_noteRange (.inl old))
  suffices ∀ seen : List (String × Expr × Expr),
      axisName domain axis ∈ (vars.foldl noteRange seen).map Prod.fst from this []
  induction vars with
  | nil => cases inside
  | cons v rest ih =>
      intro seen
      cases inside with
      | head => exact kept rest _ (names_noteRange (.inr ⟨node, domain, axis, least, extent, rfl, rfl⟩))
      | tail _ later => exact ih later _

end Realizer

namespace Definition

variable {d : Definition}

theorem scope_names (d : Definition) :
    d.scope.names = (Realizer.reductionRanges d).map Prod.fst := by
  simp [scope, Scope.names, Function.comp_def]

theorem nodup_scope (d : Definition) : d.scope.names.Nodup := by
  rw [scope_names]
  exact Realizer.nodup_reductionRanges d

theorem mem_scope (shaped : ∀ e ∈ d.args ++ [d.value], Shaped e) {entry : String × Int × Int}
    (member : entry ∈ d.scope) : ∃ e ∈ d.args ++ [d.value], ∃ node domain axis least extent,
      IsFreeVariable e (.reduction node domain axis least extent) ∧
        entry = (axisName domain axis, rangeEnds (least, extent)) := by
  obtain ⟨⟨name, least, extent⟩, inside, rfl⟩ := List.mem_map.1 member
  obtain ⟨e, among, node, domain, axis, free, named⟩ := Realizer.mem_reductionRanges inside
  exact ⟨e, among, node, domain, axis, least, extent, mem_freeVariables (shaped e among) free,
    Prod.ext named rfl⟩

theorem name_mem_scope (shaped : ∀ e ∈ d.args ++ [d.value], Shaped e) {e : Expr}
    (among : e ∈ d.args ++ [d.value]) {name : String} (free : Free name e)
    (only : ∀ y, IsFreeVariable e y → y.name = name → y.isReductionVariable = true) :
    name ∈ d.scope.names := by
  obtain ⟨v, collected, named⟩ := List.mem_map.1 ((mem_freeNames (shaped e among)).2 free)
  have isReduction := only v (mem_freeVariables (shaped e among) collected) named
  rw [scope_names]
  cases v with
  | node => cases isReduction
  | reduction node domain axis least extent =>
      rw [← named]
      exact Realizer.names_reductionRanges among collected

theorem scope_perm (shaped : ∀ e ∈ d.args ++ [d.value], Shaped e) {axes : Scope}
    (distinct : axes.names.Nodup)
    (placed : ∀ e ∈ d.args ++ [d.value], ∀ y, IsFreeVariable e y →
      y.isReductionVariable = true ∨ y.name ∈ axes.names → ∃ node domain axis least extent,
        y = .reduction node domain axis least extent ∧ (y.name, rangeEnds (least, extent)) ∈ axes)
    (used : ∀ name ∈ axes.names, ∃ e ∈ d.args ++ [d.value], Free name e) : d.scope.Perm axes := by
  have within {entry : String × Int × Int} (member : entry ∈ d.scope) : entry ∈ axes := by
    obtain ⟨e, among, node, domain, axis, least, extent, free, rfl⟩ := mem_scope shaped member
    obtain ⟨_, _, _, _, _, same, isEntry⟩ := placed e among _ free (.inl rfl)
    cases same
    exact isEntry
  refine (List.perm_ext_iff_of_nodup (List.Nodup.of_map _ (nodup_scope d))
    (List.Nodup.of_map _ distinct)).2 fun entry => ⟨within, fun member => ?_⟩
  have inAxes : entry.1 ∈ axes.names := List.mem_map.2 ⟨entry, member, rfl⟩
  obtain ⟨e, among, free⟩ := used entry.1 inAxes
  have inScope : entry.1 ∈ d.scope.names := by
    refine name_mem_scope shaped among free fun y isFree named => ?_
    obtain ⟨_, _, _, _, _, rfl, _⟩ := placed e among y isFree (.inr (named ▸ inAxes))
    rfl
  obtain ⟨other, isOther, sameName⟩ := List.mem_map.1 inScope
  rwa [← List.inj_on_of_nodup_map distinct (within isOther) member sameName]

end Definition

end ReverseMode
