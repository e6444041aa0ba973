import ReverseMode.Proofs.Exact.Index
import ReverseMode.Proofs.Nodes.Building

namespace ReverseMode

open Expr

/-- The second expression is the first with every variable that has a replacement replaced. -/
inductive Replaced (ρ : Replacements) : Expr → Expr → Prop where
  | var {id : NodeId} {name : String} {index : Bool} {dtype : DType} {operands : List Expr} :
      Replaced ρ (.node id (.var name index) dtype operands)
        ((ρ.find? name).getD (.node id (.var name index) dtype operands))
  | axis {id : NodeId} {domain : String} {axis : Nat} {least extent : Expr} :
      Replaced ρ (.reduction id domain axis least extent)
        ((ρ.find? (axisName domain axis)).getD (.reduction id domain axis least extent))
  | node {id id' : NodeId} {head : Head} {dtype : DType} {operands operands' : List Expr} :
      (∀ name index, head ≠ .var name index) →
      List.Forall₂ (Replaced ρ) operands operands' →
      Replaced ρ (.node id head dtype operands) (.node id' head dtype operands')

theorem replaced_nil (e : Expr) : Replaced [] e e := by
  induction e using Expr.induction with
  | node id head dtype operands ih =>
      by_cases isVar : ∃ name index, head = .var name index
      · obtain ⟨name, index, rfl⟩ := isVar
        exact .var
      · refine .node (fun name index same => isVar ⟨name, index, same⟩) ?_
        exact List.forall₂_same.2 ih
  | reduction => exact .axis

mutual

/-- The second expression is the first with the variables replaced that have a replacement and are
not shadowed. A node over unchanged operands is the very node it was. -/
inductive ReplacedUnder (ρ : Replacements) : List String → Expr → Expr → Prop where
  | var {shadowed : List String} {id : NodeId} {name : String} {index : Bool} {dtype : DType}
      {operands : List Expr} :
      ReplacedUnder ρ shadowed (.node id (.var name index) dtype operands)
        (replaceVariable ρ shadowed name (.node id (.var name index) dtype operands))
  | axis {shadowed : List String} {id : NodeId} {domain : String} {axis : Nat}
      {least extent : Expr} :
      ReplacedUnder ρ shadowed (.reduction id domain axis least extent)
        (replaceVariable ρ shadowed (axisName domain axis)
          (.reduction id domain axis least extent))
  | letIn {shadowed : List String} {id id' : NodeId} {name : String} {dtype : DType}
      {value body value' body' : Expr} :
      ReplacedUnder ρ shadowed value value' →
      ReplacedUnder ρ (insertName name shadowed) body body' →
      (value' = value → body' = body → id' = id) →
      ReplacedUnder ρ shadowed (.node id (.letIn name) dtype [value, body])
        (.node id' (.letIn name) dtype [value', body'])
  | node {shadowed : List String} {id id' : NodeId} {head : Head} {dtype : DType}
      {operands operands' : List Expr} :
      (∀ name index, head ≠ .var name index) → ¬ IsBinding head operands →
      AllReplacedUnder ρ shadowed operands operands' → (operands' = operands → id' = id) →
      ReplacedUnder ρ shadowed (.node id head dtype operands) (.node id' head dtype operands')

inductive AllReplacedUnder (ρ : Replacements) : List String → List Expr → List Expr → Prop where
  | nil {shadowed : List String} : AllReplacedUnder ρ shadowed [] []
  | cons {shadowed : List String} {e e' : Expr} {es es' : List Expr} :
      ReplacedUnder ρ shadowed e e' → AllReplacedUnder ρ shadowed es es' →
      AllReplacedUnder ρ shadowed (e :: es) (e' :: es')

end

theorem allReplacedUnder_iff {ρ : Replacements} {shadowed : List String} {es es' : List Expr} :
    AllReplacedUnder ρ shadowed es es' ↔ List.Forall₂ (ReplacedUnder ρ shadowed) es es' := by
  induction es generalizing es' with
  | nil => exact ⟨fun all => by cases all; exact .nil, fun all => by cases all; exact .nil⟩
  | cons e rest ih =>
      constructor
      · intro all
        cases all with
        | cons first others => exact .cons first (ih.1 others)
      · intro all
        cases all with
        | cons first others => exact .cons first (ih.2 others)

def Registry.Remembers (r : Registry) (ρ : Replacements) (memo : SubstitutionMemo) : Prop :=
  ∀ id shadowed e, (memo.getD id []).lookup shadowed = some e →
    id < r.next ∧ ReplacedUnder ρ shadowed (r.node id) e ∧ r.Holds e

theorem Registry.Remembers.extend {r later : Registry} {ρ : Replacements} {memo : SubstitutionMemo}
    (remembers : r.Remembers ρ memo) (extended : r.Extends later) : later.Remembers ρ memo := by
  intro id shadowed e known
  obtain ⟨old, replaced, held⟩ := remembers id shadowed e known
  refine ⟨lt_of_lt_of_le old extended.next_le, ?_, held.extend extended⟩
  rw [extended.node_eq id old]
  exact replaced

theorem Registry.Remembers.insert {r : Registry} {ρ : Replacements} {memo : SubstitutionMemo}
    (remembers : r.Remembers ρ memo) {e e' : Expr} (held : r.Holds e) (heldResult : r.Holds e')
    {shadowed : List String} (replaced : ReplacedUnder ρ shadowed e e') :
    r.Remembers ρ (memo.insert e.id ((shadowed, e') :: memo.getD e.id [])) := by
  intro id shadowed' known found
  rw [Std.TreeMap.getD_insert] at found
  split at found
  next same =>
    rw [← compare_eq_iff_eq.1 same] at *
    rw [List.lookup_cons] at found
    split at found
    next sameNames =>
      cases found
      rw [held.here.2, eq_of_beq sameNames]
      exact ⟨held.here.1, replaced, heldResult⟩
    next => exact remembers _ shadowed' known found
  next => exact remembers id shadowed' known found

theorem Builds.run_bind {σ α β : Type} {action : StateT σ NodeM α} {rest : α → StateT σ NodeM β}
    {state : σ} {r : Registry} {Q : Registry → α × σ → Prop} {R : Registry → β × σ → Prop}
    (first : Builds (action.run state) r Q)
    (second : ∀ later result, r.Extends later → Q later result →
      Builds ((rest result.1).run result.2) later R) : Builds ((action >>= rest).run state) r R := by
  rw [StateT.run_bind]
  exact Builds.bind first second

theorem Builds.run_lift {σ α : Type} {action : NodeM α} {state : σ} {r : Registry}
    {Q : Registry → α → Prop} (built : Builds action r Q) :
    Builds ((liftM action : StateT σ NodeM α).run state) r fun later result =>
      Q later result.1 ∧ result.2 = state := by
  intro supply fits
  obtain ⟨later, extended, fitsLater, answer⟩ := built supply fits
  exact ⟨later, extended, fitsLater, answer, rfl⟩

def Substitutes (ρ : Replacements) (e : Expr) : Prop :=
  ∀ (r : Registry) (memo : SubstitutionMemo) (shadowed : List String),
    r.Holds e → (∀ x ∈ ρ, r.Holds x.2) → r.Remembers ρ memo →
    Builds ((substituteUnder ρ shadowed e).run memo) r fun later result =>
      later.Holds result.1 ∧ ReplacedUnder ρ shadowed e result.1 ∧ later.Remembers ρ result.2

theorem find?_mem {ρ : Replacements} {name : String} {e : Expr} (found : ρ.find? name = some e) :
    (name, e) ∈ ρ := by
  unfold Replacements.find? at found
  induction ρ with
  | nil => cases found
  | cons entry rest ih =>
      obtain ⟨other, x⟩ := entry
      rw [List.lookup_cons] at found
      split at found
      next same =>
        rw [beq_iff_eq.1 same]
        cases found
        exact .head _
      next => exact .tail _ (ih found)

theorem replaceVariable_shadowed {ρ : Replacements} {shadowed : List String} {name : String}
    (isShadowed : name ∈ shadowed) (e : Expr) : replaceVariable ρ shadowed name e = e :=
  if_pos (List.contains_iff_mem.2 isShadowed)

theorem replaceVariable_open {ρ : Replacements} {shadowed : List String} {name : String}
    (isOpen : name ∉ shadowed) (e : Expr) :
    replaceVariable ρ shadowed name e = (ρ.find? name).getD e :=
  if_neg (by simpa using isOpen)

theorem holds_replaceVariable {ρ : Replacements} {r : Registry} {shadowed : List String}
    {name : String} {e : Expr} (held : r.Holds e) (heldAll : ∀ x ∈ ρ, r.Holds x.2) :
    r.Holds (replaceVariable ρ shadowed name e) := by
  by_cases isShadowed : name ∈ shadowed
  · rwa [replaceVariable_shadowed isShadowed]
  · rw [replaceVariable_open isShadowed]
    cases found : ρ.find? name with
    | none => exact held
    | some x => exact heldAll _ (find?_mem found)

theorem recalled_sound {ρ : Replacements} {r : Registry} {memo : SubstitutionMemo}
    {shadowed : List String} {e : Expr} {compute : SubstituteM Expr}
    (held : r.Holds e) (remembers : r.Remembers ρ memo)
    (computes : Builds (compute.run memo) r fun later result =>
      later.Holds result.1 ∧ ReplacedUnder ρ shadowed e result.1 ∧ later.Remembers ρ result.2) :
    Builds ((recalled e.id shadowed compute).run memo) r fun later result =>
      later.Holds result.1 ∧ ReplacedUnder ρ shadowed e result.1 ∧ later.Remembers ρ result.2 := by
  unfold recalled
  refine Builds.run_bind (Q := fun later result => later = r ∧ result = (memo, memo))
    (Builds.pure ⟨rfl, rfl⟩) fun r1 result ext1 ⟨same, isMemo⟩ => ?_
  subst same isMemo
  dsimp only
  split
  next known found =>
    obtain ⟨old, replaced, heldKnown⟩ := remembers e.id shadowed known found
    rw [held.here.2] at replaced
    exact Builds.pure ⟨heldKnown, replaced, remembers⟩
  next unknown =>
    refine Builds.run_bind computes fun r2 result ext2 made2 => Builds.pure ⟨made2.1, made2.2.1, ?_⟩
    exact made2.2.2.insert (held.extend ext2) made2.1 made2.2.1

theorem rebuild_sound {ρ : Replacements} {r : Registry} {memo : SubstitutionMemo} {id : NodeId}
    {head : Head} {dtype : DType} {operands operands' : List Expr}
    (held : r.Holds (.node id head dtype operands)) (heldNew : r.HoldsAll operands')
    (sameLength : operands'.length = operands.length) (remembers : r.Remembers ρ memo) :
    Builds ((rebuild (.node id head dtype operands) operands' : SubstituteM Expr).run memo) r
      fun later result => later.Holds result.1 ∧ (∃ id', result.1 = .node id' head dtype operands' ∧
        (operands' = operands → id' = id)) ∧ later.Remembers ρ result.2 := by
  refine (Builds.run_lift (Builds.rebuild_same held heldNew sameLength)).mono
    fun later result ext ⟨made, sameMemo⟩ => ?_
  obtain ⟨⟨heldResult, id', isNode⟩, same⟩ := made
  refine ⟨heldResult, ⟨id', isNode, fun unchanged => ?_⟩, sameMemo ▸ remembers.extend ext⟩
  have sameId := same unchanged
  rwa [isNode] at sameId

theorem substituteAll_sound {ρ : Replacements} {es : List Expr}
    (each : ∀ e ∈ es, Substitutes ρ e) {r : Registry} {memo : SubstitutionMemo}
    {shadowed : List String} (held : r.HoldsAll es) (heldAll : ∀ x ∈ ρ, r.Holds x.2)
    (remembers : r.Remembers ρ memo) :
    Builds ((substituteAllUnder ρ shadowed es).run memo) r fun later result =>
      later.HoldsAll result.1 ∧ List.Forall₂ (ReplacedUnder ρ shadowed) es result.1 ∧
        later.Remembers ρ result.2 := by
  induction es generalizing r memo with
  | nil =>
      rw [substituteAllUnder]
      exact Builds.pure ⟨.nil, .nil, remembers⟩
  | cons e rest ih =>
      rw [substituteAllUnder]
      obtain ⟨heldFirst, heldRest⟩ := List.forall_mem_cons.1 held
      refine Builds.run_bind (each e (.head _) r memo shadowed heldFirst heldAll remembers)
        fun r1 first ext1 made1 => ?_
      refine Builds.run_bind (ih (fun x member => each x (.tail _ member))
        (Registry.HoldsAll.extend heldRest ext1) (fun x member => (heldAll x member).extend ext1)
        made1.2.2) fun r2 others ext2 made2 => ?_
      exact Builds.pure ⟨.cons (made1.1.extend ext2) made2.1, .cons made1.2.1 made2.2.1, made2.2.2⟩

theorem substituteUnder_sound (ρ : Replacements) (e : Expr) : Substitutes ρ e := by
  induction e using Expr.induction with
  | node id head dtype operands ih =>
      intro r memo shadowed held heldAll remembers
      unfold substituteUnder
      split
      next same =>
        cases same
        exact Builds.pure ⟨holds_replaceVariable held heldAll, .var, remembers⟩
      next name _ value body same =>
        cases same
        refine recalled_sound held remembers ?_
        refine Builds.run_bind (ih value (.head _) r memo shadowed
          (held.operands _ (.head _)) heldAll remembers) fun r1 newValue ext1 made1 => ?_
        refine Builds.run_bind (ih body (.tail _ (.head _)) r1 _ _
          ((held.operands _ (.tail _ (.head _))).extend ext1)
          (fun x member => (heldAll x member).extend ext1) made1.2.2)
          fun r2 newBody ext2 made2 => ?_
        refine (rebuild_sound (held.extend (ext1.trans ext2))
          (.pair (made1.1.extend ext2) made2.1) rfl made2.2.2).mono fun r3 result _ made3 => ?_
        obtain ⟨heldResult, ⟨id', isNode, same⟩, remembersLater⟩ := made3
        refine ⟨heldResult, isNode ▸ .letIn made1.2.1 made2.2.1 fun sameValue sameBody => ?_,
          remembersLater⟩
        exact same (by rw [sameValue, sameBody])
      next notVar notLet same =>
        cases same
        refine recalled_sound held remembers ?_
        refine Builds.run_bind (substituteAll_sound ih held.operands heldAll remembers)
          fun r1 operands' ext1 made1 => ?_
        refine (rebuild_sound (held.extend ext1) made1.1 made1.2.1.length_eq.symm made1.2.2).mono
          fun r2 result _ made2 => ?_
        obtain ⟨heldResult, ⟨id', isNode, same⟩, remembersLater⟩ := made2
        refine ⟨heldResult, isNode ▸ .node (fun name index isVar => ?_) ?_
          (allReplacedUnder_iff.2 made1.2.1) same, remembersLater⟩
        · exact notVar name index isVar
        · rintro ⟨name, value, body, rfl, rfl⟩
          exact notLet name value body rfl rfl
      next same => cases same
  | reduction id domain axis least extent =>
      intro r memo shadowed held heldAll remembers
      rw [substituteUnder]
      exact Builds.pure ⟨holds_replaceVariable held heldAll, .axis, remembers⟩

theorem replaceVariable_nil {shadowed : List String} {name : String} (e : Expr) :
    replaceVariable [] shadowed name e = e := by
  unfold replaceVariable
  split <;> rfl

theorem replacedUnder_nil (shadowed : List String) (e : Expr) : ReplacedUnder [] shadowed e e := by
  induction e using Expr.induction generalizing shadowed with
  | node id head dtype operands ih =>
      by_cases isVar : ∃ name index, head = .var name index
      · obtain ⟨name, index, rfl⟩ := isVar
        have kept : ReplacedUnder [] shadowed (.node id (.var name index) dtype operands) _ := .var
        rwa [replaceVariable_nil] at kept
      · by_cases isBinding : IsBinding head operands
        · obtain ⟨name, value, body, rfl, rfl⟩ := isBinding
          exact .letIn (ih value (.head _) _) (ih body (.tail _ (.head _)) _) fun _ _ => rfl
        · refine .node (fun name index same => isVar ⟨name, index, same⟩) isBinding ?_ fun _ => rfl
          exact allReplacedUnder_iff.2 (List.forall₂_same.2 fun x member => ih x member shadowed)
  | reduction id domain axis least extent =>
      have kept : ReplacedUnder [] shadowed (.reduction id domain axis least extent) _ := .axis
      rwa [replaceVariable_nil] at kept

theorem substitute_replaces {ρ : Replacements} {r : Registry} {e : Expr} (held : r.Holds e)
    (heldAll : ∀ x ∈ ρ, r.Holds x.2) :
    Builds (e.substitute ρ) r fun later e' => later.Holds e' ∧ ReplacedUnder ρ [] e e' := by
  unfold Expr.substitute
  split
  next isEmpty =>
    rw [List.isEmpty_iff.1 isEmpty]
    exact Builds.pure ⟨held, replacedUnder_nil [] e⟩
  next =>
    have nothing : r.Remembers ρ {} := fun id shadowed known found => by simp at found
    refine Builds.bind (substituteUnder_sound ρ e r {} [] held heldAll nothing)
      fun later result _ made => ?_
    exact Builds.pure ⟨made.1, made.2.1⟩

theorem replaceVariable_keeps {ρ : Replacements} {shadowed : List String}
    (keeps : ∀ name ∈ shadowed, ρ.find? name = none) (name : String) (e : Expr) :
    replaceVariable ρ shadowed name e = (ρ.find? name).getD e := by
  by_cases isShadowed : name ∈ shadowed
  · rw [replaceVariable_shadowed isShadowed, keeps name isShadowed, Option.getD_none]
  · exact replaceVariable_open isShadowed e

theorem ReplacedUnder.replaced {ρ : Replacements} {e e' : Expr} {shadowed : List String}
    (replaced : ReplacedUnder ρ shadowed e e')
    (unbound : ∀ name, Binds e name → ρ.find? name = none)
    (keeps : ∀ name ∈ shadowed, ρ.find? name = none) : Replaced ρ e e' := by
  induction e using Expr.induction generalizing e' shadowed with
  | node id head dtype operands ih =>
      have below (x : Expr) (member : x ∈ operands) (name : String) (bound : Binds x name) :
          ρ.find? name = none := unbound name (bound.sub (.operand member .here))
      cases replaced with
      | var =>
          rw [replaceVariable_keeps keeps]
          exact .var
      | @letIn _ _ _ name _ value body _ _ first second =>
          have isKept : ρ.find? name = none := unbound name (binds_node.2 (.inl rfl))
          have keepsMore : ∀ other ∈ insertName name shadowed, ρ.find? other = none := by
            intro other member
            rcases mem_insertName.1 member with rfl | member
            · exact isKept
            · exact keeps other member
          have newValue := ih value (.head _) first (below value (.head _)) keeps
          have newBody := ih body (.tail _ (.head _)) second (below body (.tail _ (.head _))) keepsMore
          exact .node (by simp) (.cons newValue (.cons newBody .nil))
      | node notVar _ all =>
          refine .node notVar (forall₂_imp_mem (allReplacedUnder_iff.1 all) ?_)
          exact fun x member x' _ replaced => ih x member replaced (below x member) keeps
  | reduction id domain axis least extent =>
      cases replaced
      rw [replaceVariable_keeps keeps]
      exact .axis

theorem substitute_sound {ρ : Replacements} {r : Registry} {e : Expr}
    (unbound : ∀ name, Binds e name → ρ.find? name = none) (held : r.Holds e)
    (heldAll : ∀ x ∈ ρ, r.Holds x.2) :
    Builds (e.substitute ρ) r fun later e' => later.Holds e' ∧ Replaced ρ e e' :=
  (substitute_replaces held heldAll).mono fun _ _ _ made =>
    ⟨made.1, made.2.replaced unbound fun _ member => nomatch member⟩

def Replacements.apply (ρ : Replacements) (env : Env) : Env := fun name =>
  match ρ.find? name with
  | some x => x.integer env
  | none => env name

def Replacements.Indices (ρ : Replacements) : Prop :=
  ∀ name x, ρ.find? name = some x → Index (fun _ => True) (fun _ => True) x

def Replacements.applyIn {α : Type} [Scalar α] (ρ : Replacements) (answers : CallValues α)
    (env : String → α) : String → α := fun name =>
  match ρ.find? name with
  | some x => exactIn answers env x
  | none => env name

theorem Replacements.Indices.applyIn {α : Type} [Scalar α] {ρ : Replacements}
    (indices : ρ.Indices) (answers : CallValues α) (env : Env) :
    ρ.applyIn answers env.scalars = (ρ.apply env).scalars := by
  funext name
  have pointwise : ρ.applyIn answers env.scalars name = (ρ.apply env name : α) := by
    unfold Replacements.applyIn Replacements.apply
    cases found : ρ.find? name with
    | none => rfl
    | some x => exact (indices name x found).exact answers env
  exact pointwise

def Replacements.Avoids (ρ : Replacements) (e : Expr) : Prop :=
  ∀ name, Binds e name → ρ.find? name = none ∧
    ∀ other x, ρ.find? other = some x → ¬ Mentions x name

theorem Replacements.Avoids.operand {ρ : Replacements} {id : NodeId} {head : Head} {dtype : DType}
    {operands : List Expr} {x : Expr} (avoids : ρ.Avoids (.node id head dtype operands))
    (member : x ∈ operands) : ρ.Avoids x :=
  fun name bound => avoids name (bound.sub (.operand member .here))

def Replacements.Gives (ρ : Replacements) (m name : String) : Prop :=
  match ρ.find? m with
  | some x => Mentions x name
  | none => m = name

theorem Replacements.Avoids.gives_bound {ρ : Replacements} {e : Expr} (avoids : ρ.Avoids e)
    {bound name : String} (isBound : Binds e bound) : ρ.Gives bound name ↔ bound = name := by
  unfold Gives
  rw [(avoids bound isBound).1]

theorem Replacements.Avoids.bound_given {ρ : Replacements} {e : Expr} (avoids : ρ.Avoids e)
    {bound m : String} (isBound : Binds e bound) : ρ.Gives m bound ↔ m = bound := by
  unfold Gives
  cases found : ρ.find? m with
  | none => rfl
  | some x =>
      refine iff_of_false ((avoids bound isBound).2 m x found) ?_
      rintro rfl
      rw [(avoids m isBound).1] at found
      cases found

theorem Replacements.applyIn_update {α : Type} [Scalar α] {ρ : Replacements} {answers : CallValues α}
    {env : String → α} {name : String} (kept : ρ.find? name = none)
    (absent : ∀ other x, ρ.find? other = some x → ¬ Mentions x name) (value : α) :
    ρ.applyIn answers (Function.update env name value) =
      Function.update (ρ.applyIn answers env) name value := by
  funext other
  by_cases same : other = name
  · rw [same, Function.update_self, applyIn, kept]
    exact Function.update_self _ _ _
  · rw [Function.update_of_ne same]
    unfold applyIn
    cases found : ρ.find? other with
    | none => exact Function.update_of_ne same _ _
    | some x =>
        refine exactIn_congr x (fun free isFree => Function.update_of_ne ?_ _ _) fun _ _ _ _ => rfl
        rintro rfl
        exact absent other x found isFree.mentions

namespace Replaced

variable {ρ : Replacements} {e e' : Expr}

theorem operands_induction {P : Expr → Expr → Prop} {operands operands' : List Expr}
    (below : List.Forall₂ (Replaced ρ) operands operands')
    (each : ∀ x ∈ operands, ∀ x', Replaced ρ x x' → P x x') : List.Forall₂ P operands operands' :=
  forall₂_imp_mem below fun x member x' _ replaced => each x member x' replaced

section

variable {α : Type} [Scalar α]

theorem exactIn (replaced : Replaced ρ e e') (avoids : ρ.Avoids e) (answers : CallValues α)
    (env : String → α) :
    Expr.exactIn answers env e' = Expr.exactIn answers (ρ.applyIn answers env) e := by
  induction e using Expr.induction generalizing e' env with
  | node id head dtype operands ih =>
      cases replaced with
      | @var _ name =>
          rw [exactIn_head (by simp)]
          simp only [headExact, Replacements.applyIn]
          cases found : ρ.find? name with
          | none => simp [headExact]
          | some x => rfl
      | @node _ _ _ _ _ operands' other below =>
          by_cases isBinding : IsBinding head operands
          · obtain ⟨name, value, body, rfl, rfl⟩ := isBinding
            obtain ⟨value', _, first, rest, rfl⟩ := List.forall₂_cons_left_iff.1 below
            obtain ⟨body', _, second, none, rfl⟩ := List.forall₂_cons_left_iff.1 rest
            cases none
            obtain ⟨kept, absent⟩ := avoids name (binds_node.2 (.inl rfl))
            rw [exactIn_let, exactIn_let, ih body (.tail _ (.head _)) second
              (avoids.operand (.tail _ (.head _))), Replacements.applyIn_update kept absent,
              ih value (.head _) first (avoids.operand (.head _))]
          · have notBinding : ¬ IsBinding head operands' := by
              rintro ⟨name, value', body', rfl, rfl⟩
              obtain ⟨value, _, _, rest, rfl⟩ := List.forall₂_cons_right_iff.1 below
              obtain ⟨body, _, _, none, rfl⟩ := List.forall₂_cons_right_iff.1 rest
              cases none
              exact isBinding ⟨name, value, body, rfl, rfl⟩
            have values : operands.map (Expr.exactIn answers (ρ.applyIn answers env)) =
                operands'.map (Expr.exactIn answers env) := by
              rw [← List.forall₂_eq_eq_eq, List.forall₂_map_left_iff, List.forall₂_map_right_iff]
              exact operands_induction below fun x member x' replaced =>
                (ih x member replaced (avoids.operand member) env).symm
            rw [exactIn_node notBinding, exactIn_node isBinding, values]
            exact headExact_congr (fun name index same => absurd same (other name index))
              fun _ _ => rfl
  | reduction id domain axis least extent =>
      cases replaced
      rw [exactIn_reduction]
      unfold Replacements.applyIn
      cases found : ρ.find? (axisName domain axis) with
      | none => simp
      | some x => rfl

theorem exact (replaced : Replaced ρ e e') (indices : ρ.Indices) (avoids : ρ.Avoids e)
    (answers : CallValues α) (env : Env) :
    Expr.exact answers env e' = Expr.exact answers (ρ.apply env) e := by
  rw [Expr.exact, replaced.exactIn avoids, indices.applyIn]
  rfl

end

theorem shaped (replaced : Replaced ρ e e') (indices : ρ.Indices) (isShaped : Shaped e) :
    Shaped e' := by
  induction e using Expr.induction generalizing e' with
  | node id head dtype operands ih =>
      cases replaced with
      | @var _ name =>
          cases found : ρ.find? name with
          | none => exact isShaped
          | some x => exact (indices name x found).plain.shaped
      | @node _ _ _ _ _ operands' other below =>
          have shapedBelow := operands_induction (P := fun _ x' => Shaped x') below
            fun x member x' replaced => ih x member replaced (isShaped.operand member)
          refine shaped_node.2 ⟨fun n arity => ?_, fun x' member => ?_⟩
          · rw [← below.length_eq]
            exact isShaped.here n arity
          · obtain ⟨x, isShaped'⟩ := forall₂_mem_right shapedBelow member
            exact isShaped'
  | reduction id domain axis least extent =>
      cases replaced
      cases found : ρ.find? (axisName domain axis) with
      | none => exact isShaped
      | some x => exact (indices _ x found).plain.shaped

theorem binds (replaced : Replaced ρ e e') (indices : ρ.Indices) {name : String}
    (bound : Binds e' name) : Binds e name := by
  induction e using Expr.induction generalizing e' with
  | node id head dtype operands ih =>
      cases replaced with
      | @var _ other =>
          cases found : ρ.find? other with
          | none => rwa [found] at bound
          | some x =>
              rw [found] at bound
              exact absurd bound ((indices other x found).plain.not_binds name)
      | @node _ _ _ _ _ operands' other below =>
          rcases binds_node.1 bound with same | ⟨x', member, inside⟩
          · exact binds_node.2 (.inl same)
          · have each := operands_induction (P := fun x x' => x ∈ operands ∧
              (Binds x' name → Binds x name)) below
              fun x member x' replaced => ⟨member, ih x member replaced⟩
            obtain ⟨x, isOperand, implies⟩ := forall₂_mem_right each member
            exact (implies inside).sub (.operand isOperand .here)
  | reduction id domain axis least extent =>
      cases replaced
      cases found : ρ.find? (axisName domain axis) with
      | none => rwa [found] at bound
      | some x =>
          rw [found] at bound
          exact absurd bound ((indices _ x found).plain.not_binds name)

theorem variable_cases (replaced : Replaced ρ e e') (isShaped : Shaped e) {y : Expr} {name : String}
    (within : Subnode y e') (isVariable : y.variableName? = some name) :
    Subnode y e ∧ ρ.find? name = none ∨
      ∃ m x, Mentions e m ∧ ρ.find? m = some x ∧ Subnode y x := by
  induction e using Expr.induction generalizing e' with
  | node id head dtype operands ih =>
      cases replaced with
      | @var _ m index =>
          cases found : ρ.find? m with
          | none =>
              rw [found] at within
              simp only [Option.getD_none, isShaped.operands_eq] at within ⊢
              cases within with
              | here =>
                  cases isVariable
                  exact .inl ⟨.here, found⟩
              | operand member => cases member
          | some x =>
              rw [found] at within
              exact .inr ⟨m, x, ⟨_, .here, rfl⟩, found, within⟩
      | @node _ _ _ _ _ operands' other below =>
          rcases subnode_node.1 within with rfl | ⟨x', member, deeper⟩
          · cases head <;> cases isVariable
            exact absurd rfl (other _ _)
          · have each := operands_induction (P := fun x x' => Subnode y x' → x ∈ operands ∧
              (Subnode y x ∧ ρ.find? name = none ∨
                ∃ m z, Mentions x m ∧ ρ.find? m = some z ∧ Subnode y z)) below
              fun x member x' replaced within =>
                ⟨member, ih x member replaced (isShaped.operand member) within⟩
            obtain ⟨x, cases⟩ := forall₂_mem_right each member
            obtain ⟨isOperand, kept | ⟨m, z, mentioned, found, inside⟩⟩ := cases deeper
            · exact .inl ⟨.operand isOperand kept.1, kept.2⟩
            · exact .inr ⟨m, z, mentioned.sub (.operand isOperand .here), found, inside⟩
  | reduction id domain axis least extent =>
      cases replaced
      cases found : ρ.find? (axisName domain axis) with
      | none =>
          rw [found] at within
          cases within
          cases isVariable
          exact .inl ⟨.here, found⟩
      | some x =>
          rw [found] at within
          exact .inr ⟨_, x, mentions_reduction.2 rfl, found, within⟩

theorem free (replaced : Replaced ρ e e') (indices : ρ.Indices) (avoids : ρ.Avoids e)
    {name : String} : Free name e' ↔ ∃ m, Free m e ∧ ρ.Gives m name := by
  induction e using Expr.induction generalizing e' with
  | node id head dtype operands ih =>
      have each {x x' : Expr} (member : x ∈ operands) (related : Replaced ρ x x') :=
        ih x member related (avoids.operand member)
      cases replaced with
      | @var _ other index =>
          have single {m : String} : Free m (.node id (.var other index) dtype operands) ↔
              m = other := by
            refine ⟨fun free => ?_, fun same => same ▸ .var⟩
            cases free with
            | var => rfl
            | operand _ notVar => exact absurd rfl (notVar _ _)
          simp only [single, exists_eq_left, Replacements.Gives]
          cases found : ρ.find? other with
          | none => exact single.trans eq_comm
          | some x => exact (indices other x found).plain.free_iff
      | @node _ _ _ _ _ operands' other below =>
          constructor
          · intro free
            cases free with
            | var => exact absurd rfl (other _ _)
            | value inside =>
                obtain ⟨value, rest, first, _, rfl⟩ := List.forall₂_cons_right_iff.1 below
                obtain ⟨m, isFree, gives⟩ := (each (.head _) first).1 inside
                exact ⟨m, .value isFree, gives⟩
            | body differs inside =>
                obtain ⟨value, _, _, later, rfl⟩ := List.forall₂_cons_right_iff.1 below
                obtain ⟨body, rest, second, _, rfl⟩ := List.forall₂_cons_right_iff.1 later
                obtain ⟨m, isFree, gives⟩ := (each (.tail _ (.head _)) second).1 inside
                refine ⟨m, .body ?_ isFree, gives⟩
                -- The bound name stands for itself alone.
                rintro rfl
                exact differs ((avoids.gives_bound (binds_node.2 (.inl rfl))).1 gives)
            | operand notLet notVar member inside =>
                obtain ⟨x, isOperand, related⟩ := forall₂_mem_left below.flip member
                obtain ⟨m, isFree, gives⟩ := (each isOperand related).1 inside
                exact ⟨m, .operand notLet notVar isOperand isFree, gives⟩
          · rintro ⟨m, free, gives⟩
            cases free with
            | var => exact absurd rfl (other _ _)
            | value inside =>
                obtain ⟨value', rest', first, _, rfl⟩ := List.forall₂_cons_left_iff.1 below
                exact .value ((each (.head _) first).2 ⟨m, inside, gives⟩)
            | body differs inside =>
                obtain ⟨value', _, _, later, rfl⟩ := List.forall₂_cons_left_iff.1 below
                obtain ⟨body', rest', second, _, rfl⟩ := List.forall₂_cons_left_iff.1 later
                refine .body ?_ ((each (.tail _ (.head _)) second).2 ⟨m, inside, gives⟩)
                rintro rfl
                exact differs ((avoids.bound_given (binds_node.2 (.inl rfl))).1 gives).symm
            | operand notLet notVar member inside =>
                obtain ⟨x', isOperand, related⟩ := forall₂_mem_left below member
                exact .operand notLet notVar isOperand ((each member related).2 ⟨m, inside, gives⟩)
  | reduction id domain axis least extent =>
      have single {m : String} : Free m (.reduction id domain axis least extent) ↔
          m = axisName domain axis := by
        refine ⟨fun free => ?_, fun same => .reduction same.symm⟩
        cases free with
        | reduction same => exact same.symm
      cases replaced
      simp only [single, exists_eq_left, Replacements.Gives]
      cases found : ρ.find? (axisName domain axis) with
      | none => exact single.trans eq_comm
      | some x => exact (indices _ x found).plain.free_iff

theorem free_cases (replaced : Replaced ρ e e') (indices : ρ.Indices) (avoids : ρ.Avoids e)
    (isShaped : Shaped e) {y : Expr} {name : String} (within : Subnode y e')
    (isVariable : y.variableName? = some name) (isFree : Free name e') :
    Subnode y e ∧ Free name e ∧ ρ.find? name = none ∨
      ∃ m x, Free m e ∧ ρ.find? m = some x ∧ Subnode y x := by
  rcases replaced.variable_cases isShaped within isVariable with
    ⟨inside, kept⟩ | ⟨m, x, mentioned, found, inside⟩
  · refine .inl ⟨inside, ?_, kept⟩
    by_cases bound : Binds e name
    · obtain ⟨m, free, gives⟩ := (replaced.free indices avoids).1 isFree
      rwa [(avoids.bound_given bound).1 gives] at free
    · exact Mentions.free ⟨y, inside, isVariable⟩ isShaped bound
  · refine .inr ⟨m, x, mentioned.free isShaped fun bound => ?_, found, inside⟩
    rw [(avoids m bound).1] at found
    cases found

theorem calls (replaced : Replaced ρ e e') (indices : ρ.Indices) (isShaped : Shaped e)
    {callee : FuncId} : e'.Calls callee ↔ e.Calls callee := by
  induction e using Expr.induction generalizing e' with
  | node id head dtype operands ih =>
      cases replaced with
      | @var _ name index =>
          have none : ¬ (Expr.node id (.var name index) dtype operands).Calls callee := by
            rw [isShaped.operands_eq]
            simp [calls_node]
          cases found : ρ.find? name with
          | none => rfl
          | some x => exact iff_of_false ((indices name x found).not_calls callee) none
      | @node _ _ _ _ _ operands' other below =>
          have each := operands_induction (P := fun x x' => x'.Calls callee ↔ x.Calls callee) below
            fun x member x' replaced => ih x member replaced (isShaped.operand member)
          rw [calls_node, calls_node]
          refine or_congr Iff.rfl ⟨?_, ?_⟩
          · rintro ⟨x', member, called⟩
            obtain ⟨x, inside, same⟩ := forall₂_mem_left each.flip member
            exact ⟨x, inside, same.1 called⟩
          · rintro ⟨x, member, called⟩
            obtain ⟨x', inside, same⟩ := forall₂_mem_left each member
            exact ⟨x', inside, same.2 called⟩
  | reduction id domain axis least extent =>
      cases replaced
      cases found : ρ.find? (axisName domain axis) with
      | none => rfl
      | some x =>
          exact iff_of_false ((indices _ x found).not_calls callee) not_calls_reduction

theorem index {S S' : String → Prop} {K : Bool → Prop} (replaced : Replaced ρ e e')
    (isIndex : Index S K e)
    (linear : ∀ name x, S name → ρ.find? name = some x → Index S' (fun _ => False) x)
    (kept : ∀ name, S name → ρ.find? name = none → S' name) : Index S' K e' := by
  induction isIndex generalizing e' with
  | int =>
      cases replaced with
      | node _ below =>
          cases below
          exact .int
  | @var K id name isIndex known =>
      cases replaced with
      | var =>
          cases found : ρ.find? name with
          | none => exact .var (kept name known found)
          | some x => exact (linear name x known found).mono (fun _ same => same) fun _ no => no.elim
      | node other => exact absurd rfl (other _ _)
  | @axis K id domain axis least extent known =>
      cases replaced
      cases found : ρ.find? (axisName domain axis) with
      | none => exact .axis (kept _ known found)
      | some x => exact (linear _ x known found).mono (fun _ same => same) fun _ no => no.elim
  | add _ _ left right =>
      cases replaced with
      | node _ below =>
          obtain ⟨_, _, first, rest, rfl⟩ := List.forall₂_cons_left_iff.1 below
          obtain ⟨_, _, second, none, rfl⟩ := List.forall₂_cons_left_iff.1 rest
          cases none
          exact .add (left first) (right second)
  | sub _ _ left right =>
      cases replaced with
      | node _ below =>
          obtain ⟨_, _, first, rest, rfl⟩ := List.forall₂_cons_left_iff.1 below
          obtain ⟨_, _, second, none, rfl⟩ := List.forall₂_cons_left_iff.1 rest
          cases none
          exact .sub (left first) (right second)
  | multiple _ ih =>
      cases replaced with
      | node _ below =>
          obtain ⟨_, _, first, rest, rfl⟩ := List.forall₂_cons_left_iff.1 below
          obtain ⟨_, _, second, none, rfl⟩ := List.forall₂_cons_left_iff.1 rest
          cases none
          cases first with
          | node _ empty =>
              cases empty
              exact .multiple (ih second)
  | extremum kind _ _ left right =>
      cases replaced with
      | node _ below =>
          obtain ⟨_, _, first, rest, rfl⟩ := List.forall₂_cons_left_iff.1 below
          obtain ⟨_, _, second, none, rfl⟩ := List.forall₂_cons_left_iff.1 rest
          cases none
          exact .extremum kind (left first) (right second)

theorem integer {S S' : String → Prop} {K : Bool → Prop} (replaced : Replaced ρ e e')
    (isIndex : Index S K e) (isIndex' : Index S' K e') (indices : ρ.Indices) (env : Env) :
    e'.integer env = e.integer (ρ.apply env) := by
  have avoids : ρ.Avoids e := fun name bound => absurd bound (isIndex.plain.not_binds name)
  have values := replaced.exact (α := ℚ) indices avoids (fun _ _ => 0) env
  rw [isIndex.exact, isIndex'.exact] at values
  exact_mod_cast values

end Replaced

end ReverseMode
