import ReverseMode.Proofs.Nodes.Subnode

namespace ReverseMode.Expr

/-- A variable of that name occurs and is not bound. -/
inductive Free (name : String) : Expr → Prop where
  | var {id : NodeId} {index : Bool} {dtype : DType} {operands : List Expr} :
      Free name (.node id (.var name index) dtype operands)
  | reduction {id : NodeId} {domain : String} {axis : Nat} {least extent : Expr} :
      axisName domain axis = name → Free name (.reduction id domain axis least extent)
  | value {id : NodeId} {bound : String} {dtype : DType} {value : Expr} {rest : List Expr} :
      Free name value → Free name (.node id (.letIn bound) dtype (value :: rest))
  | body {id : NodeId} {bound : String} {dtype : DType} {value body : Expr} {rest : List Expr} :
      bound ≠ name → Free name body → Free name (.node id (.letIn bound) dtype (value :: body :: rest))
  | operand {id : NodeId} {head : Head} {dtype : DType} {operands : List Expr} {x : Expr} :
      (∀ bound, head ≠ .letIn bound) → (∀ other index, head ≠ .var other index) → x ∈ operands →
      Free name x → Free name (.node id head dtype operands)

theorem Free.mentions {name : String} {e : Expr} (free : Free name e) : Mentions e name := by
  induction free with
  | var => exact ⟨_, .here, rfl⟩
  | reduction isName => exact mentions_reduction.2 isName
  | value _ ih => exact ih.sub (.operand (.head _) .here)
  | body _ _ ih => exact ih.sub (.operand (.tail _ (.head _)) .here)
  | operand _ _ member _ ih => exact ih.sub (.operand member .here)

theorem free_operands {name : String} {id : NodeId} {head : Head} {dtype : DType}
    {operands : List Expr} (notLet : ∀ bound, head ≠ .letIn bound)
    (notVar : ∀ other index, head ≠ .var other index) :
    Free name (.node id head dtype operands) ↔ ∃ x ∈ operands, Free name x := by
  constructor
  · intro free
    cases free with
    | var => exact absurd rfl (notVar _ _)
    | value => exact absurd rfl (notLet _)
    | body => exact absurd rfl (notLet _)
    | operand _ _ member inside => exact ⟨_, member, inside⟩
  · rintro ⟨x, member, inside⟩
    exact .operand notLet notVar member inside

theorem subset_noteVariable {bound : List String} {v : Expr} {seen : List Expr} :
    seen ⊆ noteVariable bound v seen := by
  unfold noteVariable
  dsimp only
  split
  · exact List.Subset.refl _
  · exact List.subset_append_left _ _

theorem subset_collectAllFree {bound : List String} {operands seen : List Expr}
    (each : ∀ x ∈ operands, ∀ seen, seen ⊆ collectFree bound x seen) :
    seen ⊆ collectAllFree bound operands seen := by
  induction operands generalizing seen with
  | nil => exact List.Subset.refl _
  | cons x rest ih =>
      rw [collectAllFree]
      exact List.Subset.trans (each x (.head _) seen) (ih fun y member => each y (.tail _ member))

theorem subset_collectFree (bound : List String) (e : Expr) (seen : List Expr) :
    seen ⊆ collectFree bound e seen := by
  induction e using induction generalizing bound seen with
  | node id head dtype operands ih =>
      unfold collectFree
      split
      next => exact subset_noteVariable
      next name _ value body same =>
        cases same
        exact List.Subset.trans (ih value (.head _) bound _)
          (ih body (.tail _ (.head _)) (name :: bound) _)
      next same =>
        cases same
        exact subset_collectAllFree fun x member => ih x member bound
      next same => cases same
  | reduction => exact subset_noteVariable

theorem name_noteVariable {bound : List String} {v : Expr} {seen : List Expr}
    (unbound : v.name ∉ bound) : v.name ∈ (noteVariable bound v seen).map Expr.name := by
  have notBound : bound.contains v.name = false := by simpa using unbound
  simp only [noteVariable, notBound, Bool.false_or]
  split
  next known =>
    obtain ⟨w, member, same⟩ := List.any_eq_true.1 known
    exact List.mem_map.2 ⟨w, member, by simpa using same⟩
  next => simp

theorem names_collectAllFree_of_mem {bound : List String} {operands seen : List Expr} {x : Expr}
    {name : String} (member : x ∈ operands)
    (collected : ∀ seen, name ∈ (collectFree bound x seen).map Expr.name) :
    name ∈ (collectAllFree bound operands seen).map Expr.name := by
  induction operands generalizing seen with
  | nil => cases member
  | cons y rest ih =>
      rw [collectAllFree]
      rcases List.mem_cons.1 member with rfl | later
      · exact List.map_subset _ (subset_collectAllFree fun _ _ => subset_collectFree bound _)
          (collected seen)
      · exact ih later

theorem Free.collected {name : String} {e : Expr} (free : Free name e) {bound : List String}
    (unbound : name ∉ bound) (seen : List Expr) :
    name ∈ (collectFree bound e seen).map Expr.name := by
  induction free generalizing bound seen with
  | var =>
      rw [collectFree]
      exact name_noteVariable unbound
  | reduction isName =>
      subst isName
      rw [collectFree]
      exact name_noteVariable unbound
  | @value _ other _ value rest _ ih =>
      unfold collectFree
      split
      next same => cases same
      next body same =>
        cases same
        exact List.map_subset _ (subset_collectFree _ _ _) (ih unbound _)
      next same =>
        cases same
        exact names_collectAllFree_of_mem (.head _) fun seen => ih unbound seen
      next same => cases same
  | @body _ other _ value body rest differs _ ih =>
      unfold collectFree
      split
      next same => cases same
      next same =>
        cases same
        exact ih (by simpa [unbound] using Ne.symm differs) _
      next same =>
        cases same
        exact names_collectAllFree_of_mem (.tail _ (.head _)) fun seen => ih unbound seen
      next same => cases same
  | operand notLet notVar member _ ih =>
      unfold collectFree
      split
      next same =>
        cases same
        exact absurd rfl (notVar _ _)
      next same =>
        cases same
        exact absurd rfl (notLet _)
      next same =>
        cases same
        exact names_collectAllFree_of_mem member fun seen => ih unbound seen
      next same => cases same

theorem Free.mem_freeNames {name : String} {e : Expr} (free : Free name e) : name ∈ e.freeNames :=
  free.collected (List.not_mem_nil) []

theorem mem_noteVariable {bound : List String} {v w : Expr} {seen : List Expr}
    (member : w ∈ noteVariable bound v seen) : w ∈ seen ∨ w = v ∧ v.name ∉ bound := by
  unfold noteVariable at member
  dsimp only at member
  split at member
  next => exact .inl member
  next new =>
    simp only [Bool.or_eq_true, List.contains_iff_mem, not_or] at new
    exact (List.mem_append.1 member).imp_right fun isLast => ⟨List.mem_singleton.1 isLast, new.1⟩

theorem mem_collectAllFree {operands : List Expr} {bound : List String} {v : Expr}
    {P : Expr → Prop} (each : ∀ x ∈ operands, ∀ seen, v ∈ collectFree bound x seen → v ∈ seen ∨ P x)
    (seen : List Expr) (member : v ∈ collectAllFree bound operands seen) :
    v ∈ seen ∨ ∃ x ∈ operands, P x := by
  induction operands generalizing seen with
  | nil => exact .inl (by simpa [collectAllFree] using member)
  | cons x rest ih =>
      rw [collectAllFree] at member
      rcases ih (fun y later => each y (.tail _ later)) _ member with old | ⟨y, later, found⟩
      · exact (each x (.head _) _ old).imp_right fun found => ⟨x, .head _, found⟩
      · exact .inr ⟨y, .tail _ later, found⟩

def IsFreeVariable (e v : Expr) : Prop :=
  Subnode v e ∧ v.variableName? = some v.name ∧ Free v.name e

theorem mem_collectFree {e : Expr} (shaped : Shaped e) {bound : List String} {v : Expr}
    (seen : List Expr) (member : v ∈ collectFree bound e seen) :
    v ∈ seen ∨ IsFreeVariable e v ∧ v.name ∉ bound := by
  induction e using induction generalizing bound seen with
  | node id head dtype operands ih =>
      unfold collectFree at member
      split at member
      next same =>
        cases same
        rcases mem_noteVariable member with old | ⟨rfl, unbound⟩
        · exact .inl old
        · exact .inr ⟨⟨.here, rfl, .var⟩, unbound⟩
      next name _ value body same =>
        cases same
        rcases ih body (.tail _ (.head _)) (shaped.operand (.tail _ (.head _))) _ member with
          old | ⟨⟨within, named, free⟩, unbound⟩
        · refine (ih value (.head _) (shaped.operand (.head _)) _ old).imp_right ?_
          rintro ⟨⟨within, named, free⟩, unbound⟩
          exact ⟨⟨.operand (.head _) within, named, .value free⟩, unbound⟩
        · obtain ⟨different, unbound⟩ := List.ne_and_not_mem_of_not_mem_cons unbound
          exact .inr ⟨⟨.operand (.tail _ (.head _)) within, named, .body (Ne.symm different) free⟩,
            unbound⟩
      next notVar notLet same =>
        cases same
        refine (mem_collectAllFree (fun x member seen => ih x member (shaped.operand member) seen)
          _ member).imp_right ?_
        rintro ⟨x, member, ⟨within, named, free⟩, unbound⟩
        refine ⟨⟨.operand member within, named, .operand ?_ ?_ member free⟩, unbound⟩
        · rintro name rfl
          obtain ⟨value, body, rfl⟩ := shaped.letIn
          exact notLet _ _ _ rfl rfl
        · rintro name index rfl
          exact notVar _ _ rfl
      next same => cases same
  | reduction id domain axis least extent =>
      rw [collectFree] at member
      rcases mem_noteVariable member with old | ⟨rfl, unbound⟩
      · exact .inl old
      · exact .inr ⟨⟨.here, rfl, .reduction rfl⟩, unbound⟩

theorem mem_freeVariables {e v : Expr} (shaped : Shaped e) (member : v ∈ e.freeVariables) :
    IsFreeVariable e v :=
  ((mem_collectFree shaped [] member).resolve_left List.not_mem_nil).1

theorem mem_freeNames {e : Expr} (shaped : Shaped e) {name : String} :
    name ∈ e.freeNames ↔ Free name e := by
  refine ⟨fun member => ?_, Free.mem_freeNames⟩
  obtain ⟨v, isFree, rfl⟩ := List.mem_map.1 member
  exact (mem_freeVariables shaped isFree).2.2

def unseen (bound seen names : List String) : List String :=
  names.filter fun name => name ∉ bound ∧ name ∉ seen

theorem mem_unseen {bound seen names : List String} {name : String} :
    name ∈ unseen bound seen names ↔ name ∈ names ∧ name ∉ bound ∧ name ∉ seen := by
  simp [unseen]

theorem nodup_append_unseen {bound names others : List String} (distinct : names.Nodup)
    (distinctOthers : others.Nodup) : (names ++ unseen bound names others).Nodup :=
  List.nodup_append.2 ⟨distinct, distinctOthers.filter _, fun _ isName _ isOther same =>
    (mem_unseen.1 isOther).2.2 (same ▸ isName)⟩

theorem unseen_append (inner bound seen names others : List String) :
    unseen bound seen (names ++ unseen inner names others) =
      unseen bound seen names ++ unseen (inner ++ bound) (seen ++ unseen bound seen names) others := by
  simp only [unseen, List.filter_append, List.filter_filter, List.append_cancel_left_eq]
  refine List.filter_congr fun name _ => ?_
  simp only [List.mem_append, List.mem_filter, ← Bool.decide_and, decide_eq_decide]
  grind

theorem names_noteVariable {bound : List String} {v : Expr} {seen : List Expr} :
    (noteVariable bound v seen).map Expr.name =
      seen.map Expr.name ++ unseen bound (seen.map Expr.name) [v.name] := by
  have known : (seen.any fun w => w.name == v.name) = decide (v.name ∈ seen.map Expr.name) := by
    rw [← Bool.coe_iff_coe]
    simp
  simp only [noteVariable, known, apply_ite (List.map Expr.name), List.map_append, List.map_singleton]
  generalize seen.map Expr.name = names
  by_cases isBound : v.name ∈ bound <;> by_cases isKnown : v.name ∈ names <;>
    simp [unseen, isBound, isKnown]

theorem names_collectAllFree {operands : List Expr}
    (each : ∀ x ∈ operands, ∀ bound seen, (collectFree bound x seen).map Expr.name =
      seen.map Expr.name ++ unseen bound (seen.map Expr.name) x.freeNames) (bound : List String)
    (seen : List Expr) : (collectAllFree bound operands seen).map Expr.name = seen.map Expr.name ++
      unseen bound (seen.map Expr.name) ((collectAllFree [] operands []).map Expr.name) := by
  induction operands generalizing bound seen with
  | nil => simp [collectAllFree, unseen]
  | cons x rest ih =>
      have others := ih fun y member => each y (.tail _ member)
      have first : (collectFree [] x []).map Expr.name = x.freeNames := rfl
      rw [collectAllFree, collectAllFree, others, others [] (collectFree [] x []), first,
        each x (.head _), List.append_assoc, unseen_append [], List.nil_append]

theorem names_collectFree (e : Expr) (bound : List String) (seen : List Expr) :
    (collectFree bound e seen).map Expr.name =
      seen.map Expr.name ++ unseen bound (seen.map Expr.name) e.freeNames := by
  induction e using induction generalizing bound seen with
  | reduction => exact names_noteVariable
  | node id head dtype operands ih =>
      cases head with
      | var => exact names_noteVariable
      | letIn name =>
          match operands with
          | [value, body] =>
              have inValue := ih value (.head _)
              have inBody := ih body (.tail _ (.head _))
              have first : (collectFree [] value []).map Expr.name = value.freeNames := rfl
              rw [freeNames, freeVariables, collectFree, collectFree, inBody, inBody [name], inValue, first,
                List.append_assoc, unseen_append, List.singleton_append]
          | [] | [_] | _ :: _ :: _ :: _ => exact names_collectAllFree ih bound seen
      | _ => exact names_collectAllFree ih bound seen

theorem freeNames_let {id : NodeId} {name : String} {dtype : DType} {value body : Expr} :
    (node id (.letIn name) dtype [value, body]).freeNames =
      value.freeNames ++ unseen [name] value.freeNames body.freeNames := by
  rw [freeNames, freeVariables, collectFree, names_collectFree]
  rfl

theorem nodup_collectAllFree {operands : List Expr} (each : ∀ x ∈ operands, x.freeNames.Nodup) :
    ((collectAllFree [] operands []).map Expr.name).Nodup := by
  induction operands with
  | nil => exact List.nodup_nil
  | cons x rest ih =>
      have first : (collectFree [] x []).map Expr.name = x.freeNames := rfl
      rw [collectAllFree, names_collectAllFree fun y _ => names_collectFree y, first]
      exact nodup_append_unseen (each x (.head _)) (ih fun y member => each y (.tail _ member))

theorem nodup_freeNames (e : Expr) : e.freeNames.Nodup := by
  induction e using induction with
  | reduction => exact List.pairwise_singleton _ _
  | node id head dtype operands ih =>
      cases head with
      | var => exact List.pairwise_singleton _ _
      | letIn name =>
          match operands with
          | [value, body] =>
              rw [freeNames_let]
              exact nodup_append_unseen (ih value (.head _)) (ih body (.tail _ (.head _)))
          | [] | [_] | _ :: _ :: _ :: _ => exact nodup_collectAllFree ih
      | _ => exact nodup_collectAllFree ih

theorem Mentions.free {e : Expr} {name : String} (mentioned : Mentions e name) (shaped : Shaped e)
    (unbound : ¬ Binds e name) : Free name e := by
  induction e using induction with
  | node id head dtype operands ih =>
      by_cases isVariable : ∃ other index, head = .var other index
      · obtain ⟨other, index, rfl⟩ := isVariable
        rw [mentions_node, shaped.operands_eq] at mentioned
        simp only [variableName?, Option.some.injEq, List.not_mem_nil, false_and, exists_false,
          or_false] at mentioned
        exact mentioned ▸ .var
      · have noVariable : (Expr.node id head dtype operands).variableName? = none := by
          cases head <;> first | rfl | exact absurd ⟨_, _, rfl⟩ isVariable
        obtain ⟨x, member, inside⟩ := (mentions_operands noVariable).1 mentioned
        have free := ih x member inside (shaped.operand member) fun bound =>
          unbound (bound.sub (.operand member .here))
        by_cases isLet : ∃ bound, head = .letIn bound
        · obtain ⟨bound, rfl⟩ := isLet
          obtain ⟨value, body, rfl⟩ := shaped.letIn
          simp only [List.mem_cons, List.not_mem_nil, or_false] at member
          rcases member with rfl | rfl
          · exact .value free
          · refine .body ?_ free
            rintro rfl
            exact unbound (binds_node.2 (.inl rfl))
        · exact .operand (fun bound same => isLet ⟨bound, same⟩)
            (fun other index same => isVariable ⟨other, index, same⟩) member free
  | reduction id domain axis least extent => exact .reduction (mentions_reduction.1 mentioned)

theorem Plain.free_iff {e : Expr} (plain : Plain e) {name : String} :
    Free name e ↔ Mentions e name :=
  ⟨Free.mentions, fun mentioned => mentioned.free plain.shaped (plain.not_binds name)⟩

theorem Plain.mem_freeNames {e : Expr} (plain : Plain e) {name : String} :
    name ∈ e.freeNames ↔ Mentions e name :=
  (Expr.mem_freeNames plain.shaped).trans plain.free_iff

end ReverseMode.Expr
