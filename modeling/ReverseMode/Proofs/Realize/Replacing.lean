import ReverseMode.Proofs.Nodes.Substitution
import ReverseMode.Proofs.Realize.Unfolding

namespace ReverseMode

open Expr

section

variable {setting : Realization} {readings : Readings} {bindings bindings' : Bindings}

theorem treeValues_congr {es es' : List Expr}
    (same : List.Forall₂ (fun e e' =>
      treeValue setting readings bindings e = treeValue setting readings bindings' e') es es') :
    treeValues setting readings bindings es = treeValues setting readings bindings' es' := by
  induction same with
  | nil => rfl
  | cons first _ ih => rw [treeValues, treeValues, first, ih]

theorem treeValue_node {id id' : NodeId} {head : Head} {dtype : DType}
    {operands operands' : List Expr} (notLet : ∀ name, head ≠ .letIn name)
    (notVar : ∀ name index, head ≠ .var name index)
    (same : List.Forall₂ (fun x x' =>
      treeValue setting readings bindings x = treeValue setting readings bindings' x')
      operands operands') :
    treeValue setting readings bindings (.node id head dtype operands) =
      treeValue setting readings bindings' (.node id' head dtype operands') := by
  cases head with
  | const => rw [treeValue, treeValue]
  | var => exact absurd rfl (notVar _ _)
  | cast =>
      cases same with
      | nil => simp only [treeValue, treeValues]
      | cons first => rw [treeValue, treeValue, first]
  | letIn => exact absurd rfl (notLet _)
  | other => rw [treeValue, treeValue]
  | _ => simp only [treeValue, treeValues_congr same]

theorem treeValue_let {id : NodeId} {name : String} {dtype : DType} {value body : Expr} :
    treeValue setting readings bindings (.node id (.letIn name) dtype [value, body]) =
      (treeValue setting readings bindings value >>= fun bound =>
        treeValue setting readings (Function.update bindings name (.ok bound)) body) := by
  rw [treeValue]

theorem treeValue_congr {e : Expr} (shaped : Shaped e)
    (agree : ∀ name, Free name e → bindings name = bindings' name) :
    treeValue setting readings bindings e = treeValue setting readings bindings' e := by
  induction e using Expr.induction generalizing bindings bindings' with
  | node id head dtype operands ih =>
      by_cases isVar : ∃ name index, head = .var name index
      · obtain ⟨name, index, rfl⟩ := isVar
        rw [treeValue, treeValue, agree name .var]
      by_cases isLet : ∃ name, head = .letIn name
      · obtain ⟨name, rfl⟩ := isLet
        obtain ⟨value, body, rfl⟩ := shaped.letIn
        have sameValue := ih value (.head _) (shaped.operand (.head _)) fun other free =>
          agree other (.value free)
        rw [treeValue_let, treeValue_let, sameValue]
        congr 1
        funext bound
        refine ih body (.tail _ (.head _)) (shaped.operand (.tail _ (.head _))) fun other free => ?_
        by_cases same : other = name
        · rw [same, Function.update_self, Function.update_self]
        · rw [Function.update_of_ne same, Function.update_of_ne same]
          exact agree other (.body (Ne.symm same) free)
      · have notLet : ∀ name, head ≠ .letIn name := fun name same => isLet ⟨name, same⟩
        have notVar : ∀ name index, head ≠ .var name index := fun name index same =>
          isVar ⟨name, index, same⟩
        refine treeValue_node notLet notVar (List.forall₂_same.2 fun x member => ?_)
        exact ih x member (shaped.operand member) fun name free =>
          agree name (.operand notLet notVar member free)
  | reduction id domain axis least extent =>
      rw [treeValue, treeValue, agree _ (.reduction rfl)]

end

namespace Replacements

def beyond (ρ : Replacements) (shadowed : List String) : Replacements :=
  ρ.filter fun x => x.1 ∉ shadowed

def bindingsIn (ρ : Replacements) (setting : Realization) (readings : Readings)
    (bindings : Bindings) : Bindings := fun name =>
  match ρ.find? name with
  | some x => treeValue setting readings bindings x
  | none => bindings name

/-- No `let` of the expression binds a name that is free in a replacement. -/
def Captureless (ρ : Replacements) (e : Expr) : Prop :=
  ∀ name x, ρ.find? name = some x → ∀ free ∈ x.freeNames, ¬ Binds e free

def GivesFree (ρ : Replacements) (m name : String) : Prop :=
  match ρ.find? m with
  | some x => Free name x
  | none => m = name

variable {ρ : Replacements} {shadowed : List String}

theorem beyond_nil : ρ.beyond [] = ρ := by simp [beyond]

theorem find?_beyond (name : String) :
    (ρ.beyond shadowed).find? name = if name ∈ shadowed then none else ρ.find? name := by
  unfold beyond find?
  induction ρ with
  | nil => simp
  | cons entry rest ih =>
      obtain ⟨other, x⟩ := entry
      rw [List.filter_cons, List.lookup_cons]
      by_cases same : name = other
      · subst same
        by_cases isShadowed : name ∈ shadowed
        · simpa [isShadowed] using ih
        · simp [isShadowed]
      · rw [beq_eq_false_iff_ne.2 same]
        split
        next => rw [List.lookup_cons, beq_eq_false_iff_ne.2 same, ih]
        next => exact ih

theorem find?_of_beyond {name : String} {x : Expr}
    (found : (ρ.beyond shadowed).find? name = some x) : ρ.find? name = some x := by
  rw [find?_beyond] at found
  split at found
  · cases found
  · exact found

theorem find?_beyond_bound (name : String) :
    (ρ.beyond (insertName name shadowed)).find? name = none := by
  rw [find?_beyond, if_pos (mem_insertName.2 (.inl rfl))]

theorem find?_beyond_other {name other : String} (differs : other ≠ name) :
    (ρ.beyond (insertName name shadowed)).find? other = (ρ.beyond shadowed).find? other := by
  rw [find?_beyond, find?_beyond]
  exact if_congr (mem_insertName.trans (or_iff_right differs)) rfl rfl

theorem replaceVariable_eq (name : String) (e : Expr) :
    replaceVariable ρ shadowed name e = ((ρ.beyond shadowed).find? name).getD e := by
  rw [find?_beyond]
  split
  next isShadowed => rw [replaceVariable_shadowed isShadowed, Option.getD_none]
  next isOpen => exact replaceVariable_open isOpen e

theorem Captureless.operand {id : NodeId} {head : Head} {dtype : DType} {operands : List Expr}
    {x : Expr} (captureless : ρ.Captureless (.node id head dtype operands)) (member : x ∈ operands) :
    ρ.Captureless x := fun name y found free isFree bound =>
  captureless name y found free isFree (bound.sub (.operand member .here))

theorem Captureless.bound {id : NodeId} {name : String} {dtype : DType} {operands : List Expr}
    (captureless : ρ.Captureless (.node id (.letIn name) dtype operands)) {other : String} {x : Expr}
    (found : ρ.find? other = some x) : ¬ Free name x := fun free =>
  captureless other x found name free.mem_freeNames (binds_node.2 (.inl rfl))

section

variable {setting : Realization} {readings : Readings} {bindings : Bindings} {name : String}

theorem bindingsIn_none (kept : ρ.find? name = none) :
    ρ.bindingsIn setting readings bindings name = bindings name := by
  rw [bindingsIn, kept]

theorem bindingsIn_some {x : Expr} (found : ρ.find? name = some x) :
    ρ.bindingsIn setting readings bindings name = treeValue setting readings bindings x := by
  rw [bindingsIn, found]

theorem bindingsIn_update {value : Except Fault Tensor} (shaped : ∀ x ∈ ρ, Shaped x.2)
    (absent : ∀ other x, ρ.find? other = some x → ¬ Free name x) :
    (ρ.beyond (insertName name shadowed)).bindingsIn setting readings
        (Function.update bindings name value) =
      Function.update ((ρ.beyond shadowed).bindingsIn setting readings bindings) name value := by
  funext other
  by_cases same : other = name
  · rw [same, bindingsIn_none (find?_beyond_bound name), Function.update_self, Function.update_self]
  rw [Function.update_of_ne same]
  have unchanged : (ρ.beyond (insertName name shadowed)).find? other =
      (ρ.beyond shadowed).find? other := find?_beyond_other same
  cases found : (ρ.beyond shadowed).find? other with
  | none =>
      rw [bindingsIn_none found, bindingsIn_none (unchanged.trans found), Function.update_of_ne same]
  | some x =>
      rw [bindingsIn_some found, bindingsIn_some (unchanged.trans found)]
      have isReplacement := find?_of_beyond found
      refine treeValue_congr (shaped _ (find?_mem isReplacement)) fun free isFree => ?_
      refine Function.update_of_ne ?_ _ _
      rintro rfl
      exact absent other x isReplacement isFree

theorem value_replaceVariable {e : Expr}
    (isVariable : treeValue setting readings bindings e = bindings name) :
    treeValue setting readings bindings (replaceVariable ρ shadowed name e) =
      (ρ.beyond shadowed).bindingsIn setting readings bindings name := by
  rw [replaceVariable_eq]
  cases found : (ρ.beyond shadowed).find? name with
  | none => rw [bindingsIn_none found, Option.getD_none, isVariable]
  | some x => rw [bindingsIn_some found, Option.getD_some]

end

theorem shaped_replaceVariable (shaped : ∀ x ∈ ρ, Shaped x.2) {name : String} {e : Expr}
    (isShaped : Shaped e) : Shaped (replaceVariable ρ shadowed name e) := by
  rw [replaceVariable_eq]
  cases found : (ρ.beyond shadowed).find? name with
  | none => exact isShaped
  | some x => exact shaped _ (find?_mem (find?_of_beyond found))

theorem free_replaceVariable {name other : String} {e : Expr} (free : Free other e ↔ name = other) :
    Free other (replaceVariable ρ shadowed name e) ↔ (ρ.beyond shadowed).GivesFree name other := by
  rw [replaceVariable_eq, GivesFree]
  cases found : (ρ.beyond shadowed).find? name with
  | none => exact free
  | some x => rfl

theorem calls_replaceVariable {name : String} {e : Expr} {callee : FuncId}
    (called : (replaceVariable ρ shadowed name e).Calls callee) :
    e.Calls callee ∨ ∃ x ∈ ρ, x.2.Calls callee := by
  rw [replaceVariable_eq] at called
  cases found : (ρ.beyond shadowed).find? name with
  | none =>
      rw [found] at called
      exact .inl called
  | some x =>
      rw [found] at called
      exact .inr ⟨_, find?_mem (find?_of_beyond found), called⟩

theorem givesFree_below {name m other : String} :
    (ρ.beyond (insertName name shadowed)).GivesFree m other ↔
      if m = name then m = other else (ρ.beyond shadowed).GivesFree m other := by
  unfold GivesFree
  by_cases same : m = name
  · rw [same, find?_beyond_bound, if_pos rfl]
  · rw [find?_beyond_other same, if_neg same]

end Replacements

theorem Expr.free_var {name other : String} {id : NodeId} {index : Bool} {dtype : DType}
    {operands : List Expr} :
    Free other (.node id (.var name index) dtype operands) ↔ name = other := by
  constructor
  · intro free
    cases free with
    | var => rfl
    | operand _ notVar => exact absurd rfl (notVar _ _)
  · rintro rfl
    exact .var

theorem Expr.free_reduction {other : String} {id : NodeId} {domain : String} {axis : Nat}
    {least extent : Expr} :
    Free other (.reduction id domain axis least extent) ↔ axisName domain axis = other := by
  refine ⟨fun free => ?_, .reduction⟩
  cases free with
  | reduction same => exact same

theorem Expr.free_let {other : String} {id : NodeId} {name : String} {dtype : DType}
    {value body : Expr} :
    Free other (.node id (.letIn name) dtype [value, body]) ↔
      Free other value ∨ name ≠ other ∧ Free other body := by
  constructor
  · intro free
    cases free with
    | value inside => exact .inl inside
    | body differs inside => exact .inr ⟨differs, inside⟩
    | operand notLet => exact absurd rfl (notLet _)
  · rintro (inside | ⟨differs, inside⟩)
    · exact .value inside
    · exact .body differs inside

theorem Replacements.exists_givesFree_let {ρ : Replacements} {shadowed : List String} {id : NodeId}
    {name other : String} {dtype : DType} {value body : Expr}
    (absent : ∀ m x, ρ.find? m = some x → ¬ Free name x) :
    (∃ m, Free m (.node id (.letIn name) dtype [value, body]) ∧
        (ρ.beyond shadowed).GivesFree m other) ↔
      (∃ m, Free m value ∧ (ρ.beyond shadowed).GivesFree m other) ∨
        name ≠ other ∧ ∃ m, Free m body ∧
          (ρ.beyond (insertName name shadowed)).GivesFree m other := by
  constructor
  · rintro ⟨m, free, gives⟩
    rcases free_let.1 free with inside | ⟨differs, inside⟩
    · exact .inl ⟨m, inside, gives⟩
    · refine .inr ⟨?_, m, inside, ?_⟩
      · -- Were the bound name what `m` gives, it would be free in the replacement of `m`.
        rintro rfl
        unfold GivesFree at gives
        split at gives
        next x found => exact absent m x (find?_of_beyond found) gives
        next => exact differs gives.symm
      · rwa [givesFree_below, if_neg (Ne.symm differs)]
  · rintro (⟨m, inside, gives⟩ | ⟨differs, m, inside, gives⟩)
    · exact ⟨m, .value inside, gives⟩
    · rw [givesFree_below] at gives
      split at gives
      next same => exact absurd (same.symm.trans gives) differs
      next isOther => exact ⟨m, .body (Ne.symm isOther) inside, gives⟩

theorem Expr.Shaped.notLet {id : NodeId} {head : Head} {dtype : DType} {operands : List Expr}
    (shaped : Shaped (.node id head dtype operands)) (notBinding : ¬ IsBinding head operands)
    (name : String) : head ≠ .letIn name := by
  rintro rfl
  obtain ⟨value, body, rfl⟩ := shaped.letIn
  exact notBinding ⟨name, value, body, rfl, rfl⟩

namespace ReplacedUnder

variable {ρ : Replacements} {shadowed : List String} {e e' : Expr}

theorem shaped (replaced : ReplacedUnder ρ shadowed e e') (shapedAll : ∀ x ∈ ρ, Shaped x.2)
    (isShaped : Shaped e) : Shaped e' := by
  induction e using Expr.induction generalizing e' shadowed with
  | node id head dtype operands ih =>
      cases replaced with
      | var => exact Replacements.shaped_replaceVariable shapedAll isShaped
      | @letIn _ _ _ _ _ value body _ _ first second =>
          have newValue := ih value (.head _) first (isShaped.operand (.head _))
          have newBody := ih body (.tail _ (.head _)) second (isShaped.operand (.tail _ (.head _)))
          exact shaped_node.2 ⟨fun _ arity => isShaped.here _ arity, by simp [newValue, newBody]⟩
      | node _ _ all =>
          have below := allReplacedUnder_iff.1 all
          refine shaped_node.2 ⟨fun n arity => ?_, fun x' member => ?_⟩
          · rw [← below.length_eq]
            exact isShaped.here n arity
          · obtain ⟨x, isOperand, replaced⟩ := forall₂_mem_left below.flip member
            exact ih x isOperand replaced (isShaped.operand isOperand)
  | reduction id domain axis least extent =>
      cases replaced
      exact Replacements.shaped_replaceVariable shapedAll isShaped

theorem value (replaced : ReplacedUnder ρ shadowed e e') (shapedAll : ∀ x ∈ ρ, Shaped x.2)
    (isShaped : Shaped e) (captureless : ρ.Captureless e) (setting : Realization)
    (readings : Readings) (bindings : Bindings) :
    treeValue setting readings bindings e' =
      treeValue setting readings ((ρ.beyond shadowed).bindingsIn setting readings bindings) e := by
  induction e using Expr.induction generalizing e' shadowed bindings with
  | node id head dtype operands ih =>
      cases replaced with
      | var => rw [Replacements.value_replaceVariable (by rw [treeValue]), treeValue]
      | @letIn _ _ _ name _ value body _ _ first second =>
          rw [treeValue_let, treeValue_let,
            ih value (.head _) first (isShaped.operand (.head _)) (captureless.operand (.head _))]
          congr 1
          funext bound
          rw [ih body (.tail _ (.head _)) second (isShaped.operand (.tail _ (.head _)))
            (captureless.operand (.tail _ (.head _))),
            Replacements.bindingsIn_update shapedAll fun _ _ found => captureless.bound found]
      | node notVar notBinding all =>
          refine treeValue_node (isShaped.notLet notBinding) notVar ?_
          refine (forall₂_imp_mem (allReplacedUnder_iff.1 all) ?_).flip
          exact fun x member x' _ replaced =>
            ih x member replaced (isShaped.operand member) (captureless.operand member) bindings
  | reduction id domain axis least extent =>
      cases replaced
      rw [Replacements.value_replaceVariable (by rw [treeValue]), treeValue]

theorem free (replaced : ReplacedUnder ρ shadowed e e') (isShaped : Shaped e)
    (captureless : ρ.Captureless e) {name : String} :
    Free name e' ↔ ∃ m, Free m e ∧ (ρ.beyond shadowed).GivesFree m name := by
  induction e using Expr.induction generalizing e' shadowed with
  | node id head dtype operands ih =>
      have each {shadowed : List String} {x x' : Expr} (member : x ∈ operands)
          (replaced : ReplacedUnder ρ shadowed x x') :=
        ih x member replaced (isShaped.operand member) (captureless.operand member)
      cases replaced with
      | var =>
          rw [Replacements.free_replaceVariable free_var]
          simp [free_var]
      | letIn first second =>
          rw [free_let, each (.head _) first, each (.tail _ (.head _)) second,
            Replacements.exists_givesFree_let fun _ _ found => captureless.bound found]
      | @node _ _ _ _ _ _ operands' notVar notBinding all =>
          have notLet := isShaped.notLet notBinding
          have below := allReplacedUnder_iff.1 all
          rw [free_operands notLet notVar]
          constructor
          · rintro ⟨x', member, inside⟩
            obtain ⟨x, isOperand, replaced⟩ := forall₂_mem_left below.flip member
            obtain ⟨m, free, gives⟩ := (each isOperand replaced).1 inside
            exact ⟨m, .operand notLet notVar isOperand free, gives⟩
          · rintro ⟨m, free, gives⟩
            obtain ⟨x, isOperand, inside⟩ := (free_operands notLet notVar).1 free
            obtain ⟨x', member, replaced⟩ := forall₂_mem_left below isOperand
            exact ⟨x', member, (each isOperand replaced).2 ⟨m, inside, gives⟩⟩
  | reduction id domain axis least extent =>
      cases replaced
      rw [Replacements.free_replaceVariable free_reduction]
      simp [free_reduction]

theorem eq_self (replaced : ReplacedUnder ρ shadowed e e') (isShaped : Shaped e)
    (keeps : ∀ name, Free name e → (ρ.beyond shadowed).find? name = none) : e' = e := by
  induction e using Expr.induction generalizing e' shadowed with
  | node id head dtype operands ih =>
      cases replaced with
      | var => rw [Replacements.replaceVariable_eq, keeps _ .var, Option.getD_none]
      | @letIn _ _ _ name _ value body _ _ first second same =>
          have newValue := ih value (.head _) first (isShaped.operand (.head _)) fun other free =>
            keeps other (.value free)
          have newBody := ih body (.tail _ (.head _)) second (isShaped.operand (.tail _ (.head _)))
            fun other free => by
              by_cases isBound : other = name
              · rw [isBound, Replacements.find?_beyond_bound]
              · rw [Replacements.find?_beyond_other isBound]
                exact keeps other (.body (Ne.symm isBound) free)
          rw [newValue, newBody, same newValue newBody]
      | @node _ _ _ _ _ _ operands' notVar notBinding all same =>
          have unchanged : operands' = operands := by
            refine (List.forall₂_eq_eq_eq ▸ forall₂_imp_mem (allReplacedUnder_iff.1 all).flip ?_)
            exact fun x' _ x member replaced => ih x member replaced (isShaped.operand member)
              fun name free => keeps name (.operand (isShaped.notLet notBinding) notVar member free)
          rw [unchanged, same unchanged]
  | reduction id domain axis least extent =>
      cases replaced
      rw [Replacements.replaceVariable_eq, keeps _ (.reduction rfl), Option.getD_none]

theorem calls (replaced : ReplacedUnder ρ shadowed e e') {callee : FuncId}
    (called : e'.Calls callee) : e.Calls callee ∨ ∃ x ∈ ρ, x.2.Calls callee := by
  induction e using Expr.induction generalizing e' shadowed with
  | node id head dtype operands ih =>
      have below {shadowed : List String} {x x' : Expr} (member : x ∈ operands)
          (replaced : ReplacedUnder ρ shadowed x x') (called : x'.Calls callee) :
          (Expr.node id head dtype operands).Calls callee ∨ ∃ y ∈ ρ, y.2.Calls callee :=
        (ih x member replaced called).imp_left fun inside => calls_node.2 (.inr ⟨x, member, inside⟩)
      cases replaced with
      | var => exact Replacements.calls_replaceVariable called
      | letIn first second =>
          rcases calls_node.1 called with ⟨name, isCall⟩ | ⟨x', member, inside⟩
          · cases isCall
          · rcases List.mem_pair.1 member with rfl | rfl
            · exact below (.head _) first inside
            · exact below (.tail _ (.head _)) second inside
      | node _ _ all =>
          rcases calls_node.1 called with isCall | ⟨x', member, inside⟩
          · exact .inl (calls_node.2 (.inl isCall))
          · obtain ⟨x, isOperand, replaced⟩ :=
              forall₂_mem_left (allReplacedUnder_iff.1 all).flip member
            exact below isOperand replaced inside
  | reduction id domain axis least extent =>
      cases replaced
      exact Replacements.calls_replaceVariable called

end ReplacedUnder

section

variable {ρ : Replacements} {e e' : Expr}

theorem Replacements.exists_givesFree {name : String} :
    (∃ m, Free m e ∧ ρ.GivesFree m name) ↔
      Free name e ∧ ρ.find? name = none ∨
        ∃ m x, Free m e ∧ ρ.find? m = some x ∧ Free name x := by
  unfold GivesFree
  constructor
  · rintro ⟨m, free, gives⟩
    cases found : ρ.find? m with
    | none =>
        simp only [found] at gives
        subst gives
        exact .inl ⟨free, found⟩
    | some x =>
        simp only [found] at gives
        exact .inr ⟨m, x, free, found, gives⟩
  · rintro (⟨free, kept⟩ | ⟨m, x, free, found, inside⟩)
    · exact ⟨name, free, by simp [kept]⟩
    · exact ⟨m, free, by simp [found, inside]⟩

theorem ReplacedUnder.mem_freeNames (replaced : ReplacedUnder ρ [] e e')
    (shapedAll : ∀ x ∈ ρ, Shaped x.2) (isShaped : Shaped e) (captureless : ρ.Captureless e)
    {name : String} : name ∈ e'.freeNames ↔
      name ∈ e.freeNames ∧ ρ.find? name = none ∨
        ∃ m x, m ∈ e.freeNames ∧ ρ.find? m = some x ∧ name ∈ x.freeNames := by
  have free : Free name e' ↔ _ := replaced.free isShaped captureless
  rw [Replacements.beyond_nil, Replacements.exists_givesFree] at free
  rw [Expr.mem_freeNames (replaced.shaped shapedAll isShaped), free, Expr.mem_freeNames isShaped]
  refine or_congr Iff.rfl (exists_congr fun m => exists_congr fun x => ?_)
  rw [Expr.mem_freeNames isShaped]
  refine and_congr_right fun _ => and_congr_right fun found => ?_
  exact (Expr.mem_freeNames (shapedAll _ (find?_mem found))).symm

/-- What names stand for where some of them were replaced, as the realizer evaluates replacements. -/
def Replacements.evaluated (ρ : Replacements) (setting : Realization) (reader : FuncReader)
    (env : Environment) (s : Realizer) : Bindings := fun name =>
  match ρ.find? name with
  | some x => ((x.evaluate reader env).outcome setting s).1
  | none => Eval.lookUp env name

theorem ReplacedUnder.evaluate_eq (replaced : ReplacedUnder ρ [] e e') {r later : Registry}
    (held : r.Holds e) (heldAll : ∀ x ∈ ρ, r.Holds x.2) (heldResult : later.Holds e')
    (isShaped : Shaped e) (shapedAll : ∀ x ∈ ρ, Shaped x.2) (captureless : ρ.Captureless e)
    {setting : Realization} {P : Realizer → Prop} {reader : FuncReader} {readings : Readings}
    (reads : ∀ id, e.Calls id ∨ (∃ x ∈ ρ, x.2.Calls id) → IsReadAs setting P reader readings id)
    {env env' : Environment} {s : Realizer} (before : P s)
    (isSet : ∀ name ∈ e.freeNames,
      Eval.lookUp env' name = ρ.evaluated setting reader env s name) :
    ((e'.evaluate reader env).outcome setting s).1 =
      ((e.evaluate reader env').outcome setting s).1 := by
  have result := (evaluate_runsAs heldResult (fun id called => reads id (replaced.calls called))
    env).result_eq before
  have original := (evaluate_runsAs held (fun id called => reads id (.inl called)) env').result_eq
    before
  rw [result, original, replaced.value shapedAll isShaped captureless, Replacements.beyond_nil]
  refine treeValue_congr isShaped fun name free => ?_
  rw [isSet name free.mem_freeNames, Replacements.evaluated, Replacements.bindingsIn]
  cases found : ρ.find? name with
  | none => rfl
  | some x =>
      have member := find?_mem found
      have answers := evaluate_runsAs (heldAll _ member)
        (fun id called => reads id (.inr ⟨_, member, called⟩)) env
      exact (answers.result_eq before).symm

/-- Substitution answers an expression whose value, whatever the variables stand for, is that of the
original with each replaced name set to the value of its replacement. Its free names are those that
are not replaced, and those of the replacements of the others. Where no free name is replaced, it is
the very expression that was given. -/
theorem substitute_evaluates {r : Registry} (held : r.Holds e) (heldAll : ∀ x ∈ ρ, r.Holds x.2)
    (isShaped : Shaped e) (shapedAll : ∀ x ∈ ρ, Shaped x.2) (captureless : ρ.Captureless e) :
    Builds (e.substitute ρ) r fun later e' => later.Holds e' ∧
      (∀ setting readings bindings, treeValue setting readings bindings e' =
        treeValue setting readings (ρ.bindingsIn setting readings bindings) e) ∧
      (∀ (setting : Realization) (P : Realizer → Prop) (reader : FuncReader) (readings : Readings),
        (∀ id, e.Calls id ∨ (∃ x ∈ ρ, x.2.Calls id) → IsReadAs setting P reader readings id) →
        ∀ (env env' : Environment) (s : Realizer), P s →
          (∀ name ∈ e.freeNames,
            Eval.lookUp env' name = ρ.evaluated setting reader env s name) →
          ((e'.evaluate reader env).outcome setting s).1 =
            ((e.evaluate reader env').outcome setting s).1) ∧
      (∀ name, name ∈ e'.freeNames ↔ name ∈ e.freeNames ∧ ρ.find? name = none ∨
        ∃ m x, m ∈ e.freeNames ∧ ρ.find? m = some x ∧ name ∈ x.freeNames) ∧
      ((∀ name ∈ e.freeNames, ρ.find? name = none) → e' = e) := by
  refine (substitute_replaces held heldAll).mono fun later e' _ ⟨heldResult, replaced⟩ => ?_
  refine ⟨heldResult, fun setting readings bindings => ?_, ?_, fun name => ?_, fun keeps => ?_⟩
  · rw [replaced.value shapedAll isShaped captureless, Replacements.beyond_nil]
  · intro setting P reader readings reads env env' s before isSet
    exact replaced.evaluate_eq held heldAll heldResult isShaped shapedAll captureless reads before
      isSet
  · exact replaced.mem_freeNames shapedAll isShaped captureless
  · refine replaced.eq_self isShaped fun name free => ?_
    rw [Replacements.beyond_nil]
    exact keeps name free.mem_freeNames

end

namespace Swapped

def x : Expr := .node 0 (.var "x" true) .int32 []

def y : Expr := .node 1 (.var "y" true) .int32 []

def t : Expr := .node 2 (.var "t" false) .int32 []

/-- It stands outside of the `let` that binds `t`, and in its body. -/
def difference : Expr := .node 3 (.binary .sub) .int32 [t, x]

def inner : Expr := .node 4 (.letIn "t") .int32 [x, difference]

def both : Expr := .node 5 (.binary .add) .int32 [difference, inner]

def whole : Expr := .node 6 (.binary .add) .int32 [both, y]

def sum : Expr := .node 7 (.binary .add) .int32 [x, y]

def replacements : Replacements := [("x", y), ("y", x), ("t", sum)]

def registry : Registry where
  node id := ([x, y, t, difference, inner, both, whole, sum][id]?).getD x
  next := 8
  names := 0

def env : Environment := [("x", .scalar .int64 (.int 10)), ("y", .scalar .int64 (.int 3))]

def swapped : Environment := [("x", .scalar .int64 (.int 3)), ("y", .scalar .int64 (.int 10)),
  ("t", .scalar .int64 (.int 13))]

def setting : Realization := { program := {}, kernels := .standard }

theorem value_of_whole : Builds (whole.substitute replacements) registry fun _ e' =>
    (∃ v, ((e'.evaluate (Realizer.readFrom (Realizer.realizeBox 0)) env).outcome setting {}).1 =
        .ok v ∧ v.data.toList.map Element.toInt = [(13 - 3) + (3 - 3) + 10]) ∧
      ∀ name, name ∈ e'.freeNames ↔ name = "x" ∨ name = "y" := by
  have held : registry.Holds whole := by
    simp [Registry.Holds, Registry.IsRegistered, registry, Expr.id, whole, both, inner, difference,
      t, y, x]
  have heldAll : ∀ x ∈ replacements, registry.Holds x.2 := by
    simp [Registry.Holds, Registry.IsRegistered, registry, Expr.id, replacements, sum, y, x]
  have isShaped : Shaped whole := by
    simp [shaped_node, Head.arity?, whole, both, inner, difference, t, y, x]
  have shapedAll : ∀ x ∈ replacements, Shaped x.2 := by
    simp [shaped_node, Head.arity?, replacements, sum, y, x]
  have captureless : replacements.Captureless whole := by
    intro name x found free isFree bound
    obtain rfl : free = "t" := by
      simpa [binds_node, Expr.boundName?, whole, both, inner, difference, t, y, Swapped.x, eq_comm]
        using bound
    have absent : ∀ x ∈ replacements, "t" ∉ x.2.freeNames := by decide
    exact absent _ (find?_mem found) isFree
  have names : whole.freeNames = ["t", "x", "y"] := by decide
  have isSwapped : ∀ name ∈ whole.freeNames, Eval.lookUp swapped name =
      replacements.evaluated setting (Realizer.readFrom (Realizer.realizeBox 0)) env {} name := by
    simp only [names, List.forall_mem_cons]
    refine ⟨?_, rfl, rfl, by simp⟩
    with_unfolding_all rfl
  have callsNone (id : FuncId) : ¬ (whole.Calls id ∨ ∃ x ∈ replacements, x.2.Calls id) := by
    simp [calls_node, whole, both, inner, difference, t, y, x, replacements, sum]
  have values : ((whole.evaluate (Realizer.readFrom (Realizer.realizeBox 0)) swapped).outcome
      setting {}).1.toOption.map (fun v => v.data.toList.map Element.toInt) =
        some [(13 - 3) + (3 - 3) + 10] := by decide +kernel
  refine (substitute_evaluates held heldAll isShaped shapedAll captureless).mono ?_
  rintro later e' _ ⟨_, _, evaluated, free, _⟩
  refine ⟨?_, fun name => ?_⟩
  · have same := evaluated setting (fun _ => True) (Realizer.readFrom (Realizer.realizeBox 0))
      (fun _ _ _ => .error .missingOperand) (fun id called => absurd called (callsNone id)) env
      swapped {} trivial isSwapped
    rw [same]
    generalize (whole.evaluate _ swapped).outcome setting {} = outcome at values
    obtain ⟨result, _⟩ := outcome
    cases result with
    | error fault => cases values
    | ok v => exact ⟨v, rfl, Option.some.inj values⟩
  · have found : replacements.find? "x" = some y ∧ replacements.find? "y" = some x ∧
        replacements.find? "t" = some sum := ⟨rfl, rfl, rfl⟩
    have inside : x.freeNames = ["x"] ∧ y.freeNames = ["y"] ∧ sum.freeNames = ["x", "y"] := by decide
    rw [free, names]
    simp only [List.mem_cons, List.not_mem_nil, or_false]
    grind

end Swapped

end ReverseMode
