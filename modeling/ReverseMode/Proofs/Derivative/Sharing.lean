import ReverseMode.Proofs.Derivative.Adjoints
import ReverseMode.Proofs.Program.Mirroring

namespace ReverseMode

open Expr

/-- The trees agree apart from the names that calls bear, which are related. -/
inductive Resembles (named : String → String → Prop) : Expr → Expr → Prop where
  | call {node node' : NodeId} {id : FuncId} {name name' : String} {dtype : DType}
      {operands operands' : List Expr} : named name name' →
      List.Forall₂ (Resembles named) operands operands' →
      Resembles named (.node node (.call (.func id name)) dtype operands)
        (.node node' (.call (.func id name')) dtype operands')
  | node {node node' : NodeId} {head : Head} {dtype : DType} {operands operands' : List Expr} :
      (∀ id name, head ≠ .call (.func id name)) → List.Forall₂ (Resembles named) operands operands' →
      Resembles named (.node node head dtype operands) (.node node' head dtype operands')
  | reduction {node node' : NodeId} {domain : String} {axis : Nat}
      {least least' extent extent' : Expr} : Resembles named least least' → Resembles named extent extent' →
      Resembles named (.reduction node domain axis least extent)
        (.reduction node' domain axis least' extent')

namespace Resembles

variable {named : String → String → Prop} {e e' : Expr}

theorem operands_induction {P : Expr → Expr → Prop} {operands operands' : List Expr}
    (below : List.Forall₂ (Resembles named) operands operands')
    (each : ∀ x ∈ operands, ∀ x', Resembles named x x' → P x x') :
    List.Forall₂ P operands operands' :=
  forall₂_imp_mem below fun x member x' _ alike => each x member x' alike

theorem integer_eq (alike : Resembles named e e') (env : Env) : e.integer env = e'.integer env := by
  induction e using Expr.induction generalizing e' with
  | node node head dtype operands ih =>
      cases alike with
      | call => rfl
      | node _ related =>
          have below := operands_induction related ih
          cases head with
          | const c => cases c <;> rfl
          | var => rfl
          | binary op =>
              rcases below with _ | ⟨first, _ | ⟨second, _ | _⟩⟩
              · rfl
              · rfl
              · simp only [integer, first, second]
              · rfl
          | _ => rfl
  | reduction =>
      cases alike
      rfl

section

variable {α : Type} [Scalar α]

theorem exactIn_eq (alike : Resembles named e e') (reads : Reads α) (env : String → α) :
    exactIn reads.answers env e = exactIn reads.answers env e' := by
  induction e using Expr.induction generalizing e' env with
  | node node head dtype operands ih =>
      have values {operands' : List Expr} (related : List.Forall₂ (Resembles named) operands operands') :
          operands.map (exactIn reads.answers env) = operands'.map (exactIn reads.answers env) :=
        List.forall₂_eq_eq_eq ▸ List.forall₂_map_left_iff.2 (List.forall₂_map_right_iff.2
          (operands_induction related fun x member x' alike => ih x member alike env))
      cases alike with
      | call _ related =>
          rw [exactIn_head (by simp), exactIn_head (by simp), values related]
          rfl
      | node _ related =>
          by_cases isBinding : IsBinding head operands
          · obtain ⟨name, value, body, rfl, rfl⟩ := isBinding
            obtain ⟨value', body', rfl, first, second⟩ := related_pair related
            rw [exactIn_let, exactIn_let, ih value (.head _) first, ih body (.tail _ (.head _)) second]
          · rw [exactIn_node isBinding, exactIn_node (mt (isBinding_of_related related) isBinding),
              values related]
  | reduction =>
      cases alike
      rw [exactIn_reduction, exactIn_reduction]

end

def Noted (named : String → String → Prop) (v v' : Expr) : Prop := Resembles named v v' ∧ v.name = v'.name

theorem noteVariable {v v' : Expr} (noted : Noted named v v') (bound : List String)
    {seen seen' : List Expr} (known : List.Forall₂ (Noted named) seen seen') :
    List.Forall₂ (Noted named) (Expr.noteVariable bound v seen) (Expr.noteVariable bound v' seen') := by
  have names : seen.map Expr.name = seen'.map Expr.name :=
    List.forall₂_eq_eq_eq ▸ List.forall₂_map_left_iff.2 (List.forall₂_map_right_iff.2
      (known.imp fun _ _ => And.right))
  have sameAny : seen.any (fun w => w.name == v.name) = seen'.any fun w => w.name == v'.name := by
    have onNames (es : List Expr) (name : String) :
        es.any (fun w => w.name == name) = (es.map Expr.name).any (· == name) := by
      rw [List.any_map]
      rfl
    rw [onNames, onNames, names, noted.2]
  unfold Expr.noteVariable
  dsimp only
  rw [sameAny, noted.2]
  split
  · exact known
  · exact List.rel_append known (.cons noted .nil)

theorem collectAllFree {bound : List String} {operands operands' seen seen' : List Expr}
    (related : List.Forall₂ (fun x x' => ∀ seen seen', List.Forall₂ (Noted named) seen seen' →
      List.Forall₂ (Noted named) (Expr.collectFree bound x seen) (Expr.collectFree bound x' seen'))
      operands operands') (known : List.Forall₂ (Noted named) seen seen') :
    List.Forall₂ (Noted named) (Expr.collectAllFree bound operands seen)
      (Expr.collectAllFree bound operands' seen') := by
  induction related generalizing seen seen' with
  | nil => exact known
  | cons first _ ih =>
      rw [Expr.collectAllFree, Expr.collectAllFree]
      exact ih (first _ _ known)

theorem collectFree (alike : Resembles named e e') (bound : List String) {seen seen' : List Expr}
    (known : List.Forall₂ (Noted named) seen seen') :
    List.Forall₂ (Noted named) (Expr.collectFree bound e seen) (Expr.collectFree bound e' seen') := by
  induction e using Expr.induction generalizing e' bound seen seen' with
  | node node head dtype operands ih =>
      cases alike with
      | call _ related =>
          exact collectAllFree (operands_induction related fun x member x' alike _ _ known =>
            ih x member alike bound known) known
      | node other related =>
          by_cases isVariable : ∃ name index, head = .var name index
          · obtain ⟨name, index, rfl⟩ := isVariable
            exact noteVariable ⟨.node other related, rfl⟩ bound known
          have plain : ∀ name index, head ≠ .var name index :=
            fun name index same => isVariable ⟨name, index, same⟩
          by_cases isBinding : IsBinding head operands
          · obtain ⟨name, value, body, rfl, rfl⟩ := isBinding
            obtain ⟨value', body', rfl, first, second⟩ := related_pair related
            rw [Expr.collectFree, Expr.collectFree]
            exact ih body (.tail _ (.head _)) second _ (ih value (.head _) first bound known)
          · rw [collectFree_operands plain isBinding,
              collectFree_operands plain (mt (isBinding_of_related related) isBinding)]
            exact collectAllFree (operands_induction related fun x member x' alike _ _ known =>
              ih x member alike bound known) known
  | reduction =>
      have alike' := alike
      cases alike with
      | reduction => exact noteVariable ⟨alike', rfl⟩ bound known

def SameRange (range range' : String × Expr × Expr) : Prop :=
  range.1 = range'.1 ∧ rangeEnds range.2 = rangeEnds range'.2

theorem noteRange {v v' : Expr} (alike : Resembles named v v') {seen seen' : List (String × Expr × Expr)}
    (known : List.Forall₂ SameRange seen seen') :
    List.Forall₂ SameRange (Realizer.noteRange seen v) (Realizer.noteRange seen' v') := by
  cases alike with
  | call => exact known
  | node => exact known
  | @reduction _ _ domain axis _ _ _ _ least extent =>
      have sameEnds := congrArg₂ (fun l e : Int => (l, l + e - 1)) (least.integer_eq fun _ => 0)
        (extent.integer_eq fun _ => 0)
      have sameLookup (name : String) : (seen.lookup name).isSome = (seen'.lookup name).isSome := by
        induction known with
        | nil => rfl
        | @cons range range' _ _ first _ ih =>
            obtain ⟨name', ends⟩ := range
            obtain ⟨name'', ends'⟩ := range'
            obtain rfl : name' = name'' := first.1
            rw [List.lookup_cons, List.lookup_cons]
            split
            · rfl
            · exact ih
      unfold Realizer.noteRange
      dsimp only
      rw [sameLookup]
      split
      · exact known
      · exact List.rel_append known (.cons ⟨rfl, sameEnds⟩ .nil)

theorem scope_eq {d d' : Definition} (args : List.Forall₂ (Resembles named) d.args d'.args)
    (value : Resembles named d.value d'.value) : d.scope = d'.scope := by
  have free : List.Forall₂ (Noted named) ((d.args ++ [d.value]).flatMap Expr.freeVariables)
      ((d'.args ++ [d'.value]).flatMap Expr.freeVariables) :=
    List.rel_flatMap (List.rel_append args (.cons value .nil)) fun _ _ alike => alike.collectFree [] .nil
  have ranges : List.Forall₂ SameRange (Realizer.reductionRanges d) (Realizer.reductionRanges d') := by
    rw [Realizer.reductionRanges_eq, Realizer.reductionRanges_eq]
    exact List.rel_foldl (fun _ _ known _ _ noted => noteRange noted.1 known) .nil free
  unfold Definition.scope
  refine List.forall₂_eq_eq_eq ▸ List.forall₂_map_left_iff.2 (List.forall₂_map_right_iff.2 (ranges.imp ?_))
  exact fun range range' same => Prod.ext same.1 same.2

end Resembles

/-- Definitions with alike arguments and values. -/
structure Definition.Resembles (named : String → String → Prop) (d d' : Definition) : Prop where
  args : List.Forall₂ (ReverseMode.Resembles named) d.args d'.args
  value : ReverseMode.Resembles named d.value d'.value

/-- Functions with related names and alike definitions. -/
structure Func.Resembles (named : String → String → Prop) (f f' : Func) : Prop where
  name : named f.name f'.name
  init : Option.Rel (Definition.Resembles named) f.init f'.init
  updates : List.Forall₂ (Definition.Resembles named) f.updates f'.updates

/-- Programs whose losses are alike, and whose functions that the first loss reaches. -/
structure Program.Resembles (named : String → String → Prop) (p p' : Program) (loss loss' : Expr) :
    Prop where
  root : ReverseMode.Resembles named loss loss'
  funcs : ∀ f, p.Home loss (some f) → Func.Resembles named (p.func f) (p'.func f)

section

variable {named : String → String → Prop} {α : Type} [Scalar α]

theorem runUpdate_alike {update update' : Definition} (alike : update.Resembles named update')
    (reads : Reads α) (id : FuncId) (declared : List String) (before : Grid α) :
    runUpdate reads id declared update before = runUpdate reads id declared update' before := by
  unfold runUpdate
  rw [Resembles.scope_eq alike.args alike.value]
  refine congrArg (fun step => List.foldl step before _) ?_
  funext values point index
  exact alike.value.exactIn_eq _ _

end

theorem rel_getElem? {β : Type} {R : β → β → Prop} {as bs : List β} (related : List.Forall₂ R as bs)
    (i : Nat) : Option.Rel R as[i]? bs[i]? := by
  induction related generalizing i with
  | nil => exact .none
  | cons first _ ih =>
      cases i with
      | zero => exact .some first
      | succ i => exact ih i

theorem rel_cases {β : Type} {R : β → β → Prop} {a b : Option β} (related : Option.Rel R a b) :
    a = none ∧ b = none ∨ ∃ x y, a = some x ∧ b = some y ∧ R x y := by
  cases related with
  | none => exact .inl ⟨rfl, rfl⟩
  | some same => exact .inr ⟨_, _, rfl, rfl, same⟩

namespace Func.Resembles

variable {named : String → String → Prop} {f f' : Func} {r : Registry} {vars : List Expr}
  (alike : f.Resembles named f')

include alike

theorem declared_eq (declares : Declares r f vars) : f.declared = f'.declared := by
  obtain ⟨initial, isInitial, rfl⟩ := declares.args
  rcases rel_cases alike.init with ⟨nothing, _⟩ | ⟨d, d', isD, isD', same⟩
  · rw [isInitial] at nothing
    cases nothing
  obtain rfl := Option.some.inj (isInitial.symm.trans isD)
  unfold Func.declared
  rw [isD, isD']
  refine List.forall₂_eq_eq_eq ▸ List.forall₂_map_left_iff.2 (List.forall₂_map_right_iff.2
    (forall₂_imp_mem same.args fun v isVar v' _ alike => ?_))
  obtain ⟨node, index, isVariable⟩ := declares.areVars v isVar
  rw [isVariable] at alike ⊢
  cases alike
  rfl

theorem after_eq {α : Type} [Scalar α] (sameDeclared : f.declared = f'.declared)
    (id : FuncId) (reads : Reads α) (bump : Int → Grid α) (updates : Nat) :
    f.after id reads bump updates = f'.after id reads bump updates := by
  induction updates with
  | zero =>
      have initials : f.initialGrid reads = f'.initialGrid reads := by
        funext index
        unfold Func.initialGrid
        rw [sameDeclared]
        rcases rel_cases alike.init with ⟨none, none'⟩ | ⟨d, d', isD, isD', same⟩
        · rw [none, none']
        · rw [isD, isD']
          exact same.value.exactIn_eq _ _
      unfold Func.after
      rw [initials]
  | succ updates ih =>
      unfold Func.after
      rcases rel_cases (rel_getElem? alike.updates updates) with ⟨none, none'⟩ | ⟨d, d', isD, isD', same⟩
      · rw [none, none', ih]
      · rw [isD, isD', ih, sameDeclared]
        dsimp only
        rw [runUpdate_alike same]

theorem stage {entry : Int × Definition} (isStage : entry ∈ f.stages) :
    ∃ d', (entry.1, d') ∈ f'.stages ∧ entry.2.Resembles named d' := by
  obtain ⟨initial, isInitial, cases⟩ := mem_stages.1 isStage
  rcases rel_cases alike.init with ⟨nothing, _⟩ | ⟨d, initial', isD, isInitial', same⟩
  · rw [isInitial] at nothing
    cases nothing
  obtain rfl := Option.some.inj (isInitial.symm.trans isD)
  rcases cases with ⟨isFirst, isDefinition⟩ | ⟨i, isLater, isUpdate⟩
  · exact ⟨initial', mem_stages.2 ⟨initial', isInitial', .inl ⟨isFirst, rfl⟩⟩, isDefinition ▸ same⟩
  · rcases rel_cases (rel_getElem? alike.updates i) with ⟨nothing, _⟩ | ⟨u, u', isU, isU', same⟩
    · rw [isUpdate] at nothing
      cases nothing
    obtain rfl := Option.some.inj (isUpdate.symm.trans isU)
    exact ⟨u', mem_stages.2 ⟨initial', isInitial', .inr ⟨i, isLater, isU'⟩⟩, same⟩

end Func.Resembles

theorem Resembles.outer {named : String → String → Prop} {e e' x : Expr} (alike : Resembles named e e')
    (outer : Outer x e) : ∃ x', Outer x' e' ∧ Resembles named x x' := by
  induction outer generalizing e' with
  | here => exact ⟨e', .here, alike⟩
  | operand noCall member _ ih =>
      cases alike with
      | call => exact absurd rfl (noCall _ _)
      | node _ related =>
          obtain ⟨y', member', alike'⟩ := forall₂_mem_left related member
          obtain ⟨x', outer', alikeX⟩ := ih alike'
          exact ⟨x', .operand noCall member' outer', alikeX⟩

theorem Resembles.callsHere {named : String → String → Prop} {e e' : Expr} (alike : Resembles named e e')
    {id : FuncId} (calls : e.CallsHere id) : e'.CallsHere id := by
  obtain ⟨name, isCall⟩ := calls
  cases alike with
  | call =>
      cases isCall
      exact ⟨_, rfl⟩
  | @node _ _ head =>
      cases head <;> cases isCall
      exact ⟨name, rfl⟩
  | reduction => cases isCall

namespace Program

variable {named : String → String → Prop} {p p' : Program} {loss loss' : Expr} {r r' : Registry}
  (alike : p.Resembles named p' loss loss')

include alike

theorem Resembles.home {home : Option FuncId} (isHome : p.Home loss home) : p'.Home loss' home := by
  induction isHome with
  | root => exact .root
  | @call home x id isHome stands calls ih =>
      cases home with
      | none =>
          obtain ⟨x', outer, same⟩ := alike.root.outer stands
          exact .call ih outer (same.callsHere calls)
      | some f =>
          obtain ⟨entry, isStage, outer⟩ := stands
          obtain ⟨d', isStage', sameStage⟩ := (alike.funcs f isHome).stage isStage
          obtain ⟨x', outer', same⟩ := sameStage.value.outer outer
          exact .call ih ⟨_, isStage', outer'⟩ (same.callsHere calls)

variable (elementary : p.Elementary r loss) (elementary' : p'.Elementary r' loss')

include elementary elementary'

theorem Resembles.values_eq {α : Type} [Scalar α] (bump : Bump α) {f : FuncId}
    (isHome : p.Home loss (some f)) : p.values bump f = p'.values bump f := by
  have grounded := (elementary.funcs f isHome).grounded
  induction grounded with
  | @intro f _ _ ih =>
      obtain ⟨vars, declares⟩ := (elementary.funcs f isHome).declares
      have same := alike.funcs f isHome
      have sameReads : ∀ callee, (p.func f).Needs f callee → p.values bump callee = p'.values bump callee :=
        fun callee needed => ih callee needed (elementary.needs isHome needed)
      rw [(elementary.funcs f isHome).grounded.values_eq,
        (elementary'.funcs f (alike.home isHome)).grounded.values_eq]
      unfold Program.compute
      rw [after_congr sameReads, same.after_eq (same.declared_eq declares), same.updates.length_eq]

theorem Resembles.forward_eq (f : FuncId) (stage : Int) (index : List Int) :
    p.forward loss f stage index = p'.forward loss' f stage index := by
  have axes : loss.axes = loss'.axes := ReverseMode.Resembles.scope_eq .nil alike.root
  have values (env : Env) : exact (p.values (bumpAt f stage index)).answers env loss =
      exact (p'.values (bumpAt f stage index)).answers env loss' :=
    (exact_congr_reads loss (fun _ _ => rfl) fun callee called => alike.values_eq elementary elementary' _
      (.of_root ((elementary.places _ _ _ .root).meets called))).trans (alike.root.exactIn_eq _ _)
  unfold forward
  rw [axes]
  exact congrArg (fun g => sumOver g loss'.axes zeroEnv) (funext fun env => congrArg _ (values env))

end Program

def Derivative.Agrees (d : Derivative) (p : Program) (loss : Expr) (left : Program) (d' : Derivative)
    (p' left' : Program) : Prop :=
  ∀ f entry, p.Home loss (some f) → entry ∈ (p.func f).stages → ∃ target target',
    d.adjoint (p.func f).name entry.1 = .ok target ∧ d'.adjoint (p'.func f).name entry.1 = .ok target' ∧
      ∀ index : List Int, index.length = (p.func f).declared.length →
        left.exactReads target index = left'.exactReads target' index

section

variable {named : String → String → Prop} {p p' left left' : Program} {r r' : Registry}
  {loss loss' : Expr} {settings : Differentiation} {d d' : Derivative}
  (fits : r.Fits p.supply) (fits' : r'.Fits p'.supply)
  (tells : p.TellsTextsApart settings.hash loss) (tells' : p'.TellsTextsApart settings.hash loss')
  (unmuted : settings.muted = [])
  (elementary : p.Elementary r loss) (elementary' : p'.Elementary r' loss')
  (smooth : p.SmoothlyDemanded loss) (smooth' : p'.SmoothlyDemanded loss')
  (run : (derivative settings loss).run.run p = (.ok d, left))
  (run' : (derivative settings loss').run.run p' = (.ok d', left'))

include fits fits' tells tells' unmuted elementary elementary' smooth smooth' run run'

theorem Program.Resembles.adjoints (alike : p.Resembles named p' loss loss') :
    d.Agrees p loss left d' p' left' := by
  obtain ⟨_, _, _, holds⟩ := derivative_forward elementary tells unmuted smooth fits d left run
  obtain ⟨_, _, _, holds'⟩ := derivative_forward elementary' tells' unmuted smooth' fits' d' left' run'
  intro f entry isHome isStage
  obtain ⟨initial, _, declares⟩ := elementary.declares isHome
  have same := alike.funcs f isHome
  obtain ⟨u', isStage', _⟩ := same.stage isStage
  obtain ⟨target, isTarget, _, values⟩ := holds f entry isHome isStage
  obtain ⟨target', isTarget', _, values'⟩ := holds' f (entry.1, u') (alike.home isHome) isStage'
  refine ⟨target, target', isTarget, isTarget', fun index isIndex => ?_⟩
  rw [values index isIndex, values' index (by rw [isIndex, same.declared_eq declares]),
    alike.forward_eq elementary elementary']

/-- Programs that differ in what their trees share have the same adjoints. -/
theorem sharing_invisible (alike : p.Resembles Eq p' loss loss') : d.Agrees p loss left d' p' left' :=
  alike.adjoints fits fits' tells tells' unmuted elementary elementary' smooth smooth' run run'

/-- Where functions of distinct names are renamed to distinct names, their adjoints stay the same. -/
theorem names_irrelevant (alike : p.Resembles (fun _ _ => True) p' loss loss') :
    d.Agrees p loss left d' p' left' :=
  alike.adjoints fits fits' tells tells' unmuted elementary elementary' smooth smooth' run run'

end

namespace Spread

section

variable {named : String → String → Prop} {name name' : String} (related : named name name')
  (same : ∀ name, named name name)

theorem alike_x : Resembles named x x := .node nofun .nil

theorem alike_axis : Resembles named axis axis := .reduction (.node nofun .nil) (.node nofun .nil)

theorem alike_shifted : Resembles named shifted shifted :=
  .node nofun (.cons alike_x (.cons (.reduction (.node nofun .nil) (.node nofun .nil)) .nil))

theorem alike_value : Resembles named value value := .node nofun (.cons alike_x .nil)

include same in
theorem alike_loss : Resembles named loss loss :=
  .node nofun (.cons (.call (same "f") (.cons alike_axis .nil))
    (.cons (.call (same "w") (.cons alike_axis .nil)) .nil))

include related in
theorem alike_square (copy copy' : NodeId) : Resembles named (square copy name) (square copy' name') :=
  .node nofun (.cons (.call related (.cons alike_x .nil))
    (.cons (.call related (.cons alike_x .nil)) .nil))

include related same in
theorem alike_sum : Resembles named (sum name) (sum name') :=
  .node nofun (.cons (.call (same "f") (.cons alike_x .nil))
    (.cons (.call related (.cons alike_shifted .nil)) .nil))

include related same in
theorem alike {copy : NodeId} (isVariant : (copy, name) ∈ variants) (copy' : NodeId) :
    (program copy name).Resembles named (program copy' name') loss loss where
  root := alike_loss same
  funcs f home := by
    have args : List.Forall₂ (Resembles named) [x] [x] := .cons alike_x .nil
    rcases isHome isVariant home with rfl | rfl | rfl
    · exact ⟨same "f", .some ⟨args, alike_square related copy copy'⟩,
        .cons ⟨args, alike_sum related same⟩ .nil⟩
    · exact ⟨related, .some ⟨args, alike_value⟩, .nil⟩
    · exact ⟨same "w", .some ⟨args, alike_value⟩, .nil⟩

end

theorem sharing_invisible_of_square : ∃ d left d' left',
    (derivative settings loss).run.run (program 7 "g") = (.ok d, left) ∧
      (derivative settings loss).run.run (program 8 "g") = (.ok d', left') ∧
      d.Agrees (program 7 "g") loss left d' (program 8 "g") left' := by
  have shared : (7, "g") ∈ variants := .head _
  have copied : (8, "g") ∈ variants := .tail _ (.head _)
  obtain ⟨d, left, run⟩ := returns shared
  obtain ⟨d', left', run'⟩ := returns copied
  exact ⟨d, left, d', left', run, run', sharing_invisible fits fits
    (tellsTextsApart shared) (tellsTextsApart copied) rfl (elementary shared) (elementary copied)
    (smooth shared) (smooth copied) run run' (alike rfl (fun _ => rfl) shared 8)⟩

theorem names_irrelevant_of_g : ∃ d left d' left',
    (derivative settings loss).run.run (program 7 "g") = (.ok d, left) ∧
      (derivative settings loss).run.run (program 7 "h") = (.ok d', left') ∧
      d.Agrees (program 7 "g") loss left d' (program 7 "h") left' := by
  have isG : (7, "g") ∈ variants := .head _
  have isH : (7, "h") ∈ variants := .tail _ (.tail _ (.head _))
  obtain ⟨d, left, run⟩ := returns isG
  obtain ⟨d', left', run'⟩ := returns isH
  exact ⟨d, left, d', left', run, run', names_irrelevant fits fits
    (tellsTextsApart isG) (tellsTextsApart isH) rfl (elementary isG) (elementary isH)
    (smooth isG) (smooth isH) run run' (alike trivial (fun _ => trivial) isG 7)⟩

end Spread

end ReverseMode
