import Std.Data.String.ToInt
import Std.Data.TreeMap.Lemmas
import ReverseMode.Expr.Digest
import ReverseMode.Proofs.Nodes.Names
import ReverseMode.Proofs.Nodes.Registry

namespace ReverseMode

open Expr

namespace Expr

def axisTag (domain : String) (axis : Nat) : String := s!"{domain}[{axis}]"

mutual

def textWith (hash : String → String) : Expr → String
  | node _ (.const c) _ _ => constantText c
  | node _ (.var name _) dtype _ => variableText dtype name ""
  | node _ head dtype operands => nodeText head dtype (digestsWith hash operands)
  | reduction _ domain axis _ _ =>
      variableText .int32 (axisName domain axis) (axisTag domain axis)

def digestsWith (hash : String → String) : List Expr → List String
  | [] => []
  | e :: rest => hash (textWith hash e) :: digestsWith hash rest

end

end Expr

theorem Sha256.hexDigit_ne_comma : ∀ a < 16, hexDigit a ≠ ',' := by decide

theorem Sha256.hexDigest_separated (text : String) : ',' ∉ (hexDigest text).toList := by
  simp only [hexDigest, String.toList_join]
  intro member
  obtain ⟨digits, isWord, inside⟩ := List.mem_flatMap.1 member
  obtain ⟨word, _, rfl⟩ := List.mem_map.1 isWord
  rw [toList_hex] at inside
  obtain ⟨i, _, isComma⟩ := List.mem_map.1 inside
  exact hexDigit_ne_comma _ (Nat.mod_lt _ (by decide)) isComma

variable {r : Registry} {hash : String → String}

def Registry.Digests (r : Registry) (hash : String → String) (memo : DigestMemo) : Prop :=
  ∀ (id : NodeId) (known : String), memo[id]? = some known → known = hash ((r.node id).textWith hash)

theorem Registry.Digests.insert {memo : DigestMemo} (digests : r.Digests hash memo) {e : Expr}
    (held : r.Holds e) : r.Digests hash (memo.insert e.id (hash (e.textWith hash))) := by
  intro id known found
  rw [Std.TreeMap.getElem?_insert] at found
  split at found
  next same =>
    rw [← Std.LawfulEqCmp.eq_of_compare same, held.here.2]
    exact (Option.some.inj found).symm
  next => exact digests id known found

theorem digest_remembered {e : Expr} (held : r.Holds e) {memo : DigestMemo}
    (digests : r.Digests hash memo) {remembered : StateM DigestMemo String}
    (known : ∀ d, memo[e.id]? = some d → remembered.run memo = (d, memo))
    (new : memo[e.id]? = none → ∃ later, r.Digests hash later ∧
      remembered.run memo = (hash (e.textWith hash), later.insert e.id (hash (e.textWith hash)))) :
    (remembered.run memo).1 = hash (e.textWith hash) ∧ r.Digests hash (remembered.run memo).2 := by
  cases found : memo[e.id]? with
  | some d =>
      rw [known d found]
      exact ⟨(digests e.id d found).trans (by rw [held.here.2]), digests⟩
  | none =>
      obtain ⟨later, digestsLater, run⟩ := new found
      rw [run]
      exact ⟨rfl, digestsLater.insert held⟩

theorem digestWith_run {e : Expr} (held : r.Holds e) {memo : DigestMemo}
    (digests : r.Digests hash memo) :
    ((digestWith hash e).run memo).1 = hash (e.textWith hash) ∧
      r.Digests hash ((digestWith hash e).run memo).2 := by
  induction e using Expr.induction generalizing memo with
  | node id head dtype operands ih =>
      have all (es : List Expr) (subset : es ⊆ operands) {memo : DigestMemo}
          (digests : r.Digests hash memo) :
          ((digestAll hash es).run memo).1 = digestsWith hash es ∧
            r.Digests hash ((digestAll hash es).run memo).2 := by
        induction es generalizing memo with
        | nil => exact ⟨rfl, digests⟩
        | cons e rest ihRest =>
            obtain ⟨member, others⟩ := List.cons_subset.1 subset
            obtain ⟨isDigest, digestsNext⟩ := ih e member (held.operands e member) digests
            obtain ⟨areDigests, digestsLast⟩ := ihRest others digestsNext
            refine ⟨?_, digestsLast⟩
            rw [digestsWith, ← isDigest, ← areDigests]
            rfl
      have afterwards := all operands (List.Subset.refl _) digests
      refine digest_remembered held digests (fun d found => ?_) fun found => ?_
      · have present : memo[id]? = some d := found
        simp [digestWith, present]
        rfl
      · have absent : memo[id]? = none := found
        match head with
        | .const c =>
            refine ⟨memo, digests, ?_⟩
            simp [digestWith, absent]
            rfl
        | .var name index =>
            refine ⟨memo, digests, ?_⟩
            simp [digestWith, absent]
            rfl
        | .cast | .binary _ | .select | .letIn _ | .call _ | .other _ =>
            refine ⟨_, afterwards.2, ?_⟩
            simp only [textWith]
            rw [← afterwards.1]
            simp [digestWith, absent]
            rfl
  | reduction id domain axis least extent =>
      refine digest_remembered held digests (fun d found => ?_) fun found => ?_
      · have present : memo[id]? = some d := found
        simp [digestWith, present]
        rfl
      · have absent : memo[id]? = none := found
        refine ⟨memo, digests, ?_⟩
        simp [digestWith, absent]
        rfl

theorem equalWith_iff {a b : Expr} (left : r.Holds a) (right : r.Holds b) :
    a.equalWith hash b = true ↔ hash (a.textWith hash) = hash (b.textWith hash) := by
  have nothing : r.Digests hash {} := fun id known found => by simp at found
  rw [equalWith, Bool.or_eq_true, beq_iff_eq, (digestWith_run left nothing).1,
    (digestWith_run right nothing).1]
  refine ⟨fun either => either.elim (fun same => ?_) id, .inr⟩
  rw [left.eq_of_id right (beq_iff_eq.1 same)]

/-- No text below `a` shares its digest with another text below `b`. -/
def TellsApart (hash : String → String) (a b : Expr) : Prop :=
  ∀ x y, Subnode x a → Subnode y b → hash (x.textWith hash) = hash (y.textWith hash) →
    x.textWith hash = y.textWith hash

theorem digest_literal (hash : String → String) {id : NodeId} {c : Constant} {dtype : DType}
    {operands : List Expr} :
    ((digestWith hash (.node id (.const c) dtype operands)).run {}).1 =
      hash (Expr.constantText c) := by
  simp [digestWith]
  rfl

theorem toString_string (s : String) : toString s = s := rfl

theorem constantText_ne_nodeText {op : BinaryOp} {dtype : DType} {digests : List String}
    {c : Int} (kind : op = .add ∨ op = .sub ∨ op = .min ∨ op = .max) :
    nodeText (.binary op) dtype digests ≠ Expr.constantText (.int c) := by
  intro same
  have letters := congrArg String.toList same
  rcases kind with rfl | rfl | rfl | rfl <;>
    simp [nodeText, Expr.constantText, Head.kind, BinaryOp.kind, toString_string] at letters

theorem constantText_injective {c d : Int}
    (same : Expr.constantText (.int c) = Expr.constantText (.int d)) : c = d := by
  simp [Expr.constantText, Constant.text, Constant.dtype, toString_string] at same
  exact same

theorem toList_variableText (name tag : String) :
    (variableText .int32 name tag).toList =
      "VAR|int32|".toList ++ (name.toList ++ '|' :: tag.toList) := by
  simp [variableText, toString, DType.name]

theorem toList_axisTag (domain : String) (axis : Nat) :
    (axisTag domain axis).toList = (domain.toList ++ '[' :: axis.repr.toList) ++ [']'] := by
  simp [axisTag, toString]

theorem axisTag_injective {domain domain' : String} {i j : Nat}
    (same : (axisName domain i).toList ++ '|' :: (axisTag domain i).toList =
      (axisName domain' j).toList ++ '|' :: (axisTag domain' j).toList) :
    domain = domain' ∧ i = j := by
  have digits (n : Nat) : '[' ∉ n.repr.toList := by
    intro member
    rw [Nat.toList_repr] at member
    exact absurd (Nat.isDigit_of_mem_toDigits (by decide) (by decide) member) (by decide)
  have parts : (domain.toList ++ ('.' :: (axisText i).toList ++ ['|'])) ++ domain.toList =
        (domain'.toList ++ ('.' :: (axisText j).toList ++ ['|'])) ++ domain'.toList ∧
      i.repr.toList = j.repr.toList := by
    refine append_cons_inj (digits i) (digits j) (List.append_cancel_right (?_ : _ ++ [']'] = _ ++ [']']))
    rw [toList_axisTag, toList_axisTag, toList_axisName, toList_axisName] at same
    simpa using same
  have sameAxis : i = j := Nat.repr_injective (String.toList_inj.1 parts.2)
  subst sameAxis
  have sameLength := congrArg List.length parts.1
  simp only [List.length_append, List.length_cons] at sameLength
  exact ⟨String.toList_inj.1 (List.append_inj_right parts.1 (by simp; omega)), rfl⟩

def IsTag (name tag : String) : Prop :=
  tag = "" ∨ ∃ domain axis, name = axisName domain axis ∧ tag = axisTag domain axis

theorem name_of_variableText {name name' tag tag' : String} (isTag : IsTag name tag)
    (isTag' : IsTag name' tag') (same : variableText .int32 name tag = variableText .int32 name' tag') :
    name = name' := by
  have lists := congrArg String.toList same
  rw [toList_variableText, toList_variableText, List.append_cancel_left_eq] at lists
  have mixed {name other domain : String} {axis : Nat}
      (lists : name.toList ++ '|' :: "".toList = other.toList ++ '|' :: (axisTag domain axis).toList) :
      False := by
    rw [toList_axisTag, ← List.cons_append, ← List.append_assoc] at lists
    exact absurd (List.append_inj' lists rfl).2 (by decide)
  rcases isTag with rfl | ⟨domain, i, rfl, rfl⟩ <;> rcases isTag' with rfl | ⟨domain', j, rfl, rfl⟩
  · exact String.toList_inj.1 (List.append_cancel_right lists)
  · exact (mixed lists).elim
  · exact (mixed lists.symm).elim
  · obtain ⟨rfl, rfl⟩ := axisTag_injective lists
    rfl

theorem toList_nodeText (op : BinaryOp) (left right : String) :
    (nodeText (.binary op) .int32 [left, right]).toList =
      op.kind.toList ++ ("|int32|||".toList ++ (left.toList ++ ',' :: right.toList)) := by
  simp [nodeText, toString, DType.name, Head.kind, Head.name]

theorem nodeText_injective {op : BinaryOp} {left right left' right' : String}
    (separated : ',' ∉ right.toList) (separated' : ',' ∉ right'.toList)
    (same : nodeText (.binary op) .int32 [left, right] = nodeText (.binary op) .int32 [left', right']) :
    left = left' ∧ right = right' := by
  have lists := congrArg String.toList same
  rw [toList_nodeText, toList_nodeText, List.append_cancel_left_eq, List.append_cancel_left_eq] at lists
  have parts := append_cons_inj separated separated' lists
  exact ⟨String.toList_inj.1 parts.1, String.toList_inj.1 parts.2⟩

end ReverseMode
