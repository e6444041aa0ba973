import ReverseMode.Proofs.Digest.Sha256
import ReverseMode.Proofs.Nodes.Building
import ReverseMode.Proofs.Nodes.Digest

/-!
# Structural equality and trees

The text of a node begins with a word and a type, neither of which contains a bar, and ends with the
digests of its operands, which contain neither bars nor commas. So whatever bars, commas and brackets
stand in the names between them, the text tells the label of the node and the digests of its operands,
and expressions of one digest unfold to one tree.
-/

namespace ReverseMode

open Expr

namespace Head

def callType : Head → String
  | call callee => callee.sort
  | _ => ""

def literal? : Head → Option String
  | const c => some c.text
  | _ => none

end Head

namespace Expr

structure Label where
  kind : String
  dtype : DType
  name : String
  callType : String
  literal : Option String
  /-- The domain and the axis of a reduction variable. -/
  axis : Option (String × Nat)

def label : Expr → Label
  | node _ head dtype _ => ⟨head.kind, dtype, head.name, head.callType, head.literal?, none⟩
  | reduction _ domain axis _ _ =>
      ⟨"Variable", .int32, axisName domain axis, "", none, some (domain, axis)⟩

/-- The unfolded trees agree node by node. -/
inductive SameTree : Expr → Expr → Prop where
  | node {a b : Expr} :
      a.label = b.label → List.Forall₂ SameTree a.operands b.operands → SameTree a b

/-- A node as the constructors make it: a literal has its own type, a leaf no operands, and every
other node one of the known kinds. -/
def IsMade : Expr → Prop
  | node _ (.const c) dtype operands => dtype = c.dtype ∧ operands = []
  | node _ (.var _ _) _ operands => operands = []
  | node _ (.other _) _ _ => False
  | _ => True

namespace Label

def word (l : Label) : String :=
  if l.kind = "Constant" then "CONST" else if l.kind = "Variable" then "VAR" else l.kind

def rest (digests : List String) (l : Label) : List Char :=
  if l.kind = "Constant" then (l.literal.getD "").toList
  else if l.kind = "Variable" then
    l.name.toList ++ '|' :: ((l.axis.map fun at' => axisTag at'.1 at'.2).getD "").toList
  else l.name.toList ++ '|' :: (l.callType.toList ++ '|' :: (",".intercalate digests).toList)

end Label

end Expr

structure Digesting (hash : String → String) : Prop where
  nonempty : ∀ s, hash s ≠ ""
  plain : ∀ s, ∀ c ∈ (hash s).toList, c ≠ '|' ∧ c ≠ ','

theorem Sha256.digesting : Digesting hexDigest where
  nonempty s same := by
    have lengths := congrArg String.length same
    simp [hexDigest, digest, Chain.words, hex] at lengths
  plain s c member := by
    have digit : ∀ a < 16, hexDigit a ≠ '|' ∧ hexDigit a ≠ ',' := by decide
    simp only [hexDigest, String.toList_join] at member
    obtain ⟨digits, isWord, inside⟩ := List.mem_flatMap.1 member
    obtain ⟨word, _, rfl⟩ := List.mem_map.1 isWord
    rw [toList_hex] at inside
    obtain ⟨i, _, rfl⟩ := List.mem_map.1 inside
    exact digit _ (Nat.mod_lt _ (by decide))

variable {hash : String → String}

theorem cons_append_inj {a b c d : List Char} {x : Char} (absent : x ∉ a) (absent' : x ∉ c)
    (same : a ++ x :: b = c ++ x :: d) : a = c ∧ b = d := by
  have reversed : b.reverse ++ x :: a.reverse = d.reverse ++ x :: c.reverse := by
    simpa using congrArg List.reverse same
  obtain ⟨after, before⟩ := append_cons_inj (by simpa using absent) (by simpa using absent') reversed
  exact ⟨List.reverse_injective before, List.reverse_injective after⟩

def IsInnerKind (kind : String) : Prop :=
  kind ∉ ["Constant", "Variable", "CONST", "VAR"] ∧ '|' ∉ kind.toList

instance (kind : String) : Decidable (IsInnerKind kind) :=
  inferInstanceAs (Decidable (_ ∧ _))

namespace IsInnerKind

variable {kind name callType : String} {dtype : DType}

theorem apart (inner : IsInnerKind kind) :
    kind ≠ "Constant" ∧ kind ≠ "Variable" ∧ kind ≠ "CONST" ∧ kind ≠ "VAR" := by
  simpa using inner.1

theorem word (inner : IsInnerKind kind) :
    Label.word ⟨kind, dtype, name, callType, none, none⟩ = kind := by
  simp [Label.word, inner.apart]

theorem word_ne (inner : IsInnerKind kind) :
    ¬(Label.word ⟨kind, dtype, name, callType, none, none⟩ = "CONST" ∨
      Label.word ⟨kind, dtype, name, callType, none, none⟩ = "VAR") := by
  rw [inner.word]
  simp [inner.apart]

theorem rest (inner : IsInnerKind kind) (digests : List String) :
    Label.rest digests ⟨kind, dtype, name, callType, none, none⟩ =
      name.toList ++ '|' :: (callType.toList ++ '|' :: (",".intercalate digests).toList) := by
  simp [Label.rest, inner.apart]

end IsInnerKind

theorem BinaryOp.isInnerKind_kind (op : BinaryOp) : IsInnerKind op.kind := by
  cases op <;> decide

namespace Expr

inductive Label.Shape : Label → List Expr → Prop where
  | literal (dtype : DType) (text : String) :
      Shape ⟨"Constant", dtype, "", "", some text, none⟩ []
  | plain (dtype : DType) (name : String) :
      Shape ⟨"Variable", dtype, name, "", none, none⟩ []
  | axis (domain : String) (axis : Nat) :
      Shape ⟨"Variable", .int32, axisName domain axis, "", none, some (domain, axis)⟩ []
  | inner {kind callType : String} (dtype : DType) (name : String) (operands : List Expr) :
      IsInnerKind kind → '|' ∉ callType.toList → Shape ⟨kind, dtype, name, callType, none, none⟩ operands

theorem IsMade.shape {e : Expr} (made : IsMade e) : e.label.Shape e.operands := by
  match e with
  | .node _ (.const c) _ _ =>
      obtain ⟨rfl, rfl⟩ := made
      exact .literal _ _
  | .node _ (.var name _) dtype _ =>
      obtain rfl : _ = [] := made
      exact .plain _ _
  | .node _ (.binary op) _ _ => exact .inner _ _ _ op.isInnerKind_kind (by simp [Head.callType])
  | .node _ .cast _ _ | .node _ .select _ _ | .node _ (.letIn _) _ _ =>
      exact .inner _ _ _ (by simp only [Head.kind]; decide) (by simp [Head.callType])
  | .node _ (.call callee) _ _ =>
      exact .inner _ _ _ (by simp only [Head.kind]; decide)
        (by cases callee <;> simp only [Head.callType, Callee.sort] <;> decide)
  | .node _ (.other _) _ _ => exact made.elim
  | .reduction _ domain axis _ _ => exact .axis _ _

theorem Label.Shape.word_plain {l : Label} {operands : List Expr} (shape : l.Shape operands) :
    '|' ∉ l.word.toList := by
  cases shape with
  | literal | plain | axis => simp only [Label.word]; decide
  | inner _ _ _ inner _ =>
      rw [inner.word]
      exact inner.2

end Expr

theorem toList_textWith {e : Expr} (made : IsMade e) :
    (e.textWith hash).toList =
      e.label.word.toList ++ '|' :: (e.label.dtype.name.toList ++
        '|' :: e.label.rest (digestsWith hash e.operands)) := by
  match e with
  | .node _ (.const c) _ _ =>
      obtain ⟨rfl, _⟩ := made
      simp [textWith, Expr.constantText, label, Label.word, Label.rest, toString,
        Head.kind, Head.literal?]
  | .node _ (.var name _) dtype _ =>
      simp [textWith, variableText, label, Label.word, Label.rest, toString, Head.kind,
        Head.name]
  | .node _ (.binary op) _ _ =>
      have inner : op.kind ≠ "Constant" ∧ op.kind ≠ "Variable" := by cases op <;> decide
      simp [textWith, nodeText, label, Label.word, Label.rest, toString, Head.kind,
        Head.callType, operands, inner]
  | .node _ .cast _ _ | .node _ .select _ _ | .node _ (.letIn _) _ _ | .node _ (.call _) _ _ =>
      simp [textWith, nodeText, label, Label.word, Label.rest, toString, Head.kind,
        Head.callType, operands]
  | .node _ (.other _) _ _ => exact made.elim
  | .reduction _ domain axis _ _ =>
      simp [textWith, variableText, label, Label.word, Label.rest, toString, DType.name]

theorem DType.name_plain (dtype : DType) : '|' ∉ dtype.name.toList := by
  cases dtype <;> decide

theorem DType.name_injective {dtype dtype' : DType} (same : dtype.name = dtype'.name) :
    dtype = dtype' := by
  cases dtype <;> cases dtype' <;> first | rfl | exact absurd same (by decide)

theorem plain_ne_tagged {name other domain : String} {axis : Nat} :
    name.toList ++ '|' :: "".toList ≠ other.toList ++ '|' :: (axisTag domain axis).toList := by
  intro lists
  rw [toList_axisTag, ← List.cons_append, ← List.append_assoc] at lists
  exact absurd (List.append_inj' lists rfl).2 (by decide)

/-- Words without the separator are told by their join. The empty join is that of no words only
because no word is empty. -/
theorem words_of_joined {x : Char} {as bs : List (List Char)} (plainA : ∀ w ∈ as, w ≠ [] ∧ x ∉ w)
    (plainB : ∀ w ∈ bs, w ≠ [] ∧ x ∉ w) (same : [x].intercalate as = [x].intercalate bs) :
    as = bs := by
  have split {ws : List (List Char)} (plain : ∀ w ∈ ws, w ≠ [] ∧ x ∉ w) (some : ws ≠ []) :
      List.splitOn x ([x].intercalate ws) = ws :=
    List.splitOn_intercalate x (fun w member => (plain w member).2) some
  have ofEmpty {ws : List (List Char)} (plain : ∀ w ∈ ws, w ≠ [] ∧ x ∉ w)
      (empty : [x].intercalate ws = []) : ws = [] := by
    by_contra some
    have single : ws = [[]] := by rw [← split plain some, empty]; rfl
    exact (plain [] (by simp [single])).1 rfl
  by_cases noneA : as = []
  · subst noneA
    exact (ofEmpty plainB same.symm).symm
  · by_cases noneB : bs = []
    · subst noneB
      exact ofEmpty plainA same
    · rw [← split plainA noneA, same, split plainB noneB]

theorem not_mem_intercalate {x y : Char} {ws : List (List Char)} (other : y ≠ x)
    (plain : ∀ w ∈ ws, y ∉ w) : y ∉ [x].intercalate ws := by
  induction ws with
  | nil => simp
  | cons w rest ih =>
      obtain ⟨first, others⟩ := List.forall_mem_cons.1 plain
      cases rest with
      | nil => simpa using first
      | cons _ _ => simp [List.intercalate_cons_cons, first, other, ih others]

theorem digest_of_digestsWith {d : String} {es : List Expr} (member : d ∈ digestsWith hash es) :
    ∃ s, d = hash s := by
  induction es with
  | nil => cases member
  | cons e rest ih =>
      rcases List.mem_cons.1 member with rfl | later
      · exact ⟨_, rfl⟩
      · exact ih later

theorem digestsWith_of_joined (digesting : Digesting hash) {as bs : List Expr}
    (same : (",".intercalate (digestsWith hash as)).toList =
      (",".intercalate (digestsWith hash bs)).toList) :
    digestsWith hash as = digestsWith hash bs := by
  have plain (es : List Expr) : ∀ w ∈ (digestsWith hash es).map String.toList, w ≠ [] ∧ ',' ∉ w := by
    intro w member
    obtain ⟨d, isDigest, rfl⟩ := List.mem_map.1 member
    obtain ⟨s, rfl⟩ := digest_of_digestsWith isDigest
    exact ⟨fun empty => digesting.nonempty s (String.toList_inj.1 empty),
      fun inside => (digesting.plain s _ inside).2 rfl⟩
  rw [String.toList_intercalate, String.toList_intercalate] at same
  exact List.map_injective_iff.2 (fun _ _ => String.toList_inj.1)
    (words_of_joined (plain as) (plain bs) same)

theorem joined_plain (digesting : Digesting hash) (es : List Expr) :
    '|' ∉ (",".intercalate (digestsWith hash es)).toList := by
  rw [String.toList_intercalate]
  refine not_mem_intercalate (by decide) fun w member => ?_
  obtain ⟨d, isDigest, rfl⟩ := List.mem_map.1 member
  obtain ⟨s, rfl⟩ := digest_of_digestsWith isDigest
  exact fun inside => (digesting.plain s _ inside).1 rfl

theorem label_of_text (digesting : Digesting hash) {a b : Expr} (madeA : IsMade a)
    (madeB : IsMade b) (same : a.textWith hash = b.textWith hash) :
    a.label = b.label ∧ digestsWith hash a.operands = digestsWith hash b.operands := by
  have lists := congrArg String.toList same
  rw [toList_textWith madeA, toList_textWith madeB] at lists
  have shapeA := madeA.shape
  have shapeB := madeB.shape
  generalize a.label = labelA, a.operands = as at lists shapeA ⊢
  generalize b.label = labelB, b.operands = bs at lists shapeB ⊢
  obtain ⟨sameWord, lists⟩ := cons_append_inj shapeA.word_plain shapeB.word_plain lists
  obtain ⟨sameType, sameRest⟩ := cons_append_inj (DType.name_plain _) (DType.name_plain _) lists
  replace sameWord := String.toList_inj.1 sameWord
  replace sameType := DType.name_injective (String.toList_inj.1 sameType)
  -- leaves and inner nodes have different words, so that only the cases of one word are left
  cases shapeA with
  | literal dtype text =>
      cases shapeB with
      | literal dtype' text' =>
          obtain rfl : dtype = dtype' := sameType
          obtain rfl : text = text' := String.toList_inj.1 (by simpa [Label.rest] using sameRest)
          exact ⟨rfl, rfl⟩
      | plain | axis => simp [Label.word] at sameWord
      | inner _ _ _ isInner => exact (isInner.word_ne (.inl sameWord.symm)).elim
  | plain dtype name =>
      cases shapeB with
      | literal => simp [Label.word] at sameWord
      | plain dtype' name' =>
          obtain rfl : dtype = dtype' := sameType
          obtain rfl : name = name' := String.toList_inj.1 (by simpa [Label.rest] using sameRest)
          exact ⟨rfl, rfl⟩
      | axis => exact (plain_ne_tagged sameRest).elim
      | inner _ _ _ isInner => exact (isInner.word_ne (.inr sameWord.symm)).elim
  | axis domain at' =>
      cases shapeB with
      | literal => simp [Label.word] at sameWord
      | plain => exact (plain_ne_tagged sameRest.symm).elim
      | axis =>
          obtain ⟨rfl, rfl⟩ := axisTag_injective sameRest
          exact ⟨rfl, rfl⟩
      | inner _ _ _ isInner => exact (isInner.word_ne (.inr sameWord.symm)).elim
  | inner dtype name operands isInner plainType =>
      cases shapeB with
      | literal => exact (isInner.word_ne (.inl sameWord)).elim
      | plain | axis => exact (isInner.word_ne (.inr sameWord)).elim
      | inner dtype' name' operands' isInner' plainType' =>
          obtain rfl : dtype = dtype' := sameType
          rw [isInner.word, isInner'.word] at sameWord
          subst sameWord
          rw [isInner.rest, isInner'.rest, ← List.cons_append, ← List.append_assoc,
            ← List.cons_append, ← List.append_assoc] at sameRest
          obtain ⟨front, sameJoin⟩ := append_cons_inj (joined_plain digesting _)
            (joined_plain digesting _) sameRest
          obtain ⟨sameName, sameSort⟩ := append_cons_inj plainType plainType' front
          exact ⟨by rw [String.toList_inj.1 sameName, String.toList_inj.1 sameSort],
            digestsWith_of_joined digesting sameJoin⟩

theorem digestsWith_eq_iff {as bs : List Expr} :
    digestsWith hash as = digestsWith hash bs ↔
      List.Forall₂ (fun a b => hash (a.textWith hash) = hash (b.textWith hash)) as bs := by
  have isMap (es : List Expr) : digestsWith hash es = es.map fun e => hash (e.textWith hash) := by
    induction es with
    | nil => rfl
    | cons e rest ih => rw [digestsWith, ih, List.map_cons]
  rw [isMap, isMap, ← List.forall₂_eq_eq_eq, List.forall₂_map_left_iff, List.forall₂_map_right_iff]

@[elab_as_elim]
theorem operandInduction {P : Expr → Prop} (step : ∀ e, (∀ x ∈ e.operands, P x) → P e) (e : Expr) :
    P e := by
  induction e using Expr.induction with
  | node id head dtype operands ih => exact step _ ih
  | reduction id domain axis least extent => exact step _ fun x member => nomatch member

theorem TellsApart.sub {a b x y : Expr} (apart : TellsApart hash a b) (left : Subnode x a)
    (right : Subnode y b) : TellsApart hash x y :=
  fun _ _ below below' => apart _ _ (below.trans left) (below'.trans right)

/-- Only one tree has the text, by induction over the first expression: the text tells the digests of
the operands, and those tell the texts of the operands. -/
theorem sameTree_of_text (digesting : Digesting hash) {a b : Expr} (madeA : Every IsMade a)
    (madeB : Every IsMade b) (apart : TellsApart hash a b)
    (same : a.textWith hash = b.textWith hash) : SameTree a b := by
  induction a using operandInduction generalizing b with
  | step a ih =>
      obtain ⟨sameLabel, sameDigests⟩ := label_of_text digesting madeA.here madeB.here same
      refine .node sameLabel (forall₂_imp_mem (digestsWith_eq_iff.1 sameDigests) ?_)
      intro x memberX y memberY sameDigest
      have belowA := subnode_operand memberX
      have belowB := subnode_operand memberY
      exact ih x memberX (madeA.sub belowA) (madeB.sub belowB) (apart.sub belowA belowB)
        (apart x y belowA belowB sameDigest)

theorem text_of_sameTree {a b : Expr} (madeA : Every IsMade a) (madeB : Every IsMade b)
    (same : SameTree a b) : a.textWith hash = b.textWith hash := by
  induction a using operandInduction generalizing b with
  | step a ih =>
      obtain ⟨sameLabel, sameOperands⟩ := same
      have sameDigests : digestsWith hash a.operands = digestsWith hash b.operands := by
        refine digestsWith_eq_iff.2 (forall₂_imp_mem sameOperands ?_)
        intro x memberX y memberY sameTree
        rw [ih x memberX (madeA.sub (subnode_operand memberX)) (madeB.sub (subnode_operand memberY))
          sameTree]
      rw [← String.toList_inj, toList_textWith madeA.here, toList_textWith madeB.here, sameLabel,
        sameDigests]

/-- Structural equality tells whether two expressions unfold to one tree, however their nodes are
shared and whatever their names contain. -/
theorem equal_iff_sameTree {r : Registry} {a b : Expr} (left : r.Holds a) (right : r.Holds b)
    (madeA : Every IsMade a) (madeB : Every IsMade b) (apart : TellsApart Sha256.hexDigest a b) :
    a.equal b = true ↔ SameTree a b := by
  rw [equal, equalWith_iff left right]
  constructor
  · intro same
    exact sameTree_of_text Sha256.digesting madeA madeB apart (apart a b .here .here same)
  · intro same
    exact congrArg Sha256.hexDigest (text_of_sameTree madeA madeB same)

namespace Barred

def axis (id : NodeId) : Expr :=
  .reduction id "r" 0 (.node 0 (.const (.int 0)) .int32 []) (.node 1 (.const (.int 4)) .int32 [])

def named : Expr := .node 3 (.var "r.x|r[0]" false) .int32 []

def called (id : NodeId) (x : Expr) : Expr := .node id (.call (.primitive "p,[|")) .float32 [x]

def registry : Registry where
  node
    | 2 => axis 2
    | 3 => named
    | 4 => axis 4
    | 5 => called 5 (axis 2)
    | _ => called 6 (axis 4)
  next := 7
  names := 0

theorem axis_ne_called : Sha256.hexDigest ((axis 2).textWith Sha256.hexDigest) ≠
    Sha256.hexDigest ((called 5 (axis 2)).textWith Sha256.hexDigest) := by
  rw [Sha256.hexDigest_eq]
  decide +kernel

theorem axis_ne_named : Sha256.hexDigest ((axis 2).textWith Sha256.hexDigest) ≠
    Sha256.hexDigest (named.textWith Sha256.hexDigest) := by
  rw [Sha256.hexDigest_eq]
  decide +kernel

/-- Calls of two copies of a reduction variable are equal, and no name makes a variable equal to it. -/
theorem barred_equal : (called 5 (axis 2)).equal (called 6 (axis 4)) = true ∧
    (axis 2).equal named = false := by
  have held {e : Expr} (member : e ∈ [axis 2, named, called 5 (axis 2), called 6 (axis 4)]) :
      registry.Holds e ∧ Every IsMade e := by
    simp only [List.mem_cons, List.not_mem_nil, or_false] at member
    rcases member with rfl | rfl | rfl | rfl <;>
      simp [Registry.Holds, Registry.IsRegistered, registry, axis, named, called, IsMade, Expr.id]
  have below {id axisId : NodeId} {x : Expr} (within : Subnode x (called id (axis axisId))) :
      x = called id (axis axisId) ∨ x = axis axisId := by
    simpa [called, axis, subnode_node, subnode_reduction] using within
  have apartCalls : TellsApart Sha256.hexDigest (called 5 (axis 2)) (called 6 (axis 4)) := by
    intro x y withinX withinY same
    rcases below withinX with rfl | rfl <;> rcases below withinY with rfl | rfl
    · rfl
    · exact absurd same.symm axis_ne_called
    · exact absurd same axis_ne_called
    · rfl
  have apartNames : TellsApart Sha256.hexDigest (axis 2) named := by
    intro x y withinX withinY same
    obtain rfl := subnode_reduction.1 withinX
    obtain rfl : y = named := by simpa [named, subnode_node] using withinY
    exact absurd same axis_ne_named
  have first := held (e := called 5 (axis 2)) (by simp)
  have second := held (e := called 6 (axis 4)) (by simp)
  have leaf := held (e := axis 2) (by simp)
  have other := held (e := named) (by simp)
  refine ⟨(equal_iff_sameTree first.1 second.1 first.2 second.2 apartCalls).2 ?_, ?_⟩
  · exact .node rfl (.cons (.node rfl .nil) .nil)
  · refine Bool.eq_false_iff.2 fun equal => ?_
    obtain ⟨sameLabel, _⟩ := (equal_iff_sameTree leaf.1 other.1 leaf.2 other.2 apartNames).1 equal
    cases congrArg Label.axis sameLabel

end Barred

end ReverseMode
