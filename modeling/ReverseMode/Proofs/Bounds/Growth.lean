import Mathlib.Algebra.Order.BigOperators.Group.List
import ReverseMode.Proofs.Bounds.Correspondence

namespace ReverseMode

open Expr

def Proper (box : List (Int × Int)) : Prop := ∀ ends ∈ box, ends.1 ≤ ends.2

def Expr.Populated (e : Expr) : Prop :=
  Every (fun x => ∀ id domain axis least extent, x = .reduction id domain axis least extent →
    (rangeEnds (least, extent)).1 ≤ (rangeEnds (least, extent)).2) e

section

variable {declared : List String} {box box' given given' : List (Int × Int)} {e : Expr}
  {ends : Int × Int} {args : List Expr}

theorem combinedEnds_proper {op : BinaryOp} {a b : Int × Int}
    (operator : op = .add ∨ op = .sub ∨ op = .min ∨ op = .max) (left : a.1 ≤ a.2)
    (right : b.1 ≤ b.2) :
    (combinedEnds op a b).1 ≤ (combinedEnds op a b).2 := by
  rcases operator with rfl | rfl | rfl | rfl <;> simp only [combinedEnds, integerOf] <;> omega

theorem span_proper (proper : Proper box) (populated : e.Populated)
    (isSpan : e.span declared box = some ends) : ends.1 ≤ ends.2 := by
  fun_induction span declared box e generalizing ends with
  | case1 id op dtype a b leftProper rightProper =>
      obtain ⟨left, right, isLeft, isRight, spanned, rfl⟩ :=
        (@span_pair _ _ id _ dtype _ _ _).1 isSpan
      obtain ⟨_, operands⟩ := every_node.1 populated
      exact combinedEnds_proper (spanned_operator spanned)
        (leftProper (operands a (.head _)) isLeft)
        (rightProper (operands b (.tail _ (.head _))) isRight)
  | case2 =>
      cases isSpan
      exact populated.here _ _ _ _ _ rfl
  | case3 =>
      obtain ⟨i, _, found⟩ := Option.bind_eq_some_iff.1 isSpan
      exact proper _ (List.mem_of_getElem? found)
  | case4 =>
      cases isSpan
      exact le_refl _
  | case5 => cases isSpan

theorem span_defined (sameLength : box.length = box'.length)
    (isSpan : e.span declared box = some ends) : ∃ ends', e.span declared box' = some ends' := by
  fun_induction span declared box e generalizing ends with
  | case1 id op dtype a b leftDefined rightDefined =>
      obtain ⟨left, right, isLeft, isRight, spanned, rfl⟩ :=
        (@span_pair _ _ id _ dtype _ _ _).1 isSpan
      obtain ⟨left', isLeft'⟩ := leftDefined isLeft
      obtain ⟨right', isRight'⟩ := rightDefined isRight
      exact ⟨_, span_pair.2 ⟨left', right', isLeft', isRight', spanned, rfl⟩⟩
  | case2 | case4 => exact ⟨ends, isSpan⟩
  | case3 id name index dtype operands =>
      obtain ⟨i, position, found⟩ := Option.bind_eq_some_iff.1 isSpan
      obtain ⟨inBox, _⟩ := List.getElem?_eq_some_iff.1 found
      refine ⟨box'.get ⟨i, sameLength ▸ inBox⟩, ?_⟩
      rw [span, position]
      exact List.getElem?_eq_getElem _
  | case5 => cases isSpan

theorem Spans.proper (proper : Proper box) (populated : ∀ arg ∈ args, arg.Populated)
    (isSpans : Spans declared box args given) : Proper given := by
  induction isSpans with
  | nil => simp [Proper]
  | cons first _ ih =>
      obtain ⟨populatedFirst, populatedRest⟩ := List.forall_mem_cons.1 populated
      exact List.forall_mem_cons.2 ⟨span_proper proper populatedFirst first, ih populatedRest⟩

theorem Spans.narrow (wider : Wider box box') (isSpans : Spans declared box' args given') :
    ∃ given, Spans declared box args given ∧ Wider given given' := by
  induction isSpans with
  | nil => exact ⟨[], .nil, .nil⟩
  | cons first _ ih =>
      obtain ⟨ends, isSpan⟩ := span_defined wider.length_eq.symm first
      obtain ⟨ends', isSpan', widerEnds⟩ := span_mono wider isSpan
      cases first.symm.trans isSpan'
      obtain ⟨given, isSpansRest, widerRest⟩ := ih
      exact ⟨ends :: given, .cons isSpan isSpansRest, .cons widerEnds widerRest⟩

theorem Proper.hull (proper : Proper given) : Proper (List.zipWith hull given given') := by
  intro ends member
  obtain ⟨i, found⟩ := List.mem_iff_getElem?.1 member
  obtain ⟨a, b, foundFirst, foundSecond, rfl⟩ := List.getElem?_zipWith_eq_some.1 found
  exact (min_le_left _ _).trans
    ((proper a (List.mem_of_getElem? foundFirst)).trans (le_max_left _ _))

theorem Wider.hull {target : List (Int × Int)} (first : Wider given target)
    (second : Wider given' target) : Wider (List.zipWith hull given given') target := by
  induction first generalizing given' with
  | nil => exact .nil
  | cons both _ ih =>
      cases second with
      | cons both' rest =>
          exact .cons ⟨le_min both.1 both'.1, max_le both.2 both'.2⟩ (ih rest)

def width (box : List (Int × Int)) : Int := (box.map fun ends => ends.2 - ends.1).sum

theorem width_nonneg (proper : Proper box) : 0 ≤ width box := by
  refine List.sum_nonneg fun range member => ?_
  obtain ⟨ends, isEnds, rfl⟩ := List.mem_map.1 member
  exact sub_nonneg.2 (proper ends isEnds)

theorem Wider.width_le (wider : Wider box box') : width box ≤ width box' := by
  induction wider with
  | nil => exact le_refl _
  | cons both _ ih =>
      unfold width at *
      rw [List.map_cons, List.map_cons, List.sum_cons, List.sum_cons]
      obtain ⟨low, high⟩ := both
      omega

theorem Wider.eq_of_width (wider : Wider box box') (same : width box' ≤ width box) :
    box = box' := by
  induction wider with
  | nil => rfl
  | @cons ends ends' _ _ both rest ih =>
      have restWider := Wider.width_le rest
      obtain ⟨low, high⟩ := id both
      unfold width at *
      rw [List.map_cons, List.map_cons, List.sum_cons, List.sum_cons] at same
      have isEnds : ends = ends' := Prod.ext (by omega) (by omega)
      rw [ih (by omega), isEnds]

end

def Expr.isLiteral : Expr → Bool
  | .node _ (.const (.int _)) .int32 [] => true
  | _ => false

theorem IsLiteral.isLiteral {e : Expr} {c : Int} (literal : IsLiteral e c) :
    e.isLiteral = true := by
  obtain ⟨id, rfl⟩ := literal
  rfl

theorem isLiteral_of_isLiteral {e : Expr} (literal : e.isLiteral = true) :
    IsLiteral e e.constantValue := by
  unfold Expr.isLiteral at literal
  split at literal
  next id c => exact ⟨id, by simp [constantValue, integer]⟩
  next => cases literal

def Interval.isLiteral (i : Interval) : Bool := i.low.isLiteral && i.high.isLiteral

namespace Skipping

structure Sharp (skips : Skipping) : Prop where
  answers : skips.Answers
  same : ∀ earlier merged : List Interval, earlier.all Interval.isLiteral →
    merged.all Interval.isLiteral → earlier.map Interval.ends = merged.map Interval.ends →
    skips earlier merged = .ok true

theorem equalWith_of_literals {hash : String → String} {a b : Expr} (first : a.isLiteral = true)
    (second : b.isLiteral = true) (same : a.constantValue = b.constantValue) :
    a.equalWith hash b = true := by
  obtain ⟨_, isFirst⟩ := isLiteral_of_isLiteral first
  obtain ⟨_, isSecond⟩ := isLiteral_of_isLiteral second
  rw [isFirst, isSecond, same, equalWith, digest_literal, digest_literal]
  simp

theorem unchanged_sharp (hash : String → String) : (unchanged hash).Sharp where
  answers _ _ := ⟨_, rfl⟩
  same earlier merged literal literal' same := by
    have each : List.Forall₂ (fun a b => a.ends = b.ends) earlier merged := by
      rwa [← List.forall₂_eq_eq_eq, List.forall₂_map_left_iff, List.forall₂_map_right_iff] at same
    refine congrArg Except.ok (List.all_eq_true.2 fun pair member => ?_)
    have members := List.of_mem_zip (a := pair.1) (b := pair.2) member
    obtain ⟨low, high⟩ := Bool.and_eq_true_iff.1 (List.all_eq_true.1 literal _ members.1)
    obtain ⟨low', high'⟩ := Bool.and_eq_true_iff.1 (List.all_eq_true.1 literal' _ members.2)
    have sameEnds : pair.1.ends = pair.2.ends := List.forall₂_zip each member
    exact Bool.and_eq_true_iff.2 ⟨equalWith_of_literals low low' (congrArg Prod.fst sameEnds),
      equalWith_of_literals high high' (congrArg Prod.snd sameEnds)⟩

end Skipping

/-- How often a stage can still get other intervals, if their box stays in the room. -/
def changesLeft (room : List (Int × Int)) : Option (List Interval) → Nat
  | none => (width room).toNat + 2
  | some intervals => (width room - width (intervals.map Interval.ends)).toNat +
      if intervals.all Interval.isLiteral then 0 else 1

theorem Renewed.not_self {skips : Skipping} {isSelf entered : Bool}
    {earlier : Option (List Interval)}
    {intervals : List Interval} (renewed : Renewed skips isSelf earlier intervals entered)
    (isEntered : entered = true) : isSelf = false := by
  cases renewed <;> simp_all

/-- A call uses up a change if the function is entered. -/
theorem Renewed.changesLeft {skips : Skipping} (sharp : skips.Sharp) {isSelf entered : Bool}
    {earlier : Option (List Interval)} {intervals : List Interval} {room : List (Int × Int)}
    (renewed : Renewed skips isSelf earlier intervals entered)
    (grows : ∀ before, earlier = some before →
      Wider (before.map Interval.ends) (intervals.map Interval.ends))
    (proper : Proper (intervals.map Interval.ends))
    (within : Wider (intervals.map Interval.ends) room) :
    changesLeft room (some intervals) + (if entered then 1 else 0) ≤ changesLeft room earlier := by
  have atMost := within.width_le
  cases renewed with
  | first =>
      have positive := width_nonneg proper
      simp only [ReverseMode.changesLeft]
      split <;> split <;> omega
  | @merged before _ skipped sameLength literal answered =>
      have grown := (grows before rfl).width_le
      have allLiteral : intervals.all Interval.isLiteral = true :=
        List.all_eq_true.2 fun i member =>
        Bool.and_eq_true_iff.2 ⟨(literal i member).1.isLiteral, (literal i member).2.isLiteral⟩
      simp only [ReverseMode.changesLeft, allLiteral, if_true]
      split
      next entered =>
        split
        next literalBefore =>
          -- the same literals would have been skipped
          have changed :
              width (before.map Interval.ends) < width (intervals.map Interval.ends) := by
            by_contra notLess
            have same := (grows before rfl).eq_of_width (not_lt.1 notLess)
            obtain ⟨other, isEntered⟩ := Bool.and_eq_true_iff.1 entered
            rw [sharp.same before intervals literalBefore allLiteral same] at answered
            cases answered (by simpa using other)
            cases isEntered
          omega
        next => omega
      next => omega

/-- How often the stages of a list can still get other intervals. -/
def StageTable.changesLeft (rooms : Boxes) (keys : List StageKey)
    (table : StageTable (List Interval)) :
    Nat :=
  (keys.map fun key => (rooms key).elim 0 fun room => ReverseMode.changesLeft room
    (table.find? key)).sum

theorem changesLeft_insert {rooms : Boxes} {keys : List StageKey}
    {table : StageTable (List Interval)}
    {key : StageKey} {room : List (Int × Int)} {intervals : List Interval} (listed : key ∈ keys)
    (isRoom : rooms key = some room) {entered : Bool}
    (fewer : changesLeft room (some intervals) + (if entered then 1 else 0) ≤
      changesLeft room (table.find? key)) :
    (table.insert key intervals).changesLeft rooms keys + (if entered then 1 else 0) ≤
      table.changesLeft rooms keys := by
  have others (other : StageKey) (different : other ≠ key) :
      (table.insert key intervals).find? other = table.find? other := by
    rw [StageTable.find?_insert, if_neg different]
  have here : (table.insert key intervals).find? key = some intervals := by
    rw [StageTable.find?_insert, if_pos rfl]
  have atMost (other : StageKey) : ((rooms other).elim 0 fun room =>
      changesLeft room ((table.insert key intervals).find? other)) ≤
      (rooms other).elim 0 fun room => changesLeft room (table.find? other) := by
    by_cases isKey : other = key
    · subst isKey
      rw [isRoom, here]
      exact le_of_add_le_left fewer
    · rw [others other isKey]
  unfold StageTable.changesLeft
  cases entered with
  | false => exact List.sum_le_sum fun other _ => atMost other
  | true =>
      refine List.sum_lt_sum _ _ (fun other _ => atMost other) ⟨key, listed, ?_⟩
      rw [isRoom, here]
      exact fewer

end ReverseMode
