import ReverseMode.Bounds.Interval
import ReverseMode.Proofs.Algebra.Closed
import ReverseMode.Proofs.Exact.Program

namespace ReverseMode

open Expr

def Registry.HoldsClosed (r : Registry) (e : Expr) : Prop := r.Holds e ∧ Closed e

theorem Registry.HoldsClosed.extend {r later : Registry} {e : Expr} (held : r.HoldsClosed e)
    (extended : r.Extends later) : later.HoldsClosed e := ⟨held.1.extend extended, held.2⟩

namespace Interval

def ends (i : Interval) : Int × Int := (i.low.constantValue, i.high.constantValue)

def HeldBy (i : Interval) (r : Registry) : Prop := r.HoldsClosed i.low ∧ r.HoldsClosed i.high

theorem HeldBy.extend {i : Interval} {r later : Registry} (held : i.HeldBy r)
    (extended : r.Extends later) : i.HeldBy later :=
  ⟨held.1.extend extended, held.2.extend extended⟩

end Interval

def Registry.BoundsHeld (r : Registry) (e : Expr) : Prop :=
  Every (fun x => ∀ id domain axis least extent, x = .reduction id domain axis least extent →
    r.HoldsClosed least ∧ r.HoldsClosed extent) e

theorem Registry.BoundsHeld.extend {r later : Registry} {e : Expr} (held : r.BoundsHeld e)
    (extended : r.Extends later) : later.BoundsHeld e :=
  Every.mono (fun _ bounds id domain axis least extent same =>
    (bounds id domain axis least extent same).imp (·.extend extended) (·.extend extended)) held

/-- The reduction variables below an expression lie within their own bounds. -/
def AxesInside (e : Expr) (env : Env) : Prop :=
  Every (fun x => ∀ id domain axis least extent, x = .reduction id domain axis least extent →
    Between (rangeEnds (least, extent)) (env (axisName domain axis))) e

theorem holdsClosed_binary {r : Registry} {op : BinaryOp} {a b : Expr}
    (operator : op = .add ∨ op = .sub ∨ op = .min ∨ op = .max)
    (left : r.HoldsClosed a) (right : r.HoldsClosed b) :
    Builds (Expr.mkBinary op a b) r fun later e => later.HoldsClosed e ∧
      e.constantValue = integerOf op a.constantValue b.constantValue := by
  refine (Builds.binary op left.1 right.1).mono fun later e _ made => ?_
  obtain ⟨held, id, rfl⟩ := made
  rw [left.2.dtype, right.2.dtype] at held ⊢
  refine ⟨⟨held, ?_⟩, by simp [constantValue, integer]⟩
  rcases operator with rfl | rfl | rfl | rfl
  · exact .add left.2 right.2
  · exact .sub left.2 right.2
  · exact @Closed.extremum _ false _ _ left.2 right.2
  · exact @Closed.extremum _ true _ _ left.2 right.2

theorem holdsClosed_int {r : Registry} (c : Int) :
    Builds (Expr.int c) r fun later e => later.HoldsClosed e ∧ e.constantValue = c := by
  refine (Builds.const (.int c)).mono fun later e _ made => ?_
  obtain ⟨held, id, rfl⟩ := made
  exact ⟨⟨held, .int⟩, by simp [constantValue, integer]⟩

theorem lastIndex_sound {r : Registry} {least extent : Expr} (heldLeast : r.HoldsClosed least)
    (heldExtent : r.HoldsClosed extent) :
    Builds (Expr.lastIndex least extent) r fun later e => later.HoldsClosed e ∧
      e.constantValue = least.constantValue + extent.constantValue - 1 := by
  refine Builds.bind (holdsClosed_binary (.inl rfl) heldLeast heldExtent)
    fun later stop extended made => ?_
  refine Builds.bind (holdsClosed_int 1) fun last one extendedAgain isOne => ?_
  refine (holdsClosed_binary (.inr (.inl rfl)) (made.1.extend extendedAgain) isOne.1).mono
    fun _ e _ done => ⟨done.1, ?_⟩
  rw [done.2, made.2, isOne.2]
  rfl

theorem ofRange_sound {r : Registry} {least extent : Expr} (heldLeast : r.HoldsClosed least)
    (heldExtent : r.HoldsClosed extent) :
    Builds (Interval.ofRange least extent) r fun later i => i.HeldBy later ∧
      i.ends = rangeEnds (least, extent) := by
  refine Builds.bind (lastIndex_sound heldLeast heldExtent) fun later high extended made => ?_
  refine Builds.pure ⟨⟨heldLeast.extend extended, made.1⟩, ?_⟩
  rw [Interval.ends, made.2]
  rfl

def combinedEnds (op : BinaryOp) (a b : Int × Int) : Int × Int :=
  match op with
  | .sub => (a.1 - b.2, a.2 - b.1)
  | op => (integerOf op a.1 b.1, integerOf op a.2 b.2)

theorem combine_sound {r : Registry} {op : BinaryOp} {a b : Interval}
    {combine : Interval → Interval → NodeM Interval}
    (isCombine : Interval.ofOperator? op = some combine) (left : a.HeldBy r) (right : b.HeldBy r) :
    Builds (combine a b) r fun later i => i.HeldBy later ∧
      i.ends = combinedEnds op a.ends b.ends := by
  have both {op : BinaryOp} {low low' high high' : Expr}
      (operator : op = .add ∨ op = .sub ∨ op = .min ∨ op = .max)
      (heldLow : r.HoldsClosed low) (heldLow' : r.HoldsClosed low')
      (heldHigh : r.HoldsClosed high) (heldHigh' : r.HoldsClosed high') :
      Builds (do
        let first ← Expr.mkBinary op low low'
        let second ← Expr.mkBinary op high high'
        return (⟨first, second⟩ : Interval)) r fun later i => i.HeldBy later ∧
          i.ends = (integerOf op low.constantValue low'.constantValue,
            integerOf op high.constantValue high'.constantValue) := by
    refine Builds.bind (holdsClosed_binary operator heldLow heldLow')
      fun later first extended made => ?_
    refine Builds.bind (holdsClosed_binary operator (heldHigh.extend extended)
      (heldHigh'.extend extended)) fun last second extendedAgain done => ?_
    refine Builds.pure ⟨⟨made.1.extend extendedAgain, done.1⟩, ?_⟩
    rw [Interval.ends, made.2, done.2]
  cases op <;> cases isCombine
  · exact both (by simp) left.1 right.1 left.2 right.2
  · exact both (by simp) left.1 right.2 left.2 right.1
  · exact both (by simp) left.1 right.1 left.2 right.2
  · exact both (by simp) left.1 right.1 left.2 right.2

theorem between_combinedEnds {op : BinaryOp} {a b : Int × Int} {m n : Int}
    (operator : op = .add ∨ op = .sub ∨ op = .min ∨ op = .max) (left : Between a m)
    (right : Between b n) : Between (combinedEnds op a b) (integerOf op m n) := by
  unfold Between at *
  rcases operator with rfl | rfl | rfl | rfl <;> simp only [combinedEnds, integerOf] <;> omega

theorem inside_getElem {names : List String} {box : List (Int × Int)} {env : Env} {i : Nat}
    {name : String} {ends : Int × Int} (inside : Inside names box env)
    (named : names[i]? = some name) (found : box[i]? = some ends) : Between ends (env name) := by
  induction inside generalizing i with
  | nil => cases found
  | cons first _ ih =>
      cases i with
      | zero =>
          cases named
          cases found
          exact first
      | succ i => exact ih named found

def Registry.HoldsDomain (r : Registry) (domain : Domain) : Prop :=
  ∀ range ∈ domain, r.HoldsClosed range.1 ∧ r.HoldsClosed range.2

theorem Registry.HoldsDomain.extend {r later : Registry} {domain : Domain}
    (held : r.HoldsDomain domain) (extended : r.Extends later) : later.HoldsDomain domain :=
  fun range member => (held range member).imp (·.extend extended) (·.extend extended)

/-- The ends between which an index runs while the declared variables run through a box and the
reduction variables through their own bounds. -/
def Expr.span (declared : List String) (box : List (Int × Int)) : Expr → Option (Int × Int)
  | node _ (.binary op) _ [a, b] => do
      let left ← span declared box a
      let right ← span declared box b
      if (Interval.ofOperator? op).isSome then some (combinedEnds op left right) else none
  | reduction _ _ _ least extent => some (rangeEnds (least, extent))
  | node _ (.var name _) _ _ => (declared.findIdx? (· == name)).bind (box[·]?)
  | node _ (.const (.int c)) _ _ => some (c, c)
  | _ => none

structure Registry.HoldsIndex (r : Registry) (e : Expr) : Prop where
  held : r.Holds e
  bounds : r.BoundsHeld e
  constants : Every (fun x => ∀ id c dtype operands, x = .node id (.const c) dtype operands →
    Closed x) e

namespace Registry.HoldsIndex

variable {r later : Registry} {e : Expr}

theorem extend (held : r.HoldsIndex e) (extended : r.Extends later) : later.HoldsIndex e :=
  ⟨held.held.extend extended, held.bounds.extend extended, held.constants⟩

theorem sub {x : Expr} (held : r.HoldsIndex e) (within : Subnode x e) : r.HoldsIndex x :=
  ⟨held.held.sub within, Every.sub held.bounds within, held.constants.sub within⟩

end Registry.HoldsIndex

theorem interval_span {r : Registry} {declared : List String} {domain : Domain} (argument : Int)
    {e : Expr} (held : r.HoldsIndex e) (heldDomain : r.HoldsDomain domain) :
    BuildsAs (e.interval declared domain argument) r (e.span declared (domain.map rangeEnds))
      fun later i ends => i.HeldBy later ∧ i.ends = ends := by
  fun_induction Expr.interval declared domain argument e generalizing r with
  | case1 id op dtype a b combine isCombine leftSpan rightSpan =>
      have heldLeft := held.sub (.operand (.head _) .here)
      have heldRight := held.sub (.operand (.tail _ (.head _)) .here)
      rw [span]
      refine BuildsAs.bind (leftSpan heldLeft heldDomain) fun r1 i left ext1 isLeft => ?_
      refine BuildsAs.bind (rightSpan (heldRight.extend ext1) (heldDomain.extend ext1))
        fun r2 j right ext2 isRight => ?_
      rw [if_pos (by rw [isCombine]; rfl), ← isLeft.2, ← isRight.2]
      exact BuildsAs.ofBuilds (combine_sound isCombine (isLeft.1.extend ext2) isRight.1)
  | case2 id op dtype a b noCombine =>
      have noSpan : span declared (domain.map rangeEnds) (.node id (.binary op) dtype [a, b]) = none := by
        simp [span, noCombine]
      rw [noSpan]
      exact BuildsAs.throw
  | case3 id name axis least extent =>
      obtain ⟨heldLeast, heldExtent⟩ := held.bounds.here _ _ _ _ _ rfl
      rw [span]
      exact BuildsAs.ofBuilds (ofRange_sound heldLeast heldExtent)
  | case4 id name index dtype operands unknown =>
      rw [span, unknown]
      exact BuildsAs.throw
  | case5 id name index dtype operands i position least extent found =>
      have heldRange := heldDomain _ (List.mem_of_getElem? found)
      have isSpan : span declared (domain.map rangeEnds) (.node id (.var name index) dtype operands) =
          some (rangeEnds (least, extent)) := by
        simp [span, position, found]
      rw [isSpan]
      exact BuildsAs.ofBuilds (ofRange_sound heldRange.1 heldRange.2)
  | case6 id name index dtype operands i position beyond =>
      have noSpan : span declared (domain.map rangeEnds) (.node id (.var name index) dtype operands) =
          none := by
        simp [span, position, beyond]
      rw [noSpan]
      exact BuildsAs.throw
  | case7 id c dtype operands =>
      have closed : Closed (.node id (.const c) dtype operands) :=
        held.constants.here id c dtype operands rfl
      cases closed
      rw [span]
      exact BuildsAs.pure ⟨⟨⟨held.held, .int⟩, ⟨held.held, .int⟩⟩, rfl⟩
  | case8 id head dtype operands notPair notVar notConst =>
      have noSpan : span declared (domain.map rangeEnds) (.node id head dtype operands) = none := by
        rw [span] <;> grind
      rw [noSpan]
      exact BuildsAs.throw

theorem spanned_operator {op : BinaryOp} (spanned : (Interval.ofOperator? op).isSome = true) :
    op = .add ∨ op = .sub ∨ op = .min ∨ op = .max := by
  cases op <;> simp [Interval.ofOperator?] at spanned ⊢

theorem span_pair {declared : List String} {box : List (Int × Int)} {id : NodeId} {op : BinaryOp}
    {dtype : DType} {a b : Expr} {ends : Int × Int} :
    span declared box (.node id (.binary op) dtype [a, b]) = some ends ↔
      ∃ left right, a.span declared box = some left ∧ b.span declared box = some right ∧
        (Interval.ofOperator? op).isSome = true ∧ combinedEnds op left right = ends := by
  simp [span, Option.bind_eq_some_iff]

def WiderEnds (ends ends' : Int × Int) : Prop := ends'.1 ≤ ends.1 ∧ ends.2 ≤ ends'.2

theorem WiderEnds.refl (ends : Int × Int) : WiderEnds ends ends := ⟨le_refl _, le_refl _⟩

theorem WiderEnds.trans {a b c : Int × Int} (first : WiderEnds a b) (second : WiderEnds b c) :
    WiderEnds a c := ⟨second.1.trans first.1, first.2.trans second.2⟩

theorem WiderEnds.combined {op : BinaryOp} {a a' b b' : Int × Int}
    (operator : op = .add ∨ op = .sub ∨ op = .min ∨ op = .max) (left : WiderEnds a a')
    (right : WiderEnds b b') : WiderEnds (combinedEnds op a b) (combinedEnds op a' b') := by
  unfold WiderEnds at *
  rcases operator with rfl | rfl | rfl | rfl <;> simp only [combinedEnds, integerOf] <;> omega

def Within (box : List (Int × Int)) (index : List Int) : Prop := List.Forall₂ Between box index

instance (box : List (Int × Int)) (index : List Int) : Decidable (Within box index) :=
  inferInstanceAs (Decidable (List.Forall₂ Between box index))

def Wider (box box' : List (Int × Int)) : Prop := List.Forall₂ WiderEnds box box'

theorem Wider.refl (box : List (Int × Int)) : Wider box box :=
  List.forall₂_same.2 fun ends _ => .refl ends

theorem Wider.trans {a b c : List (Int × Int)} (first : Wider a b) (second : Wider b c) :
    Wider a c := by
  induction first generalizing c with
  | nil => exact second
  | cons both _ ih =>
      cases second with
      | cons both' rest => exact .cons (both.trans both') (ih rest)

theorem Wider.antisymm {a b : List (Int × Int)} (first : Wider a b) (second : Wider b a) : a = b := by
  induction first with
  | nil => rfl
  | cons both _ ih =>
      cases second with
      | cons both' rest =>
          rw [ih rest, Prod.ext (both'.1.antisymm both.1) (both.2.antisymm both'.2)]

theorem Wider.within {box box' : List (Int × Int)} {index : List Int} (wider : Wider box box')
    (inside : Within box index) : Within box' index := by
  induction wider generalizing index with
  | nil => exact inside
  | cons both _ ih =>
      cases inside with
      | cons first rest => exact .cons ⟨both.1.trans first.1, first.2.trans both.2⟩ (ih rest)

theorem Wider.getElem {box box' : List (Int × Int)} (wider : Wider box box') {i : Nat}
    {ends : Int × Int} (found : box[i]? = some ends) :
    ∃ ends', box'[i]? = some ends' ∧ WiderEnds ends ends' := by
  induction wider generalizing i with
  | nil => cases found
  | cons first _ ih =>
      cases i with
      | zero =>
          cases found
          exact ⟨_, rfl, first⟩
      | succ i => exact ih found

theorem span_mono {declared : List String} {box box' : List (Int × Int)} {e : Expr}
    {ends : Int × Int} (wider : Wider box box') (isSpan : e.span declared box = some ends) :
    ∃ ends', e.span declared box' = some ends' ∧ WiderEnds ends ends' := by
  fun_induction span declared box e generalizing ends with
  | case1 id op dtype a b leftMono rightMono =>
      obtain ⟨left, right, isLeft, isRight, spanned, rfl⟩ := (@span_pair _ _ id _ dtype _ _ _).1 isSpan
      obtain ⟨left', isLeft', widerLeft⟩ := leftMono isLeft
      obtain ⟨right', isRight', widerRight⟩ := rightMono isRight
      exact ⟨_, span_pair.2 ⟨left', right', isLeft', isRight', spanned, rfl⟩,
        widerLeft.combined (spanned_operator spanned) widerRight⟩
  | case2 | case4 => exact ⟨ends, isSpan, .refl ends⟩
  | case3 id name index dtype operands =>
      obtain ⟨i, position, found⟩ := Option.bind_eq_some_iff.1 isSpan
      obtain ⟨ends', found', widerEnds⟩ := wider.getElem found
      exact ⟨ends', by rw [span, position]; exact found', widerEnds⟩
  | case5 => cases isSpan

theorem between_span {declared : List String} {box : List (Int × Int)} {env : Env} {e : Expr}
    {ends : Int × Int} (inside : Inside declared box env) (axes : AxesInside e env)
    (isSpan : e.span declared box = some ends) : Between ends (e.integer env) := by
  fun_induction span declared box e generalizing ends with
  | case1 id op dtype a b leftBetween rightBetween =>
      obtain ⟨left, right, isLeft, isRight, spanned, rfl⟩ := (@span_pair _ _ id _ dtype _ _ _).1 isSpan
      obtain ⟨_, axesOperands⟩ := every_node.1 axes
      rw [integer]
      exact between_combinedEnds (spanned_operator spanned)
        (leftBetween (axesOperands a (.head _)) isLeft)
        (rightBetween (axesOperands b (.tail _ (.head _))) isRight)
  | case2 id domain axis least extent =>
      cases isSpan
      exact axes.here _ _ _ _ _ rfl
  | case3 id name index dtype operands =>
      obtain ⟨i, position, found⟩ := Option.bind_eq_some_iff.1 isSpan
      obtain ⟨bound, isName, _⟩ := List.findIdx?_eq_some_iff_getElem.1 position
      refine inside_getElem inside ?_ found
      rw [List.getElem?_eq_getElem bound, beq_iff_eq.1 isName]
  | case4 id c dtype operands =>
      cases isSpan
      exact ⟨le_refl _, le_refl _⟩
  | case5 => cases isSpan

theorem merge_follows {total : Prop} {r : Registry} {program : Program} {a b : Interval}
    (left : a.HeldBy r) (right : b.HeldBy r) :
    Follows total (a.merge b) r program (some (min a.ends.1 b.ends.1, max a.ends.2 b.ends.2))
      fun later i ends => i.HeldBy later ∧ i.ends = ends ∧
        IsLiteral i.low i.ends.1 ∧ IsLiteral i.high i.ends.2 := by
  unfold Interval.merge
  refine Follows.bind_some (Follows.builds (holdsClosed_binary (.inr (.inr (.inl rfl))) left.1 right.1))
    fun r1 p1 low ext1 _ made1 => ?_
  refine Follows.bind_some (simplify_follows made1.1.1 made1.1.2 fun _ => 0)
    fun r2 p2 simpleLow ext2 _ made2 => ?_
  refine Follows.bind_some (Follows.builds (holdsClosed_binary (.inr (.inr (.inr rfl)))
    ((left.2.extend ext1).extend ext2) ((right.2.extend ext1).extend ext2)))
    fun r3 p3 high ext3 _ made3 => ?_
  refine Follows.bind_some (simplify_follows made3.1.1 made3.1.2 fun _ => 0)
    fun r4 p4 simpleHigh ext4 _ made4 => ?_
  have lowValue : simpleLow.constantValue = min a.ends.1 b.ends.1 := by
    rw [constantValue, made2.2.integer]
    exact made1.2
  have highValue : simpleHigh.constantValue = max a.ends.2 b.ends.2 := by
    rw [constantValue, made4.2.integer]
    exact made3.2
  refine Follows.pure ⟨⟨⟨(made2.1.extend ext3).extend ext4, made2.2.closed⟩,
    ⟨made4.1, made4.2.closed⟩⟩, ?_, ?_, ?_⟩
  · rw [Interval.ends, lowValue, highValue]
  · have literal := made2.2
    rwa [show Expr.integer (fun _ => 0) low = simpleLow.constantValue by
      rw [constantValue, literal.integer]] at literal
  · have literal := made4.2
    rwa [show Expr.integer (fun _ => 0) high = simpleHigh.constantValue by
      rw [constantValue, literal.integer]] at literal

theorem toDomain_follows {total : Prop} {r : Registry} {program : Program} (intervals : List Interval)
    (held : ∀ i ∈ intervals, i.HeldBy r) :
    Follows total (toDomain intervals) r program (some (intervals.map Interval.ends))
      fun later domain box => later.HoldsDomain domain ∧ domain.map rangeEnds = box := by
  induction intervals generalizing r program with
  | nil => exact Follows.pure ⟨by simp [Registry.HoldsDomain], rfl⟩
  | cons i rest ih =>
      obtain ⟨heldFirst, heldRest⟩ := List.forall_mem_cons.1 held
      unfold toDomain
      refine Follows.bind_some (simplify_follows heldFirst.1.1 heldFirst.1.2 fun _ => 0)
        fun r1 p1 least ext1 _ made1 => ?_
      have closedLeast : r1.HoldsClosed least := ⟨made1.1, made1.2.closed⟩
      refine Follows.bind_some (Follows.builds (holdsClosed_binary (.inr (.inl rfl))
        (heldFirst.2.extend ext1) closedLeast)) fun r2 p2 width ext2 _ made2 => ?_
      refine Follows.bind_some (Follows.builds (holdsClosed_int 1)) fun r3 p3 one ext3 _ made3 => ?_
      refine Follows.bind_some (Follows.builds (holdsClosed_binary (.inl rfl)
        (made2.1.extend ext3) made3.1)) fun r4 p4 whole ext4 _ made4 => ?_
      refine Follows.bind_some (simplify_follows made4.1.1 made4.1.2 fun _ => 0)
        fun r5 p5 extent ext5 _ made5 => ?_
      refine Follows.bind_some (ih fun j member =>
        (((((heldRest j member).extend ext1).extend ext2).extend ext3).extend ext4).extend ext5)
        fun r6 p6 others ext6 _ made6 => ?_
      have leastValue : least.constantValue = i.ends.1 := by
        rw [constantValue, made1.2.integer]
        rfl
      have extentValue : extent.constantValue = i.ends.2 - i.ends.1 + 1 := by
        rw [constantValue, made5.2.integer]
        change whole.constantValue = _
        rw [made4.2, made2.2, made3.2, leastValue]
        rfl
      refine Follows.pure ⟨List.forall_mem_cons.2 ⟨⟨?_, ?_⟩, made6.1⟩, ?_⟩
      · exact (((((closedLeast.extend ext2).extend ext3).extend ext4).extend ext5).extend ext6)
      · exact Registry.HoldsClosed.extend ⟨made5.1, made5.2.closed⟩ ext6
      · rw [List.map_cons, List.map_cons, made6.2]
        congr 1
        rw [rangeEnds, leastValue, extentValue, add_sub_assoc]
        ext
        · rfl
        · simp

end ReverseMode
