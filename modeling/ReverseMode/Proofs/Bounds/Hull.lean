import Mathlib.Order.Bounds.Basic
import ReverseMode.Bounds.Inference
import ReverseMode.Proofs.Bounds.Interval
import ReverseMode.Proofs.Program.Order

namespace ReverseMode

open Expr

theorem StageTable.mem_of_find? {α : Type} {table : StageTable α} {key : StageKey} {value : α}
    (found : table.find? key = some value) : (key, value) ∈ table := by
  induction table with
  | nil => cases found
  | cons entry rest ih =>
      obtain ⟨k, v⟩ := entry
      unfold find? at found ih
      rw [List.lookup_cons] at found
      split at found
      next same =>
        rw [beq_iff_eq.1 same]
        cases found
        exact .head _
      next => exact .tail _ (ih found)

theorem StageTable.mem_insert {α : Type} {table : StageTable α} {key : StageKey} {value : α}
    {entry : StageKey × α} (member : entry ∈ table.insert key value) :
    entry = (key, value) ∨ entry ∈ table := by
  induction table with
  | nil => exact .inl (List.mem_singleton.1 member)
  | cons first rest ih =>
      obtain ⟨k, v⟩ := first
      unfold insert at member
      split at member
      next same =>
        rcases List.mem_cons.1 member with rfl | later
        · exact .inl (by rw [same])
        · exact .inr (.tail _ later)
      next =>
        rcases List.mem_cons.1 member with rfl | later
        · exact .inr (.head _)
        · exact (ih later).imp_right (.tail _)

/-- The ends recorded for every stage. -/
abbrev Boxes := StageKey → Option (List (Int × Int))

namespace Boxes

def place (boxes : Boxes) (key : StageKey) : Option (List (Int × Int)) :=
  if key = CallContext.root.key then some [] else boxes key

def Widens (before after : Boxes) : Prop :=
  ∀ key box, before key = some box → ∃ box', after key = some box' ∧ Wider box box'

theorem Widens.refl (boxes : Boxes) : boxes.Widens boxes :=
  fun _ box known => ⟨box, known, .refl box⟩

theorem Widens.trans {a b c : Boxes} (first : a.Widens b) (second : b.Widens c) : a.Widens c := by
  intro key box known
  obtain ⟨box', known', wider⟩ := first key box known
  obtain ⟨box'', known'', wider'⟩ := second key box' known'
  exact ⟨box'', known'', wider.trans wider'⟩

theorem Widens.place {before after : Boxes} (widens : before.Widens after) {key : StageKey}
    {box : List (Int × Int)} (known : before.place key = some box) :
    ∃ box', after.place key = some box' ∧ Wider box box' := by
  unfold Boxes.place at *
  split at known
  next isRoot => exact ⟨box, by rw [if_pos isRoot, known], .refl box⟩
  next other =>
    obtain ⟨box', known', wider⟩ := widens key box known
    exact ⟨box', by rw [if_neg other, known'], wider⟩

end Boxes

def boxesOf (table : StageTable (List Interval)) : Boxes :=
  fun key => (table.find? key).map fun intervals => intervals.map Interval.ends

theorem boxesOf_insert (table : StageTable (List Interval)) (key : StageKey)
    (intervals : List Interval) :
    boxesOf (table.insert key intervals) =
      Function.update (boxesOf table) key (some (intervals.map Interval.ends)) := by
  funext other
  unfold boxesOf
  rw [StageTable.find?_insert, Function.update_apply]
  split <;> rfl

def spans (domains : StageTable Domain) : Boxes :=
  fun key => (domains.find? key).map fun domain => domain.map rangeEnds

def Spans (declared : List String) (box : List (Int × Int)) (args : List Expr)
    (given : List (Int × Int)) : Prop :=
  List.Forall₂ (fun arg ends => arg.span declared box = some ends) args given

namespace Spans

variable {declared : List String} {box box' given given' : List (Int × Int)} {args : List Expr}

theorem unique (spans : Spans declared box args given) (spans' : Spans declared box args given') :
    given = given' := by
  induction spans generalizing given' with
  | nil =>
      cases spans'
      rfl
  | cons first _ ih =>
      cases spans' with
      | cons first' rest' =>
          rw [first] at first'
          rw [Option.some.inj first', ih rest']

theorem mono (wider : Wider box box') (spans : Spans declared box args given) :
    ∃ given', Spans declared box' args given' ∧ Wider given given' := by
  induction spans with
  | nil => exact ⟨[], .nil, .nil⟩
  | cons first _ ih =>
      obtain ⟨ends', isSpan, widerEnds⟩ := span_mono wider first
      obtain ⟨given', isSpans, widerRest⟩ := ih
      exact ⟨ends' :: given', .cons isSpan isSpans, .cons widerEnds widerRest⟩

theorem within {env : Env} (inside : Inside declared box env)
    (axes : ∀ arg ∈ args, AxesInside arg env) (spans : Spans declared box args given) :
    Within given (args.map (Expr.integer env)) := by
  induction spans with
  | nil => exact .nil
  | cons first _ ih =>
      obtain ⟨axesFirst, axesRest⟩ := List.forall_mem_cons.1 axes
      exact .cons (between_span inside axesFirst first) (ih axesRest)

end Spans

def hull (a b : Int × Int) : Int × Int := (min a.1 b.1, max a.2 b.2)

theorem wider_hull_left {as bs : List (Int × Int)} (sameLength : as.length = bs.length) :
    Wider as (List.zipWith hull as bs) := by
  induction as generalizing bs with
  | nil => exact .nil
  | cons a rest ih =>
      cases bs with
      | nil => cases sameLength
      | cons b others =>
          refine .cons ⟨min_le_left _ _, le_max_left _ _⟩ (ih ?_)
          simpa using sameLength

theorem wider_hull_right {as bs : List (Int × Int)} (sameLength : as.length = bs.length) :
    Wider bs (List.zipWith hull as bs) := by
  have symmetric : (fun b a => hull a b) = hull := by
    funext b a
    exact Prod.ext (min_comm _ _) (max_comm _ _)
  rw [List.zipWith_comm, symmetric]
  exact wider_hull_left sameLength.symm

namespace Boxes

variable {boxes : Boxes} {key other : StageKey} {given : List (Int × Int)}

def join (boxes : Boxes) (key : StageKey) (given : List (Int × Int)) : Boxes :=
  Function.update boxes key (some ((boxes key).elim given fun earlier =>
    List.zipWith hull earlier given))

theorem join_other (different : other ≠ key) : boxes.join key given other = boxes other :=
  Function.update_of_ne different _ _

theorem widens_join (fits : ∀ earlier, boxes key = some earlier → earlier.length = given.length) :
    boxes.Widens (boxes.join key given) := by
  intro other box known
  by_cases isKey : other = key
  · subst isKey
    refine ⟨List.zipWith hull box given, ?_, wider_hull_left (fits box known)⟩
    rw [join, Function.update_self, known]
    rfl
  · exact ⟨box, (join_other isKey).trans known, .refl box⟩

theorem join_here (fits : ∀ earlier, boxes key = some earlier → earlier.length = given.length) :
    ∃ target, boxes.join key given key = some target ∧ Wider given target := by
  refine ⟨_, Function.update_self .., ?_⟩
  cases known : boxes key with
  | none => exact .refl given
  | some earlier => exact wider_hull_right (fits earlier known)

theorem join_of_wider {target : List (Int × Int)} (known : boxes key = some target)
    (wider : Wider given target) : boxes.join key given = boxes := by
  have same : List.zipWith hull target given = target := by
    clear known
    induction wider with
    | nil => rfl
    | cons both _ ih =>
        rw [List.zipWith_cons_cons, ih, hull, min_eq_left both.1, max_eq_left both.2]
  rw [join, known, Option.elim_some, same, ← known, Function.update_eq_self]

end Boxes

def rangesIn (given : List (Int × Int) → Prop) (i : Nat) : Set (Int × Int) :=
  {range | ∃ b, given b ∧ b[i]? = some range}

/-- No range of the box reaches beyond all ranges of the given boxes. -/
def Attained (given : List (Int × Int) → Prop) (box : List (Int × Int)) : Prop :=
  ∀ (i : Nat) ends, box[i]? = some ends → (∃ range ∈ rangesIn given i, range.1 ≤ ends.1) ∧
    ∃ range ∈ rangesIn given i, ends.2 ≤ range.2

namespace Attained

variable {given given' : List (Int × Int) → Prop} {box box' : List (Int × Int)}

theorem of_wider (isGiven : given box') (wider : Wider box box') : Attained given box := by
  intro i ends found
  obtain ⟨range, isRange, within⟩ := wider.getElem found
  exact ⟨⟨range, ⟨box', isGiven, isRange⟩, within.1⟩, range, ⟨box', isGiven, isRange⟩, within.2⟩

theorem widen (attained : Attained given box)
    (grow : ∀ b, given b → ∃ b', given' b' ∧ Wider b b') : Attained given' box := by
  have wider {i : Nat} {range : Int × Int} (member : range ∈ rangesIn given i) :
      ∃ range' ∈ rangesIn given' i, WiderEnds range range' := by
    obtain ⟨b, isGiven, found⟩ := member
    obtain ⟨b', isGiven', widerBox⟩ := grow b isGiven
    obtain ⟨range', found', widerRange⟩ := widerBox.getElem found
    exact ⟨range', ⟨b', isGiven', found'⟩, widerRange⟩
  intro i ends found
  obtain ⟨⟨low, lowIn, isLow⟩, high, highIn, isHigh⟩ := attained i ends found
  obtain ⟨low', lowIn', widerLow⟩ := wider lowIn
  obtain ⟨high', highIn', widerHigh⟩ := wider highIn
  exact ⟨⟨low', lowIn', widerLow.1.trans isLow⟩, high', highIn', isHigh.trans widerHigh.2⟩

theorem hull (first : Attained given box) (second : Attained given box') :
    Attained given (List.zipWith hull box box') := by
  intro i ends found
  obtain ⟨a, b, foundFirst, foundSecond, rfl⟩ := List.getElem?_zipWith_eq_some.1 found
  obtain ⟨⟨low, lowIn, isLow⟩, high, highIn, isHigh⟩ := first i a foundFirst
  obtain ⟨⟨low', lowIn', isLow'⟩, high', highIn', isHigh'⟩ := second i b foundSecond
  constructor
  · rcases min_choice a.1 b.1 with isFirst | isSecond
    · exact ⟨low, lowIn, isLow.trans_eq isFirst.symm⟩
    · exact ⟨low', lowIn', isLow'.trans_eq isSecond.symm⟩
  · rcases max_choice a.2 b.2 with isFirst | isSecond
    · exact ⟨high, highIn, isFirst.trans_le isHigh⟩
    · exact ⟨high', highIn', isSecond.trans_le isHigh'⟩

end Attained

/-- In every dimension the box reaches from the least of the lower ends to the greatest of the upper
ends. -/
structure IsHull (given : List (Int × Int) → Prop) (box : List (Int × Int)) : Prop where
  length : ∀ b, given b → b.length = box.length
  low : ∀ (i : Nat) ends, box[i]? = some ends → IsLeast (Prod.fst '' rangesIn given i) ends.1
  high : ∀ (i : Nat) ends, box[i]? = some ends → IsGreatest (Prod.snd '' rangesIn given i) ends.2

theorem isHull_of_attained {given : List (Int × Int) → Prop} {box : List (Int × Int)}
    (lands : ∀ b, given b → Wider b box) (attained : Attained given box) : IsHull given box := by
  have within {i : Nat} {ends range : Int × Int} (found : box[i]? = some ends)
      (member : range ∈ rangesIn given i) : WiderEnds range ends := by
    obtain ⟨b, isGiven, isRange⟩ := member
    obtain ⟨ends', found', wider⟩ := (lands b isGiven).getElem isRange
    rw [found] at found'
    rwa [Option.some.inj found']
  refine ⟨fun b isGiven => (lands b isGiven).length_eq, fun i ends found => ?_, fun i ends found => ?_⟩
  · obtain ⟨range, member, isLow⟩ := (attained i ends found).1
    refine ⟨⟨range, member, isLow.antisymm (within found member).1⟩, ?_⟩
    rintro _ ⟨range', member', rfl⟩
    exact (within found member').1
  · obtain ⟨range, member, isHigh⟩ := (attained i ends found).2
    refine ⟨⟨range, member, (within found member).2.antisymm isHigh⟩, ?_⟩
    rintro _ ⟨range', member', rfl⟩
    exact (within found member').2

theorem IsHull.wider {given : List (Int × Int) → Prop} {box target b : List (Int × Int)}
    (isHull : IsHull given box) (isGiven : given b) (within : ∀ b, given b → Wider b target) :
    Wider box target := by
  have lengths : box.length = target.length :=
    (isHull.length b isGiven).symm.trans (within b isGiven).length_eq
  refine List.forall₂_iff_get.2 ⟨lengths, fun i inBox inTarget => ?_⟩
  have found : box[i]? = some (box.get ⟨i, inBox⟩) := List.getElem?_eq_getElem inBox
  have contains {range : Int × Int} (member : range ∈ rangesIn given i) :
      WiderEnds range (target.get ⟨i, inTarget⟩) := by
    obtain ⟨b, isGiven, isRange⟩ := member
    obtain ⟨ends, isEnds, wider⟩ := (within b isGiven).getElem isRange
    rw [List.getElem?_eq_getElem inTarget] at isEnds
    cases isEnds
    exact wider
  obtain ⟨low, lowIn, isLow⟩ := (isHull.low i _ found).1
  obtain ⟨high, highIn, isHigh⟩ := (isHull.high i _ found).1
  exact ⟨isLow ▸ (contains lowIn).1, isHigh ▸ (contains highIn).2⟩

def Program.CallsStage (program : Program) (caller : StageKey) (value : Expr) (args : List Expr)
    (key : StageKey) : Prop :=
  ∃ x id name, Outer x value ∧ x.callee? = some (.func id name) ∧ x.operands = args ∧
    calledStage caller (program.func id) = key

/-- Where calls stand: in the root and in the stages of functions that are reached. -/
inductive Program.Place (program : Program) (root : Expr) : StageKey → List String → Expr → Prop
  | root : program.Place root CallContext.root.key [] root
  | stage {f : FuncId} {entry : Int × Definition} : program.Home root (some f) →
      entry ∈ (program.func f).stages →
      program.Place root ⟨(program.func f).name, entry.1⟩ (program.func f).declared entry.2.value

def Program.IsCalled (program : Program) (root : Expr) (key : StageKey) : Prop :=
  ∃ caller declared value args, program.Place root caller declared value ∧
    program.CallsStage caller value args key

def Program.Spanned (program : Program) (root : Expr) (boxes : Boxes) (key : StageKey)
    (given : List (Int × Int)) : Prop :=
  ∃ caller declared value args box, program.Place root caller declared value ∧
    program.CallsStage caller value args key ∧ boxes.place caller = some box ∧
    Spans declared box args given

def Lands (program : Program) (boxes : Boxes) (caller : StageKey) (declared : List String)
    (box : List (Int × Int)) (value : Expr) : Prop :=
  ∀ args key, program.CallsStage caller value args key → ∃ target given, boxes key = some target ∧
    Spans declared box args given ∧ Wider given target

def Backed (program : Program) (root : Expr) (boxes : Boxes) : Prop :=
  ∀ key box, boxes key = some box → program.IsCalled root key →
    Attained (program.Spanned root boxes key) box

section

variable {program : Program} {root : Expr} {boxes boxes' : Boxes} {caller key : StageKey}
  {declared : List String} {box : List (Int × Int)} {value : Expr}

theorem Lands.widen (lands : Lands program boxes caller declared box value)
    (widens : boxes.Widens boxes') : Lands program boxes' caller declared box value := by
  intro args key called
  obtain ⟨target, given, known, isSpans, within⟩ := lands args key called
  obtain ⟨target', known', wider⟩ := widens _ _ known
  exact ⟨target', given, known', isSpans, within.trans wider⟩

theorem Program.Spanned.widen {given : List (Int × Int)} (spanned : program.Spanned root boxes key given)
    (widens : boxes.Widens boxes') :
    ∃ given', program.Spanned root boxes' key given' ∧ Wider given given' := by
  obtain ⟨caller, declared, value, args, box, place, called, known, isSpans⟩ := spanned
  obtain ⟨box', known', wider⟩ := widens.place known
  obtain ⟨given', isSpans', widerGiven⟩ := isSpans.mono wider
  exact ⟨given', ⟨caller, declared, value, args, box', place, called, known', isSpans'⟩, widerGiven⟩

theorem Backed.change (backed : Backed program root boxes) (widens : boxes.Widens boxes')
    (others : ∀ other, other ≠ key → boxes' other = boxes other)
    (here : ∀ box, boxes' key = some box → program.IsCalled root key →
      Attained (program.Spanned root boxes' key) box) : Backed program root boxes' := by
  intro other box known called
  by_cases isKey : other = key
  · subst isKey
    exact here box known called
  · rw [others other isKey] at known
    exact (backed other box known called).widen fun _ spanned => spanned.widen widens

theorem Backed.join {args : List Expr} {given now : List (Int × Int)}
    (backed : Backed program root boxes) (place : program.Place root caller declared value)
    (called : program.CallsStage caller value args key) (known : boxes.place caller = some now)
    (wider : Wider box now) (isSpans : Spans declared box args given)
    (fits : ∀ earlier, boxes key = some earlier → earlier.length = given.length) :
    Backed program root (boxes.join key given) := by
  have widens := Boxes.widens_join fits
  refine backed.change widens (fun other => Boxes.join_other) fun box known' isCalled => ?_
  have ofCall : Attained (program.Spanned root (boxes.join key given) key) given := by
    obtain ⟨last, knownLast, widerLast⟩ := widens.place known
    obtain ⟨given', isSpans', widerGiven⟩ := isSpans.mono (wider.trans widerLast)
    exact .of_wider ⟨caller, declared, value, args, last, place, called, knownLast, isSpans'⟩ widerGiven
  rw [Boxes.join, Function.update_self] at known'
  cases Option.some.inj known'
  cases earlier : boxes key with
  | none => exact ofCall
  | some earlierBox =>
      exact ((backed key earlierBox earlier isCalled).widen fun _ spanned =>
        spanned.widen widens).hull ofCall

theorem Backed.isHull (backed : Backed program root boxes)
    (lands : ∀ caller declared value, program.Place root caller declared value →
      ∃ box, boxes.place caller = some box ∧ Lands program boxes caller declared box value)
    (called : program.IsCalled root key) :
    ∃ box, boxes key = some box ∧ IsHull (program.Spanned root boxes key) box := by
  have landed {caller : StageKey} {declared : List String} {value : Expr} {args : List Expr}
      (place : program.Place root caller declared value)
      (calls : program.CallsStage caller value args key) :
      ∃ box target given, boxes.place caller = some box ∧ boxes key = some target ∧
        Spans declared box args given ∧ Wider given target := by
    obtain ⟨box, known, landsHere⟩ := lands caller declared value place
    obtain ⟨target, given, isTarget, isSpans, wider⟩ := landsHere args key calls
    exact ⟨box, target, given, known, isTarget, isSpans, wider⟩
  obtain ⟨caller, declared, value, args, place, calls⟩ := id called
  obtain ⟨_, target, _, _, isTarget, _⟩ := landed place calls
  refine ⟨target, isTarget, isHull_of_attained ?_ (backed key target isTarget called)⟩
  rintro given ⟨caller, declared, value, args, box, place, calls, known, isSpans⟩
  obtain ⟨box', target', given', known', isTarget', isSpans', wider⟩ := landed place calls
  rw [known] at known'
  cases known'
  rw [isTarget] at isTarget'
  cases isTarget'
  rwa [isSpans.unique isSpans']

end

end ReverseMode
