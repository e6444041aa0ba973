import Mathlib.Algebra.Order.BigOperators.Group.List
import Mathlib.Algebra.Order.Ring.Basic
import Mathlib.Data.List.Nodup
import ReverseMode.Proofs.Algebra.Linear
import ReverseMode.Proofs.Algebra.Sorting

/-!
# Minima and maxima

The sign of a form as far as its shape tells is the sign of its value, so an argument that is dropped
because another one dominates it never decides. An extremum of the other kind that a number rules out, or
that is absorbed, never decides either, as long as its arguments are no extrema and it is the only one.
The extremum of linear forms is linear, and its value is the extremum of their values.
-/

namespace ReverseMode.Form

variable {S : String → Prop} {K : Bool → Prop} {σ : Assignment}

def Beats (greatest : Bool) (m n : Int) : Prop := if greatest then n ≤ m else m ≤ n

theorem Beats.trans {greatest : Bool} {l m n : Int} (first : Beats greatest l m)
    (second : Beats greatest m n) : Beats greatest l n := by
  cases greatest <;> simp only [Beats] at * <;> simp at * <;> omega

theorem Beats.antisymm {greatest : Bool} {m n : Int} (first : Beats greatest m n)
    (second : Beats greatest n m) : m = n := by
  cases greatest <;> simp only [Beats] at * <;> simp at * <;> omega

theorem Beats.refl (greatest : Bool) (m : Int) : Beats greatest m m := by
  cases greatest <;> simp [Beats]

def IsTop (σ : Assignment) (greatest : Bool) (fs : List (Form Int)) (v : Int) : Prop :=
  (∃ f ∈ fs, value σ f = v) ∧ ∀ f ∈ fs, Beats greatest v (value σ f)

theorem IsTop.unique {greatest : Bool} {fs : List (Form Int)} {v w : Int}
    (first : IsTop σ greatest fs v) (second : IsTop σ greatest fs w) : v = w := by
  obtain ⟨⟨f, inFirst, rfl⟩, allFirst⟩ := first
  obtain ⟨⟨g, inSecond, rfl⟩, allSecond⟩ := second
  exact (allFirst g inSecond).antisymm (allSecond f inFirst)

theorem isTop_extremeOf (greatest : Bool) {fs : List (Form Int)} (nonempty : fs ≠ []) :
    IsTop σ greatest fs (extremeOf greatest (fs.map (value σ))) := by
  induction fs with
  | nil => exact absurd rfl nonempty
  | cons f rest ih =>
      cases rest with
      | nil =>
          refine ⟨⟨f, .head _, rfl⟩, fun g member => ?_⟩
          rw [List.mem_singleton.1 member]
          exact Beats.refl _ _
      | cons g others =>
          obtain ⟨⟨h, among, top⟩, beats⟩ := ih (by simp)
          rw [List.map_cons, List.map_cons, extremeOf, ← List.map_cons]
          · generalize extremeOf greatest ((g :: others).map (value σ)) = best at *
            constructor
            · cases greatest
              · rcases le_total (value σ f) best with below | above
                · exact ⟨f, .head _, by simp [below]⟩
                · exact ⟨h, .tail _ among, by simp [above, top]⟩
              · rcases le_total (value σ f) best with below | above
                · exact ⟨h, .tail _ among, by simp [below, top]⟩
                · exact ⟨f, .head _, by simp [above]⟩
            · intro k member
              rcases List.mem_cons.1 member with rfl | later
              · cases greatest <;> simp [Beats]
              · have here := beats k later
                cases greatest <;> simp only [Beats] at * <;> simp at * <;> omega
          · simp

theorem IsTop.congr {greatest : Bool} {fs gs : List (Form Int)} {v : Int}
    (top : IsTop σ greatest fs v) (same : ∀ f, f ∈ gs ↔ f ∈ fs) : IsTop σ greatest gs v := by
  obtain ⟨⟨f, among, isTop⟩, beats⟩ := top
  exact ⟨⟨f, (same f).2 among, isTop⟩, fun g member => beats g ((same g).1 member)⟩

mutual

theorem value_of_sign (f : Form Int) :
    ((sign f).nonnegative = true → 0 ≤ value σ f) ∧
      ((sign f).nonpositive = true → value σ f ≤ 0) := by
  match f with
  | number c => simp [sign, Number.isNegative, Number.isPositive]
  | symbol _ | unknown _ _ _ | inverse _ => simp [sign]
  | extremum greatest args =>
      have signs := values_of_signs args
      by_cases nonempty : args = []
      · subst nonempty
        simp [extremeOf]
      · obtain ⟨⟨f, among, top⟩, beats⟩ := isTop_extremeOf (σ := σ) greatest nonempty
        rw [value_extremum]
        generalize extremeOf greatest (args.map (value σ)) = best at *
        subst top
        cases greatest
        · simp only [sign]
          constructor
          · intro all
            exact signs.1 all f among
          · intro any
            -- the least argument lies below any other, so that one without positive values is enough
            obtain ⟨g, member, below⟩ := signs.2.2.2 any
            have := beats g member
            simp [Beats] at this
            omega
        · simp only [sign]
          constructor
          · intro any
            obtain ⟨g, member, above⟩ := signs.2.2.1 any
            have := beats g member
            simp [Beats] at this
            omega
          · intro all
            exact signs.2.1 all f among
  | power base e =>
      have signs := value_of_sign base
      rw [value_power]
      simp only [sign]
      split
      next even =>
        have isEven : Even e := Nat.even_iff.2 even
        exact ⟨fun _ => isEven.pow_nonneg _, fun absurd => by simp at absurd⟩
      next odd =>
        have isOdd : Odd e := Nat.odd_iff.2 (by omega)
        exact ⟨fun above => pow_nonneg (signs.1 above) e,
          fun below => isOdd.pow_nonpos_iff.2 (signs.2 below)⟩
  | product c factors =>
      have signs := value_of_productSign factors
      rw [value_product]
      simp only [sign, Sign.mul, toNumber_int, Number.isNegative, Number.isPositive,
        Bool.or_eq_true, Bool.and_eq_true, Bool.not_eq_true', decide_eq_false_iff_not, not_lt]
      constructor
      · rintro (⟨left, right⟩ | ⟨left, right⟩)
        · exact mul_nonneg left (signs.1 right)
        · exact mul_nonneg_of_nonpos_of_nonpos left (signs.2 right)
      · rintro (⟨left, right⟩ | ⟨left, right⟩)
        · exact mul_nonpos_of_nonneg_of_nonpos left (signs.2 right)
        · exact mul_nonpos_of_nonpos_of_nonneg left (signs.1 right)
  | sum ts =>
      have signs := values_of_signs ts
      rw [value_sum]
      simp only [sign]
      constructor
      · intro all
        refine List.sum_nonneg fun v member => ?_
        obtain ⟨t, among, rfl⟩ := List.mem_map.1 member
        exact signs.1 all t among
      · intro all
        have bound := List.sum_le_sum (g := fun _ => 0) (signs.2.1 all)
        simpa using bound

theorem value_of_productSign (fs : List (Form Int)) :
    ((productSign fs).nonnegative = true → 0 ≤ (fs.map (value σ)).prod) ∧
      ((productSign fs).nonpositive = true → (fs.map (value σ)).prod ≤ 0) := by
  match fs with
  | [] => simp [productSign]
  | f :: rest =>
      have first := value_of_sign f
      have others := value_of_productSign rest
      rw [List.map_cons, List.prod_cons]
      simp only [productSign, Sign.mul, Bool.or_eq_true, Bool.and_eq_true]
      constructor
      · rintro (⟨left, right⟩ | ⟨left, right⟩)
        · exact mul_nonneg (first.1 left) (others.1 right)
        · exact mul_nonneg_of_nonpos_of_nonpos (first.2 left) (others.2 right)
      · rintro (⟨left, right⟩ | ⟨left, right⟩)
        · exact mul_nonpos_of_nonneg_of_nonpos (first.1 left) (others.2 right)
        · exact mul_nonpos_of_nonpos_of_nonneg (first.2 left) (others.1 right)

theorem values_of_signs (fs : List (Form Int)) :
    (allNonnegative fs = true → ∀ f ∈ fs, 0 ≤ value σ f) ∧
      (allNonpositive fs = true → ∀ f ∈ fs, value σ f ≤ 0) ∧
      (anyNonnegative fs = true → ∃ f ∈ fs, 0 ≤ value σ f) ∧
      (anyNonpositive fs = true → ∃ f ∈ fs, value σ f ≤ 0) := by
  match fs with
  | [] => simp [anyNonnegative, anyNonpositive]
  | f :: rest =>
      have first := value_of_sign f
      obtain ⟨allAbove, allBelow, anyAbove, anyBelow⟩ := values_of_signs rest
      simp only [allNonnegative, allNonpositive, anyNonnegative, anyNonpositive,
        Bool.and_eq_true, Bool.or_eq_true, List.forall_mem_cons, List.exists_mem_cons_iff]
      exact ⟨fun both => ⟨first.1 both.1, allAbove both.2⟩,
        fun both => ⟨first.2 both.1, allBelow both.2⟩,
        fun either => either.imp first.1 anyAbove, fun either => either.imp first.2 anyBelow⟩

end

theorem beats_of_dominates {greatest : Bool} {f g : Form Int}
    (dominates : f.dominates greatest g = true) :
    Beats greatest (value σ f) (value σ g) := by
  simp only [Form.dominates, Bool.and_eq_true] at dominates
  have signs := value_of_sign (σ := σ) (f.sub g)
  rw [value_sub] at signs
  cases greatest <;> simp only [Beats] <;> simp at dominates ⊢
  · have := signs.2 dominates.2
    omega
  · have := signs.1 dominates.2
    omega

theorem mem_keepArgument {greatest : Bool} {kept : List (Form Int)} {f g : Form Int}
    (member : g ∈ keepArgument greatest kept f) : g ∈ kept ∨ g = f := by
  unfold keepArgument at member
  split at member
  · exact .inl member
  · rcases List.mem_append.1 member with old | new
    · exact .inl (List.mem_filter.1 old).1
    · exact .inr (List.mem_singleton.1 new)

theorem isTop_keepArgument {greatest : Bool} {kept rest : List (Form Int)} {f : Form Int} {v : Int}
    (top : IsTop σ greatest (kept ++ f :: rest) v) :
    IsTop σ greatest (keepArgument greatest kept f ++ rest) v := by
  obtain ⟨⟨g, among, isTop⟩, beats⟩ := top
  have bound (h : Form Int) (member : h ∈ keepArgument greatest kept f ++ rest) :
      Beats greatest v (value σ h) := by
    refine beats h ?_
    rcases List.mem_append.1 member with early | late
    · rcases mem_keepArgument early with old | rfl
      · exact List.mem_append_left _ old
      · exact List.mem_append_right _ (.head _)
    · exact List.mem_append_right _ (.tail _ late)
  -- another argument of the same value takes the place of the one that is dropped
  have replaced (h k : Form Int) (stays : h ∈ keepArgument greatest kept f ++ rest)
      (better : Beats greatest (value σ h) (value σ k)) (isV : value σ k = v) :
      ∃ h ∈ keepArgument greatest kept f ++ rest, value σ h = v :=
    ⟨h, stays, (isV ▸ better).antisymm (bound h stays)⟩
  refine ⟨?_, bound⟩
  rcases List.mem_append.1 among with old | new
  · unfold keepArgument at replaced ⊢
    split
    next => exact ⟨g, List.mem_append_left _ old, isTop⟩
    next notDominated =>
      rw [if_neg notDominated] at replaced
      cases dominated : f.dominates greatest g with
      | true => exact replaced f g (by simp) (beats_of_dominates dominated) isTop
      | false => exact ⟨g, by simp [old, dominated], isTop⟩
  · rcases List.mem_cons.1 new with rfl | late
    · unfold keepArgument at replaced ⊢
      split
      next dominated =>
        rw [if_pos dominated] at replaced
        obtain ⟨h, member, reason⟩ := List.any_eq_true.1 dominated
        rcases Bool.or_eq_true_iff.1 reason with same | dominates
        · rw [eq_of_same _ _ same] at isTop
          exact ⟨h, List.mem_append_left _ member, isTop⟩
        · exact replaced h g (List.mem_append_left _ member) (beats_of_dominates dominates) isTop
      next => exact ⟨g, by simp, isTop⟩
    · exact ⟨g, List.mem_append_right _ late, isTop⟩

theorem isTop_keepArguments {greatest : Bool} {kept rest : List (Form Int)} {v : Int}
    (top : IsTop σ greatest (kept ++ rest) v) :
    IsTop σ greatest (rest.foldl (keepArgument greatest) kept) v := by
  induction rest generalizing kept with
  | nil => simpa using top
  | cons f rest ih => exact ih (isTop_keepArgument top)

theorem mem_keepArguments {greatest : Bool} {kept rest : List (Form Int)} {f : Form Int}
    (member : f ∈ rest.foldl (keepArgument greatest) kept) : f ∈ kept ∨ f ∈ rest := by
  induction rest generalizing kept with
  | nil => exact .inl member
  | cons g rest ih =>
      rcases ih member with early | late
      · rcases mem_keepArgument early with old | rfl
        · exact .inl old
        · exact .inr (.head _)
      · exact .inr (.tail _ late)

theorem mem_dedupe {fs : List (Form Int)} {f : Form Int} : f ∈ dedupe fs ↔ f ∈ fs := by
  have general (kept : List (Form Int)) :
      f ∈ fs.foldl (fun kept g => if kept.any g.same then kept else kept ++ [g]) kept ↔
        f ∈ kept ∨ f ∈ fs := by
    induction fs generalizing kept with
    | nil => simp
    | cons g rest ih =>
        rw [List.foldl_cons, ih, List.mem_cons]
        split
        next known =>
          obtain ⟨h, member, same⟩ := List.any_eq_true.1 known
          rw [← eq_of_same _ _ same] at member
          constructor
          · rintro (old | new)
            · exact .inl old
            · exact .inr (.inr new)
          · rintro (old | rfl | new)
            · exact .inl old
            · exact .inl member
            · exact .inr new
        next => rw [List.mem_append, List.mem_singleton, or_assoc]
  exact (general []).trans (by simp)

theorem nodup_dedupe (fs : List (Form Int)) : (dedupe fs).Nodup := by
  have general (kept : List (Form Int)) (distinct : kept.Nodup) :
      (fs.foldl (fun kept g => if kept.any g.same then kept else kept ++ [g]) kept).Nodup := by
    induction fs generalizing kept with
    | nil => exact distinct
    | cons g rest ih =>
        rw [List.foldl_cons]
        split
        next => exact ih kept distinct
        next unknown =>
          refine ih _ (List.nodup_append.2 ⟨distinct, List.nodup_singleton g, ?_⟩)
          rintro h member k last rfl
          refine unknown (List.any_eq_true.2 ⟨h, member, ?_⟩)
          rw [List.mem_singleton.1 last]
          exact same_self g
  exact general [] List.nodup_nil

theorem mem_extremumOf {fs : List (Form Int)} {f : Form Int} :
    f ∈ sorted smallerBefore (dedupe fs) ↔ f ∈ fs := by
  rw [(sorted_perm _ _).mem_iff, mem_dedupe]

theorem value_extremumOf {greatest : Bool} {fs : List (Form Int)} {v : Int}
    (top : IsTop σ greatest fs v) : value σ (extremumOf greatest fs) = v := by
  replace top := top.congr fun f => mem_extremumOf (f := f)
  unfold extremumOf
  split
  next f single =>
    obtain ⟨⟨g, among, isTop⟩, _⟩ := top
    rw [single] at among
    rw [← List.mem_singleton.1 among, isTop]
  next =>
    obtain ⟨f, among, _⟩ := top.1
    rw [value_extremum]
    exact (isTop_extremeOf greatest (List.ne_nil_of_mem among)).unique top

/-- Sorting and removing duplicates again changes nothing, and several arguments are left. -/
def Settled (args : List (Form Int)) : Prop :=
  sorted smallerBefore (dedupe args) = args ∧ 2 ≤ args.length

theorem Settled.extremumOf {args : List (Form Int)} (settled : Settled args) (greatest : Bool) :
    extremumOf greatest args = extremum greatest args := by
  obtain ⟨same, several⟩ := settled
  unfold Form.extremumOf
  rw [same]
  split
  next => simp at several
  next => rfl

theorem Settled.nonempty {args : List (Form Int)} (settled : Settled args) : args ≠ [] := by
  rintro rfl
  simpa using settled.2

theorem settled_sorted {fs : List (Form Int)} (nonempty : fs ≠ [])
    (several : ∀ f, sorted smallerBefore (dedupe fs) ≠ [f]) :
    Settled (sorted smallerBefore (dedupe fs)) := by
  constructor
  · rw [dedupe_of_nodup ((sorted_perm _ _).nodup_iff.2 (nodup_dedupe fs))]
    exact sorted_of_isChain (isChain_sorted smallerBefore_total _)
  · obtain ⟨f, member⟩ := List.exists_mem_of_ne_nil fs nonempty
    replace member := mem_extremumOf.2 member
    generalize sorted smallerBefore (dedupe fs) = args at *
    match args with
    | [] => cases member
    | [f] => exact absurd rfl (several f)
    | _ :: _ :: _ => simp

theorem linear_extremumOf {greatest : Bool} {fs : List (Form Int)} (nonempty : fs ≠ [])
    (plain : ∀ f ∈ fs, f.isExtremum = false) (linear : ∀ f ∈ fs, Linear S (· = greatest) f) :
    Linear S (· = greatest) (extremumOf greatest fs) := by
  have same (f : Form Int) : f ∈ sorted smallerBefore (dedupe fs) ↔ f ∈ fs := mem_extremumOf
  have distinct : (sorted smallerBefore (dedupe fs)).Nodup :=
    (sorted_perm _ _).nodup_iff.2 (nodup_dedupe fs)
  have settled := settled_sorted nonempty
  unfold extremumOf
  generalize sorted smallerBefore (dedupe fs) = args at same distinct settled
  split
  next f => exact linear f ((same f).1 (.head _))
  next several =>
    exact linear_extremum.2 ⟨rfl, (settled fun f single => several f single).2, distinct,
      fun f member => plain f ((same f).1 member), fun f member => linear f ((same f).1 member)⟩

/-- A form that is no extremum, or the extremum of the other kind of these arguments, which are none. -/
def Sits (greatest : Bool) (inner : List (Form Int)) (f : Form Int) : Prop :=
  f.isExtremum = false ∨
    f = extremum (!greatest) inner ∧ Settled inner ∧ ∀ h ∈ inner, h.isExtremum = false

section

variable {greatest : Bool} {inner args : List (Form Int)} {a f : Form Int} {v : Int}

theorem beats_other {m n : Int} : Beats (!greatest) m n ↔ Beats greatest n m := by
  cases greatest <;> simp [Beats]

theorem beats_argument {h : Form Int} (member : h ∈ inner) :
    Beats greatest (value σ h) (value σ (extremum (!greatest) inner)) := by
  rw [value_extremum, ← beats_other]
  exact (isTop_extremeOf _ (List.ne_nil_of_mem member)).2 h member

theorem nestedNumbers_plain (plain : f.isExtremum = false) : nestedNumbers greatest f = [] := by
  cases f <;> first | rfl | cases plain

theorem allNestedNumbers_eq_nil (each : ∀ f ∈ args, nestedNumbers greatest f = []) :
    allNestedNumbers greatest args = [] := by
  induction args with
  | nil => rfl
  | cons f rest ih =>
      obtain ⟨first, others⟩ := List.forall_mem_cons.1 each
      rw [allNestedNumbers, first, ih others, List.nil_append]

theorem Sits.nestedNumbers (sits : Sits greatest inner f) : nestedNumbers greatest f = [] := by
  rcases sits with plain | ⟨rfl, _, plain⟩
  · exact nestedNumbers_plain plain
  · have nothing : allNestedNumbers greatest inner = [] :=
      allNestedNumbers_eq_nil fun h member => nestedNumbers_plain (plain h member)
    simp [Form.nestedNumbers, nothing]

theorem mem_of_mostExtreme? {numbers : List Number} {n : Number}
    (most : mostExtreme? greatest numbers = some n) : n ∈ numbers := by
  induction numbers generalizing n with
  | nil => cases most
  | cons m rest ih =>
      unfold mostExtreme? at most
      split at most
      next => exact Option.some.inj most ▸ List.mem_cons_self
      next best found =>
        split at most <;> rw [← Option.some.inj most]
        · exact .tail _ (ih found)
        · exact .head _

theorem not_moreExtreme {m n : Int} (beats : Beats greatest n m) :
    moreExtreme greatest (.int m) (.int n) = false := by
  cases greatest <;> simp_all [Beats, moreExtreme, Number.less]

theorem isTop_dropExcluded (sits : ∀ f ∈ args, Sits greatest inner f)
    (top : IsTop σ greatest args v) : IsTop σ greatest (dropExcluded greatest args) v := by
  unfold dropExcluded
  split
  next c rest =>
    dsimp only
    rw [allNestedNumbers_eq_nil fun f member => (sits f member).nestedNumbers, List.append_nil]
    split
    next => exact top
    next bound most =>
      obtain ⟨⟨f, among, isTop⟩, beats⟩ := top
      refine ⟨⟨f, List.mem_filter.2 ⟨among, ?_⟩, isTop⟩,
        fun g member => beats g (List.mem_filter.1 member).1⟩
      split
      next kind d others =>
        rcases sits _ among with plain | ⟨same, _⟩
        · cases plain
        obtain ⟨rfl, rfl⟩ := extremum.inj same
        obtain ⟨g, amongAll, isNumber⟩ := List.mem_filterMap.1 (mem_of_mostExtreme? most)
        cases g with
        | number n =>
            have beaten : Beats greatest d v := isTop ▸ beats_argument (h := number d) (.head _)
            have below : Beats greatest v n := beats _ amongAll
            rw [← Option.some.inj isNumber, toNumber_int, toNumber_int,
              not_moreExtreme (beaten.trans below), Bool.not_false, Bool.or_true]
        | _ => cases isNumber
      next => rfl
  next => exact top

theorem mem_dropExcluded (member : f ∈ dropExcluded greatest args) : f ∈ args := by
  unfold dropExcluded at member
  split at member
  next =>
    dsimp only at member
    split at member
    next => exact member
    next => exact (List.mem_filter.1 member).1
  next => exact member

theorem absorb_eq (sits : Sits greatest inner f) (a : Form Int) : absorb greatest a f = f ∨
    absorb greatest a f = a ∧ Beats greatest (value σ a) (value σ f) := by
  have kept {h : Form Int} (plain : h.isExtremum = false) : absorb greatest a h = h := by
    cases h <;> first | rfl | cases plain
  rcases sits with plain | ⟨rfl, settled, plain⟩
  · exact .inl (kept plain)
  unfold absorb
  split
  next decides =>
    obtain ⟨h, member, same⟩ := List.any_eq_true.1 (Bool.and_eq_true_iff.1 decides).1
    obtain rfl := same_iff.1 same
    exact .inr ⟨rfl, beats_argument member⟩
  next open' =>
    have other : ((!greatest) != greatest) = true := by cases greatest <;> rfl
    have absent : ∀ h ∈ inner, h.same a = false := fun h member => Bool.eq_false_iff.2 fun same => by
      rw [other, Bool.and_true] at open'
      exact open' (List.any_eq_true.2 ⟨h, member, same_iff.2 (same_iff.1 same).symm⟩)
    have unchanged : absorbAll greatest a inner = inner := by
      clear settled open'
      induction inner with
      | nil => rfl
      | cons h rest ih =>
          obtain ⟨first, others⟩ := List.forall_mem_cons.1 plain
          obtain ⟨notSame, differ⟩ := List.forall_mem_cons.1 absent
          rw [absorbAll, notSame, if_neg Bool.false_ne_true, kept first, ih others differ]
    rw [unchanged, settled.extremumOf]
    exact .inl rfl

theorem mem_absorbFollowing (count : Nat) (sits : ∀ f ∈ args, Sits greatest inner f)
    (member : f ∈ absorbFollowing greatest count args) : f ∈ args := by
  induction count generalizing args with
  | zero => exact member
  | succ count ih =>
      cases args with
      | nil => cases member
      | cons a rest =>
          have origin (g : Form Int) (absorbed : g ∈ rest.map (absorb greatest a)) : g ∈ a :: rest := by
            obtain ⟨h, among, rfl⟩ := List.mem_map.1 absorbed
            rcases absorb_eq (σ := ⟨fun _ => 0, fun _ => 0⟩) (sits h (.tail _ among)) a with
              same | ⟨same, _⟩ <;> rw [same]
            · exact .tail _ among
            · exact .head _
          rcases List.mem_cons.1 member with rfl | later
          · exact .head _
          · exact origin f (ih (fun g absorbed => sits g (origin g absorbed)) later)

theorem isTop_absorbFollowing (count : Nat) {before : List (Form Int)}
    (sits : ∀ f ∈ args, Sits greatest inner f) (top : IsTop σ greatest (before ++ args) v) :
    IsTop σ greatest (before ++ absorbFollowing greatest count args) v := by
  induction count generalizing before args with
  | zero => exact top
  | succ count ih =>
      cases args with
      | nil => exact top
      | cons a rest =>
          have absorbed (h : Form Int) (among : h ∈ rest) :=
            absorb_eq (σ := σ) (sits h (.tail _ among)) a
          have origin (g : Form Int) (member : g ∈ rest.map (absorb greatest a)) : g ∈ a :: rest := by
            obtain ⟨h, among, rfl⟩ := List.mem_map.1 member
            rcases absorbed h among with same | ⟨same, _⟩ <;> rw [same]
            · exact .tail _ among
            · exact .head _
          obtain ⟨⟨h, among, isTop⟩, beats⟩ := top
          rw [absorbFollowing, List.append_cons]
          refine ih (fun g member => sits g (origin g member)) ⟨?_, fun g member => beats g ?_⟩
          · rcases List.mem_append.1 among with early | late
            · exact ⟨h, by simp [early], isTop⟩
            rcases List.mem_cons.1 late with rfl | later
            · exact ⟨h, by simp, isTop⟩
            rcases absorbed h later with same | ⟨_, decides⟩
            · exact ⟨h, List.mem_append_right _ (List.mem_map.2 ⟨h, later, same⟩), isTop⟩
            · -- the argument that decides the extremum has the extreme value itself
              have isA : value σ a = v := (isTop ▸ decides).antisymm (beats a (by simp))
              exact ⟨a, by simp, isA⟩
          · rcases List.mem_append.1 member with early | late
            · simpa [or_assoc] using Or.inl (b := g ∈ rest) (List.mem_append.1 early)
            · exact List.mem_append_right _ (origin g late)

theorem mem_takeOutCommon (sits : ∀ f ∈ args, Sits greatest inner f) :
    f ∈ takeOutCommon greatest args ↔ f ∈ args := by
  unfold takeOutCommon
  extract_lets isOther
  have guest {g : Form Int} (member : g ∈ args) (other : isOther g = true) :
      g = extremum (!greatest) inner ∧ Settled inner := by
    rcases sits g member with plain | ⟨same, settled, _⟩
    · cases g <;> first | cases other | cases plain
    · exact ⟨same, settled⟩
  split
  next => rfl
  next first others found =>
    have each (g : Form Int) (member : g ∈ first :: others) : g = extremum (!greatest) inner := by
      obtain ⟨among, other⟩ := List.mem_filter.1 (found ▸ member)
      exact (guest among other).1
    obtain ⟨among, other⟩ := List.mem_filter.1 (found ▸ List.mem_cons_self)
    obtain ⟨rfl, settled⟩ := guest among other
    extract_lets common rests further
    have isCommon : common = inner := by
      refine List.filter_eq_self.2 fun a member => List.all_eq_true.2 fun o isOther => ?_
      rw [each o (.tail _ isOther)]
      exact List.any_eq_true.2 ⟨a, member, same_self a⟩
    -- all arguments are common to the only extremum of the other kind, so nothing is left of it
    have nothing : further = [] := by
      have rest : (arguments (extremum (!greatest) inner)).filter (fun a => !common.any a.same) = [] := by
        refine List.filter_eq_nil_iff.2 fun a member => ?_
        have isAny : inner.any a.same = true := List.any_eq_true.2 ⟨a, member, same_self a⟩
        rw [isCommon, isAny]
        exact Bool.false_ne_true
      simp only [further, rests, List.map_cons, List.all_cons, rest, List.isEmpty_nil, Bool.not_true,
        Bool.false_and, Bool.false_eq_true, if_false]
    have found : common.isEmpty = false := by
      rw [isCommon]
      simpa using settled.nonempty
    rw [found, if_neg Bool.false_ne_true, nothing, List.append_nil, isCommon, settled.extremumOf,
      List.mem_append, List.mem_filter, List.mem_singleton]
    constructor
    · rintro (⟨old, _⟩ | rfl)
      · exact old
      · exact among
    · intro member
      cases isKind : isOther f with
      | false => exact .inl ⟨member, rfl⟩
      | true => exact .inr (guest member isKind).1

end

/-- What the form contributes to an extremum of that kind sits among its arguments. -/
structure Flat (greatest : Bool) (inner : List (Form Int)) (f : Form Int) : Prop where
  nonempty : flatten greatest f ≠ []
  sits : ∀ g ∈ flatten greatest f, Sits greatest inner g

theorem isTop_flatten {greatest : Bool} {f : Form Int} (nonempty : flatten greatest f ≠ []) :
    IsTop σ greatest (flatten greatest f) (value σ f) := by
  have single (f : Form Int) : IsTop σ greatest [f] (value σ f) := by
    refine ⟨⟨f, .head _, rfl⟩, fun g member => ?_⟩
    rw [List.mem_singleton.1 member]
    exact Beats.refl _ _
  cases f with
  | extremum kind args =>
      simp only [flatten, value_extremum] at nonempty ⊢
      split
      next same =>
        rw [if_pos same] at nonempty
        exact same ▸ isTop_extremeOf kind nonempty
      next => exact value_extremum (σ := σ) kind args ▸ single _
  | _ => exact single _

theorem isTop_flatMap {greatest : Bool} {fs : List (Form Int)} {v : Int}
    (nonempty : ∀ f ∈ fs, flatten greatest f ≠ []) (top : IsTop σ greatest fs v) :
    IsTop σ greatest (fs.flatMap (flatten greatest)) v := by
  obtain ⟨⟨f, among, isTop⟩, beats⟩ := top
  obtain ⟨⟨g, inside, same⟩, _⟩ := isTop_flatten (σ := σ) (nonempty f among)
  refine ⟨⟨g, List.mem_flatMap.2 ⟨f, among, inside⟩, same.trans isTop⟩, fun h member => ?_⟩
  obtain ⟨k, amongAll, within⟩ := List.mem_flatMap.1 member
  exact (beats k amongAll).trans ((isTop_flatten (nonempty k amongAll)).2 h within)

/-- The arguments that are left have the extreme value, and further ones are dropped only where another
one dominates them. -/
theorem extreme_candidates {greatest : Bool} {inner fs : List (Form Int)} (nonempty : fs ≠ [])
    (flat : ∀ f ∈ fs, Flat greatest inner f) :
    ∃ candidates, extreme greatest fs =
        extremumOf greatest (candidates.foldl (keepArgument greatest) []) ∧
      (∀ g ∈ candidates, ∃ f ∈ fs, g ∈ flatten greatest f) ∧
      ∀ σ, IsTop σ greatest candidates (extremeOf greatest (fs.map (value σ))) := by
  have top (σ : Assignment) := isTop_flatMap (fun f member => (flat f member).nonempty)
    (isTop_extremeOf (σ := σ) greatest nonempty)
  have same (f : Form Int) : f ∈ sorted smallerBefore (dedupe (fs.flatMap (flatten greatest))) ↔
      f ∈ fs.flatMap (flatten greatest) := mem_extremumOf
  replace top (σ : Assignment) := (top σ).congr same
  unfold extreme
  generalize sorted smallerBefore (dedupe (fs.flatMap (flatten greatest))) = args at same top
  have origin (g : Form Int) (member : g ∈ args) : ∃ f ∈ fs, g ∈ flatten greatest f :=
    List.mem_flatMap.1 ((same g).1 member)
  have sits (g : Form Int) (member : g ∈ args) : Sits greatest inner g := by
    obtain ⟨f, among, inside⟩ := origin g member
    exact (flat f among).sits g inside
  extract_lets _ possible apart candidates
  have possibleSits (g : Form Int) (member : g ∈ possible) : Sits greatest inner g :=
    sits g (mem_dropExcluded member)
  have apartSits (g : Form Int) (member : g ∈ apart) : Sits greatest inner g :=
    possibleSits g (mem_absorbFollowing _ possibleSits member)
  have mem_candidates (g : Form Int) : g ∈ candidates ↔ g ∈ apart := by
    unfold candidates
    split
    · exact mem_takeOutCommon apartSits
    · exact Iff.rfl
  refine ⟨candidates, rfl, fun g member => origin g ?_, fun σ => ?_⟩
  · exact mem_dropExcluded (mem_absorbFollowing _ possibleSits ((mem_candidates g).1 member))
  · have absorbed : IsTop σ greatest ([] ++ apart) _ :=
      isTop_absorbFollowing possible.length possibleSits (isTop_dropExcluded sits (top σ))
    exact absorbed.congr mem_candidates

theorem extreme_flat {greatest : Bool} {inner fs : List (Form Int)} (nonempty : fs ≠ [])
    (flat : ∀ f ∈ fs, Flat greatest inner f) :
    ∃ args, extreme greatest fs = extremumOf greatest args ∧ args ≠ [] ∧
      (∀ g ∈ args, ∃ f ∈ fs, g ∈ flatten greatest f) ∧
      ∀ σ, IsTop σ greatest args (extremeOf greatest (fs.map (value σ))) := by
  obtain ⟨candidates, same, origin, top⟩ := extreme_candidates nonempty flat
  have kept (σ : Assignment) : IsTop σ greatest (candidates.foldl (keepArgument greatest) [])
      (extremeOf greatest (fs.map (value σ))) := isTop_keepArguments (by simpa using top σ)
  obtain ⟨f, among, _⟩ := (kept ⟨fun _ => 0, fun _ => 0⟩).1
  refine ⟨_, same, List.ne_nil_of_mem among, fun g member => origin g ?_, kept⟩
  simpa using mem_keepArguments member

theorem Linear.flat {greatest : Bool} {f : Form Int} (linear : Linear S (· = greatest) f) :
    flatten greatest f ≠ [] ∧
      ∀ g ∈ flatten greatest f, g.isExtremum = false ∧ Linear S (· = greatest) g := by
  cases f with
  | extremum kind args =>
      obtain ⟨rfl, several, _, plain, each⟩ := linear_extremum.1 linear
      have own : flatten kind (extremum kind args) = args := by simp only [flatten, if_pos]
      rw [own]
      refine ⟨?_, fun g member => ⟨plain g member, each g member⟩⟩
      rintro rfl
      simp at several
  | _ => exact ⟨by simp [flatten], fun g member => List.mem_singleton.1 member ▸ ⟨rfl, linear⟩⟩

theorem extreme_sound {greatest : Bool} {fs : List (Form Int)} (nonempty : fs ≠ [])
    (linear : ∀ f ∈ fs, Linear S (· = greatest) f) :
    Linear S (· = greatest) (extreme greatest fs) ∧
      value σ (extreme greatest fs) = extremeOf greatest (fs.map (value σ)) := by
  have flat (f : Form Int) (member : f ∈ fs) : Flat greatest [] f :=
    ⟨(linear f member).flat.1, fun g inside => .inl ((linear f member).flat.2 g inside).1⟩
  obtain ⟨args, isExtreme, found, origin, top⟩ := extreme_flat nonempty flat
  rw [isExtreme]
  refine ⟨linear_extremumOf found (fun g member => ?_) fun g member => ?_, value_extremumOf (top σ)⟩ <;>
    obtain ⟨f, among, inside⟩ := origin g member
  · exact ((linear f among).flat.2 g inside).1
  · exact ((linear f among).flat.2 g inside).2

end ReverseMode.Form
