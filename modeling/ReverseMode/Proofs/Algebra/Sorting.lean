import Mathlib.Data.List.Chain
import Mathlib.Data.List.Permutation
import Mathlib.Data.List.Sort
import Mathlib.Data.String.Basic
import ReverseMode.Proofs.Algebra.Meaning

namespace ReverseMode

section

variable {α : Type} {before : α → α → Bool} {as bs : List α}

theorem sorted_eq_insertionSort (before : α → α → Bool) (as : List α) :
    sorted before as = as.insertionSort fun a b => before a b = true := by
  have inserted (a : α) (as : List α) :
      insertSorted before a as = as.orderedInsert (fun a b => before a b = true) a := by
    induction as with
    | nil => rfl
    | cons b rest ih => simp [insertSorted, ih]
  induction as with
  | nil => rfl
  | cons a rest ih =>
      change insertSorted before a (sorted before rest) = _
      rw [ih, inserted, List.insertionSort_cons]

theorem sorted_congr (total : ∀ a b, before a b = true ∨ before b a = true)
    (trans : ∀ a b c, before a b = true → before b c = true → before a c = true)
    (antisymm : ∀ a ∈ as, ∀ b ∈ as, before a b = true → before b a = true → a = b)
    (perm : as.Perm bs) : sorted before as = sorted before bs := by
  have isTotal : Std.Total fun a b => before a b = true := ⟨total⟩
  have isTrans : IsTrans α fun a b => before a b = true := ⟨trans⟩
  have pairwise (cs : List α) : (sorted before cs).Pairwise fun a b => before a b = true := by
    rw [sorted_eq_insertionSort]
    exact List.pairwise_insertionSort _ cs
  refine List.Perm.eq_of_pairwise (fun a b member member' => ?_) (pairwise as) (pairwise bs)
    ((sorted_perm before as).trans (perm.trans (sorted_perm before bs).symm))
  exact antisymm a ((sorted_perm before as).mem_iff.1 member) b
    (perm.mem_iff.2 ((sorted_perm before bs).mem_iff.1 member'))

theorem isChain_insertSorted (total : ∀ a b, before a b = true ∨ before b a = true) (a : α)
    {as : List α} (chain : as.IsChain fun a b => before a b = true) :
    (insertSorted before a as).IsChain fun a b => before a b = true := by
  induction as with
  | nil => exact .singleton a
  | cons b rest ih =>
      unfold insertSorted
      split
      next first => exact .cons_cons first chain
      next later =>
        have after := (total a b).resolve_left later
        cases rest with
        | nil => exact .cons_cons after (.singleton a)
        | cons c rest =>
            have inserted := ih chain.tail
            unfold insertSorted at inserted ⊢
            split
            next first =>
              rw [if_pos first] at inserted
              exact .cons_cons after inserted
            next notFirst =>
              rw [if_neg notFirst] at inserted
              exact .cons_cons (List.isChain_cons_cons.1 chain).1 inserted

theorem isChain_sorted (total : ∀ a b, before a b = true ∨ before b a = true) (as : List α) :
    (sorted before as).IsChain fun a b => before a b = true := by
  induction as with
  | nil => exact .nil
  | cons a rest ih => exact isChain_insertSorted total a ih

theorem sorted_of_isChain {as : List α} (chain : as.IsChain fun a b => before a b = true) :
    sorted before as = as := by
  induction as with
  | nil => rfl
  | cons a rest ih =>
      have unchanged : sorted before (a :: rest) = insertSorted before a rest :=
        congrArg (insertSorted before a) (ih chain.tail)
      rw [unchanged]
      cases rest with
      | nil => rfl
      | cons b rest => rw [insertSorted, if_pos (List.isChain_cons_cons.1 chain).1]

theorem sorted_map {β : Type} {f : β → α} {before' : β → β → Bool}
    (same : ∀ b b', before (f b) (f b') = before' b b') (bs : List β) :
    sorted before (bs.map f) = (sorted before' bs).map f := by
  have inserted (b : β) (bs : List β) :
      insertSorted before (f b) (bs.map f) = (insertSorted before' b bs).map f := by
    induction bs with
    | nil => rfl
    | cons b' rest ih =>
        simp only [List.map_cons, insertSorted, same, ih]
        split <;> rfl
  induction bs with
  | nil => rfl
  | cons b rest ih =>
      change insertSorted before (f b) (sorted before (rest.map f)) = _
      rw [ih]
      exact inserted b _

end

namespace KeyPart

theorem compare_gt {a b : KeyPart} (greater : a.compare b = .gt) : b.compare a = .lt := by
  cases a <;> cases b <;> simp only [compare] at greater ⊢ <;> try cases greater
  case rank m n => exact Nat.compare_eq_lt.2 (Nat.compare_eq_gt.1 greater)
  case text s t =>
    split at greater
    next => cases greater
    next notLess =>
      split at greater
      next => cases greater
      next differ =>
        rw [if_pos (lt_of_le_of_ne (not_lt.1 notLess) (Ne.symm differ))]
  case number m n =>
    split at greater
    next => cases greater
    next =>
      split at greater
      next less => rw [if_pos less]
      next => cases greater

theorem compare_eq {a b : KeyPart} (equal : a.compare b = .eq) : b.compare a = .eq := by
  cases a <;> cases b <;> simp only [compare] at equal ⊢ <;> try cases equal
  case rank m n => exact Nat.compare_eq_eq.2 (Nat.compare_eq_eq.1 equal).symm
  case text s t =>
    split at equal
    next => cases equal
    next =>
      split at equal
      next same => rw [if_neg (same ▸ lt_irrefl _), if_pos same.symm]
      next => cases equal
  case number m n =>
    split at equal
    next => cases equal
    next notLess =>
      split at equal
      next => cases equal
      next notGreater => rw [if_neg notGreater, if_neg notLess]

end KeyPart

theorem compareKeys_gt {as bs : List KeyPart} (greater : compareKeys as bs = .gt) :
    compareKeys bs as = .lt := by
  induction as generalizing bs with
  | nil => cases bs <;> cases greater
  | cons a as ih =>
      cases bs with
      | nil => rfl
      | cons b bs =>
          rw [compareKeys] at greater ⊢
          cases first : a.compare b with
          | lt => rw [first] at greater; cases greater
          | eq =>
              rw [first] at greater
              rw [KeyPart.compare_eq first]
              exact ih greater
          | gt => rw [KeyPart.compare_gt first]; rfl

namespace Form

section

variable {β : Type} {u v w : β → Int} {order : List β}

theorem leads_total (u v : β → Int) (order : List β) :
    leads (order.map fun b => (u b, v b)) = true ∨ leads (order.map fun b => (v b, u b)) = true := by
  induction order with
  | nil => exact .inl rfl
  | cons b rest ih =>
      simp only [List.map_cons, leads]
      split
      next same => rwa [if_pos same.symm]
      next differ =>
        rw [if_neg (Ne.symm differ), decide_eq_true_eq, decide_eq_true_eq]
        omega

theorem leads_trans (first : leads (order.map fun b => (u b, v b)) = true)
    (second : leads (order.map fun b => (v b, w b)) = true) :
    leads (order.map fun b => (u b, w b)) = true := by
  induction order with
  | nil => rfl
  | cons b rest ih =>
      simp only [List.map_cons, leads] at first second ⊢
      split at first <;> split at second <;> split
      case isTrue.isTrue.isTrue => exact ih first second
      all_goals
        simp only [decide_eq_true_eq] at first second ⊢
        omega

theorem leads_antisymm (first : leads (order.map fun b => (u b, v b)) = true)
    (second : leads (order.map fun b => (v b, u b)) = true) : ∀ b ∈ order, u b = v b := by
  induction order with
  | nil => exact fun _ member => nomatch member
  | cons b rest ih =>
      simp only [List.map_cons, leads] at first second
      split at first
      next same =>
        rw [if_pos same.symm] at second
        exact List.forall_mem_cons.2 ⟨same, ih first second⟩
      next differ =>
        rw [if_neg (Ne.symm differ)] at second
        simp only [decide_eq_true_eq] at first second
        omega

end

theorem before_symbol (a b : String) :
    before (symbol a : Form Int) (symbol b) = decide (a ≤ b) := by
  simp only [before, key, keys, baseParts, signedExponent, basePartsKey, numberKey,
    List.cons_append, List.nil_append, List.append_nil, compareKeys, KeyPart.compare]
  rcases lt_trichotomy a b with below | rfl | above
  · simp [below, below.le]
  · simp only [lt_irrefl, if_false, le_refl, decide_true]
    rfl
  · simp [above.not_gt, above.ne', above]

theorem smallerBefore_total (a b : Form Int) :
    smallerBefore a b = true ∨ smallerBefore b a = true := by
  unfold smallerBefore before
  by_cases same : a.size = b.size
  · rw [if_pos same, if_pos same.symm]
    by_cases greater : compareKeys a.key b.key = .gt
    · rw [compareKeys_gt greater]
      exact .inr rfl
    · exact .inl (by simpa using greater)
  · rw [if_neg same, if_neg (Ne.symm same)]
    simp only [decide_eq_true_eq]
    omega

theorem dedupe_of_nodup {fs : List (Form Int)} (distinct : fs.Nodup) : dedupe fs = fs := by
  have kept (known : List (Form Int)) (different : (known ++ fs).Nodup) :
      fs.foldl (fun kept f => if kept.any f.same then kept else kept ++ [f]) known = known ++ fs := by
    clear distinct
    induction fs generalizing known with
    | nil => simp
    | cons f rest ih =>
        have new : known.any f.same = false := by
          rw [List.any_eq_false]
          intro g member same
          rw [same_iff.1 same] at different
          exact (List.nodup_append.1 different).2.2 g member g (.head _) rfl
        rw [List.foldl_cons, new, if_neg Bool.false_ne_true, ih, List.append_assoc]
        · rfl
        · rwa [List.append_assoc]
  exact kept [] distinct

end Form

end ReverseMode
