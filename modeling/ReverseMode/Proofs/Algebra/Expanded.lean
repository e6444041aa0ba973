import Mathlib.Data.Finsupp.Order
import ReverseMode.Proofs.Algebra.Composed
import ReverseMode.Proofs.Algebra.Sorting

namespace ReverseMode.Form

def symbolPower (p : String × Nat) : Form Int := ofPower (symbol p.1) p.2

@[simp] theorem basePower_symbolPower (p : String × Nat) :
    (symbolPower p).basePower = (symbol p.1, p.2) :=
  basePower_ofPower rfl p.2

theorem symbolPower_cases (p : String × Nat) :
    symbolPower p = symbol p.1 ∧ p.2 = 1 ∨ symbolPower p = power (symbol p.1) p.2 := by
  unfold symbolPower ofPower
  split
  next isOne => exact .inl ⟨rfl, isOne⟩
  next => exact .inr rfl

theorem map_symbolPower_ne_sum (ps : List (String × Nat)) (ts : List (Form Int)) :
    ps.map symbolPower ≠ [sum ts] := by
  intro isSum
  have member : sum ts ∈ ps.map symbolPower := isSum ▸ List.mem_singleton_self _
  obtain ⟨p, _, isPower⟩ := List.mem_map.1 member
  rcases symbolPower_cases p with ⟨isSymbol, _⟩ | power
  · rw [isSymbol] at isPower
    cases isPower
  · rw [power] at isPower
    cases isPower

theorem key_symbolPower (p : String × Nat) :
    (symbolPower p).key = [.rank 2, .rank 0, .text "Symbol", .rank 1, .text p.1] ++
      (numberKey (.int p.2) ++ [.number (.int 1)]) := by
  rcases symbolPower_cases p with ⟨isSymbol, isOne⟩ | isPower
  · rw [isSymbol, isOne]
    rfl
  · rw [isPower]
    rfl

def nameBefore (p q : String × Nat) : Bool := decide (p.1 < q.1 ∨ p.1 = q.1 ∧ p.2 ≤ q.2)

theorem before_symbolPower (p q : String × Nat) :
    before (symbolPower p) (symbolPower q) = nameBefore p q := by
  rw [before, key_symbolPower, key_symbolPower]
  simp only [numberKey, List.cons_append, List.nil_append, compareKeys, KeyPart.compare, nameBefore]
  rcases lt_trichotomy p.1 q.1 with below | same | above
  · simp [below]
  · rcases lt_trichotomy p.2 q.2 with less | equal | more
    · simp [same, less, less.le, Number.less]
    · simp [same, equal, Number.less]
    · simp [same, more.not_gt, more.not_ge, more, Number.less]
  · simp [above.not_gt, above.ne']

structure Powers (ps : List (String × Nat)) : Prop where
  distinct : (ps.map Prod.fst).Nodup
  positive : ∀ p ∈ ps, 1 ≤ p.2

structure Monomial (ps : List (String × Nat)) : Prop where
  ordered : ps.Pairwise fun p q => p.1 < q.1
  positive : ∀ p ∈ ps, 1 ≤ p.2

variable {ps qs : List (String × Nat)}

theorem Powers.cons_iff {p : String × Nat} :
    Powers (p :: ps) ↔ p.1 ∉ ps.map Prod.fst ∧ 1 ≤ p.2 ∧ Powers ps :=
  ⟨fun ⟨distinct, positive⟩ =>
      have ⟨new, others⟩ := List.nodup_cons.1 distinct
      have ⟨first, rest⟩ := List.forall_mem_cons.1 positive
      ⟨new, first, others, rest⟩,
    fun ⟨new, first, others, rest⟩ =>
      ⟨List.nodup_cons.2 ⟨new, others⟩, List.forall_mem_cons.2 ⟨first, rest⟩⟩⟩

theorem Monomial.powers (monomial : Monomial ps) : Powers ps :=
  ⟨List.pairwise_map.2 (monomial.ordered.imp fun below => below.ne), monomial.positive⟩

theorem Powers.perm (powers : Powers ps) (perm : ps.Perm qs) : Powers qs :=
  ⟨(perm.map _).nodup_iff.1 powers.distinct, fun p member =>
    powers.positive p (perm.mem_iff.2 member)⟩

theorem Powers.sorted (powers : Powers ps) : Monomial (sorted nameBefore ps) := by
  have perm := (sorted_perm nameBefore ps).symm
  have isTotal : Std.Total fun p q => nameBefore p q = true := by
    refine ⟨fun p q => ?_⟩
    simp only [nameBefore, decide_eq_true_eq]
    rcases lt_trichotomy p.1 q.1 with below | same | above
    · exact .inl (.inl below)
    · exact (le_total p.2 q.2).imp (fun le => .inr ⟨same, le⟩) fun le => .inr ⟨same.symm, le⟩
    · exact .inr (.inl above)
  have isTrans : IsTrans (String × Nat) fun p q => nameBefore p q = true := by
    refine ⟨fun p q s first second => ?_⟩
    simp only [nameBefore, decide_eq_true_eq] at first second ⊢
    rcases first with below | ⟨same, le⟩ <;> rcases second with below' | ⟨same', le'⟩
    · exact .inl (below.trans below')
    · exact .inl (same' ▸ below)
    · exact .inl (same ▸ below')
    · exact .inr ⟨same.trans same', le.trans le'⟩
  refine ⟨?_, (powers.perm perm).positive⟩
  have different := List.pairwise_map.1 (powers.perm perm).distinct
  rw [sorted_eq_insertionSort] at different ⊢
  refine (List.pairwise_insertionSort _ ps).imp₂ (fun p q before differ => ?_) different
  simp only [nameBefore, decide_eq_true_eq] at before
  exact before.resolve_right fun same => differ same.1

noncomputable def exponents (ps : List (String × Nat)) : String →₀ Nat :=
  (ps.map fun p => Finsupp.single p.1 p.2).sum

theorem exponents_cons (p : String × Nat) (ps : List (String × Nat)) :
    exponents (p :: ps) = Finsupp.single p.1 p.2 + exponents ps := by
  rw [exponents, List.map_cons, List.sum_cons, exponents]

theorem exponents_perm (perm : ps.Perm qs) : exponents ps = exponents qs :=
  (perm.map _).sum_eq

theorem exponents_absent {name : String} (absent : name ∉ ps.map Prod.fst) :
    exponents ps name = 0 := by
  induction ps with
  | nil => rfl
  | cons p rest ih =>
      rw [List.map_cons, List.mem_cons, not_or] at absent
      rw [exponents_cons, Finsupp.add_apply, ih absent.2, Finsupp.single_eq_of_ne absent.1]

theorem Powers.exponents_eq (powers : Powers ps) {p : String × Nat} (member : p ∈ ps) :
    exponents ps p.1 = p.2 := by
  induction ps with
  | nil => cases member
  | cons q rest ih =>
      obtain ⟨new, _, others⟩ := Powers.cons_iff.1 powers
      rw [exponents_cons, Finsupp.add_apply]
      rcases List.mem_cons.1 member with rfl | later
      · rw [exponents_absent new, Finsupp.single_eq_same, add_zero]
      · have differ : p.1 ≠ q.1 := fun same => new (same ▸ List.mem_map_of_mem later)
        rw [ih others later, Finsupp.single_eq_of_ne differ, zero_add]

theorem Powers.mem_iff (powers : Powers ps) {p : String × Nat} :
    p ∈ ps ↔ exponents ps p.1 = p.2 ∧ 1 ≤ p.2 := by
  refine ⟨fun member => ⟨powers.exponents_eq member, powers.positive p member⟩, fun told => ?_⟩
  by_contra missing
  have absent : p.1 ∉ ps.map Prod.fst := by
    intro known
    obtain ⟨q, member, same⟩ := List.mem_map.1 known
    have exponent := powers.exponents_eq member
    rw [same, told.1] at exponent
    exact missing ((Prod.ext same exponent.symm : q = p) ▸ member)
  have zero := exponents_absent absent
  omega

theorem Monomial.eq_of_exponents (left : Monomial ps) (right : Monomial qs)
    (same : exponents ps = exponents qs) : ps = qs := by
  have perm : ps.Perm qs := by
    refine (List.perm_ext_iff_of_nodup (List.Nodup.of_map _ left.powers.distinct)
      (List.Nodup.of_map _ right.powers.distinct)).2 fun p => ?_
    rw [left.powers.mem_iff, right.powers.mem_iff, same]
  exact perm.eq_of_pairwise (fun p q _ _ below above => absurd below above.not_gt) left.ordered
    right.ordered

theorem Powers.mergeFactor {p : String × Nat} (powers : Powers ps) (positive : 1 ≤ p.2) :
    ∃ qs, Form.mergeFactor (symbolPower p) (ps.map symbolPower) = qs.map symbolPower ∧ Powers qs ∧
      exponents qs = Finsupp.single p.1 p.2 + exponents ps ∧
      ∀ name ∈ qs.map Prod.fst, name = p.1 ∨ name ∈ ps.map Prod.fst := by
  induction ps with
  | nil =>
      refine ⟨[p], rfl, ⟨List.nodup_singleton _, fun q member => ?_⟩, exponents_cons p [],
        fun name member => .inl (List.mem_singleton.1 member)⟩
      exact List.mem_singleton.1 member ▸ positive
  | cons q rest ih =>
      obtain ⟨new, first, others⟩ := Powers.cons_iff.1 powers
      simp only [List.map_cons, Form.mergeFactor, basePower_symbolPower]
      split
      next isSame =>
        have same : p.1 = q.1 := Form.symbol.inj (eq_of_same _ _ isSame)
        refine ⟨(q.1, p.2 + q.2) :: rest, by rw [same]; rfl,
          Powers.cons_iff.2 ⟨new, by dsimp only; omega, others⟩, ?_, fun name member => .inr member⟩
        rw [exponents_cons, exponents_cons, same, ← add_assoc, ← Finsupp.single_add]
      next differ =>
        obtain ⟨qs, merged, powersQ, sum, origin⟩ := ih others
        refine ⟨q :: qs, by rw [merged, List.map_cons], Powers.cons_iff.2 ⟨fun known => ?_, first,
          powersQ⟩, ?_, fun name member => ?_⟩
        · rcases origin _ known with same | old
          · exact differ (same_iff.2 (by rw [same]))
          · exact new old
        · rw [exponents_cons, exponents_cons, sum, add_left_comm]
        · rcases List.mem_cons.1 member with rfl | later
          · exact .inr (.head _)
          · exact (origin name later).imp_right (.tail _)

theorem Monomial.mergeFactors (left : Monomial ps) (right : Monomial qs) :
    ∃ product, Monomial product ∧ exponents product = exponents ps + exponents qs ∧
      Form.mergeFactors (ps.map symbolPower) (qs.map symbolPower) = product.map symbolPower := by
  have folded (ps : List (String × Nat)) (positive : ∀ p ∈ ps, 1 ≤ p.2)
      (qs : List (String × Nat)) (powers : Powers qs) : ∃ product, Powers product ∧
        exponents product = exponents ps + exponents qs ∧
        (ps.map symbolPower).foldl (fun collected f => Form.mergeFactor f collected)
          (qs.map symbolPower) = product.map symbolPower := by
    induction ps generalizing qs with
    | nil => exact ⟨qs, powers, (zero_add _).symm, rfl⟩
    | cons p rest ih =>
        obtain ⟨first, others⟩ := List.forall_mem_cons.1 positive
        obtain ⟨merged, isMerged, powersM, sum, _⟩ := powers.mergeFactor first
        obtain ⟨product, powersP, total, isProduct⟩ := ih others merged powersM
        refine ⟨product, powersP, ?_, ?_⟩
        · rw [total, sum, exponents_cons, add_left_comm, add_assoc]
        · rw [List.map_cons, List.foldl_cons, isMerged, isProduct]
  obtain ⟨product, powers, sum, isProduct⟩ := folded ps left.positive qs right.powers
  refine ⟨sorted nameBefore product, powers.sorted, ?_, ?_⟩
  · rw [exponents_perm (sorted_perm nameBefore product), sum]
  · rw [mergeFactors_int, isProduct, sortFactors, sorted_map before_symbolPower]

structure IsTerm (t : Form Int) : Prop where
  nonzero : t.split.1 ≠ 0
  monomial : ∃ ps, Monomial ps ∧ t.split.2 = ps.map symbolPower
  constant : t.split.2 = [] → t = number t.split.1

theorem split_join {c : Int} (nonzero : c ≠ 0) (ps : List (String × Nat)) :
    (join c (ps.map symbolPower)).split = (c, ps.map symbolPower) := by
  have isNonzero : isZeroNumber c = false := by simpa using nonzero
  unfold join
  rw [isNonzero, if_neg Bool.false_ne_true]
  match ps with
  | [] => rfl
  | [p] =>
      rw [List.map_cons, List.map_nil]
      dsimp only
      split
      next isOne =>
        obtain rfl : c = 1 := by simpa using isOne
        rcases symbolPower_cases p with ⟨isSymbol, _⟩ | isPower
        · rw [isSymbol]
          rfl
        · rw [isPower]
          rfl
      next => rfl
  | _ :: _ :: _ => rfl

theorem isTerm_join {c : Int} (nonzero : c ≠ 0) (monomial : Monomial ps) :
    IsTerm (join c (ps.map symbolPower)) := by
  have isSplit := split_join nonzero ps
  refine ⟨by rwa [isSplit], ⟨ps, monomial, by rw [isSplit]⟩, fun empty => ?_⟩
  rw [isSplit] at empty ⊢
  dsimp only at empty ⊢
  rw [empty]
  unfold join
  split <;> rfl

namespace IsTerm

variable {s t : Form Int}

theorem ne_sum (term : IsTerm t) (ts : List (Form Int)) : t ≠ sum ts := by
  rintro rfl
  obtain ⟨ps, _, isMonomial⟩ := term.monomial
  exact map_symbolPower_ne_sum ps ts isMonomial.symm

theorem terms (term : IsTerm t) : t.terms = [t] := by
  match t with
  | number c =>
      have nonzero : c ≠ 0 := term.nonzero
      exact if_neg (by simpa using nonzero)
  | sum ts => exact (term.ne_sum ts rfl).elim
  | symbol _ | unknown _ _ _ | extremum _ _ | inverse _ | power _ _ | product _ _ => rfl

theorem join (term : IsTerm t) {c : Int} (nonzero : c ≠ 0) :
    IsTerm (Form.join c t.split.2) ∧ (Form.join c t.split.2).split = (c, t.split.2) := by
  obtain ⟨ps, monomial, isMonomial⟩ := term.monomial
  rw [isMonomial]
  exact ⟨isTerm_join nonzero monomial, split_join nonzero ps⟩

theorem scaleTerm (term : IsTerm t) {c : Int} (nonzero : c ≠ 0) :
    IsTerm (Form.scaleTerm c t) ∧ (Form.scaleTerm c t).split.2 = t.split.2 := by
  obtain ⟨joined, isSplit⟩ := term.join (mul_ne_zero nonzero term.nonzero)
  have sameFactors := congrArg Prod.snd isSplit
  exact ⟨joined, sameFactors⟩

theorem scale (term : IsTerm t) {c : Int} (nonzero : c ≠ 0) : scale c t = Form.scaleTerm c t := by
  have isNonzero : isZeroNumber c = false := by simpa using nonzero
  unfold Form.scale
  rw [isNonzero, if_neg Bool.false_ne_true]
  split
  next => exact (term.ne_sum _ rfl).elim
  next => rfl

theorem mul (left : IsTerm s) (right : IsTerm t) : IsTerm (s.mul t) := by
  obtain ⟨ps, monomialS, factorsS⟩ := left.monomial
  obtain ⟨qs, monomialT, factorsT⟩ := right.monomial
  simp only [Form.mul]
  split
  next =>
    rw [right.scale left.nonzero]
    exact (right.scaleTerm left.nonzero).1
  next =>
    split
    next =>
      rw [left.scale right.nonzero]
      exact (left.scaleTerm right.nonzero).1
    next =>
      obtain ⟨product, monomial, _, isProduct⟩ := monomialS.mergeFactors monomialT
      have joined := isTerm_join (mul_ne_zero left.nonzero right.nonzero) monomial
      rw [factorsS, factorsT, isProduct, mul_int]
      unfold ofFactors
      split
      next ts isSum => exact (map_symbolPower_ne_sum _ ts isSum).elim
      next => exact joined

end IsTerm

structure Multiples (ts : List (Form Int)) : Prop where
  terms : ∀ t ∈ ts, IsTerm t
  distinct : (ts.map fun t => t.split.2).Nodup

section

variable {t : Form Int} {ts us : List (Form Int)}

namespace Multiples

theorem nil : Multiples [] := ⟨fun _ member => (nomatch member), List.nodup_nil⟩

theorem cons_iff : Multiples (t :: ts) ↔
    IsTerm t ∧ t.split.2 ∉ ts.map (fun t => t.split.2) ∧ Multiples ts :=
  ⟨fun multiples => ⟨multiples.terms t (.head _), (List.nodup_cons.1 multiples.distinct).1,
    fun s member => multiples.terms s (.tail _ member), (List.nodup_cons.1 multiples.distinct).2⟩,
    fun ⟨term, new, multiples⟩ => ⟨List.forall_mem_cons.2 ⟨term, multiples.terms⟩,
      List.nodup_cons.2 ⟨new, multiples.distinct⟩⟩⟩

theorem singleton (term : IsTerm t) : Multiples [t] := cons_iff.2 ⟨term, List.not_mem_nil, nil⟩

theorem perm (multiples : Multiples ts) (perm : ts.Perm us) : Multiples us :=
  ⟨fun t member => multiples.terms t (perm.mem_iff.2 member),
    (perm.map _).nodup_iff.1 multiples.distinct⟩

theorem mergeTerm (term : IsTerm t) (multiples : Multiples ts) :
    Multiples (Form.mergeTerm t ts) ∧ ∀ fs ∈ (Form.mergeTerm t ts).map fun s => s.split.2,
      fs = t.split.2 ∨ fs ∈ ts.map fun s => s.split.2 := by
  induction ts with
  | nil => exact ⟨singleton term, fun fs member => .inl (List.mem_singleton.1 member)⟩
  | cons s rest ih =>
      obtain ⟨first, new, others⟩ := cons_iff.1 multiples
      simp only [Form.mergeTerm, add_int, isZeroNumber_int, beq_iff_eq]
      split
      next =>
        split
        next => exact ⟨others, fun fs member => .inr (.tail _ member)⟩
        next isNonzero =>
          obtain ⟨joined, isSplit⟩ := first.join isNonzero
          have sameFactors := congrArg Prod.snd isSplit
          refine ⟨cons_iff.2 ⟨joined, by rwa [sameFactors], others⟩, fun fs member => .inr ?_⟩
          rwa [List.map_cons, sameFactors] at member
      next differ =>
        obtain ⟨merged, origin⟩ := ih others
        refine ⟨cons_iff.2 ⟨first, fun member => ?_, merged⟩, fun fs member => ?_⟩
        · rcases origin _ member with same | old
          · exact differ (same ▸ allSame_self _)
          · exact new old
        · rcases List.mem_cons.1 member with rfl | later
          · exact .inr (.head _)
          · exact (origin fs later).imp_right (.tail _)

theorem mergeTerms (added : ∀ u ∈ us, IsTerm u) (multiples : Multiples ts) :
    Multiples (us.foldl (fun collected t => Form.mergeTerm t collected) ts) := by
  induction us generalizing ts with
  | nil => exact multiples
  | cons u rest ih =>
      obtain ⟨first, others⟩ := List.forall_mem_cons.1 added
      exact ih others (mergeTerm first multiples).1

theorem terms_ofTerms (multiples : Multiples ts) : (ofTerms ts).terms.Perm ts := by
  match ts with
  | [] => exact .refl _
  | [t] => exact .of_eq (multiples.terms t (.head _)).terms
  | _ :: _ :: _ => exact perm_sortTerms _

end Multiples

end

/-- A sum of multiples of different monomials. -/
def Expanded (f : Form Int) : Prop := Multiples f.terms

theorem IsTerm.expanded {t : Form Int} (term : IsTerm t) : Expanded t := by
  rw [Expanded, term.terms]
  exact .singleton term

theorem Multiples.expanded {ts : List (Form Int)} (multiples : Multiples ts) :
    Expanded (ofTerms ts) :=
  multiples.perm multiples.terms_ofTerms.symm

theorem expanded_number (c : Int) : Expanded (number c) := by
  by_cases isZero : c = 0
  · subst isZero
    exact Multiples.nil
  · exact IsTerm.expanded ⟨isZero, ⟨[], ⟨.nil, fun _ member => nomatch member⟩, rfl⟩, fun _ => rfl⟩

theorem expanded_symbol (name : String) : Expanded (symbol name) :=
  IsTerm.expanded ⟨Int.one_ne_zero, ⟨[(name, 1)], ⟨List.pairwise_singleton _ _, by simp⟩, rfl⟩,
    fun absurd => nomatch absurd⟩

namespace Expanded

variable {f g : Form Int}

theorem cases (expanded : Expanded f) :
    f = number 0 ∨ IsTerm f ∨ ∃ ts, f = sum ts ∧ Multiples ts := by
  match f with
  | sum ts => exact .inr (.inr ⟨ts, rfl, expanded⟩)
  | number c =>
      by_cases isZero : c = 0
      · exact .inl (by rw [isZero])
      · refine .inr (.inl (expanded.terms _ ?_))
        rw [Form.terms, if_neg (by simpa using isZero)]
        exact .head _
  | symbol _ | unknown _ _ _ | extremum _ _ | inverse _ | power _ _ | product _ _ =>
      exact .inr (.inl (expanded.terms _ (.head _)))

theorem add (left : Expanded f) (right : Expanded g) : Expanded (f.add g) := by
  unfold Form.add
  split
  · exact expanded_number _
  · exact (Multiples.mergeTerms right.terms left).expanded

theorem scale (expanded : Expanded f) (c : Int) : Expanded (Form.scale c f) := by
  by_cases isZero : c = 0
  · unfold Form.scale
    rw [if_pos (by simpa using isZero)]
    exact expanded_number 0
  rcases expanded.cases with rfl | term | ⟨ts, rfl, multiples⟩
  · have scaled : Form.scale c (number 0) = number 0 := by
      simp [Form.scale, isZero, scaleTerm, split, join]
    rw [scaled]
    exact expanded_number 0
  · rw [term.scale isZero]
    exact (term.scaleTerm isZero).1.expanded
  · have scaled {t : Form Int} (member : t ∈ ts) := (multiples.terms t member).scaleTerm isZero
    have kept : (ts.map (scaleTerm c)).filter (fun t => !t.terms.isEmpty) = ts.map (scaleTerm c) := by
      refine List.filter_eq_self.2 fun t member => ?_
      obtain ⟨s, inside, rfl⟩ := List.mem_map.1 member
      rw [(scaled inside).1.terms]
      rfl
    unfold Form.scale
    rw [if_neg (by simpa using isZero)]
    dsimp only
    rw [kept]
    refine Multiples.expanded ⟨fun t member => ?_, ?_⟩
    · obtain ⟨s, inside, rfl⟩ := List.mem_map.1 member
      exact (scaled inside).1
    · have sameFactors : (ts.map (scaleTerm c)).map (fun t => t.split.2) =
          ts.map fun t => t.split.2 := by
        rw [List.map_map]
        exact List.map_congr_left fun s inside => (scaled inside).2
      rw [sameFactors]
      exact multiples.distinct

theorem sub (left : Expanded f) (right : Expanded g) : Expanded (f.sub g) := by
  unfold Form.sub
  split
  · exact expanded_number _
  · exact left.add (right.scale (-1))

theorem foldl_add {β : Type} {h : β → Form Int} {bs : List β} {total : Form Int}
    (start : Expanded total) (each : ∀ b ∈ bs, Expanded (h b)) :
    Expanded (bs.foldl (fun total b => total.add (h b)) total) := by
  induction bs generalizing total with
  | nil => exact start
  | cons b rest ih =>
      obtain ⟨first, others⟩ := List.forall_mem_cons.1 each
      exact ih (start.add first) others

theorem distribute (left : Expanded f) (right : Expanded g) : Expanded (distribute f g) := by
  have rows (ts : List (Form Int)) (each : ∀ t ∈ ts, IsTerm t) (total : Form Int)
      (start : Expanded total) :
      Expanded (ts.foldl (fun total s =>
        g.terms.foldl (fun total t => total.add (s.mul t)) total) total) := by
    induction ts generalizing total with
    | nil => exact start
    | cons s rest ih =>
        obtain ⟨first, others⟩ := List.forall_mem_cons.1 each
        exact ih others _ (start.foldl_add fun t member => (first.mul (right.terms t member)).expanded)
  exact rows f.terms left.terms _ (expanded_number 0)

theorem distributePower (expanded : Expanded f) (e : Nat) : Expanded (distributePower f e) := by
  induction e with
  | zero => exact expanded_number 1
  | succ e ih => exact ih.distribute expanded

end Expanded

def Symbolic (f : Form Int) : Prop :=
  Composed ⟨fun _ => True, fun _ => False, False⟩ (fun _ => False) f

mutual

theorem expanded_expand {f : Form Int} (symbolic : Symbolic f) : Expanded (expand f) := by
  match f with
  | number c => exact expanded_number c
  | symbol name => exact expanded_symbol name
  | unknown _ _ _ => exact (composed_unknown.1 symbolic).elim
  | extremum _ _ =>
      obtain ⟨_, _, admits, _⟩ := composed_extremum.1 symbolic
      exact admits.pure.elim
  | inverse _ => exact (not_composed_inverse symbolic).elim
  | power base e =>
      have inside := (composed_power.1 symbolic).1
      have expanded := (expanded_expand inside).distributePower e
      cases base with
      | inverse _ => exact (not_composed_inverse inside).elim
      | _ => exact expanded
  | product c factors =>
      exact (expanded_expandProduct (composed_product.1 symbolic).1).scale c
  | sum ts => exact expanded_expandSum (composed_sum.1 symbolic)

theorem expanded_expandProduct {fs : List (Form Int)} (symbolic : ∀ f ∈ fs, Symbolic f) :
    Expanded (expandProduct fs) := by
  match fs with
  | [] => exact expanded_number 1
  | f :: rest =>
      obtain ⟨first, others⟩ := List.forall_mem_cons.1 symbolic
      exact (expanded_expand first).distribute (expanded_expandProduct others)

theorem expanded_expandSum {ts : List (Form Int)} (symbolic : ∀ t ∈ ts, Symbolic t) :
    Expanded (expandSum ts) := by
  match ts with
  | [] => exact expanded_number 0
  | t :: rest =>
      obtain ⟨first, others⟩ := List.forall_mem_cons.1 symbolic
      exact (expanded_expand first).add (expanded_expandSum others)

end

section

variable {f t : Form Int} {name : String}

theorem Expanded.isIntegerPolynomial (expanded : Expanded f) : f.isIntegerPolynomial = true := by
  refine List.all_eq_true.2 fun t member => Bool.and_eq_true_iff.2 ⟨rfl, ?_⟩
  obtain ⟨ps, _, factors⟩ := (expanded.terms t member).monomial
  refine List.all_eq_true.2 fun g factor => ?_
  rw [factors] at factor
  obtain ⟨p, _, rfl⟩ := List.mem_map.1 factor
  rw [basePower_symbolPower]

theorem hides_symbolPower (name : String) (p : String × Nat) :
    (symbolPower p).hides name = false := by
  rcases symbolPower_cases p with ⟨isSymbol, _⟩ | isPower
  · rw [isSymbol]
    rfl
  · rw [isPower]
    rfl

theorem anyHides_eq_false_of {fs : List (Form Int)} (shown : ∀ f ∈ fs, f.hides name = false) :
    anyHides name fs = false := by
  induction fs with
  | nil => rfl
  | cons f rest ih =>
      obtain ⟨first, others⟩ := List.forall_mem_cons.1 shown
      rw [anyHides, first, ih others, Bool.or_false]

theorem IsTerm.hides (term : IsTerm t) (name : String) : t.hides name = false := by
  obtain ⟨ps, _, factors⟩ := term.monomial
  have shown : ∀ g ∈ t.split.2, g.hides name = false := by
    intro g member
    rw [factors] at member
    obtain ⟨p, _, rfl⟩ := List.mem_map.1 member
    exact hides_symbolPower name p
  match t with
  | number _ | symbol _ | unknown _ _ _ => rfl
  | product c fs => exact anyHides_eq_false_of shown
  | extremum _ _ | inverse _ | power _ _ | sum _ => exact shown _ (.head _)

theorem Expanded.hides (expanded : Expanded f) (name : String) : f.hides name = false := by
  rcases expanded.cases with rfl | term | ⟨ts, rfl, multiples⟩
  · rfl
  · exact term.hides name
  · exact anyHides_eq_false_of fun t member => (multiples.terms t member).hides name

end

end ReverseMode.Form
