import Mathlib.Algebra.MvPolynomial.Funext
import Mathlib.Algebra.MvPolynomial.Variables
import Mathlib.Data.Finsupp.Interval
import ReverseMode.Proofs.Algebra.Expanded
import ReverseMode.Proofs.Algebra.Root

namespace ReverseMode.Form

open MvPolynomial

variable {f g t : Form Int} {ts : List (Form Int)} {P Q : MvPolynomial String Int}

def Denotes (f : Form Int) (P : MvPolynomial String Int) : Prop :=
  ∀ names : String → Int, value names f = eval names P

namespace Denotes

theorem unique (first : Denotes f P) (second : Denotes f Q) : P = Q :=
  MvPolynomial.funext fun names => (first names).symm.trans (second names)

theorem number (c : Int) : Denotes (number c) (C c) := fun names => by simp

theorem symbol (name : String) : Denotes (symbol name) (X name) := fun names => by simp

theorem add (left : Denotes f P) (right : Denotes g Q) : Denotes (f.add g) (P + Q) :=
  fun names => by rw [value_add, left, right, map_add]

theorem sub (left : Denotes f P) (right : Denotes g Q) : Denotes (f.sub g) (P - Q) :=
  fun names => by rw [value_sub, left, right, map_sub]

theorem mul (left : Denotes f P) (right : Denotes g Q) : Denotes (f.mul g) (P * Q) :=
  fun names => by rw [value_mul, left, right, map_mul]

theorem neg (denotes : Denotes f P) : Denotes f.neg (-P) :=
  fun names => by rw [value_neg, denotes, map_neg]

theorem eq_zero (denotes : Denotes f P) (empty : f.terms = []) : P = 0 :=
  denotes.unique fun names => by rw [value_eq_zero_of_terms empty, map_zero]

end Denotes

noncomputable def degrees (t : Form Int) : String →₀ Nat :=
  (t.split.2.map fun g =>
    match g.basePower.1 with
    | symbol name => Finsupp.single name g.basePower.2
    | _ => 0).sum

theorem degrees_monomial {ps : List (String × Nat)} (isMonomial : t.split.2 = ps.map symbolPower) :
    degrees t = exponents ps := by
  rw [degrees, isMonomial, List.map_map, exponents]
  exact congrArg List.sum (List.map_congr_left fun p _ => by simp)

theorem IsTerm.factors_eq {s t : Form Int} (left : IsTerm s) (right : IsTerm t)
    (same : degrees s = degrees t) : s.split.2 = t.split.2 := by
  obtain ⟨ps, monomialS, factorsS⟩ := left.monomial
  obtain ⟨qs, monomialT, factorsT⟩ := right.monomial
  rw [degrees_monomial factorsS, degrees_monomial factorsT] at same
  rw [factorsS, factorsT, monomialS.eq_of_exponents monomialT same]

theorem prod_exponents (names : String → Int) (ps : List (String × Nat)) :
    ((ps.map symbolPower).map (value names)).prod =
      (exponents ps).prod fun name e => names name ^ e := by
  induction ps with
  | nil => simp [exponents]
  | cons p rest ih =>
      have first : ((Finsupp.single p.1 p.2).prod fun name e => names name ^ e) = names p.1 ^ p.2 :=
        Finsupp.prod_single_index (pow_zero _)
      rw [exponents_cons, Finsupp.prod_add_index' (fun _ => pow_zero _) fun _ _ _ => pow_add _ _ _,
        first, ← ih]
      simp [symbolPower]

noncomputable def termPolynomial (t : Form Int) : MvPolynomial String Int :=
  monomial (degrees t) t.split.1

theorem IsTerm.denotes (term : IsTerm t) : Denotes t (termPolynomial t) := by
  intro names
  obtain ⟨ps, _, factors⟩ := term.monomial
  rw [value_split, factors, prod_exponents, termPolynomial, eval_monomial,
    degrees_monomial factors]

theorem denotes_terms (terms : ∀ t ∈ f.terms, IsTerm t) :
    Denotes f (f.terms.map termPolynomial).sum := by
  intro names
  rw [← value_terms, map_list_sum, List.map_map]
  exact congrArg List.sum (List.map_congr_left fun t member => (terms t member).denotes names)

theorem Multiples.coeff (multiples : Multiples ts) (m : String →₀ Nat) :
    (∀ t ∈ ts, degrees t = m → MvPolynomial.coeff m (ts.map termPolynomial).sum = t.split.1) ∧
      ((∀ t ∈ ts, degrees t ≠ m) → MvPolynomial.coeff m (ts.map termPolynomial).sum = 0) := by
  induction ts with
  | nil => exact ⟨fun t member => (nomatch member), fun _ => rfl⟩
  | cons s rest ih =>
      obtain ⟨term, new, others⟩ := cons_iff.1 multiples
      obtain ⟨present, absent⟩ := ih others
      rw [List.map_cons, List.sum_cons, MvPolynomial.coeff_add, termPolynomial, coeff_monomial]
      refine ⟨fun t member isDegrees => ?_, fun none => ?_⟩
      · rcases List.mem_cons.1 member with rfl | later
        · rw [if_pos isDegrees, absent fun u inside same => ?_, add_zero]
          have sameFactors := (others.terms u inside).factors_eq term (same.trans isDegrees.symm)
          exact new (List.mem_map.2 ⟨u, inside, sameFactors⟩)
        · have differ : degrees s ≠ m := fun same => new (List.mem_map.2 ⟨t, later,
            (others.terms t later).factors_eq term (isDegrees.trans same.symm)⟩)
          rw [if_neg differ, zero_add, present t later isDegrees]
      · obtain ⟨first, rest⟩ := List.forall_mem_cons.1 none
        rw [if_neg first, absent rest, zero_add]

theorem Expanded.nodup_degrees (expanded : Expanded f) : (f.terms.map degrees).Nodup := by
  have distinct : (f.terms.map fun t => t.split.2).Nodup := expanded.distinct
  refine List.Nodup.map_on (fun s inS t inT same => ?_) (List.Nodup.of_map _ distinct)
  exact List.inj_on_of_nodup_map distinct inS inT
    ((expanded.terms s inS).factors_eq (expanded.terms t inT) same)

namespace Expanded

variable (expanded : Expanded f) (denotes : Denotes f P)

include expanded denotes

theorem coeff_term (member : t ∈ f.terms) : MvPolynomial.coeff (degrees t) P = t.split.1 := by
  rw [denotes.unique (denotes_terms expanded.terms)]
  exact (Multiples.coeff expanded _).1 t member rfl

theorem mem_support (m : String →₀ Nat) : m ∈ P.support ↔ ∃ t ∈ f.terms, degrees t = m := by
  rw [mem_support_iff]
  constructor
  · intro occurs
    by_contra none
    refine occurs ?_
    rw [denotes.unique (denotes_terms expanded.terms)]
    exact (Multiples.coeff expanded m).2 fun t member same => none ⟨t, member, same⟩
  · rintro ⟨t, member, rfl⟩
    rw [expanded.coeff_term denotes member]
    exact (expanded.terms t member).nonzero

theorem length_terms : f.terms.length = P.support.card := by
  classical
  have isSupport : P.support = (f.terms.map degrees).toFinset := by
    ext m
    rw [expanded.mem_support denotes, List.mem_toFinset, List.mem_map]
  rw [isSupport, List.toFinset_card_of_nodup expanded.nodup_degrees, List.length_map]

end Expanded

theorem exponents_erase (name : String) (ps : List (String × Nat)) :
    exponents (ps.filter fun p => !(p.1 == name)) = (exponents ps).erase name := by
  induction ps with
  | nil => simp [exponents]
  | cons p rest ih =>
      rw [exponents_cons, Finsupp.erase_add, ← ih]
      by_cases same : p.1 = name
      · rw [List.filter_cons_of_neg (by simpa using same), same, Finsupp.erase_single, zero_add]
      · rw [List.filter_cons_of_pos (by simpa using same), exponents_cons,
          Finsupp.erase_single_ne (Ne.symm same)]

theorem separate_term (term : IsTerm t) (name : String) :
    (separate name t).1 = degrees t name ∧ IsTerm (separate name t).2 ∧
      degrees (separate name t).2 = (degrees t).erase name ∧
        (separate name t).2.split.1 = t.split.1 := by
  obtain ⟨ps, monomial, factors⟩ := term.monomial
  rw [degrees_monomial factors]
  unfold separate
  dsimp only
  rw [factors, List.find?_map, List.filter_map]
  simp only [Function.comp_def, basePower_symbolPower]
  cases found : ps.find? fun p => p.1 == name with
  | none =>
      have absent : name ∉ ps.map Prod.fst := by
        intro known
        obtain ⟨p, member, same⟩ := List.mem_map.1 known
        exact List.find?_eq_none.1 found p member (beq_iff_eq.2 same)
      rw [Option.map_none]
      refine ⟨(exponents_absent absent).symm, term, ?_, rfl⟩
      dsimp only
      rw [degrees_monomial factors, Finsupp.erase_of_notMem_support]
      simpa using exponents_absent absent
  | some p =>
      have inside := List.mem_of_find?_eq_some found
      obtain rfl : p.1 = name := by simpa using List.find?_some found
      have rest : Monomial (ps.filter fun q => !(q.1 == p.1)) :=
        ⟨monomial.ordered.filter _, fun q member => monomial.positive q (List.mem_filter.1 member).1⟩
      have isSplit := split_join term.nonzero (ps.filter fun q => !(q.1 == p.1))
      rw [Option.map_some]
      dsimp only
      refine ⟨?_, isTerm_join term.nonzero rest, ?_, by rw [isSplit]⟩
      · rw [basePower_symbolPower, monomial.powers.exponents_eq inside]
      · rw [degrees_monomial (by rw [isSplit]), exponents_erase]

def IsCoefficient (name : String) (k : Nat) (P Q : MvPolynomial String Int) : Prop :=
  ∀ m, coeff m Q = if m name = 0 then coeff (m + Finsupp.single name k) P else 0

theorem erase_eq_iff {name : String} {m n : String →₀ Nat} (free : m name = 0) :
    n.erase name = m ↔ n = m + Finsupp.single name (n name) := by
  constructor
  · intro erased
    rw [← erased, Finsupp.erase_add_single]
  · intro sum
    rw [sum, Finsupp.erase_add, Finsupp.erase_single, add_zero,
      Finsupp.erase_of_notMem_support (by simpa using free)]

theorem coeff_separated {name : String} {k : Nat} (terms : ∀ t ∈ ts, IsTerm t) :
    IsCoefficient name k (ts.map termPolynomial).sum
      ((ts.filter fun t => (separate name t).1 = k).map fun t =>
        termPolynomial (separate name t).2).sum := by
  intro m
  induction ts with
  | nil => simp
  | cons t rest ih =>
      obtain ⟨first, others⟩ := List.forall_mem_cons.1 terms
      obtain ⟨isDegree, _, degreesRest, coefficient⟩ := separate_term first name
      have step := ih others
      rw [List.map_cons, List.sum_cons, MvPolynomial.coeff_add, termPolynomial, coeff_monomial]
      by_cases same : degrees t name = k
      · rw [List.filter_cons_of_pos (by simpa [isDegree] using same), List.map_cons, List.sum_cons,
          MvPolynomial.coeff_add, step, termPolynomial, coeff_monomial, degreesRest, coefficient]
        by_cases free : m name = 0
        · simp only [if_pos free, erase_eq_iff free, same]
        · have differ : (degrees t).erase name ≠ m := by
            rintro rfl
            exact free Finsupp.erase_same
          rw [if_neg free, if_neg free, if_neg differ, add_zero]
      · rw [List.filter_cons_of_neg (by simpa [isDegree] using same), step]
        split
        next free =>
          have differ : degrees t ≠ m + Finsupp.single name k := by
            intro sum
            refine same ?_
            rw [sum, Finsupp.add_apply, free, Finsupp.single_eq_same, zero_add]
          rw [if_neg differ, zero_add]
        next => rfl

/-- The coefficients that are collected are those of the polynomial, constant first. -/
structure Coefficients (name : String) (P : MvPolynomial String Int) (cs : List (Form Int)) :
    Prop where
  nonempty : cs ≠ []
  each : ∀ k c, cs[k]? = some c → Expanded c ∧ ∃ Q, Denotes c Q ∧ IsCoefficient name k P Q
  degree : ∀ m, cs.length ≤ m name → coeff m P = 0

theorem coefficientsIn_sound (expanded : Expanded f) (denotes : Denotes f P) (name : String) :
    Coefficients name P (coefficientsIn name f) := by
  obtain rfl := denotes.unique (denotes_terms expanded.terms)
  refine ⟨by simp [coefficientsIn], fun k c found => ?_, fun m high => ?_⟩
  · simp only [coefficientsIn, List.getElem?_map, Option.map_eq_some_iff] at found
    obtain ⟨i, known, rfl⟩ := found
    obtain ⟨inside, isIndex⟩ := List.getElem?_eq_some_iff.1 known
    rw [List.getElem_range] at isIndex
    subst isIndex
    rw [List.filter_map, List.map_map, List.foldl_map]
    have terms (t : Form Int) (member : t ∈ f.terms.filter
        ((fun part => decide (part.1 = k)) ∘ separate name)) : IsTerm (separate name t).2 :=
      (separate_term (expanded.terms t (List.mem_filter.1 member).1) name).2.1
    refine ⟨Expanded.foldl_add (h := fun t => (separate name t).2) (expanded_number 0)
      fun t member => (terms t member).expanded, _, fun names => ?_, coeff_separated expanded.terms⟩
    refine (value_foldl_add (fun t => (separate name t).2) _ _).trans ?_
    rw [map_list_sum, List.map_map, value_ofInt, zero_add]
    exact congrArg List.sum (List.map_congr_left fun t member => (terms t member).denotes names)
  · by_contra occurs
    obtain ⟨t, member, rfl⟩ := (expanded.mem_support denotes m).1 (mem_support_iff.2 occurs)
    have bounded := le_foldl_max (g := Prod.fst) (List.mem_map_of_mem (f := separate name) member)
    rw [(separate_term (expanded.terms t member) name).1] at bounded
    simp only [coefficientsIn, List.length_map, List.length_range] at high
    omega

theorem IsTerm.eq_number (term : IsTerm t) (free : degrees t = 0) : t = number t.split.1 := by
  obtain ⟨ps, monomial, factors⟩ := term.monomial
  have none : Monomial [] := ⟨.nil, fun _ member => nomatch member⟩
  refine term.constant ?_
  rw [factors, monomial.eq_of_exponents none (by rw [← degrees_monomial factors, free]; rfl),
    List.map_nil]

theorem coeff_of_notMem_vars {name : String} (free : name ∉ P.vars) {m : String →₀ Nat}
    (occurs : m name ≠ 0) : coeff m P = 0 := by
  by_contra nonzero
  exact free ((mem_vars_iff_mem_support name).2
    ⟨m, mem_support_iff.2 nonzero, Finsupp.mem_support_iff.2 occurs⟩)

theorem notMem_vars {name : String} (free : ∀ m, m name ≠ 0 → coeff m P = 0) : name ∉ P.vars := by
  rw [mem_vars_iff_mem_support]
  rintro ⟨m, occurs, inside⟩
  exact mem_support_iff.1 occurs (free m (Finsupp.mem_support_iff.1 inside))

theorem coefficientsIn_linear {name : String} {a : Int} (expanded : Expanded f)
    (denotes : Denotes f (C a * X name + Q)) (nonzero : a ≠ 0) (free : name ∉ Q.vars) :
    ∃ b, coefficientsIn name f = [b, number a] := by
  have occurs (m : String →₀ Nat) (inside : m name ≠ 0) :
      coeff m (C a * X name + Q) = if Finsupp.single name 1 = m then a else 0 := by
    rw [MvPolynomial.coeff_add, coeff_C_mul, coeff_X, coeff_of_notMem_vars free inside]
    simp
  have once : (Finsupp.single name 1 : String →₀ Nat) name = 1 := Finsupp.single_eq_same
  obtain ⟨t, member, isOnce⟩ := (expanded.mem_support denotes (Finsupp.single name 1)).1
    (by rw [mem_support_iff, occurs _ (by rw [once]; decide), if_pos rfl]; exact nonzero)
  have only {s : Form Int} (inside : s ∈ f.terms) (positive : degrees s name ≠ 0) : s = t := by
    have coefficient := expanded.coeff_term denotes inside
    have same : Finsupp.single name 1 = degrees s := by
      by_contra differ
      rw [occurs _ positive, if_neg differ] at coefficient
      exact (expanded.terms s inside).nonzero coefficient.symm
    exact List.inj_on_of_nodup_map expanded.nodup_degrees inside member (same.symm.trans isOnce.symm)
  have isDegree {s : Form Int} (inside : s ∈ f.terms) :=
    (separate_term (expanded.terms s inside) name).1
  have degree : (f.terms.map (separate name)).foldl (fun d part => max d part.1) 0 = 1 := by
    refine le_antisymm (foldl_max_le_iff.2 ⟨zero_le_one, fun part known => ?_⟩) ?_
    · obtain ⟨s, inside, rfl⟩ := List.mem_map.1 known
      rw [isDegree inside]
      by_contra high
      rw [only inside (by omega), isOnce, once] at high
      exact high le_rfl
    · have bounded := le_foldl_max (g := Prod.fst) (List.mem_map_of_mem (f := separate name) member)
      rwa [isDegree member, isOnce, once] at bounded
  have chosen : f.terms.filter ((fun part => decide (part.1 = 1)) ∘ separate name) = [t] := by
    refine List.perm_singleton.1 ((List.perm_ext_iff_of_nodup
      ((List.Nodup.of_map _ expanded.nodup_degrees).filter _) (List.nodup_singleton t)).2 fun s => ?_)
    rw [List.mem_filter, List.mem_singleton, Function.comp_apply, decide_eq_true_eq]
    constructor
    · rintro ⟨inside, isOne⟩
      rw [isDegree inside] at isOne
      exact only inside (by omega)
    · rintro rfl
      exact ⟨member, by rw [isDegree member, isOnce, once]⟩
  obtain ⟨_, rest, degreesRest, coefficient⟩ := separate_term (expanded.terms t member) name
  have isNumber : (separate name t).2 = number a := by
    rw [rest.eq_number (by rw [degreesRest, isOnce, Finsupp.erase_single]), coefficient,
      ← expanded.coeff_term denotes member, isOnce, occurs _ (by rw [once]; decide), if_pos rfl]
  refine ⟨(((f.terms.map (separate name)).filter fun part => part.1 = 0).map
    fun part => part.2).foldl add (ofInt 0), ?_⟩
  unfold coefficientsIn
  dsimp only
  rw [degree]
  change [_, (((f.terms.map (separate name)).filter fun part => part.1 = 1).map
    fun part => part.2).foldl add (ofInt 0)] = _
  rw [List.filter_map, chosen, List.map_singleton, List.map_singleton, isNumber]
  simp [ofInt, add]

theorem IsTerm.written (term : IsTerm t) :
    IsTerm (if t.split.2.isEmpty then number t.split.1 else product t.split.1 t.split.2) ∧
      (if t.split.2.isEmpty then number t.split.1 else product t.split.1 t.split.2).split = t.split := by
  split
  next empty =>
    have none := List.isEmpty_iff.1 empty
    exact ⟨term.constant none ▸ term, Prod.ext rfl none.symm⟩
  next nonempty =>
    exact ⟨⟨term.nonzero, term.monomial, fun empty => (nonempty (List.isEmpty_iff.2 empty)).elim⟩, rfl⟩

theorem Expanded.mapCoefficients (expanded : Expanded f) (denotes : Denotes f P) :
    Expanded (f.mapCoefficients fun n => n) ∧ Denotes (f.mapCoefficients fun n => n) P := by
  rcases expanded.cases with rfl | term | ⟨ts, rfl, multiples⟩
  · exact ⟨expanded_number 0, denotes⟩
  · have single : f.mapCoefficients (fun n => n) =
        if f.split.2.isEmpty then number f.split.1 else product f.split.1 f.split.2 := by
      cases f with
      | sum ts => exact (term.ne_sum ts rfl).elim
      | _ => rfl
    obtain ⟨isTerm, isSplit⟩ := term.written
    rw [single]
    refine ⟨isTerm.expanded, fun names => ?_⟩
    rw [value_split, isSplit, ← value_split, denotes]
  · have each {t : Form Int} (member : t ∈ ts) := (multiples.terms t member).written
    refine ⟨⟨fun t member => ?_, ?_⟩, fun names => ?_⟩
    · obtain ⟨s, inside, rfl⟩ := List.mem_map.1 member
      exact (each inside).1
    · have sameFactors : ((sum ts).mapCoefficients fun n => n).terms.map (fun t => t.split.2) =
          ts.map fun t => t.split.2 := by
        refine List.map_map.trans (List.map_congr_left fun t member => ?_)
        exact congrArg Prod.snd (each member).2
      rw [sameFactors]
      exact multiples.distinct
    · rw [← denotes names, value_sum]
      refine (value_sum _).trans (congrArg List.sum ?_)
      refine List.map_map.trans (List.map_congr_left fun t member => ?_)
      have isSplit := (each member).2
      refine (value_split _).trans ?_
      dsimp only
      rw [isSplit, ← value_split]

theorem denotes_of_isIntegerPolynomial (polynomial : f.isIntegerPolynomial = true) :
    ∃ R, Denotes f R := by
  refine ⟨(f.terms.map fun t => C t.split.1 * (t.split.2.map fun g =>
    match g.basePower.1 with
    | symbol name => (X name ^ g.basePower.2 : MvPolynomial String Int)
    | _ => 0).prod).sum, fun names => ?_⟩
  rw [← value_terms, map_list_sum, List.map_map]
  refine congrArg List.sum (List.map_congr_left fun t member => ?_)
  rw [value_split, Function.comp_apply, map_mul, eval_C, map_list_prod, List.map_map]
  refine congrArg (_ * List.prod ·) (List.map_congr_left fun g factor => ?_)
  obtain ⟨name, isSymbol⟩ := isIntegerPolynomial_plain polynomial t member g factor
  rw [value_basePower, Function.comp_apply, isSymbol, value_symbol, map_pow, eval_X]

theorem Expanded.composed (expanded : Expanded f) (denotes : Denotes f P) :
    Composed ⟨(· ∈ P.vars), fun _ => False, False⟩ (fun _ => False) f := by
  have factors {t : Form Int} (member : t ∈ f.terms) : ∀ g ∈ t.split.2,
      Composed ⟨(· ∈ P.vars), fun _ => False, False⟩ (fun _ => False) g := by
    intro g factor
    obtain ⟨ps, monomial, isMonomial⟩ := (expanded.terms t member).monomial
    rw [isMonomial] at factor
    obtain ⟨p, inside, rfl⟩ := List.mem_map.1 factor
    have positive := monomial.positive p inside
    have occurs : degrees t p.1 ≠ 0 := by
      rw [degrees_monomial isMonomial, monomial.powers.exponents_eq inside]
      omega
    have known : p.1 ∈ P.vars := (mem_vars_iff_mem_support p.1).2 ⟨degrees t,
      (expanded.mem_support denotes _).2 ⟨t, member, rfl⟩, Finsupp.mem_support_iff.2 occurs⟩
    exact (composed_symbol.2 known).ofPower positive fun _ => rfl
  have each (t : Form Int) (member : t ∈ f.terms) :
      Composed ⟨(· ∈ P.vars), fun _ => False, False⟩ (fun _ => False) t := by
    have parts := factors member
    match t with
    | number c => exact composed_number c
    | product c fs => exact composed_product.2 ⟨parts, False.elim⟩
    | symbol _ | unknown _ _ _ | extremum _ _ | inverse _ | power _ _ | sum _ =>
        exact parts _ (.head _)
  match f with
  | number c => exact composed_number c
  | sum ts => exact composed_sum.2 each
  | symbol _ | unknown _ _ _ | extremum _ _ | inverse _ | power _ _ | product _ _ =>
      exact each _ (.head _)

end ReverseMode.Form
