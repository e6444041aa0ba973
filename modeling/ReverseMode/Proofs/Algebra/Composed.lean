import Mathlib.Data.List.Nodup
import ReverseMode.Proofs.Algebra.Extremum

/-!
# Composed forms

A form is composed of given symbols and unknowns if inverses occur nowhere in it and at most one
argument of an extremum has extrema of the other kind in it, inside which there are no others. It is
collected if, moreover, the factors of each product are powers of different bases. Arithmetic keeps forms
composed and collected.
-/

namespace ReverseMode.Form

/-- What forms are composed of, and whether their products are collected. -/
structure Composition where
  symbol : String → Prop
  unknown : Nat → Prop
  collected : Prop

namespace Composition

def loose (D : Composition) : Composition := { D with collected := False }

structure Within (D D' : Composition) : Prop where
  symbol : ∀ name, D.symbol name → D'.symbol name
  unknown : ∀ rank, D.unknown rank → D'.unknown rank
  collected : D'.collected → D.collected

theorem Within.loose {D D' : Composition} (within : D.Within D') : D.loose.Within D'.loose :=
  ⟨within.symbol, within.unknown, id⟩

theorem within_loose (D : Composition) : D.Within D.loose :=
  ⟨fun _ known => known, fun _ known => known, False.elim⟩

end Composition

/-- An extremum by its kind, and whether extrema of the other kind stand in one of its arguments. -/
structure Nest where
  greatest : Bool
  mixed : Bool

namespace Nest

def Pure (greatest : Bool) (nest : Nest) : Prop := nest = ⟨greatest, false⟩

/-- All extrema but those of the other kind in which extrema of this kind stand. -/
def Mixed (greatest : Bool) (nest : Nest) : Prop := nest ≠ ⟨!greatest, true⟩

/-- Whatever becomes of an extremum is among the given ones. -/
def Admits (K : Nest → Prop) (greatest : Bool) : (mixed : Bool) → Prop
  | false => K ⟨greatest, false⟩
  | true => ∀ nest, Mixed greatest nest → K nest

variable {K K' : Nest → Prop} {greatest mixed : Bool}

theorem mixed_own (greatest mixed : Bool) : Mixed greatest ⟨greatest, mixed⟩ := by
  cases greatest <;> simp [Mixed]

theorem Admits.mono (admits : Admits K greatest mixed) (kinds : ∀ nest, K nest → K' nest) :
    Admits K' greatest mixed := by
  cases mixed with
  | false => exact kinds _ admits
  | true => exact fun nest isMixed => kinds nest (admits nest isMixed)

theorem Admits.pure (admits : Admits K greatest mixed) : K ⟨greatest, false⟩ := by
  cases mixed with
  | false => exact admits
  | true => exact admits _ (mixed_own greatest false)

theorem admits_pure {kind : Bool} (admits : Admits (Pure greatest) kind mixed) :
    kind = greatest ∧ mixed = false := by
  cases mixed with
  | false => exact ⟨congrArg Nest.greatest admits, rfl⟩
  | true => cases congrArg Nest.mixed (admits _ (mixed_own kind true))

theorem admits_other (admits : Admits (Mixed greatest) (!greatest) mixed) : mixed = false := by
  cases mixed with
  | false => rfl
  | true => exact absurd rfl (admits _ (mixed_own (!greatest) true))

end Nest

open Nest

def isPower (f : Form Int) : Bool :=
  match f with
  | power _ _ => true
  | _ => false

def isKind (greatest : Bool) : Form Int → Bool
  | extremum kind _ => kind == greatest
  | _ => false

def powerBases (fs : List (Form Int)) : List (Form Int) := fs.map fun f => f.basePower.1

mutual

/-- Composed of the parts of `D`, with extrema that are in `K`. -/
def Composed (D : Composition) (K : Nest → Prop) : Form Int → Prop
  | number _ => True
  | symbol name => D.symbol name
  | unknown _ rank _ => D.unknown rank
  | extremum greatest args =>
      Settled args ∧ ∃ guest : Option (Form Int), Admits K greatest guest.isSome ∧
        AllSeated D greatest guest args
  | inverse _ => False
  | power base e => Composed D K base ∧ 2 ≤ e ∧ (D.collected → base.isPower = false)
  | product _ factors => AllComposed D K factors ∧ (D.collected → (powerBases factors).Nodup)
  | sum ts => AllComposed D K ts

def AllComposed (D : Composition) (K : Nest → Prop) : List (Form Int) → Prop
  | [] => True
  | f :: rest => Composed D K f ∧ AllComposed D K rest

def AllSeated (D : Composition) (greatest : Bool) (guest : Option (Form Int)) :
    List (Form Int) → Prop
  | [] => True
  | f :: rest =>
      (f.isExtremum = false ∧ Composed D.loose (Pure greatest) f ∨
        guest = some f ∧ f.isKind greatest = false ∧ Composed D.loose (Mixed greatest) f) ∧
      AllSeated D greatest guest rest

end

def Seated (D : Composition) (greatest : Bool) (guest : Option (Form Int)) (f : Form Int) : Prop :=
  f.isExtremum = false ∧ Composed D.loose (Pure greatest) f ∨
    guest = some f ∧ f.isKind greatest = false ∧ Composed D.loose (Mixed greatest) f

variable {D : Composition} {K : Nest → Prop}

theorem Seated.plain {greatest : Bool} {f : Form Int} (seated : Seated D greatest none f) :
    f.isExtremum = false ∧ Composed D.loose (Pure greatest) f := by
  rcases seated with own | ⟨isGuest, _⟩
  · exact own
  · cases isGuest

theorem allComposed_iff {fs : List (Form Int)} :
    AllComposed D K fs ↔ ∀ f ∈ fs, Composed D K f := by
  induction fs with
  | nil => simp [AllComposed]
  | cons f rest ih => rw [AllComposed, ih, List.forall_mem_cons]

theorem allSeated_iff {greatest : Bool} {guest : Option (Form Int)} {fs : List (Form Int)} :
    AllSeated D greatest guest fs ↔ ∀ f ∈ fs, Seated D greatest guest f := by
  induction fs with
  | nil => simp [AllSeated]
  | cons f rest ih =>
      rw [AllSeated, ih, List.forall_mem_cons]
      exact Iff.rfl

theorem composed_number (c : Int) : Composed D K (number c) := trivial

theorem composed_symbol {name : String} : Composed D K (symbol name) ↔ D.symbol name := Iff.rfl

theorem composed_unknown {kind : String} {rank : Nat} {whole : Bool} :
    Composed D K (unknown kind rank whole) ↔ D.unknown rank := Iff.rfl

theorem composed_extremum {greatest : Bool} {args : List (Form Int)} :
    Composed D K (extremum greatest args) ↔ Settled args ∧ ∃ guest : Option (Form Int),
      Admits K greatest guest.isSome ∧ ∀ f ∈ args, Seated D greatest guest f := by
  simp only [← allSeated_iff]
  exact Iff.rfl

theorem not_composed_inverse {base : Form Int} : ¬ Composed D K (inverse base) := id

theorem composed_power {base : Form Int} {e : Nat} :
    Composed D K (power base e) ↔
      Composed D K base ∧ 2 ≤ e ∧ (D.collected → base.isPower = false) := Iff.rfl

theorem composed_product {c : Int} {fs : List (Form Int)} :
    Composed D K (product c fs) ↔
      (∀ f ∈ fs, Composed D K f) ∧ (D.collected → (powerBases fs).Nodup) := by
  rw [← allComposed_iff]
  exact Iff.rfl

theorem composed_sum {ts : List (Form Int)} :
    Composed D K (sum ts) ↔ ∀ t ∈ ts, Composed D K t := by
  rw [← allComposed_iff]
  exact Iff.rfl

mutual

theorem Composed.mono {D D' : Composition} {K K' : Nest → Prop} (within : D.Within D')
    (kinds : ∀ nest, K nest → K' nest) {f : Form Int} (composed : Composed D K f) :
    Composed D' K' f := by
  match f with
  | number c => exact composed_number c
  | symbol name => exact composed_symbol.2 (within.symbol name (composed_symbol.1 composed))
  | unknown _ rank _ =>
      exact composed_unknown.2 (within.unknown rank (composed_unknown.1 composed))
  | extremum greatest args =>
      rw [Composed] at composed ⊢
      obtain ⟨settled, guest, admits, seated⟩ := composed
      exact ⟨settled, guest, admits.mono kinds, AllSeated.mono within seated⟩
  | inverse _ => exact (not_composed_inverse composed).elim
  | power base e =>
      rw [Composed] at composed ⊢
      exact ⟨Composed.mono within kinds composed.1, composed.2.1,
        composed.2.2 ∘ within.collected⟩
  | product c factors =>
      rw [Composed] at composed ⊢
      exact ⟨AllComposed.mono within kinds composed.1, composed.2 ∘ within.collected⟩
  | sum ts =>
      rw [Composed] at composed ⊢
      exact AllComposed.mono within kinds composed

theorem AllComposed.mono {D D' : Composition} {K K' : Nest → Prop} (within : D.Within D')
    (kinds : ∀ nest, K nest → K' nest) {fs : List (Form Int)}
    (composed : AllComposed D K fs) : AllComposed D' K' fs := by
  match fs with
  | [] => trivial
  | f :: rest =>
      rw [AllComposed] at composed ⊢
      exact ⟨Composed.mono within kinds composed.1, AllComposed.mono within kinds composed.2⟩

theorem AllSeated.mono {D D' : Composition} (within : D.Within D') {greatest : Bool}
    {guest : Option (Form Int)} {fs : List (Form Int)} (seated : AllSeated D greatest guest fs) :
    AllSeated D' greatest guest fs := by
  match fs with
  | [] => trivial
  | f :: rest =>
      rw [AllSeated] at seated ⊢
      refine ⟨?_, AllSeated.mono within seated.2⟩
      rcases seated.1 with ⟨plain, composed⟩ | ⟨isGuest, other, composed⟩
      · exact .inl ⟨plain, Composed.mono within.loose (fun _ same => same) composed⟩
      · exact .inr ⟨isGuest, other, Composed.mono within.loose (fun _ same => same) composed⟩

end

theorem Composed.toLoose {f : Form Int} (composed : Composed D K f) : Composed D.loose K f :=
  composed.mono D.within_loose fun _ kind => kind

theorem Seated.mixed {greatest : Bool} {guest : Option (Form Int)} {f : Form Int}
    (seated : Seated D greatest guest f) : Composed D.loose (Mixed greatest) f := by
  rcases seated with ⟨_, composed⟩ | ⟨_, _, composed⟩
  · refine composed.mono ⟨fun _ known => known, fun _ known => known, id⟩ fun nest isPure => ?_
    exact isPure ▸ mixed_own greatest false
  · exact composed

structure FactorList (D : Composition) (K : Nest → Prop) (fs : List (Form Int)) : Prop where
  each : ∀ f ∈ fs, Composed D K f
  distinct : D.collected → (powerBases fs).Nodup

theorem FactorList.nil : FactorList D K [] :=
  ⟨fun _ member => (nomatch member), fun _ => List.nodup_nil⟩

theorem FactorList.perm {fs gs : List (Form Int)} (list : FactorList D K fs) (perm : fs.Perm gs) :
    FactorList D K gs :=
  ⟨fun f member => list.each f (perm.mem_iff.2 member),
    fun collected => (perm.map _).nodup_iff.1 (list.distinct collected)⟩

theorem FactorList.join {fs : List (Form Int)} (list : FactorList D K fs) (c : Int) :
    Composed D K (join c fs) := by
  have asProduct : Composed D K (product c fs) := composed_product.2 ⟨list.each, list.distinct⟩
  unfold Form.join
  split
  next => exact composed_number c
  next =>
    split
    next => exact composed_number c
    next =>
      split
      next => exact list.each _ (.head _)
      next => exact asProduct
    next => exact asProduct

namespace Composed

variable {f g : Form Int}

theorem singleton (composed : Composed D K f) : FactorList D K [f] :=
  ⟨fun _ member => List.mem_singleton.1 member ▸ composed, fun _ => List.nodup_singleton _⟩

theorem factors (composed : Composed D K f) : FactorList D K f.split.2 := by
  match f with
  | number _ => exact .nil
  | product c fs => exact ⟨(composed_product.1 composed).1, (composed_product.1 composed).2⟩
  | symbol _ | unknown _ _ _ | extremum _ _ | inverse _ | power _ _ | sum _ =>
      exact composed.singleton

theorem terms (composed : Composed D K f) : ∀ t ∈ f.terms, Composed D K t := by
  have single : ∀ t ∈ [f], Composed D K t := fun t member => List.mem_singleton.1 member ▸ composed
  match f with
  | number c =>
      intro t member
      simp only [Form.terms] at member
      split at member
      · cases member
      · exact single t member
  | sum ts => exact composed_sum.1 composed
  | symbol _ | unknown _ _ _ | extremum _ _ | inverse _ | power _ _ | product _ _ => exact single

end Composed

theorem composed_mergeTerm {t : Form Int} {ts : List (Form Int)} (added : Composed D K t)
    (terms : ∀ s ∈ ts, Composed D K s) : ∀ s ∈ mergeTerm t ts, Composed D K s := by
  induction ts with
  | nil => exact fun s member => List.mem_singleton.1 member ▸ added
  | cons s rest ih =>
      obtain ⟨first, others⟩ := List.forall_mem_cons.1 terms
      simp only [mergeTerm]
      split
      next =>
        split
        next => exact others
        next => exact List.forall_mem_cons.2 ⟨first.factors.join _, others⟩
      next => exact List.forall_mem_cons.2 ⟨first, ih others⟩

theorem composed_foldl_mergeTerm {added ts : List (Form Int)}
    (new : ∀ t ∈ added, Composed D K t) (old : ∀ t ∈ ts, Composed D K t) :
    ∀ t ∈ added.foldl (fun collected t => mergeTerm t collected) ts, Composed D K t := by
  induction added generalizing ts with
  | nil => exact old
  | cons t rest ih =>
      obtain ⟨first, others⟩ := List.forall_mem_cons.1 new
      exact ih others (composed_mergeTerm first old)

theorem composed_ofTerms {ts : List (Form Int)} (terms : ∀ t ∈ ts, Composed D K t) :
    Composed D K (ofTerms ts) := by
  unfold ofTerms
  split
  · exact composed_number 0
  · exact terms _ (.head _)
  · exact composed_sum.2 fun t member => terms t ((perm_sortTerms _).mem_iff.1 member)

theorem basePower_ofPower {base : Form Int} (plain : base.isPower = false) (e : Nat) :
    (ofPower base e).basePower = (base, e) := by
  unfold ofPower
  split
  · cases base <;> first | rfl | cases plain
  · rfl

namespace Composed

variable {f g : Form Int}

theorem add (left : Composed D K f) (right : Composed D K g) : Composed D K (f.add g) := by
  unfold Form.add
  split
  · exact composed_number _
  · exact composed_ofTerms (composed_foldl_mergeTerm right.terms left.terms)

theorem scaleTerm (composed : Composed D K f) (c : Int) : Composed D K (scaleTerm c f) :=
  composed.factors.join _

theorem scale (composed : Composed D K f) (c : Int) : Composed D K (scale c f) := by
  unfold Form.scale
  split
  next => exact composed_number 0
  next =>
    split
    next ts =>
      refine composed_ofTerms fun t member => ?_
      obtain ⟨s, among, rfl⟩ := List.mem_map.1 (List.mem_filter.1 member).1
      exact (composed_sum.1 composed s among).scaleTerm c
    next => exact composed.scaleTerm c

theorem neg (composed : Composed D K f) : Composed D K f.neg := composed.scale _

theorem sub (left : Composed D K f) (right : Composed D K g) : Composed D K (f.sub g) := by
  unfold Form.sub
  split
  · exact composed_number _
  · exact left.add right.neg

theorem basePower (composed : Composed D K f) : Composed D K f.basePower.1 ∧ 1 ≤ f.basePower.2 ∧
    (D.collected → f.basePower.1.isPower = false) := by
  match f with
  | power base e =>
      obtain ⟨inside, several, plain⟩ := composed_power.1 composed
      exact ⟨inside, Nat.le_of_succ_le several, plain⟩
  | number _ | symbol _ | unknown _ _ _ | extremum _ _ | inverse _ | product _ _ | sum _ =>
      exact ⟨composed, Nat.le_refl 1, fun _ => rfl⟩

theorem signedPower (composed : Composed D K f) :
    f.signedPower = (f.basePower.1, (f.basePower.2 : Int)) := by
  have base := composed.basePower.1
  unfold Form.signedPower
  generalize f.basePower = pair at base
  match pair with
  | (inverse _, e) => exact (not_composed_inverse base).elim
  | (number _, e) | (symbol _, e) | (unknown _ _ _, e) | (extremum _ _, e) | (power _ _, e)
  | (product _ _, e) | (sum _, e) => rfl

theorem ofPower {e : Nat} (composed : Composed D K f) (positive : 1 ≤ e)
    (plain : D.collected → f.isPower = false) : Composed D K (ofPower f e) := by
  unfold Form.ofPower
  split
  next => exact composed
  next several =>
    have isSeveral : e ≠ 1 := several
    exact composed_power.2 ⟨composed, by omega, plain⟩

end Composed

theorem FactorList.mergeFactor {f : Form Int} {gs : List (Form Int)} (list : FactorList D K gs)
    (composed : Composed D K f) :
    FactorList D K (mergeFactor f gs) ∧ (D.collected → ∀ b ∈ powerBases (Form.mergeFactor f gs),
      b = f.basePower.1 ∨ b ∈ powerBases gs) := by
  induction gs with
  | nil => exact ⟨composed.singleton, fun _ b member => .inl (List.mem_singleton.1 member)⟩
  | cons g rest ih =>
      obtain ⟨first, others⟩ := List.forall_mem_cons.1 list.each
      have new (collected : D.collected) := List.nodup_cons.1 (list.distinct collected)
      obtain ⟨inside, positive, plain⟩ := composed.basePower
      simp only [Form.mergeFactor]
      split
      next isSame =>
        have sameBase := eq_of_same _ _ isSame
        have merged : Composed D K (Form.ofPower f.basePower.1 (f.basePower.2 + g.basePower.2)) :=
          inside.ofPower (Nat.le_add_right_of_le positive) plain
        have bases (collected : D.collected) :
            powerBases (Form.ofPower f.basePower.1 (f.basePower.2 + g.basePower.2) :: rest) =
              powerBases (g :: rest) := by
          rw [powerBases, powerBases, List.map_cons, List.map_cons,
            basePower_ofPower (plain collected), sameBase]
        refine ⟨⟨List.forall_mem_cons.2 ⟨merged, others⟩, fun collected => ?_⟩,
          fun collected b member => .inr (bases collected ▸ member)⟩
        rw [bases collected]
        exact list.distinct collected
      next differ =>
        obtain ⟨merged, origin⟩ := ih ⟨others, fun collected => (new collected).2⟩
        refine ⟨⟨List.forall_mem_cons.2 ⟨first, merged.each⟩, fun collected => ?_⟩,
          fun collected b member => ?_⟩
        · refine List.nodup_cons.2 ⟨fun member => ?_, merged.distinct collected⟩
          rcases origin collected _ member with same | old
          · exact differ (same_iff.2 same.symm)
          · exact (new collected).1 old
        · rcases List.mem_cons.1 member with rfl | later
          · exact .inr (.head _)
          · exact (origin collected b later).imp_right (.tail _)

theorem FactorList.mergeFactors {fs gs : List (Form Int)} (left : ∀ f ∈ fs, Composed D K f)
    (right : FactorList D K gs) : FactorList D K (mergeFactors fs gs) := by
  rw [mergeFactors_int]
  refine FactorList.perm ?_ (sorted_perm _ _).symm
  induction fs generalizing gs with
  | nil => exact right
  | cons f rest ih =>
      obtain ⟨first, others⟩ := List.forall_mem_cons.1 left
      exact ih others (right.mergeFactor first).1

theorem FactorList.ofFactors {fs : List (Form Int)} (list : FactorList D K fs) (c : Int) :
    Composed D K (ofFactors c fs) := by
  unfold Form.ofFactors
  split
  · exact (list.each _ (.head _)).scale c
  · exact list.join c

namespace Composed

variable {f g : Form Int}

theorem mul (left : Composed D K f) (right : Composed D K g) : Composed D K (f.mul g) := by
  simp only [Form.mul]
  split
  next => exact right.scale _
  next =>
    split
    next => exact left.scale _
    next => exact (FactorList.mergeFactors left.factors.each right.factors).ofFactors _

theorem pow (composed : Composed D K f) (e : Nat) : Composed D K (pow f e) := by
  induction e with
  | zero => exact composed_number 1
  | succ e ih => exact ih.mul composed

theorem foldl_add {β : Type} {h : β → Form Int} {bs : List β} {total : Form Int}
    (start : Composed D K total) (each : ∀ b ∈ bs, Composed D K (h b)) :
    Composed D K (bs.foldl (fun total b => total.add (h b)) total) := by
  induction bs generalizing total with
  | nil => exact start
  | cons b rest ih =>
      obtain ⟨first, others⟩ := List.forall_mem_cons.1 each
      exact ih (start.add first) others

theorem foldl_mul {fs : List (Form Int)} {total : Form Int} (start : Composed D K total)
    (each : ∀ f ∈ fs, Composed D K f) : Composed D K (fs.foldl Form.mul total) := by
  induction fs generalizing total with
  | nil => exact start
  | cons f rest ih =>
      obtain ⟨first, others⟩ := List.forall_mem_cons.1 each
      exact ih (start.mul first) others

theorem distribute (left : Composed D K f) (right : Composed D K g) :
    Composed D K (distribute f g) := by
  have rows (ts : List (Form Int)) (each : ∀ t ∈ ts, Composed D K t) (total : Form Int)
      (start : Composed D K total) :
      Composed D K (ts.foldl (fun total s =>
        g.terms.foldl (fun total t => total.add (s.mul t)) total) total) := by
    induction ts generalizing total with
    | nil => exact start
    | cons s rest ih =>
        obtain ⟨first, others⟩ := List.forall_mem_cons.1 each
        exact ih others _ (start.foldl_add fun t member => first.mul (right.terms t member))
  exact rows f.terms left.terms _ (composed_number 0)

theorem distributePower (composed : Composed D K f) (e : Nat) :
    Composed D K (distributePower f e) := by
  induction e with
  | zero => exact composed_number 1
  | succ e ih => exact ih.distribute composed

theorem flatten_pure {greatest : Bool} (composed : Composed D (Pure greatest) f) :
    flatten greatest f ≠ [] ∧ ∀ guest, ∀ g ∈ flatten greatest f, Seated D greatest guest g := by
  cases f with
  | extremum kind args =>
      obtain ⟨settled, guest, admits, seated⟩ := composed_extremum.1 composed
      obtain ⟨rfl, isPure⟩ := admits_pure admits
      obtain rfl := Option.isNone_iff_eq_none.1 (Option.isSome_eq_false_iff.1 isPure)
      have own : flatten kind (extremum kind args) = args := by simp only [flatten, if_pos]
      rw [own]
      exact ⟨settled.nonempty, fun guest g member => .inl (seated g member).plain⟩
  | _ => exact ⟨by simp [flatten], fun guest g member =>
      .inl (List.mem_singleton.1 member ▸ ⟨rfl, composed.toLoose⟩)⟩

theorem flatten_mixed {greatest : Bool} (composed : Composed D (Mixed greatest) f) :
    flatten greatest f ≠ [] ∧ ∃ guest, ∀ g ∈ flatten greatest f, Seated D greatest (some guest) g := by
  have self (alone : flatten greatest f = [f]) (other : f.isKind greatest = false) :
      flatten greatest f ≠ [] ∧ ∃ guest, ∀ g ∈ flatten greatest f, Seated D greatest (some guest) g :=
    ⟨by simp [alone], f, fun g member => by
      rw [alone] at member
      obtain rfl := List.mem_singleton.1 member
      exact .inr ⟨rfl, other, composed.toLoose⟩⟩
  cases f with
  | extremum kind args =>
      by_cases same : kind = greatest
      · subst same
        obtain ⟨settled, guest, _, seated⟩ := composed_extremum.1 composed
        have own : flatten kind (extremum kind args) = args := by simp only [flatten, if_pos]
        rw [own]
        refine ⟨settled.nonempty, guest.getD (number 0), fun g member => ?_⟩
        rcases seated g member with ownSeat | ⟨isGuest, rest⟩
        · exact .inl ownSeat
        · exact .inr ⟨by rw [isGuest, Option.getD_some], rest⟩
      · exact self (by simp [flatten, same]) (by simpa [isKind] using same)
  | _ => exact self rfl rfl

end Composed

theorem Seated.sits {greatest : Bool} {guest : Option (Form Int)} {f : Form Int}
    (seated : Seated D greatest guest f) :
    Sits greatest ((guest.map arguments).getD []) f := by
  rcases seated with ⟨plain, _⟩ | ⟨rfl, other, composed⟩
  · exact .inl plain
  cases f with
  | extremum kind args =>
      obtain rfl : kind = !greatest := by simpa [isKind, Bool.eq_not] using other
      obtain ⟨settled, guest, admits, seated⟩ := composed_extremum.1 composed
      have isPure := admits_other admits
      obtain rfl := Option.isNone_iff_eq_none.1 (Option.isSome_eq_false_iff.1 isPure)
      exact .inr ⟨rfl, settled, fun h member => (seated h member).plain.1⟩
  | _ => exact .inl rfl

theorem composed_extremumOf {greatest : Bool} {guest : Option (Form Int)} {fs : List (Form Int)}
    (admits : Admits K greatest guest.isSome) (nonempty : fs ≠ [])
    (seated : ∀ f ∈ fs, Seated D greatest guest f) :
    Composed D.loose K (extremumOf greatest fs) := by
  have same (f : Form Int) : f ∈ sorted smallerBefore (dedupe fs) ↔ f ∈ fs := mem_extremumOf
  have settled := settled_sorted nonempty
  unfold extremumOf
  generalize sorted smallerBefore (dedupe fs) = args at same settled
  split
  next f =>
    have within : D.loose.Within D.loose := ⟨fun _ known => known, fun _ known => known, id⟩
    rcases seated f ((same f).1 (.head _)) with ⟨_, composed⟩ | ⟨rfl, _, composed⟩
    · exact composed.mono within fun nest isPure => isPure ▸ admits.pure
    · exact composed.mono within admits
  next several =>
    exact composed_extremum.2 ⟨settled fun f single => several f single, guest, admits,
      fun f member => seated f ((same f).1 member)⟩

theorem composed_extreme {greatest : Bool} {guest : Option (Form Int)} {fs : List (Form Int)}
    (admits : Admits K greatest guest.isSome) (nonempty : fs ≠ [])
    (composed : ∀ f ∈ fs, Composed D (Pure greatest) f ∨
      guest = some f ∧ Composed D (Mixed greatest) f) :
    Composed D.loose K (extreme greatest fs) ∧
      ∀ σ, value σ (extreme greatest fs) = extremeOf greatest (fs.map (value σ)) := by
  obtain ⟨guest', admits', seated⟩ : ∃ guest' : Option (Form Int), Admits K greatest guest'.isSome ∧
      ∀ f ∈ fs, flatten greatest f ≠ [] ∧ ∀ g ∈ flatten greatest f, Seated D greatest guest' g := by
    by_cases mixed : ∃ f, guest = some f ∧ Composed D (Mixed greatest) f
    · obtain ⟨f, rfl, isMixed⟩ := mixed
      obtain ⟨nonempty, guest', seated⟩ := isMixed.flatten_mixed
      refine ⟨some guest', admits, fun g member => ?_⟩
      rcases composed g member with isPure | ⟨same, _⟩
      · exact isPure.flatten_pure.imp_right fun each => each _
      · cases same
        exact ⟨nonempty, seated⟩
    · refine ⟨none, admits.pure, fun f member => ?_⟩
      have isPure := (composed f member).resolve_right fun isGuest => mixed ⟨f, isGuest⟩
      exact isPure.flatten_pure.imp_right fun each => each _
  obtain ⟨args, isExtreme, found, origin, top⟩ := extreme_flat nonempty fun f member =>
    ⟨(seated f member).1, fun g inside => ((seated f member).2 g inside).sits⟩
  rw [isExtreme]
  refine ⟨composed_extremumOf admits' found fun g member => ?_, fun σ => value_extremumOf (top σ)⟩
  obtain ⟨f, among, inside⟩ := origin g member
  exact (seated f among).2 g inside

/-- A composed form of the given value. -/
structure Represents (D : Composition) (K : Nest → Prop) (v : Assignment → Int) (f : Form Int) :
    Prop where
  composed : Composed D K f
  value : ∀ σ, value σ f = v σ

namespace Represents

variable {f g : Form Int} {v w : Assignment → Int}

theorem number (c : Int) : Represents D K (fun _ => c) (number c) :=
  ⟨composed_number c, fun _ => value_number c⟩

theorem add (left : Represents D K v f) (right : Represents D K w g) :
    Represents D K (fun σ => v σ + w σ) (f.add g) :=
  ⟨left.composed.add right.composed, fun σ => by rw [value_add, left.value, right.value]⟩

theorem sub (left : Represents D K v f) (right : Represents D K w g) :
    Represents D K (fun σ => v σ - w σ) (f.sub g) :=
  ⟨left.composed.sub right.composed, fun σ => by rw [value_sub, left.value, right.value]⟩

theorem mul (left : Represents D K v f) (right : Represents D K w g) :
    Represents D K (fun σ => v σ * w σ) (f.mul g) :=
  ⟨left.composed.mul right.composed, fun σ => by rw [value_mul, left.value, right.value]⟩

theorem scale (c : Int) (represents : Represents D K v f) :
    Represents D K (fun σ => c * v σ) (Form.scale c f) :=
  ⟨represents.composed.scale c, fun σ => by rw [value_scale, represents.value]⟩

theorem pow (represents : Represents D K v f) (e : Nat) :
    Represents D K (fun σ => v σ ^ e) (Form.pow f e) :=
  ⟨represents.composed.pow e, fun σ => by rw [value_pow, represents.value]⟩

theorem distribute (left : Represents D K v f) (right : Represents D K w g) :
    Represents D K (fun σ => v σ * w σ) (Form.distribute f g) :=
  ⟨left.composed.distribute right.composed, fun σ => by
    rw [value_distribute, left.value, right.value]⟩

theorem distributePower (represents : Represents D K v f) (e : Nat) :
    Represents D K (fun σ => v σ ^ e) (Form.distributePower f e) :=
  ⟨represents.composed.distributePower e, fun σ => by
    rw [value_distributePower, represents.value]⟩

theorem self (composed : Composed D K f) : Represents D K (Form.value · f) f :=
  ⟨composed, fun _ => rfl⟩

theorem trans {D' : Composition} {K' : Nest → Prop} (first : Represents D K v f)
    (second : Represents D' K' (Form.value · f) g) : Represents D' K' v g :=
  ⟨second.composed, fun σ => (second.value σ).trans (first.value σ)⟩

theorem of_eq (represents : Represents D K v f) (same : ∀ σ, v σ = w σ) : Represents D K w f :=
  ⟨represents.composed, fun σ => (represents.value σ).trans (same σ)⟩

end Represents

end ReverseMode.Form
