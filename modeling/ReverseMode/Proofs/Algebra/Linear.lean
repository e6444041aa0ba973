import ReverseMode.Proofs.Algebra.Meaning

namespace ReverseMode.Form

def isExtremum : Form Int → Bool
  | extremum _ _ => true
  | _ => false

mutual

def Linear (S : String → Prop) (K : Bool → Prop) : Form Int → Prop
  | number _ => True
  | symbol name => S name
  | unknown _ _ _ => False
  | extremum greatest args =>
      K greatest ∧ 2 ≤ args.length ∧ args.Nodup ∧ (∀ f ∈ args, f.isExtremum = false) ∧
        AllLinear S (· = greatest) args
  | inverse _ => False
  | power _ _ => False
  | product _ [] => False
  | product _ [f] => f.isAtom = true ∧ Linear S K f
  | product _ (_ :: _ :: _) => False
  | sum ts => AllLinear S K ts ∧ ∀ t ∈ ts, t.isSum = false

def AllLinear (S : String → Prop) (K : Bool → Prop) : List (Form Int) → Prop
  | [] => True
  | f :: rest => Linear S K f ∧ AllLinear S K rest

end

variable {S : String → Prop} {K : Bool → Prop}

theorem allLinear_iff {fs : List (Form Int)} : AllLinear S K fs ↔ ∀ f ∈ fs, Linear S K f := by
  induction fs with
  | nil => simp [AllLinear]
  | cons f rest ih => rw [AllLinear, ih, List.forall_mem_cons]

theorem linear_number (c : Int) : Linear S K (number c) := trivial

theorem linear_symbol {name : String} : Linear S K (symbol name) ↔ S name := Iff.rfl

theorem linear_extremum {greatest : Bool} {args : List (Form Int)} :
    Linear S K (extremum greatest args) ↔
      K greatest ∧ 2 ≤ args.length ∧ args.Nodup ∧ (∀ f ∈ args, f.isExtremum = false) ∧
        ∀ f ∈ args, Linear S (· = greatest) f := by
  rw [← allLinear_iff]
  exact Iff.rfl

theorem linear_sum {ts : List (Form Int)} :
    Linear S K (sum ts) ↔ ∀ t ∈ ts, Linear S K t ∧ t.isSum = false := by
  have parts : Linear S K (sum ts) ↔ AllLinear S K ts ∧ ∀ t ∈ ts, t.isSum = false := Iff.rfl
  rw [parts, allLinear_iff]
  exact ⟨fun ⟨linear, flat⟩ t member => ⟨linear t member, flat t member⟩,
    fun both => ⟨fun t member => (both t member).1, fun t member => (both t member).2⟩⟩

def LinearTerm (S : String → Prop) (K : Bool → Prop) (t : Form Int) : Prop :=
  Linear S K t ∧ t.isSum = false

theorem LinearTerm.split_cases {t : Form Int} (term : LinearTerm S K t) :
    t.split.2 = [] ∨ ∃ f, t.split.2 = [f] ∧ f.isAtom = true ∧ Linear S K f := by
  obtain ⟨linear, flat⟩ := term
  match t with
  | number c => exact .inl rfl
  | symbol name => exact .inr ⟨_, rfl, rfl, linear⟩
  | extremum _ _ => exact .inr ⟨_, rfl, rfl, linear⟩
  | product c [f] =>
      rw [Linear] at linear
      exact .inr ⟨f, rfl, linear.1, linear.2⟩
  | unknown _ _ _ | inverse _ | power _ _ | product _ [] | product _ (_ :: _ :: _) =>
      rw [Linear] at linear
      exact linear.elim
  | sum ts => cases flat

mutual

theorem Linear.mono {S S' : String → Prop} {K K' : Bool → Prop} (names : ∀ name, S name → S' name)
    (kinds : ∀ greatest, K greatest → K' greatest) {f : Form Int} (linear : Linear S K f) :
    Linear S' K' f := by
  match f with
  | number c => exact linear_number c
  | symbol name => exact linear_symbol.2 (names name (linear_symbol.1 linear))
  | extremum greatest args =>
      rw [Linear] at linear ⊢
      obtain ⟨kind, several, distinct, plain, each⟩ := linear
      exact ⟨kinds greatest kind, several, distinct, plain,
        AllLinear.mono names (fun _ same => same) each⟩
  | product _ [f] =>
      rw [Linear] at linear ⊢
      exact ⟨linear.1, Linear.mono names kinds linear.2⟩
  | unknown _ _ _ | inverse _ | power _ _ | product _ [] | product _ (_ :: _ :: _) =>
      rw [Linear] at linear
      exact linear.elim
  | sum ts =>
      rw [Linear] at linear ⊢
      exact ⟨AllLinear.mono names kinds linear.1, linear.2⟩

theorem AllLinear.mono {S S' : String → Prop} {K K' : Bool → Prop}
    (names : ∀ name, S name → S' name) (kinds : ∀ greatest, K greatest → K' greatest)
    {fs : List (Form Int)} (linear : AllLinear S K fs) : AllLinear S' K' fs := by
  match fs with
  | [] => trivial
  | f :: rest =>
      rw [AllLinear] at linear ⊢
      exact ⟨Linear.mono names kinds linear.1, AllLinear.mono names kinds linear.2⟩

end

theorem isSum_of_isAtom {f : Form Int} (atom : f.isAtom = true) : f.isSum = false := by
  cases f <;> simp_all [isAtom, isSum]

theorem LinearTerm.join {t : Form Int} (term : LinearTerm S K t) (c : Int) :
    LinearTerm S K (join c t.split.2) := by
  rcases term.split_cases with none | ⟨f, single, atom, linear⟩
  · rw [none]
    unfold Form.join
    split <;> exact ⟨linear_number c, rfl⟩
  · rw [single]
    unfold Form.join
    split
    · exact ⟨linear_number c, rfl⟩
    · dsimp only
      split
      · exact ⟨linear, isSum_of_isAtom atom⟩
      · exact ⟨by rw [Linear]; exact ⟨atom, linear⟩, rfl⟩

theorem Linear.terms {f : Form Int} (linear : Linear S K f) : ∀ t ∈ f.terms, LinearTerm S K t := by
  cases f with
  | number c =>
      intro t member
      simp only [Form.terms] at member
      split at member
      · cases member
      · rw [List.mem_singleton.1 member]
        exact ⟨linear, rfl⟩
  | sum ts => exact linear_sum.1 linear
  | _ =>
      intro t member
      rw [List.mem_singleton.1 member]
      exact ⟨linear, rfl⟩

theorem linear_mergeTerm {t : Form Int} {ts : List (Form Int)} (added : LinearTerm S K t)
    (terms : ∀ s ∈ ts, LinearTerm S K s) : ∀ s ∈ mergeTerm t ts, LinearTerm S K s := by
  induction ts with
  | nil =>
      intro s member
      rw [List.mem_singleton.1 member]
      exact added
  | cons s rest ih =>
      obtain ⟨first, others⟩ := List.forall_mem_cons.1 terms
      simp only [mergeTerm]
      split
      next =>
        split
        next => exact others
        next => exact List.forall_mem_cons.2 ⟨first.join _, others⟩
      next => exact List.forall_mem_cons.2 ⟨first, ih others⟩

theorem linear_ofTerms {ts : List (Form Int)} (terms : ∀ t ∈ ts, LinearTerm S K t) :
    Linear S K (ofTerms ts) := by
  unfold ofTerms
  split
  · exact linear_number 0
  · exact (terms _ (.head _)).1
  · exact linear_sum.2 fun t member => terms t ((perm_sortTerms _).mem_iff.1 member)

theorem linear_foldl_mergeTerm {added ts : List (Form Int)}
    (new : ∀ t ∈ added, LinearTerm S K t) (old : ∀ t ∈ ts, LinearTerm S K t) :
    ∀ t ∈ added.foldl (fun collected t => mergeTerm t collected) ts, LinearTerm S K t := by
  induction added generalizing ts with
  | nil => exact old
  | cons t rest ih =>
      obtain ⟨first, others⟩ := List.forall_mem_cons.1 new
      exact ih others (linear_mergeTerm first old)

theorem Linear.add {f g : Form Int} (left : Linear S K f) (right : Linear S K g) :
    Linear S K (f.add g) := by
  unfold Form.add
  split
  · exact linear_number _
  · exact linear_ofTerms (linear_foldl_mergeTerm right.terms left.terms)

theorem LinearTerm.scaleTerm {t : Form Int} (term : LinearTerm S K t) (c : Int) :
    LinearTerm S K (scaleTerm c t) := term.join _

theorem Linear.scale {f : Form Int} (linear : Linear S K f) (c : Int) : Linear S K (scale c f) := by
  unfold Form.scale
  split
  next => exact linear_number 0
  next =>
    split
    next ts =>
      refine linear_ofTerms fun t member => ?_
      obtain ⟨s, among, rfl⟩ := List.mem_map.1 (List.mem_filter.1 member).1
      exact LinearTerm.scaleTerm (linear_sum.1 linear s among) c
    next notSum =>
      have flat : f.isSum = false := by
        cases f <;> first | rfl | exact absurd rfl (notSum _)
      exact (LinearTerm.scaleTerm ⟨linear, flat⟩ c).1

theorem Linear.neg {f : Form Int} (linear : Linear S K f) : Linear S K f.neg := linear.scale _

theorem Linear.sub {f g : Form Int} (left : Linear S K f) (right : Linear S K g) :
    Linear S K (f.sub g) := by
  unfold Form.sub
  split
  · exact linear_number _
  · exact left.add right.neg

theorem Linear.mul_number {f : Form Int} (linear : Linear S K f) (n : Int) :
    Linear S K (f.mul (number n)) := by
  change Linear S K (if f.split.2.isEmpty then Form.scale f.split.1 (number n) else Form.scale n f)
  split
  · exact (linear_number n).scale _
  · exact linear.scale n

theorem linear_foldl_add {β : Type} {g : β → Form Int} {bs : List β} {total : Form Int}
    (start : Linear S K total) (each : ∀ b ∈ bs, Linear S K (g b)) :
    Linear S K (bs.foldl (fun total b => total.add (g b)) total) := by
  induction bs generalizing total with
  | nil => exact start
  | cons b rest ih =>
      obtain ⟨first, others⟩ := List.forall_mem_cons.1 each
      exact ih (start.add first) others

theorem Linear.distribute_number {f : Form Int} (linear : Linear S K f) (n : Int) :
    Linear S K (distribute f (number n)) := by
  have row (s total : Form Int) (term : Linear S K s) (start : Linear S K total) :
      Linear S K ((number n).terms.foldl (fun total t => total.add (s.mul t)) total) := by
    refine linear_foldl_add start fun t member => ?_
    simp only [Form.terms] at member
    split at member
    · cases member
    · rw [List.mem_singleton.1 member]
      exact term.mul_number n
  unfold distribute
  have terms := linear.terms
  generalize f.terms = ts at terms
  have start : Linear S K (ofInt 0) := linear_number 0
  generalize (ofInt 0 : Form Int) = total at start
  induction ts generalizing total with
  | nil => exact start
  | cons s rest ih =>
      obtain ⟨first, others⟩ := List.forall_mem_cons.1 terms
      exact ih others _ (row s total first.1 start)

mutual

theorem Linear.expand {f : Form Int} (linear : Linear S K f) : Linear S K (expand f) := by
  match f with
  | number _ | symbol _ | extremum _ _ =>
      simp only [Form.expand]
      exact linear
  | product c [a] =>
      rw [Linear] at linear
      obtain ⟨atom, linearAtom⟩ := linear
      have plain : Form.expand a = a := by cases a <;> simp_all [isAtom, Form.expand]
      simp only [Form.expand, expandProduct, plain]
      exact (linearAtom.distribute_number 1).scale c
  | unknown _ _ _ | inverse _ | power _ _ | product _ [] | product _ (_ :: _ :: _) =>
      rw [Linear] at linear
      exact linear.elim
  | sum ts =>
      rw [Form.expand]
      exact linear_expandSum fun t member => (linear_sum.1 linear t member).1

theorem linear_expandSum {ts : List (Form Int)} (linear : ∀ t ∈ ts, Linear S K t) :
    Linear S K (expandSum ts) := by
  match ts with
  | [] => exact linear_number 0
  | t :: rest =>
      rw [expandSum]
      obtain ⟨first, others⟩ := List.forall_mem_cons.1 linear
      exact (Linear.expand first).add (linear_expandSum others)

end

end ReverseMode.Form
