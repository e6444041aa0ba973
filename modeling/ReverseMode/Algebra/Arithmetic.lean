import ReverseMode.Algebra.Form

namespace ReverseMode

def insertSorted {α : Type} (before : α → α → Bool) (a : α) : List α → List α
  | [] => [a]
  | b :: rest => if before a b then a :: b :: rest else b :: insertSorted before a rest

def sorted {α : Type} (before : α → α → Bool) (as : List α) : List α :=
  as.foldr (insertSorted before) []

theorem insertSorted_perm {α : Type} (before : α → α → Bool) (a : α) (as : List α) :
    (insertSorted before a as).Perm (a :: as) := by
  induction as with
  | nil => exact .refl _
  | cons b rest ih =>
      unfold insertSorted
      split
      · exact .refl _
      · exact (ih.cons b).trans (.swap a b rest)

theorem sorted_perm {α : Type} (before : α → α → Bool) (as : List α) :
    (sorted before as).Perm as := by
  induction as with
  | nil => exact .refl _
  | cons a rest ih => exact (insertSorted_perm before a _).trans (ih.cons a)

namespace Form

variable {κ : Type} [Coefficient κ]

def isZeroNumber (c : κ) : Bool := (Coefficient.toNumber c).isZero

def isOneNumber (c : κ) : Bool := (Coefficient.toNumber c).isOne

def vanishes (c : κ) : Bool := (Coefficient.toNumber c).vanishes

def split : Form κ → κ × List (Form κ)
  | number c => (c, [])
  | product c factors => (c, factors)
  | f => (Coefficient.ofInt 1, [f])

def join (c : κ) (factors : List (Form κ)) : Form κ :=
  if isZeroNumber c then number c
  else
    match factors with
    | [] => number c
    | [f] => if isOneNumber c then f else product c [f]
    | _ => product c factors

def basePower : Form κ → Form κ × Nat
  | power base e => (base, e)
  | f => (f, 1)

def ofPower (base : Form κ) : Nat → Form κ
  | 1 => base
  | e => power base e

def mergeFactor (f : Form κ) : List (Form κ) → List (Form κ)
  | [] => [f]
  | g :: rest =>
      let (a, m) := f.basePower
      let (b, n) := g.basePower
      if a.same b then ofPower a (m + n) :: rest else g :: mergeFactor f rest

def signedPower (f : Form κ) : Form κ × Int :=
  match f.basePower with
  | (inverse base, e) => (base, -(e : Int))
  | (base, e) => (base, e)

def ofSignedPower (base : Form κ) (e : Int) : List (Form κ) :=
  if e = 0 then []
  else if 0 < e then [ofPower base e.natAbs]
  else [ofPower (inverse base) e.natAbs]

def cancelFactor (f : Form κ) : List (Form κ) → List (Form κ)
  | [] => [f]
  | g :: rest =>
      let (a, m) := f.signedPower
      let (b, n) := g.signedPower
      if a.same b then ofSignedPower a (m + n) ++ rest else g :: cancelFactor f rest

def sortFactors (factors : List (Form κ)) : List (Form κ) := sorted before factors

def mergeFactors (fs gs : List (Form κ)) : List (Form κ) :=
  let insert := if Coefficient.hasQuotients κ then cancelFactor else mergeFactor
  sortFactors (fs.foldl (fun collected f => insert f collected) gs)

def bases (f : Form κ) : List (Form κ) := f.split.2.map fun g => g.signedPower.1

def exponentOf (f base : Form κ) : Int :=
  match f.split.2.find? fun g => g.signedPower.1.same base with
  | some g => g.signedPower.2
  | none => 0

def leads : List (Int × Int) → Bool
  | [] => true
  | (m, n) :: rest => if m = n then leads rest else n < m

def allBases (terms : List (Form κ)) : List (Form κ) :=
  let insert (known : List (Form κ)) (base : Form κ) : List (Form κ) :=
    if known.any base.same then known else known ++ [base]
  sorted before ((terms.flatMap bases).foldl insert [])

/-- A positive number and a negative multiple of a single power are written number first. -/
def isDifferenceFromNumber (terms : List (Form κ)) : Bool :=
  match terms with
  | [number c, product d [_]] | [product d [_], number c] =>
      (Coefficient.toNumber c).isPositive && (Coefficient.toNumber d).isNegative
  | _ => false

def sortTerms (terms : List (Form κ)) : List (Form κ) :=
  if isDifferenceFromNumber terms then
    terms.filter isNumber ++ terms.filter fun t => !t.isNumber
  else
    let order := allBases terms
    sorted (fun s t => leads (order.map fun base => (s.exponentOf base, t.exponentOf base))) terms

def terms : Form κ → List (Form κ)
  | sum ts => ts
  | number c => if vanishes c then [] else [number c]
  | f => [f]

def mergeTerm (t : Form κ) : List (Form κ) → List (Form κ)
  | [] => [t]
  | s :: rest =>
      let (c, fs) := t.split
      let (d, gs) := s.split
      if allSame fs gs then
        let total := Coefficient.add d c
        if isZeroNumber total then rest else join total gs :: rest
      else s :: mergeTerm t rest

def ofTerms (ts : List (Form κ)) : Form κ :=
  match ts with
  | [] => ofInt 0
  | [t] => t
  | _ => sum (sortTerms ts)

def add (a b : Form κ) : Form κ :=
  match a, b with
  | number c, number d => number (Coefficient.add c d)
  | _, _ => ofTerms (b.terms.foldl (fun collected t => mergeTerm t collected) a.terms)

def scaleTerm (c : κ) (t : Form κ) : Form κ :=
  let (d, factors) := t.split
  join (Coefficient.mul c d) factors

def scale (c : κ) (f : Form κ) : Form κ :=
  if isZeroNumber c then ofInt 0
  else
    match f with
    | sum ts => ofTerms ((ts.map (scaleTerm c)).filter fun t => !t.terms.isEmpty)
    | _ => scaleTerm c f

def neg (f : Form κ) : Form κ := scale (Coefficient.ofInt (-1)) f

def sub (a b : Form κ) : Form κ :=
  match a, b with
  | number c, number d => number (Coefficient.add c (Coefficient.neg d))
  | _, _ => a.add b.neg

/-- A coefficient times collected factors; a number in front of a lone sum is multiplied into it. -/
def ofFactors (c : κ) (factors : List (Form κ)) : Form κ :=
  match factors with
  | [sum ts] => scale c (sum ts)
  | _ => join c factors

def mul (a b : Form κ) : Form κ :=
  let (c, fs) := a.split
  let (d, gs) := b.split
  if fs.isEmpty then scale c b
  else if gs.isEmpty then scale d a
  else ofFactors (Coefficient.mul c d) (mergeFactors fs gs)

def pow (f : Form κ) : Nat → Form κ
  | 0 => ofInt 1
  | e + 1 => mul (pow f e) f

end Form

end ReverseMode
