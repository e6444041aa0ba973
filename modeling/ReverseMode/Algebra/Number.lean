import ReverseMode.Numeric.Decimal

namespace ReverseMode

inductive Number where
  | int (value : Int)
  | ratio (num : Int) (den : Nat)
  | real (value : Float)
deriving Inhabited

namespace Number

def ofRatio (num : Int) (den : Nat) : Number :=
  let divisor := Nat.gcd num.natAbs den
  let d := den / divisor
  if d = 1 then int (num / divisor) else ratio (num / divisor) d

def ofFloat (x : Float) : Number := if x == 0.0 then int 0 else real x

def fraction? : Number → Option (Int × Nat)
  | int n => some (n, 1)
  | ratio n d => some (n, d)
  | real _ => none

def toFloat : Number → Float
  | int n => Float.ofInt n
  | ratio n d => Float.ofInt n / Float.ofNat d
  | real x => x

def add (a b : Number) : Number :=
  match a, b with
  | int m, int n => int (m + n)
  | _, _ =>
      match a.fraction?, b.fraction? with
      | some (m, d), some (n, e) => ofRatio (m * e + n * d) (d * e)
      | _, _ => ofFloat (a.toFloat + b.toFloat)

def mul (a b : Number) : Number :=
  match a, b with
  | int m, int n => int (m * n)
  | _, _ =>
      match a.fraction?, b.fraction? with
      | some (m, d), some (n, e) => ofRatio (m * n) (d * e)
      | _, _ => ofFloat (a.toFloat * b.toFloat)

def neg : Number → Number
  | int n => int (-n)
  | ratio n d => ratio (-n) d
  | real x => real (if x == 0.0 then x else -x)

def reciprocal? : Number → Option Number
  | int n => if n = 0 then none else some (ofRatio (if n < 0 then -1 else 1) n.natAbs)
  | ratio n d => some (ofRatio (if n < 0 then -(d : Int) else d) n.natAbs)
  | real x => some (real (1.0 / x))

/-- The exact zero; a float zero that was written down is none. -/
def isZero : Number → Bool
  | int n => n == 0
  | _ => false

/-- A zero of any kind. -/
def vanishes : Number → Bool
  | int n => n == 0
  | ratio _ _ => false
  | real x => x == 0.0

def isOne : Number → Bool
  | int n => n == 1
  | _ => false

def isMinusOne : Number → Bool
  | int n => n == -1
  | _ => false

def isNegative : Number → Bool
  | int n => n < 0
  | ratio n _ => n < 0
  | real x => x < 0.0

def isPositive : Number → Bool
  | int n => 0 < n
  | ratio n _ => 0 < n
  | real x => 0.0 < x

def isReal : Number → Bool
  | real _ => true
  | _ => false

def toExact (x : Number) : Number :=
  match x with
  | real f =>
      match Decimal.parts f with
      | .finite negative mantissa exponent =>
          let r := Decimal.Ratio.ofBinary mantissa exponent
          ofRatio (if negative then -(r.num : Int) else r.num) r.den
      | _ => x
  | _ => x

def less (a b : Number) : Bool :=
  match a, b with
  | int m, int n => m < n
  | _, _ =>
      match a.toExact.fraction?, b.toExact.fraction? with
      | some (m, d), some (n, e) => m * e < n * d
      | _, _ => a.toFloat < b.toFloat

def same (a b : Number) : Bool :=
  match a, b with
  | int m, int n => m == n
  | ratio m d, ratio n e => m == n && d == e
  | real x, real y => x == y
  | _, _ => false

def size (n : Number) : Number := if n.isNegative then n.neg else n

/-- The quotient; numbers of one size have an exact one. -/
def divide? (m n : Number) : Option Number :=
  if m.same n && !n.isZero then some (int 1)
  else if m.same n.neg && !n.isZero then some (int (-1))
  else n.reciprocal?.map m.mul

/-- The greatest common divisor of the numerators over the least common multiple of the
denominators; one if there is a float. -/
def content (numbers : List Number) : Number :=
  match numbers.mapM fraction? with
  | some fractions =>
      let divisor := fractions.foldl (fun g f => Nat.gcd g f.1.natAbs) 0
      if divisor = 0 then int 1
      else ofRatio divisor (fractions.foldl (fun m f => Nat.lcm m f.2) 1)
  | none => int 1

def commonFactor (numbers : List Number) : Number :=
  match numbers with
  | real x :: rest =>
      if rest.all fun n => n.isReal && n.size.same (real x).size then (real x).size else int 1
  | _ => content numbers

end Number

class Coefficient (κ : Type) where
  ofInt : Int → κ
  add : κ → κ → κ
  mul : κ → κ → κ
  neg : κ → κ
  toNumber : κ → Number
  /-- The quotient, if the coefficients have it. -/
  divide? : κ → κ → Option κ
  /-- The largest exact coefficient that divides all of them. -/
  content : List κ → κ
  /-- The largest coefficient that is taken out of a sum with these coefficients. -/
  commonFactor : List κ → κ
  hasQuotients : Bool

def commonDivisor (numbers : List Int) : Int :=
  let divisor := numbers.foldl (fun g n => Nat.gcd g n.natAbs) 0
  if divisor = 0 then 1 else divisor

theorem foldl_gcd_dvd (numbers : List Int) (start : Nat) :
    numbers.foldl (fun g n => Nat.gcd g n.natAbs) start ∣ start ∧
      ∀ n ∈ numbers, numbers.foldl (fun g n => Nat.gcd g n.natAbs) start ∣ n.natAbs := by
  induction numbers generalizing start with
  | nil => simp
  | cons first rest ih =>
      obtain ⟨divides, divideRest⟩ := ih (Nat.gcd start first.natAbs)
      simp only [List.foldl_cons, List.mem_cons, forall_eq_or_imp]
      exact ⟨Nat.dvd_trans divides (Nat.gcd_dvd_left _ _),
        Nat.dvd_trans divides (Nat.gcd_dvd_right _ _), divideRest⟩

theorem commonDivisor_dvd {numbers : List Int} {n : Int} (member : n ∈ numbers) :
    commonDivisor numbers ∣ n := by
  have divides := (foldl_gcd_dvd numbers 0).2 n member
  simp only [commonDivisor]
  split
  · exact Int.one_dvd n
  · exact Int.dvd_natAbs.1 (Int.natCast_dvd_natCast.2 divides)

instance : Coefficient Int where
  ofInt n := n
  add := (· + ·)
  mul := (· * ·)
  neg n := -n
  toNumber := .int
  divide? m n := if n ≠ 0 ∧ m % n = 0 then some (m / n) else none
  content := commonDivisor
  commonFactor := commonDivisor
  hasQuotients := false

instance : Coefficient Number where
  ofInt := .int
  add := .add
  mul := .mul
  neg := .neg
  toNumber n := n
  divide? := Number.divide?
  content := .content
  commonFactor := .commonFactor
  hasQuotients := true

end ReverseMode
