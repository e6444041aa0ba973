import ReverseMode.Algebra.Extremum

/-!
# Choosing a shape

A polynomial can be written expanded, with common factors taken out of its sums, or as it was put
together. The shape with the fewest operations is chosen. A number in front of a sum does not count
as a factor taken out, and an expanded form of degree one is never factored.
-/

namespace ReverseMode

/-- Operations of a product: above and below the fraction bar, with the number of factors there. -/
structure FactorCount where
  above : Nat := 0
  aboveCount : Nat := 0
  below : Nat := 0
  belowCount : Nat := 0

namespace Form

variable {κ : Type} [Coefficient κ]

def isNegativeTerm (f : Form κ) : Bool := (Coefficient.toNumber f.split.1).isNegative

def numberOperations : Number → Nat
  | .int n => if n < 0 then 1 else 0
  | .ratio n _ => if n < 0 then 2 else 1
  | .real _ => 0

def productOperations (c : Number) (factors : FactorCount) : Nat :=
  let sign := if c.isNegative then 1 else 0
  let size := if c.isNegative then c.neg else c
  let hasDenominator : Nat :=
    match size with
    | .ratio _ _ => 1
    | _ => 0
  let hasNumerator : Nat :=
    match size with
    | .ratio n _ => if n = 1 then 0 else 1
    | n => if n.isOne then 0 else 1
  let above := factors.aboveCount + hasNumerator
  let below := factors.belowCount + hasDenominator
  sign + factors.above + (above - 1)
    + (if below = 0 then 0 else 1 + factors.below + (below - 1))

mutual

def operations : Form κ → Nat
  | number c => numberOperations (Coefficient.toNumber c)
  | symbol _ => 0
  | unknown _ _ _ => 0
  | extremum _ args => args.length - 1 + operationsAll args
  | inverse base => 1 + operations base
  | power (inverse base) _ => 2 + operations base
  | power base _ => 1 + operations base
  | product c factors => productOperations (Coefficient.toNumber c) (factorCount factors)
  | sum ts =>
      ts.length - 1 + (if ts.all isNegativeTerm then 1 else 0) + operationsOfTerms ts

def operationsAll : List (Form κ) → Nat
  | [] => 0
  | f :: rest => operations f + operationsAll rest

def operationsOfTerms : List (Form κ) → Nat
  | [] => 0
  | f :: rest =>
      (if f.isNegativeTerm then operations f - 1 else operations f) + operationsOfTerms rest

def factorCount : List (Form κ) → FactorCount
  | [] => {}
  | inverse base :: rest =>
      let count := factorCount rest
      { count with below := count.below + operations base, belowCount := count.belowCount + 1 }
  | power (inverse base) _ :: rest =>
      let count := factorCount rest
      { count with below := count.below + 1 + operations base, belowCount := count.belowCount + 1 }
  | f :: rest =>
      let count := factorCount rest
      { count with above := count.above + operations f, aboveCount := count.aboveCount + 1 }

end

def shorter (first second : Form κ) : Form κ :=
  if second.operations < first.operations then second else first

def distribute (a b : Form κ) : Form κ :=
  a.terms.foldl (fun total s => b.terms.foldl (fun total t => total.add (s.mul t)) total) (ofInt 0)

def distributePower (f : Form κ) : Nat → Form κ
  | 0 => ofInt 1
  | e + 1 => distribute (distributePower f e) f

mutual

def expand : Form κ → Form κ
  | power (inverse base) e => power (inverse base) e
  | power base e => distributePower (expand base) e
  | product c factors => scale c (expandProduct factors)
  | sum ts => expandSum ts
  | f => f

def expandProduct : List (Form κ) → Form κ
  | [] => ofInt 1
  | f :: rest => distribute (expand f) (expandProduct rest)

def expandSum : List (Form κ) → Form κ
  | [] => ofInt 0
  | f :: rest => add (expand f) (expandSum rest)

end

mutual

/-- Products multiplied out, but for powers of sums. -/
def multiplyOut : Form κ → Form κ
  | power (inverse base) e => power (inverse base) e
  | power base e => pow (multiplyOut base) e
  | product c factors => scale c (multiplyOutProduct factors)
  | sum ts => multiplyOutSum ts
  | f => f

def multiplyOutProduct : List (Form κ) → Form κ
  | [] => ofInt 1
  | f :: rest => distribute (multiplyOut f) (multiplyOutProduct rest)

def multiplyOutSum : List (Form κ) → Form κ
  | [] => ofInt 0
  | f :: rest => add (multiplyOut f) (multiplyOutSum rest)

end

def integer? (c : κ) : Option Int :=
  match Coefficient.toNumber c with
  | .int n => some n
  | _ => none

def divideTerm (divisor : κ) (t : Form κ) : Form κ :=
  let (c, factors) := t.split
  match Coefficient.divide? c divisor with
  | some quotient => join quotient factors
  | none => t

def primitiveTerms (common : List κ → κ) (ts : List (Form κ)) : κ × Form κ :=
  let divisor := common (ts.map fun t => t.split.1)
  if isOneNumber divisor then (divisor, ofTerms ts)
  else (divisor, ofTerms (ts.map (divideTerm divisor)))

def coefficientPower (c : κ) : Nat → κ
  | 0 => Coefficient.ofInt 1
  | e + 1 => Coefficient.mul (coefficientPower c e) c

mutual

def takeOutContent : Form κ → Form κ
  | sum ts => takeOutContentTerms ts
  | product c factors => scale c (takeOutContentFactors factors)
  | power (sum ts) e =>
      match takeOutContentTerms ts with
      | sum us =>
          let (divisor, base) := primitiveTerms Coefficient.content us
          scale (coefficientPower divisor e) (ofPower base e)
      | f => pow f e
  | f => f

def takeOutContentTerms : List (Form κ) → Form κ
  | [] => ofInt 0
  | f :: rest => add (takeOutContent f) (takeOutContentTerms rest)

def takeOutContentFactors : List (Form κ) → Form κ
  | [] => ofInt 1
  | sum ts :: rest =>
      match takeOutContentTerms ts with
      | sum us =>
          let (divisor, base) := primitiveTerms Coefficient.content us
          mul (join divisor [base]) (takeOutContentFactors rest)
      | f => mul f (takeOutContentFactors rest)
  | f :: rest => mul (takeOutContent f) (takeOutContentFactors rest)

end

def commonFactors (ts : List (Form κ)) : List (Form κ) :=
  match ts with
  | [] => []
  | first :: _ =>
      first.bases.filterMap fun base =>
        let least := ts.foldl (fun m t => min m (t.exponentOf base)) (first.exponentOf base)
        if 0 < least then some (ofPower base least.toNat) else none

def lowerExponent (common : List (Form κ)) (f : Form κ) : List (Form κ) :=
  let (base, e) := f.signedPower
  match common.find? fun g => g.signedPower.1.same base with
  | some g => ofSignedPower base (e - g.signedPower.2)
  | none => [f]

def divideFactors (common : List (Form κ)) (t : Form κ) : Form κ :=
  let (c, factors) := t.split
  join c (factors.flatMap (lowerExponent common))

def takeOutOfSum (ts : List (Form κ)) : Form κ :=
  let (divisor, primitive) := primitiveTerms Coefficient.commonFactor ts
  let common := commonFactors primitive.terms
  if common.isEmpty then join divisor [primitive]
  else
    let inner := ofTerms (primitive.terms.map (divideFactors common))
    let (c, factors) := inner.split
    join (Coefficient.mul divisor c) (mergeFactors common factors)

mutual

def takeOut : Form κ → Form κ
  | sum ts => takeOutOfSum (takeOutTerms ts).terms
  | product c factors => scale c (takeOutFactors factors)
  | power (inverse base) e => power (inverse base) e
  | power base e => pow (takeOut base) e
  | f => f

def takeOutTerms : List (Form κ) → Form κ
  | [] => ofInt 0
  | f :: rest => add (takeOut f) (takeOutTerms rest)

def takeOutFactors : List (Form κ) → Form κ
  | [] => ofInt 1
  | f :: rest => mul (takeOut f) (takeOutFactors rest)

end

mutual

def multiplyIn : Form κ → Form κ
  | product c [sum ts] => scale c (multiplyInTerms ts)
  | product c factors => join c (multiplyInAll factors)
  | sum ts => multiplyInTerms ts
  | power base e => power (multiplyIn base) e
  | f => f

def multiplyInTerms : List (Form κ) → Form κ
  | [] => ofInt 0
  | f :: rest => add (multiplyIn f) (multiplyInTerms rest)

def multiplyInAll : List (Form κ) → List (Form κ)
  | [] => []
  | f :: rest => multiplyIn f :: multiplyInAll rest

end

/-- More minus signs than plus signs, or as many and the negation comes later in order. -/
def leadsWithMinus (ts : List (Form κ)) : Bool :=
  let negative := (ts.filter isNegativeTerm).length
  let positive := ts.length - negative
  if negative < positive then false
  else if positive < negative then true
  else compareKeys (sum ts).key (neg (sum ts)).key == .lt

/-- A power of a sum that leads with a minus, as a signed power of the negated sum. -/
def normalizeFactorSign (f : Form κ) : Form κ :=
  match f.signedPower with
  | (sum ts, e) =>
      if leadsWithMinus ts then
        join (Coefficient.ofInt (if e % 2 = 0 then 1 else -1)) (ofSignedPower (neg (sum ts)) e)
      else f
  | _ => f

def normalizeTermSigns (t : Form κ) : Form κ :=
  match t with
  | sum ts => sum ts
  | product c [sum ts] => product c [sum ts]
  | _ =>
      let (c, factors) := t.split
      scale c ((factors.map normalizeFactorSign).foldl mul (ofInt 1))

def normalizeSigns (f : Form κ) : Form κ :=
  match f with
  | sum ts => (ts.map normalizeTermSigns).foldl add (ofInt 0)
  | _ => normalizeTermSigns f

def hasLeadingMinus : Form κ → Bool
  | sum ts => leadsWithMinus ts
  | f => f.isNegativeTerm

def isLinearTerm (f : Form κ) : Bool :=
  match f.split.2 with
  | [] => true
  | [g] => g.isAtom
  | _ => false

def isAffine (f : Form κ) : Bool := f.terms.all isLinearTerm

end Form

end ReverseMode
