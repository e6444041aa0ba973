import ReverseMode.Algebra.Division

namespace ReverseMode

structure Fraction where
  above : Form Number
  below : Form Number

namespace Form

mutual

def hasReal {κ : Type} [Coefficient κ] : Form κ → Bool
  | number c => (Coefficient.toNumber c).isReal
  | symbol _ => false
  | unknown _ _ _ => false
  | extremum _ args => anyReal args
  | inverse base => hasReal base
  | power base _ => hasReal base
  | product c factors => (Coefficient.toNumber c).isReal || anyReal factors
  | sum ts => anyReal ts

def anyReal {κ : Type} [Coefficient κ] : List (Form κ) → Bool
  | [] => false
  | f :: rest => hasReal f || anyReal rest

end

def mapCoefficients {κ : Type} [Coefficient κ] (change : κ → κ) (f : Form κ) : Form κ :=
  let changed (t : Form κ) : Form κ :=
    let (c, factors) := t.split
    if factors.isEmpty then number (change c) else product (change c) factors
  match f with
  | sum ts => sum (ts.map changed)
  | _ => changed f

def reciprocal? (f : Form Number) : Option (Form Number) :=
  let (c, factors) := f.split
  let invert (g : Form Number) : List (Form Number) :=
    let (base, e) := g.signedPower
    ofSignedPower base (-e)
  c.reciprocal?.map fun k => ofFactors k (sortFactors (factors.flatMap invert))

def reciprocal (f : Form Number) : Form Number := f.reciprocal?.getD (inverse f)

end Form

namespace Fraction

open Form

def ofNumber : Number → Fraction
  | .ratio n d => ⟨number (.int n), number (.int d)⟩
  | c => ⟨number c, ofInt 1⟩

def mul (p q : Fraction) : Fraction := ⟨p.above.mul q.above, p.below.mul q.below⟩

def pow (q : Fraction) (e : Nat) : Fraction := ⟨q.above.pow e, q.below.pow e⟩

def invert (q : Fraction) : Fraction := ⟨q.below, q.above⟩

def toForm (q : Fraction) : Form Number := q.above.mul q.below.reciprocal

def mergeFraction (q : Fraction) : List Fraction → List Fraction
  | [] => [q]
  | p :: rest =>
      if q.below.same p.below then ⟨p.above.add q.above, p.below⟩ :: rest
      else p :: mergeFraction q rest

def ofSum (fractions : List Fraction) : Fraction :=
  let apart := fractions.foldl (fun merged q => mergeFraction q merged) []
  apart.foldr (fun q total =>
      ⟨(q.above.mul total.below).add (total.above.mul q.below), q.below.mul total.below⟩)
    ⟨ofInt 0, ofInt 1⟩

def cancel (q : Fraction) (divisor : Form Number) : Fraction :=
  match q.above.divide? divisor, q.below.divide? divisor with
  | some above, some below => ⟨above, below⟩
  | _, _ => q

def normalized (q : Fraction) : Fraction :=
  let (c, above) := primitiveTerms Coefficient.content q.above.terms
  let (d, below) := primitiveTerms Coefficient.content q.below.terms
  let leading := (leadingTerm? (allBases below.terms) below.terms).map fun t => t.split.1
  let sign : Number := .int (if (leading.getD (.int 1)).isNegative then -1 else 1)
  let outer := Fraction.ofNumber ((c.divide? d).getD c)
  ⟨(above.mul outer.above).scale sign, (below.mul outer.below).scale sign⟩

end Fraction

namespace Form

mutual

def fraction : Form Number → Fraction
  | number c => Fraction.ofNumber c
  | inverse base => (fraction base).invert
  | power (inverse base) e => ((fraction base).pow e).invert
  | power base e => (fraction base).pow e
  | product c factors => (Fraction.ofNumber c).mul (fractionOfProduct factors)
  | sum ts => Fraction.ofSum (fractions ts)
  | f => ⟨f, ofInt 1⟩

def fractionOfProduct : List (Form Number) → Fraction
  | [] => ⟨ofInt 1, ofInt 1⟩
  | f :: rest => (fraction f).mul (fractionOfProduct rest)

def fractions : List (Form Number) → List Fraction
  | [] => []
  | f :: rest => fraction f :: fractions rest

end

def overDenominator (f : Form Number) : Form Number :=
  match f with
  | sum ts =>
      let (divisor, primitive) := primitiveTerms Coefficient.content ts
      ((Fraction.ofNumber divisor).mul primitive.fraction).toForm
  | _ => f.fraction.toForm

mutual

def combined : Form Number → Form Number
  | inverse base => (combined base).reciprocal
  | power (inverse base) e => ((combined base).pow e).reciprocal
  | power base e => ((combined base).pow e).overDenominator
  | product c factors => (scale c (combinedProduct factors)).overDenominator
  | sum ts => (combinedSum ts).overDenominator
  | f => f

def combinedProduct : List (Form Number) → Form Number
  | [] => ofInt 1
  | f :: rest => mul (combined f) (combinedProduct rest)

def combinedSum : List (Form Number) → Form Number
  | [] => ofInt 0
  | f :: rest => add (combined f) (combinedSum rest)

end

def monic (f : Form Number) : Form Number :=
  match (leadingTerm? (allBases f.terms) f.terms).bind fun t => t.split.1.reciprocal? with
  | some k => scale k f
  | none => f

def divisors (f : Form Number) : List (Form Number) :=
  f.split.2.flatMap fun g => List.replicate g.basePower.2 g.basePower.1.expand.monic

def cancelled (f : Form Number) : Form Number :=
  let q := f.fraction
  let expanded : Fraction :=
    ⟨(expand q.above).mapCoefficients .toExact, (expand q.below).mapCoefficients .toExact⟩
  let plain :=
    match expanded.below with
    | number _ => expanded
    | _ =>
        let known := divisors q.below ++ divisors q.above
          ++ [monic expanded.below, monic expanded.above]
        (known.filter fun g : Form Number => !g.isNumber).foldl Fraction.cancel expanded
  if f.hasReal then
    let real (g : Form Number) : Form Number := g.mapCoefficients fun n => .real n.toFloat
    match plain.below with
    | number _ => real plain.toForm
    | _ => (⟨real plain.above, real plain.below⟩ : Fraction).toForm
  else plain.normalized.toForm

def primitiveFactor (f : Form Number) : Form Number :=
  match f.signedPower with
  | (sum ts, e) =>
      let (divisor, base) := primitiveTerms Coefficient.content ts
      let size := coefficientPower divisor e.natAbs
      join (if e < 0 then (size.reciprocal?).getD size else size) (ofSignedPower base e)
  | _ => f

def primitiveTerm (t : Form Number) : Form Number :=
  let (c, factors) := t.split
  let normalized := factors.map primitiveFactor
  let coefficient := normalized.foldl (fun k f => Number.mul k f.split.1) c
  join coefficient (sortFactors (normalized.flatMap fun f => f.split.2))

def sharedFactors (ts : List (Form Number)) : List (Form Number) :=
  match ts with
  | [] => []
  | first :: _ =>
      first.bases.flatMap fun base =>
        let exponents := ts.map fun t => t.exponentOf base
        let least := exponents.foldl min (first.exponentOf base)
        let greatest := exponents.foldl max (first.exponentOf base)
        ofSignedPower base (if 0 < least then least else if greatest < 0 then greatest else 0)

def commonDenominator (ts : List (Form Number)) : List (Form Number) :=
  (allBases ts).flatMap fun base =>
    let least := ts.foldl (fun m t => min m (t.exponentOf base)) 0
    ofSignedPower base (-least)

/-- A sum with what its terms share in front, over the common
denominator if `combine` is set. -/
def collectSum (combine : Bool) (ts : List (Form Number)) : Form Number :=
  let (divisor, primitive) :=
    primitiveTerms Coefficient.commonFactor (ts.map primitiveTerm)
  let shared := sharedFactors primitive.terms
  let rest := primitive.terms.map (divideFactors shared)
  let denominator := if combine then join (.int 1) (commonDenominator rest) else ofInt 1
  let whole := (rest.map denominator.mul).foldl add (ofInt 0)
  let (content, numerator) := primitiveTerms Coefficient.content whole.terms
  let (c, factors) := numerator.split
  let below := denominator.reciprocal.split.2
  join (Number.mul (Number.mul divisor content) c)
    (mergeFactors (mergeFactors shared below) factors)

mutual

def collected (combine : Bool) : Form Number → Form Number
  | inverse base => (collected combine base).reciprocal
  | power (inverse base) e => ((collected combine base).pow e).reciprocal
  | power base e => pow (collected combine base) e
  | product c factors => scale c (collectedProduct combine factors)
  | sum ts => collectSum combine (collectedSum combine ts).terms
  | f => f

def collectedProduct (combine : Bool) : List (Form Number) → Form Number
  | [] => ofInt 1
  | f :: rest => mul (collected combine f) (collectedProduct combine rest)

def collectedSum (combine : Bool) : List (Form Number) → Form Number
  | [] => ofInt 0
  | f :: rest => add (collected combine f) (collectedSum combine rest)

end

end Form

end ReverseMode
