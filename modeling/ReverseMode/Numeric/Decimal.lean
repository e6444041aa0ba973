namespace ReverseMode.Decimal

inductive Parts where
  | nan
  | infinite (negative : Bool)
  | finite (negative : Bool) (mantissa : Nat) (exponent : Int)

def partsOfBits (bits : Nat) : Parts :=
  let negative : Bool := bits / Nat.pow 2 63 % 2 = 1
  let biased : Nat := bits / Nat.pow 2 52 % Nat.pow 2 11
  let fraction : Nat := bits % Nat.pow 2 52
  if biased = Nat.pow 2 11 - 1 then
    if fraction = 0 then .infinite negative else .nan
  else if biased = 0 then .finite negative fraction (-1074)
  else .finite negative (Nat.pow 2 52 + fraction) ((biased : Int) - 1075)

def parts (x : Float) : Parts := partsOfBits x.toBits.toNat

structure Ratio where
  num : Nat
  den : Nat

def Ratio.ofBinary (mantissa : Nat) (exponent : Int) : Ratio :=
  if 0 ≤ exponent then ⟨mantissa * Nat.pow 2 exponent.toNat, 1⟩
  else ⟨mantissa, Nat.pow 2 (-exponent).toNat⟩

def Ratio.scale (r : Ratio) (power : Int) : Ratio :=
  if 0 ≤ power then ⟨r.num * Nat.pow 10 power.toNat, r.den⟩
  else ⟨r.num, r.den * Nat.pow 10 (-power).toNat⟩

def powersBelow (n : Nat) : Nat → Nat → Nat
  | 0, start => start
  | limit + 1, start =>
      if Nat.pow 10 (start + 1) ≤ n then powersBelow n limit (start + 1) else start

def stepsToOne (r : Ratio) : Nat → Nat → Nat
  | 0, steps => steps
  | limit + 1, steps =>
      if r.den ≤ r.num * Nat.pow 10 steps then steps else stepsToOne r limit (steps + 1)

def Ratio.leadingExponent (r : Ratio) : Int :=
  if r.den ≤ r.num then (powersBelow (r.num / r.den) 400 0 : Int) else -(stepsToOne r 400 0 : Int)

def roundHalfEven (num den : Nat) : Nat :=
  let quotient := num / den
  let twice := 2 * (num % den)
  if twice < den then quotient
  else if den < twice then quotient + 1
  else if quotient % 2 = 0 then quotient else quotient + 1

structure Digits where
  digits : Nat
  exponent : Int

/-- The doubles' rounding interval around a value: which decimals read back as it. -/
structure Neighbourhood where
  value : Ratio
  low : Ratio
  high : Ratio
  closed : Bool

def Ratio.less (a b : Ratio) : Bool := a.num * b.den < b.num * a.den

def Neighbourhood.admits (n : Neighbourhood) (d : Ratio) : Bool :=
  if n.closed then !d.less n.low && !n.high.less d else n.low.less d && d.less n.high

/-- Below a power of two the gap to the next double is half as wide. -/
def neighbourhood (mantissa : Nat) (exponent : Int) : Neighbourhood where
  value := .ofBinary mantissa exponent
  low :=
    if mantissa = Nat.pow 2 52 ∧ -1074 < exponent then .ofBinary (4 * mantissa - 1) (exponent - 2)
    else .ofBinary (2 * mantissa - 1) (exponent - 1)
  high := .ofBinary (2 * mantissa + 1) (exponent - 1)
  closed := mantissa % 2 = 0

def Neighbourhood.candidate? (n : Neighbourhood) (leading : Int) (count : Nat) : Option Digits :=
  let exponent := leading - count + 1
  let scaled := n.value.scale (-exponent)
  let below := scaled.num / scaled.den
  let lowFits := n.admits (Ratio.scale ⟨below, 1⟩ exponent)
  let highFits := n.admits (Ratio.scale ⟨below + 1, 1⟩ exponent)
  if lowFits && highFits then some ⟨roundHalfEven scaled.num scaled.den, exponent⟩
  else if lowFits then some ⟨below, exponent⟩
  else if highFits then some ⟨below + 1, exponent⟩
  else none

def Neighbourhood.shortest (n : Neighbourhood) : Digits :=
  let leading := n.value.leadingExponent
  match (List.range' 1 17).findSome? (n.candidate? leading) with
  | some digits => digits
  | none =>
      let scaled := n.value.scale (16 - leading)
      ⟨roundHalfEven scaled.num scaled.den, leading - 16⟩

def dropZeros : Nat → Digits → Digits
  | 0, d => d
  | limit + 1, d =>
      if d.digits ≠ 0 ∧ d.digits % 10 = 0 then dropZeros limit ⟨d.digits / 10, d.exponent + 1⟩
      else d

def zeros (count : Nat) : String := String.ofList (List.replicate count '0')

def signText (negative : Bool) : String := if negative then "-" else ""

def exponentText (exponent : Int) : String :=
  let digits := toString exponent.natAbs
  (if exponent < 0 then "-" else "+") ++ (if digits.length < 2 then "0" else "") ++ digits

def pointAfterFirst (digits : String) : String :=
  let rest := (digits.drop 1).toString
  (digits.take 1).toString ++ (if rest.isEmpty then "" else "." ++ rest)

/-- Positional notation for leading digits between `10 ^ -4` and `10 ^ 15`, else scientific. A
positional number always shows a fractional digit. -/
def Digits.text (d : Digits) : String :=
  let trimmed := dropZeros 20 d
  let digits := toString trimmed.digits
  let leading := trimmed.exponent + digits.length - 1
  if leading < -4 ∨ 16 ≤ leading then pointAfterFirst digits ++ "e" ++ exponentText leading
  else if leading < 0 then "0." ++ zeros (-leading - 1).toNat ++ digits
  else if 0 ≤ trimmed.exponent then digits ++ zeros trimmed.exponent.toNat ++ ".0"
  else
    let whole := (leading + 1).toNat
    (digits.take whole).toString ++ "." ++ (digits.drop whole).toString

def shortest (x : Float) : String :=
  match parts x with
  | .nan => "nan"
  | .infinite negative => signText negative ++ "inf"
  | .finite negative 0 _ => signText negative ++ "0.0"
  | .finite negative mantissa exponent =>
      signText negative ++ (neighbourhood mantissa exponent).shortest.text

def scientific (places : Nat) (x : Float) : String :=
  let write (negative : Bool) (digits : Nat) (exponent : Int) : String :=
    signText negative ++ pointAfterFirst (toString digits) ++ "e" ++ exponentText exponent
  match parts x with
  | .nan => "nan"
  | .infinite negative => signText negative ++ "inf"
  | .finite negative 0 _ =>
      signText negative ++ "0" ++ (if places = 0 then "" else "." ++ zeros places) ++ "e+00"
  | .finite negative mantissa exponent =>
      let value := Ratio.ofBinary mantissa exponent
      let leading := value.leadingExponent
      let scaled := value.scale (places - leading)
      let digits := roundHalfEven scaled.num scaled.den
      if digits < Nat.pow 10 (places + 1) then write negative digits leading
      else write negative (digits / 10) (leading + 1)

def truncate? (x : Float) : Option Int :=
  match parts x with
  | .finite negative mantissa exponent =>
      let value := Ratio.ofBinary mantissa exponent
      let whole : Int := (value.num / value.den : Nat)
      some (if negative then -whole else whole)
  | _ => none

end ReverseMode.Decimal
