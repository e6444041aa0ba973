import ReverseMode.Algebra.Number

/-!
# Algebraic forms

A form is an arithmetic expression in collected shape: a sum has at least two terms with different
monomials, a product is a coefficient times powers of different bases, a minimum or maximum has at
least two arguments none of which is known to be redundant. Nodes that algebra cannot look into are
unknowns, told apart by their rank; the whole ones are known to be integers.

Forms are totally ordered by a key: numbers, then unknowns, then symbols by name, then products,
sums, maxima and minima. Sums and products keep their terms and factors in a fixed order, so two
forms built from the same parts are the same form.
-/

namespace ReverseMode

inductive Form (κ : Type) where
  | number (value : κ)
  | symbol (name : String)
  | unknown (kind : String) (rank : Nat) (whole : Bool)
  | extremum (greatest : Bool) (args : List (Form κ))
  | inverse (base : Form κ)
  | power (base : Form κ) (exponent : Nat)
  | product (coefficient : κ) (factors : List (Form κ))
  | sum (terms : List (Form κ))

instance {κ : Type} : Inhabited (Form κ) := ⟨.symbol ""⟩

inductive KeyPart where
  | rank (n : Nat)
  | text (s : String)
  | number (n : Number)

namespace KeyPart

def compare : KeyPart → KeyPart → Ordering
  | rank m, rank n => Ord.compare m n
  | text s, text t => if s < t then .lt else if s = t then .eq else .gt
  | number m, number n => if m.less n then .lt else if n.less m then .gt else .eq
  | rank _, _ => .lt
  | _, rank _ => .gt
  | text _, number _ => .lt
  | number _, text _ => .gt

end KeyPart

def compareKeys : List KeyPart → List KeyPart → Ordering
  | [], [] => .eq
  | [], _ :: _ => .lt
  | _ :: _, [] => .gt
  | a :: as, b :: bs => (a.compare b).then (compareKeys as bs)

namespace Form

variable {κ : Type} [Coefficient κ]

def ofInt (n : Int) : Form κ := .number (Coefficient.ofInt n)

def isNumber : Form κ → Bool
  | number _ => true
  | _ => false

def number? : Form κ → Option Number
  | number c => some (Coefficient.toNumber c)
  | _ => none

def isSum : Form κ → Bool
  | sum _ => true
  | _ => false

/-- A symbol, an unknown or an extremum: what collecting terms does not look into. -/
def isAtom : Form κ → Bool
  | symbol _ => true
  | unknown _ _ _ => true
  | extremum _ _ => true
  | _ => false

def numberKey (n : Number) : List KeyPart :=
  [.rank 1, .rank 0, .text "Number", .rank 0, .number n]

def basePartsKey (parts : List KeyPart) (exponent : Int) (coefficient : Number) : List KeyPart :=
  parts ++ numberKey (.int exponent) ++ [.number coefficient]

def signedExponent : Form κ → Int
  | inverse _ => -1
  | power (inverse _) e => -(e : Int)
  | power _ e => e
  | _ => 1

mutual

/-- The key of a form without exponent and coefficient: its class and its arguments. A base that
carries an exponent or a coefficient is written with `wrapped`. -/
def baseParts (wrapped : Bool) : Form κ → List KeyPart
  | number c => numberKey (Coefficient.toNumber c)
  | symbol name => [.rank 2, .rank 0, .text "Symbol", .rank 1, .text name]
  | unknown kind rank _ =>
      let plain := [.rank 2, .rank 0, .text "Dummy", .rank 2, .text kind, .rank rank]
      if wrapped then
        [.rank 2, .rank 0, .text "Dummy", .rank 1] ++ basePartsKey plain 1 (.int 1)
      else plain
  | extremum greatest args =>
      [.rank 5, .rank 0, .text (if greatest then "Max" else "Min"), .rank args.length]
        ++ keys args
  | inverse base => baseParts true base
  | power base _ => baseParts true base
  | product _ factors =>
      [.rank 3, .rank 0, .text "Mul", .rank factors.length] ++ keys factors
  | sum terms => [.rank 3, .rank 1, .text "Add", .rank terms.length] ++ keys terms

def keys : List (Form κ) → List KeyPart
  | [] => []
  | number c :: rest => numberKey (Coefficient.toNumber c) ++ keys rest
  | product c [f] :: rest =>
      basePartsKey (baseParts true f) f.signedExponent (Coefficient.toNumber c) ++ keys rest
  | product c factors :: rest =>
      basePartsKey ([.rank 3, .rank 0, .text "Mul", .rank factors.length] ++ keys factors) 1
        (Coefficient.toNumber c) ++ keys rest
  | f :: rest => basePartsKey (baseParts false f) f.signedExponent (.int 1) ++ keys rest

end

def key (f : Form κ) : List KeyPart := keys [f]

mutual

def same : Form κ → Form κ → Bool
  | number c, number d => (Coefficient.toNumber c).same (Coefficient.toNumber d)
  | symbol a, symbol b => a == b
  | unknown k m v, unknown l n w => k == l && m == n && v == w
  | extremum g as, extremum h bs => g == h && allSame as bs
  | inverse a, inverse b => same a b
  | power a m, power b n => m == n && same a b
  | product c as, product d bs =>
      (Coefficient.toNumber c).same (Coefficient.toNumber d) && allSame as bs
  | sum as, sum bs => allSame as bs
  | _, _ => false

def allSame : List (Form κ) → List (Form κ) → Bool
  | [], [] => true
  | a :: as, b :: bs => same a b && allSame as bs
  | _, _ => false

end

mutual

/-- How many nodes the form has when every power and every sign is a node of its own. -/
def size : Form κ → Nat
  | number _ => 1
  | symbol _ => 1
  | unknown _ _ _ => 1
  | extremum _ args => 1 + sizes args
  | inverse base => size base + 2
  | power (inverse base) _ => size base + 2
  | power base _ => size base + 2
  | product c factors =>
      (if (Coefficient.toNumber c).isOne then 0 else 1)
        + (if (Coefficient.toNumber c).isOne && factors.length = 1 then 0 else 1) + sizes factors
  | sum terms => 1 + sizes terms

def sizes : List (Form κ) → Nat
  | [] => 0
  | f :: rest => size f + sizes rest

end

def before (a b : Form κ) : Bool := compareKeys a.key b.key != .gt

def smallerBefore (a b : Form κ) : Bool :=
  if a.size = b.size then a.before b else a.size < b.size

end Form

end ReverseMode
