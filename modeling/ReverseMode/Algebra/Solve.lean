import ReverseMode.Algebra.Simplify

/-!
# Solving equations

An equation is solved for a variable when it has exactly one solution and that solution is a
polynomial with integer coefficients in the other variables. Solutions for an integer variable that
are numbers must be integers.
-/

namespace ReverseMode

namespace Form

variable {κ : Type} [Literals κ]

mutual

def mentions (name : String) : Form κ → Bool
  | number _ => false
  | symbol other => other == name
  | unknown _ _ _ => false
  | extremum _ args => anyMentions name args
  | inverse base => mentions name base
  | power base _ => mentions name base
  | product _ factors => anyMentions name factors
  | sum ts => anyMentions name ts

def anyMentions (name : String) : List (Form κ) → Bool
  | [] => false
  | f :: rest => mentions name f || anyMentions name rest

end

def separate (name : String) (t : Form κ) : Nat × Form κ :=
  let (c, factors) := t.split
  let isPower (g : Form κ) : Bool :=
    match g.basePower.1 with
    | symbol other => other == name
    | _ => false
  match factors.find? isPower with
  | some g => (g.basePower.2, join c (factors.filter fun h => !isPower h))
  | none => (0, t)

def coefficientsIn (name : String) (f : Form κ) : List (Form κ) :=
  let parts := f.terms.map (separate name)
  let degree := parts.foldl (fun d part => max d part.1) 0
  (List.range (degree + 1)).map fun k =>
    ((parts.filter fun part => part.1 = k).map fun part => part.2).foldl add (ofInt 0)

def isIntegerPolynomial (f : Form κ) : Bool :=
  f.terms.all fun t =>
    (integer? t.split.1).isSome && t.split.2.all fun g =>
      match g.basePower.1 with
      | symbol _ => true
      | _ => false

def isZeroForm (f : Form κ) : Bool := f.terms.isEmpty

def integerValue? (f : Form κ) : Option Int :=
  match f with
  | number c => integer? c
  | _ => none

def evaluate (coefficients : List Int) (x : Int) : Int :=
  coefficients.foldr (fun c total => c + x * total) 0

def smallDivisors (n d : Nat) : (count : Nat) → List Nat
  | 0 => []
  | count + 1 =>
      if n < d * d then []
      else if n % d = 0 then d :: smallDivisors n (d + 1) count
      else smallDivisors n (d + 1) count

/-- The integers at which a polynomial with nonzero constant term vanishes, among the divisors of the
constant. -/
def integerRoots (coefficients : List Int) : List Int :=
  let constant : Nat := (coefficients.headD 0).natAbs
  let withCofactor (d : Nat) : List Int :=
    let cofactor : Nat := constant / d
    [d, -d, cofactor, -cofactor]
  let candidates := (smallDivisors constant 1 constant).flatMap withCofactor
  (candidates.filter fun x => evaluate coefficients x = 0).eraseDups

def repeatedRoot? (name : String) (f : Form κ) (coefficients : List (Form κ)) :
    Option (Form κ) := do
  let degree := coefficients.length - 1
  let leading ← coefficients.getLast?
  let next ← coefficients[degree - 1]?
  let root ← next.neg.divide? (leading.scale (Coefficient.ofInt degree))
  let candidate := distribute leading (distributePower ((symbol name).sub root) degree)
  if isZeroForm (candidate.sub f) then some root else none

/-- The only solution of `f = 0` for a symbol, where `f` is expanded; `whole` restricts numeric
solutions to integers. -/
def onlyRoot? (name : String) (whole : Bool) (f : Form κ) : Option (Form κ) :=
  let coefficients := coefficientsIn name f
  let rest := coefficients.dropWhile isZeroForm
  let vanishesAtZero := rest.length < coefficients.length
  match rest with
  | [] => none
  | [_] => if vanishesAtZero then some (ofInt 0) else none
  | [b, a] =>
      if vanishesAtZero then
        -- a second solution counts unless it is a fraction where an integer is asked for
        match integerValue? b, integerValue? a with
        | some m, some n => if whole && m % n ≠ 0 then some (ofInt 0) else none
        | _, _ => none
      else b.neg.divide? a
  | _ =>
      match rest.mapM integerValue?, whole with
      | some numbers, true =>
          match (if vanishesAtZero then [0] else []) ++ integerRoots numbers with
          | [root] => some (ofInt root)
          | _ => none
      | some numbers, false =>
          if vanishesAtZero then none
          else if rest.length % 2 = 0 && (rest.drop 1).dropLast.all isZeroForm then
            match integerRoots numbers with
            | [root] => some (ofInt root)
            | _ => none
          else repeatedRoot? name f rest
      | none, _ => if vanishesAtZero then none else repeatedRoot? name f rest

mutual

/-- Whether a symbol occurs where collecting terms does not look. -/
def hides (name : String) : Form κ → Bool
  | extremum _ args => anyMentions name args
  | inverse base => mentions name base
  | power base _ => hides name base
  | product _ factors => anyHides name factors
  | sum ts => anyHides name ts
  | _ => false

def anyHides (name : String) : List (Form κ) → Bool
  | [] => false
  | f :: rest => hides name f || anyHides name rest

end

def showsNoNumber (f : Form κ) : Bool :=
  f.terms.all fun t => isOneNumber t.split.1 && !t.split.2.isEmpty

/-- The solution of `left = right` for a symbol, if it is the only one and an integer polynomial.
With floats in the equation every number of the solution is a float; a float is no integer, but for
zero. -/
def solveFor? (name : String) (whole : Bool) (left right : Form κ) : Option (Form κ) := do
  let difference := expand (left.sub right)
  if difference.hides name then none
  else
    let equation := Literals.numerator difference
    let root ← onlyRoot? name whole (equation.mapCoefficients Literals.toExact)
    if !isIntegerPolynomial root then none
    else if !left.hasReal && !right.hasReal then some root
    else if isZeroForm root then some (root.mapCoefficients Literals.toReal)
    else if root.showsNoNumber then some root
    else none

end Form

structure Solution where
  solved : Bool
  result : Expr

namespace Expr

def readSides {κ : Type} [Literals κ] (left right : Expr) : ReadM (Form κ × Form κ) := do
  let f ← read left
  let g ← read right
  return (f, g)

def writeRoot {κ : Type} [Literals κ] (equation : Expr) (unknownName : String)
    (symbols : Symbols) (left right : Form κ) : NodeM Solution := do
  let unsolved : Solution := ⟨false, equation⟩
  match symbols.node? unknownName with
  | none => pure unsolved
  | some target =>
      match left.solveFor? unknownName (target.dtype != .float32) right with
      | none => pure unsolved
      | some root =>
          match ← (root.write symbols).run with
          | .error _ => pure unsolved
          | .ok value => do
              let result ← eq target value
              pure ⟨true, result⟩

def solve (equation : Expr) (unknownName : String) : BuildM Solution := do
  match equation with
  | node _ (.binary .eq) _ [left, right] =>
      let symbols : Symbols := { allowUnknowns := false }
      match (readSides left right : ReadM (Form Int × Form Int)).run symbols with
      | (.ok (f, g), symbols) =>
          (writeRoot equation unknownName symbols f g : NodeM Solution)
      | (.error .notArithmetic, _) => pure ⟨false, equation⟩
      | (.error _, _) =>
          match (readSides left right : ReadM (Form Number × Form Number)).run symbols with
          | (.ok (f, g), symbols) =>
              (writeRoot equation unknownName symbols f g : NodeM Solution)
          | (.error .divisionByZero, _) => throw .divisionByZero
          | (.error _, _) => pure ⟨false, equation⟩
  | _ =>
      if equation.kind = "EQ" then throw .missingOperand else throw (.notAnEquation equation.kind)

end Expr

end ReverseMode
