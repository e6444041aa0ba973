import ReverseMode.Algebra.Fraction
import ReverseMode.Expr.Build

namespace ReverseMode

/-- The nodes that symbols and unknowns stand for. -/
structure Symbols where
  vars : List (String × Expr) := []
  unknowns : List Expr := []
  /-- Whether nodes that are not arithmetic may be met. -/
  allowUnknowns : Bool := true

inductive Unreadable where
  | divisionByZero
  | undefined (text : String)
  | notArithmetic
  | notExact

abbrev ReadM := ExceptT Unreadable (StateM Symbols)

/-- How literals are read and written, and how forms are divided, for a type of coefficients. -/
class Literals (κ : Type) extends Coefficient κ where
  ofConstant : Constant → Except Unreadable (Option κ)
  quotient : Form κ → Form κ → Except Unreadable (Form κ)
  /-- An expanded form without its denominator. -/
  numerator : Form κ → Form κ
  /-- The form over its denominator. -/
  combined : Form κ → Form κ
  /-- The form with products multiplied out and fractions cancelled. -/
  multipliedOut : Form κ → Form κ
  /-- Common factors taken out of every sum, its terms brought over their denominator. -/
  together : Form κ → Form κ
  /-- Common factors taken out of every sum. -/
  takenOut : Form κ → Form κ
  toConstant : κ → Constant
  /-- The exact value of a coefficient. -/
  toExact : κ → κ
  /-- The coefficient as a float. -/
  toReal : κ → κ

namespace Number

def undefined? : Number → Option String
  | real x =>
      if x.isNaN then some "nan"
      else if x.isInf then some (if x < 0.0 then "-oo" else "oo")
      else none
  | _ => none

def toConstant : Number → Constant
  | int n => .int n
  | n => .float n.toFloat

end Number

namespace Form

def undefined? {κ : Type} [Coefficient κ] : Form κ → Option String
  | number c => (Coefficient.toNumber c).undefined?
  | _ => none

/-- The quotient of forms. Dividing a float by a float zero is refused, any other quotient by zero
is undefined. -/
def quotient (a b : Form Number) : Except Unreadable (Form Number) :=
  let byReciprocal : Except Unreadable (Form Number) :=
    match b.reciprocal? with
    | some r => .ok (a.mul r)
    | none => .error (.undefined "zoo")
  match a, b with
  | number (.real x), number (.real y) =>
      if y == 0.0 then .error .divisionByZero else .ok (number (.ofFloat (x / y)))
  | number (.real x), number (.int n) =>
      if n = 0 then .error (.undefined "zoo")
      else .ok (number (.ofFloat (x / Float.ofInt n)))
  | _, number (.real y) => if y == 0.0 then .error (.undefined "zoo") else byReciprocal
  | _, _ => byReciprocal

end Form

instance : Literals Int where
  ofConstant
    | .int n => .ok (some n)
    | .float _ => .error .notExact
    | .bool _ => .ok none
  quotient _ _ := .error .notExact
  numerator f := f
  combined f := f
  multipliedOut := Form.expand
  together := Form.takeOut
  takenOut := Form.takeOut
  toConstant := .int
  toExact n := n
  toReal n := n

instance : Literals Number where
  ofConstant
    | .int n => .ok (some (.int n))
    | .float x => .ok (some (.real (if x == 0.0 then 0.0 else x)))
    | .bool _ => .ok none
  quotient := Form.quotient
  numerator f := f.fraction.above.expand
  combined := Form.combined
  multipliedOut := Form.cancelled
  together := Form.collected true
  takenOut := Form.collected false
  toConstant := Number.toConstant
  toExact := Number.toExact
  toReal n := .real n.toFloat

namespace Symbols

def noteVariable (name : String) (e : Expr) (s : Symbols) : Symbols :=
  if s.vars.any fun entry => entry.1 == name then s
  else { s with vars := s.vars ++ [(name, e)] }

def rankOf (e : Expr) (s : Symbols) : Nat × Symbols :=
  match s.unknowns.findIdx? e.same with
  | some rank => (rank, s)
  | none => (s.unknowns.length, { s with unknowns := s.unknowns ++ [e] })

def node? (s : Symbols) (name : String) : Option Expr := s.vars.lookup name

end Symbols

namespace Expr

variable {κ : Type} [Literals κ]

def readVariable (name : String) (e : Expr) : ReadM (Form κ) := do
  modify (Symbols.noteVariable name e)
  return .symbol name

def readUnknown (e : Expr) : ReadM (Form κ) := do
  if !(← get).allowUnknowns then throw .notArithmetic
  let rank ← modifyGet (Symbols.rankOf e)
  return .unknown e.kind rank (e.dtype = .int32)

def defined (f : Form κ) : Except Unreadable (Form κ) :=
  match f.undefined? with
  | some text => .error (.undefined text)
  | none => .ok f

/-- The extremum of two forms; an infinite number is no argument or the whole result. -/
def readExtremum (greatest : Bool) (a b : Form κ) : Except Unreadable (Form κ) :=
  let neutral := if greatest then "-oo" else "oo"
  match a.undefined?, b.undefined? with
  | none, none => .ok (Form.extreme greatest [a, b])
  | some text, none => if text = neutral then .ok b else .error (.undefined text)
  | none, some text => if text = neutral then .ok a else .error (.undefined text)
  | some text, some _ => .error (.undefined text)

def readBinary (op : BinaryOp) (a b : Form κ) : Except Unreadable (Form κ) := do
  match op with
  | .min => readExtremum false a b
  | .max => readExtremum true a b
  | _ =>
      let a ← defined a
      let b ← defined b
      match op with
      | .add => pure (a.add b)
      | .sub => pure (a.sub b)
      | .mul => pure (a.mul b)
      | _ => Literals.quotient a b

def isArithmetic (op : BinaryOp) (dtype : DType) : Bool :=
  match op with
  | .add | .sub | .mul | .min | .max => true
  | .div => dtype.isFloat
  | _ => false

def read : Expr → ReadM (Form κ)
  | node id (.const c) dtype operands => do
      match ← (Literals.ofConstant c : Except Unreadable (Option κ)) with
      | some k => return .number k
      | none => readUnknown (node id (.const c) dtype operands)
  | node id (.var name index) dtype operands =>
      readVariable name (node id (.var name index) dtype operands)
  | node id (.binary op) dtype [a, b] => do
      if isArithmetic op dtype then
        let f ← read a
        let g ← read b
        readBinary op f g
      else readUnknown (node id (.binary op) dtype [a, b])
  | node id head dtype operands => readUnknown (node id head dtype operands)
  | reduction id domain axis least extent =>
      readVariable (axisName domain axis) (reduction id domain axis least extent)

end Expr

namespace Form

variable {κ : Type} [Literals κ]

def signedTerms : List (Bool × String) → String
  | [] => ""
  | (negative, term) :: rest => (if negative then " - " else " + ") ++ term ++ signedTerms rest

def sumText : List (Bool × String) → String
  | [] => "0"
  | (negative, term) :: rest => (if negative then "-" else "") ++ term ++ signedTerms rest

def constantText (c : κ) : String := (Literals.toConstant c).text

def sizeText (c : κ) : String :=
  if (Coefficient.toNumber c).isNegative then
    constantText (Coefficient.mul (Coefficient.ofInt (-1)) c)
  else constantText c

def coefficientText (c : κ) : List String :=
  let n := Coefficient.toNumber c
  if n.isOne || n.isMinusOne then [] else [sizeText c]

def parenthesized (f : Form κ) (text : String) : String :=
  if f.isSum then "(" ++ text ++ ")" else text

mutual

def text : Form κ → String
  | number c => constantText c
  | symbol name => name
  | unknown kind _ _ => "_opaque_" ++ kind
  | extremum greatest args =>
      (if greatest then "Max(" else "Min(") ++ ", ".intercalate (texts args) ++ ")"
  | inverse base => "1/" ++ parenthesized base (text base)
  | power (inverse base) e => parenthesized base (text base) ++ "**(-" ++ toString e ++ ")"
  | power base e => parenthesized base (text base) ++ "**" ++ toString e
  | product c factors =>
      (if (Coefficient.toNumber c).isNegative then "-" else "")
        ++ "*".intercalate (coefficientText c ++ texts factors)
  | sum ts => sumText (termTexts ts)

def texts : List (Form κ) → List String
  | [] => []
  | f :: rest => parenthesized f (text f) :: texts rest

def termTexts : List (Form κ) → List (Bool × String)
  | [] => []
  | number c :: rest =>
      ((Coefficient.toNumber c).isNegative, sizeText c) :: termTexts rest
  | product c factors :: rest =>
      ((Coefficient.toNumber c).isNegative, "*".intercalate (coefficientText c ++ texts factors))
        :: termTexts rest
  | f :: rest => (false, text f) :: termTexts rest

end

def literal (c : κ) : NodeM Expr := Expr.const (Literals.toConstant c)

def withCoefficient (c : κ) (e : Expr) : NodeM Expr := do
  let n := Coefficient.toNumber c
  if n.isMinusOne then e.neg
  else if n.isOne then pure e
  else Expr.mul (← literal c) e

def repeated (e : Expr) : Nat → NodeM Expr
  | 0 => pure e
  | 1 => pure e
  | n + 1 => do Expr.mul (← repeated e n) e

abbrev WriteM := ExceptT String NodeM

mutual

/-- The expression of a form, or the text of the part that has none. Where `reversed` holds the sign
of its coefficient is reversed; a form without a coefficient is written as it is. -/
def writeSigned (symbols : Symbols) (reversed : Bool) : Form κ → WriteM Expr
  | number c =>
      if reversed then (literal (Coefficient.mul (Coefficient.ofInt (-1)) c) : NodeM Expr)
      else
        match (Coefficient.toNumber c).undefined? with
        | some text => throw text
        | none => (literal c : NodeM Expr)
  | symbol name => pure ((symbols.node? name).getD default)
  | unknown _ rank _ => pure (symbols.unknowns.getD rank default)
  | extremum _ [] => throw ""
  | extremum greatest (f :: rest) => do
      let first ← writeSigned symbols false f
      writeExtremum symbols (if greatest then .max else .min) first rest
  | inverse base => do
      let e ← writeSigned symbols false base
      let one ← (Expr.float 1.0 : NodeM Expr)
      (Expr.div one e : NodeM Expr)
  | power (inverse base) e => throw (text (power (inverse base) e))
  | power base e => do
      let b ← writeSigned symbols false base
      (repeated b e : NodeM Expr)
  | product c factors => do
      let e ← writeProduct symbols none factors
      let signed := if reversed then Coefficient.mul (Coefficient.ofInt (-1)) c else c
      (withCoefficient signed e : NodeM Expr)
  | sum [] => throw "0"
  | sum (t :: rest) => do
      let first ← writeSigned symbols false t
      writeSum symbols first rest

def writeProduct (symbols : Symbols) (before : Option Expr) : List (Form κ) → WriteM Expr
  | [] =>
      match before with
      | some e => pure e
      | none => throw "1"
  | f :: rest => do
      let e ← writeSigned symbols false f
      let next ←
        match before with
        | some b => (Expr.mul b e : NodeM Expr)
        | none => pure e
      writeProduct symbols (some next) rest

def writeSum (symbols : Symbols) (before : Expr) : List (Form κ) → WriteM Expr
  | [] => pure before
  | t :: rest => do
      let e ← writeSigned symbols t.isNegativeTerm t
      let op : BinaryOp := if t.isNegativeTerm then .sub else .add
      let next ← (Expr.mkBinary op before e : NodeM Expr)
      writeSum symbols next rest

def writeExtremum (symbols : Symbols) (op : BinaryOp) (before : Expr) :
    List (Form κ) → WriteM Expr
  | [] => pure before
  | f :: rest => do
      let e ← writeSigned symbols false f
      let next ← (Expr.mkBinary op before e : NodeM Expr)
      writeExtremum symbols op next rest

end

def write (symbols : Symbols) : Form κ → WriteM Expr := writeSigned symbols false

end Form

end ReverseMode
