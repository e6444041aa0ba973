import ReverseMode.Algebra.Reading

namespace ReverseMode

namespace Form

variable {κ : Type} [Literals κ]

def choose (f : Form κ) : Form κ :=
  if f.isAtom || f.isNumber then f
  else
    let initial := normalizeSigns f
    let expanded := Literals.multipliedOut initial
    if expanded.isAffine && !f.hasReal then expanded
    else
      let whole := takeOutContent (Literals.combined initial)
      let collected := shorter (Literals.together whole) (Literals.together expanded)
      let best := shorter (shorter collected expanded) whole
      let settled := shorter (Literals.takenOut best) expanded
      let short :=
        shorter (shorter settled (Literals.takenOut settled)) (multiplyOut settled)
      let plain := multiplyIn short
      let result := if plain.hasLeadingMinus then normalizeSigns plain else plain
      if 17 * initial.operations < 10 * result.operations then initial else result

mutual

/-- The form with the arguments of every extremum in their chosen shapes. -/
def settleAtoms : Form κ → Form κ
  | extremum greatest args => extreme greatest (settleAll args)
  | power (inverse base) e => power (inverse base) e
  | power base e => pow (settleAtoms base) e
  | product c factors => scale c (settleProduct factors)
  | sum ts => settleSum ts
  | f => f

def settleAll : List (Form κ) → List (Form κ)
  | [] => []
  | f :: rest => choose (settleAtoms f) :: settleAll rest

def settleProduct : List (Form κ) → Form κ
  | [] => ofInt 1
  | f :: rest => mul (settleAtoms f) (settleProduct rest)

def settleSum : List (Form κ) → Form κ
  | [] => ofInt 0
  | f :: rest => add (settleAtoms f) (settleSum rest)

end

def simplest (f : Form κ) : Form κ := choose (settleAtoms f)

end Form

structure Simplified where
  expr : Expr
  obstacle : Option String := none

namespace Expr

def writeSimplest {κ : Type} [Literals κ] (e : Expr) (symbols : Symbols) (f : Form κ) :
    NodeM Simplified := do
  match ← (f.simplest.write symbols).run with
  | .ok result => pure (if result.dtype = e.dtype then ⟨result, none⟩ else ⟨e, none⟩)
  | .error text => pure ⟨e, some text⟩

/-- Normalizes an expression: what cannot be reasoned about is kept. -/
def simplified (e : Expr) : BuildM Simplified := do
  if e.constant?.isSome || e.variableName?.isSome then pure ⟨e, none⟩
  else
    match (read e : ReadM (Form Int)).run {} with
    | (.ok f, symbols) => (writeSimplest e symbols f : NodeM Simplified)
    | (.error _, _) =>
        match (read e : ReadM (Form Number)).run {} with
        | (.ok f, symbols) => (writeSimplest e symbols f : NodeM Simplified)
        | (.error .divisionByZero, _) => throw .divisionByZero
        | (.error (.undefined text), _) => pure ⟨e, some text⟩
        | (.error _, _) => pure ⟨e, none⟩

end Expr

end ReverseMode
