import ReverseMode.Program.Basic

namespace ReverseMode

abbrev DerivativeRule := List Expr → Expr → ProgramM (List Expr)

abbrev DerivativeRules := List (String × DerivativeRule)

namespace DerivativeRule

def unary (contribution : Expr → Expr → NodeM Expr) : DerivativeRule := fun args adjoint =>
  match args with
  | [] => throw .missingOperand
  | x :: _ => do return [← (contribution x adjoint : NodeM Expr)]

def exp : DerivativeRule := unary fun x adjoint => do
  adjoint.mul (← Expr.primitive "exp" [x])

def log : DerivativeRule := unary fun x adjoint => adjoint.div x

def sin : DerivativeRule := unary fun x adjoint => do
  adjoint.mul (← Expr.primitive "cos" [x])

def cos : DerivativeRule := unary fun x adjoint => do
  let negated ← adjoint.neg
  negated.mul (← Expr.primitive "sin" [x])

def sqrt : DerivativeRule := unary fun x adjoint => do
  let half ← adjoint.mul (← Expr.float 0.5)
  half.div (← Expr.primitive "sqrt" [x])

def tanh : DerivativeRule := unary fun x adjoint => do
  let value ← Expr.primitive "tanh" [x]
  let square ← value.mul value
  adjoint.mul (← (← Expr.float 1.0).sub square)

def pow : DerivativeRule := fun args adjoint =>
  match args with
  | [x, y] => do
      let contributions : NodeM (List Expr) := do
        let value ← Expr.primitive "pow" [x, y]
        let scaled ← adjoint.mul y
        let lower ← y.sub (← Expr.float 1.0)
        let inBase ← scaled.mul (← Expr.primitive "pow" [x, lower])
        let weighted ← adjoint.mul value
        let inExponent ← weighted.mul (← Expr.primitive "log" [x])
        return [inBase, inExponent]
      contributions
  | _ => throw .operandCount

end DerivativeRule

namespace DerivativeRules

def standard : DerivativeRules :=
  [("exp", .exp), ("log", .log), ("sin", .sin), ("cos", .cos), ("sqrt", .sqrt), ("tanh", .tanh),
    ("pow", .pow)]

def register (name : String) (rule : DerivativeRule) (rules : DerivativeRules) : DerivativeRules :=
  (name, rule) :: rules.filter fun entry => entry.1 != name

def names (rules : DerivativeRules) : List String := (rules.map Prod.fst).mergeSort (· ≤ ·)

end DerivativeRules

end ReverseMode
