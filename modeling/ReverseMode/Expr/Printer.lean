import ReverseMode.Expr.Basic

namespace ReverseMode

def Constant.render (c : Constant) : String :=
  match c with
  | .float _ => c.text ++ "f"
  | _ => c.text

def Head.render (head : Head) (dtype : DType) (operands : List String) : String :=
  let operand (i : Nat) : String := operands.getD i ""
  match head with
  | .const c => c.render
  | .var name _ => name
  | .cast => s!"{dtype.name}({operand 0})"
  | .binary op =>
      match op.sign? with
      | some sign => s!"({operand 0} {sign} {operand 1})"
      | none =>
          (if op = .min then "min" else "max") ++ s!"({operand 0}, {operand 1})"
  | .select => s!"select({operand 0}, {operand 1}, {operand 2})"
  | .letIn name => s!"(let {name} = {operand 0} in {operand 1})"
  | .call callee => callee.name ++ "(" ++ ", ".intercalate operands ++ ")"
  | .other kind => if kind = "Call" then "(" ++ ", ".intercalate operands ++ ")" else s!"<{kind}>"

namespace Expr

mutual

def render : Expr → String
  | node _ head dtype operands => head.render dtype (renderAll operands)
  | reduction _ domain axis _ _ => axisName domain axis

def renderAll : List Expr → List String
  | [] => []
  | e :: rest => e.render :: renderAll rest

end

end Expr

instance : ToString Expr := ⟨Expr.render⟩

def Head.shownOperands : Head → Nat
  | .cast => 1
  | .binary _ => 2
  | .select => 3
  | .letIn _ => 2
  | _ => 0

namespace Expr

mutual

def isPrintable : Expr → Bool
  | node _ head _ operands =>
      head.shownOperands ≤ operands.length && allPrintable operands
  | reduction _ _ _ _ _ => true

def allPrintable : List Expr → Bool
  | [] => true
  | e :: rest => e.isPrintable && allPrintable rest

end

def print (e : Expr) : Except Fault String :=
  if e.isPrintable then .ok e.render else .error .missingOperand

end Expr

end ReverseMode
