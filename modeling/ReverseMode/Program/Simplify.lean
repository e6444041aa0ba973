import ReverseMode.Algebra.Solve
import ReverseMode.Expr.Digest
import ReverseMode.Program.Basic

namespace ReverseMode

def simplify (e : Expr) : ProgramM Expr := do
  let simplified ← (e.simplified : BuildM Simplified)
  if let some text := simplified.obstacle then
    report Tracing.details
      s!"[simplify] keeping {e} unchanged: Cannot convert SymPy expression {text} back to IR"
  return simplified.expr

def solve (equation : Expr) (unknownName : String) : ProgramM Solution :=
  (equation.solve unknownName : BuildM Solution)

end ReverseMode
