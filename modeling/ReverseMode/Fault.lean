namespace ReverseMode

inductive Fault where
  -- building expressions
  | notAnExpression (type : String)
  | unsupportedConstant (type : String)
  | notConstant (kind : String)
  | symbolicTruth (expr : String)
  | missingOperand
  | operandCount
  | missingAttribute (name : String)
  | unknownName (name : String)
  -- converting literals
  | literalType
  | literalText
  | infiniteInteger
  | undefinedInteger
  | integerTooLarge
  -- reduction domains and images
  | unpairedBounds
  | pairShape
  | axisOutOfRange
  | raggedData
  -- functions
  | undefinedFunc (name : String)
  | missingStage (name : String) (stage : Int) (updates : Nat)
  | impureIndex (name expr : String)
  | repeatedIndex (name repeated : String)
  | updateArity (name : String) (given expected : Nat)
  | callOfUndefined (name : String)
  | callArity (name : String) (dimensions given : Nat)
  | imageArity (name : String) (dimensions given : Nat)
  -- algebra
  | divisionByZero
  | notAnEquation (kind : String)
  -- bounds
  | unboundedVariable (argument : Int) (name : String) (declared : List String)
  | unboundedNode (argument : Int) (kind expr : String)
  | callArityChanged (name : String) (given earlier : Nat)
  | unreadStage
  | nestingTooDeep
  | exteriorArity (bounds dimensions : Nat) (name : String)
  -- derivatives
  | unknownPolicy (policy : String)
  | noAdjoint (name : String) (stage : Int)
  | missingAdjoint (expr name : String) (stage : Int)
  | noDerivativeRule (name expr : String)
  | contributionCount (name : String) (given expected : Nat)
  | adjointFinal (name : String) (stage : Int) (caller : String) (callerStage : Int) (expr : String)
  | uninvertibleIndex (argument : Nat) (expr call caller : String) (callerStage : Int)
      (pivot : String)
  | impureUpdate (stage : Nat) (name : String) (indices declared : List String)
  | missingStageEntry
  | outputBoundsRequired
  | outputArity (bounds dimensions : Nat) (name : String)
  -- realization
  | boxArity (name : String) (dimensions : Nat) (sizes mins : List Int)
  | negativeExtent
  | writeOutside (stage : Nat) (name : String) (axis : Nat)
  | imageReadOutside (name : String) (extent axis : Nat) (least greatest : Int)
  | selfReadOutside (name : String) (axis : Nat)
  | fractionalIndex
  | notConcrete (expr : String) (vars : List String)
  | unboundVariable (name : String)
  | notEvaluable (kind expr : String)
  | noKernel (name : String)
  | kernelRegistered (name : String)
  | kernelArity
  | constantOutOfRange
  | booleanDifference
  | booleanNegation
  | negativePower
  | shapeMismatch

def quoted (text : String) : String :=
  let mark := if text.toList.contains '\'' && !text.toList.contains '"' then '"' else '\''
  let digit (n : Nat) : Char := if n < 10 then Char.ofNat (48 + n) else Char.ofNat (87 + n)
  let escape (c : Char) : List Char :=
    if c = mark ∨ c = '\\' then ['\\', c]
    else if c = '\n' then ['\\', 'n']
    else if c = '\r' then ['\\', 'r']
    else if c = '\t' then ['\\', 't']
    else if c.toNat < 32 ∨ 127 ≤ c.toNat ∧ c.toNat < 161 ∨ c.toNat = 173 then
      ['\\', 'x', digit (c.toNat / 16), digit (c.toNat % 16)]
    else [c]
  String.ofList (mark :: text.toList.flatMap escape ++ [mark])

def commaSeparated (items : List String) : String := ", ".intercalate items

def bracketed (items : List String) : String := "[" ++ commaSeparated items ++ "]"

def stageName (name : String) (stage : Int) : String := s!"{name}[{stage}]"

def Fault.message? : Fault → Option String
  | notAnExpression type => some s!"Cannot convert {type} to an expression"
  | unsupportedConstant type => some s!"Unsupported constant type: <class '{type}'>"
  | notConstant kind => some s!"{kind} node has no constant value"
  | symbolicTruth expr =>
      some s!"Truth value of expression '{expr}' is symbolic; use select() instead"
  | unpairedBounds => some "RDom expects (min, extent) pairs"
  | undefinedFunc name => some s!"Func '{name}' is not defined"
  | missingStage name stage updates =>
      some s!"Func '{name}' has no update stage {stage} ({updates} updates)"
  | impureIndex name expr =>
      some s!"Pure definition of '{name}' must use pure variables, got {expr}"
  | repeatedIndex name repeated =>
      some s!"Variable '{repeated}' appears twice in the definition of '{name}'"
  | updateArity name given expected =>
      some s!"Update of '{name}' has {given} args, expected {expected}"
  | callOfUndefined name => some s!"Cannot call undefined Func '{name}'"
  | callArity name dimensions given =>
      some s!"Func '{name}' takes {dimensions} args, got {given}"
  | imageArity name dimensions given =>
      some s!"Buffer '{name}' has {dimensions} dims, got {given} args"
  | notAnEquation kind => some s!"solve() expects an equality, got {kind}"
  | unboundedVariable argument name declared =>
      some (s!"Can't infer bounds of argument {argument}: variable '{name}' is neither a declared "
        ++ s!"variable {bracketed (declared.map quoted)} nor a reduction variable")
  | unboundedNode argument kind expr =>
      some s!"Can't infer bounds of argument {argument}: {kind} node '{expr}' not handled"
  | callArityChanged name given earlier =>
      some s!"Call to '{name}' has {given} args, previous calls had {earlier}"
  | exteriorArity bounds dimensions name =>
      some s!"constant_exterior: {bounds} bounds for {dimensions}-D Func '{name}'"
  | unknownPolicy policy =>
      some s!"Unknown primitive policy '{policy}', expected one of ('zero', 'error')"
  | noAdjoint name stage => some s!"No adjoint for {stageName name stage}"
  | missingAdjoint expr name stage =>
      some (s!"Node '{expr}' in {stageName name stage} was visited before any of its consumers")
  | noDerivativeRule name expr => some s!"No derivative rule for primitive '{name}' in '{expr}'"
  | contributionCount name given expected =>
      some (s!"Derivative rule of '{name}' returned {given} contributions for {expected} args")
  | adjointFinal name stage caller callerStage expr =>
      some (s!"Adjoint of {stageName name stage} is already final, but "
        ++ s!"{stageName caller callerStage} still contributes to it via '{expr}'")
  | uninvertibleIndex argument expr call caller callerStage pivot =>
      some (s!"Can't invert argument {argument} '{expr}' of call '{call}' in "
        ++ s!"{stageName caller callerStage} for '{pivot}'")
  | impureUpdate stage name indices declared =>
      some (s!"Update {stage} of '{name}' writes at ({commaSeparated indices}); "
        ++ s!"differentiable updates must write at its declared variables "
        ++ s!"({commaSeparated declared})")
  | outputBoundsRequired => some "output_bounds is required unless adjoint is a Buffer"
  | outputArity bounds dimensions name =>
      some s!"{bounds} output bounds for {dimensions}-D Func '{name}'"
  | boxArity name dimensions sizes mins =>
      some (s!"Func '{name}' has {dimensions} dims, got sizes {bracketed (sizes.map toString)} "
        ++ s!"and mins {bracketed (mins.map toString)}")
  | writeOutside stage name axis =>
      some s!"Update {stage} of '{name}' writes outside the realized box in dim {axis}"
  | imageReadOutside name extent axis least greatest =>
      some (s!"Read of image '{name}' outside [0, {extent}) in dim {axis}: "
        ++ s!"[{least}, {greatest}]")
  | selfReadOutside name axis =>
      some s!"'{name}' reads itself outside its realized box in dim {axis}"
  | notConcrete expr vars =>
      some s!"Bound '{expr}' is not concrete: {bracketed (vars.map quoted)}"
  | unboundVariable name => some s!"Variable '{name}' is not bound"
  | notEvaluable kind expr => some s!"Cannot evaluate {kind} node '{expr}'"
  | noKernel name => some s!"No registered kernel for primitive '{name}'"
  | kernelRegistered name => some s!"Kernel for primitive '{name}' is already registered"
  | _ => none

end ReverseMode
