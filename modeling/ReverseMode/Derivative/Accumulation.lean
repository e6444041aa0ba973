import Std.Data.TreeMap
import ReverseMode.Bounds.Exterior
import ReverseMode.Bounds.Inference
import ReverseMode.Derivative.Rules

namespace ReverseMode

/-- What becomes of a primitive without a derivative rule. -/
inductive UnknownPrimitive where
  | zero
  | error

namespace UnknownPrimitive

def ofName (name? : Option String) : Except Fault UnknownPrimitive :=
  match name?.getD "" with
  | "" => .ok zero
  | "zero" => .ok zero
  | "error" => .ok error
  | other => .error (.unknownPolicy other)

end UnknownPrimitive

/-- What a differentiation is given: rules, a policy, and the node kinds it passes over. -/
structure Differentiation where
  rules : DerivativeRules
  unknownPrimitive : UnknownPrimitive := .zero
  muted : List String := []
  /-- The text digest by which bounds inference tells intervals apart. -/
  hash : String → String := Sha256.hexDigest

structure Accumulation where
  /-- The adjoint functions by stage. -/
  targets : StageTable FuncId := []
  /-- The stages whose adjoint is complete. -/
  finalized : List StageKey := []
  /-- The functions that are differentiated. -/
  funcs : List (String × FuncId) := []
  /-- Values of updated functions after each of their earlier stages. -/
  snapshots : StageTable FuncId := []
  /-- The adjoints of the nodes of the expression that is walked. -/
  adjoints : Std.TreeMap NodeId Expr := {}
  /-- The values of the bound names met so far, the latest first. -/
  bindings : List (String × Expr) := []

abbrev AdjointM := ReaderT Differentiation (StateT Accumulation ProgramM)

namespace Accumulation

def get : AdjointM Accumulation := getThe Accumulation

def modify (change : Accumulation → Accumulation) : AdjointM Unit := modifyThe Accumulation change

end Accumulation

/-- Adds to the adjoint of a node. A zero is never added to anything. -/
def accumulate (target adjoint : Expr) : AdjointM Unit := do
  let known := (← Accumulation.get).adjoints[target.id]?
  let total ←
    match known with
    | none => pure adjoint
    | some earlier =>
        if earlier.isZero then pure adjoint
        else if adjoint.isZero then pure earlier
        else (earlier.add adjoint : ProgramM Expr)
  Accumulation.modify fun state => { state with adjoints := state.adjoints.insert target.id total }

def accumulateEach : List (Expr × Expr) → AdjointM Unit
  | [] => return
  | (target, adjoint) :: rest => do
      accumulate target adjoint
      accumulateEach rest

def adjointWhere (condition adjoint : Expr) : NodeM Expr := do
  Expr.select condition adjoint (← Expr.float 0.0)

def adjointUnless (condition adjoint : Expr) : NodeM Expr := do
  Expr.select condition (← Expr.float 0.0) adjoint

/-- The contributions of a binary operator to its operands. On a tie both operands of a minimum or
maximum get the whole adjoint. -/
def binaryContributions (op : BinaryOp) (a b adjoint : Expr) : NodeM (List (Expr × Expr)) := do
  match op with
  | .add => return [(a, adjoint), (b, adjoint)]
  | .sub => return [(a, adjoint), (b, ← adjoint.neg)]
  | .mul => return [(a, ← adjoint.mul b), (b, ← adjoint.mul a)]
  | .div =>
      let first ← adjoint.div b
      let weighted ← (← adjoint.neg).mul a
      let second ← weighted.div (← b.mul b)
      return [(a, first), (b, second)]
  | .min =>
      let first ← adjointWhere (← a.le b) adjoint
      let second ← adjointWhere (← b.le a) adjoint
      return [(a, first), (b, second)]
  | .max =>
      let first ← adjointWhere (← a.ge b) adjoint
      let second ← adjointWhere (← b.ge a) adjoint
      return [(a, first), (b, second)]
  | _ => return []

/-- A bound name passes its adjoint on to its value; where the adjoint uses the name itself it is
bound again around the adjoint. -/
def accumulateVariable (name : String) (adjoint : Expr) : AdjointM Unit := do
  match (← Accumulation.get).bindings.lookup name with
  | none => return
  | some value => do
      let closed ←
        if adjoint.mentions name then (Expr.letIn name value adjoint : ProgramM Expr)
        else pure adjoint
      accumulate value closed

def accumulatePrimitive (call : Expr) (name : String) (args : List Expr) (adjoint : Expr) :
    AdjointM Unit := do
  let settings ← readThe Differentiation
  match settings.rules.lookup name with
  | none =>
      match settings.unknownPrimitive with
      | .error => (throw (.noDerivativeRule name call.render) : ProgramM Unit)
      | .zero => do
          (report Tracing.execution
            (s!"[ReverseAccumulationVisitor._accumulate_primitive_call] '{name}' has no "
              ++ "derivative rule, treating it as constant") : ProgramM Unit)
          for arg in args do
            accumulate arg (← (Expr.float 0.0 : ProgramM Expr))
  | some rule => do
      let contributions ← (rule args adjoint : ProgramM (List Expr))
      if contributions.length ≠ args.length then
        (throw (.contributionCount name contributions.length args.length) : ProgramM Unit)
      accumulateEach (args.zip contributions)

end ReverseMode
