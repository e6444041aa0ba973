import Std.Data.TreeMap
import ReverseMode.Expr.Build

namespace ReverseMode

namespace Expr

mutual

def mentions (target : String) : Expr → Bool
  | node _ (.var name _) _ operands => name == target || anyMentions target operands
  | node _ _ _ operands => anyMentions target operands
  | reduction _ domain axis _ _ => axisName domain axis == target

def anyMentions (target : String) : List Expr → Bool
  | [] => false
  | e :: rest => e.mentions target || anyMentions target rest

end

def noteVariable (bound : List String) (variableNode : Expr) (seen : List Expr) : List Expr :=
  let name := variableNode.name
  if bound.contains name || seen.any (fun v => v.name == name) then seen else seen ++ [variableNode]

mutual

def collectFree (bound : List String) : Expr → List Expr → List Expr
  | node id (.var name index) dtype operands, seen =>
      noteVariable bound (node id (.var name index) dtype operands) seen
  | node _ (.letIn name) _ [value, body], seen =>
      collectFree (name :: bound) body (collectFree bound value seen)
  | node _ _ _ operands, seen => collectAllFree bound operands seen
  | reduction id domain axis least extent, seen =>
      noteVariable bound (reduction id domain axis least extent) seen

def collectAllFree (bound : List String) : List Expr → List Expr → List Expr
  | [], seen => seen
  | e :: rest, seen => collectAllFree bound rest (collectFree bound e seen)

end

def freeVariables (e : Expr) : List Expr := collectFree [] e []

def freeNames (e : Expr) : List String := e.freeVariables.map name

end Expr

/-- Which expression stands for which name; of several entries for one name the first counts. -/
abbrev Replacements := List (String × Expr)

def Replacements.find? (r : Replacements) (name : String) : Option Expr := r.lookup name

def insertName (name : String) : List String → List String
  | [] => [name]
  | other :: rest =>
      if name = other then other :: rest
      else if name < other then name :: other :: rest
      else other :: insertName name rest

theorem mem_insertName {name other : String} {names : List String} :
    other ∈ insertName name names ↔ other = name ∨ other ∈ names := by
  induction names with
  | nil => simp [insertName]
  | cons first rest ih =>
      unfold insertName
      split
      · simp_all
      · split
        · simp
        · simp only [List.mem_cons, ih]
          grind

abbrev SubstitutionMemo := Std.TreeMap NodeId (List (List String × Expr))

namespace Expr

def replaceVariable (replacements : Replacements) (shadowed : List String) (name : String)
    (e : Expr) : Expr :=
  if shadowed.contains name then e else (replacements.find? name).getD e

abbrev SubstituteM := StateT SubstitutionMemo NodeM

/-- Runs `compute` once for each node and set of shadowed names. -/
def recalled (id : NodeId) (shadowed : List String) (compute : SubstituteM Expr) :
    SubstituteM Expr := do
  match ((← get).getD id []).lookup shadowed with
  | some known => pure known
  | none => do
      let result ← compute
      modify fun memo => memo.insert id ((shadowed, result) :: memo.getD id [])
      pure result

mutual

def substituteUnder (replacements : Replacements) (shadowed : List String) :
    Expr → SubstituteM Expr
  | node id (.var name index) dtype operands =>
      pure (replaceVariable replacements shadowed name (node id (.var name index) dtype operands))
  | node id (.letIn name) dtype [value, body] =>
      recalled id shadowed do
        let newValue ← substituteUnder replacements shadowed value
        let newBody ← substituteUnder replacements (insertName name shadowed) body
        rebuild (node id (.letIn name) dtype [value, body]) [newValue, newBody]
  | node id head dtype operands =>
      recalled id shadowed do
        let newOperands ← substituteAllUnder replacements shadowed operands
        rebuild (node id head dtype operands) newOperands
  | reduction id domain axis least extent =>
      pure (replaceVariable replacements shadowed (axisName domain axis)
        (reduction id domain axis least extent))

def substituteAllUnder (replacements : Replacements) (shadowed : List String) :
    List Expr → SubstituteM (List Expr)
  | [] => pure []
  | e :: rest => do
      let first ← substituteUnder replacements shadowed e
      let others ← substituteAllUnder replacements shadowed rest
      pure (first :: others)

end

/-- Replaces free variables by name, all at once. -/
def substitute (replacements : Replacements) (e : Expr) : NodeM Expr := do
  if replacements.isEmpty then pure e
  else
    let (result, _) ← (substituteUnder replacements [] e).run {}
    pure result

end Expr

end ReverseMode
