import ReverseMode.Digest.Sha256
import ReverseMode.Expr.Printer

namespace ReverseMode

/-- How many identities and how many names have been handed out. -/
structure Supply where
  nodes : NodeId := 0
  names : Nat := 0
deriving Inhabited

abbrev NodeM := StateM Supply

abbrev BuildM := ExceptT Fault NodeM

def freshId : NodeM NodeId :=
  modifyGet fun supply => (supply.nodes, { supply with nodes := supply.nodes + 1 })

def nameDigits (n : Nat) : String :=
  Sha256.hex (if n < Nat.pow 16 8 then 8 else n.log2 / 4 + 1) n

def generatedName (stem : String) (n : Nat) : String := stem ++ "_" ++ nameDigits n

def freshName (stem : String) : NodeM String :=
  modifyGet fun supply =>
    (generatedName stem supply.names, { supply with names := supply.names + 1 })

def nameOr (stem : String) (name? : Option String) : NodeM String :=
  match name? with
  | none => freshName stem
  | some "" => freshName stem
  | some name => pure name

namespace Expr

def new (head : Head) (dtype : DType) (operands : List Expr) : NodeM Expr := do
  let id ← freshId
  pure (.node id head dtype operands)

def const (c : Constant) : NodeM Expr := new (.const c) c.dtype []

def int (v : Int) : NodeM Expr := const (.int v)

def float (v : Float) : NodeM Expr := const (.float v)

def var (name : String) (dtype : DType) : NodeM Expr := new (.var name false) dtype []

def index (name? : Option String) : NodeM Expr := do
  let name ← nameOr "v" name?
  new (.var name true) .int32 []

def mkBinary (op : BinaryOp) (a b : Expr) : NodeM Expr :=
  new (.binary op) (if op.isBoolean then .bool else a.dtype.promote b.dtype) [a, b]

def add : Expr → Expr → NodeM Expr := mkBinary .add

def sub : Expr → Expr → NodeM Expr := mkBinary .sub

def mul : Expr → Expr → NodeM Expr := mkBinary .mul

def div : Expr → Expr → NodeM Expr := mkBinary .div

def min : Expr → Expr → NodeM Expr := mkBinary .min

def max : Expr → Expr → NodeM Expr := mkBinary .max

/-- A comparison. It is written from its index variable: where only the right side is one, the
sides are exchanged. -/
def compare (op : BinaryOp) (a b : Expr) : NodeM Expr :=
  if b.isIndex && !a.isIndex then mkBinary op.exchanged b a else mkBinary op a b

def le : Expr → Expr → NodeM Expr := compare .le

def ge : Expr → Expr → NodeM Expr := compare .ge

def eq : Expr → Expr → NodeM Expr := mkBinary .eq

def and : Expr → Expr → NodeM Expr := mkBinary .and

def neg (x : Expr) : NodeM Expr := do
  let zero ← if x.dtype.isFloat then float 0.0 else int 0
  sub zero x

def cast (dtype : DType) (x : Expr) : NodeM Expr := new .cast dtype [x]

def select (condition ifTrue ifFalse : Expr) : NodeM Expr :=
  new .select (ifTrue.dtype.promote ifFalse.dtype) [condition, ifTrue, ifFalse]

/-- The lower end wins where the ends cross. -/
def clamp (x low high : Expr) : NodeM Expr := do
  let below ← min x high
  max below low

def letIn (name : String) (value body : Expr) : NodeM Expr :=
  new (.letIn name) body.dtype [value, body]

def primitive (name : String) (args : List Expr) : NodeM Expr :=
  new (.call (.primitive name)) .float32 args

/-- A node with new operands, or the very node when they are the operands it already has. -/
def rebuild (e : Expr) (operands : List Expr) : NodeM Expr :=
  match e with
  | node _ head dtype old =>
      if (operands.zip old).all fun (a, b) => a.same b then pure e else new head dtype operands
  | reduction .. => pure e

def lastIndex (low extent : Expr) : NodeM Expr := do
  let stop ← add low extent
  sub stop (← int 1)

end Expr

/-- What may stand where an expression is expected: an expression, a literal that becomes a
constant, or a value of some other type, which is refused. -/
inductive Operand where
  | expr (e : Expr)
  | literal (c : Constant)
  | foreign (type : String)

namespace Operand

def toExpr : Operand → BuildM Expr
  | expr e => pure e
  | literal c => (Expr.const c : NodeM Expr)
  | foreign type => throw (.notAnExpression type)

def toConstant : Operand → Except Fault Constant
  | literal c => .ok c
  | expr _ => .error (.unsupportedConstant "Expr")
  | foreign type => .error (.unsupportedConstant type)

/-- A comparison of operands. One with a literal is written from the other side. -/
def compare (op : BinaryOp) (a b : Operand) : BuildM Expr := do
  match a, b with
  | expr x, expr y => Expr.compare op x y
  | expr x, other => do Expr.mkBinary op x (← other.toExpr)
  | other, expr y => do Expr.mkBinary op.exchanged y (← other.toExpr)
  | first, second => do
      -- one of two literals becomes a node first
      let x ← first.toConstant
      Expr.mkBinary op (← Expr.const x) (← second.toExpr)

def isExpr : Operand → Bool
  | expr _ => true
  | _ => false

def toExprs : List Operand → BuildM (List Expr)
  | [] => pure []
  | o :: rest => do
      let e ← o.toExpr
      let es ← toExprs rest
      pure (e :: es)

end Operand

structure ReductionDomain where
  name : String
  bounds : List (Expr × Expr)
  vars : List Expr

namespace ReductionDomain

def axes (name : String) (axis : Nat) : List (Expr × Expr) → NodeM (List Expr)
  | [] => pure []
  | (least, extent) :: rest => do
      let id ← freshId
      let others ← axes name (axis + 1) rest
      pure (.reduction id name axis least extent :: others)

def ofBounds (name? : Option String) (bounds : List (Expr × Expr)) : NodeM ReductionDomain := do
  let name ← nameOr "r" name?
  pure ⟨name, bounds, ← axes name 0 bounds⟩

def pairUp : List Operand → BuildM (List (Expr × Expr))
  | least :: extent :: rest => do
      let a ← least.toExpr
      let b ← extent.toExpr
      let others ← pairUp rest
      pure ((a, b) :: others)
  | _ => pure []

def ofList (name? : Option String) (bounds : List Operand) : BuildM ReductionDomain := do
  if bounds.length % 2 ≠ 0 then throw .unpairedBounds
  let name ← nameOr "r" name?
  let pairs ← pairUp bounds
  pure ⟨name, pairs, ← axes name 0 pairs⟩

def ofPairs (name? : Option String) (bounds : List (List Operand)) : BuildM ReductionDomain := do
  let name ← nameOr "r" name?
  let pairs ← pairEach bounds
  pure ⟨name, pairs, ← axes name 0 pairs⟩
where
  pairEach : List (List Operand) → BuildM (List (Expr × Expr))
    | [] => pure []
    | [least, extent] :: rest => do
        let a ← least.toExpr
        let b ← extent.toExpr
        let others ← pairEach rest
        pure ((a, b) :: others)
    | _ :: _ => throw .pairShape

def axisVariable? (domain : ReductionDomain) (axis : Int) : Option Expr :=
  let position := if axis < 0 then axis + domain.vars.length else axis
  if 0 ≤ position then domain.vars[position.toNat]? else none

def render (domain : ReductionDomain) : String :=
  let pair : Expr × Expr → String := fun (least, extent) =>
    "[" ++ least.render ++ ", " ++ extent.render ++ "]"
  "RDom(" ++ domain.name ++ ": " ++ commaSeparated (domain.bounds.map pair) ++ ")"

end ReductionDomain

end ReverseMode
