import ReverseMode.Constant
import ReverseMode.Operator
import ReverseMode.Tensor.Basic

/-!
# Expressions

An expression is a tree of nodes in which every node has an identity: two nodes of equal shape are
different nodes unless their identities agree, and a subtree with several consumers is one node that
stands in several places. A node is a head applied to operands. Heads fix how many operands they
need, but nodes of any arity can be written down; the well-formed ones are those `Expr.wellFormed`
accepts.

A reduction variable carries its own bounds. They are not operands: no walk over the expression
enters them.
-/

namespace ReverseMode

abbrev NodeId := Nat

abbrev FuncId := Nat

structure Image where
  name : String
  data : Tensor

/-- What a call node calls: a function of the program, an input image, or a scalar primitive. -/
inductive Callee where
  | func (id : FuncId) (name : String)
  | image (source : Image)
  | primitive (name : String)

/-- Index variables are declared as such; any other variable may have any type. -/
inductive Head where
  | const (value : Constant)
  | var (name : String) (index : Bool)
  | cast
  | binary (op : BinaryOp)
  | select
  | letIn (name : String)
  | call (callee : Callee)
  | other (kind : String)

inductive Expr where
  | node (id : NodeId) (head : Head) (dtype : DType) (operands : List Expr)
  | reduction (id : NodeId) (domain : String) (axis : Nat) (min extent : Expr)

instance : Inhabited Expr := ⟨.node 0 (.other "") .int32 []⟩

namespace Callee

def name : Callee → String
  | func _ name => name
  | image source => source.name
  | primitive name => name

def sort : Callee → String
  | func _ _ => "Func"
  | image _ => "Image"
  | primitive _ => "Primitive"

end Callee

namespace Head

def kind : Head → String
  | const _ => "Constant"
  | var _ _ => "Variable"
  | cast => "Cast"
  | binary op => op.kind
  | select => "Select"
  | letIn _ => "Let"
  | call _ => "Call"
  | other kind => kind

def name : Head → String
  | var name _ => name
  | letIn name => name
  | call callee => callee.name
  | _ => ""

def arity? : Head → Option Nat
  | const _ => some 0
  | var _ _ => some 0
  | cast => some 1
  | binary _ => some 2
  | select => some 3
  | letIn _ => some 2
  | call _ => none
  | other _ => none

def ofKind (kind : String) : Head :=
  match BinaryOp.ofKind? kind with
  | some op => .binary op
  | none =>
      match kind with
      | "Cast" => .cast
      | "Select" => .select
      | "Variable" => .var "" false
      | "Let" => .letIn ""
      | _ => .other kind

end Head

/-- The name of a reduction variable: its domain's name and the axis, the first four by letter. -/
def axisName (domain : String) (axis : Nat) : String :=
  let letter :=
    match axis with
    | 0 => "x"
    | 1 => "y"
    | 2 => "z"
    | 3 => "w"
    | n => toString n
  s!"{domain}.{letter}"

namespace Expr

@[match_pattern] abbrev binary (id : NodeId) (op : BinaryOp) (dtype : DType) (a b : Expr) : Expr :=
  .node id (.binary op) dtype [a, b]

def id : Expr → NodeId
  | node id .. => id
  | reduction id .. => id

def dtype : Expr → DType
  | node _ _ dtype _ => dtype
  | reduction .. => .int32

def operands : Expr → List Expr
  | node _ _ _ operands => operands
  | reduction .. => []

def kind : Expr → String
  | node _ head _ _ => head.kind
  | reduction .. => "Variable"

def name : Expr → String
  | node _ head _ _ => head.name
  | reduction _ domain axis _ _ => axisName domain axis

def constant? : Expr → Option Constant
  | node _ (.const c) _ _ => some c
  | _ => none

def variableName? : Expr → Option String
  | node _ (.var name _) _ _ => some name
  | reduction _ domain axis _ _ => some (axisName domain axis)
  | _ => none

def isPureVariable : Expr → Bool
  | node _ (.var _ _) _ _ => true
  | _ => false

def isIndex : Expr → Bool
  | node _ (.var _ index) _ _ => index
  | _ => false

def isReductionVariable : Expr → Bool
  | reduction .. => true
  | _ => false

def callee? : Expr → Option Callee
  | node _ (.call callee) _ _ => some callee
  | _ => none

def isBoolean : Expr → Bool
  | node _ (.binary op) _ _ => op.isBoolean
  | _ => false

def same (a b : Expr) : Bool := a.id == b.id

def isZero (e : Expr) : Bool :=
  match e.constant? with
  | some c => c.isZero
  | none => false

def value (e : Expr) : Except Fault Constant :=
  match e.constant? with
  | some c => .ok c
  | none =>
      -- a constant node written down without its value
      if e.kind = "Constant" then .error (.missingAttribute "value")
      else .error (.notConstant e.kind)

mutual

def wellFormed : Expr → Bool
  | node _ head _ operands =>
      (match head.arity? with
        | some n => operands.length = n
        | none => true) && allWellFormed operands
  | reduction _ _ _ _ _ => true

def allWellFormed : List Expr → Bool
  | [] => true
  | e :: rest => e.wellFormed && allWellFormed rest

end

end Expr

end ReverseMode
