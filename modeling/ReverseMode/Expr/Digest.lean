import Std.Data.TreeMap
import ReverseMode.Digest.Sha256
import ReverseMode.Expr.Printer

namespace ReverseMode

abbrev DigestMemo := Std.TreeMap NodeId String

namespace Expr

def constantText (c : Constant) : String := s!"CONST|{c.dtype.name}|{c.text}"

def variableText (dtype : DType) (name tag : String) : String := s!"VAR|{dtype.name}|{name}|{tag}"

def nodeText (head : Head) (dtype : DType) (operands : List String) : String :=
  let sort :=
    match head with
    | .call callee => callee.sort
    | _ => ""
  s!"{head.kind}|{dtype.name}|{head.name}|{sort}|" ++ ",".intercalate operands

mutual

/-- The digest of a node under a text digest, through a memo that is keyed by identity. -/
def digestWith (hash : String → String) : Expr → StateM DigestMemo String
  | node id head dtype operands => do
      if let some known := (← get)[id]? then return known
      let text ←
        match head with
        | .const c => pure (constantText c)
        | .var name _ => pure (variableText dtype name "")
        | _ => do
            let digests ← digestAll hash operands
            pure (nodeText head dtype digests)
      let digest := hash text
      modify (·.insert id digest)
      return digest
  | reduction id domain axis _ _ => do
      if let some known := (← get)[id]? then return known
      let digest := hash (variableText .int32 (axisName domain axis) s!"{domain}[{axis}]")
      modify (·.insert id digest)
      return digest

def digestAll (hash : String → String) : List Expr → StateM DigestMemo (List String)
  | [] => return []
  | e :: rest => do
      let digest ← digestWith hash e
      let others ← digestAll hash rest
      return digest :: others

end

def equalWith (hash : String → String) (a b : Expr) : Bool :=
  a.same b || ((digestWith hash a).run {}).1 == ((digestWith hash b).run {}).1

def digest (e : Expr) : String := ((digestWith Sha256.hexDigest e).run {}).1

def equal (a b : Expr) : Bool := equalWith Sha256.hexDigest a b

end Expr

end ReverseMode
