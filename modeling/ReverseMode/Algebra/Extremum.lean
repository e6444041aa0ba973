import ReverseMode.Algebra.Arithmetic

namespace ReverseMode

structure Sign where
  nonnegative : Bool
  nonpositive : Bool

def Sign.mul (a b : Sign) : Sign where
  nonnegative := a.nonnegative && b.nonnegative || a.nonpositive && b.nonpositive
  nonpositive := a.nonnegative && b.nonpositive || a.nonpositive && b.nonnegative

namespace Form

variable {κ : Type} [Coefficient κ]

mutual

def isReal : Form κ → Bool
  | number _ => true
  | symbol _ => true
  | unknown _ _ whole => whole
  | extremum _ args => allReal args
  | inverse _ => false
  | power base _ => isReal base
  | product _ factors => allReal factors
  | sum ts => allReal ts

def allReal : List (Form κ) → Bool
  | [] => true
  | f :: rest => isReal f && allReal rest

end

mutual

def sign : Form κ → Sign
  | number c => ⟨!(Coefficient.toNumber c).isNegative, !(Coefficient.toNumber c).isPositive⟩
  | symbol _ => ⟨false, false⟩
  | unknown _ _ _ => ⟨false, false⟩
  | extremum true args => ⟨anyNonnegative args, allNonpositive args⟩
  | extremum false args => ⟨allNonnegative args, anyNonpositive args⟩
  | inverse _ => ⟨false, false⟩
  | power base e => if e % 2 = 0 then ⟨base.isReal, false⟩ else sign base
  | product c factors =>
      Sign.mul ⟨!(Coefficient.toNumber c).isNegative, !(Coefficient.toNumber c).isPositive⟩
        (productSign factors)
  | sum ts => ⟨allNonnegative ts, allNonpositive ts⟩

def productSign : List (Form κ) → Sign
  | [] => ⟨true, false⟩
  | f :: rest => (sign f).mul (productSign rest)

def allNonnegative : List (Form κ) → Bool
  | [] => true
  | f :: rest => (sign f).nonnegative && allNonnegative rest

def allNonpositive : List (Form κ) → Bool
  | [] => true
  | f :: rest => (sign f).nonpositive && allNonpositive rest

def anyNonnegative : List (Form κ) → Bool
  | [] => false
  | f :: rest => (sign f).nonnegative || anyNonnegative rest

def anyNonpositive : List (Form κ) → Bool
  | [] => false
  | f :: rest => (sign f).nonpositive || anyNonpositive rest

end

def dominates (greatest : Bool) (a b : Form κ) : Bool :=
  a.isReal && b.isReal &&
    (if greatest then (a.sub b).sign.nonnegative else (a.sub b).sign.nonpositive)

def keepArgument (greatest : Bool) (kept : List (Form κ)) (f : Form κ) : List (Form κ) :=
  if kept.any fun g => f.same g || g.dominates greatest f then kept
  else kept.filter (fun g => !f.dominates greatest g) ++ [f]

def dedupe (args : List (Form κ)) : List (Form κ) :=
  args.foldl (fun kept f => if kept.any f.same then kept else kept ++ [f]) []

def extremumOf (greatest : Bool) (args : List (Form κ)) : Form κ :=
  match sorted smallerBefore (dedupe args) with
  | [f] => f
  | sorted => extremum greatest sorted

def flatten (greatest : Bool) : Form κ → List (Form κ)
  | extremum g args => if g = greatest then args else [extremum g args]
  | f => [f]

mutual

/-- The least arguments of the extrema of a kind nested directly in each other, when they are
numbers. -/
def nestedNumbers (greatest : Bool) : Form κ → List Number
  | extremum g args =>
      (if g = greatest then
        match args with
        | number c :: _ => [Coefficient.toNumber c]
        | _ => []
      else []) ++ allNestedNumbers greatest args
  | _ => []

def allNestedNumbers (greatest : Bool) : List (Form κ) → List Number
  | [] => []
  | f :: rest => nestedNumbers greatest f ++ allNestedNumbers greatest rest

end

def moreExtreme (greatest : Bool) (m n : Number) : Bool :=
  if greatest then n.less m else m.less n

def mostExtreme? (greatest : Bool) : List Number → Option Number
  | [] => none
  | n :: rest =>
      match mostExtreme? greatest rest with
      | none => some n
      | some best => if moreExtreme greatest best n then some best else some n

/-- Drops extrema of the other kind that a number among the arguments rules out: the minimum of
`3` and `max(5, x)` is `3`. -/
def dropExcluded (greatest : Bool) (args : List (Form κ)) : List (Form κ) :=
  match args with
  | number _ :: _ =>
      let numbers := args.filterMap number?
      match mostExtreme? greatest (numbers ++ allNestedNumbers greatest args) with
      | none => args
      | some bound =>
          args.filter fun f =>
            match f with
            | extremum g (number c :: _) =>
                g == greatest || !moreExtreme greatest bound (Coefficient.toNumber c)
            | _ => true
  | _ => args

mutual

/-- Removes `a` from an extremum that stands beside it: it is redundant in one of the same kind,
and decides one of the other kind. -/
def absorb (greatest : Bool) (a : Form κ) : Form κ → Form κ
  | extremum g args =>
      if args.any a.same && g != greatest then a
      else extremumOf g (absorbAll greatest a args)
  | f => f

def absorbAll (greatest : Bool) (a : Form κ) : List (Form κ) → List (Form κ)
  | [] => []
  | f :: rest =>
      if f.same a then absorbAll greatest a rest
      else absorb greatest a f :: absorbAll greatest a rest

end

def absorbFollowing (greatest : Bool) : Nat → List (Form κ) → List (Form κ)
  | 0, args => args
  | _, [] => []
  | count + 1, a :: rest =>
      a :: absorbFollowing greatest count (rest.map (absorb greatest a))

def arguments : Form κ → List (Form κ)
  | extremum _ args => args
  | f => [f]

/-- `min(max(x, y), max(x, z))` becomes `max(x, min(y, z))`. -/
def takeOutCommon (greatest : Bool) (args : List (Form κ)) : List (Form κ) :=
  let isOther : Form κ → Bool
    | extremum g _ => g != greatest
    | _ => false
  match args.filter isOther with
  | [] => args
  | first :: others =>
      let common := first.arguments.filter fun a => others.all fun o => o.arguments.any a.same
      if common.isEmpty then args
      else
        let rests := (first :: others).map fun o =>
          o.arguments.filter fun a => !common.any a.same
        let inner :=
          if rests.all (fun rest => !rest.isEmpty) then
            [extremumOf greatest (rests.map (extremumOf !greatest))]
          else []
        args.filter (fun f => !isOther f) ++ [extremumOf (!greatest) (common ++ inner)]

def extreme (greatest : Bool) (args : List (Form κ)) : Form κ :=
  let flat := sorted smallerBefore (dedupe (args.flatMap (flatten greatest)))
  let possible := dropExcluded greatest flat
  let apart := absorbFollowing greatest possible.length possible
  let candidates := if 1 < apart.length then takeOutCommon greatest apart else apart
  extremumOf greatest (candidates.foldl (keepArgument greatest) [])

end Form

end ReverseMode
