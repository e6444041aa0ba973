import ReverseMode.Algebra.Shape

namespace ReverseMode

namespace Form

variable {κ : Type} [Coefficient κ]

def divideMonomial? (t d : Form κ) : Option (Form κ) := do
  let (c, fs) := t.split
  let (k, gs) := d.split
  let q ← Coefficient.divide? c k
  if gs.all fun g => g.basePower.2 ≤ t.exponentOf g.basePower.1 then
    some (join q (fs.flatMap (lowerExponent gs)))
  else none

def leadingTerm? (order : List (Form κ)) : List (Form κ) → Option (Form κ)
  | [] => none
  | t :: rest =>
      match leadingTerm? order rest with
      | none => some t
      | some u =>
          if leads (order.map fun base => (t.exponentOf base, u.exponentOf base)) then some t
          else some u

def divideSteps (order : List (Form κ)) (divisor : Form κ) : Nat → Form κ → Option (Form κ)
  | steps, dividend =>
      match leadingTerm? order dividend.terms with
      | none => some (ofInt 0)
      | some t =>
          match steps with
          | 0 => none
          | steps + 1 => do
              let d ← leadingTerm? order divisor.terms
              let q ← divideMonomial? t d
              let rest ← divideSteps order divisor steps (dividend.sub (distribute q divisor))
              some (q.add rest)

/-- The quotient of expanded forms if the divisor divides the dividend. Each step fixes a monomial
of the quotient, whose exponents are at most those of the dividend. -/
def divide? (dividend divisor : Form κ) : Option (Form κ) :=
  if divisor.terms.isEmpty then none
  else
    let order := allBases (dividend.terms ++ divisor.terms)
    let degree (base : Form κ) : Nat :=
      dividend.terms.foldl (fun m t => max m (t.exponentOf base).toNat) 0
    divideSteps order divisor (order.foldl (fun n base => n * (degree base + 1)) 1) dividend

end Form

end ReverseMode
