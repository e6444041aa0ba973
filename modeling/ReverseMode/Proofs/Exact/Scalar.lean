import Mathlib.Algebra.DualNumber
import Mathlib.Algebra.Field.Rat
import Mathlib.Data.Rat.Floor
import Mathlib.Tactic.NormNum
import ReverseMode.Expr.Basic

namespace ReverseMode

/-- Numbers a program computes with. Only the rational a number stands for is compared. -/
class Scalar (α : Type) extends CommRing α, Div α where
  standardHom : α →+* ℚ
  ofRatHom : ℚ →+* α
  standardHom_ofRatHom (q : ℚ) : standardHom (ofRatHom q) = q
  standardHom_div (a b : α) : standardHom (a / b) = standardHom a / standardHom b

abbrev standard {α : Type} [Scalar α] (a : α) : ℚ := (Scalar.standardHom : α →+* ℚ) a

abbrev ofRat {α : Type} [Scalar α] (q : ℚ) : α := (Scalar.ofRatHom : ℚ →+* α) q

attribute [simp] Scalar.standardHom_ofRatHom Scalar.standardHom_div

instance : Scalar ℚ where
  standardHom := RingHom.id ℚ
  ofRatHom := RingHom.id ℚ
  standardHom_ofRatHom _ := rfl
  standardHom_div _ _ := rfl

@[simp] theorem standard_rat (q : ℚ) : standard q = q := rfl

@[simp] theorem ofRat_rat (q : ℚ) : (ofRat q : ℚ) = q := rfl

instance : Scalar (DualNumber ℚ) where
  div a b := a * b⁻¹
  standardHom := (TrivSqZeroExt.fstHom ℚ ℚ ℚ).toRingHom
  ofRatHom := (TrivSqZeroExt.inlAlgHom ℚ ℚ ℚ).toRingHom
  standardHom_ofRatHom _ := rfl
  standardHom_div a b := by
    change (a * b⁻¹).fst = a.fst / b.fst
    rw [TrivSqZeroExt.fst_mul, TrivSqZeroExt.fst_inv, div_eq_mul_inv]

@[simp] theorem standard_dual (a : DualNumber ℚ) : standard a = a.fst := rfl

@[simp] theorem snd_ofRat (q : ℚ) : (ofRat q : DualNumber ℚ).snd = 0 := rfl

theorem snd_div (a b : DualNumber ℚ) (divisor : b.fst ≠ 0) :
    (a / b).snd = a.snd / b.fst - a.fst * b.snd / (b.fst * b.fst) := by
  change (a * b⁻¹).snd = _
  rw [DualNumber.snd_mul, TrivSqZeroExt.fst_inv, TrivSqZeroExt.snd_inv]
  simp only [smul_eq_mul, MulOpposite.smul_eq_mul_unop, MulOpposite.unop_op]
  field_simp
  ring

def wholePart {α : Type} [Scalar α] (a : α) : Int := (standard a).num.tdiv (standard a).den

@[simp] theorem wholePart_intCast {α : Type} [Scalar α] (i : Int) : wholePart (i : α) = i := by
  simp [wholePart]

theorem wholePart_standard {α : Type} [Scalar α] (a : α) : wholePart (standard a) = wholePart a := rfl

def truth {α : Type} [Scalar α] (p : Prop) [Decidable p] : α := if p then 1 else 0

@[simp] theorem standard_truth {α : Type} [Scalar α] (p : Prop) [Decidable p] :
    standard (truth p : α) = truth p := by
  unfold truth
  split <;> simp

def Decimal.Parts.exact : Decimal.Parts → ℚ
  | .finite negative mantissa exponent =>
      (if negative then -1 else 1) * mantissa * (2 : ℚ) ^ exponent
  | _ => 0

def Constant.exact : Constant → ℚ
  | .int v => v
  | .float v => (Decimal.parts v).exact
  | .bool v => if v then 1 else 0

open Float.Model in
theorem bits_of_zero {v : Float} (zero : (v == 0.0) = true) :
    v.toBits.toNat / 2 ^ 52 % 2 ^ 11 = 0 ∧ v.toBits.toNat % 2 ^ 52 = 0 := by
  have isZero : v.toModel.unpack.beq (.zero .positive) = true := zero
  obtain ⟨sign, unpacked⟩ : ∃ sign, v.toModel.unpack = .zero sign := by
    cases found : v.toModel.unpack with
    | zero sign => exact ⟨sign, rfl⟩
    | infinity sign => cases sign <;> cases found ▸ isZero
    | notANumber => cases found ▸ isZero
    | finite sign => cases sign <;> cases found ▸ isZero
  unfold Float.Model.unpack UnpackedFloat.unpack at unpacked
  extract_lets mantissa exponent at unpacked
  by_cases special : exponent = -BitVec.ofNat _ 1
  · rw [if_pos special] at unpacked
    by_cases noMantissa : mantissa = BitVec.ofNat _ 0
    · rw [if_pos noMantissa] at unpacked
      cases unpacked
    · rw [if_neg noMantissa] at unpacked
      cases unpacked
  rw [if_neg special] at unpacked
  by_cases noExponent : exponent = BitVec.ofNat _ 0
  · rw [if_pos noExponent] at unpacked
    by_cases noMantissa : mantissa = BitVec.ofNat _ 0
    · have exponentBits := congrArg BitVec.toNat noExponent
      have mantissaBits := congrArg BitVec.toNat noMantissa
      simp only [exponent, mantissa, UnpackedFloat.unpackExponent, UnpackedFloat.unpackMantissa,
        BitVec.toNat_cast, BitVec.extractLsb_toNat, Nat.shiftRight_eq_div_pow]
        at exponentBits mantissaBits
      have sameBits : v.toBits = v.toModel.toBits := rfl
      rw [sameBits]
      exact ⟨by simpa using exponentBits, by simpa using mantissaBits⟩
    · rw [dif_neg noMantissa] at unpacked
      cases unpacked
  · rw [if_neg noExponent] at unpacked
    cases unpacked

theorem Constant.exact_of_isZero {c : Constant} (zero : c.isZero = true) : c.exact = 0 := by
  cases c with
  | int v => simpa [isZero, exact] using zero
  | bool v => simpa [isZero, exact] using zero
  | float v =>
      obtain ⟨noExponent, noMantissa⟩ := bits_of_zero zero
      have small : ¬ 0 = Nat.pow 2 11 - 1 := by decide
      unfold exact Decimal.parts Decimal.partsOfBits
      simp only [Nat.pow_eq, noExponent, noMantissa, if_neg small, if_true]
      simp [Decimal.Parts.exact]

theorem Constant.exact_zero : (Constant.float 0.0).exact = 0 := by
  have parts : Decimal.parts 0.0 = .finite false 0 (-1074) := rfl
  rw [exact, parts]
  simp [Decimal.Parts.exact]

theorem Constant.exact_one : (Constant.float 1.0).exact = 1 := by
  have parts : Decimal.parts 1.0 = .finite false 4503599627370496 (-52) := rfl
  rw [exact, parts]
  norm_num [Decimal.Parts.exact]

def Element.exact : Element → ℚ
  | .bool v => if v then 1 else 0
  | .int v => v
  | .real v => (Decimal.parts v).exact

/-- The element of an image at an index, zero outside of the image. -/
def Image.exactAt (source : Image) (index : List Int) : ℚ :=
  let shape := source.data.shape
  let inside := (index.zip shape).all fun (i, extent) => 0 ≤ i && i < extent
  if index.length = shape.length && inside then
    (source.data.entry (Box.position ⟨shape.map fun _ => 0, shape⟩ index)).exact
  else 0

end ReverseMode
