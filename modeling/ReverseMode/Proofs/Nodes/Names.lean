import Mathlib.Data.Nat.Digits.Lemmas
import Std.Data.String.ToNat
import ReverseMode.Expr.Build

namespace ReverseMode

namespace Sha256

theorem hexDigit_injective :
    ∀ a < 16, ∀ b < 16, hexDigit a = hexDigit b → a = b := by decide

theorem hexDigit_plain : ∀ a < 16, hexDigit a ≠ '_' ∧ hexDigit a ≠ '.' := by decide

theorem toList_hex (width n : Nat) :
    (hex width n).toList =
      (List.range width).map fun i => hexDigit (n / Nat.pow 16 (width - 1 - i) % 16) :=
  String.toList_ofList

theorem hex_plain {width n : Nat} {c : Char} (member : c ∈ (hex width n).toList) :
    c ≠ '_' ∧ c ≠ '.' := by
  rw [toList_hex] at member
  obtain ⟨i, _, rfl⟩ := List.mem_map.1 member
  exact hexDigit_plain _ (Nat.mod_lt _ (by decide))

theorem mod_eq_of_digits {m n width : Nat}
    (same : ∀ k < width, m / 16 ^ k % 16 = n / 16 ^ k % 16) : m % 16 ^ width = n % 16 ^ width := by
  induction width with
  | zero => simp [Nat.mod_one]
  | succ width ih =>
      rw [Nat.mod_pow_succ, Nat.mod_pow_succ, ih fun k less => same k (by omega),
        same width (Nat.lt_succ_self _)]

theorem hex_injective {width m n : Nat} (small : m < 16 ^ width) (small' : n < 16 ^ width)
    (same : hex width m = hex width n) : m = n := by
  have lists := congrArg String.toList same
  rw [toList_hex, toList_hex] at lists
  have digits : ∀ k < width, m / 16 ^ k % 16 = n / 16 ^ k % 16 := by
    intro k less
    have each := List.map_inj_left.1 lists (width - 1 - k) (List.mem_range.2 (by omega))
    have position : width - 1 - (width - 1 - k) = k := by omega
    rw [position] at each
    exact hexDigit_injective _ (Nat.mod_lt _ (by decide)) _ (Nat.mod_lt _ (by decide)) each
  rw [← Nat.mod_eq_of_lt small, ← Nat.mod_eq_of_lt small', mod_eq_of_digits digits]

end Sha256

def digitCount (n : Nat) : Nat := if n < Nat.pow 16 8 then 8 else n.log2 / 4 + 1

theorem lt_pow_digitCount (n : Nat) : n < 16 ^ digitCount n := by
  unfold digitCount
  split
  next small => exact small
  next =>
    calc n < 2 ^ (n.log2 + 1) := Nat.lt_log2_self
      _ ≤ 2 ^ (4 * (n.log2 / 4 + 1)) := Nat.pow_le_pow_right (by decide) (by omega)
      _ = 16 ^ (n.log2 / 4 + 1) := by rw [Nat.pow_mul]

theorem nameDigits_injective {m n : Nat} (same : nameDigits m = nameDigits n) : m = n := by
  have isHex (k : Nat) : nameDigits k = Sha256.hex (digitCount k) k := rfl
  have lengths : digitCount m = digitCount n := by
    have := congrArg (fun s : String => s.toList.length) same
    simpa [isHex, Sha256.toList_hex] using this
  rw [isHex, isHex, lengths] at same
  exact Sha256.hex_injective (lengths ▸ lt_pow_digitCount m) (lt_pow_digitCount n) same

theorem nameDigits_plain {n : Nat} {c : Char} (member : c ∈ (nameDigits n).toList) :
    c ≠ '_' ∧ c ≠ '.' := Sha256.hex_plain member

theorem append_cons_inj {a b c d : List Char} {x : Char} (absent : x ∉ b) (absent' : x ∉ d)
    (same : a ++ x :: b = c ++ x :: d) : a = c ∧ b = d := by
  rcases List.append_eq_append_iff.1 same with ⟨rest, rfl, shorter⟩ | ⟨rest, rfl, shorter⟩
  · cases rest with
    | nil => simpa using shorter
    | cons y others =>
        obtain ⟨rfl, rfl⟩ := List.cons_eq_cons.1 shorter
        simp at absent
  · cases rest with
    | nil => simpa using shorter.symm
    | cons y others =>
        obtain ⟨rfl, rfl⟩ := List.cons_eq_cons.1 shorter
        simp at absent'

theorem toList_generatedName (stem : String) (n : Nat) :
    (generatedName stem n).toList = stem.toList ++ '_' :: (nameDigits n).toList := by
  simp [generatedName]

theorem generatedName_injective {stem stem' : String} {m n : Nat}
    (same : generatedName stem m = generatedName stem' n) : m = n := by
  have lists := congrArg String.toList same
  rw [toList_generatedName, toList_generatedName] at lists
  have digits := (append_cons_inj (fun member => (nameDigits_plain member).1 rfl)
    (fun member => (nameDigits_plain member).1 rfl) lists).2
  exact nameDigits_injective (String.toList_inj.1 digits)

def axisText (axis : Nat) : String :=
  match axis with
  | 0 => "x"
  | 1 => "y"
  | 2 => "z"
  | 3 => "w"
  | n => toString n

theorem toList_axisName (domain : String) (axis : Nat) :
    (axisName domain axis).toList = domain.toList ++ '.' :: (axisText axis).toList := by
  unfold axisName axisText
  split <;> simp [toString]

theorem axisText_digits (n : Nat) {c : Char} (member : c ∈ (axisText (n + 4)).toList) :
    c.isDigit = true := by
  have isNumber : axisText (n + 4) = Nat.repr (n + 4) := rfl
  rw [isNumber, Nat.toList_repr] at member
  exact Nat.isDigit_of_mem_toDigits (by decide) (by decide) member

theorem axisText_plain {axis : Nat} {c : Char} (member : c ∈ (axisText axis).toList) :
    c ≠ '_' ∧ c ≠ '.' := by
  match axis with
  | 0 | 1 | 2 | 3 =>
      simp only [axisText, String.reduceToList, List.mem_singleton] at member
      subst member
      decide
  | n + 4 =>
      have isDigit := axisText_digits n member
      constructor <;> rintro rfl <;> exact absurd isDigit (by decide)

theorem axisText_injective {i j : Nat} (same : axisText i = axisText j) : i = j := by
  have letter {n : Nat} {c : Char} (isLetter : c.isDigit = false)
      (text : axisText (n + 4) = String.ofList [c]) : False := by
    have digit := axisText_digits n (c := c) (by rw [text]; simp)
    rw [isLetter] at digit
    cases digit
  match i, j with
  | 0, 0 | 1, 1 | 2, 2 | 3, 3 => rfl
  | 0, 1 | 0, 2 | 0, 3 | 1, 0 | 1, 2 | 1, 3 | 2, 0 | 2, 1 | 2, 3 | 3, 0 | 3, 1 | 3, 2 =>
      exact absurd same (by decide)
  | 0, n + 4 => exact (letter (c := 'x') rfl same.symm).elim
  | 1, n + 4 => exact (letter (c := 'y') rfl same.symm).elim
  | 2, n + 4 => exact (letter (c := 'z') rfl same.symm).elim
  | 3, n + 4 => exact (letter (c := 'w') rfl same.symm).elim
  | n + 4, 0 => exact (letter (c := 'x') rfl same).elim
  | n + 4, 1 => exact (letter (c := 'y') rfl same).elim
  | n + 4, 2 => exact (letter (c := 'z') rfl same).elim
  | n + 4, 3 => exact (letter (c := 'w') rfl same).elim
  | m + 4, n + 4 => exact Nat.repr_injective same

theorem axisName_injective {domain : String} {i j : Nat}
    (same : axisName domain i = axisName domain j) : i = j := by
  have lists := congrArg String.toList same
  rw [toList_axisName, toList_axisName] at lists
  exact axisText_injective (String.toList_inj.1 (List.cons.inj (List.append_cancel_left lists)).2)

theorem generatedName_ne_axisName (stem : String) (n : Nat) (domain : String) (axis : Nat) :
    generatedName stem n ≠ axisName domain axis := by
  intro same
  have lists := congrArg String.toList same
  rw [toList_generatedName, toList_axisName] at lists
  rcases List.append_eq_append_iff.1 lists with ⟨rest, _, shorter⟩ | ⟨rest, _, shorter⟩
  · -- the dot stands among the digits
    cases rest with
    | nil => cases (List.cons.inj shorter).1
    | cons c others =>
        have member : '.' ∈ (nameDigits n).toList := by
          rw [(List.cons.inj shorter).2]
          simp
        exact (nameDigits_plain member).2 rfl
  · -- the underscore stands in the text of the axis
    cases rest with
    | nil => cases (List.cons.inj shorter).1
    | cons c others =>
        have member : '_' ∈ (axisText axis).toList := by
          rw [(List.cons.inj shorter).2]
          simp
        exact (axisText_plain member).1 rfl

/-- No name of that number or a later one is generated, nor one of a reduction domain of that
name. -/
def Unissued (names : Nat) (name : String) : Prop :=
  ∀ n, names ≤ n → ∀ stem, name ≠ generatedName stem n ∧
    ∀ axis, name ≠ axisName (generatedName stem n) axis

theorem Unissued.mono {names names' : Nat} {name : String} (unissued : Unissued names name)
    (later : names ≤ names') : Unissued names' name :=
  fun n atLeast => unissued n (later.trans atLeast)

theorem unissued_of_plain {name : String} (plain : '_' ∉ name.toList) (names : Nat) :
    Unissued names name := by
  intro n _ stem
  refine ⟨fun same => plain ?_, fun axis same => plain ?_⟩
  · rw [same, toList_generatedName]
    simp
  · rw [same, toList_axisName, toList_generatedName]
    simp

theorem unissued_generatedName {n names : Nat} (stem : String) (earlier : n < names) :
    Unissued names (generatedName stem n) := by
  intro m atLeast stem'
  refine ⟨fun same => ?_, fun axis => generatedName_ne_axisName stem n _ axis⟩
  have := generatedName_injective same
  omega

theorem unissued_axisName {n names : Nat} (stem : String) (axis : Nat) (earlier : n < names) :
    Unissued names (axisName (generatedName stem n) axis) := by
  intro m atLeast stem'
  refine ⟨fun same => generatedName_ne_axisName stem' m _ axis same.symm, fun axis' same => ?_⟩
  have lists := congrArg String.toList same
  rw [toList_axisName, toList_axisName] at lists
  have domains := (append_cons_inj (fun member => (axisText_plain member).2 rfl)
    (fun member => (axisText_plain member).2 rfl) lists).1
  have := generatedName_injective (String.toList_inj.1 domains)
  omega

end ReverseMode
