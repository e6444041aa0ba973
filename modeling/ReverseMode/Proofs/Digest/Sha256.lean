import ReverseMode.Digest.Sha256
import Mathlib.Data.Nat.Digits.Lemmas

namespace ReverseMode.Sha256

def forced {α : Type} (n : Nat) (next : Nat → α) : α :=
  match n with
  | 0 => next 0
  | n + 1 => next (n + 1)

def forcedAll {α : Type} : List Nat → (List Nat → α) → α
  | [], next => next []
  | n :: rest, next => forced n fun n => forcedAll rest fun rest => next (n :: rest)

def twice (x : Nat) : Nat := x * 4294967297

def bigSigma0Nat (x : Nat) : Nat :=
  forced (twice x) fun y => (y >>> 2 ^^^ y >>> 13 ^^^ y >>> 22) % 4294967296

def bigSigma1Nat (x : Nat) : Nat :=
  forced (twice x) fun y => (y >>> 6 ^^^ y >>> 11 ^^^ y >>> 25) % 4294967296

def smallSigma0Nat (x : Nat) : Nat :=
  forced (twice x) fun y => (y >>> 7 ^^^ y >>> 18) % 4294967296 ^^^ x >>> 3

def smallSigma1Nat (x : Nat) : Nat :=
  forced (twice x) fun y => (y >>> 17 ^^^ y >>> 19) % 4294967296 ^^^ x >>> 10

def roundsNat : List Nat → (a b c d e f g h : Nat) → List Nat
  | [], a, b, c, d, e, f, g, h => [a, b, c, d, e, f, g, h]
  | input :: rest, a, b, c, d, e, f, g, h =>
      forced (h + bigSigma1Nat e + ((e &&& f) ^^^ ((4294967295 - e) &&& g)) + input) fun t1 =>
      forced ((t1 + (bigSigma0Nat a + ((a &&& b) ^^^ (a &&& c) ^^^ (b &&& c)))) % 4294967296)
        fun top =>
      forced ((d + t1) % 4294967296) fun middle => roundsNat rest top a b c middle e f g

def wordAt (packed back : Nat) : Nat := packed >>> (32 * back) % 4294967296

def scheduleNat : Nat → Nat → List Nat → List Nat
  | 0, _, words => words
  | count + 1, packed, words =>
      forced ((smallSigma1Nat (wordAt packed 1) + wordAt packed 6
        + smallSigma0Nat (wordAt packed 14) + wordAt packed 15) % 4294967296) fun word =>
      forced (word + 4294967296 * packed) fun packed => scheduleNat count packed (word :: words)

def compressNat (chain block : List Nat) : List Nat :=
  let words := scheduleNat 48 (Nat.ofDigits 4294967296 block.reverse) block.reverse
  let inputs := List.zipWith (· + ·) (roundConstants.map UInt32.toNat) words.reverse
  match chain with
  | [a, b, c, d, e, f, g, h] =>
      List.zipWith (fun x y => (x + y) % 4294967296) chain (roundsNat inputs a b c d e f g h)
  | _ => chain

def compressAll : List (List Nat) → List Nat → List Nat
  | [], chain => chain
  | block :: rest, chain => forcedAll (compressNat chain block) fun chain => compressAll rest chain

def toWordsNat : List Nat → List Nat
  | b0 :: b1 :: b2 :: b3 :: rest =>
      ((b0 <<< 24) % 4294967296 ||| (b1 <<< 16) % 4294967296 ||| (b2 <<< 8) % 4294967296 ||| b3)
        :: toWordsNat rest
  | _ => []

def blocksNat : Nat → List Nat → List (List Nat)
  | 0, _ => []
  | count + 1, words => words.take 16 :: blocksNat count (words.drop 16)

def hexDigestNat (text : String) : String :=
  forcedAll (toWordsNat ((pad text.toByteArray.data.toList).map UInt8.toNat)) fun words =>
    String.join ((compressAll (blocksNat (words.length / 16) words)
      (Chain.initial.words.map UInt32.toNat)).map (hex 8))

@[simp] theorem forced_eq {α : Type} (n : Nat) (next : Nat → α) : forced n next = next n := by
  cases n <;> rfl

@[simp] theorem forcedAll_eq {α : Type} (ns : List Nat) (next : List Nat → α) :
    forcedAll ns next = next ns := by
  induction ns generalizing next with
  | nil => rfl
  | cons n rest ih => rw [forcedAll, forced_eq, ih]

theorem toNat_rotate (x amount : UInt32) (positive : 0 < amount.toNat) (low : amount.toNat < 32) :
    (rotate x amount).toNat = twice x.toNat >>> amount.toNat % 4294967296 := by
  have small : x.toNat < 2 ^ 32 := x.toNat_lt
  have rest : (32 - amount).toNat = 32 - amount.toNat := by
    rw [UInt32.toNat_sub_of_le _ _ (UInt32.le_iff_toNat_le.2 (Nat.le_of_lt low))]
    rfl
  have restLow : (32 - amount.toNat) % 32 = 32 - amount.toNat := Nat.mod_eq_of_lt (by omega)
  have isTwice : twice x.toNat = x.toNat <<< 32 ||| x.toNat := by
    rw [← Nat.shiftLeft_add_eq_or_of_lt small, twice, Nat.shiftLeft_eq]
    omega
  have upper : x.toNat <<< 32 >>> amount.toNat = x.toNat <<< (32 - amount.toNat) := by
    rw [Nat.shiftLeft_eq, Nat.shiftRight_eq_div_pow, Nat.shiftLeft_eq,
      ← Nat.sub_add_cancel (Nat.le_of_lt low), Nat.pow_add, ← Nat.mul_assoc,
      Nat.mul_div_cancel _ (Nat.two_pow_pos _), Nat.add_sub_cancel]
  have lower : x.toNat >>> amount.toNat % 2 ^ 32 = x.toNat >>> amount.toNat :=
    Nat.mod_eq_of_lt (Nat.lt_of_le_of_lt (Nat.shiftRight_le _ _) small)
  rw [rotate, UInt32.toNat_or, UInt32.toNat_shiftRight, UInt32.toNat_shiftLeft, rest, restLow,
    Nat.mod_eq_of_lt low, isTwice, Nat.shiftRight_or_distrib, upper,
    show 4294967296 = 2 ^ 32 from rfl, Nat.or_mod_two_pow, lower, Nat.or_comm]

theorem toNat_bigSigma0 (x : UInt32) : (bigSigma0 x).toNat = bigSigma0Nat x.toNat := by
  rw [bigSigma0, UInt32.toNat_xor, UInt32.toNat_xor, toNat_rotate x 2 (by decide) (by decide),
    toNat_rotate x 13 (by decide) (by decide), toNat_rotate x 22 (by decide) (by decide),
    bigSigma0Nat, forced_eq, show 4294967296 = 2 ^ 32 from rfl, Nat.xor_mod_two_pow,
    Nat.xor_mod_two_pow]
  rfl

theorem toNat_bigSigma1 (x : UInt32) : (bigSigma1 x).toNat = bigSigma1Nat x.toNat := by
  rw [bigSigma1, UInt32.toNat_xor, UInt32.toNat_xor, toNat_rotate x 6 (by decide) (by decide),
    toNat_rotate x 11 (by decide) (by decide), toNat_rotate x 25 (by decide) (by decide),
    bigSigma1Nat, forced_eq, show 4294967296 = 2 ^ 32 from rfl, Nat.xor_mod_two_pow,
    Nat.xor_mod_two_pow]
  rfl

theorem toNat_smallSigma0 (x : UInt32) : (smallSigma0 x).toNat = smallSigma0Nat x.toNat := by
  rw [smallSigma0, UInt32.toNat_xor, UInt32.toNat_xor, UInt32.toNat_shiftRight,
    toNat_rotate x 7 (by decide) (by decide), toNat_rotate x 18 (by decide) (by decide),
    smallSigma0Nat, forced_eq, show 4294967296 = 2 ^ 32 from rfl, Nat.xor_mod_two_pow]
  rfl

theorem toNat_smallSigma1 (x : UInt32) : (smallSigma1 x).toNat = smallSigma1Nat x.toNat := by
  rw [smallSigma1, UInt32.toNat_xor, UInt32.toNat_xor, UInt32.toNat_shiftRight,
    toNat_rotate x 17 (by decide) (by decide), toNat_rotate x 19 (by decide) (by decide),
    smallSigma1Nat, forced_eq, show 4294967296 = 2 ^ 32 from rfl, Nat.xor_mod_two_pow]
  rfl

theorem words_rounds (inputs : List UInt32) (ns : List Nat) (chain : Chain)
    (areInputs : inputs.map UInt32.toNat = ns.map (· % 4294967296)) :
    (inputs.foldl round chain).words.map UInt32.toNat =
      roundsNat ns chain.a.toNat chain.b.toNat chain.c.toNat chain.d.toNat chain.e.toNat
        chain.f.toNat chain.g.toNat chain.h.toNat := by
  induction inputs generalizing ns chain with
  | nil =>
      obtain rfl : ns = [] := by simpa using areInputs.symm
      rfl
  | cons input rest ih =>
      obtain ⟨n, others, rfl⟩ : ∃ n others, ns = n :: others :=
        List.exists_cons_of_ne_nil (by rintro rfl; simp at areInputs)
      simp only [List.map_cons, List.cons.injEq] at areInputs
      rw [List.foldl_cons, ih others _ areInputs.2]
      simp [round, roundsNat, choose, majority, toNat_bigSigma0, toNat_bigSigma1,
        UInt32.toNat_add, UInt32.toNat_not, areInputs.1, UInt32.size]

theorem wordAt_ofDigits {words : List Nat} (small : ∀ word ∈ words, word < 4294967296)
    (back : Nat) : wordAt (Nat.ofDigits 4294967296 words) back = words.getD back 0 := by
  induction words generalizing back with
  | nil => simp [wordAt]
  | cons word rest ih =>
      obtain ⟨first, others⟩ := List.forall_mem_cons.1 small
      rw [Nat.ofDigits_cons]
      cases back with
      | zero => simp [wordAt, Nat.mod_eq_of_lt first]
      | succ back =>
          have later : (word + 4294967296 * Nat.ofDigits 4294967296 rest) >>> 32 =
              Nat.ofDigits 4294967296 rest := by
            rw [Nat.shiftRight_eq_div_pow]
            omega
          rw [List.getD_cons_succ, ← ih others, wordAt, wordAt, Nat.mul_succ,
            Nat.add_comm (32 * back), Nat.shiftRight_add]
          exact congrArg (fun n => n >>> (32 * back) % 4294967296) later

def packed (words : Array UInt32) : Nat :=
  Nat.ofDigits 4294967296 (words.toList.map UInt32.toNat).reverse

theorem packed_push (words : Array UInt32) (word : UInt32) :
    packed (words.push word) = word.toNat + 4294967296 * packed words := by
  rw [packed, Array.toList_push, List.map_append, List.reverse_append]
  exact Nat.ofDigits_cons

theorem toNat_getD (words : Array UInt32) {i back : Nat} (size : words.size = i) (positive : 0 < back)
    (known : back ≤ i) : (words.getD (i - back) 0).toNat =
      wordAt (packed words) (back - 1) := by
  subst size
  have small : ∀ word ∈ (words.toList.map UInt32.toNat).reverse, word < 4294967296 := by
    simp only [List.mem_reverse, List.mem_map]
    rintro _ ⟨word, -, rfl⟩
    exact word.toNat_lt_size
  rw [packed, wordAt_ofDigits small, List.getD_eq_getElem?_getD, List.getElem?_reverse (by simp; omega),
    List.length_map, Array.length_toList, Array.getD_eq_getD_getElem?,
    show words.size - 1 - (back - 1) = words.size - back by omega, List.getElem?_map,
    Array.getElem?_toList]
  cases words[words.size - back]? <;> rfl

theorem schedule_words (count : Nat) (words : Array UInt32) (enough : 16 ≤ words.size) :
    ((List.range' words.size count).foldl (fun words i =>
      words.push (smallSigma1 (words.getD (i - 2) 0) + words.getD (i - 7) 0
        + smallSigma0 (words.getD (i - 15) 0) + words.getD (i - 16) 0)) words).toList.map
      UInt32.toNat =
        (scheduleNat count (packed words) (words.toList.map UInt32.toNat).reverse).reverse := by
  induction count generalizing words with
  | zero => simp [scheduleNat]
  | succ count ih =>
      have step := ih (words.push (smallSigma1 (words.getD (words.size - 2) 0) +
        words.getD (words.size - 7) 0 + smallSigma0 (words.getD (words.size - 15) 0) +
          words.getD (words.size - 16) 0)) (by simp; omega)
      have word : (smallSigma1 (words.getD (words.size - 2) 0) + words.getD (words.size - 7) 0 +
          smallSigma0 (words.getD (words.size - 15) 0) + words.getD (words.size - 16) 0).toNat =
          (smallSigma1Nat (wordAt (packed words) 1) + wordAt (packed words) 6 +
            smallSigma0Nat (wordAt (packed words) 14) + wordAt (packed words) 15)
              % 4294967296 := by
        simp only [UInt32.toNat_add, toNat_smallSigma0, toNat_smallSigma1, Nat.mod_add_mod,
          toNat_getD words rfl (by decide : 0 < 2) (by omega : 2 ≤ words.size),
          toNat_getD words rfl (by decide : 0 < 7) (by omega : 7 ≤ words.size),
          toNat_getD words rfl (by decide : 0 < 15) (by omega : 15 ≤ words.size),
          toNat_getD words rfl (by decide : 0 < 16) (by omega : 16 ≤ words.size)]
      rw [Array.size_push] at step
      rw [List.range'_succ, List.foldl_cons, step, scheduleNat, forced_eq, forced_eq, ← word,
        packed_push, Array.toList_push, List.map_append, List.reverse_append]
      rfl

theorem words_compress (chain : Chain) (block : Array UInt32) (size : block.size = 16) :
    (compress chain block).words.map UInt32.toNat =
      compressNat (chain.words.map UInt32.toNat) (block.toList.map UInt32.toNat) := by
  have scheduled : (schedule block).toList.map UInt32.toNat =
      (scheduleNat 48 (packed block) (block.toList.map UInt32.toNat).reverse).reverse := by
    have words := schedule_words 48 block (Nat.le_of_eq size.symm)
    rwa [size] at words
  have areInputs : (List.zipWith (· + ·) roundConstants (schedule block).toList).map UInt32.toNat =
      (List.zipWith (· + ·) (roundConstants.map UInt32.toNat)
        ((schedule block).toList.map UInt32.toNat)).map (· % 4294967296) := by
    rw [List.map_zipWith, List.map_zipWith, List.zipWith_map]
    simp only [UInt32.toNat_add]
  have rounds := words_rounds _ _ chain areInputs
  rw [scheduled] at rounds
  simp only [compressNat, Chain.words, List.map_cons, List.map_nil, packed] at rounds ⊢
  rw [← rounds]
  simp [compress, Chain.add, UInt32.toNat_add]

theorem toWords_toNat :
    ∀ bytes : List UInt8, (toWords bytes).map UInt32.toNat = toWordsNat (bytes.map UInt8.toNat)
  | b0 :: b1 :: b2 :: b3 :: rest => by
      simp [toWords, toWordsNat, toWords_toNat rest, UInt32.toNat_shiftLeft]
  | [] | [_] | [_, _] | [_, _, _] => rfl

theorem blocks_toNat (count : Nat) (words : List UInt32) :
    (blocks count words).map (fun block => block.toList.map UInt32.toNat) =
      blocksNat count (words.map UInt32.toNat) := by
  induction count generalizing words with
  | zero => rfl
  | succ count ih => simp [blocks, blocksNat, ih]

theorem words_foldl (blocks : List (Array UInt32)) (chain : Chain)
    (whole : ∀ block ∈ blocks, block.size = 16) :
    (blocks.foldl compress chain).words.map UInt32.toNat =
      compressAll (blocks.map fun block => block.toList.map UInt32.toNat)
        (chain.words.map UInt32.toNat) := by
  induction blocks generalizing chain with
  | nil => rfl
  | cons block rest ih =>
      obtain ⟨first, others⟩ := List.forall_mem_cons.1 whole
      rw [List.foldl_cons, ih _ others, List.map_cons, compressAll, forcedAll_eq,
        words_compress chain block first]

theorem size_blocks {count : Nat} {words : List UInt32} (enough : 16 * count ≤ words.length) :
    ∀ block ∈ blocks count words, block.size = 16 := by
  induction count generalizing words with
  | zero => nofun
  | succ count ih =>
      refine List.forall_mem_cons.2 ⟨by simp; omega, ih ?_⟩
      rw [List.length_drop]
      omega

theorem toList_loop (bytes : ByteArray) (i : Nat) (read : List UInt8) :
    ByteArray.toList.loop bytes i read = read.reverse ++ bytes.data.toList.drop i := by
  induction i, read using ByteArray.toList.loop.induct bytes with
  | case1 i read inside ih =>
      rw [ByteArray.toList.loop, if_pos inside, ih,
        List.drop_eq_getElem_cons (i := i) (by simpa using inside)]
      simp [ByteArray.get!, getElem!_pos bytes.data i inside]
  | case2 i read outside =>
      rw [ByteArray.toList.loop, if_neg outside, List.drop_eq_nil_of_le (by simpa using outside),
        List.append_nil]

theorem toList_toUTF8 (text : String) : text.toUTF8.toList = text.toByteArray.data.toList := by
  rw [String.toUTF8, ByteArray.toList, toList_loop]
  rfl

theorem hexDigest_eq : hexDigest = hexDigestNat := by
  funext text
  unfold hexDigest hexDigestNat digest
  dsimp only
  rw [toList_toUTF8, forcedAll_eq, ← toWords_toNat, List.length_map, ← blocks_toNat,
    ← words_foldl _ _ (size_blocks (by omega)), List.map_map]
  rfl

end ReverseMode.Sha256
