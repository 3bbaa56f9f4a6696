import Alib.ByteBlock
import Alib.StringOrder

/-!
# Words as text and in network order

`a_debug_u64_to_str` of `debug.c` writes the binary digits of a word, and
`hton_64` of `types.h` turns its bytes around on a machine that stores the low
byte first.  Both put the most significant digit in front, so what they yield
is compared, by `strcmp` or by `memcmp`, as the words are.
-/

namespace Alib
namespace WordText

open Positional

/-- `memcmp`, with the difference that decides as its result. -/
def memcmp : List Byte → List Byte → ℕ → Except Fault ℤ
  | _, _, 0 => .ok 0
  | b :: s, c :: t, n + 1 =>
      if b ≠ c then .ok ((b.toNat : ℤ) - c.toNat) else memcmp s t n
  | _, _, _ + 1 => .error .outOfBounds

/-- `for(ptr=str;ptr<end;ptr++)`, and the NUL behind. -/
def u64Loop : ℕ → BitVec 64 → List Byte → ℕ → Except Fault (List Byte)
  | 0, _, str, ptr => writeAt str ptr [0#8]
  | n + 1, num, str, ptr => do
      let digit := if num &&& 0x8000000000000000#64 ≠ 0#64 then 0x31#8
        else 0x30#8
      let str ← writeAt str ptr [digit]
      u64Loop n (num <<< 1) str (ptr + 1)

def aDebugU64ToStr (num : BitVec 64) (str : List Byte) :
    Except Fault (List Byte) := u64Loop 64 num str 0

def bswap64 (n : BitVec 64) : BitVec 64 :=
  ((n &&& 0x00000000000000FF#64) <<< 56) |||
    ((n &&& 0x000000000000FF00#64) <<< 40) |||
    ((n &&& 0x0000000000FF0000#64) <<< 24) |||
    ((n &&& 0x00000000FF000000#64) <<< 8) |||
    ((n &&& 0x000000FF00000000#64) >>> 8) |||
    ((n &&& 0x0000FF0000000000#64) >>> 24) |||
    ((n &&& 0x00FF000000000000#64) >>> 40) |||
    ((n &&& 0xFF00000000000000#64) >>> 56)

/-- The platform is little-endian. -/
def hton64 (x : BitVec 64) : BitVec 64 := bswap64 x

def ntoh64 (x : BitVec 64) : BitVec 64 := bswap64 x

/-- A word as it lies in memory. -/
def storedWord (x : BitVec 64) : List Byte :=
  (List.range 8).map (Bytes.byteOf x)

section Network

theorem bswap64_getLsbD (n : BitVec 64) {i j : ℕ} (hi : i < 8) (hj : j < 8) :
    (bswap64 n).getLsbD (8 * i + j) = n.getLsbD (8 * (7 - i) + j) := by
  unfold bswap64
  interval_cases i <;> interval_cases j <;> simp

theorem byteOf_bswap64 (n : BitVec 64) {i : ℕ} (hi : i < 8) :
    Bytes.byteOf (bswap64 n) i = Bytes.byteOf n (7 - i) := by
  apply BitVec.eq_of_getLsbD_eq
  intro j hj
  simp only [Bytes.byteOf, BitVec.getLsbD_extractLsb', hj, decide_true,
    Bool.true_and]
  exact bswap64_getLsbD n hi hj

theorem storedWord_bswap64 (n : BitVec 64) :
    storedWord (bswap64 n) = (storedWord n).reverse := by
  apply List.ext_getElem
  · simp [storedWord]
  · intro i hi _
    have hlt : i < 8 := by simpa [storedWord] using hi
    simp only [storedWord, List.getElem_map, List.getElem_range,
      List.getElem_reverse, List.length_map, List.length_range]
    exact byteOf_bswap64 n hlt

theorem bswap64_bswap64 (n : BitVec 64) : bswap64 (bswap64 n) = n := by
  apply BitVec.eq_of_getLsbD_eq
  intro k hk
  have hsplit : k = 8 * (k / 8) + k % 8 := (Nat.div_add_mod k 8).symm
  have hback : 7 - (7 - k / 8) = k / 8 := by omega
  rw [hsplit, bswap64_getLsbD _ (by omega) (by omega),
    bswap64_getLsbD _ (by omega) (by omega), hback]

theorem ofDigits_storedWord (n : BitVec 64) :
    Nat.ofDigits 256 ((storedWord n).map BitVec.toNat) = n.toNat := by
  have hlt := n.isLt
  simp only [storedWord, List.range, List.range.loop, List.map_cons,
    List.map_nil, Bytes.byteOf, BitVec.extractLsb'_toNat,
    Nat.shiftRight_eq_div_pow, Nat.ofDigits_cons, Nat.ofDigits_nil]
  norm_num
  omega

def bytesValue (bytes : List Byte) : ℕ :=
  value 256 (bytes.map BitVec.toNat)

theorem toNat_lt_of_mem {bytes : List Byte} :
    ∀ d ∈ bytes.map BitVec.toNat, d < 256 := by
  intro d hd
  obtain ⟨b, _, rfl⟩ := List.mem_map.mp hd
  exact b.isLt

theorem memcmp_eq {s t : List Byte} {n : ℕ} (hs : s.length = n)
    (ht : t.length = n) :
    memcmp s t n =
      .ok (firstDifference (s.map BitVec.toNat) (t.map BitVec.toNat)) := by
  induction n generalizing s t with
  | zero =>
      rw [List.length_eq_zero_iff.mp hs]
      rfl
  | succ n ih =>
      cases s with
      | nil => cases hs
      | cons b s =>
          cases t with
          | nil => cases ht
          | cons c t =>
              have hrest := ih (Nat.succ.inj hs) (Nat.succ.inj ht)
              by_cases heq : b = c
              · simp only [memcmp, heq, ne_eq, not_true_eq_false, if_false,
                  List.map_cons, firstDifference, if_true]
                exact hrest
              · have hne : b.toNat ≠ c.toNat := fun h =>
                  heq (BitVec.eq_of_toNat_eq h)
                simp [memcmp, heq, firstDifference, hne]

theorem bytesValue_hton64 (x : BitVec 64) :
    bytesValue (storedWord (hton64 x)) = x.toNat := by
  rw [bytesValue, value, ← List.map_reverse, hton64, storedWord_bswap64,
    List.reverse_reverse, ofDigits_storedWord]

/-- A word in network order lies in memory with its high byte in front, so the
bytes of two words compare as the words do, and it is turned back. -/
theorem hton_64_orders (x y : BitVec 64) :
    ntoh64 (hton64 x) = x ∧ hton64 (ntoh64 x) = x ∧
      storedWord (hton64 x) = (storedWord x).reverse ∧
      bytesValue (storedWord (hton64 x)) = x.toNat ∧
      ∃ difference,
        memcmp (storedWord (hton64 x)) (storedWord (hton64 y)) 8 =
          .ok difference ∧
        (difference < 0 ↔ x < y) ∧ (0 < difference ↔ y < x) := by
  have hlength : ∀ z, (storedWord z).length = 8 := by
    intro z
    simp [storedWord]
  have hlengths : ((storedWord (hton64 x)).map BitVec.toNat).length =
      ((storedWord (hton64 y)).map BitVec.toNat).length := by
    rw [List.length_map, List.length_map, hlength, hlength]
  refine ⟨bswap64_bswap64 x, bswap64_bswap64 x, storedWord_bswap64 x,
    bytesValue_hton64 x, _, memcmp_eq (hlength _) (hlength _), ?_, ?_⟩
  · rw [firstDifference_neg_iff (by norm_num : 1 < 256) hlengths
      toNat_lt_of_mem toNat_lt_of_mem, BitVec.lt_def, ← bytesValue_hton64 x,
      ← bytesValue_hton64 y]
    rfl
  · rw [firstDifference_pos_iff (by norm_num : 1 < 256) hlengths
      toNat_lt_of_mem toNat_lt_of_mem, BitVec.lt_def, ← bytesValue_hton64 x,
      ← bytesValue_hton64 y]
    rfl

end Network

section Text

/-- The `n` high bits of a word. -/
def bits : ℕ → BitVec 64 → List ℕ
  | 0, _ => []
  | n + 1, num => (if num.msb then 1 else 0) :: bits n (num <<< 1)

def digitOf (bit : ℕ) : Byte := BitVec.ofNat 8 (0x30 + bit)

/-- The text of a word. -/
def binaryText (num : BitVec 64) : List Byte := (bits 64 num).map digitOf

theorem bits_length (n : ℕ) (num : BitVec 64) : (bits n num).length = n := by
  induction n generalizing num with
  | zero => rfl
  | succ n ih => rw [bits, List.length_cons, ih]

theorem bits_lt {n : ℕ} {num : BitVec 64} : ∀ d ∈ bits n num, d < 2 := by
  induction n generalizing num with
  | zero => simp [bits]
  | succ n ih =>
      intro d hd
      rw [bits, List.mem_cons] at hd
      rcases hd with rfl | hrest
      · split <;> omega
      · exact ih d hrest

theorem msb_mask (num : BitVec 64) :
    (num &&& 0x8000000000000000#64 ≠ 0#64) ↔ num.msb = true := by
  have hmask : 0x8000000000000000#64 = BitVec.twoPow 64 63 := by decide
  rw [hmask, BitVec.and_twoPow, BitVec.msb_eq_getLsbD_last]
  cases num.getLsbD 63 <;> simp

/-- Shifting a bit out of a word and taking the others. -/
theorem shifted_div {n total : ℕ} (hn : n < 64) (htotal : total < 2 ^ 64) :
    total * 2 % 2 ^ 64 / 2 ^ (64 - n) +
        2 ^ n * (if 2 ^ 63 ≤ total then 1 else 0) =
      total / 2 ^ (64 - (n + 1)) := by
  obtain ⟨k, hk⟩ : ∃ k, 64 - n = k + 1 := ⟨63 - n, by omega⟩
  have hpred : 64 - (n + 1) = k := by omega
  have hpow : 2 ^ 64 = 2 ^ (k + 1) * 2 ^ n := by
    rw [← Nat.pow_add]
    congr 1
    omega
  have hsplit : total * 2 = total * 2 % 2 ^ 64 +
      2 ^ (k + 1) * (2 ^ n * (if 2 ^ 63 ≤ total then 1 else 0)) := by
    rw [← Nat.mul_assoc, ← hpow]
    split <;> omega
  calc total * 2 % 2 ^ 64 / 2 ^ (64 - n) +
        2 ^ n * (if 2 ^ 63 ≤ total then 1 else 0)
      = (total * 2 % 2 ^ 64 +
          2 ^ (k + 1) * (2 ^ n * (if 2 ^ 63 ≤ total then 1 else 0))) /
            2 ^ (k + 1) := by
        rw [hk, Nat.add_mul_div_left _ _ (Nat.two_pow_pos _)]
    _ = total * 2 / 2 ^ (k + 1) := by rw [← hsplit]
    _ = total / 2 ^ (64 - (n + 1)) := by
        rw [hpred, Nat.pow_succ, Nat.mul_div_mul_right _ _ Nat.two_pos]

theorem value_bits {n : ℕ} (hn : n ≤ 64) (num : BitVec 64) :
    value 2 (bits n num) = num.toNat / 2 ^ (64 - n) := by
  induction n generalizing num with
  | zero =>
      have hlt := num.isLt
      rw [bits, value_nil, Nat.div_eq_of_lt hlt]
  | succ n ih =>
      have hshift : (num <<< 1).toNat = num.toNat * 2 % 2 ^ 64 := by
        rw [BitVec.toNat_shiftLeft, Nat.shiftLeft_eq, Nat.pow_one]
      have hmsb : (if num.msb then 1 else 0) =
          if 2 ^ 63 ≤ num.toNat then 1 else 0 := by
        simp only [BitVec.msb_eq_decide, decide_eq_true_eq]
      rw [bits, value_cons, bits_length, ih (by omega), hshift, hmsb]
      exact shifted_div (by omega) num.isLt

theorem u64Loop_eq (n : ℕ) (num : BitVec 64) (front old : List Byte)
    (hold : n + 1 ≤ old.length) :
    u64Loop n num (front ++ old) front.length =
      .ok (front ++ (bits n num).map digitOf ++ 0#8 :: old.drop (n + 1)) := by
  induction n generalizing num front old with
  | zero =>
      cases old with
      | nil => simp at hold
      | cons b old =>
          rw [u64Loop, writeAt_byte]
          simp [bits]
  | succ n ih =>
      cases old with
      | nil => simp at hold
      | cons b old =>
          have hdigit : (if num &&& 0x8000000000000000#64 ≠ 0#64 then 0x31#8
              else 0x30#8) = digitOf (if num.msb then 1 else 0) := by
            simp only [msb_mask]
            cases num.msb <;> rfl
          have hnext := ih (num <<< 1)
            (front ++ [digitOf (if num.msb then 1 else 0)]) old
            (Nat.le_of_succ_le_succ hold)
          rw [List.length_append, List.length_singleton, List.append_assoc,
            List.singleton_append] at hnext
          rw [u64Loop]
          simp only [hdigit, writeAt_byte, ok_bind, hnext]
          simp [bits]

theorem binaryText_noNul (num : BitVec 64) : 0#8 ∉ binaryText num := by
  intro hmem
  obtain ⟨bit, hbit, hdigit⟩ := List.mem_map.mp hmem
  have hlt := bits_lt bit hbit
  interval_cases bit <;> exact absurd hdigit (by decide)

/-- Two texts of the same length differ where their digits do. -/
theorem strcmp_digits {ds es : List ℕ} (hlength : ds.length = es.length)
    (hds : ∀ d ∈ ds, d < 2) (hes : ∀ e ∈ es, e < 2) (after after' : List Byte) :
    strcmp (ds.map digitOf ++ 0#8 :: after) (es.map digitOf ++ 0#8 :: after') =
      .ok (firstDifference ds es) := by
  induction ds generalizing es with
  | nil =>
      rw [List.length_eq_zero_iff.mp hlength.symm]
      rfl
  | cons d ds ih =>
      cases es with
      | nil => cases hlength
      | cons e es =>
          have hrest := ih (Nat.succ.inj hlength)
            (fun d hd => hds d (List.mem_cons_of_mem _ hd))
            (fun e he => hes e (List.mem_cons_of_mem _ he))
          have hd := hds d List.mem_cons_self
          have he := hes e List.mem_cons_self
          rw [List.map_cons, List.map_cons, List.cons_append,
            List.cons_append, strcmp, firstDifference]
          interval_cases d <;> interval_cases e
          · simpa [digitOf] using hrest
          · simp [digitOf]
          · simp [digitOf]
          · simpa [digitOf] using hrest

theorem u64Loop_overflows {n ptr : ℕ} {str : List Byte} (num : BitVec 64)
    (hshort : str.length < ptr + n + 1) :
    u64Loop n num str ptr = .error .outOfBounds := by
  induction n generalizing ptr str num with
  | zero =>
      have hpast : ¬ ptr + [0#8].length ≤ str.length := by
        rw [List.length_singleton]
        omega
      rw [u64Loop, writeAt, if_neg hpast]
  | succ n ih =>
      rw [u64Loop]
      generalize (if num &&& 0x8000000000000000#64 ≠ 0#64 then 0x31#8
        else 0x30#8) = digit
      by_cases hle : ptr + [digit].length ≤ str.length
      · have hwrite : ∃ written, writeAt str ptr [digit] = .ok written :=
          ⟨_, writeAt_ok_iff.mpr ⟨hle, rfl⟩⟩
        obtain ⟨written, hwrite⟩ := hwrite
        have hlength := writeAt_length hwrite
        simp only [hwrite, ok_bind]
        exact ih (num <<< 1) (by omega)
      · simp only [writeAt, if_neg hle]
        rfl

theorem binaryText_value (num : BitVec 64) :
    value 2 ((binaryText num).map fun b => b.toNat - 0x30) = num.toNat := by
  have hdigits : (binaryText num).map (fun b => b.toNat - 0x30) =
      bits 64 num := by
    rw [binaryText, List.map_map]
    conv_rhs => rw [← List.map_id (bits 64 num)]
    refine List.map_congr_left fun bit hbit => ?_
    have hlt := bits_lt bit hbit
    interval_cases bit <;> rfl
  rw [hdigits, value_bits le_rfl, Nat.sub_self, Nat.pow_zero, Nat.div_one]

/-- Into a buffer of 65 bytes or more go the binary digits of the word and a
NUL; a shorter one overflows.  The digits have the word as their value, and
the texts of two words compare as the words do. -/
theorem a_debug_u64_to_str_orders (num other : BitVec 64)
    (out out' : List Byte) :
    (out.length < 65 → aDebugU64ToStr num out = .error .outOfBounds) ∧
      (65 ≤ out.length → 65 ≤ out'.length →
        ∃ str str' difference, aDebugU64ToStr num out = .ok str ∧
          aDebugU64ToStr other out' = .ok str' ∧
          Holds str ⟨binaryText num, binaryText_noNul num⟩ ∧
          str.drop 65 = out.drop 65 ∧
          value 2 ((binaryText num).map fun b => b.toNat - 0x30) =
            num.toNat ∧
          strcmp str str' = .ok difference ∧
          (difference < 0 ↔ num < other) ∧ (0 < difference ↔ other < num)) := by
  constructor
  · intro hshort
    exact u64Loop_overflows num (by omega)
  · intro hout hout'
    have hwrites : ∀ (word : BitVec 64) (region : List Byte),
        65 ≤ region.length → aDebugU64ToStr word region =
          .ok (binaryText word ++ 0#8 :: region.drop 65) := by
      intro word region hregion
      exact u64Loop_eq 64 word [] region hregion
    have hlengths : (bits 64 num).length = (bits 64 other).length := by
      rw [bits_length, bits_length]
    have hvalue : ∀ word, value 2 (bits 64 word) = word.toNat := by
      intro word
      rw [value_bits le_rfl, Nat.sub_self, Nat.pow_zero, Nat.div_one]
    refine ⟨_, _, _, hwrites num out hout, hwrites other out' hout', ?_, ?_,
      binaryText_value num, strcmp_digits hlengths bits_lt bits_lt _ _, ?_, ?_⟩
    · exact ⟨out.drop 65, by simp [CString.stored]⟩
    · have hlength : (binaryText num ++ [0#8]).length = 65 := by
        simp [binaryText, bits_length]
      rw [← List.singleton_append, ← List.append_assoc]
      exact List.drop_left' hlength
    · rw [firstDifference_neg_iff (by norm_num : 1 < 2) hlengths bits_lt
        bits_lt, BitVec.lt_def, hvalue, hvalue]
    · rw [firstDifference_pos_iff (by norm_num : 1 < 2) hlengths bits_lt
        bits_lt, BitVec.lt_def, hvalue, hvalue]

end Text

end WordText
end Alib
