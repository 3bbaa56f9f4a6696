import Alib.CString

/-!
# Hexadecimal numbers of the C library

`strtoul` with base 16 in the C locale, where `unsigned long` has 64 bits, and
what `sprintf` writes for `%02x`.  `strtoul` skips blanks, takes a sign and a
base in front of the digits, and stops at the first byte that is none.
-/

namespace Alib

def hexValue (b : Byte) : Option ℕ :=
  if 0x30#8 ≤ b ∧ b ≤ 0x39#8 then some (b.toNat - 0x30)
  else if 0x61#8 ≤ b ∧ b ≤ 0x66#8 then some (b.toNat - 0x57)
  else if 0x41#8 ≤ b ∧ b ≤ 0x46#8 then some (b.toNat - 0x37)
  else none

def ulongMax : ℕ := 2 ^ 64 - 1

/-- The value of the digits at the start, behind those already read. -/
def digitsValue : ℕ → List Byte → ℕ
  | value, [] => value
  | value, b :: rest =>
      match hexValue b with
      | none => value
      | some digit => digitsValue (16 * value + digit) rest

/-- Whether there is a minus, and what follows the sign. -/
def splitSign : List Byte → Bool × List Byte
  | [] => (false, [])
  | b :: rest =>
      if b = 0x2D#8 then (true, rest)
      else if b = 0x2B#8 then (false, rest)
      else (false, b :: rest)

/-- `0x` or `0X` in front of a digit is skipped. -/
def skipBase : List Byte → List Byte
  | zero :: x :: digit :: rest =>
      if zero = 0x30#8 ∧ (x = 0x78#8 ∨ x = 0x58#8) ∧ (hexValue digit).isSome
      then digit :: rest
      else zero :: x :: digit :: rest
  | bytes => bytes

/-- The number that `strtoul` reads from the bytes of a string. -/
def hexNumber (bytes : List Byte) : ℕ :=
  let (negative, digits) := splitSign (bytes.dropWhile isspace)
  let value := digitsValue 0 (skipBase digits)
  if ulongMax < value then ulongMax
  else if negative then (2 ^ 64 - value) % 2 ^ 64
  else value

/-- `strtoul(nptr, NULL, 16)` -/
def strtoulHex (nptr : List Byte) : Except Fault ℕ := do
  let len ← strlen nptr
  return hexNumber (nptr.take len)

def hexDigit (digit : ℕ) : Byte :=
  BitVec.ofNat 8 (if digit < 10 then 0x30 + digit else 0x57 + digit)

/-- What `sprintf` writes for `%02x`, without the NUL. -/
def hexPair (b : Byte) : List Byte :=
  [hexDigit (b.toNat / 16), hexDigit (b.toNat % 16)]

def IsHexDigit (b : Byte) : Prop := (hexValue b).isSome

instance (b : Byte) : Decidable (IsHexDigit b) :=
  inferInstanceAs (Decidable (_ = true))

/-- `tolower` of the C locale. -/
def tolower (b : Byte) : Byte :=
  if 0x41#8 ≤ b ∧ b ≤ 0x5A#8 then b + 0x20#8 else b

section Digits

theorem hexValue_hexDigit {digit : ℕ} (h : digit < 16) :
    hexValue (hexDigit digit) = some digit := by
  revert digit
  decide

/-- A digit is the one written for its value, up to case. -/
theorem hexDigit_of_hexValue {b : Byte} {digit : ℕ}
    (h : hexValue b = some digit) :
    digit < 16 ∧ hexDigit digit = tolower b := by
  have hall : ∀ b : Byte, ∀ digit ∈ hexValue b,
      digit < 16 ∧ hexDigit digit = tolower b := by decide
  exact hall b digit h

theorem IsHexDigit.plain {b : Byte} (h : IsHexDigit b) :
    b ≠ 0#8 ∧ isspace b = false ∧ b ≠ 0x2D#8 ∧ b ≠ 0x2B#8 := by
  revert b
  decide

theorem isHexDigit_hexDigit {digit : ℕ} (h : digit < 16) :
    IsHexDigit (hexDigit digit) := by
  rw [IsHexDigit, hexValue_hexDigit h]
  rfl

theorem tolower_hexDigit {digit : ℕ} (h : digit < 16) :
    tolower (hexDigit digit) = hexDigit digit := by
  revert digit
  decide

end Digits

section Numbers

theorem digitsValue_lt (bytes : List Byte) (value : ℕ) :
    digitsValue value bytes < 16 ^ bytes.length * (value + 1) := by
  induction bytes generalizing value with
  | nil => simp [digitsValue]
  | cons b rest ih =>
      rw [digitsValue]
      have hone : value + 1 ≤ 16 ^ (b :: rest).length * (value + 1) :=
        Nat.le_mul_of_pos_left _ (Nat.pow_pos (by decide))
      cases hb : hexValue b with
      | none => exact hone
      | some digit =>
          have hdigit := (hexDigit_of_hexValue hb).1
          calc
            digitsValue (16 * value + digit) rest <
                16 ^ rest.length * (16 * value + digit + 1) := ih _
            _ ≤ 16 ^ rest.length * (16 * (value + 1)) :=
                Nat.mul_le_mul_left _ (by omega)
            _ = 16 ^ (b :: rest).length * (value + 1) := by
                rw [List.length_cons, pow_succ, Nat.mul_assoc]

theorem eq_one_of_digitsValue :
    ∀ b : Byte, digitsValue 0 [b] = 1 → b = 0x31#8 := by
  decide

theorem skipBase_of_short {bytes : List Byte} (h : bytes.length ≤ 2) :
    skipBase bytes = bytes := by
  rcases bytes with _ | ⟨a, _ | ⟨b, _ | ⟨c, rest⟩⟩⟩
  · rfl
  · rfl
  · rfl
  · simp at h

theorem splitSign_cases (bytes : List Byte) :
    (∃ rest, bytes = 0x2D#8 :: rest ∧ splitSign bytes = (true, rest)) ∨
      ∃ rest, splitSign bytes = (false, rest) ∧
        rest.length ≤ bytes.length := by
  cases bytes with
  | nil => exact Or.inr ⟨[], rfl, le_rfl⟩
  | cons b rest =>
      by_cases hminus : b = 0x2D#8
      · exact Or.inl ⟨rest, by rw [hminus], by rw [splitSign, if_pos hminus]⟩
      · right
        by_cases hplus : b = 0x2B#8
        · exact ⟨rest, by rw [splitSign, if_neg hminus, if_pos hplus],
            Nat.le_succ _⟩
        · exact ⟨b :: rest, by rw [splitSign, if_neg hminus, if_neg hplus],
            le_rfl⟩

theorem hexNumber_pair {a b : Byte} {high low : ℕ}
    (ha : hexValue a = some high) (hb : hexValue b = some low) :
    hexNumber [a, b] = 16 * high + low := by
  have hdigit : IsHexDigit a := by rw [IsHexDigit, ha]; rfl
  obtain ⟨_, hspace, hminus, hplus⟩ := hdigit.plain
  have hhigh := (hexDigit_of_hexValue ha).1
  have hlow := (hexDigit_of_hexValue hb).1
  have hdrop : [a, b].dropWhile isspace = [a, b] := by
    rw [List.dropWhile_cons_of_neg (by simp [hspace])]
  have hsign : splitSign [a, b] = (false, [a, b]) := by
    rw [splitSign, if_neg hminus, if_neg hplus]
  have hvalue : digitsValue 0 (skipBase [a, b]) = 16 * high + low := by
    simp [skipBase, digitsValue, ha, hb]
  have hmax : ¬ ulongMax < 16 * high + low := by
    unfold ulongMax
    omega
  simp only [hexNumber, hdrop, hsign, hvalue, if_neg hmax]
  simp

/-- Of up to two bytes only a minus and a one make the largest number. -/
theorem hexNumber_eq_max_iff {bytes : List Byte} (h : bytes.length ≤ 2) :
    hexNumber bytes = ulongMax ↔ bytes = [0x2D#8, 0x31#8] := by
  constructor
  · intro hmax
    have hsuffix := List.dropWhile_suffix isspace (l := bytes)
    have hshort := hsuffix.length_le.trans h
    have hsmall : ∀ l : List Byte, l.length ≤ 2 → digitsValue 0 l < 256 := by
      intro l hl
      have hlt := digitsValue_lt l 0
      have hpow : 16 ^ l.length ≤ 16 ^ 2 := Nat.pow_le_pow_right (by decide) hl
      omega
    rcases splitSign_cases (bytes.dropWhile isspace) with
      ⟨rest, hrest, hsign⟩ | ⟨rest, hsign, hlength⟩
    · have hone : rest.length ≤ 1 := by
        rw [hrest, List.length_cons] at hshort
        omega
      have hvalue := hsmall rest (by omega)
      have hbase : skipBase rest = rest := skipBase_of_short (by omega)
      have hover : ¬ ulongMax < digitsValue 0 rest := by
        unfold ulongMax
        omega
      simp only [hexNumber, hsign, hbase, if_neg hover, if_true] at hmax
      have hvalueOne : digitsValue 0 rest = 1 := by
        unfold ulongMax at hmax
        omega
      -- One byte is left behind the sign, and nothing was skipped.
      obtain ⟨c, rfl⟩ : ∃ c, rest = [c] := by
        rcases rest with _ | ⟨c, _ | ⟨d, rest⟩⟩
        · cases hvalueOne
        · exact ⟨c, rfl⟩
        · simp at hone
      rw [eq_one_of_digitsValue c hvalueOne] at hrest
      have hsame : bytes.dropWhile isspace = bytes := by
        apply hsuffix.eq_of_length_le
        rw [hrest]
        exact h
      rw [← hsame, hrest]
    · exfalso
      have hvalue := hsmall rest (by omega)
      have hbase : skipBase rest = rest := skipBase_of_short (by omega)
      have hover : ¬ ulongMax < digitsValue 0 rest := by
        unfold ulongMax
        omega
      simp only [hexNumber, hsign, hbase, if_neg hover] at hmax
      unfold ulongMax at hmax
      simp at hmax
      omega
  · intro hbytes
    rw [hbytes]
    decide

theorem strtoulHex_window (a b : Byte) :
    ∃ bytes, strtoulHex [a, b, 0#8] = .ok (hexNumber bytes) ∧
      bytes.length ≤ 2 ∧ (a ≠ 0#8 → b ≠ 0#8 → bytes = [a, b]) ∧
      (bytes = [0x2D#8, 0x31#8] → a = 0x2D#8 ∧ b = 0x31#8) := by
  by_cases ha : a = 0#8
  · exact ⟨[], by simp [strtoulHex, strlen, ha], by simp, fun h => absurd ha h,
      fun h => by cases h⟩
  · by_cases hb : b = 0#8
    · exact ⟨[a], by simp [strtoulHex, strlen, ha, hb], by simp,
        fun _ h => absurd hb h, fun h => by simp at h⟩
    · refine ⟨[a, b], by simp [strtoulHex, strlen, ha, hb], by simp,
        fun _ _ => rfl, fun h => ?_⟩
      simpa using h

end Numbers

end Alib
