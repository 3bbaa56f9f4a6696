import Alib.CString

/-!
# Formatted output

The conversions `%s` and `%u` of `printf`, which the library's own formats
use.
-/

namespace Alib

def newline : Byte := 0x0A#8

def ofDigit (c : Char) : Byte := BitVec.ofNat 8 c.toNat

/-- An argument that was passed for a conversion. -/
inductive PrintfArg where
  | str (s : CString)
  | unsigned (n : BitVec 32)

def decimal (n : ℕ) : List Byte := (Nat.toDigits 10 n).map ofDigit

def printf : List Byte → List PrintfArg → List Byte
  | 0x25#8 :: 0x73#8 :: fmt, .str s :: args => s.bytes ++ printf fmt args
  | 0x25#8 :: 0x75#8 :: fmt, .unsigned n :: args =>
      decimal n.toNat ++ printf fmt args
  | b :: fmt, args => b :: printf fmt args
  | [], _ => []

theorem decimal_noNul (n : ℕ) : 0#8 ∉ decimal n := by
  intro hmem
  obtain ⟨c, hc, hnul⟩ := List.mem_map.mp hmem
  have hdigit := Nat.isDigit_of_mem_toDigits (by norm_num) le_rfl hc
  rw [Char.isDigit, Bool.and_eq_true, decide_eq_true_eq, decide_eq_true_eq]
    at hdigit
  have hlow : 48 ≤ c.toNat := hdigit.1
  have hhigh : c.toNat ≤ 57 := hdigit.2
  have hzero : c.toNat % 2 ^ 8 = 0 := by
    have htoNat := congrArg BitVec.toNat hnul
    rwa [ofDigit, BitVec.toNat_ofNat] at htoNat
  omega

theorem printf_noNul {fmt : List Byte} (hfmt : 0#8 ∉ fmt)
    (args : List PrintfArg) : 0#8 ∉ printf fmt args := by
  fun_induction printf fmt args with
  | case1 fmt s args ih =>
      rw [List.mem_append, not_or]
      refine ⟨s.noNul, ih fun hmem => hfmt ?_⟩
      exact List.mem_cons_of_mem _ (List.mem_cons_of_mem _ hmem)
  | case2 fmt n args ih =>
      rw [List.mem_append, not_or]
      refine ⟨decimal_noNul _, ih fun hmem => hfmt ?_⟩
      exact List.mem_cons_of_mem _ (List.mem_cons_of_mem _ hmem)
  | case3 b fmt args _ _ ih =>
      rw [List.mem_cons, not_or] at hfmt ⊢
      exact ⟨hfmt.1, ih hfmt.2⟩
  | case4 => exact hfmt

/-- The output of `printf` as a string. -/
def CString.printf (fmt : CString) (args : List PrintfArg) : CString :=
  ⟨Alib.printf fmt.bytes args, printf_noNul fmt.noNul args⟩

end Alib
