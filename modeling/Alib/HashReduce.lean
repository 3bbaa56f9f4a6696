import Alib.HashTable
import Alib.WordMixing

/-!
# Folding a hash value to an index

`hash_reduce` combines the chunks of `bits` bits of a hash value, the last of
which may be partial.  For every `bits` below the width of an `int` the loop
ends; the result indexes a table of `2 ^ bits` chains, carries exclusive or to
exclusive or, and spreads the hash values evenly over the chains.
-/

namespace Alib
namespace Hash

open Mixing

/-- `~((~0) << bits)` -/
def reduceMask (bits : ℕ) : BitVec 32 := ~~~(BitVec.allOnes 32 <<< bits)

/-- The exclusive or of the chunks; after 32 of them nothing is left. -/
def reducedHash (bits : ℕ) (val : BitVec 32) : BitVec 32 :=
  foldChunks (reduceMask bits) bits 33 val

/-- `hash_reduce` returns the values of `reduce`, which fold the hash values
evenly into a table of `2 ^ bits` chains. -/
structure BalancedFold (bits : ℕ) (reduce : BitVec 32 → BitVec 32) :
    Prop where
  returns : ∀ val, hashReduce val bits = .ok (reduce val)
  inRange : ∀ val, (reduce val).toNat < 2 ^ bits
  xor : ∀ x y, reduce (x ^^^ y) = reduce x ^^^ reduce y
  small : ∀ val : BitVec 32, val.toNat < 2 ^ bits → reduce val = val
  chains : ∀ i < 2 ^ bits,
    Nat.card {val // (reduce val).toNat = i} = 2 ^ (32 - bits)
  slots : ∀ table : PointerArray, table.slots.length = 2 ^ bits →
    ∀ val, ∃ list, readSlot table (reduce val).toNat = .ok list

section Fold

variable {bits : ℕ}

theorem hashReduceLoop_eq {mask : BitVec 32} {fuel : ℕ}
    {val ret r : BitVec 32}
    (h : hashReduceLoop mask bits fuel val ret = .ok r) :
    r = ret ^^^ foldChunks mask bits fuel val := by
  induction fuel generalizing val ret with
  | zero => cases h
  | succ fuel ih =>
      rw [hashReduceLoop] at h
      by_cases hzero : val = 0
      · rw [if_pos hzero] at h
        cases h
        have hfold : foldChunks mask bits (fuel + 1) val = 0#32 := by
          rw [hzero]
          exact foldChunks_zero mask bits (fuel + 1)
        rw [hfold, BitVec.xor_zero]
      · rw [if_neg hzero] at h
        rw [ih h, foldChunks, BitVec.xor_assoc]

theorem foldChunks_mask_zero (n : ℕ) (x : BitVec 32) :
    foldChunks 0#32 bits n x = 0#32 := by
  induction n generalizing x with
  | zero => rfl
  | succ n ih => simp [foldChunks, ih]

/-- The loop ends with the folded value, which is in range. -/
theorem hashReduce_reducedHash (hbits : bits ≤ 31) (val : BitVec 32) :
    hashReduce val bits = .ok (reducedHash bits val) ∧
      (reducedHash bits val).toNat < 2 ^ bits := by
  have hwidth : ¬ 32 ≤ bits := by omega
  by_cases hzero : bits = 0
  · subst hzero
    have hmask : reduceMask 0 = 0#32 := by decide
    have hfold : reducedHash 0 val = 0#32 := by
      rw [reducedHash, hmask]
      exact foldChunks_mask_zero 33 val
    rw [hfold, hashReduce, if_neg hwidth, if_pos rfl]
    exact ⟨rfl, by simp⟩
  · have hend : 32 < 33 := by decide
    obtain ⟨r, hr, hlt⟩ := hashReduceLoop_ok hzero val.isLt hend
      (show (0 : BitVec 32).toNat < 2 ^ bits by simp)
    have hfold : r = reducedHash bits val := by
      rw [hashReduceLoop_eq hr]
      exact BitVec.zero_xor
    rw [hashReduce, if_neg hwidth, if_neg hzero, ← hfold]
    exact ⟨hr, hlt⟩

theorem reducedHash_xor (x y : BitVec 32) :
    reducedHash bits (x ^^^ y) = reducedHash bits x ^^^ reducedHash bits y :=
  foldChunks_xor _ _ _ x y

theorem and_reduceMask {val : BitVec 32} (hval : val.toNat < 2 ^ bits) :
    val &&& reduceMask bits = val := by
  apply BitVec.eq_of_getLsbD_eq
  intro i hi
  simp only [reduceMask, BitVec.getLsbD_and, BitVec.getLsbD_not,
    BitVec.getLsbD_shiftLeft, BitVec.getLsbD_allOnes, hi, decide_true,
    Bool.true_and]
  by_cases hlt : i < bits
  · simp [hlt]
  · have hbit : val.getLsbD i = false := by
      rw [← BitVec.testBit_toNat]
      apply Nat.testBit_lt_two_pow
      exact hval.trans_le (Nat.pow_le_pow_right (by omega) (by omega))
    simp [hbit]

theorem reducedHash_of_small {val : BitVec 32} (hval : val.toNat < 2 ^ bits) :
    reducedHash bits val = val := by
  apply foldChunks_of_small (and_reduceMask hval)
  apply BitVec.eq_of_toNat_eq
  rw [BitVec.toNat_ushiftRight, Nat.shiftRight_eq_div_pow,
    Nat.div_eq_of_lt hval]
  rfl

theorem reducedHash_eq_self_iff (hbits : bits ≤ 31) (val : BitVec 32) :
    reducedHash bits val = val ↔ val.toNat < 2 ^ bits := by
  constructor
  · intro hfix
    rw [← hfix]
    exact (hashReduce_reducedHash hbits val).2
  · exact reducedHash_of_small

theorem card_chain (hbits : bits ≤ 31) {i : ℕ} (hi : i < 2 ^ bits) :
    Nat.card {val // (reducedHash bits val).toNat = i} = 2 ^ (32 - bits) := by
  have hle : 2 ^ bits ≤ 2 ^ 32 := Nat.pow_le_pow_right (by omega) (by omega)
  have hnat : (BitVec.ofNat 32 i).toNat = i := by
    rw [BitVec.toNat_ofNat, Nat.mod_eq_of_lt (hi.trans_le hle)]
  have hself : reducedHash bits (BitVec.ofNat 32 i) = BitVec.ofNat 32 i :=
    reducedHash_of_small (by rw [hnat]; exact hi)
  have hidem : ∀ x,
      reducedHash bits (reducedHash bits x) = reducedHash bits x := by
    intro x
    exact reducedHash_of_small (hashReduce_reducedHash hbits x).2
  have hcard := card_preimage reducedHash_xor hidem hself
  have hresults : Nat.card {r // reducedHash bits r = r} = 2 ^ bits := by
    rw [Nat.card_congr (Equiv.subtypeEquivRight
      (reducedHash_eq_self_iff hbits)), card_lt (by omega)]
  have hchain : Nat.card {val // (reducedHash bits val).toNat = i} =
      Nat.card {val // reducedHash bits val = BitVec.ofNat 32 i} := by
    apply Nat.card_congr
    apply Equiv.subtypeEquivRight
    intro val
    rw [← BitVec.toNat_inj, hnat]
  rw [hchain]
  apply Nat.eq_of_mul_eq_mul_left (Nat.two_pow_pos bits)
  calc
    2 ^ bits * Nat.card {val // reducedHash bits val = BitVec.ofNat 32 i} =
        2 ^ 32 := by rw [← hresults, hcard]
    _ = 2 ^ bits * 2 ^ (32 - bits) := by
        rw [← pow_add, Nat.add_sub_cancel' (by omega)]

end Fold

/-- `hash_reduce` folds the hash values evenly into the chains of the table,
and gives zero when there is one chain. -/
theorem hashReduce_balanced {bits : ℕ} (hbits : bits ≤ 31) :
    (∃ reduce, BalancedFold bits reduce) ∧
      ∀ val, hashReduce val 0 = .ok 0 := by
  refine ⟨⟨reducedHash bits, ?_⟩, fun _ => rfl⟩
  constructor
  · exact fun val => (hashReduce_reducedHash hbits val).1
  · exact fun val => (hashReduce_reducedHash hbits val).2
  · exact reducedHash_xor
  · exact fun val => reducedHash_of_small
  · exact fun i hi => card_chain hbits hi
  · intro table hlength val
    have hlt : (reducedHash bits val).toNat < table.slots.length := by
      rw [hlength]
      exact (hashReduce_reducedHash hbits val).2
    exact ⟨table.slots[(reducedHash bits val).toNat], by simp [readSlot, hlt]⟩

/-- Chunks of five bits, of which the last has two. -/
theorem hashReduce_balanced_five :
    (∃ reduce, BalancedFold 5 reduce) ∧ ∀ val, hashReduce val 0 = .ok 0 :=
  hashReduce_balanced (by decide)

end Hash
end Alib
