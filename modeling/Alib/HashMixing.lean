import Alib.CString
import Alib.WordMixing

/-!
# The one-at-a-time hash

`a_hash_joat` and `a_hash_joat_ptrval` of `hash.c`.  Every step of a round and
of the end is one of the mixing steps that lose nothing, so keys of one length
which differ in one byte have different hashes.
-/

namespace Alib
namespace Hash

open Mixing

/-- The body of the loop. -/
def joatRound (hash : BitVec 32) (b : Byte) : BitVec 32 :=
  let hash := hash + b.setWidth 32
  let hash := hash + hash <<< 10
  hash ^^^ hash >>> 6

/-- What follows the loop. -/
def joatEnd (hash : BitVec 32) : BitVec 32 :=
  let hash := hash + hash <<< 3
  let hash := hash ^^^ hash >>> 11
  hash + hash <<< 15

/-- `for(end=ptr+len;ptr<end;ptr++)`, by the number of bytes left. -/
def joatLoop (key : List Byte) :
    ℕ → ℕ → BitVec 32 → Except Fault (BitVec 32)
  | 0, _, hash => .ok hash
  | left + 1, ptr, hash => do
      let b ← readAt key ptr
      joatLoop key left (ptr + 1) (joatRound hash b)

def aHashJoat (key : List Byte) (len : ℕ) : Except Fault (BitVec 32) := do
  let hash ← joatLoop key len 0 0
  return joatEnd hash

inductive ByteOrder where
  | little
  | big
  deriving DecidableEq

/-- The bytes of a pointer in memory. -/
def representation (order : ByteOrder) (arg : Ptr) : List Byte :=
  let bytes := (List.range sizeofPointer).map fun i =>
    (arg >>> (8 * i)).setWidth 8
  match order with
  | .little => bytes
  | .big => bytes.reverse

def aHashJoatPtrval (order : ByteOrder) (arg : Ptr) :
    Except Fault (BitVec 32) :=
  aHashJoat (representation order arg) sizeofPointer

section Rounds

theorem joatRound_injective_hash (b : Byte) :
    Function.Injective fun hash => joatRound hash b := by
  intro hash hash' heq
  have hxor := xorShift_injective (by decide) heq
  have hadd := addShift_injective (by decide) hxor
  exact (BitVec.add_left_inj _).mp hadd

theorem joatRound_injective_byte (hash : BitVec 32) :
    Function.Injective (joatRound hash) := by
  intro b b' heq
  have hxor := xorShift_injective (by decide) heq
  have hadd := addShift_injective (by decide) hxor
  have hwide : b.setWidth 32 = b'.setWidth 32 :=
    (BitVec.add_right_inj _).mp hadd
  apply BitVec.eq_of_toNat_eq
  have hnat := congrArg BitVec.toNat hwide
  rw [BitVec.toNat_setWidth, BitVec.toNat_setWidth] at hnat
  have hb := b.isLt
  have hb' := b'.isLt
  omega

theorem joatEnd_injective : Function.Injective joatEnd := by
  intro hash hash' heq
  have hlast := addShift_injective (by decide) heq
  have hxor := xorShift_injective (by decide) hlast
  exact addShift_injective (by decide) hxor

theorem joatLoop_eq (before after : List Byte) (hash : BitVec 32) :
    joatLoop (before ++ after) after.length before.length hash =
      .ok (after.foldl joatRound hash) := by
  induction after generalizing before hash with
  | nil => rfl
  | cons b after ih =>
      have hread : readAt (before ++ b :: after) before.length = .ok b :=
        readAt_of_getElem? (by simp)
      have hnext := ih (before ++ [b]) (joatRound hash b)
      rw [List.append_assoc, List.length_append] at hnext
      rw [List.length_cons, joatLoop, hread, ok_bind, List.foldl_cons]
      exact hnext

theorem aHashJoat_eq (key : List Byte) :
    aHashJoat key key.length = .ok (joatEnd (key.foldl joatRound 0)) := by
  have hloop := joatLoop_eq [] key 0
  rw [List.nil_append, List.length_nil] at hloop
  rw [aHashJoat, hloop]
  rfl

@[simp] theorem representation_length (order : ByteOrder) (arg : Ptr) :
    (representation order arg).length = sizeofPointer := by
  cases order with
  | little => simp [representation]
  | big => simp [representation]

end Rounds

/-- Both calls return, and what they return differs. -/
def Separated (call call' : Except Fault (BitVec 32)) : Prop :=
  ∃ hash hash', call = .ok hash ∧ call' = .ok hash' ∧ hash ≠ hash'

theorem separated_of_differAtOne {key key' : List Byte}
    (h : DifferAtOne key key') :
    Separated (aHashJoat key key.length) (aHashJoat key' key'.length) := by
  refine ⟨_, _, aHashJoat_eq key, aHashJoat_eq key', ?_⟩
  intro heq
  exact h.foldl_ne joatRound_injective_hash joatRound_injective_byte 0
    (joatEnd_injective heq)

/-- Keys of one length that differ in exactly one byte have different hashes,
and so have pointers whose representations do. -/
theorem aHashJoat_separates :
    (∀ key key' : List Byte, DifferAtOne key key' →
      Separated (aHashJoat key key.length) (aHashJoat key' key'.length)) ∧
    ∀ order arg arg',
      DifferAtOne (representation order arg) (representation order arg') →
      Separated (aHashJoatPtrval order arg) (aHashJoatPtrval order arg') := by
  constructor
  · intro key key' h
    exact separated_of_differAtOne h
  · intro order arg arg' h
    have hseparated := separated_of_differAtOne h
    rw [representation_length, representation_length] at hseparated
    exact hseparated

/-- Two letters, and the pointers 0 and 1. -/
theorem aHashJoat_separates_letters :
    Separated (aHashJoat [0x61#8] 1) (aHashJoat [0x62#8] 1) ∧
      Separated (aHashJoatPtrval .little 0) (aHashJoatPtrval .little 1) := by
  constructor
  · have hletters : DifferAtOne [0x61#8] [0x62#8] :=
      differAtOne_of_split [] [] (by decide)
    exact aHashJoat_separates.1 _ _ hletters
  · have hpointers :
        DifferAtOne (representation .little 0) (representation .little 1) :=
      differAtOne_of_split [] (List.replicate 7 0#8)
        (show (0#8 : Byte) ≠ 1#8 by decide)
    exact aHashJoat_separates.2 .little 0 1 hpointers

end Hash
end Alib
