import Alib.BintreeCalls

/-!
# The integer comparators

`a_collect_cmp_intptr` and `a_collect_cmp_uintptr` return the difference of
two pointer-sized integers as an `int`, so only its lowest 32 bits count.
They order a set of keys exactly if the distance between any two different
keys, modulo `2 ^ 32`, is positive and below `2 ^ 31`; only then do different
keys of a binary tree never overwrite each other.
-/

namespace Alib
namespace Collect

open Bintree

/-- The conversion of a 64-bit difference to an `int`. -/
def narrow (difference : Ptr) : ℤ := (difference.setWidth 32).toInt

/-- An overflow of the signed difference is undefined. -/
def aCollectCmpIntptr (a b : Ptr) : Except Fault ℤ :=
  if BitVec.ssubOverflow a b then .error .signedOverflow
  else .ok (narrow (a - b))

def aCollectEqIntptr (a b : Ptr) : Bool := a = b

def aCollectCmpUintptr (a b : Ptr) : Except Fault ℤ := .ok (narrow (a - b))

def aCollectEqUintptr (a b : Ptr) : Bool := a = b

/-- The value of a pointer as `intptr_t` and as `uintptr_t`. -/
def intptr (a : Ptr) : ℤ := a.toInt

def uintptr (a : Ptr) : ℤ := a.toNat

/-- A put into any tree over these keys, with a key among them, leaves the
entries of all other keys as they are. -/
def KeepsOthers (keyCmp : Ptr → Ptr → ℤ) (keys : Set Ptr) : Prop :=
  ∀ (E : Env) (keyFree valFree : Bool) (st : BintreeState) (t : Tree),
    HoldsTree ⟨keyCmp, keyFree, valFree⟩ st t →
    (∀ e ∈ contents t, e.key ∈ keys) → ∀ key ∈ keys, ∀ val,
      ∃ code after t', aBintreePut E key val st = .ok (code, after) ∧
        HoldsTree ⟨keyCmp, keyFree, valFree⟩ after t' ∧
        ∀ e ∈ contents t, e.key ≠ key → e ∈ contents t'

/-- The results `keyCmp` of a comparator order these keys as integers. -/
structure OrderedBy (cmp : Ptr → Ptr → Except Fault ℤ)
    (eq : Ptr → Ptr → Bool) (reading : Ptr → ℤ) (keys : Set Ptr)
    (keyCmp : Ptr → Ptr → ℤ) : Prop where
  defined : ∀ a ∈ keys, ∀ b ∈ keys, cmp a b = .ok (keyCmp a b)
  neg_iff : ∀ a ∈ keys, ∀ b ∈ keys,
    (keyCmp a b < 0 ↔ reading a < reading b)
  zero_iff : ∀ a ∈ keys, ∀ b ∈ keys,
    (keyCmp a b = 0 ↔ reading a = reading b)
  pos_iff : ∀ a ∈ keys, ∀ b ∈ keys,
    (0 < keyCmp a b ↔ reading b < reading a)
  antisymm : ∀ a ∈ keys, ∀ b ∈ keys, (keyCmp a b < 0 ↔ 0 < keyCmp b a)
  trans : ∀ a ∈ keys, ∀ b ∈ keys, ∀ c ∈ keys,
    keyCmp a b ≤ 0 → keyCmp b c ≤ 0 → keyCmp a c ≤ 0
  eq_iff : ∀ a ∈ keys, ∀ b ∈ keys, (keyCmp a b = 0 ↔ eq a b = true)
  keepsOthers : KeepsOthers keyCmp keys

/-- The comparator is the total order of these keys that a tree needs. -/
def TotalOrder (cmp : Ptr → Ptr → Except Fault ℤ) (eq : Ptr → Ptr → Bool)
    (reading : Ptr → ℤ) (keys : Set Ptr) : Prop :=
  ∃ keyCmp, OrderedBy cmp eq reading keys keyCmp

/-- The distance between different keys, modulo `2 ^ 32`, is positive and
below `2 ^ 31`. -/
def Spaced (reading : Ptr → ℤ) (keys : Set Ptr) : Prop :=
  ∀ a ∈ keys, ∀ b ∈ keys, reading b < reading a →
    0 < (reading a - reading b) % 2 ^ 32 ∧
      (reading a - reading b) % 2 ^ 32 < 2 ^ 31

/-- No difference of two keys is too large for an `intptr_t`. -/
def Bounded (keys : Set Ptr) : Prop :=
  ∀ a ∈ keys, ∀ b ∈ keys, intptr a - intptr b < 2 ^ 63

section Narrow

theorem narrow_uintptr (a b : Ptr) :
    narrow (a - b) = Int.bmod (uintptr a - uintptr b) (2 ^ 32) := by
  have ha := a.isLt
  have hb := b.isLt
  rw [narrow, BitVec.toInt_setWidth, BitVec.toNat_sub, uintptr, uintptr]
  simp only [Int.bmod_def]
  omega

theorem narrow_intptr (a b : Ptr) :
    narrow (a - b) = Int.bmod (intptr a - intptr b) (2 ^ 32) := by
  rw [narrow_uintptr]
  have ha := a.isLt
  have hb := b.isLt
  rw [intptr, intptr, BitVec.toInt_eq_toNat_cond, BitVec.toInt_eq_toNat_cond,
    uintptr, uintptr]
  simp only [Int.bmod_def]
  split_ifs <;> omega

theorem uintptr_inj {a b : Ptr} : uintptr a = uintptr b ↔ a = b := by
  rw [uintptr, uintptr, Nat.cast_inj]
  exact BitVec.toNat_inj

theorem intptr_inj {a b : Ptr} : intptr a = intptr b ↔ a = b :=
  BitVec.toInt_inj

end Narrow

section Signs

variable {reading : Ptr → ℤ} {keys : Set Ptr} {a b : Ptr}

theorem bmod_pos_iff (x : ℤ) :
    0 < Int.bmod x (2 ^ 32) ↔ 0 < x % 2 ^ 32 ∧ x % 2 ^ 32 < 2 ^ 31 := by
  simp only [Int.bmod_def]
  omega

theorem bmod_neg_iff (x : ℤ) :
    Int.bmod (-x) (2 ^ 32) < 0 ↔ 0 < x % 2 ^ 32 ∧ x % 2 ^ 32 ≤ 2 ^ 31 := by
  simp only [Int.bmod_def]
  omega

theorem Spaced.sign (h : Spaced reading keys) (ha : a ∈ keys)
    (hb : b ∈ keys) :
    (reading a < reading b ∧
        Int.bmod (reading a - reading b) (2 ^ 32) < 0) ∨
      (reading a = reading b ∧
        Int.bmod (reading a - reading b) (2 ^ 32) = 0) ∨
      (reading b < reading a ∧
        0 < Int.bmod (reading a - reading b) (2 ^ 32)) := by
  rcases lt_trichotomy (reading a) (reading b) with hlt | heq | hgt
  · left
    have hspace := h b hb a ha hlt
    refine ⟨hlt, ?_⟩
    rw [← neg_sub, bmod_neg_iff]
    exact ⟨hspace.1, hspace.2.le⟩
  · right
    left
    rw [heq, sub_self, Int.zero_bmod]
    exact ⟨rfl, rfl⟩
  · right
    right
    exact ⟨hgt, (bmod_pos_iff _).mpr (h a ha b hb hgt)⟩

/-- A comparator with the right signs needs the keys to be spaced. -/
theorem spaced_of_pos_iff {keyCmp : Ptr → Ptr → ℤ}
    (hcmp : ∀ a ∈ keys, ∀ b ∈ keys,
      keyCmp a b = Int.bmod (reading a - reading b) (2 ^ 32))
    (hpos : ∀ a ∈ keys, ∀ b ∈ keys,
      (0 < keyCmp a b ↔ reading b < reading a)) : Spaced reading keys := by
  intro a ha b hb hlt
  rw [← bmod_pos_iff, ← hcmp a ha b hb]
  exact (hpos a ha b hb).mpr hlt

end Signs

section Tree

variable {keyCmp : Ptr → Ptr → ℤ} {keys : Set Ptr}

theorem keepsOthers_of_zero
    (hzero : ∀ a ∈ keys, ∀ b ∈ keys, keyCmp a b = 0 → a = b) :
    KeepsOthers keyCmp keys := by
  intro E keyFree valFree st t h hkeys key hkey val
  rcases aBintreePut_cases E h key val with
    ⟨after, hput, hholds, _, _⟩ | ⟨_, world, hput, hrequests⟩
  · refine ⟨_, after, _, hput, hholds, ?_⟩
    intro e he hne
    unfold Callbacks.put
    cases hfind : Callbacks.find ⟨keyCmp, keyFree, valFree⟩ key t with
    | none =>
        rw [contents_hang_of_find_none _ hfind]
        exact Multiset.mem_cons_of_mem he
    | some old =>
        obtain ⟨hmem, hsame⟩ := mem_of_find_some hfind
        have hold : old.key = key :=
          hzero old.key (hkeys old hmem) key hkey hsame
        rw [contents_hang_of_find_some _ _ hfind]
        apply Multiset.mem_cons_of_mem
        rw [Multiset.mem_erase_of_ne]
        · exact he
        · intro heq
          subst heq
          exact hne hold
  · exact ⟨_, _, t, hput, h.withWorld hrequests, fun e he _ => he⟩

end Tree

section Order

variable {cmp : Ptr → Ptr → Except Fault ℤ} {eq : Ptr → Ptr → Bool}
  {reading : Ptr → ℤ} {keys : Set Ptr}

/-- A comparator which narrows the difference is the order of these keys
exactly if its results are defined and the keys are spaced. -/
theorem totalOrder_iff
    (hnarrow : ∀ a b, narrow (a - b) =
      Int.bmod (reading a - reading b) (2 ^ 32))
    (hinj : ∀ {a b}, reading a = reading b ↔ a = b)
    (heq : ∀ a b, eq a b = true ↔ a = b)
    (hvalue : ∀ a b result, cmp a b = .ok result → result = narrow (a - b)) :
    TotalOrder cmp eq reading keys ↔
      (∀ a ∈ keys, ∀ b ∈ keys, cmp a b = .ok (narrow (a - b))) ∧
        Spaced reading keys := by
  constructor
  · rintro ⟨keyCmp, hordered⟩
    have hcmp : ∀ a ∈ keys, ∀ b ∈ keys, keyCmp a b = narrow (a - b) :=
      fun a ha b hb => hvalue a b _ (hordered.defined a ha b hb)
    constructor
    · intro a ha b hb
      rw [hordered.defined a ha b hb, hcmp a ha b hb]
    · apply spaced_of_pos_iff _ hordered.pos_iff
      intro a ha b hb
      rw [hcmp a ha b hb, hnarrow]
  · rintro ⟨hdefined, hspaced⟩
    have hsign : ∀ a ∈ keys, ∀ b ∈ keys,
        (reading a < reading b ∧ narrow (a - b) < 0) ∨
          (reading a = reading b ∧ narrow (a - b) = 0) ∨
          (reading b < reading a ∧ 0 < narrow (a - b)) := by
      intro a ha b hb
      rw [hnarrow]
      exact hspaced.sign ha hb
    have hzero : ∀ a ∈ keys, ∀ b ∈ keys,
        (narrow (a - b) = 0 ↔ reading a = reading b) := by
      intro a ha b hb
      have hab := hsign a ha b hb
      omega
    refine ⟨fun a b => narrow (a - b), ?_⟩
    constructor
    · exact hdefined
    · intro a ha b hb
      have hab := hsign a ha b hb
      omega
    · exact hzero
    · intro a ha b hb
      have hab := hsign a ha b hb
      omega
    · intro a ha b hb
      have hab := hsign a ha b hb
      have hba := hsign b hb a ha
      omega
    · intro a ha b hb c hc hle hle'
      have hab := hsign a ha b hb
      have hbc := hsign b hb c hc
      have hac := hsign a ha c hc
      omega
    · intro a ha b hb
      rw [heq]
      exact (hzero a ha b hb).trans hinj
    · apply keepsOthers_of_zero
      intro a ha b hb hab
      exact hinj.mp ((hzero a ha b hb).mp hab)

theorem intptr_defined_iff :
    (∀ a ∈ keys, ∀ b ∈ keys,
      aCollectCmpIntptr a b = .ok (narrow (a - b))) ↔ Bounded keys := by
  have hoverflow : ∀ a b : Ptr, BitVec.ssubOverflow a b = false ↔
      intptr a - intptr b < 2 ^ 63 ∧ intptr b - intptr a ≤ 2 ^ 63 := by
    intro a b
    simp only [BitVec.ssubOverflow, Bool.or_eq_false_iff,
      decide_eq_false_iff_not, intptr]
    omega
  constructor
  · intro hdefined a ha b hb
    have hresult := hdefined a ha b hb
    cases hcase : BitVec.ssubOverflow a b with
    | true =>
        rw [aCollectCmpIntptr, hcase] at hresult
        cases hresult
    | false => exact ((hoverflow a b).mp hcase).1
  · intro hbounded a ha b hb
    have hcase := (hoverflow a b).mpr
      ⟨hbounded a ha b hb, (hbounded b hb a ha).le⟩
    rw [aCollectCmpIntptr, hcase]
    rfl

theorem aCollectCmpIntptr_value (a b : Ptr) (result : ℤ)
    (h : aCollectCmpIntptr a b = .ok result) : result = narrow (a - b) := by
  unfold aCollectCmpIntptr at h
  split at h
  · cases h
  · exact (Except.ok.inj h).symm

theorem aCollectCmpUintptr_value (a b : Ptr) (result : ℤ)
    (h : aCollectCmpUintptr a b = .ok result) : result = narrow (a - b) :=
  (Except.ok.inj h).symm

theorem aCollectEqIntptr_iff (a b : Ptr) :
    aCollectEqIntptr a b = true ↔ a = b := decide_eq_true_iff

theorem aCollectEqUintptr_iff (a b : Ptr) :
    aCollectEqUintptr a b = true ↔ a = b := decide_eq_true_iff

/-- For which keys the comparators are total orders. -/
theorem aCollectCmp_totalOrder_iff (keys : Set Ptr) :
    (TotalOrder aCollectCmpUintptr aCollectEqUintptr uintptr keys ↔
      Spaced uintptr keys) ∧
    (TotalOrder aCollectCmpIntptr aCollectEqIntptr intptr keys ↔
      Bounded keys ∧ Spaced intptr keys) := by
  constructor
  · rw [totalOrder_iff narrow_uintptr uintptr_inj aCollectEqUintptr_iff
      aCollectCmpUintptr_value]
    exact and_iff_right fun a _ b _ => rfl
  · rw [totalOrder_iff narrow_intptr intptr_inj aCollectEqIntptr_iff
      aCollectCmpIntptr_value, intptr_defined_iff]

/-- The keys `2 ^ 32` and `0` compare as zero. -/
theorem aCollectCmp_totalOrder_fails :
    ¬ TotalOrder aCollectCmpUintptr aCollectEqUintptr uintptr
        {4294967296, 0} ∧
    ¬ TotalOrder aCollectCmpIntptr aCollectEqIntptr intptr
        {4294967296, 0} := by
  constructor
  · rintro ⟨keyCmp, hordered⟩
    have hdefined := hordered.defined 4294967296 (by simp) 0 (by simp)
    have hresult : aCollectCmpUintptr 4294967296 0 = .ok 0 := by decide
    rw [hresult] at hdefined
    have hzero := (Except.ok.inj hdefined).symm
    have hequal := (hordered.eq_iff 4294967296 (by simp) 0 (by simp)).mp hzero
    cases hequal
  · rintro ⟨keyCmp, hordered⟩
    have hdefined := hordered.defined 4294967296 (by simp) 0 (by simp)
    have hresult : aCollectCmpIntptr 4294967296 0 = .ok 0 := by decide
    rw [hresult] at hdefined
    have hzero := (Except.ok.inj hdefined).symm
    have hequal := (hordered.eq_iff 4294967296 (by simp) 0 (by simp)).mp hzero
    cases hequal

end Order

end Collect
end Alib
