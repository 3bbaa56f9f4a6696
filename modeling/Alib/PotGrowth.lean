import Alib.PotOrder

/-!
# Growing the pot's array

Capacities are powers of two.  Doubling stops at the first one that is large
enough unless the size asked for lies above the largest power of two of a
`size_t`; from then on the doubled size is zero and the loop never ends.  The
byte count of a capacity above `2 ^ 60` wraps to eight.
-/

namespace Alib
namespace Pot

/-- The largest capacity whose byte count does not wrap. -/
def maxAlloced : ℕ := 2 ^ 60

section Doubling

variable {w newSize : ℕ}

theorem doubleSize_pow (hnew : newSize ≤ 2 ^ w) :
    ∀ fuel k, k ≤ w → w < fuel + k →
      ∃ m, doubleSize (w + 1) newSize fuel (2 ^ k) = .ok (2 ^ m) ∧
        k ≤ m ∧ m ≤ w ∧ newSize ≤ 2 ^ m ∧
        (m = k ∨ 2 ^ m < 2 * newSize) := by
  intro fuel
  induction fuel with
  | zero => intro k hk hfuel; omega
  | succ fuel ih =>
      intro k hk hfuel
      by_cases hlt : 2 ^ k < newSize
      · have hkw : k ≠ w := by
          intro heq
          subst heq
          omega
        have hwrap : 2 ^ k * 2 % 2 ^ (w + 1) = 2 ^ (k + 1) := by
          rw [← pow_succ]
          exact Nat.mod_eq_of_lt
            (Nat.pow_lt_pow_right (by omega) (by omega))
        obtain ⟨m, hm, hkm, hmw, hnewm, hleast⟩ :=
          ih (k + 1) (by omega) (by omega)
        refine ⟨m, ?_, by omega, hmw, hnewm, Or.inr ?_⟩
        · simpa [doubleSize, hlt, hwrap] using hm
        · rcases hleast with rfl | hleast
          · rw [pow_succ]
            omega
          · exact hleast
      · exact ⟨k, by simp [doubleSize, hlt], le_rfl, hk,
          Nat.le_of_not_lt hlt, Or.inl rfl⟩

theorem doubleSize_zero (hnew : 0 < newSize) (fuel : ℕ) :
    doubleSize w newSize fuel 0 = .error .divergence := by
  induction fuel with
  | zero => rfl
  | succ fuel ih => simpa [doubleSize, hnew] using ih

/-- Past the largest power of two the doubled size wraps to zero and stays
there. -/
theorem doubleSize_diverges (hnew : 2 ^ w < newSize) :
    ∀ fuel k, k ≤ w →
      doubleSize (w + 1) newSize fuel (2 ^ k) = .error .divergence := by
  intro fuel
  induction fuel with
  | zero => intro k hk; rfl
  | succ fuel ih =>
      intro k hk
      have hlt : 2 ^ k < newSize :=
        lt_of_le_of_lt (Nat.pow_le_pow_right (by omega) hk) hnew
      by_cases heq : k = w
      · subst heq
        have hwrap : 2 ^ k * 2 % 2 ^ (k + 1) = 0 := by
          rw [← pow_succ, Nat.mod_self]
        simpa [doubleSize, hlt, hwrap] using
          doubleSize_zero (w := k + 1) (by omega) fuel
      · have hwrap : 2 ^ k * 2 % 2 ^ (w + 1) = 2 ^ (k + 1) := by
          rw [← pow_succ]
          exact Nat.mod_eq_of_lt
            (Nat.pow_lt_pow_right (by omega) (by omega))
        simpa [doubleSize, hlt, hwrap] using ih (k + 1) (by omega)

/-- The byte count requested for a capacity. -/
def arrayBytes (alloced : ℕ) : ℕ :=
  sizeMul sizeofPointer (sizeAdd alloced 1)

theorem arrayBytes_of_le {alloced : ℕ} (h : alloced ≤ maxAlloced) :
    arrayBytes alloced = 8 * (alloced + 1) := by
  unfold arrayBytes maxAlloced at *
  rw [sizeAdd_of_lt (by omega), sizeofPointer,
    sizeMul_of_lt (by omega)]

theorem arrayBytes_of_gt {m : ℕ} (hm : m ≤ 63) (h : maxAlloced < 2 ^ m) :
    arrayBytes (2 ^ m) = 8 := by
  have hmin : 60 < m := by
    by_contra hle
    have hpow : 2 ^ m ≤ 2 ^ 60 :=
      Nat.pow_le_pow_right (by omega) (Nat.le_of_not_lt hle)
    exact absurd h (Nat.not_lt.mpr hpow)
  have hcases : m = 61 ∨ m = 62 ∨ m = 63 := by omega
  rcases hcases with rfl | rfl | rfl <;> rfl

/-- The least power of two reached for a size whose byte count does not
wrap. -/
theorem pow_le_maxAlloced {k m : ℕ} (hk : 2 ^ k ≤ maxAlloced)
    (hnew : newSize ≤ maxAlloced) (hleast : m = k ∨ 2 ^ m < 2 * newSize) :
    2 ^ m ≤ maxAlloced := by
  rcases hleast with heq | hleast
  · exact heq ▸ hk
  · have hpow : 2 ^ m < 2 ^ 61 := by
      unfold maxAlloced at hnew
      omega
    have hexp : m < 61 :=
      (Nat.pow_lt_pow_iff_right (by omega)).mp hpow
    exact Nat.pow_le_pow_right (by omega) (by omega)

theorem arrayBytes_ne_zero {m : ℕ} (hm : m ≤ 63) :
    arrayBytes (2 ^ m) ≠ 0 := by
  by_cases h : 2 ^ m ≤ maxAlloced
  · rw [arrayBytes_of_le h]
    exact Nat.mul_ne_zero (by omega) (Nat.succ_ne_zero _)
  · rw [arrayBytes_of_gt hm (Nat.lt_of_not_le h)]
    omega

end Doubling

section Resize

variable {E : Env} (hgrant : E.GrantsAll)

include hgrant

/-- Growing a pot whose capacity is a power of two, or one without an array,
in a run where every request is granted. -/
theorem aPotResize_grow {st : PotState} {newSize k : ℕ} (hk : k ≤ 63)
    (halloced : st.pot.alloced = 2 ^ k ∨ (st.pot.alloced = 0 ∧ k = 0))
    (hle : st.pot.alloced ≤ newSize) (hnum : st.pot.num ≤ newSize)
    (hnew : newSize ≤ 2 ^ 63) :
    ∃ m, k ≤ m ∧ m ≤ 63 ∧ newSize ≤ 2 ^ m ∧
      (m = k ∨ 2 ^ m < 2 * newSize) ∧
      aPotResize E newSize st =
        .ok (true,
          ⟨{ st.pot with
              alloced := 2 ^ m
              array := some ⟨st.world.requests, arrayBytes (2 ^ m),
                reallocWord st.pot.array (E.garbage st.world.requests)⟩ },
            { st.world with requests := st.world.requests + 1 }⟩) := by
  obtain ⟨m, hm, hkm, hm63, hnewm, hleast⟩ :=
    doubleSize_pow (w := 63) hnew (doubleFuel 64) k hk
      (by simp only [doubleFuel]; omega)
  refine ⟨m, hkm, hm63, hnewm, hleast, ?_⟩
  have hstart : (if st.pot.alloced ≠ 0 then st.pot.alloced else 1) =
      2 ^ k := by
    rcases halloced with h | ⟨h, hzero⟩
    · rw [if_pos (by rw [h]; exact (Nat.two_pow_pos k).ne'), h]
    · rw [if_neg (by simp [h]), hzero, pow_zero]
  have hmax : (if newSize < st.pot.num then st.pot.num else newSize) =
      newSize := if_neg (Nat.not_lt.mpr hnum)
  have hrealloc := aReallocFree_of_grants (w := st.world) st.pot.array
    (arrayBytes_ne_zero hm63) (hgrant _ _)
  unfold aPotResize
  rw [if_neg (Nat.not_lt.mpr hle), hstart, hmax]
  simp only [hm, ok_bind, pure_eq_ok]
  rw [show sizeMul sizeofPointer (sizeAdd (2 ^ m) 1) = arrayBytes (2 ^ m)
    from rfl, hrealloc]
  rfl

end Resize

end Pot
end Alib
