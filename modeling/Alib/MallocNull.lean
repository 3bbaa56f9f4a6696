import Alib.Allocation

/-!
# The two allocators of NULL arrays

`a_mallocNULL`, which returns `NULL` when its request is refused, and
`a_xmallocNULL`, which ends the process.  The first takes the remainder and the
quotient by the size of a pointer; the second masks and shifts by it, so it
works with its power of two instead.  Pointers and `size_t` have `p` bytes.
-/

namespace Alib

/-- A call that may end the process, with `exit(status)`, instead of
returning. -/
inductive Outcome (α : Type) where
  | returned (ret : α)
  | exited (status : ℕ)

/-- The pointer of `p` bytes found in a word: all bits zero is `NULL`. -/
def pointerAt (p : ℕ) (word : Ptr) : Option Addr :=
  if word.toNat % 2 ^ (8 * p) = 0 then none
  else some (word.toNat % 2 ^ (8 * p))

def foundSlots (p : ℕ) (E : Env) (request count : ℕ) : List (Option Addr) :=
  (List.range count).map fun c => pointerAt p (E.garbage request c)

/-- `a_mallocNULL` where pointers have `p` bytes. -/
def aMallocNULLAt (p : ℕ) (E : Env) (size : BitVec (8 * p)) (w : World) :
    Except Fault (Option PointerArray × World) :=
  if size.toNat % p ≠ 0 then do
    let w ← aErrorCode E .alib aErrorInvalidOp w
    return (none, w)
  else do
    let (ret, w') ← aMalloc E size.toNat w
    match ret with
    | none => return (none, w')
    | some addr =>
        let count := size.toNat / p
        return (some ⟨addr, nullSlots (foundSlots p E w.requests count) count⟩,
          w')

/-- A refused request ends in `a_die(perror, ...)`. -/
def aXmalloc (E : Env) (size : ℕ) (w : World) : Outcome (Addr × World) :=
  match malloc E size w with
  | (some out, w) => .returned (out, w)
  | (none, _) => .exited 1

/-- `~((~(size_t)0) << sizeof(void*))` -/
def lowMask (p : ℕ) : BitVec (8 * p) :=
  ~~~((~~~(0 : BitVec (8 * p))) <<< p)

def aXmallocNULL (p : ℕ) (E : Env) (size : BitVec (8 * p)) (w : World) :
    Except Fault (Outcome (Option PointerArray × World)) :=
  if size &&& lowMask p ≠ 0 then do
    let w ← aErrorCode E .alib aErrorInvalidOp w
    return .returned (none, w)
  else
    match aXmalloc E size.toNat w with
    | .exited status => .ok (.exited status)
    | .returned (addr, w') =>
        let found := foundSlots p E w.requests (size.toNat / p)
        .ok (.returned (some ⟨addr, nullSlots found (size >>> p).toNat⟩, w'))

/-- Both allocators succeed exactly for the multiples of the pointer size, and
then every slot of the block is `NULL`. -/
structure MallocNULLAgree (p : ℕ) (E : Env) (size : BitVec (8 * p))
    (w : World) : Prop where
  succeeds : (∃ ret after, aMallocNULLAt p E size w = .ok (some ret, after)) ↔
    p ∣ size.toNat
  xsucceeds : (∃ ret after,
    aXmallocNULL p E size w = .ok (.returned (some ret, after))) ↔
    p ∣ size.toNat
  slots : ∀ ret after, aMallocNULLAt p E size w = .ok (some ret, after) →
    ret.slots = List.replicate (size.toNat / p) none
  xslots : ∀ ret after,
    aXmallocNULL p E size w = .ok (.returned (some ret, after)) →
    ret.slots = List.replicate (size.toNat / p) none

section Slots

variable {p : ℕ} {E : Env}

@[simp] theorem foundSlots_length (request count : ℕ) :
    (foundSlots p E request count).length = count := by
  simp [foundSlots]

theorem foundSlots_getElem? {request count c : ℕ} (hc : c < count) :
    (foundSlots p E request count)[c]? =
      some (pointerAt p (E.garbage request c)) := by
  simp [foundSlots, hc]

theorem nullSlots_of_length {slots : List (Option Addr)} {count : ℕ}
    (h : slots.length = count) :
    nullSlots slots count = List.replicate count none := by
  subst h
  exact nullSlots_eq_replicate slots

/-- Clearing the first slots leaves only `NULL` when the others were `NULL`
before. -/
theorem nullSlots_eq_replicate_iff {request count done : ℕ} :
    nullSlots (foundSlots p E request count) done =
        List.replicate count none ↔
      ∀ c, done ≤ c → c < count → pointerAt p (E.garbage request c) = none := by
  constructor
  · intro hslots c hdone hc
    have hslot := congrArg (·[c]?) hslots
    simp only [foldl_set_none_getElem?, if_neg (Nat.not_lt.mpr hdone),
      foundSlots_getElem? hc, List.getElem?_replicate, if_pos hc] at hslot
    exact Option.some.inj hslot
  · intro hnull
    apply List.ext_getElem?
    intro c
    rw [foldl_set_none_getElem?, List.getElem?_replicate]
    by_cases hc : c < count
    · rw [foundSlots_getElem? hc, if_pos hc]
      by_cases hdone : c < done
      · rw [if_pos hdone]
        simp
      · rw [if_neg hdone, hnull c (Nat.le_of_not_lt hdone) hc]
    · have hnone : (foundSlots p E request count)[c]? = none :=
        List.getElem?_eq_none (by simpa using hc)
      rw [hnone, if_neg hc]
      simp

end Slots

section Agree

variable {p : ℕ} {E : Env} {size : BitVec (8 * p)} {w : World}

theorem and_lowMask_eq_zero_iff (hp : p = 4 ∨ p = 8) :
    size &&& lowMask p = 0 ↔ 2 ^ p ∣ size.toNat := by
  have hmask : (lowMask p).toNat = 2 ^ p - 1 := by
    rcases hp with rfl | rfl <;> decide
  rw [← BitVec.toNat_inj, BitVec.toNat_and, hmask,
    Nat.and_two_pow_sub_one_eq_mod, Nat.dvd_iff_mod_eq_zero]
  simp

theorem dvd_of_two_pow_dvd (hp : p = 4 ∨ p = 8) {n : ℕ} (h : 2 ^ p ∣ n) :
    p ∣ n := by
  rcases hp with rfl | rfl
  · exact Dvd.dvd.trans (by decide) h
  · exact Dvd.dvd.trans (by decide) h

theorem aMallocNULLAt_eq (hsize : size ≠ 0)
    (hgrant : E.grants w.requests size.toNat = true)
    (hdvd : p ∣ size.toNat) :
    aMallocNULLAt p E size w =
      .ok (some ⟨w.requests, List.replicate (size.toNat / p) none⟩,
        { w with requests := w.requests + 1 }) := by
  have hpos : size.toNat ≠ 0 := by
    intro hzero
    exact hsize (BitVec.eq_of_toNat_eq (by simpa using hzero))
  have hmod : size.toNat % p = 0 := Nat.mod_eq_zero_of_dvd hdvd
  have hslots : nullSlots (foundSlots p E w.requests (size.toNat / p))
      (size.toNat / p) = List.replicate (size.toNat / p) none :=
    nullSlots_of_length (foundSlots_length _ _)
  simp [aMallocNULLAt, hmod, aMalloc, hpos, malloc_of_grants hgrant, hslots]

theorem aMallocNULLAt_refuses (hdvd : ¬ p ∣ size.toNat) :
    ∃ after, aMallocNULLAt p E size w = .ok (none, after) := by
  have hmod : size.toNat % p ≠ 0 := fun hzero =>
    hdvd (Nat.dvd_of_mod_eq_zero hzero)
  obtain ⟨after, hafter, _⟩ :=
    aErrorStackMacroHelper_ok E .alib false aErrorInvalidOp w (by simp)
  exact ⟨after, by simp [aMallocNULLAt, hmod, aErrorCode, hafter]⟩

theorem aXmallocNULL_eq (hp : p = 4 ∨ p = 8)
    (hgrant : E.grants w.requests size.toNat = true)
    (hdvd : 2 ^ p ∣ size.toNat) :
    aXmallocNULL p E size w =
      .ok (.returned (some ⟨w.requests,
        nullSlots (foundSlots p E w.requests (size.toNat / p))
          (size.toNat / 2 ^ p)⟩, { w with requests := w.requests + 1 })) := by
  have hmask := (and_lowMask_eq_zero_iff hp).mpr hdvd
  unfold aXmallocNULL
  rw [if_neg (not_not.mpr hmask)]
  simp [aXmalloc, malloc_of_grants hgrant, Nat.shiftRight_eq_div_pow]

theorem aXmallocNULL_refuses (hp : p = 4 ∨ p = 8)
    (hdvd : ¬ 2 ^ p ∣ size.toNat) :
    ∃ after, aXmallocNULL p E size w = .ok (.returned (none, after)) := by
  have hmask : size &&& lowMask p ≠ 0 := fun hzero =>
    hdvd ((and_lowMask_eq_zero_iff hp).mp hzero)
  obtain ⟨after, hafter, _⟩ :=
    aErrorStackMacroHelper_ok E .alib false aErrorInvalidOp w (by simp)
  refine ⟨after, ?_⟩
  unfold aXmallocNULL
  rw [if_pos hmask]
  simp [aErrorCode, hafter]

theorem aMallocNULLAt_8 (size : BitVec 64) :
    aMallocNULLAt 8 E size w = aMallocNULL E size.toNat w := by
  by_cases hmod : size.toNat % 8 = 0
  · unfold aMallocNULLAt aMallocNULL
    rw [if_neg (not_not.mpr hmod), sizeofPointer, if_neg (not_not.mpr hmod)]
    cases hmalloc : aMalloc E size.toNat w with
    | error fault => rfl
    | ok result =>
        rcases result with ⟨ret, after⟩
        cases ret with
        | none => rfl
        | some addr => simp [nullSlots_of_length]
  · unfold aMallocNULLAt aMallocNULL
    rw [if_pos hmod, sizeofPointer, if_pos hmod]

/-- Both allocators refuse a size that is no multiple of the pointer size, so
that nothing is left to disagree about. -/
theorem mallocNULLAgree_of_not_dvd (hp : p = 4 ∨ p = 8)
    (hdvd : ¬ p ∣ size.toNat) : MallocNULLAgree p E size w := by
  have hpow : ¬ 2 ^ p ∣ size.toNat := fun h => hdvd (dvd_of_two_pow_dvd hp h)
  obtain ⟨after, hrefused⟩ := aMallocNULLAt_refuses (w := w) (E := E) hdvd
  obtain ⟨xafter, hxrefused⟩ :=
    aXmallocNULL_refuses (w := w) (E := E) hp hpow
  have hnone : ∀ ret after',
      aMallocNULLAt p E size w ≠ .ok (some ret, after') := by
    intro ret after' hret
    rw [hrefused] at hret
    cases hret
  have hxnone : ∀ ret after',
      aXmallocNULL p E size w ≠ .ok (.returned (some ret, after')) := by
    intro ret after' hret
    rw [hxrefused] at hret
    cases hret
  constructor
  · refine ⟨fun hret => ?_, fun h => absurd h hdvd⟩
    rcases hret with ⟨ret, after', hret⟩
    exact absurd hret (hnone ret after')
  · refine ⟨fun hret => ?_, fun h => absurd h hdvd⟩
    rcases hret with ⟨ret, after', hret⟩
    exact absurd hret (hxnone ret after')
  · intro ret after' hret
    exact absurd hret (hnone ret after')
  · intro ret after' hret
    exact absurd hret (hxnone ret after')

/-- The allocators agree on a granted request exactly when both refuse it, or
when the size is a multiple of the power of two and every slot past the shifted
count held `NULL` already. -/
theorem mallocNULL_agree_iff (hp : p = 4 ∨ p = 8) (hsize : size ≠ 0)
    (hgrant : E.grants w.requests size.toNat = true) :
    MallocNULLAgree p E size w ↔
      ¬ p ∣ size.toNat ∨
        (2 ^ p ∣ size.toNat ∧
          ∀ c, size.toNat / 2 ^ p ≤ c → c < size.toNat / p →
            pointerAt p (E.garbage w.requests c) = none) := by
  by_cases hdvd : p ∣ size.toNat
  · have hmalloc := aMallocNULLAt_eq hsize hgrant hdvd
    by_cases hpow : 2 ^ p ∣ size.toNat
    · have hxmalloc := aXmallocNULL_eq hp hgrant hpow
      constructor
      · intro hagree
        refine Or.inr ⟨hpow, ?_⟩
        exact nullSlots_eq_replicate_iff.mp (hagree.xslots _ _ hxmalloc)
      · intro hcond
        have hslots := (hcond.resolve_left (not_not.mpr hdvd)).2
        refine ⟨⟨fun _ => hdvd, fun _ => ⟨_, _, hmalloc⟩⟩,
          ⟨fun _ => hdvd, fun _ => ⟨_, _, hxmalloc⟩⟩, ?_, ?_⟩
        · intro ret after hret
          rw [hmalloc] at hret
          cases hret
          rfl
        · intro ret after hret
          rw [hxmalloc] at hret
          cases hret
          exact nullSlots_eq_replicate_iff.mpr hslots
    · obtain ⟨after, hrefused⟩ := aXmallocNULL_refuses (w := w) (E := E) hp hpow
      constructor
      · intro hagree
        obtain ⟨ret, after', hret⟩ := hagree.xsucceeds.mpr hdvd
        rw [hrefused] at hret
        cases hret
      · intro hcond
        exact absurd (hcond.resolve_left (not_not.mpr hdvd)).1 hpow
  · exact ⟨fun _ => Or.inl hdvd, fun _ => mallocNULLAgree_of_not_dvd hp hdvd⟩

end Agree

/-- Four 32-bit slots, of which the second allocator clears one, in memory that
held zeros. -/
theorem mallocNULL_agree_zeros :
    MallocNULLAgree 4 (filledEnv 0) 16 ⟨0, 0, .null, [], false⟩ :=
  (mallocNULL_agree_iff (Or.inl rfl) (by decide) rfl).mpr
    (Or.inr ⟨by decide, fun _ _ _ => rfl⟩)

/-- A block of one 64-bit pointer is refused by the second allocator. -/
theorem mallocNULL_disagree_8 :
    ¬ MallocNULLAgree 8 (filledEnv 0) 8 ⟨0, 0, .null, [], false⟩ := by
  intro hagree
  obtain ⟨ret, after, hret⟩ := hagree.xsucceeds.mpr (by decide)
  obtain ⟨refused, hrefused⟩ : ∃ after,
      aXmallocNULL 8 (filledEnv 0) 8 ⟨0, 0, .null, [], false⟩ =
        .ok (.returned (none, after)) :=
    aXmallocNULL_refuses (Or.inr rfl) (by decide)
  rw [hrefused] at hret
  cases hret

end Alib
