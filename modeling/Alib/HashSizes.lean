import Alib.HashCount

/-!
# Table sizes over long runs of puts

Whatever the callbacks answer, a granted put adds one to the counter and
`bits` follows the counter, so the shift in `bits2size` is by 30 at most as
long as there were no more than `2 ^ 30` puts.  The next one doubles a table of
`2 ^ 30` chains and shifts an `int` by 31.
-/

namespace Alib
namespace Hash

open Execution KeyedMap

variable {E : Env} {calls : Callbacks} {config : HashConfig}

/-- The arguments `a_hash_put` and `extend` evaluate `bits2size` at. -/
def shiftedBits (hash : AHash) : List ℕ :=
  hash.bits :: if hash.count = 0 ∨ 2 ^ hash.bits < sizeAdd hash.count 1 then
    [extendedBits hash] else []

/-- No shift leaves the `int`, no conversion changes the size and no byte
count wraps, in the put and in a clean after it. -/
structure SizesFit (config : HashConfig) (_ : HashOp) (after : HashConfig) :
    Prop where
  bits_le : ∀ bits ∈ shiftedBits config.state.hash, bits ≤ 30
  size_eq : ∀ bits ∈ shiftedBits config.state.hash,
    bits2size bits = .ok (2 ^ bits)
  bytes_eq : ∀ bits ∈ shiftedBits config.state.hash,
    sizeMul sizeofPointer (2 ^ bits) = sizeofPointer * 2 ^ bits
  clean_eq : bits2size after.state.hash.bits =
    .ok (2 ^ after.state.hash.bits)

def putsOf (puts : List (Ptr × Ptr)) : List HashOp :=
  puts.map fun put => .put put.1 put.2

theorem shiftedBits_le {st : HashState} {entries : Multiset Entry}
    (h : HashLinked calls st entries) (hcount : st.hash.count < 2 ^ 30) :
    ∀ bits ∈ shiftedBits st.hash, bits ≤ 30 := by
  intro bits hbits
  rcases List.mem_cons.mp hbits with hsame | hmore
  · rw [hsame]
    exact h.bits_le
  · have hadd : sizeAdd st.hash.count 1 = st.hash.count + 1 :=
      sizeAdd_of_lt (by omega)
    rw [hadd] at hmore
    by_cases hmust : st.hash.count = 0 ∨ 2 ^ st.hash.bits < st.hash.count + 1
    · rw [if_pos hmust, List.mem_singleton] at hmore
      have hfull : st.hash.count = 0 ∨
          st.hash.count = 2 ^ st.hash.bits := by
        have hle := h.count_le
        omega
      rw [hmore]
      exact (Extends.extendedBits ⟨hfull, hcount⟩ h).1
    · rw [if_neg hmust] at hmore
      cases hmore

/-- A granted put below the limit counts one and evaluates small sizes. -/
theorem sizesFit_step (hgrant : E.GrantsAll) (hinv : LinkedInv calls config)
    (hcount : config.state.hash.count < 2 ^ 30) (key val : Ptr) :
    ∃ after, config.step (hashStep E) (.put key val) = .ok after ∧
      SizesFit config (.put key val) after ∧ LinkedInv calls after ∧
      after.state.hash.count = config.state.hash.count + 1 := by
  rcases hinv with ⟨entries, h⟩
  obtain ⟨code, state, entries', hput, houtcome⟩ :=
    aHashPut_linked (E := E) h hcount key val
  have hcall : hashStep E config.state (.put key val) =
      .ok (.code code, state) := by
    rw [hashStep, hput]
    rfl
  have hbits := shiftedBits_le h hcount
  cases houtcome with
  | stored a _ _ hlinked _ hcounted _ =>
      refine ⟨_, Config.step_of_ok hcall, ⟨hbits, ?_, ?_, ?_⟩,
        ⟨entries', hlinked⟩, hcounted⟩
      · intro bits hmem
        exact bits2size_eq (hbits bits hmem)
      · intro bits hmem
        exact sizeMul_two_pow (hbits bits hmem)
      · exact bits2size_eq hlinked.bits_le
  | failed _ _ _ hdenied => exact absurd hgrant hdenied

/-- From a counter of `n` there is room for `2 ^ 30 - n` puts. -/
theorem keeps_sizes (hgrant : E.GrantsAll) (hinv : LinkedInv calls config)
    (puts : List (Ptr × Ptr)) :
    Keeps (hashStep E) SizesFit config (putsOf puts) ↔
      config.state.hash.count + puts.length ≤ 2 ^ 30 := by
  induction puts generalizing config with
  | nil =>
      rcases hinv with ⟨entries, h⟩
      have hle : 2 ^ config.state.hash.bits ≤ 2 ^ 30 :=
        Nat.pow_le_pow_right (by decide) h.bits_le
      exact ⟨fun _ => h.count_le.trans hle, fun _ => trivial⟩
  | cons put rest ih =>
      rw [List.length_cons]
      by_cases hcount : config.state.hash.count < 2 ^ 30
      · obtain ⟨after, hstep, hfit, hafter, hcounted⟩ :=
          sizesFit_step hgrant hinv hcount put.1 put.2
        have hrest := ih hafter
        rw [hcounted] at hrest
        constructor
        · intro hkeeps
          rcases hkeeps with ⟨other, hother, _, hkeeps⟩
          have hsame := Config.step_unique hstep hother
          subst hsame
          have hle := hrest.mp hkeeps
          omega
        · intro hle
          refine ⟨after, hstep, hfit, hrest.mpr ?_⟩
          omega
      · constructor
        · intro hkeeps
          rcases hkeeps with ⟨after, hstep, _⟩
          rcases hinv with ⟨entries, h⟩
          obtain ⟨out, hcall, _⟩ := Config.step_eq_ok_iff.mp hstep
          rw [hashStep, put_overflow h (Nat.not_lt.mp hcount)] at hcall
          cases hcall
        · intro hle
          omega

/-- The sizes fit along a run of granted puts exactly if it is no longer than
`2 ^ 30`. -/
theorem aHash_sizes_iff (hgrant : E.GrantsAll) (calls : Callbacks)
    (items : Addr → Option AHashItem) (ledger : Ledger) (world : World)
    (puts : List (Ptr × Ptr)) :
    Keeps (hashStep E) SizesFit
        (Config.initial ⟨aHashInit calls, items, ledger, world⟩)
        (putsOf puts) ↔ puts.length ≤ 2 ^ 30 := by
  rw [keeps_sizes hgrant (linkedInv_init calls items ledger world) puts]
  simp [aHashInit]

theorem aHash_sizes_run :
    Keeps (hashStep (filledEnv 0)) SizesFit emptyConfig
      (putsOf [(1, 10), (1, 11), (2, 20)]) :=
  (aHash_sizes_iff (fun _ _ => rfl) wordCalls (fun _ => none) blankLedger
    blankWorld _).mpr (by decide)

theorem aHash_sizes_fails :
    ¬ ∀ puts, Keeps (hashStep (filledEnv 0)) SizesFit emptyConfig
      (putsOf puts) := by
  intro hclaim
  have hkeeps := hclaim (List.replicate (2 ^ 30 + 1) (1, 10))
  have hlength := (keeps_sizes (fun _ _ => rfl)
    (linkedInv_init wordCalls (fun _ => none) blankLedger blankWorld) _).mp
    hkeeps
  rw [List.length_replicate] at hlength
  exact absurd hlength (Nat.not_le.mpr (Nat.lt_add_left _ (Nat.lt_succ_self _)))

end Hash
end Alib
