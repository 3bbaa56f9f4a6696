import Alib.PotSlotZero

/-!
# Sorting with the pot

A list is put into a fresh pot and then taken out again.  The values come out
in order whatever lay in slot zero, but slot zero keeps one value: a least of
the values put in and of what it held.  The others come out, so the list
comes back whole exactly if none of it comes before what slot zero held.
-/

namespace Alib
namespace Pot

open SiftHeap
open Execution

/-- The calls that put a list in and take as many values out. -/
def sortCalls (values : List Ptr) : List PotOp :=
  values.map PotOp.insert ++ List.replicate values.length .removeTop

/-- No later value comes before an earlier one. -/
def InOrder (before : Before) (values : List Ptr) : Prop :=
  values.Pairwise fun earlier later => before later earlier = false

section Runs

variable {before : Before} [IsStrictWeakOrder Ptr (Comes before)]
  {E : Env}

omit [IsStrictWeakOrder Ptr (Comes before)] in
theorem fresh_holds (hgrant : E.GrantsAll) {st fresh : PotState} {size : ℕ}
    {out : PotOut} {block : Block} (hsize : size ≤ maxAlloced)
    (hinit : potStep E before st (.init size) = .ok (out, fresh))
    (harray : fresh.pot.array = some block) :
    ∃ m, PotHolds before fresh.pot m block 0 ∧ fresh.pot.num = 0 ∧
      2 ^ m ≤ maxAlloced := by
  obtain ⟨st', m, block', hspec, hholds, hzero, hsmall⟩ :=
    aPotInit_spec hgrant before
      (hsize.trans (by unfold maxAlloced; omega)) st
  simp only [potStep, hspec, ok_bind, pure_eq_ok, Except.ok.injEq,
    Prod.mk.injEq] at hinit
  rcases hinit with ⟨_, heq⟩
  subst heq
  obtain rfl : block' = block := Option.some.inj (hholds.array_eq ▸ harray)
  exact ⟨m, hholds, hzero, hsmall hsize⟩

theorem insertAll_run (hgrant : E.GrantsAll) (ptrs : List Ptr)
    (config : PotConfig) {k : ℕ} {block : Block} {values : Multiset Ptr}
    (h : PotHolds before config.state.pot k block values)
    (hsmall : 2 ^ k ≤ maxAlloced)
    (hroom : config.state.pot.num + ptrs.length ≤ maxAlloced) :
    ∃ after m block',
      run (potStep E before) config (ptrs.map PotOp.insert) = .ok after ∧
      after.transcript = config.transcript ++
        ptrs.map (fun ptr => (.insert ptr, .pot true)) ∧
      PotHolds before after.state.pot m block'
        (contents block'.word 1 after.state.pot.num) ∧
      after.state.pot.num = config.state.pot.num + ptrs.length ∧
      contents block'.word 0 after.state.pot.num =
        ↑ptrs + contents block.word 0 config.state.pot.num ∧
      ((∀ ptr ∈ ptrs, ¬ Comes before ptr (block.word 0)) →
        block'.word 0 = block.word 0) := by
  induction ptrs generalizing config k block values with
  | nil =>
      refine ⟨config, k, block, rfl, (List.append_nil _).symm, ?_, rfl, ?_,
        fun _ => rfl⟩
      · rw [h.held]
        exact h
      · simp
  | cons ptr rest ih =>
      simp only [List.length_cons] at hroom
      obtain ⟨st', m, block', hinsert, hholds, hnum, hall, hslot⟩ :=
        h.insert hgrant hsmall (by omega) ptr
      have hstep : config.step (potStep E before) (.insert ptr) =
          .ok ⟨st', config.transcript ++ [(.insert ptr, .pot true)]⟩ :=
        Config.step_of_ok (by simp [potStep, hinsert])
      have hmSmall : 2 ^ m ≤ maxAlloced := by
        by_contra hgt
        have hzero := hholds.empty (Nat.lt_of_not_le hgt)
        omega
      have hroomAfter : st'.pot.num + rest.length ≤ maxAlloced := by
        rw [hnum]
        omega
      obtain ⟨after, n, last, hrun, htranscript, hlast, hnumLast, hallLast,
        hslotLast⟩ := ih ⟨st', _⟩ hholds hmSmall hroomAfter
      refine ⟨after, n, last, run_cons_eq_ok_iff.mpr ⟨_, hstep, hrun⟩, ?_,
        hlast, ?_, ?_, ?_⟩
      · rw [htranscript, List.append_assoc]
        rfl
      · rw [hnumLast]
        simp only [List.length_cons, hnum]
        omega
      · rw [hallLast]
        simp only
        rw [hnum, hall, ← Multiset.cons_coe, Multiset.cons_add,
          Multiset.add_cons]
      · intro hnone
        have hsame : block'.word 0 = block.word 0 :=
          hslot (hnone ptr List.mem_cons_self)
        have hrest : last.word 0 = block'.word 0 := by
          refine hslotLast fun other hother => ?_
          rw [hsame]
          exact hnone other (List.mem_cons_of_mem ptr hother)
        exact hrest.trans hsame

/-- What is taken out first is not preceded by anything still held, and what
comes out later was held then. -/
theorem removeAll_run (E : Env) (num : ℕ) (config : PotConfig) {k : ℕ}
    {block : Block} {values : Multiset Ptr}
    (h : PotHolds before config.state.pot k block values)
    (hnum : config.state.pot.num = num) :
    ∃ after, ∃ returned : List Ptr,
      run (potStep E before) config (List.replicate num .removeTop) =
        .ok after ∧
      after.transcript = config.transcript ++
        returned.map (fun ptr => (.removeTop, .value ptr)) ∧
      (returned : Multiset Ptr) = values ∧ InOrder before returned := by
  induction num generalizing config block values with
  | zero =>
      have hnone : values = 0 := by
        rw [← h.held, hnum]
        simp [contents]
      exact ⟨config, [], rfl, (List.append_nil _).symm, hnone.symm,
        List.Pairwise.nil⟩
  | succ num ih =>
      obtain ⟨st', block', hremove, hholds, hnumAfter, _, hfirst⟩ :=
        h.removeTop (by omega)
      have hstep : config.step (potStep E before) .removeTop =
          .ok ⟨st', config.transcript ++
            [(.removeTop, .value (block.word 1))]⟩ :=
        Config.step_of_ok (by simp [potStep, hremove])
      have htop : block.word 1 ∈ values := by
        rw [← h.held]
        exact mem_contents.mpr ⟨1, le_rfl, by omega, rfl⟩
      obtain ⟨after, returned, hrun, htranscript, hreturned, horder⟩ :=
        ih ⟨st', _⟩ hholds (by simp only; omega)
      refine ⟨after, block.word 1 :: returned,
        run_cons_eq_ok_iff.mpr ⟨_, hstep, hrun⟩, ?_, ?_,
        List.Pairwise.cons ?_ horder⟩
      · rw [htranscript, List.append_assoc]
        rfl
      · rw [← Multiset.cons_coe, hreturned, Multiset.cons_erase htop]
      · intro later hlater
        have hheld : later ∈ values.erase (block.word 1) := by
          rw [← hreturned]
          exact hlater
        exact hfirst later (Multiset.mem_of_mem_erase hheld)

/-- The root of the whole heap is a least of the values in it. -/
theorem root_least {pot : APot} {k : ℕ} {block : Block}
    {values all : Multiset Ptr} (h : PotHolds before pot k block values)
    (hall : contents block.word 0 pot.num = all) :
    ∀ v ∈ all, before v (block.word 0) = false := by
  intro v hv
  rw [← hall] at hv
  obtain ⟨i, _, hi, hvalue⟩ := mem_contents.mp hv
  have hroot := h.ordered.root i hi
  rw [hvalue] at hroot
  simpa [Comes] using hroot

/-- Sorting a list with a fresh pot completes and gives its values in order,
with what slot zero held in place of a least one; they are the values of the
list if and only if none of these comes before what slot zero held. -/
theorem aPot_sorts (hgrant : E.GrantsAll) {st fresh : PotState} {size : ℕ}
    {out : PotOut} {block : Block} (hsize : size ≤ maxAlloced)
    (hinit : potStep E before st (.init size) = .ok (out, fresh))
    (harray : fresh.pot.array = some block) {values : List Ptr}
    (hroom : values.length ≤ maxAlloced) :
    ∃ after returned least,
      run (potStep E before) (Config.initial fresh) (sortCalls values) =
        .ok after ∧
      after.transcript =
        values.map (fun ptr => (.insert ptr, .pot true)) ++
          returned.map (fun ptr => (.removeTop, .value ptr)) ∧
      InOrder before returned ∧
      (least :: returned).Perm (block.word 0 :: values) ∧
      (∀ v ∈ block.word 0 :: values, before v least = false) ∧
      (returned.Perm values ↔
        ∀ v ∈ values, before v (block.word 0) = false) := by
  obtain ⟨m, hholds, hzero, hsmall⟩ := fresh_holds hgrant hsize hinit harray
  obtain ⟨filled, n, last, hinserts, htranscript, hlast, hnum, hall, hslot⟩ :=
    insertAll_run hgrant values (Config.initial fresh) hholds hsmall
      (by simpa [hzero] using hroom)
  have hput : contents last.word 0 filled.state.pot.num =
      ↑(block.word 0 :: values) := by
    have hempty : contents block.word 0 0 = {block.word 0} := by
      simp [contents]
    rw [hall, Config.initial_state, hzero, hempty, add_comm,
      Multiset.singleton_add, Multiset.cons_coe]
  obtain ⟨after, returned, hremoves, htranscriptAfter, hreturned, horder⟩ :=
    removeAll_run E values.length filled hlast (by simp [hnum, hzero])
  have hbalance : last.word 0 ::ₘ (returned : Multiset Ptr) =
      block.word 0 ::ₘ (values : Multiset Ptr) := by
    rw [hreturned, ← contents_first last.word (Nat.zero_le _), hput,
      Multiset.cons_coe]
  have hleast : ∀ v ∈ block.word 0 :: values,
      before v (last.word 0) = false := root_least hlast hput
  refine ⟨after, returned, last.word 0,
    run_append_eq_ok_iff.mpr ⟨filled, hinserts, hremoves⟩, ?_, horder,
    Multiset.coe_eq_coe.mp hbalance, hleast, ?_⟩
  · rw [htranscriptAfter, htranscript]
    rfl
  constructor
  · intro hperm v hv
    rw [Multiset.coe_eq_coe.mpr hperm, Multiset.cons_inj_left] at hbalance
    rw [← hbalance]
    exact hleast v (List.mem_cons_of_mem _ hv)
  · intro hnone
    rw [hslot fun v hv => by simp [Comes, hnone v hv],
      Multiset.cons_inj_right] at hbalance
    exact Multiset.coe_eq_coe.mp hbalance

end Runs

theorem aPot_sorts_pair :
    ∃ fresh, potStep (filledEnv 5) aPotLtIntptr blankState (.init 0) =
        .ok (.pot true, fresh) ∧
      ∃ after returned least,
        run (potStep (filledEnv 5) aPotLtIntptr) (Config.initial fresh)
            (sortCalls [7, 3]) = .ok after ∧
        after.transcript =
          [7, 3].map (fun ptr => (.insert ptr, .pot true)) ++
            returned.map (fun ptr => (.removeTop, .value ptr)) ∧
        InOrder aPotLtIntptr returned ∧
        (least :: returned).Perm [5, 7, 3] ∧
        (∀ v ∈ [(5 : Ptr), 7, 3], aPotLtIntptr v least = false) ∧
        (returned.Perm [7, 3] ↔
          ∀ v ∈ [(7 : Ptr), 3], aPotLtIntptr v 5 = false) := by
  have hgrant : (filledEnv 5).GrantsAll := fun _ _ => rfl
  refine ⟨_, rfl, aPot_sorts hgrant (Nat.zero_le _) rfl rfl ?_⟩
  exact (Nat.lt_two_pow_self (n := 2)).le.trans
    (Nat.pow_le_pow_right two_pos (by omega))

end Pot
end Alib
