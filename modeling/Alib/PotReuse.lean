import Alib.PotTrace
import Alib.PotPriorityQueue

/-!
# The pot under refused requests and reuse

A refused growth releases the array and forgets the capacity but keeps the
number of values, and so does a cleanup.  A pot that holds no value at these
moments keeps its representation.  An insertion into a pot that was cleaned up
before compares the new value with slot zero of the new array, which no
insertion has written.
-/

namespace Alib
namespace Pot

open SiftHeap
open Execution

abbrev ReuseConfig := Config PotState PotOp (PotOut × List Access)

/-- Every slot read has been written before. -/
def ReadsWritten : Set ℕ → List Access → Prop
  | _, [] => True
  | written, .read slot :: rest => slot ∈ written ∧ ReadsWritten written rest
  | written, .write slot :: rest => ReadsWritten (insert slot written) rest

def writtenBy : Set ℕ → List Access → Set ℕ
  | written, [] => written
  | written, .read _ :: rest => writtenBy written rest
  | written, .write slot :: rest => writtenBy (insert slot written) rest

/-- A refused growth, an initialisation and a cleanup leave no array. -/
def writtenStep (written : Set ℕ) :
    PotOp × (PotOut × List Access) → Set ℕ
  | (.insert _, (.pot true, trace)) => writtenBy written trace
  | (.insert _, _) => ∅
  | (.resize _, (.pot true, _)) => written
  | (.resize _, _) => ∅
  | (.removeTop, _) => written
  | _ => ∅

/-- The slots of the present array that insertions have written. -/
def writtenSlots (transcript : List (PotOp × (PotOut × List Access))) :
    Set ℕ :=
  transcript.foldl writtenStep ∅

@[simp] theorem writtenSlots_append
    (transcript : List (PotOp × (PotOut × List Access)))
    (entry : PotOp × (PotOut × List Access)) :
    writtenSlots (transcript ++ [entry]) =
      writtenStep (writtenSlots transcript) entry := by
  simp [writtenSlots]

/-- The capacity a resize asks for. -/
def capacity (alloced newSize : ℕ) : ℕ :=
  max alloced (2 ^ Nat.clog 2 newSize)

/-- Room for the size is there or granted on request. -/
def RoomGranted (E : Env) (newSize : ℕ) (st : PotState) : Prop :=
  newSize < st.pot.alloced ∨
    E.grants st.world.requests
      (arrayBytes (capacity st.pot.alloced newSize)) = true

/-- The pot has been cleaned up before. -/
def Cleaned (config : ReuseConfig) : Prop :=
  PotOp.cleanup ∈ config.history

structure ReuseStep (config : ReuseConfig) (op : PotOp)
    (after : ReuseConfig) : Prop where
  bounded : after.state.pot.num ≤ after.state.pot.alloced
  present : 0 < after.state.pot.num → after.state.pot.array ≠ none
  failed : ∀ trace,
    after.transcript = config.transcript ++ [(op, (.pot false, trace))] →
      (after.state.pot.num = config.state.pot.num ∧
        heldValues after.state.pot = heldValues config.state.pot) ∨
      after.state.pot.num = 0
  emptied : op = .cleanup → after.state.pot.num = 0
  initialised : Cleaned config → ∀ out trace,
    after.transcript = config.transcript ++ [(op, (out, trace))] →
      ReadsWritten (writtenSlots config.transcript) trace

/-- A pot is empty whenever it loses its array, and nothing is inserted once
it has been cleaned up. -/
def Reusable (E : Env) (config : ReuseConfig) : PotOp → Prop
  | .resize newSize =>
      RoomGranted E newSize config.state ∨ config.state.pot.num = 0
  | .insert _ =>
      (RoomGranted E (config.state.pot.num + 1) config.state ∧
        ¬ Cleaned config) ∨
      (¬ RoomGranted E (config.state.pot.num + 1) config.state ∧
        config.state.pot.num = 0)
  | .cleanup => config.state.pot.num = 0
  | _ => True

/-- No size wraps on the way to the byte count of the array. -/
def NoWrap (config : ReuseConfig) : PotOp → Prop
  | .init size => size ≤ maxAlloced
  | .resize newSize => newSize ≤ maxAlloced
  | .insert _ => config.state.pot.num < maxAlloced
  | _ => True

/-- An array behind a capacity that holds the values. -/
structure PotRoom (pot : APot) (k : ℕ) (block : Block) : Prop where
  array_eq : pot.array = some block
  alloced_eq : pot.alloced = 2 ^ k
  small : 2 ^ k ≤ maxAlloced
  bytes_eq : block.bytes = arrayBytes (2 ^ k)
  num_le : pot.num ≤ 2 ^ k

/-- No array and no values, or an array with room for them. -/
def PotShape (pot : APot) : Prop :=
  (pot.array = none ∧ pot.alloced = 0 ∧ pot.num = 0) ∨
    ∃ k block, PotRoom pot k block

structure ReuseInv (config : ReuseConfig) : Prop where
  shape : PotShape config.state.pot
  cleaned : Cleaned config →
    config.state.pot.num = 0 ∧ writtenSlots config.transcript = ∅

section Resize

variable {E : Env} {st : PotState} {newSize : ℕ}

theorem PotShape.num_le {pot : APot} (h : PotShape pot) :
    pot.num ≤ pot.alloced := by
  rcases h with ⟨_, halloced, hnum⟩ | ⟨k, block, h⟩
  · omega
  · rw [h.alloced_eq]
    exact h.num_le

theorem PotShape.array_ne_none {pot : APot} (h : PotShape pot)
    (hpos : 0 < pot.num) : pot.array ≠ none := by
  rcases h with ⟨_, _, hnum⟩ | ⟨k, block, h⟩
  · omega
  · rw [h.array_eq]
    exact Option.some_ne_none block

theorem PotShape.start_eq {pot : APot} (h : PotShape pot) :
    ∃ k, (if pot.alloced ≠ 0 then pot.alloced else 1) = 2 ^ k ∧
      2 ^ k ≤ maxAlloced ∧ max pot.alloced 1 = 2 ^ k := by
  rcases h with ⟨_, halloced, _⟩ | ⟨k, block, h⟩
  · exact ⟨0, by simp [halloced], Nat.one_le_two_pow, by simp [halloced]⟩
  · have hpos : 0 < 2 ^ k := Nat.two_pow_pos k
    refine ⟨k, ?_, h.small, ?_⟩
    · rw [h.alloced_eq, if_pos hpos.ne']
    · rw [h.alloced_eq]
      exact max_eq_left hpos

theorem PotShape.doubleSize_eq (h : PotShape st.pot)
    (hnew : newSize ≤ maxAlloced) :
    doubleSize 64 newSize (doubleFuel 64)
        (if st.pot.alloced ≠ 0 then st.pot.alloced else 1) =
      .ok (capacity st.pot.alloced newSize) ∧
    ∃ m, m ≤ 63 ∧ capacity st.pot.alloced newSize = 2 ^ m ∧
      2 ^ m ≤ maxAlloced ∧ newSize ≤ 2 ^ m := by
  obtain ⟨k, hstart, hsmall, hmax⟩ := h.start_eq
  have hk : k ≤ 63 := by
    have hexp : 2 ^ k < 2 ^ 61 := by
      unfold maxAlloced at hsmall
      omega
    have hlt := (Nat.pow_lt_pow_iff_right (by omega)).mp hexp
    omega
  have hbound : newSize ≤ 2 ^ 63 := by
    unfold maxAlloced at hnew
    omega
  obtain ⟨m, hm, hkm, hm63, hnewm, hleast⟩ :=
    doubleSize_pow (w := 63) hbound (doubleFuel 64) k hk
      (by simp only [doubleFuel]; omega)
  have hclog : Nat.clog 2 newSize ≤ m := Nat.clog_le_of_le_pow hnewm
  have hcapacity : capacity st.pot.alloced newSize = 2 ^ m := by
    have hone : 1 ≤ 2 ^ Nat.clog 2 newSize := Nat.one_le_two_pow
    have hcap : capacity st.pot.alloced newSize =
        max (2 ^ k) (2 ^ Nat.clog 2 newSize) := by
      unfold capacity
      omega
    rw [hcap]
    rcases hleast with heq | hlt
    · subst heq
      exact max_eq_left (Nat.pow_le_pow_right (by omega) hclog)
    · have hle : m ≤ Nat.clog 2 newSize := by
        have hpow : 2 ^ m < 2 ^ (Nat.clog 2 newSize + 1) := by
          have hceil := Nat.le_pow_clog (b := 2) (by omega) newSize
          rw [pow_succ]
          omega
        have hexp := (Nat.pow_lt_pow_iff_right (by omega)).mp hpow
        omega
      have heq : Nat.clog 2 newSize = m := le_antisymm hclog hle
      rw [heq]
      exact max_eq_right (Nat.pow_le_pow_right (by omega) hkm)
  refine ⟨?_, m, hm63, hcapacity, pow_le_maxAlloced hsmall hnew hleast, hnewm⟩
  rw [hstart, hcapacity]
  exact hm

theorem PotShape.resize_eq (h : PotShape st.pot) (hnew : newSize ≤ maxAlloced)
    (hgrow : ¬ newSize < st.pot.alloced) {array : Option Block}
    {world : World}
    (hrealloc : aReallocFree E st.pot.array
      (arrayBytes (capacity st.pot.alloced newSize)) st.world =
        .ok (array, world)) :
    aPotResize E newSize st =
      .ok (array.isSome,
        ⟨{ st.pot with
            alloced := if array.isSome then
              capacity st.pot.alloced newSize else 0
            array := array }, world⟩) := by
  have hnum : ¬ newSize < st.pot.num :=
    Nat.not_lt.mpr (h.num_le.trans (Nat.le_of_not_lt hgrow))
  have hdouble := (h.doubleSize_eq hnew).1
  unfold arrayBytes at hrealloc
  unfold aPotResize
  rw [if_neg hgrow, if_neg hnum]
  simp only [hdouble, ok_bind, hrealloc, pure_eq_ok]
  cases array with
  | none => rfl
  | some block => rfl

theorem capacity_bytes_ne_zero (h : PotShape st.pot)
    (hnew : newSize ≤ maxAlloced) :
    arrayBytes (capacity st.pot.alloced newSize) ≠ 0 := by
  obtain ⟨_, m, hm, hcapacity, _⟩ := h.doubleSize_eq hnew
  rw [hcapacity]
  exact arrayBytes_ne_zero hm

theorem PotShape.resize_granted (h : PotShape st.pot)
    (hnew : newSize ≤ maxAlloced) (hgranted : RoomGranted E newSize st) :
    ∃ k block after,
      aPotResize E newSize st = .ok (true, after) ∧
      PotRoom after.pot k block ∧ newSize ≤ 2 ^ k ∧
      after.pot.num = st.pot.num := by
  by_cases hlt : newSize < st.pot.alloced
  · rcases h with ⟨_, halloced, _⟩ | ⟨k, block, h⟩
    · omega
    · refine ⟨k, block, st, by simp [aPotResize, hlt], h, ?_, rfl⟩
      rw [← h.alloced_eq]
      exact hlt.le
  · have hgrant := hgranted.resolve_left hlt
    obtain ⟨_, m, _, hcapacity, hsmall, hroom⟩ := h.doubleSize_eq hnew
    have hnum : st.pot.num ≤ newSize :=
      h.num_le.trans (Nat.le_of_not_lt hlt)
    have hresize := h.resize_eq hnew hlt
      (aReallocFree_of_grants st.pot.array (capacity_bytes_ne_zero h hnew)
        hgrant)
    rw [hcapacity] at hresize
    exact ⟨m, _, _, hresize, ⟨rfl, rfl, hsmall, rfl, hnum.trans hroom⟩,
      hroom, rfl⟩

theorem PotShape.resize_refused (h : PotShape st.pot)
    (hnew : newSize ≤ maxAlloced) (hrefused : ¬ RoomGranted E newSize st) :
    ∃ after, aPotResize E newSize st = .ok (false, after) ∧
      after.pot.array = none ∧ after.pot.alloced = 0 ∧
      after.pot.num = st.pot.num := by
  rcases not_or.mp hrefused with ⟨hlt, hgrant⟩
  obtain ⟨world, hrealloc⟩ :=
    aReallocFree_of_refused st.pot.array (capacity_bytes_ne_zero h hnew)
      (Bool.eq_false_iff.mpr hgrant)
  exact ⟨_, h.resize_eq hnew hlt hrealloc, rfl, rfl, rfl⟩

end Resize

section Calls

variable {E : Env} {st : PotState}

/-- An insertion with room completes, whatever `before` answers; it writes its
slot and first reads that slot and the parent. -/
theorem PotShape.insert_granted (h : PotShape st.pot)
    (hnum : st.pot.num < maxAlloced)
    (hgranted : RoomGranted E (st.pot.num + 1) st) (ptr : Ptr) :
    ∃ rest k block after,
      aPotInsertTraced E ptr st =
        .ok (.write (st.pot.num + 1) :: .read (st.pot.num + 1) ::
          .read ((st.pot.num + 1) / 2) :: rest, true, after) ∧
      PotRoom after.pot k block := by
  have hadd : sizeAdd st.pot.num 1 = st.pot.num + 1 :=
    sizeAdd_of_lt (by unfold maxAlloced at hnum; omega)
  obtain ⟨k, block, after, hresize, hroom, hle, hsame⟩ :=
    h.resize_granted hnum hgranted
  have hhas : block.Has (st.pot.num + 1) :=
    has_of_bytes hroom.bytes_eq hroom.small hle
  have hhasWritten : (Block.withWords block
      (Function.update block.word (st.pot.num + 1) ptr)).Has
        (st.pot.num + 1) := hhas
  obtain ⟨trace, word, hbubble, htrace⟩ :
      ∃ trace word,
        bubbleUpTraced after.pot.before (st.pot.num + 1 + 1)
            (st.pot.num + 1) (Block.withWords block
              (Function.update block.word (st.pot.num + 1) ptr)) =
          .ok (trace, Block.withWords block word) ∧
        (0 < st.pot.num + 1 → ∃ rest, trace =
          .read (st.pot.num + 1) :: .read ((st.pot.num + 1) / 2) :: rest) :=
    bubbleUpTraced_ok (Nat.lt_succ_self _) hhasWritten
  obtain ⟨rest, hrest⟩ := htrace (Nat.succ_pos _)
  subst hrest
  have hinsert : aPotInsertTraced E ptr st =
      .ok (.write (st.pot.num + 1) :: .read (st.pot.num + 1) ::
          .read ((st.pot.num + 1) / 2) :: rest, true,
        { after with pot := { after.pot with
            num := st.pot.num + 1
            array := some (Block.withWords block word) } }) := by
    unfold aPotInsertTraced
    rw [hadd, hresize]
    simp only [ok_bind, Bool.true_eq_false, if_false, hsame, hadd, arrayOf,
      hroom.array_eq, Block.write_of_has ptr hhas]
    rw [hbubble]
    rfl
  exact ⟨rest, k, Block.withWords block word, _, hinsert,
    ⟨rfl, hroom.alloced_eq, hroom.small, hroom.bytes_eq, hle⟩⟩

theorem PotShape.insert_refused (h : PotShape st.pot)
    (hnum : st.pot.num < maxAlloced)
    (hrefused : ¬ RoomGranted E (st.pot.num + 1) st) (ptr : Ptr) :
    ∃ after,
      aPotInsertTraced E ptr st = .ok ([], false, after) ∧
      after.pot.array = none ∧ after.pot.alloced = 0 ∧
      after.pot.num = st.pot.num := by
  have hadd : sizeAdd st.pot.num 1 = st.pot.num + 1 :=
    sizeAdd_of_lt (by unfold maxAlloced at hnum; omega)
  obtain ⟨after, hresize, hafter⟩ := h.resize_refused hnum hrefused
  refine ⟨after, ?_, hafter⟩
  unfold aPotInsertTraced
  rw [hadd, hresize]
  rfl

/-- A removal completes, whatever `before` answers, and reads nothing from an
empty pot. -/
theorem PotShape.removeTop_ok (h : PotShape st.pot) :
    ∃ trace ret after,
      aPotRemoveTopTraced st = .ok (trace, ret, after) ∧
      PotShape after.pot ∧ after.pot.num = st.pot.num - 1 ∧
      (st.pot.num = 0 → trace = []) := by
  by_cases hzero : st.pot.num = 0
  · exact ⟨[], 0, st, by simp [aPotRemoveTopTraced, hzero], h, by omega,
      fun _ => rfl⟩
  · rcases h with ⟨_, _, hnum⟩ | ⟨k, block, h⟩
    · exact absurd hnum hzero
    · have hhas : block.Has st.pot.num :=
        has_of_bytes h.bytes_eq h.small h.num_le
      have hhasFirst : block.Has 1 := Block.has_of_le hhas (by omega)
      have hhasMoved : (Block.withWords block (Function.update block.word 1
          (block.word st.pot.num))).Has (st.pot.num - 1) :=
        Block.has_of_le hhas (Nat.sub_le _ 1)
      obtain ⟨trace, word, hbubble⟩ : ∃ trace word,
          bubbleDownTraced st.pot.before (st.pot.num - 1)
              (Block.withWords block (Function.update block.word 1
                (block.word st.pot.num))) =
            .ok (trace, Block.withWords block word) :=
        bubbleDownTraced_ok hhasMoved
      have hremove : aPotRemoveTopTraced st =
          .ok (.read 1 :: .read st.pot.num :: .write 1 :: trace,
            block.word 1,
            { st with pot := { st.pot with
                num := st.pot.num - 1
                array := some (Block.withWords block word) } }) := by
        unfold aPotRemoveTopTraced
        rw [if_neg hzero]
        simp only [arrayOf, h.array_eq, ok_bind, Block.read_of_has hhasFirst,
          Block.read_of_has hhas, Block.write_of_has _ hhasFirst, hbubble,
          pure_eq_ok]
      refine ⟨_, _, _, hremove, Or.inr ⟨k, Block.withWords block word, ?_⟩,
        rfl, fun hempty => absurd hempty hzero⟩
      exact ⟨rfl, h.alloced_eq, h.small, h.bytes_eq,
        (Nat.sub_le _ 1).trans h.num_le⟩

theorem aPotInit_shape (before : Before) {size : ℕ}
    (hsize : size ≤ maxAlloced) (st : PotState) :
    ∃ after, aPotInit E (some before) size st = .ok (true, after) ∧
      PotShape after.pot ∧ after.pot.num = 0 := by
  let start : PotState :=
    ⟨{ num := 0, alloced := 0, before := before, array := none }, st.world⟩
  have hstart : PotShape start.pot := Or.inl ⟨rfl, rfl, rfl⟩
  by_cases hgranted : RoomGranted E size start
  · obtain ⟨k, block, after, hresize, hroom, _, hnum⟩ :=
      hstart.resize_granted hsize hgranted
    refine ⟨after, ?_, Or.inr ⟨k, block, hroom⟩, hnum⟩
    unfold aPotInit
    simp only
    rw [hresize]
    rfl
  · obtain ⟨after, hresize, harray, halloced, hnum⟩ :=
      hstart.resize_refused hsize hgranted
    refine ⟨after, ?_, Or.inl ⟨harray, halloced, hnum⟩, hnum⟩
    unfold aPotInit
    simp only
    rw [hresize]
    rfl

end Calls

section Runs

variable {before : Before} {E : Env} {config : ReuseConfig}

/-- Whatever the call, an intact pot and the accesses of the call give the
guarantee. -/
theorem reuseStep_of_shape {op : PotOp} {out : PotOut} {trace : List Access}
    {state : PotState} (hshape : PotShape state.pot)
    (hempty : out = .pot false ∨ op = .cleanup → state.pot.num = 0)
    (hreads : Cleaned config →
      ReadsWritten (writtenSlots config.transcript) trace) :
    ReuseStep config op
      ⟨state, config.transcript ++ [(op, (out, trace))]⟩ where
  bounded := hshape.num_le
  present := hshape.array_ne_none
  failed := by
    intro other hother
    have hout : out = .pot false := by
      simp only [List.append_cancel_left_eq, List.cons.injEq, Prod.mk.injEq]
        at hother
      exact hother.1.2.1
    exact Or.inr (hempty (Or.inl hout))
  emptied := fun hop => hempty (Or.inr hop)
  initialised := by
    intro hcleaned out' other hother
    have htrace : trace = other := by
      simp only [List.append_cancel_left_eq, List.cons.injEq, Prod.mk.injEq]
        at hother
      exact hother.1.2.2
    exact htrace ▸ hreads hcleaned

theorem cleaned_step {op : PotOp} {out : PotOut} {trace : List Access}
    {state : PotState} :
    Cleaned ⟨state, config.transcript ++ [(op, (out, trace))]⟩ ↔
      Cleaned config ∨ op = .cleanup := by
  simp [Cleaned, Config.history, eq_comm]

theorem step_of_traced {op : PotOp} {out : PotOut} {trace : List Access}
    {state : PotState}
    (hcall : tracedStep E before config.state op =
      .ok ((out, trace), state)) :
    config.step (tracedStep E before) op =
      .ok ⟨state, config.transcript ++ [(op, (out, trace))]⟩ :=
  Config.step_of_ok hcall

theorem refused_iff (op : PotOp) {state : PotState} (harray : state.pot.array = none)
    (halloced : state.pot.alloced = 0)
    (hnum : state.pot.num = config.state.pot.num)
    (hwritten : writtenStep (writtenSlots config.transcript)
      (op, (.pot false, [])) = ∅) :
    let after : ReuseConfig :=
      ⟨state, config.transcript ++ [(op, (.pot false, []))]⟩
    (ReuseStep config op after → config.state.pot.num = 0) ∧
      (config.state.pot.num = 0 →
        ReuseStep config op after ∧ ReuseInv after) := by
  refine ⟨fun h => ?_, fun hzero => ⟨?_, ?_, ?_⟩⟩
  · have hle : state.pot.num ≤ state.pot.alloced := h.bounded
    omega
  · exact reuseStep_of_shape (Or.inl ⟨harray, halloced, hnum.trans hzero⟩)
      (fun _ => hnum.trans hzero) (fun _ => trivial)
  · exact Or.inl ⟨harray, halloced, hnum.trans hzero⟩
  · intro _
    rw [writtenSlots_append]
    exact ⟨hnum.trans hzero, hwritten⟩

theorem insert_step (hinv : ReuseInv config)
    (hnum : config.state.pot.num < maxAlloced) (ptr : Ptr) :
    ∃ after,
      config.step (tracedStep E before) (.insert ptr) = .ok after ∧
      (ReuseStep config (.insert ptr) after →
        Reusable E config (.insert ptr)) ∧
      (Reusable E config (.insert ptr) →
        ReuseStep config (.insert ptr) after ∧ ReuseInv after) := by
  by_cases hgranted :
      RoomGranted E (config.state.pot.num + 1) config.state
  · obtain ⟨rest, k, block, state, hinsert, hroom⟩ :=
      hinv.shape.insert_granted hnum hgranted ptr
    have hcall : tracedStep E before config.state (.insert ptr) =
        .ok ((.pot true, .write (config.state.pot.num + 1) ::
          .read (config.state.pot.num + 1) ::
          .read ((config.state.pot.num + 1) / 2) :: rest), state) := by
      unfold tracedStep
      simp only [hinsert, ok_bind]
      rfl
    refine ⟨_, step_of_traced hcall, fun h => Or.inl ⟨hgranted, ?_⟩, ?_⟩
    · -- The first insertion after a cleanup reads slot zero unwritten.
      intro hcleaned
      have hreads := h.initialised hcleaned _ _ rfl
      obtain ⟨hzero, hempty⟩ := hinv.cleaned hcleaned
      rw [hzero, hempty] at hreads
      have hslot : 0 ∈ insert 1 (∅ : Set ℕ) := hreads.2.1
      simp at hslot
    · intro hreusable
      have hnot : ¬ Cleaned config := by
        rcases hreusable with h | h
        · exact h.2
        · exact absurd hgranted h.1
      have hshape : PotShape state.pot := Or.inr ⟨k, block, hroom⟩
      refine ⟨reuseStep_of_shape hshape (by simp)
        (fun hcleaned => absurd hcleaned hnot), hshape, fun hcleaned => ?_⟩
      exact absurd hcleaned (by simp [cleaned_step, hnot])
  · obtain ⟨state, hinsert, harray, halloced, hsame⟩ :=
      hinv.shape.insert_refused hnum hgranted ptr
    have hcall : tracedStep E before config.state (.insert ptr) =
        .ok ((.pot false, []), state) := by
      unfold tracedStep
      simp only [hinsert, ok_bind]
      rfl
    obtain ⟨hzero, hkeeps⟩ :=
      refused_iff (.insert ptr) harray halloced hsame rfl
    refine ⟨_, step_of_traced hcall,
      fun h => Or.inr ⟨hgranted, hzero h⟩, fun hreusable => hkeeps ?_⟩
    rcases hreusable with h | h
    · exact absurd h.1 hgranted
    · exact h.2

theorem resize_step (hinv : ReuseInv config) {newSize : ℕ}
    (hnew : newSize ≤ maxAlloced) :
    ∃ after,
      config.step (tracedStep E before) (.resize newSize) = .ok after ∧
      (ReuseStep config (.resize newSize) after →
        Reusable E config (.resize newSize)) ∧
      (Reusable E config (.resize newSize) →
        ReuseStep config (.resize newSize) after ∧ ReuseInv after) := by
  by_cases hgranted : RoomGranted E newSize config.state
  · obtain ⟨k, block, state, hresize, hroom, _, hsame⟩ :=
      hinv.shape.resize_granted hnew hgranted
    have hcall : tracedStep E before config.state (.resize newSize) =
        .ok ((.pot true, []), state) := by
      simp [tracedStep, potStep, hresize, untraced, Except.map]
    have hshape : PotShape state.pot := Or.inr ⟨k, block, hroom⟩
    refine ⟨_, step_of_traced hcall, fun _ => Or.inl hgranted, fun _ =>
      ⟨reuseStep_of_shape hshape (by simp) (fun _ => trivial), hshape, ?_⟩⟩
    intro hcleaned
    obtain ⟨hzero, hempty⟩ :=
      hinv.cleaned ((cleaned_step.mp hcleaned).resolve_right (by simp))
    rw [writtenSlots_append]
    exact ⟨hsame.trans hzero, hempty⟩
  · obtain ⟨state, hresize, harray, halloced, hsame⟩ :=
      hinv.shape.resize_refused hnew hgranted
    have hcall : tracedStep E before config.state (.resize newSize) =
        .ok ((.pot false, []), state) := by
      simp [tracedStep, potStep, hresize, untraced, Except.map]
    obtain ⟨hzero, hkeeps⟩ :=
      refused_iff (.resize newSize) harray halloced hsame rfl
    exact ⟨_, step_of_traced hcall, fun h => Or.inr (hzero h),
      fun hreusable => hkeeps (hreusable.resolve_left hgranted)⟩

theorem removeTop_step (E : Env) (hinv : ReuseInv config) :
    ∃ after,
      config.step (tracedStep E before) .removeTop = .ok after ∧
      ReuseStep config .removeTop after ∧ ReuseInv after := by
  obtain ⟨trace, ret, state, hremove, hshape, hnum, htrace⟩ :=
    hinv.shape.removeTop_ok
  have hcall : tracedStep E before config.state .removeTop =
      .ok ((.value ret, trace), state) := by
    simp [tracedStep, hremove]
  refine ⟨_, step_of_traced hcall, reuseStep_of_shape hshape (by simp) ?_,
    hshape, ?_⟩
  · intro hcleaned
    rw [htrace (hinv.cleaned hcleaned).1]
    trivial
  · intro hcleaned
    obtain ⟨hzero, hempty⟩ :=
      hinv.cleaned ((cleaned_step.mp hcleaned).resolve_right (by simp))
    rw [writtenSlots_append]
    exact ⟨by rw [hnum, hzero], hempty⟩

/-- A cleanup keeps the number of values without the array. -/
theorem cleanup_step (E : Env) :
    ∃ after,
      config.step (tracedStep E before) .cleanup = .ok after ∧
      (ReuseStep config .cleanup after → config.state.pot.num = 0) ∧
      (config.state.pot.num = 0 →
        ReuseStep config .cleanup after ∧ ReuseInv after) := by
  have hcall : tracedStep E before config.state .cleanup =
      .ok ((.unit, []), aPotCleanup config.state) := rfl
  refine ⟨_, step_of_traced hcall, fun h => h.emptied rfl, fun hzero => ?_⟩
  have hshape : PotShape (aPotCleanup config.state).pot :=
    Or.inl ⟨rfl, rfl, hzero⟩
  refine ⟨reuseStep_of_shape hshape (fun _ => hzero) (fun _ => trivial),
    hshape, fun _ => ?_⟩
  rw [writtenSlots_append]
  exact ⟨hzero, rfl⟩

theorem init_step (E : Env) (config : ReuseConfig) {size : ℕ}
    (hsize : size ≤ maxAlloced) :
    ∃ after,
      config.step (tracedStep E before) (.init size) = .ok after ∧
      ReuseStep config (.init size) after ∧ ReuseInv after := by
  obtain ⟨state, hinit, hshape, hnum⟩ :=
    aPotInit_shape (E := E) before hsize config.state
  have hcall : tracedStep E before config.state (.init size) =
      .ok ((.pot true, []), state) := by
    simp [tracedStep, potStep, hinit, untraced, Except.map]
  refine ⟨_, step_of_traced hcall,
    reuseStep_of_shape hshape (fun _ => hnum) (fun _ => trivial), hshape,
    fun _ => ?_⟩
  rw [writtenSlots_append]
  exact ⟨hnum, rfl⟩

theorem reuse_step (hinv : ReuseInv config) {op : PotOp}
    (hsmall : NoWrap config op) :
    ∃ after, config.step (tracedStep E before) op = .ok after ∧
      (ReuseStep config op after → Reusable E config op) ∧
      (Reusable E config op → ReuseStep config op after ∧ ReuseInv after) := by
  cases op with
  | init size =>
      obtain ⟨after, hafter, hkeeps⟩ := init_step E config hsmall
      exact ⟨after, hafter, fun _ => trivial, fun _ => hkeeps⟩
  | resize newSize => exact resize_step hinv hsmall
  | insert ptr => exact insert_step hinv hsmall ptr
  | removeTop =>
      obtain ⟨after, hafter, hkeeps⟩ := removeTop_step E hinv
      exact ⟨after, hafter, fun _ => trivial, fun _ => hkeeps⟩
  | cleanup => exact cleanup_step E

/-- In every run that starts with an initialisation and in which no size
wraps, whatever requests are refused and whatever `before` answers, the
representation is kept at every call if and only if the pot is empty whenever
its growth is refused or it is cleaned up, and no insertion finds room after a
cleanup. -/
theorem aPot_reuse_iff (before : Before) (E : Env) (st : PotState)
    {size : ℕ} {ops : List PotOp}
    (hsmall : Meets (tracedStep E before) NoWrap (Config.initial st)
      (.init size :: ops)) :
    Keeps (tracedStep E before) ReuseStep (Config.initial st)
        (.init size :: ops) ↔
      Meets (tracedStep E before) (Reusable E) (Config.initial st)
        (.init size :: ops) := by
  rcases hsmall with ⟨hsize, hrest⟩
  obtain ⟨first, hfirst, hkept, hinvFirst⟩ :=
    init_step E (Config.initial st) hsize
  have hstart : ∀ after : ReuseConfig,
      Reusable E (Config.initial st) (.init size) →
      (Config.initial st).step (tracedStep E before) (.init size) =
        .ok after →
      ReuseInv after := by
    intro after _ hafter
    obtain rfl : first = after := Config.step_unique hfirst hafter
    exact hinvFirst
  have htotal : ∀ (config : ReuseConfig) (op : PotOp), ReuseInv config →
      NoWrap config op →
      ∃ after, config.step (tracedStep E before) op = .ok after ∧
        (ReuseStep config op after → Reusable E config op) ∧
        (Reusable E config op →
          ReuseStep config op after ∧ ReuseInv after) :=
    fun config op hinv hop => reuse_step hinv hop
  exact keeps_iff_meets_cons (condition_iff_of_total htotal)
    (inv_of_total htotal)
    ⟨fun _ => ⟨first, hfirst, hkept⟩, fun _ => trivial⟩ hstart hrest

end Runs

theorem aPot_reuse_run :
    Keeps (tracedStep (filledEnv 0) aPotLtIntptr) ReuseStep
      (Config.initial blankState)
      [.init 0, .insert 7, .removeTop, .cleanup, .removeTop] := by
  refine (aPot_reuse_iff aPotLtIntptr (filledEnv 0) blankState ?_).mpr ?_
  · refine ⟨Nat.zero_le _, fun first hfirst => ?_⟩
    cases hfirst
    exact ⟨Nat.two_pow_pos 60, fun _ _ => ⟨trivial, fun _ _ => ⟨trivial,
      fun _ _ => ⟨trivial, fun _ _ => trivial⟩⟩⟩⟩
  · refine ⟨trivial, fun first hfirst => ?_⟩
    cases hfirst
    refine ⟨Or.inl ⟨Or.inr rfl, by simp [Cleaned, Config.history]⟩,
      fun second hsecond => ?_⟩
    cases hsecond
    refine ⟨trivial, fun third hthird => ?_⟩
    cases hthird
    exact ⟨rfl, fun _ _ => ⟨trivial, fun _ _ => trivial⟩⟩

/-- A cleanup of a pot that holds a value leaves one value without an
array. -/
theorem aPot_reuse_fails :
    ¬ Keeps (tracedStep (filledEnv 0) aPotLtIntptr) ReuseStep
      (Config.initial blankState) [.init 0, .insert 7, .cleanup] := by
  intro hkeeps
  rcases hkeeps with ⟨first, hfirst, _, second, hsecond, _, third, hthird,
    hbroken, _⟩
  cases hfirst
  cases hsecond
  cases hthird
  have hle := hbroken.bounded
  revert hle
  decide

end Pot
end Alib
