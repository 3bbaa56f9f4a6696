import Alib.PotCalls
import Alib.Execution

/-!
# The pot as a priority queue

The values a pot should hold are read off the transcript of its calls.  A run
behaves as a priority queue as long as no value comes before what happened to
lie in slot zero, since `bubble_up` compares the value that reached slot one
with slot zero and exchanges them; and as long as the byte count of the array
does not wrap.  Both bounds are exact.
-/

namespace Alib
namespace Pot

open SiftHeap
open Execution

abbrev PotConfig := Config PotState PotOp PotOut

def pendingStep (values : Multiset Ptr) : PotOp × PotOut → Multiset Ptr
  | (.init _, .pot true) => 0
  | (.insert ptr, .pot true) => ptr ::ₘ values
  | (.removeTop, .value ret) => values.erase ret
  | _ => values

/-- The values inserted since the last initialisation and not yet returned. -/
def pending (transcript : List (PotOp × PotOut)) : Multiset Ptr :=
  transcript.foldl pendingStep 0

@[simp] theorem pending_append (transcript : List (PotOp × PotOut))
    (entry : PotOp × PotOut) :
    pending (transcript ++ [entry]) =
      pendingStep (pending transcript) entry := by
  simp [pending]

/-- The calls a priority queue is used through. -/
def PotOp.IsQueueOp : PotOp → Prop
  | .init _ => True
  | .insert _ => True
  | .removeTop => True
  | _ => False

/-- The calls which return the pot. -/
def PotOp.ReturnsPot : PotOp → Prop
  | .init _ => True
  | .insert _ => True
  | .resize _ => True
  | _ => False

/-- The call takes effect: it does not return `NULL` in place of the pot. -/
def TakesEffect (config : PotConfig) (op : PotOp) (after : PotConfig) : Prop :=
  op.ReturnsPot → after.transcript = config.transcript ++ [(op, .pot true)]

/-- The call takes effect, after it the array holds exactly the pending
values, and what is taken from a nonempty pot is a value held that none of the
values held comes before. -/
def QueueStep (before : Before) (config : PotConfig) (op : PotOp)
    (after : PotConfig) : Prop :=
  TakesEffect config op after ∧
    heldValues after.state.pot = pending after.transcript ∧
      (op = .removeTop → 0 < config.state.pot.num →
        ∃ ret ∈ heldValues config.state.pot,
          after.transcript = config.transcript ++ [(op, .value ret)] ∧
            ∀ v ∈ heldValues config.state.pot, before v ret = false)

/-- The sizes are small enough for the growth arithmetic, and a value to be
inserted does not come before the content of slot zero. -/
def SlotZeroFirst (before : Before) (config : PotConfig) : PotOp → Prop
  | .init size => size ≤ 2 ^ 63
  | .insert ptr =>
      config.state.pot.alloced ≤ maxAlloced ∧
        config.state.pot.num < maxAlloced ∧
        ∀ block, config.state.pot.array = some block →
          before ptr (block.word 0) = false
  | _ => True

section Runs

variable {before : Before} [IsStrictWeakOrder Ptr (Comes before)]
  {E : Env}

/-- Between calls the array holds the pending values in heap order. -/
def QueueInv (before : Before) (config : PotConfig) : Prop :=
  ∃ k block,
    PotHolds before config.state.pot k block (pending config.transcript)

omit [IsStrictWeakOrder Ptr (Comes before)] in
theorem QueueInv.heldValues_eq {config : PotConfig}
    (hinv : QueueInv before config) :
    heldValues config.state.pot = pending config.transcript := by
  rcases hinv with ⟨k, block, h⟩
  exact h.heldValues_eq

omit [IsStrictWeakOrder Ptr (Comes before)] in
theorem init_spec (hgrant : E.GrantsAll) (config : PotConfig) {size : ℕ}
    (hsize : size ≤ 2 ^ 63) :
    ∃ after, config.step (potStep E before) (.init size) = .ok after ∧
      TakesEffect config (.init size) after ∧ QueueInv before after := by
  obtain ⟨st', m, block', hinit, hholds, _, _⟩ :=
    aPotInit_spec hgrant before hsize config.state
  have hstep : potStep E before config.state (.init size) =
      .ok (.pot true, st') := by
    simp [potStep, hinit]
  refine ⟨_, Config.step_of_ok hstep, fun _ => rfl, m, block', ?_⟩
  rw [pending_append]
  exact hholds

omit [IsStrictWeakOrder Ptr (Comes before)] in
theorem init_iff (hgrant : E.GrantsAll) (config : PotConfig) (size : ℕ) :
    SlotZeroFirst before config (.init size) ↔
      ∃ after, config.step (potStep E before) (.init size) = .ok after ∧
        QueueStep before config (.init size) after := by
  constructor
  · intro hsize
    obtain ⟨after, hafter, heffect, hinv⟩ := init_spec hgrant config hsize
    exact ⟨after, hafter, heffect, hinv.heldValues_eq, by simp⟩
  · rintro ⟨after, hafter, _⟩
    by_contra hsize
    obtain ⟨out, hstep, _⟩ := Config.step_eq_ok_iff.mp hafter
    have hdiverges :
        aPotInit E (some before) size config.state = .error .divergence :=
      aPotInit_diverges (Nat.lt_of_not_le hsize) config.state
    simp [potStep, hdiverges] at hstep

theorem insert_iff (hgrant : E.GrantsAll) {config : PotConfig} (hinv : QueueInv before config)
    (ptr : Ptr) :
    SlotZeroFirst before config (.insert ptr) ↔
      ∃ after, config.step (potStep E before) (.insert ptr) = .ok after ∧
        QueueStep before config (.insert ptr) after := by
  rcases hinv with ⟨k, block, h⟩
  have hroom : SlotZeroFirst before config (.insert ptr) ↔
      (2 ^ k ≤ maxAlloced ∧ config.state.pot.num < maxAlloced) ∧
        ¬ Comes before ptr (block.word 0) := by
    simp [SlotZeroFirst, h.alloced_eq, h.array_eq, Comes, and_assoc]
  by_cases hsmall :
      2 ^ k ≤ maxAlloced ∧ config.state.pot.num < maxAlloced
  · obtain ⟨st', m, block', hinsert, hholds, hnum, hall, hslot⟩ :=
      h.insert hgrant hsmall.1 hsmall.2 ptr
    have hstep : config.step (potStep E before) (.insert ptr) =
        .ok ⟨st', config.transcript ++ [(.insert ptr, .pot true)]⟩ :=
      Config.step_of_ok (by simp [potStep, hinsert])
    have hpending : pending
        (config.transcript ++ [(PotOp.insert ptr, PotOut.pot true)]) =
          ptr ::ₘ contents block.word 1 config.state.pot.num := by
      rw [pending_append, h.held]
      rfl
    rw [contents_first block'.word (Nat.zero_le _),
      contents_first block.word (Nat.zero_le _)] at hall
    rw [hroom]
    constructor
    · rintro ⟨_, hbefore⟩
      rw [hslot hbefore, Multiset.cons_swap] at hall
      refine ⟨_, hstep, fun _ => rfl, ?_, by simp⟩
      rw [hholds.heldValues_eq, hpending]
      exact (Multiset.cons_inj_right _).mp hall
    · rintro ⟨after, hafter, _, hheld, _⟩
      refine ⟨hsmall, fun hbefore => ?_⟩
      obtain rfl : _ = after := Config.step_unique hstep hafter
      rw [hholds.heldValues_eq, hpending] at hheld
      rw [zero_add, hheld, Multiset.cons_swap ptr] at hall
      have hroot : block'.word 0 = block.word 0 :=
        (Multiset.cons_inj_left _).mp hall
      have hptr : ptr ∈ contents block'.word 1 (config.state.pot.num + 1) := by
        rw [hheld]
        exact Multiset.mem_cons_self _ _
      obtain ⟨i, _, hi, hword⟩ := mem_contents.mp hptr
      have hfirst := hholds.ordered.root i (by rw [hnum]; exact hi)
      rw [hword, hroot] at hfirst
      exact hfirst hbefore
  · rw [hroom]
    constructor
    · rintro ⟨hboth, _⟩
      exact absurd hboth hsmall
    · rintro ⟨after, hafter, _⟩
      obtain ⟨out, hstep, _⟩ := Config.step_eq_ok_iff.mp hafter
      have hfault := h.insert_outOfBounds hgrant (by omega) ptr
      simp [potStep, hfault] at hstep

theorem removeTop_spec (E : Env) {config : PotConfig}
    (hinv : QueueInv before config) :
    ∃ after, config.step (potStep E before) .removeTop = .ok after ∧
      QueueStep before config .removeTop after ∧ QueueInv before after := by
  rcases hinv with ⟨k, block, h⟩
  by_cases hpos : 0 < config.state.pot.num
  · obtain ⟨st', block', hremove, hholds, _, _, hfirst⟩ := h.removeTop hpos
    have hinvAfter : QueueInv before
        ⟨st', config.transcript ++
          [(.removeTop, .value (block.word 1))]⟩ := by
      refine ⟨k, block', ?_⟩
      rw [pending_append]
      exact hholds
    have hstep : potStep E before config.state .removeTop =
        .ok (.value (block.word 1), st') := by
      simp [potStep, hremove]
    have hheld : block.word 1 ∈ pending config.transcript := by
      rw [← h.held]
      exact mem_contents.mpr ⟨1, le_rfl, hpos, rfl⟩
    refine ⟨_, Config.step_of_ok hstep, ⟨fun hreturns => hreturns.elim,
      hinvAfter.heldValues_eq, fun _ _ => ?_⟩, hinvAfter⟩
    rw [h.heldValues_eq]
    exact ⟨block.word 1, hheld, rfl, hfirst⟩
  · have hzero : config.state.pot.num = 0 := by omega
    have hempty : pending config.transcript = 0 := by
      rw [← h.held, hzero]
      exact contents_of_lt (by omega)
    have hinvAfter : QueueInv before
        ⟨config.state, config.transcript ++ [(.removeTop, .value 0)]⟩ := by
      refine ⟨k, block, ?_⟩
      rw [pending_append]
      simpa [pendingStep, hempty] using h
    have hstep : potStep E before config.state .removeTop =
        .ok (.value 0, config.state) := by
      simp [potStep, aPotRemoveTop, hzero]
    refine ⟨_, Config.step_of_ok hstep, ⟨fun hreturns => hreturns.elim,
      hinvAfter.heldValues_eq, ?_⟩, hinvAfter⟩
    intro _ hnonempty
    exact absurd hnonempty hpos

theorem queueInv_step (hgrant : E.GrantsAll) {config after : PotConfig} {op : PotOp}
    (hinv : QueueInv before config) (hop : op.IsQueueOp)
    (hcondition : SlotZeroFirst before config op)
    (hafter : config.step (potStep E before) op = .ok after) :
    QueueInv before after := by
  cases op with
  | init size =>
      obtain ⟨other, hother, _, hinvOther⟩ :=
        init_spec hgrant config hcondition
      obtain rfl : other = after := Config.step_unique hother hafter
      exact hinvOther
  | insert ptr =>
      rcases hinv with ⟨k, block, h⟩
      have halloced := hcondition.1
      rw [h.alloced_eq] at halloced
      obtain ⟨st', m, block', hinsert, hholds, _, _, _⟩ :=
        h.insert hgrant halloced hcondition.2.1 ptr
      obtain ⟨other, hother, _, hheld, _⟩ :=
        (insert_iff hgrant ⟨k, block, h⟩ ptr).mp hcondition
      obtain rfl : other = after := Config.step_unique hother hafter
      have hstep : config.step (potStep E before) (.insert ptr) =
          .ok ⟨st', config.transcript ++ [(.insert ptr, .pot true)]⟩ :=
        Config.step_of_ok (by simp [potStep, hinsert])
      obtain rfl : _ = other := Config.step_unique hstep hother
      refine ⟨m, block', ?_⟩
      rw [hholds.heldValues_eq] at hheld
      rw [← hheld]
      exact hholds
  | removeTop =>
      obtain ⟨other, hother, _, hinvOther⟩ := removeTop_spec E hinv
      obtain rfl : other = after := Config.step_unique hother hafter
      exact hinvOther
  | resize newSize => exact hop.elim
  | cleanup => exact hop.elim

/-- A run that starts with an initialisation and in which every request is
granted is a run of a priority queue if and only if no call asks for a size
whose doubling wraps, no value is inserted when the byte count would wrap, and
no value is inserted that comes before the content of slot zero. -/
theorem aPot_priorityQueue_iff (hgrant : E.GrantsAll) (st : PotState) (size : ℕ)
    {ops : List PotOp} (hops : ∀ op ∈ ops, op.IsQueueOp) :
    Keeps (potStep E before) (QueueStep before) (Config.initial st)
        (.init size :: ops) ↔
      Meets (potStep E before) (SlotZeroFirst before) (Config.initial st)
        (.init size :: ops) := by
  have hstart : ∀ after : PotConfig,
      SlotZeroFirst before (Config.initial st) (.init size) →
      (Config.initial st).step (potStep E before) (.init size) = .ok after →
      QueueInv before after := by
    intro after hsize hafter
    obtain ⟨first, hfirst, _, hinv⟩ :=
      init_spec hgrant (Config.initial st) hsize
    obtain rfl : first = after := Config.step_unique hfirst hafter
    exact hinv
  have hadmissible : ∀ after : PotConfig,
      (Config.initial st).step (potStep E before) (.init size) = .ok after →
      Meets (potStep E before) (fun _ op => op.IsQueueOp) after ops :=
    fun after _ => meets_of_forall (fun op hop _ => hops op hop) after
  refine keeps_iff_meets_cons ?_ ?_
    (init_iff hgrant (Config.initial st) size) hstart hadmissible
  · intro config op hinv hop
    cases op with
    | init size => exact init_iff hgrant config size
    | insert ptr => exact insert_iff hgrant hinv ptr
    | removeTop =>
        obtain ⟨after, hafter, hkeeps, _⟩ := removeTop_spec E hinv
        exact ⟨fun _ => ⟨after, hafter, hkeeps⟩, fun _ => trivial⟩
    | resize newSize => exact hop.elim
    | cleanup => exact hop.elim
  · intro config op after hinv hop hcondition hafter
    exact queueInv_step hgrant hinv hop hcondition hafter

end Runs

section Orders

instance : IsStrictWeakOrder Ptr (Comes aPotLtIntptr) where
  irrefl a := by simp [Comes, aPotLtIntptr, BitVec.slt_iff_toInt_lt]
  trans a b c := by
    simp only [Comes, aPotLtIntptr, BitVec.slt_iff_toInt_lt]
    exact lt_trans
  incomp_trans a b c := by
    simp only [Comes, aPotLtIntptr, BitVec.slt_iff_toInt_lt]
    omega

instance : IsStrictWeakOrder Ptr (Comes aPotGtIntptr) where
  irrefl a := by simp [Comes, aPotGtIntptr, BitVec.slt_iff_toInt_lt]
  trans a b c := by
    simp only [Comes, aPotGtIntptr, BitVec.slt_iff_toInt_lt]
    exact fun hab hbc => lt_trans hbc hab
  incomp_trans a b c := by
    simp only [Comes, aPotGtIntptr, BitVec.slt_iff_toInt_lt]
    omega

end Orders

def blankState : PotState :=
  ⟨⟨0, 0, aPotLtIntptr, none⟩, ⟨0, 0, .null, [], false⟩⟩

theorem aPot_priorityQueue_run :
    Keeps (potStep (filledEnv 0) aPotLtIntptr)
      (QueueStep aPotLtIntptr) (Config.initial blankState)
      [.init 0, .insert 7, .insert 5, .removeTop] := by
  have hops : ∀ op ∈ [PotOp.insert 7, .insert 5, .removeTop],
      op.IsQueueOp := by
    intro op hop
    fin_cases hop <;> trivial
  have hgrant : (filledEnv 0).GrantsAll := fun _ _ => rfl
  refine (aPot_priorityQueue_iff hgrant blankState 0 hops).mpr
    ⟨Nat.zero_le _, ?_⟩
  intro first hfirst
  cases hfirst
  refine ⟨⟨by decide +kernel, by decide +kernel, fun block hblock => ?_⟩, ?_⟩
  · cases hblock
    decide +kernel
  intro second hsecond
  cases hsecond
  refine ⟨⟨by decide +kernel, by decide +kernel, fun block hblock => ?_⟩, ?_⟩
  · cases hblock
    decide +kernel
  intro third hthird
  exact ⟨trivial, fun _ _ => trivial⟩

/-- With `5` in slot zero of a min-pot, the first value inserted, `3`, is left
in slot zero and the pot holds `5`. -/
theorem aPot_priorityQueue_fails :
    ¬ Keeps (potStep (filledEnv 5) aPotLtIntptr)
      (QueueStep aPotLtIntptr) (Config.initial blankState)
      [.init 0, .insert 3] := by
  rintro ⟨first, hfirst, _, second, hsecond, ⟨_, hheld, _⟩, _⟩
  cases hfirst
  cases hsecond
  revert hheld
  decide

end Pot
end Alib
