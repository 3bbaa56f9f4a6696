import Alib.PotPriorityQueue

/-!
# The heap over all slots of the pot

`bubble_up` takes slot zero as the parent of slot one, so whatever the
allocator left in slot zero is one more value of the heap: slots zero up to
the number of values hold it, the values inserted and not returned, in heap
order.  Slot zero holds a minimum of them all and is never returned.
-/

namespace Alib
namespace Pot

open SiftHeap
open Execution

/-- The values inserted, and those returned while the pot held any. -/
structure Account where
  inserted : Multiset Ptr
  returned : Multiset Ptr

def Account.step (account : Account) : PotOp × PotOut → Account
  | (.insert ptr, .pot true) =>
      { account with inserted := ptr ::ₘ account.inserted }
  | (.removeTop, .value ret) =>
      if account.returned.card < account.inserted.card then
        { account with returned := ret ::ₘ account.returned }
      else account
  | _ => account

def accountOf (transcript : List (PotOp × PotOut)) : Account :=
  transcript.foldl Account.step ⟨0, 0⟩

@[simp] theorem accountOf_append (transcript : List (PotOp × PotOut))
    (entry : PotOp × PotOut) :
    accountOf (transcript ++ [entry]) =
      (accountOf transcript).step entry := by
  simp [accountOf]

/-- Slots zero up to the number of values hold `g` and the values inserted
less those returned, in heap order, the least of all at slot zero. -/
structure ExtendedHeap (before : Before) (g : Ptr) (pot : APot)
    (account : Account) (block : Block) : Prop where
  array_eq : pot.array = some block
  balance : contents block.word 0 pot.num + account.returned =
    g ::ₘ account.inserted
  ordered : ∀ i, 1 ≤ i → i ≤ pot.num →
    before (block.word i) (block.word (i / 2)) = false
  least : ∀ v ∈ g ::ₘ account.inserted, before v (block.word 0) = false

/-- The call returns a minimum of the slots from one up and leaves slot
zero. -/
def ReturnsLeast (before : Before) (config after : Config PotState PotOp PotOut) :
    Prop :=
  ∃ block block' ret,
    config.state.pot.array = some block ∧
      after.state.pot.array = some block' ∧
      after.transcript = config.transcript ++ [(.removeTop, .value ret)] ∧
      ret ∈ contents block.word 1 config.state.pot.num ∧
      (∀ v ∈ contents block.word 1 config.state.pot.num,
        before v ret = false) ∧
      block'.word 0 = block.word 0

/-- The call takes effect, an insertion and a resize among them, and keeps the
heap over all slots. -/
def SlotZeroStep (before : Before) (g : Ptr) (config : PotConfig)
    (op : PotOp) (after : PotConfig) : Prop :=
  TakesEffect config op after ∧
    (∃ block, ExtendedHeap before g after.state.pot
      (accountOf after.transcript) block) ∧
      (op = .removeTop → 0 < config.state.pot.num →
        ReturnsLeast before config after)

/-- The calls which the heap is kept through, with no size that wraps on the
way to the byte count of the array. -/
def HeapCall (config : PotConfig) : PotOp → Prop
  | .resize newSize => newSize ≤ maxAlloced
  | .insert _ => config.state.pot.num < maxAlloced
  | .removeTop => True
  | _ => False

section Runs

variable {before : Before} [IsStrictWeakOrder Ptr (Comes before)]
  {E : Env} {g : Ptr}

def SlotZeroInv (before : Before) (g : Ptr) (config : PotConfig) : Prop :=
  ∃ k block values,
    PotHolds before config.state.pot k block values ∧
      2 ^ k ≤ maxAlloced ∧
      ExtendedHeap before g config.state.pot (accountOf config.transcript)
        block

omit [IsStrictWeakOrder Ptr (Comes before)] in
theorem PotHolds.extendedHeap {pot : APot} {k : ℕ} {block : Block}
    {values : Multiset Ptr} {account : Account}
    (h : PotHolds before pot k block values)
    (hbalance : contents block.word 0 pot.num + account.returned =
      g ::ₘ account.inserted)
    (hleast : ∀ v ∈ g ::ₘ account.inserted, before v (block.word 0) = false) :
    ExtendedHeap before g pot account block where
  array_eq := h.array_eq
  balance := hbalance
  ordered := fun i hone hi => by simpa [Comes] using h.ordered i hone hi
  least := hleast

omit [IsStrictWeakOrder Ptr (Comes before)] in
theorem ExtendedHeap.card_eq {pot : APot} {account : Account} {block : Block}
    (h : ExtendedHeap before g pot account block) :
    pot.num + account.returned.card = account.inserted.card := by
  have hcard := congrArg Multiset.card h.balance
  simp only [Multiset.card_add, Multiset.card_cons, contents,
    Multiset.card_map, Finset.card_val, Nat.card_Icc] at hcard
  omega

omit [IsStrictWeakOrder Ptr (Comes before)] in
theorem resize_keeps (hgrant : E.GrantsAll) {config : PotConfig}
    (hinv : SlotZeroInv before g config) {newSize : ℕ}
    (hnew : newSize ≤ maxAlloced) :
    ∃ after, config.step (potStep E before) (.resize newSize) = .ok after ∧
      SlotZeroStep before g config (.resize newSize) after ∧
      SlotZeroInv before g after := by
  rcases hinv with ⟨k, block, values, h, hsmall, hheap⟩
  obtain ⟨m, room, world, hresize, hm, hmSmall, hbytes, hgrow, _, hkept⟩ :=
    h.resize hgrant hsmall hnew
  have hstep : potStep E before config.state (.resize newSize) =
      .ok (.pot true,
        ⟨{ config.state.pot with alloced := 2 ^ m, array := some room },
          world⟩) := by
    simp [potStep, hresize]
  have hcontents : ∀ low, contents room.word low config.state.pot.num =
      contents block.word low config.state.pot.num :=
    fun low => contents_congr fun i _ hi => hkept i hi
  have hholds : PotHolds before
      { config.state.pot with alloced := 2 ^ m, array := some room } m room
      values := by
    refine ⟨h.before_eq, hm, rfl, rfl, hbytes, h.num_le.trans hgrow,
      fun hgt => absurd hmSmall (Nat.not_le.mpr hgt), ?_,
      (hcontents 1).trans h.held⟩
    intro i hone hi
    rw [hkept i hi, hkept (i / 2) (Nat.le_trans (Nat.div_le_self i 2) hi)]
    exact h.ordered i hone hi
  have hheapAfter : ExtendedHeap before g
      { config.state.pot with alloced := 2 ^ m, array := some room }
      (accountOf (config.transcript ++ [(.resize newSize, .pot true)]))
      room := by
    rw [accountOf_append]
    refine hholds.extendedHeap ?_ ?_
    · rw [hcontents 0]
      exact hheap.balance
    · rw [hkept 0 (Nat.zero_le _)]
      exact hheap.least
  exact ⟨_, Config.step_of_ok hstep,
    ⟨fun _ => rfl, ⟨room, hheapAfter⟩, by simp⟩,
    m, room, values, hholds, hmSmall, hheapAfter⟩

/-- Slot zero ends up with a value that the old one does not come before, so
nothing that did not come before the old one comes before it. -/
theorem insert_keeps (hgrant : E.GrantsAll) {config : PotConfig}
    (hinv : SlotZeroInv before g config) (ptr : Ptr)
    (hnum : config.state.pot.num < maxAlloced) :
    ∃ after, config.step (potStep E before) (.insert ptr) = .ok after ∧
      SlotZeroStep before g config (.insert ptr) after ∧
      SlotZeroInv before g after := by
  rcases hinv with ⟨k, block, values, h, hsmall, hheap⟩
  obtain ⟨st', m, block', hinsert, hholds, hnumAfter, hall, _⟩ :=
    h.insert hgrant hsmall hnum ptr
  have hstep : potStep E before config.state (.insert ptr) =
      .ok (.pot true, st') := by
    simp [potStep, hinsert]
  have hmSmall : 2 ^ m ≤ maxAlloced := by
    by_contra hgt
    have hzero := hholds.empty (Nat.lt_of_not_le hgt)
    omega
  have hleast : ∀ v ∈ contents block'.word 0 (config.state.pot.num + 1),
      before v (block'.word 0) = false := by
    intro v hv
    obtain ⟨i, _, hi, hvalue⟩ := mem_contents.mp hv
    have hroot := hholds.ordered.root i (by rw [hnumAfter]; exact hi)
    rw [hvalue] at hroot
    simpa [Comes] using hroot
  rw [hall] at hleast
  have hkept : before (block.word 0) (block'.word 0) = false := by
    refine hleast _ (Multiset.mem_cons_of_mem (mem_contents.mpr ?_))
    exact ⟨0, le_rfl, Nat.zero_le _, rfl⟩
  have hheapAfter : ExtendedHeap before g st'.pot
      (accountOf (config.transcript ++ [(.insert ptr, .pot true)])) block' := by
    rw [accountOf_append]
    refine hholds.extendedHeap ?_ ?_
    · rw [hnumAfter, hall]
      simp only [Account.step, Multiset.cons_add, hheap.balance]
      exact Multiset.cons_swap _ _ _
    · intro v hv
      simp only [Account.step, Multiset.cons_swap g ptr, Multiset.mem_cons]
        at hv
      rcases hv with heq | hold
      · exact heq ▸ hleast ptr (Multiset.mem_cons_self _ _)
      · have hfirst : ¬ Comes before v (block.word 0) := by
          simpa [Comes] using hheap.least v (Multiset.mem_cons.mpr hold)
        have hsecond : ¬ Comes before (block.word 0) (block'.word 0) := by
          simpa [Comes] using hkept
        simpa [Comes] using not_trans hfirst hsecond
  exact ⟨_, Config.step_of_ok hstep,
    ⟨fun _ => rfl, ⟨block', hheapAfter⟩, by simp⟩,
    m, block', _, hholds, hmSmall, hheapAfter⟩

theorem removeTop_keeps (E : Env) {config : PotConfig}
    (hinv : SlotZeroInv before g config) :
    ∃ after, config.step (potStep E before) .removeTop = .ok after ∧
      SlotZeroStep before g config .removeTop after ∧
      SlotZeroInv before g after := by
  rcases hinv with ⟨k, block, values, h, hsmall, hheap⟩
  have hcard := hheap.card_eq
  by_cases hpos : 0 < config.state.pot.num
  · obtain ⟨st', block', hremove, hholds, hnum, hroot, hfirst⟩ :=
      h.removeTop hpos
    have hstep : potStep E before config.state .removeTop =
        .ok (.value (block.word 1), st') := by
      simp [potStep, hremove]
    have htop : block.word 1 ∈ values := by
      rw [← h.held]
      exact mem_contents.mpr ⟨1, le_rfl, hpos, rfl⟩
    have hheapAfter : ExtendedHeap before g st'.pot
        (accountOf (config.transcript ++
          [(.removeTop, .value (block.word 1))])) block' := by
      have hlt : (accountOf config.transcript).returned.card <
          (accountOf config.transcript).inserted.card := by omega
      have hbalance := hheap.balance
      rw [contents_first block.word (Nat.zero_le _), zero_add, h.held,
        ← Multiset.cons_erase htop] at hbalance
      rw [accountOf_append]
      refine hholds.extendedHeap ?_ ?_
      · rw [contents_first block'.word (Nat.zero_le _), zero_add, hholds.held,
          hroot]
        simp only [Account.step, hlt, if_true]
        rw [← hbalance]
        simp only [Multiset.cons_add, Multiset.add_cons]
        exact Multiset.cons_swap _ _ _
      · rw [hroot]
        simpa [Account.step, hlt] using hheap.least
    refine ⟨_, Config.step_of_ok hstep, ⟨fun hreturns => hreturns.elim,
      ⟨block', hheapAfter⟩, fun _ _ => ?_⟩,
      k, block', _, hholds, hsmall, hheapAfter⟩
    refine ⟨block, block', block.word 1, h.array_eq, hholds.array_eq, rfl, ?_,
      ?_, hroot⟩
    · rw [h.held]
      exact htop
    · rw [h.held]
      exact hfirst
  · have hzero : config.state.pot.num = 0 := Nat.eq_zero_of_not_pos hpos
    have hstep : potStep E before config.state .removeTop =
        .ok (.value 0, config.state) := by
      simp [potStep, aPotRemoveTop, hzero]
    have hsame : accountOf (config.transcript ++ [(.removeTop, .value 0)]) =
        accountOf config.transcript := by
      have hnot : ¬ (accountOf config.transcript).returned.card <
          (accountOf config.transcript).inserted.card := by omega
      rw [accountOf_append]
      simp [Account.step, hnot]
    have hheapAfter : ExtendedHeap before g config.state.pot
        (accountOf (config.transcript ++ [(.removeTop, .value 0)])) block := by
      rw [hsame]
      exact hheap
    exact ⟨_, Config.step_of_ok hstep, ⟨fun hreturns => hreturns.elim,
      ⟨block, hheapAfter⟩, fun _ hnonempty => absurd hnonempty hpos⟩,
      k, block, values, h, hsmall, hheapAfter⟩

theorem heapCall_keeps (hgrant : E.GrantsAll) {config : PotConfig}
    (hinv : SlotZeroInv before g config) {op : PotOp}
    (hcall : HeapCall config op) :
    ∃ after, config.step (potStep E before) op = .ok after ∧
      SlotZeroStep before g config op after ∧ SlotZeroInv before g after := by
  cases op with
  | resize newSize => exact resize_keeps hgrant hinv hcall
  | insert ptr => exact insert_keeps hgrant hinv ptr hcall
  | removeTop => exact removeTop_keeps E hinv
  | init size => exact hcall.elim
  | cleanup => exact hcall.elim

theorem slotZeroInv_init (hgrant : E.GrantsAll) {st fresh : PotState}
    {size : ℕ} {out : PotOut} {block : Block} (hsize : size ≤ maxAlloced)
    (hinit : potStep E before st (.init size) = .ok (out, fresh))
    (harray : fresh.pot.array = some block) :
    SlotZeroInv before (block.word 0) (Config.initial fresh) := by
  obtain ⟨st', m, block', hspec, hholds, hnum, hsmall⟩ :=
    aPotInit_spec hgrant before
      (hsize.trans (by unfold maxAlloced; omega)) st
  simp only [potStep, hspec, ok_bind, pure_eq_ok, Except.ok.injEq,
    Prod.mk.injEq] at hinit
  rcases hinit with ⟨_, heq⟩
  subst heq
  obtain rfl : block' = block := Option.some.inj (hholds.array_eq ▸ harray)
  refine ⟨m, block', 0, hholds, hsmall hsize, hholds.extendedHeap ?_ ?_⟩
  · simp [hnum, contents, accountOf]
  · intro v hv
    have heq : v = block'.word 0 := by
      simpa [accountOf] using hv
    subst heq
    simpa [Comes] using not_self (r := Comes before) (block'.word 0)

/-- On a freshly initialised pot whose slot zero holds `g`, every run of
insertions, resizes and removals in which requests are granted and no size
wraps keeps the heap over all slots. -/
theorem aPot_slotZero (hgrant : E.GrantsAll) {st fresh : PotState}
    {size : ℕ} {out : PotOut} {block : Block} (hsize : size ≤ maxAlloced)
    (hinit : potStep E before st (.init size) = .ok (out, fresh))
    (harray : fresh.pot.array = some block) (hg : block.word 0 = g)
    {ops : List PotOp}
    (hcalls : Meets (potStep E before) HeapCall (Config.initial fresh) ops) :
    Keeps (potStep E before) (SlotZeroStep before g) (Config.initial fresh)
      ops := by
  subst hg
  refine keeps_of_meets ?_ (slotZeroInv_init hgrant hsize hinit harray) hcalls
  intro config op hinv hcall
  exact heapCall_keeps hgrant hinv hcall

end Runs

theorem aPot_slotZero_run :
    ∃ fresh, potStep (filledEnv 5) aPotLtIntptr blankState (.init 0) =
        .ok (.pot true, fresh) ∧
      Keeps (potStep (filledEnv 5) aPotLtIntptr)
        (SlotZeroStep aPotLtIntptr 5) (Config.initial fresh)
        [.insert 7, .resize 4, .insert 3, .removeTop] := by
  have hgrant : (filledEnv 5).GrantsAll := fun _ _ => rfl
  refine ⟨_, rfl,
    aPot_slotZero hgrant (Nat.zero_le _) rfl rfl rfl ⟨?_, ?_⟩⟩
  · exact Nat.two_pow_pos 60
  intro first hfirst
  cases hfirst
  have hresize : 4 ≤ maxAlloced := by
    unfold maxAlloced
    omega
  refine ⟨hresize, ?_⟩
  intro second hsecond
  cases hsecond
  exact ⟨Nat.one_lt_two_pow (by omega),
    fun _ _ => ⟨trivial, fun _ _ => trivial⟩⟩

end Pot
end Alib
