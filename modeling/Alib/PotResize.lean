import Alib.PotReuse

/-!
# Capacities and sizes of a pot

`a_pot_resize` doubles the capacity until it reaches the size asked for, in
`size_t` arithmetic of any width, and asks for one slot more than that.  A
capacity is always a power of two of the `size_t`, so the doubling ends exactly
for the sizes up to the largest of these; on a 64-bit platform the array it
gets covers the capacity only for sizes up to `maxAlloced`.  Only the
arithmetic of `size_t` takes the width: a pointer stays eight bytes, and what
is said for every width is about capacities.
-/

namespace Alib
namespace Pot

open Execution

def sizeAddAt (width a b : ℕ) : ℕ := (a + b) % 2 ^ width

def sizeMulAt (width a b : ℕ) : ℕ := a * b % 2 ^ width

/-- `a_pot_resize` where `size_t` has the given width. -/
def aPotResizeAt (width : ℕ) (E : Env) (newSize : ℕ) (st : PotState) :
    Except Fault (Bool × PotState) :=
  if newSize < st.pot.alloced then .ok (true, st)
  else do
    let newSize := if newSize < st.pot.num then st.pot.num else newSize
    let start := if st.pot.alloced ≠ 0 then st.pot.alloced else 1
    let sizeToRealloc ← doubleSize width newSize (doubleFuel width) start
    let (array, world) ← aReallocFree E st.pot.array
      (sizeMulAt width sizeofPointer (sizeAddAt width sizeToRealloc 1))
      st.world
    match array with
    | none =>
        return (false, ⟨{ st.pot with alloced := 0, array := none }, world⟩)
    | some block =>
        return (true,
          ⟨{ st.pot with alloced := sizeToRealloc, array := some block },
            world⟩)

/-- The pot `a_pot_init` resizes. -/
def freshPot (before : Before) : APot where
  num := 0
  alloced := 0
  before := before
  array := none

def aPotInitAt (width : ℕ) (E : Env) (before : Option Before) (size : ℕ)
    (st : PotState) : Except Fault (Bool × PotState) :=
  match before with
  | none => do
      let world ← aErrorCode E .alib aErrorInvalidOp st.world
      return (false, { st with world := world })
  | some before => do
      let (_, st) ← aPotResizeAt width E size ⟨freshPot before, st.world⟩
      return (true, st)

def aPotInsertAt (width : ℕ) (E : Env) (ptr : Ptr) (st : PotState) :
    Except Fault (Bool × PotState) := do
  let (resized, st) ← aPotResizeAt width E (sizeAddAt width st.pot.num 1) st
  if resized = false then return (false, st)
  else
    let num := sizeAddAt width st.pot.num 1
    let block ← arrayOf st.pot
    let block ← block.write num ptr
    let block ← bubbleUp st.pot.before (num + 1) num block
    return (true, { st with pot :=
      { st.pot with num := num, array := some block } })

/-- The calls of the pot with `size_t` of the given width and pointers of
eight bytes. -/
def potStepAt (width : ℕ) (E : Env) (before : Before) (st : PotState) :
    PotOp → Except Fault (PotOut × PotState)
  | .init size => do
      let (returned, st) ← aPotInitAt width E (some before) size st
      return (.pot returned, st)
  | .resize newSize => do
      let (returned, st) ← aPotResizeAt width E newSize st
      return (.pot returned, st)
  | .insert ptr => do
      let (returned, st) ← aPotInsertAt width E ptr st
      return (.pot returned, st)
  | .removeTop => do
      let (ret, st) ← aPotRemoveTop st
      return (.value ret, st)
  | .cleanup => .ok (.unit, aPotCleanup st)

theorem aPotResizeAt_64 : aPotResizeAt 64 = aPotResize := rfl

theorem potStepAt_64 : potStepAt 64 = potStep := by
  funext E before st op
  cases op <;> rfl

section Calls

variable {E : Env} {before : Before} {st after : PotState}

theorem Block.write_bytes {block written : Block} {i : ℕ} {v : Ptr}
    (h : block.write i v = .ok written) : written.bytes = block.bytes := by
  unfold Block.write at h
  split at h
  · cases h
    rfl
  · cases h

theorem aSwapXor_bytes {block swapped : Block} {i j : ℕ}
    (h : aSwapXor block i j = .ok swapped) :
    swapped.bytes = block.bytes := by
  obtain ⟨_, _, h⟩ := bind_eq_ok_iff.mp h
  obtain ⟨_, _, h⟩ := bind_eq_ok_iff.mp h
  obtain ⟨first, hfirst, h⟩ := bind_eq_ok_iff.mp h
  obtain ⟨_, _, h⟩ := bind_eq_ok_iff.mp h
  obtain ⟨_, _, h⟩ := bind_eq_ok_iff.mp h
  obtain ⟨second, hsecond, h⟩ := bind_eq_ok_iff.mp h
  obtain ⟨_, _, h⟩ := bind_eq_ok_iff.mp h
  obtain ⟨_, _, hthird⟩ := bind_eq_ok_iff.mp h
  rw [Block.write_bytes hthird, Block.write_bytes hsecond,
    Block.write_bytes hfirst]

theorem bubbleUp_bytes {fuel pos : ℕ} {block bubbled : Block}
    (h : bubbleUp before fuel pos block = .ok bubbled) :
    bubbled.bytes = block.bytes := by
  induction fuel generalizing pos block with
  | zero => cases h
  | succ fuel ih =>
      rw [bubbleUp] at h
      by_cases hpos : pos = 0
      · rw [if_pos hpos] at h
        cases h
        rfl
      · rw [if_neg hpos] at h
        obtain ⟨value, _, h⟩ := bind_eq_ok_iff.mp h
        obtain ⟨parent, _, h⟩ := bind_eq_ok_iff.mp h
        by_cases hbefore : before value parent = false
        · rw [if_pos hbefore] at h
          cases h
          rfl
        · rw [if_neg hbefore] at h
          obtain ⟨swapped, hswap, h⟩ := bind_eq_ok_iff.mp h
          rw [ih h, aSwapXor_bytes hswap]

theorem bubbleDownFrom_bytes {num fuel pos : ℕ} {block bubbled : Block}
    (h : bubbleDownFrom before num fuel pos block = .ok bubbled) :
    bubbled.bytes = block.bytes := by
  induction fuel generalizing pos block with
  | zero => cases h
  | succ fuel ih =>
      rw [bubbleDownFrom] at h
      by_cases hleaf : num < pos * 2
      · rw [if_pos hleaf] at h
        cases h
        rfl
      · rw [if_neg hleaf] at h
        obtain ⟨child, _, h⟩ := bind_eq_ok_iff.mp h
        obtain ⟨below, _, h⟩ := bind_eq_ok_iff.mp h
        obtain ⟨value, _, h⟩ := bind_eq_ok_iff.mp h
        by_cases hbefore : before below value
        · rw [if_pos hbefore] at h
          obtain ⟨swapped, hswap, h⟩ := bind_eq_ok_iff.mp h
          rw [ih h, aSwapXor_bytes hswap]
        · rw [if_neg hbefore] at h
          exact ih h

theorem bubbleDown_bytes {num : ℕ} {block bubbled : Block}
    (h : bubbleDown before num block = .ok bubbled) :
    bubbled.bytes = block.bytes := by
  unfold bubbleDown at h
  split at h
  · exact bubbleDownFrom_bytes h
  · cases h
    rfl

theorem arrayOf_eq_ok {pot : APot} {block : Block}
    (h : arrayOf pot = .ok block) : pot.array = some block := by
  unfold arrayOf at h
  split at h
  · cases h
  · next found hfound =>
      cases h
      exact hfound

/-- The same array with other values. -/
def SameArray (array array' : Option Block) : Prop :=
  ∃ block block', array = some block ∧ array' = some block' ∧
    block'.bytes = block.bytes

/-- An insertion that completes is a resize and, if that returns the pot, one
value more in the same array. -/
theorem aPotInsertAt_cases {width : ℕ} {ptr : Ptr} {returned : Bool}
    (hinsert : aPotInsertAt width E ptr st = .ok (returned, after)) :
    ∃ resized, aPotResizeAt width E (sizeAddAt width st.pot.num 1) st =
        .ok (returned, resized) ∧
      ((returned = false ∧ after = resized) ∨
        (returned = true ∧ after.pot.alloced = resized.pot.alloced ∧
          after.pot.num = sizeAddAt width resized.pot.num 1 ∧
          SameArray resized.pot.array after.pot.array)) := by
  unfold aPotInsertAt at hinsert
  obtain ⟨⟨room, resized⟩, hresize, hinsert⟩ := bind_eq_ok_iff.mp hinsert
  cases room with
  | false =>
      cases hinsert
      exact ⟨_, hresize, Or.inl ⟨rfl, rfl⟩⟩
  | true =>
      simp only [Bool.true_eq_false, if_false] at hinsert
      obtain ⟨block, hblock, hinsert⟩ := bind_eq_ok_iff.mp hinsert
      obtain ⟨written, hwrite, hinsert⟩ := bind_eq_ok_iff.mp hinsert
      obtain ⟨bubbled, hbubble, hreturn⟩ := bind_eq_ok_iff.mp hinsert
      cases hreturn
      refine ⟨resized, hresize, Or.inr ⟨rfl, rfl, rfl, block, bubbled,
        arrayOf_eq_ok hblock, rfl, ?_⟩⟩
      rw [bubbleUp_bytes hbubble, Block.write_bytes hwrite]

/-- A removal that completes finds the pot empty or takes one value out of the
array. -/
theorem aPotRemoveTop_cases {ret : Ptr}
    (hremove : aPotRemoveTop st = .ok (ret, after)) :
    after = st ∨
      (after.pot.alloced = st.pot.alloced ∧
        after.pot.num = st.pot.num - 1 ∧
        SameArray st.pot.array after.pot.array) := by
  unfold aPotRemoveTop at hremove
  by_cases hzero : st.pot.num = 0
  · rw [if_pos hzero] at hremove
    cases hremove
    exact Or.inl rfl
  · rw [if_neg hzero] at hremove
    obtain ⟨block, hblock, hremove⟩ := bind_eq_ok_iff.mp hremove
    obtain ⟨top, _, hremove⟩ := bind_eq_ok_iff.mp hremove
    obtain ⟨last, _, hremove⟩ := bind_eq_ok_iff.mp hremove
    obtain ⟨moved, hmove, hremove⟩ := bind_eq_ok_iff.mp hremove
    obtain ⟨bubbled, hbubble, hreturn⟩ := bind_eq_ok_iff.mp hremove
    cases hreturn
    refine Or.inr ⟨rfl, rfl, block, bubbled, arrayOf_eq_ok hblock, rfl, ?_⟩
    rw [bubbleDown_bytes hbubble, Block.write_bytes hmove]

end Calls

section Width

variable {w newSize : ℕ} {E : Env} {before : Before} {st after : PotState}

/-- The loop `while(size_to_realloc < new_size) size_to_realloc *= 2;` of a
resize is not entered or ends. -/
def LoopEnds (width newSize : ℕ) (pot : APot) : Prop :=
  newSize < pot.alloced ∨
    ∃ fuel sizeToRealloc,
      doubleSize width (if newSize < pot.num then pot.num else newSize) fuel
        (if pot.alloced ≠ 0 then pot.alloced else 1) = .ok sizeToRealloc

/-- The capacity is a power of two of the `size_t`, and no more values are
counted than the largest of these. -/
structure PowerCapacity (w : ℕ) (pot : APot) : Prop where
  alloced : pot.alloced = 0 ∨ ∃ k ≤ w, pot.alloced = 2 ^ k
  num : pot.num ≤ 2 ^ w

theorem PowerCapacity.start_eq {pot : APot} (h : PowerCapacity w pot) :
    ∃ k ≤ w, (if pot.alloced ≠ 0 then pot.alloced else 1) = 2 ^ k := by
  rcases h.alloced with hzero | ⟨k, hk, halloced⟩
  · exact ⟨0, Nat.zero_le w, by simp [hzero]⟩
  · have hpos : pot.alloced ≠ 0 := by
      rw [halloced]
      exact (Nat.two_pow_pos k).ne'
    exact ⟨k, hk, by rw [if_pos hpos, halloced]⟩

theorem PowerCapacity.alloced_le {pot : APot} (h : PowerCapacity w pot) :
    pot.alloced ≤ 2 ^ w := by
  rcases h.alloced with hzero | ⟨k, hk, halloced⟩
  · rw [hzero]
    exact Nat.zero_le _
  · rw [halloced]
    exact Nat.pow_le_pow_right (by omega) hk

theorem powerCapacity_fresh (w : ℕ) (before : Before) :
    PowerCapacity w (freshPot before) :=
  ⟨Or.inl rfl, Nat.zero_le _⟩

/-- Doubling a power of two reaches the size exactly when some power of two of
the `size_t` does. -/
theorem doubleSize_ok_iff {k : ℕ} (hk : k ≤ w) :
    (∃ fuel sizeToRealloc,
      doubleSize (w + 1) newSize fuel (2 ^ k) = .ok sizeToRealloc) ↔
      newSize ≤ 2 ^ w := by
  constructor
  · intro hends
    rcases hends with ⟨fuel, sizeToRealloc, hends⟩
    by_contra hnew
    rw [doubleSize_diverges (Nat.lt_of_not_le hnew) fuel k hk] at hends
    cases hends
  · intro hnew
    obtain ⟨m, hm, _⟩ := doubleSize_pow hnew (w + 1) k hk (by omega)
    exact ⟨w + 1, 2 ^ m, hm⟩

theorem PowerCapacity.loopEnds_iff {pot : APot} (h : PowerCapacity w pot) :
    LoopEnds (w + 1) newSize pot ↔ newSize ≤ 2 ^ w := by
  obtain ⟨k, hk, hstart⟩ := h.start_eq
  unfold LoopEnds
  rw [hstart, doubleSize_ok_iff hk]
  have halloced := h.alloced_le
  have hnum := h.num
  constructor
  · intro hends
    rcases hends with hlt | hends
    · exact hlt.le.trans halloced
    · split at hends <;> omega
  · intro hnew
    right
    split <;> omega

/-- A resize that found no room and got an array: the capacity is the first
power of two, from the old capacity on, that covers the size and the values. -/
structure Regrown (w newSize m : ℕ) (pot pot' : APot) (block : Block) :
    Prop where
  le_width : m ≤ w
  array : pot'.array = some block
  bytes : block.bytes =
    sizeMulAt (w + 1) sizeofPointer (sizeAddAt (w + 1) (2 ^ m) 1)
  alloced : pot'.alloced = 2 ^ m
  size_le : newSize ≤ 2 ^ m
  num_le : pot.num ≤ 2 ^ m
  least : 2 ^ m ≤ max pot.alloced 1 ∨ 2 ^ m < 2 * max newSize pot.num

/-- What a resize that returns has done: there was room, or the growth was
refused and no array is left, or the pot has grown. -/
theorem PowerCapacity.resize_cases (h : PowerCapacity w st.pot)
    {returned : Bool}
    (hresize : aPotResizeAt (w + 1) E newSize st = .ok (returned, after)) :
    (returned = true ∧ newSize < st.pot.alloced ∧ after = st) ∨
      (after.pot.num = st.pot.num ∧
        ((returned = false ∧ after.pot.array = none ∧
            after.pot.alloced = 0) ∨
          (returned = true ∧ ∃ m block,
            Regrown w newSize m st.pot after.pot block))) := by
  unfold aPotResizeAt at hresize
  by_cases hlt : newSize < st.pot.alloced
  · rw [if_pos hlt] at hresize
    cases hresize
    left
    exact ⟨rfl, hlt, rfl⟩
  · right
    rw [if_neg hlt] at hresize
    obtain ⟨sizeToRealloc, hdouble, hresize⟩ := bind_eq_ok_iff.mp hresize
    obtain ⟨⟨array, world⟩, hrealloc, hreturn⟩ := bind_eq_ok_iff.mp hresize
    cases array with
    | none =>
        cases hreturn
        exact ⟨rfl, Or.inl ⟨rfl, rfl, rfl⟩⟩
    | some block =>
        cases hreturn
        have hbytes := aReallocFree_bytes hrealloc
        obtain ⟨k, hk, hstart⟩ := h.start_eq
        have hold : 2 ^ k ≤ max st.pot.alloced 1 := by
          rw [← hstart]
          split <;> omega
        rw [hstart] at hdouble
        have hbound := (doubleSize_ok_iff hk).mp ⟨_, _, hdouble⟩
        obtain ⟨m, hm, _, hmw, hreached, hleast⟩ :=
          doubleSize_pow hbound (doubleFuel (w + 1)) k hk
            (by simp only [doubleFuel]; omega)
        have hsize : sizeToRealloc = 2 ^ m := by
          rw [hm] at hdouble
          exact (Except.ok.inj hdouble).symm
        subst hsize
        refine ⟨rfl, Or.inr ⟨rfl, m, block, ?_⟩⟩
        constructor
        · exact hmw
        · rfl
        · exact hbytes
        · rfl
        · split at hreached <;> omega
        · split at hreached <;> omega
        · rcases hleast with hmk | hless
          · left
            rw [hmk]
            exact hold
          · right
            split at hless <;> omega

/-- A resize that returns keeps the capacity a power of two and the number of
values; the size asked for is one the loop ends for. -/
theorem PowerCapacity.resize (h : PowerCapacity w st.pot) {returned : Bool}
    (hresize : aPotResizeAt (w + 1) E newSize st = .ok (returned, after)) :
    PowerCapacity w after.pot ∧ after.pot.num = st.pot.num ∧
      (returned = true → newSize ≤ 2 ^ w) := by
  rcases h.resize_cases hresize with
    ⟨_, hlt, heq⟩ | ⟨hnum, ⟨hreturned, _, halloced⟩ | ⟨_, m, block, hgrown⟩⟩
  · subst heq
    exact ⟨h, rfl, fun _ => hlt.le.trans h.alloced_le⟩
  · have hcapacity : PowerCapacity w after.pot :=
      ⟨Or.inl halloced, hnum ▸ h.num⟩
    exact ⟨hcapacity, hnum, fun hroom => by simp [hreturned] at hroom⟩
  · have hcapacity : PowerCapacity w after.pot :=
      ⟨Or.inr ⟨m, hgrown.le_width, hgrown.alloced⟩, hnum ▸ h.num⟩
    refine ⟨hcapacity, hnum, fun _ => hgrown.size_le.trans ?_⟩
    exact Nat.pow_le_pow_right (by omega) hgrown.le_width

theorem PowerCapacity.insert (h : PowerCapacity w st.pot) {ptr : Ptr}
    {returned : Bool}
    (hinsert : aPotInsertAt (w + 1) E ptr st = .ok (returned, after)) :
    PowerCapacity w after.pot := by
  obtain ⟨resized, hresize, hafter⟩ := aPotInsertAt_cases hinsert
  obtain ⟨hcapacity, hnum, hroom⟩ := h.resize hresize
  rcases hafter with ⟨_, heq⟩ | ⟨hreturned, halloced, hcount, _⟩
  · rw [heq]
    exact hcapacity
  · constructor
    · rw [halloced]
      exact hcapacity.alloced
    · rw [hcount, hnum]
      exact hroom hreturned

theorem PowerCapacity.removeTop (h : PowerCapacity w st.pot) {ret : Ptr}
    (hremove : aPotRemoveTop st = .ok (ret, after)) :
    PowerCapacity w after.pot := by
  rcases aPotRemoveTop_cases hremove with heq | ⟨halloced, hnum, _⟩
  · rw [heq]
    exact h
  · constructor
    · rw [halloced]
      exact h.alloced
    · rw [hnum]
      exact (Nat.sub_le _ 1).trans h.num

theorem aPotInitAt_capacity {size : ℕ} {returned : Bool}
    (hinit : aPotInitAt (w + 1) E (some before) size st =
      .ok (returned, after)) : PowerCapacity w after.pot := by
  obtain ⟨⟨resized, st'⟩, hresize, hreturn⟩ := bind_eq_ok_iff.mp hinit
  cases hreturn
  exact ((powerCapacity_fresh w before).resize hresize).1

theorem potStepAt_capacity {op : PotOp} {out : PotOut}
    (h : PowerCapacity w st.pot)
    (hstep : potStepAt (w + 1) E before st op = .ok (out, after)) :
    PowerCapacity w after.pot := by
  cases op with
  | init size =>
      obtain ⟨⟨returned, st'⟩, hinit, hreturn⟩ := bind_eq_ok_iff.mp hstep
      cases hreturn
      exact aPotInitAt_capacity hinit
  | resize newSize =>
      obtain ⟨⟨returned, st'⟩, hresize, hreturn⟩ := bind_eq_ok_iff.mp hstep
      cases hreturn
      exact (h.resize hresize).1
  | insert ptr =>
      obtain ⟨⟨returned, st'⟩, hinsert, hreturn⟩ := bind_eq_ok_iff.mp hstep
      cases hreturn
      exact h.insert hinsert
  | removeTop =>
      obtain ⟨⟨ret, st'⟩, hremove, hreturn⟩ := bind_eq_ok_iff.mp hstep
      cases hreturn
      exact h.removeTop hremove
  | cleanup =>
      cases hstep
      exact ⟨Or.inl rfl, h.num⟩

def CapacityInv (w : ℕ) (config : PotConfig) : Prop :=
  PowerCapacity w config.state.pot

theorem powerCapacity_of_run {size : ℕ} {ops : List PotOp}
    {config : PotConfig}
    (hrun : run (potStepAt (w + 1) E before) (Config.initial st)
      (.init size :: ops) = .ok config) :
    PowerCapacity w config.state.pot := by
  obtain ⟨first, hfirst, hrest⟩ := run_cons_eq_ok_iff.mp hrun
  obtain ⟨out, hinit, _⟩ := Config.step_eq_ok_iff.mp hfirst
  obtain ⟨⟨returned, st'⟩, hinit, hreturn⟩ := bind_eq_ok_iff.mp hinit
  have hstart : CapacityInv w first := by
    have hstate : st' = first.state := (Prod.mk.inj (Except.ok.inj hreturn)).2
    unfold CapacityInv
    rw [← hstate]
    exact aPotInitAt_capacity hinit
  have hstep : ∀ config op after, CapacityInv w config → True →
      config.step (potStepAt (w + 1) E before) op = .ok after →
      CapacityInv w after := by
    intro config op after hinv _ hstep
    obtain ⟨out, hnext, _⟩ := Config.step_eq_ok_iff.mp hstep
    exact potStepAt_capacity hinv hnext
  exact inv_of_run hstep hstart
    (meets_of_forall (fun _ _ _ => trivial) first) hrest

/-- In every pot reached by a run, and in the one `a_pot_init` starts from, the
loop ends for exactly the sizes up to the largest power of two of the
`size_t`. -/
theorem aPotResize_loopEnds_iff {size : ℕ} {ops : List PotOp}
    {config : PotConfig}
    (hrun : run (potStepAt (w + 1) E before) (Config.initial st)
      (.init size :: ops) = .ok config) (newSize : ℕ) :
    (LoopEnds (w + 1) newSize config.state.pot ↔ newSize ≤ 2 ^ w) ∧
      (LoopEnds (w + 1) newSize (freshPot before) ↔ newSize ≤ 2 ^ w) :=
  ⟨(powerCapacity_of_run hrun).loopEnds_iff,
    (powerCapacity_fresh w before).loopEnds_iff⟩

end Width

/-- A run on an allocator that grants everything. -/
theorem grownPot_run : ∃ config,
    run (potStepAt 64 (filledEnv 0) aPotLtIntptr) (Config.initial blankState)
      [.init 0, .insert 5, .insert 3] = .ok config := by
  refine ⟨_, rfl⟩

theorem aPotResize_loopEnds_run : ∃ config,
    run (potStepAt 64 (filledEnv 0) aPotLtIntptr) (Config.initial blankState)
      [.init 0, .insert 5, .insert 3] = .ok config ∧
    ∀ newSize, (LoopEnds 64 newSize config.state.pot ↔ newSize ≤ 2 ^ 63) ∧
      (LoopEnds 64 newSize (freshPot aPotLtIntptr) ↔ newSize ≤ 2 ^ 63) := by
  obtain ⟨config, hrun⟩ := grownPot_run
  exact ⟨config, hrun, aPotResize_loopEnds_iff (w := 63) hrun⟩

/-- A size just above the largest power of two is never reached. -/
theorem aPotResize_loop_diverges : ∃ config,
    run (potStepAt 64 (filledEnv 0) aPotLtIntptr) (Config.initial blankState)
      [.init 0, .insert 5, .insert 3] = .ok config ∧
    ¬ LoopEnds 64 (2 ^ 63 + 1) config.state.pot := by
  obtain ⟨config, hrun⟩ := grownPot_run
  refine ⟨config, hrun, ?_⟩
  have hcapacity : PowerCapacity 63 config.state.pot :=
    powerCapacity_of_run hrun
  intro hends
  have hle := hcapacity.loopEnds_iff.mp hends
  omega

section Room

variable {E : Env} {newSize : ℕ} {st after : PotState}

/-- The representation of a pot: without an array there is no capacity, and
values that a refused growth has lost are still counted. -/
def PotRep (pot : APot) : Prop :=
  pot.num ≤ maxAlloced ∧
    ((pot.array = none ∧ pot.alloced = 0) ∨ ∃ k block, PotRoom pot k block)

/-- The capacity recorded covers the size and the values, and the block
requested last covers the capacity. -/
structure ArrayCovers (newSize : ℕ) (pot : APot) : Prop where
  size_le : newSize ≤ pot.alloced
  num_le : pot.num ≤ pot.alloced
  block : ∃ block, pot.array = some block ∧
    sizeofPointer * (pot.alloced + 1) ≤ block.bytes ∧
    ∀ i ≤ pot.alloced, block.Has i

theorem PotShape.rep {pot : APot} (h : PotShape pot) : PotRep pot := by
  rcases h with ⟨harray, halloced, hnum⟩ | ⟨k, block, h⟩
  · exact ⟨by rw [hnum]; exact Nat.zero_le _, Or.inl ⟨harray, halloced⟩⟩
  · exact ⟨h.num_le.trans h.small, Or.inr ⟨k, block, h⟩⟩

theorem PotRep.alloced_le {pot : APot} (h : PotRep pot) :
    pot.alloced ≤ maxAlloced := by
  rcases h.2 with ⟨_, halloced⟩ | ⟨k, block, h⟩
  · rw [halloced]
    exact Nat.zero_le _
  · rw [h.alloced_eq]
    exact h.small

theorem PotRep.capacity {pot : APot} (h : PotRep pot) :
    PowerCapacity 63 pot := by
  constructor
  · rcases h.2 with ⟨_, halloced⟩ | ⟨k, block, h⟩
    · exact Or.inl halloced
    · have hk : k ≤ 60 := (Nat.pow_le_pow_iff_right (by omega)).mp h.small
      exact Or.inr ⟨k, hk.trans (by omega), h.alloced_eq⟩
  · exact h.1.trans (Nat.pow_le_pow_right (by omega) (by omega))

/-- A growth to a size whose byte count does not wrap stops at a capacity whose
byte count does not wrap. -/
theorem PotRep.grown_small {pot pot' : APot} {m : ℕ} {block : Block}
    (h : PotRep pot) (hgrown : Regrown 63 newSize m pot pot' block)
    (hnew : newSize ≤ maxAlloced) : 2 ^ m ≤ maxAlloced := by
  rcases hgrown.least with hold | hless
  · have hone : 1 ≤ maxAlloced := Nat.one_le_two_pow
    exact hold.trans (max_le h.alloced_le hone)
  · exact pow_le_maxAlloced (k := 0) Nat.one_le_two_pow
      (max_le hnew h.1) (Or.inr hless)

/-- The array of a growth that does not wrap has every slot of the capacity. -/
theorem PotRep.grown_room {pot pot' : APot} {m : ℕ} {block : Block}
    (h : PotRep pot) (hgrown : Regrown 63 newSize m pot pot' block)
    (hnum : pot'.num = pot.num) (hnew : newSize ≤ maxAlloced) :
    PotRoom pot' m block := by
  constructor
  · exact hgrown.array
  · exact hgrown.alloced
  · exact h.grown_small hgrown hnew
  · exact hgrown.bytes
  · rw [hnum]
    exact hgrown.num_le

/-- A resize to a size whose byte count does not wrap keeps the
representation, whether it is granted or refused. -/
theorem PotRep.resize (h : PotRep st.pot) (hnew : newSize ≤ maxAlloced)
    {returned : Bool}
    (hresize : aPotResize E newSize st = .ok (returned, after)) :
    PotRep after.pot ∧ after.pot.num = st.pot.num ∧
      (returned = true → newSize ≤ after.pot.alloced) := by
  rcases h.capacity.resize_cases hresize with
    ⟨_, hlt, heq⟩ |
      ⟨hnum, ⟨hreturned, harray, halloced⟩ | ⟨_, m, block, hgrown⟩⟩
  · subst heq
    exact ⟨h, rfl, fun _ => hlt.le⟩
  · have hrep : PotRep after.pot := ⟨hnum ▸ h.1, Or.inl ⟨harray, halloced⟩⟩
    exact ⟨hrep, hnum, fun hroom => by simp [hreturned] at hroom⟩
  · have hrep : PotRep after.pot :=
      ⟨hnum ▸ h.1, Or.inr ⟨m, block, h.grown_room hgrown hnum hnew⟩⟩
    refine ⟨hrep, hnum, fun _ => ?_⟩
    rw [hgrown.alloced]
    exact hgrown.size_le

/-- A pot whose array only got other values, and whose count still fits. -/
theorem PotRep.of_sameArray {pot pot' : APot} (h : PotRep pot)
    (halloced : pot'.alloced = pot.alloced)
    (harray : SameArray pot.array pot'.array)
    (hnum : pot'.num ≤ pot.alloced) : PotRep pot' := by
  rcases harray with ⟨block, block', hblock, hblock', hbytes⟩
  refine ⟨hnum.trans h.alloced_le, Or.inr ?_⟩
  rcases h.2 with ⟨hnone, _⟩ | ⟨k, old, hroom⟩
  · rw [hnone] at hblock
    cases hblock
  · have hsame : block = old :=
      Option.some.inj (hblock.symm.trans hroom.array_eq)
    subst hsame
    refine ⟨k, block', hblock', halloced.trans hroom.alloced_eq, hroom.small,
      hbytes.trans hroom.bytes_eq, ?_⟩
    rw [← hroom.alloced_eq]
    exact hnum

theorem PotRep.insert (h : PotRep st.pot) (hnum : st.pot.num < maxAlloced)
    {ptr : Ptr} {returned : Bool}
    (hinsert : aPotInsert E ptr st = .ok (returned, after)) :
    PotRep after.pot := by
  obtain ⟨resized, hresize, hafter⟩ := aPotInsertAt_cases hinsert
  have hadd : sizeAddAt 64 st.pot.num 1 = st.pot.num + 1 :=
    sizeAdd_of_lt (by unfold maxAlloced at hnum; omega)
  rw [hadd, aPotResizeAt_64] at hresize
  obtain ⟨hrep, hsame, hroom⟩ := h.resize hnum hresize
  rcases hafter with ⟨_, heq⟩ | ⟨hreturned, halloced, hcount, harray⟩
  · rw [heq]
    exact hrep
  · refine hrep.of_sameArray halloced harray ?_
    rw [hcount, hsame, hadd]
    exact hroom hreturned

theorem PotRep.removeTop (h : PotRep st.pot) {ret : Ptr}
    (hremove : aPotRemoveTop st = .ok (ret, after)) : PotRep after.pot := by
  rcases aPotRemoveTop_cases hremove with heq | ⟨halloced, hnum, harray⟩
  · rw [heq]
    exact h
  · refine h.of_sameArray halloced harray ?_
    rcases harray with ⟨block, _, hblock, _⟩
    rcases h.2 with ⟨hnone, _⟩ | ⟨k, old, hroom⟩
    · rw [hnone] at hblock
      cases hblock
    · rw [hnum, hroom.alloced_eq]
      exact (Nat.sub_le _ 1).trans hroom.num_le

/-- The array of a pot with room covers the sizes up to the capacity. -/
theorem PotRoom.covers {pot : APot} {k : ℕ} {block : Block}
    (h : PotRoom pot k block) (hnew : newSize ≤ pot.alloced) :
    ArrayCovers newSize pot := by
  constructor
  · exact hnew
  · rw [h.alloced_eq]
    exact h.num_le
  · refine ⟨block, h.array_eq, ?_, fun i hi => ?_⟩
    · rw [h.alloced_eq, h.bytes_eq, arrayBytes_of_le h.small, sizeofPointer]
    · exact has_of_bytes h.bytes_eq h.small (h.alloced_eq ▸ hi)

/-- The array of a growth whose byte count wraps is one pointer long. -/
theorem Regrown.not_covers {pot pot' : APot} {m : ℕ} {block : Block}
    (h : Regrown 63 newSize m pot pot' block) (hnew : maxAlloced < newSize) :
    ¬ ArrayCovers newSize pot' := by
  intro hcovers
  rcases hcovers.block with ⟨covered, hcovered, hroom, _⟩
  have hsame : block = covered :=
    Option.some.inj (h.array.symm.trans hcovered)
  have hbytes : block.bytes = arrayBytes (2 ^ m) := h.bytes
  have hwrapped : arrayBytes (2 ^ m) = 8 :=
    arrayBytes_of_gt h.le_width (hnew.trans_le h.size_le)
  rw [← hsame, hbytes, hwrapped, h.alloced, sizeofPointer] at hroom
  have hpos := Nat.two_pow_pos m
  omega

/-- A resize that returns the pot leaves an array which covers the recorded
capacity exactly for the sizes whose byte count does not wrap. -/
theorem aPotResize_covers_iff (hrep : PotRep st.pot)
    (hresize : aPotResize E newSize st = .ok (true, after)) :
    ArrayCovers newSize after.pot ↔ newSize ≤ maxAlloced := by
  rcases hrep.capacity.resize_cases hresize with
    ⟨_, hlt, heq⟩ | ⟨hnum, ⟨hrefused, _⟩ | ⟨_, m, block, hgrown⟩⟩
  · subst heq
    refine ⟨fun _ => hlt.le.trans hrep.alloced_le, fun _ => ?_⟩
    rcases hrep.2 with ⟨_, hzero⟩ | ⟨k, block, hroom⟩
    · omega
    · exact hroom.covers hlt.le
  · cases hrefused
  · constructor
    · intro hcovers
      by_contra hnew
      exact hgrown.not_covers (Nat.lt_of_not_le hnew) hcovers
    · intro hnew
      have hroom := hrep.grown_room hgrown hnum hnew
      apply hroom.covers
      rw [hgrown.alloced]
      exact hgrown.size_le

/-- No size asked for is above the largest capacity that does not wrap. -/
def SmallSizes (config : PotConfig) : PotOp → Prop
  | .init size => size ≤ maxAlloced
  | .resize newSize => newSize ≤ maxAlloced
  | .insert _ => config.state.pot.num < maxAlloced
  | _ => True

def RepInv (config : PotConfig) : Prop := PotRep config.state.pot

theorem aPotInit_rep {before : Before} {size : ℕ} {returned : Bool}
    (hsize : size ≤ maxAlloced)
    (hinit : aPotInit E (some before) size st = .ok (returned, after)) :
    PotRep after.pot := by
  obtain ⟨⟨resized, st'⟩, hresize, hreturn⟩ := bind_eq_ok_iff.mp hinit
  cases hreturn
  have hfresh : PotRep (freshPot before) :=
    PotShape.rep (Or.inl ⟨rfl, rfl, rfl⟩)
  exact (hfresh.resize hsize hresize).1

theorem repInv_step {before : Before} (config : PotConfig) (op : PotOp)
    (final : PotConfig) (hinv : RepInv config) (hsmall : SmallSizes config op)
    (hstep : config.step (potStep E before) op = .ok final) :
    RepInv final := by
  obtain ⟨out, hnext, _⟩ := Config.step_eq_ok_iff.mp hstep
  unfold RepInv
  generalize final.state = reached at hnext
  cases op with
  | init size =>
      obtain ⟨⟨returned, st'⟩, hinit, hreturn⟩ := bind_eq_ok_iff.mp hnext
      cases hreturn
      exact aPotInit_rep hsmall hinit
  | resize newSize =>
      obtain ⟨⟨returned, st'⟩, hresize, hreturn⟩ := bind_eq_ok_iff.mp hnext
      cases hreturn
      exact (PotRep.resize hinv hsmall hresize).1
  | insert ptr =>
      obtain ⟨⟨returned, st'⟩, hinsert, hreturn⟩ := bind_eq_ok_iff.mp hnext
      cases hreturn
      exact PotRep.insert hinv hsmall hinsert
  | removeTop =>
      obtain ⟨⟨ret, st'⟩, hremove, hreturn⟩ := bind_eq_ok_iff.mp hnext
      cases hreturn
      exact PotRep.removeTop hinv hremove
  | cleanup =>
      cases hnext
      exact ⟨hinv.1, Or.inl ⟨rfl, rfl⟩⟩

/-- Every pot that calls with small sizes reach from an initialised one has
the representation. -/
theorem potRep_of_run {before : Before} {config final : PotConfig}
    {ops : List PotOp} (hrep : PotRep config.state.pot)
    (hsmall : Meets (potStep E before) SmallSizes config ops)
    (hrun : run (potStep E before) config ops = .ok final) :
    PotRep final.state.pot :=
  inv_of_run repInv_step hrep hsmall hrun

/-- A pot of two values and two slots doubles twice to hold five. -/
theorem aPotResize_covers_doubled : ∃ held after,
    run (potStep (filledEnv 0) aPotLtIntptr) (Config.initial blankState)
        [.init 0, .insert 7, .insert 3] = .ok held ∧
      held.state.pot.num = 2 ∧ held.state.pot.alloced = 2 ∧
      aPotResize (filledEnv 0) 5 held.state = .ok (true, after) ∧
      after.pot.alloced = 8 ∧
      (ArrayCovers 5 after.pot ↔ 5 ≤ maxAlloced) := by
  obtain ⟨held, hrun, hnum, halloced, after, hresize, hdoubled⟩ :
      ∃ held, run (potStep (filledEnv 0) aPotLtIntptr)
          (Config.initial blankState) [.init 0, .insert 7, .insert 3] =
            .ok held ∧
        held.state.pot.num = 2 ∧ held.state.pot.alloced = 2 ∧
        ∃ after, aPotResize (filledEnv 0) 5 held.state = .ok (true, after) ∧
          after.pot.alloced = 8 := ⟨_, rfl, rfl, rfl, _, rfl, rfl⟩
  have hrep : PotRep held.state.pot := by
    refine potRep_of_run (PotShape.rep (Or.inl ⟨rfl, rfl, rfl⟩)) ?_ hrun
    refine ⟨Nat.zero_le _, ?_⟩
    intro first hfirst
    cases hfirst
    refine ⟨Nat.two_pow_pos 60, ?_⟩
    intro second hsecond
    cases hsecond
    exact ⟨Nat.one_lt_two_pow (by omega), fun _ _ => trivial⟩
  exact ⟨held, after, hrun, hnum, halloced, hresize, hdoubled,
    aPotResize_covers_iff hrep hresize⟩

/-- One value more than the largest safe capacity: the byte count wraps to
eight and the pot records a capacity of `2 ^ 61` slots. -/
theorem aPotResize_wraps : ∃ after,
    aPotResize (filledEnv 0) (2 ^ 60 + 1)
        ⟨freshPot aPotLtIntptr, blankState.world⟩ = .ok (true, after) ∧
      PotRep (freshPot aPotLtIntptr) ∧ after.pot.alloced = 2 ^ 61 ∧
      ¬ ArrayCovers (2 ^ 60 + 1) after.pot := by
  obtain ⟨after, hafter, hbytes, halloced⟩ : ∃ after,
      aPotResize (filledEnv 0) (2 ^ 60 + 1)
        ⟨freshPot aPotLtIntptr, blankState.world⟩ = .ok (true, after) ∧
      (∀ block, after.pot.array = some block → block.bytes = 8) ∧
      after.pot.alloced = 2 ^ 61 := by
    refine ⟨_, rfl, ?_, rfl⟩
    intro block hblock
    cases hblock
    rfl
  refine ⟨after, hafter, PotShape.rep (Or.inl ⟨rfl, rfl, rfl⟩), halloced, ?_⟩
  intro hcovers
  rcases hcovers.block with ⟨block, hblock, hroom, _⟩
  rw [hbytes block hblock, halloced, sizeofPointer] at hroom
  omega

end Room

end Pot
end Alib
