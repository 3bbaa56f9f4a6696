import Alib.PotGrowth

/-!
# What one call does to a pot

`PotHolds` describes a pot with an array: the capacity and the bytes behind
it, the heap order over all slots and the values held in the slots from one
up.  Each call is given one specification against it.
-/

namespace Alib
namespace Pot

open SiftHeap

def heldValues (pot : APot) : Multiset Ptr :=
  match pot.array with
  | none => 0
  | some block => contents block.word 1 pot.num

/-- The array of a pot: its size, its order and its values. -/
structure PotHolds (before : Before) (pot : APot) (k : ℕ) (block : Block)
    (values : Multiset Ptr) : Prop where
  before_eq : pot.before = before
  width : k ≤ 63
  alloced_eq : pot.alloced = 2 ^ k
  array_eq : pot.array = some block
  bytes_eq : block.bytes = arrayBytes (2 ^ k)
  num_le : pot.num ≤ 2 ^ k
  empty : maxAlloced < 2 ^ k → pot.num = 0
  ordered : Ordered (Comes before) block.word pot.num
  held : contents block.word 1 pot.num = values

section Calls

variable {before : Before} {st : PotState} {k : ℕ} {block : Block}
  {values : Multiset Ptr}

theorem PotHolds.heldValues_eq
    (h : PotHolds before st.pot k block values) :
    heldValues st.pot = values := by
  simp [heldValues, h.array_eq, h.held]

theorem has_of_bytes {block : Block} {alloced i : ℕ}
    (hbytes : block.bytes = arrayBytes alloced)
    (halloced : alloced ≤ maxAlloced) (hi : i ≤ alloced) :
    block.Has i := by
  unfold Alib.Block.Has sizeofPointer
  rw [hbytes, arrayBytes_of_le halloced]
  omega

theorem not_has_of_wrapped {block : Block} {m i : ℕ}
    (hbytes : block.bytes = arrayBytes (2 ^ m)) (hm : m ≤ 63)
    (hwrap : maxAlloced < 2 ^ m) (hi : 1 ≤ i) : ¬ block.Has i := by
  unfold Alib.Block.Has sizeofPointer
  rw [hbytes, arrayBytes_of_gt hm hwrap]
  omega

theorem PotHolds.has_of_pos (h : PotHolds before st.pot k block values)
    (hpos : 0 < st.pot.num) : block.Has st.pot.num := by
  have hsmall : 2 ^ k ≤ maxAlloced := by
    by_contra hgt
    have hzero := h.empty (Nat.lt_of_not_le hgt)
    omega
  exact has_of_bytes h.bytes_eq hsmall h.num_le

variable {E : Env} (hgrant : E.GrantsAll)

include hgrant in
/-- A resize to a size whose byte count does not wrap keeps the slots in use
and reaches the size. -/
theorem PotHolds.resize (h : PotHolds before st.pot k block values)
    (hsmall : 2 ^ k ≤ maxAlloced) {newSize : ℕ}
    (hnew : newSize ≤ maxAlloced) :
    ∃ m room world,
      aPotResize E newSize st =
        .ok (true,
          ⟨{ st.pot with alloced := 2 ^ m, array := some room }, world⟩) ∧
      m ≤ 63 ∧ 2 ^ m ≤ maxAlloced ∧ room.bytes = arrayBytes (2 ^ m) ∧
      2 ^ k ≤ 2 ^ m ∧ newSize ≤ 2 ^ m ∧
      ∀ i, i ≤ st.pot.num → room.word i = block.word i := by
  by_cases hlt : newSize < st.pot.alloced
  · refine ⟨k, block, st.world, ?_, h.width, hsmall, h.bytes_eq, le_rfl, ?_,
      fun _ _ => rfl⟩
    · rw [← h.alloced_eq, ← h.array_eq]
      simp [aPotResize, hlt]
    · rw [← h.alloced_eq]
      omega
  · have hle : st.pot.alloced ≤ newSize := Nat.le_of_not_lt hlt
    have hnum : st.pot.num ≤ newSize :=
      h.num_le.trans (h.alloced_eq ▸ hle)
    have hbound : newSize ≤ 2 ^ 63 := by
      unfold maxAlloced at hnew
      omega
    obtain ⟨m, hkm, hm, hroom, hleast, hresize⟩ :=
      aPotResize_grow hgrant h.width (Or.inl h.alloced_eq) hle hnum hbound
    refine ⟨m, _, _, hresize, hm, pow_le_maxAlloced hsmall hnew hleast, rfl,
      Nat.pow_le_pow_right (by omega) hkm, hroom, ?_⟩
    intro i hi
    have hhas : block.Has i := has_of_bytes h.bytes_eq hsmall
      (hi.trans h.num_le)
    simp [reallocWord, h.array_eq, hhas]

include hgrant in
theorem PotHolds.makeRoom (h : PotHolds before st.pot k block values)
    (hsmall : 2 ^ k ≤ maxAlloced) (hnum : st.pot.num < maxAlloced) :
    ∃ m room world,
      aPotResize E (sizeAdd st.pot.num 1) st =
        .ok (true,
          ⟨{ st.pot with alloced := 2 ^ m, array := some room }, world⟩) ∧
      m ≤ 63 ∧ 2 ^ m ≤ maxAlloced ∧ room.bytes = arrayBytes (2 ^ m) ∧
      st.pot.num + 1 ≤ 2 ^ m ∧
      ∀ i, i ≤ st.pot.num → room.word i = block.word i := by
  have hadd : sizeAdd st.pot.num 1 = st.pot.num + 1 :=
    sizeAdd_of_lt (by unfold maxAlloced at hnum; omega)
  obtain ⟨m, room, world, hresize, hm, hmSmall, hbytes, _, hroom, hkept⟩ :=
    h.resize hgrant hsmall hnum
  rw [hadd]
  exact ⟨m, room, world, hresize, hm, hmSmall, hbytes, hroom, hkept⟩

include hgrant in
/-- What one insertion does when the byte count does not wrap: the heap order
holds again over all slots, slot zero included, and slot zero changes only
for a value that comes before it. -/
theorem PotHolds.insert [IsStrictWeakOrder Ptr (Comes before)]
    (h : PotHolds before st.pot k block values)
    (hsmall : 2 ^ k ≤ maxAlloced) (hnum : st.pot.num < maxAlloced)
    (ptr : Ptr) :
    ∃ st' m block',
      aPotInsert E ptr st = .ok (true, st') ∧
      PotHolds before st'.pot m block'
        (contents block'.word 1 (st.pot.num + 1)) ∧
      st'.pot.num = st.pot.num + 1 ∧
      contents block'.word 0 (st.pot.num + 1) =
        ptr ::ₘ contents block.word 0 st.pot.num ∧
      (¬ Comes before ptr (block.word 0) →
        block'.word 0 = block.word 0) := by
  obtain ⟨m, room, world, hresize, hm, hmSmall, hbytes, hroom, hkept⟩ :=
    h.makeRoom hgrant hsmall hnum
  have hadd : sizeAdd st.pot.num 1 = st.pot.num + 1 :=
    sizeAdd_of_lt (by unfold maxAlloced at hnum; omega)
  have hhas : room.Has (st.pot.num + 1) :=
    has_of_bytes hbytes hmSmall hroom
  let written := Function.update room.word (st.pot.num + 1) ptr
  have hwritten : ∀ i, i ≤ st.pot.num → written i = block.word i := by
    intro i hi
    have hne : i ≠ st.pot.num + 1 := by omega
    simp [written, hne, hkept i hi]
  have hup : UpOrdered (Comes before) written (st.pot.num + 1)
      (st.pot.num + 1) := by
    constructor
    · intro i hone hi hne
      rw [hwritten i (by omega), hwritten (i / 2) (by omega)]
      exact h.ordered i hone (by omega)
    · intro i hone hi hchild
      omega
  obtain ⟨word, hbubble, hordered, hcontents, hslot⟩ :=
    bubbleUp_spec (st.pot.num + 1 + 1) (st.pot.num + 1)
      (Block.withWords room written) (by omega) le_rfl hhas hup
  have hnew : contents written 0 (st.pot.num + 1) =
      ptr ::ₘ contents block.word 0 st.pot.num := by
    rw [contents_succ written (by omega)]
    congr 1
    · simp [written]
    · exact contents_congr fun i _ hi => hwritten i hi
  have hat : written (st.pot.num + 1) = ptr := by simp [written]
  refine ⟨⟨{ st.pot with
      num := st.pot.num + 1
      alloced := 2 ^ m
      array := some (Block.withWords room word) }, world⟩,
    m, Block.withWords room word, ?_, ?_, rfl, hcontents.trans hnew, ?_⟩
  · unfold aPotInsert
    rw [hresize]
    simp only [ok_bind, hadd, arrayOf, Block.write_of_has ptr hhas,
      h.before_eq, Bool.true_eq_false, if_false, pure_eq_ok]
    rw [hbubble]
    rfl
  · exact ⟨h.before_eq, hm, rfl, rfl, hbytes, hroom,
      fun hgt => absurd hmSmall (Nat.not_le.mpr hgt), hordered, rfl⟩
  · intro hbefore
    rw [Block.withWords_word, hat, hwritten 0 (Nat.zero_le _)] at hslot
    exact hslot hbefore

include hgrant in
/-- Once the byte count has wrapped, or is about to, an insertion writes
outside the array. -/
theorem PotHolds.insert_outOfBounds
    (h : PotHolds before st.pot k block values)
    (hlarge : maxAlloced < 2 ^ k ∨ maxAlloced ≤ st.pot.num) (ptr : Ptr) :
    aPotInsert E ptr st = .error .outOfBounds := by
  by_cases hwrap : maxAlloced < 2 ^ k
  · have hzero : st.pot.num = 0 := h.empty hwrap
    have hadd : sizeAdd st.pot.num 1 = 1 := by
      rw [hzero]
      rfl
    have hlt : 1 < st.pot.alloced := by
      rw [h.alloced_eq]
      unfold maxAlloced at hwrap
      omega
    have hresize : aPotResize E 1 st = .ok (true, st) := by
      simp [aPotResize, hlt]
    have hnot : ¬ block.Has 1 :=
      not_has_of_wrapped h.bytes_eq h.width hwrap le_rfl
    simp [aPotInsert, hadd, hresize, arrayOf, h.array_eq, Block.write, hnot]
  · have hnum : st.pot.num = maxAlloced := by
      have hle := h.num_le
      omega
    have hadd : sizeAdd st.pot.num 1 = maxAlloced + 1 := by
      rw [hnum]
      rfl
    have halloced : st.pot.alloced ≤ maxAlloced + 1 := by
      rw [h.alloced_eq]
      omega
    obtain ⟨m, hkm, hm, hroom, hleast, hresize⟩ :=
      aPotResize_grow hgrant h.width (Or.inl h.alloced_eq) halloced
        (by omega) (by unfold maxAlloced; omega)
    have hnot : ∀ word, ¬ Alib.Block.Has
        ⟨st.world.requests, arrayBytes (2 ^ m), word⟩ (maxAlloced + 1) :=
      fun word => not_has_of_wrapped rfl hm (by omega) (by omega)
    simp [aPotInsert, hadd, hresize, arrayOf, Block.write, hnot]

theorem PotHolds.removeTop [IsStrictWeakOrder Ptr (Comes before)]
    (h : PotHolds before st.pot k block values) (hpos : 0 < st.pot.num) :
    ∃ st' block',
      aPotRemoveTop st = .ok (block.word 1, st') ∧
      PotHolds before st'.pot k block' (values.erase (block.word 1)) ∧
      st'.pot.num = st.pot.num - 1 ∧
      block'.word 0 = block.word 0 ∧
      ∀ v ∈ values, before v (block.word 1) = false := by
  obtain ⟨num, hnum⟩ : ∃ num, st.pot.num = num + 1 :=
    ⟨st.pot.num - 1, by omega⟩
  have hhas : block.Has (num + 1) := hnum ▸ h.has_of_pos hpos
  have hordered : Ordered (Comes before) block.word (num + 1) :=
    hnum ▸ h.ordered
  have hheld : contents block.word 1 (num + 1) = values := hnum ▸ h.held
  let moved := Function.update block.word 1 (block.word (num + 1))
  have hhasNum : (Block.withWords block moved).Has num :=
    Block.has_of_le hhas (Nat.le_succ num)
  obtain ⟨word, hbubble, hword, hcontents, hslot⟩ :=
    bubbleDown_spec hhasNum hordered.replace_top
  have hvalues : contents word 1 num = values.erase (block.word 1) := by
    rw [hcontents, ← hheld,
      ← contents_replace_first block.word (show 1 ≤ num + 1 by omega),
      Multiset.erase_cons_head]
    rfl
  refine ⟨⟨{ st.pot with
      num := num
      array := some (Block.withWords block word) }, st.world⟩,
    Block.withWords block word, ?_, ?_, by simp [hnum], ?_, ?_⟩
  · have hwrite := Block.write_of_has (block.word (num + 1))
      (Block.has_of_le hhas (show 1 ≤ num + 1 by omega))
    have hbubble' : bubbleDown before num (Block.withWords block
        (Function.update block.word 1 (block.word (num + 1)))) =
          .ok (Block.withWords block word) := hbubble
    simp [aPotRemoveTop, hnum, arrayOf, h.array_eq,
      Block.read_of_has hhas, hwrite, h.before_eq, hbubble',
      Block.read_of_has (Block.has_of_le hhas (show 1 ≤ num + 1 by omega))]
  · refine ⟨h.before_eq, h.width, h.alloced_eq, rfl, h.bytes_eq, ?_, ?_,
      hword, hvalues⟩
    · have hle := h.num_le
      show num ≤ 2 ^ k
      omega
    · intro hgt
      have hzero := h.empty hgt
      omega
  · rw [Block.withWords_word, hslot]
    simp [moved]
  · intro v hv
    rw [← hheld] at hv
    obtain ⟨i, hone, hi, rfl⟩ := mem_contents.mp hv
    have htop := hordered.top i hone hi
    simpa [Comes] using htop

include hgrant in
theorem aPotInit_spec (before : Before) {size : ℕ}
    (hsize : size ≤ 2 ^ 63) (st : PotState) :
    ∃ st' m block',
      aPotInit E (some before) size st = .ok (true, st') ∧
      PotHolds before st'.pot m block' 0 ∧
      st'.pot.num = 0 ∧
      (size ≤ maxAlloced → 2 ^ m ≤ maxAlloced) := by
  let start : PotState :=
    ⟨{ num := 0, alloced := 0, before := before, array := none }, st.world⟩
  have hempty : start.pot.alloced = 0 := rfl
  obtain ⟨m, _, hm, _, hleast, hresize⟩ :=
    aPotResize_grow hgrant (k := 0) (by omega) (Or.inr ⟨hempty, rfl⟩)
      (Nat.zero_le _) (Nat.zero_le _) hsize
  let block : Block := ⟨st.world.requests, arrayBytes (2 ^ m),
    reallocWord none (E.garbage st.world.requests)⟩
  refine ⟨⟨{ start.pot with alloced := 2 ^ m, array := some block },
      { st.world with requests := st.world.requests + 1 }⟩, m, block, ?_,
    ⟨rfl, hm, rfl, rfl, rfl, Nat.zero_le _, fun _ => rfl, ?_, ?_⟩, rfl,
    fun hsmall => pow_le_maxAlloced (by unfold maxAlloced; omega) hsmall
      hleast⟩
  · unfold aPotInit
    simp only
    rw [hresize]
    rfl
  · intro i hone hi
    have hi' : i ≤ 0 := hi
    omega
  · exact contents_of_lt (by simp [start])

theorem aPotInit_diverges {size : ℕ} (hsize : 2 ^ 63 < size)
    (st : PotState) :
    aPotInit E (some before) size st = .error .divergence := by
  have hdouble := doubleSize_diverges (w := 63) hsize (doubleFuel 64) 0
    (by omega)
  rw [pow_zero] at hdouble
  simp [aPotInit, aPotResize, hdouble]

end Calls

end Pot
end Alib
