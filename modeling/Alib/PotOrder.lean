import Alib.Pot
import Alib.SiftHeap

/-!
# The sifting loops of the pot

`bubble_up` and `bubble_down` are proved against the heap order of numbered
slots.  The exclusive-or exchange is an exchange because its two slots always
differ.  Every slot up to the number of values takes part in `bubble_up`, slot
zero included; `bubble_down` never touches slot zero.
-/

namespace Alib
namespace Pot

open SiftHeap

def Comes (before : Before) (a b : Ptr) : Prop := before a b = true

/-- The same block with other contents. -/
def Block.withWords (block : Block) (word : ℕ → Ptr) : Block :=
  { block with word := word }

theorem Block.read_of_has {block : Block} {i : ℕ} (h : block.Has i) :
    block.read i = .ok (block.word i) := by
  simp [Block.read, h]

theorem Block.write_of_has {block : Block} {i : ℕ} (v : Ptr)
    (h : block.Has i) :
    block.write i v =
      .ok (Block.withWords block (Function.update block.word i v)) := by
  simp [Block.write, Block.withWords, h]

@[simp] theorem Block.withWords_has (block : Block) (word : ℕ → Ptr)
    (i : ℕ) : (Block.withWords block word).Has i ↔ block.Has i := Iff.rfl

@[simp] theorem Block.withWords_word (block : Block) (word : ℕ → Ptr) :
    (Block.withWords block word).word = word := rfl

@[simp] theorem Block.withWords_withWords (block : Block)
    (word word' : ℕ → Ptr) :
    Block.withWords (Block.withWords block word) word' =
      Block.withWords block word' := rfl

theorem Block.has_of_le {block : Block} {i j : ℕ} (h : block.Has j)
    (hij : i ≤ j) : block.Has i := by
  unfold Alib.Block.Has sizeofPointer at *
  omega

theorem aSwapXor_eq {block : Block} {i j : ℕ}
    (hi : block.Has i) (hj : block.Has j) (hne : i ≠ j) :
    aSwapXor block i j =
      .ok (Block.withWords block (block.word ∘ Equiv.swap i j)) := by
  have hne' : j ≠ i := Ne.symm hne
  simp only [aSwapXor, Block.read_of_has, Block.write_of_has, hi, hj,
    Block.withWords_has, ok_bind, Block.withWords_withWords,
    Block.withWords_word]
  congr 2
  funext k
  by_cases hki : k = i
  · subst hki
    simp only [Function.comp_apply, Equiv.swap_apply_left,
      Function.update_self, Function.update_of_ne hne,
      Function.update_of_ne hne', xor_second, xor_first]
  · by_cases hkj : k = j
    · subst hkj
      simp only [Function.comp_apply, Equiv.swap_apply_right,
        Function.update_self, Function.update_of_ne hne', xor_second]
    · simp [hki, hkj, Equiv.swap_apply_of_ne_of_ne hki hkj]

section Loops

variable {before : Before} [IsStrictWeakOrder Ptr (Comes before)]

/-- `bubble_up` restores the order of all slots.  Slot zero keeps its content
unless the moving value comes before it. -/
theorem bubbleUp_spec {n : ℕ} :
    ∀ (fuel pos : ℕ) (block : Block), pos < fuel → pos ≤ n →
      block.Has n → UpOrdered (Comes before) block.word n pos →
      ∃ word,
        bubbleUp before fuel pos block = .ok (Block.withWords block word) ∧
        Ordered (Comes before) word n ∧
        contents word 0 n = contents block.word 0 n ∧
        (¬ Comes before (block.word pos) (block.word 0) →
          word 0 = block.word 0) := by
  intro fuel
  induction fuel with
  | zero => intro pos block hfuel; omega
  | succ fuel ih =>
      intro pos block hfuel hpos hhas hup
      unfold bubbleUp
      by_cases hzero : pos = 0
      · refine ⟨block.word, by simp [hzero, Block.withWords], ?_, rfl,
          fun _ => rfl⟩
        exact hup.stop (by omega)
      · have hhasPos : block.Has pos := Block.has_of_le hhas hpos
        have hhasParent : block.Has (pos / 2) :=
          Block.has_of_le hhas (by omega)
        rw [if_neg hzero, Block.read_of_has hhasPos,
          Block.read_of_has hhasParent]
        simp only [ok_bind]
        by_cases hbefore : Comes before (block.word pos) (block.word (pos / 2))
        · have hne : pos ≠ pos / 2 := by omega
          have hrel : ¬ before (block.word pos) (block.word (pos / 2)) = false := by
            simpa [Comes] using hbefore
          rw [if_neg hrel, aSwapXor_eq hhasPos hhasParent hne]
          simp only [ok_bind]
          obtain ⟨word, hword, hordered, hcontents, hslot⟩ :=
            ih (pos / 2)
              (Block.withWords block
                (block.word ∘ Equiv.swap pos (pos / 2)))
              (by omega) (by omega) hhas
              (hup.swap (by omega) hpos hbefore)
          refine ⟨word, by simpa using hword, hordered, ?_, ?_⟩
          · rw [hcontents]
            exact contents_swap _ ⟨by omega, hpos⟩ ⟨by omega, by omega⟩
          · intro hroot
            have hparent : pos / 2 ≠ 0 := by
              intro h
              rw [h] at hbefore
              exact hroot hbefore
            have hkept : (block.word ∘ Equiv.swap pos (pos / 2)) 0 =
                block.word 0 := by
              simp [Equiv.swap_apply_of_ne_of_ne (Ne.symm hzero)
                (Ne.symm hparent)]
            have hmoved : (block.word ∘ Equiv.swap pos (pos / 2)) (pos / 2) =
                block.word pos := by
              simp
            rw [Block.withWords_word, hkept, hmoved] at hslot
            exact hslot hroot
        · have hrel : before (block.word pos) (block.word (pos / 2)) = false := by
            simpa [Comes] using hbefore
          rw [if_pos hrel]
          exact ⟨block.word, rfl, hup.stop (fun _ => hbefore), rfl,
            fun _ => rfl⟩

theorem minChildPos_spec {num pos : ℕ} {block : Block}
    (hhas : block.Has num) (hchild : pos * 2 ≤ num) :
    ∃ child, minChildPos before num pos block = .ok child ∧
      FirstChild (Comes before) block.word num pos child := by
  have hhasFirst : block.Has (pos * 2) := Block.has_of_le hhas hchild
  unfold minChildPos
  by_cases hsecond : pos * 2 + 1 ≤ num
  · have hhasSecond : block.Has (pos * 2 + 1) :=
      Block.has_of_le hhas hsecond
    rw [if_pos hsecond, Block.read_of_has hhasFirst,
      Block.read_of_has hhasSecond]
    simp only [ok_bind, pure_eq_ok]
    by_cases hbefore : before (block.word (pos * 2 + 1))
        (block.word (pos * 2)) = true
    · rw [if_pos hbefore]
      refine ⟨pos * 2 + 1, rfl, by omega, hsecond, ?_⟩
      intro i hone hi hparent
      have hcases : i = pos * 2 ∨ i = pos * 2 + 1 := by omega
      rcases hcases with rfl | rfl
      · exact not_of_before (r := Comes before) hbefore
      · exact not_self _
    · rw [if_neg hbefore]
      refine ⟨pos * 2, rfl, by omega, hchild, ?_⟩
      intro i hone hi hparent
      have hcases : i = pos * 2 ∨ i = pos * 2 + 1 := by omega
      rcases hcases with rfl | rfl
      · exact not_self _
      · exact hbefore
  · rw [if_neg hsecond]
    refine ⟨pos * 2, rfl, by omega, hchild, ?_⟩
    intro i hone hi hparent
    have heq : i = pos * 2 := by omega
    subst heq
    exact not_self _

theorem bubbleDownFrom_spec {num : ℕ} :
    ∀ (fuel pos : ℕ) (block : Block), 1 ≤ pos → pos ≤ num →
      num + 1 < pos + fuel → block.Has num →
      DownOrdered (Comes before) block.word num pos →
      ∃ word,
        bubbleDownFrom before num fuel pos block =
          .ok (Block.withWords block word) ∧
        Ordered (Comes before) word num ∧
        contents word 1 num = contents block.word 1 num ∧
        word 0 = block.word 0 := by
  intro fuel
  induction fuel with
  | zero => intro pos block hpos hnum hfuel; omega
  | succ fuel ih =>
      intro pos block hpos hnum hfuel hhas hdown
      unfold bubbleDownFrom
      by_cases hleaf : num < pos * 2
      · rw [if_pos hleaf]
        exact ⟨block.word, rfl, hdown.stop (by omega), rfl, rfl⟩
      · obtain ⟨child, hchildPos, hchild⟩ : ∃ child,
            minChildPos before num pos block = .ok child ∧
              FirstChild (Comes before) block.word num pos child :=
          minChildPos_spec hhas (Nat.le_of_not_lt hleaf)
        have hparent := hchild.parent
        have hle := hchild.le
        have hhasChild : block.Has child := Block.has_of_le hhas hle
        have hhasPos : block.Has pos := Block.has_of_le hhas hnum
        rw [if_neg hleaf, hchildPos]
        simp only [ok_bind, Block.read_of_has hhasChild,
          Block.read_of_has hhasPos]
        by_cases hbefore : before (block.word child) (block.word pos) = true
        · rw [if_pos hbefore, aSwapXor_eq hhasChild hhasPos (by omega)]
          simp only [ok_bind]
          obtain ⟨word, hword, hordered, hcontents, hroot⟩ :=
            ih child
              (Block.withWords block (block.word ∘ Equiv.swap child pos))
              (by omega) hle (by omega) hhas
              (hdown.swap hchild hpos hbefore)
          refine ⟨word, by simpa using hword, hordered, ?_, ?_⟩
          · rw [hcontents]
            exact contents_swap _ ⟨by omega, hle⟩ ⟨hpos, hnum⟩
          · have hne : (0 : ℕ) ≠ child := by omega
            have hne' : (0 : ℕ) ≠ pos := by omega
            rw [hroot]
            simp [Equiv.swap_apply_of_ne_of_ne hne hne']
        · rw [if_neg hbefore]
          exact ih child block (by omega) hle (by omega) hhas
            (hdown.keep hchild hpos hbefore)

theorem bubbleDown_spec {num : ℕ} {block : Block} (hhas : block.Has num)
    (hdown : DownOrdered (Comes before) block.word num 1) :
    ∃ word,
      bubbleDown before num block = .ok (Block.withWords block word) ∧
      Ordered (Comes before) word num ∧
      contents word 1 num = contents block.word 1 num ∧
      word 0 = block.word 0 := by
  unfold bubbleDown
  by_cases htwo : 1 ≤ num / 2
  · rw [if_pos htwo]
    exact bubbleDownFrom_spec (num + 1) 1 block le_rfl (by omega) (by omega)
      hhas hdown
  · rw [if_neg htwo]
    exact ⟨block.word, rfl, hdown.stop (by omega), rfl, rfl⟩

end Loops

end Pot
end Alib
