import Mathlib.Tactic
import Mathlib.Order.RelClasses
import Mathlib.Order.Interval.Finset.Nat
import Mathlib.Data.Finset.Image

/-!
# Heap order over numbered slots

Slots are numbered from `0` and slot `i / 2` is the parent of slot `i`, so
that slot `0` is the parent of slot `1` and of no other.  The relation is any
strict weak order.  `UpOrdered` and `DownOrdered` are the orders with one
position still to repair, in the two directions of repair; each is kept by an
exchange along an edge and becomes `Ordered` when the repair may stop.  The
slots of an interval are read as a multiset, which an exchange inside the
interval does not change.
-/

namespace Alib
namespace SiftHeap

variable {α : Type*}

section Contents

/-- The values in the slots `low, …, high`. -/
def contents (slot : ℕ → α) (low high : ℕ) : Multiset α :=
  (Finset.Icc low high).val.map slot

theorem mem_contents {slot : ℕ → α} {low high : ℕ} {a : α} :
    a ∈ contents slot low high ↔
      ∃ i, low ≤ i ∧ i ≤ high ∧ slot i = a := by
  simp [contents, and_assoc]

theorem contents_of_lt {slot : ℕ → α} {low high : ℕ} (h : high < low) :
    contents slot low high = 0 := by
  simp [contents, Finset.Icc_eq_empty_of_lt h]

theorem contents_congr {slot slot' : ℕ → α} {low high : ℕ}
    (h : ∀ i, low ≤ i → i ≤ high → slot i = slot' i) :
    contents slot low high = contents slot' low high := by
  apply Multiset.map_congr rfl
  intro i hi
  have hmem := Finset.mem_Icc.mp (Finset.mem_def.mpr hi)
  exact h i hmem.1 hmem.2

theorem contents_succ (slot : ℕ → α) {low high : ℕ} (h : low ≤ high + 1) :
    contents slot low (high + 1) =
      slot (high + 1) ::ₘ contents slot low high := by
  have hinsert : Finset.Icc low (high + 1) =
      Finset.cons (high + 1) (Finset.Icc low high) (by simp) := by
    ext i
    simp only [Finset.mem_Icc, Finset.mem_cons]
    omega
  simp [contents, hinsert]

theorem contents_first (slot : ℕ → α) {low high : ℕ} (h : low ≤ high) :
    contents slot low high =
      slot low ::ₘ contents slot (low + 1) high := by
  have hinsert : Finset.Icc low high =
      Finset.cons low (Finset.Icc (low + 1) high) (by simp) := by
    ext i
    simp only [Finset.mem_Icc, Finset.mem_cons]
    omega
  simp [contents, hinsert]

theorem contents_swap (slot : ℕ → α) {low high i j : ℕ}
    (hi : low ≤ i ∧ i ≤ high) (hj : low ≤ j ∧ j ≤ high) :
    contents (slot ∘ Equiv.swap i j) low high =
      contents slot low high := by
  have hperm : (Finset.Icc low high).map
      (Equiv.swap i j : Equiv.Perm ℕ).toEmbedding = Finset.Icc low high := by
    apply Finset.map_perm
    intro k hk
    have hmoved : Equiv.swap i j k ≠ k := hk
    rw [Finset.mem_coe, Finset.mem_Icc]
    by_cases hki : k = i
    · simpa [hki] using hi
    · by_cases hkj : k = j
      · simpa [hkj] using hj
      · exact absurd (Equiv.swap_apply_of_ne_of_ne hki hkj) hmoved
  calc
    contents (slot ∘ Equiv.swap i j) low high =
        ((Finset.Icc low high).map
          (Equiv.swap i j : Equiv.Perm ℕ).toEmbedding).val.map slot := by
          simp [contents, Finset.map_val]
    _ = contents slot low high := by rw [hperm, contents]

/-- Moving the last value into the first slot drops the first value. -/
theorem contents_replace_first (slot : ℕ → α) {low high : ℕ}
    (h : low ≤ high + 1) :
    slot low ::ₘ contents (Function.update slot low (slot (high + 1)))
        low high =
      contents slot low (high + 1) := by
  rw [contents_succ slot h]
  by_cases hempty : high < low
  · have heq : low = high + 1 := by omega
    subst heq
    simp [contents_of_lt]
  · have hle : low ≤ high := by omega
    have hrest : contents (Function.update slot low (slot (high + 1)))
        (low + 1) high = contents slot (low + 1) high := by
      apply contents_congr
      intro i hi _
      have hne : i ≠ low := by omega
      simp [hne]
    rw [contents_first _ hle, contents_first slot hle, hrest]
    simp [Multiset.cons_swap]

end Contents

variable (r : α → α → Prop)

def Ordered (slot : ℕ → α) (n : ℕ) : Prop :=
  ∀ i, 1 ≤ i → i ≤ n → ¬ r (slot i) (slot (i / 2))

/-- Only the edge from `pos` to its parent may be out of order. -/
structure UpOrdered (slot : ℕ → α) (n pos : ℕ) : Prop where
  off : ∀ i, 1 ≤ i → i ≤ n → i ≠ pos → ¬ r (slot i) (slot (i / 2))
  children : ∀ i, 1 ≤ i → i ≤ n → i / 2 = pos → 1 ≤ pos →
    ¬ r (slot i) (slot (pos / 2))

/-- Only the edges from `pos` to its children may be out of order. -/
structure DownOrdered (slot : ℕ → α) (n pos : ℕ) : Prop where
  off : ∀ i, 1 ≤ i → i ≤ n → i / 2 ≠ pos → ¬ r (slot i) (slot (i / 2))
  children : ∀ i, 1 ≤ i → i ≤ n → i / 2 = pos →
    ¬ r (slot i) (slot (pos / 2))

/-- No child of `pos` comes before its child `c`. -/
structure FirstChild (slot : ℕ → α) (n pos c : ℕ) : Prop where
  parent : c / 2 = pos
  le : c ≤ n
  first : ∀ i, 1 ≤ i → i ≤ n → i / 2 = pos → ¬ r (slot i) (slot c)

variable {r} {slot : ℕ → α} {n pos : ℕ}

theorem UpOrdered.stop (h : UpOrdered r slot n pos)
    (hpos : 1 ≤ pos → ¬ r (slot pos) (slot (pos / 2))) :
    Ordered r slot n := by
  intro i hone hi
  by_cases heq : i = pos
  · subst heq
    exact hpos hone
  · exact h.off i hone hi heq

theorem DownOrdered.stop (h : DownOrdered r slot n pos)
    (hpos : n < 2 * pos) : Ordered r slot n := by
  intro i hone hi
  exact h.off i hone hi (by omega)

section WeakOrder

variable [IsStrictWeakOrder α r]

theorem not_trans {a b c : α} (hab : ¬ r a b) (hbc : ¬ r b c) :
    ¬ r a c := by
  intro hac
  have hba : ¬ r b a := fun h => hbc (IsTrans.trans b a c h hac)
  have hcb : ¬ r c b := fun h => hab (IsTrans.trans a c b hac h)
  exact (IsStrictWeakOrder.incomp_trans a b c ⟨hab, hba⟩ ⟨hbc, hcb⟩).1 hac

theorem not_of_before {a b : α} (h : r a b) : ¬ r b a := fun hba =>
  Std.Irrefl.irrefl (r := r) a (IsTrans.trans a b a h hba)

theorem not_self (a : α) : ¬ r a a := Std.Irrefl.irrefl a

theorem Ordered.root (h : Ordered r slot n) :
    ∀ i, i ≤ n → ¬ r (slot i) (slot 0) := by
  intro i
  induction i using Nat.strongRecOn with
  | ind i ih =>
      intro hi
      by_cases hzero : i = 0
      · subst hzero
        exact not_self _
      · have hparent := h i (by omega) hi
        exact not_trans hparent (ih (i / 2) (by omega) (by omega))

theorem Ordered.top (h : Ordered r slot n) :
    ∀ i, 1 ≤ i → i ≤ n → ¬ r (slot i) (slot 1) := by
  intro i
  induction i using Nat.strongRecOn with
  | ind i ih =>
      intro hone hi
      by_cases heq : i = 1
      · subst heq
        exact not_self _
      · have hparent := h i hone hi
        exact not_trans hparent
          (ih (i / 2) (by omega) (by omega) (by omega))

theorem UpOrdered.swap (h : UpOrdered r slot n pos) (hpos : 1 ≤ pos)
    (hn : pos ≤ n) (hbefore : r (slot pos) (slot (pos / 2))) :
    UpOrdered r (slot ∘ Equiv.swap pos (pos / 2)) n (pos / 2) := by
  have hup : ∀ i, i ≠ pos → i ≠ pos / 2 →
      (slot ∘ Equiv.swap pos (pos / 2)) i = slot i := by
    intro i h1 h2
    simp [Equiv.swap_apply_of_ne_of_ne h1 h2]
  have hat : (slot ∘ Equiv.swap pos (pos / 2)) pos = slot (pos / 2) := by
    simp
  have hparent :
      (slot ∘ Equiv.swap pos (pos / 2)) (pos / 2) = slot pos := by
    simp
  have hsibling : ∀ i, 1 ≤ i → i ≤ n → i ≠ pos → i / 2 = pos / 2 →
      ¬ r (slot i) (slot (pos / 2)) := by
    intro i hone hi hne hsame
    have hoff := h.off i hone hi hne
    rwa [hsame] at hoff
  constructor
  · intro i hone hi hne
    by_cases hipos : i = pos
    · subst hipos
      rw [hat, hparent]
      exact not_of_before hbefore
    · rw [hup i hipos hne]
      by_cases hchild : i / 2 = pos
      · rw [hchild, hat]
        exact h.children i hone hi hchild hpos
      · by_cases hsame : i / 2 = pos / 2
        · rw [hsame, hparent]
          intro hlt
          exact hsibling i hone hi hipos hsame
            (IsTrans.trans _ _ _ hlt hbefore)
        · rw [hup (i / 2) hchild hsame]
          exact h.off i hone hi hipos
  · intro i hone hi hsame hparentPos
    have hgrand : ¬ r (slot (pos / 2)) (slot (pos / 2 / 2)) :=
      h.off (pos / 2) hparentPos (by omega) (by omega)
    rw [hup (pos / 2 / 2) (by omega) (by omega)]
    by_cases hipos : i = pos
    · subst hipos
      rw [hat]
      exact hgrand
    · rw [hup i hipos (by omega)]
      exact not_trans (hsibling i hone hi hipos hsame) hgrand

/-- Descending past a position that is already in order. -/
theorem DownOrdered.keep {c : ℕ} (h : DownOrdered r slot n pos)
    (hchild : FirstChild r slot n pos c) (hpos : 1 ≤ pos)
    (hkeep : ¬ r (slot c) (slot pos)) : DownOrdered r slot n c := by
  have hparent := hchild.parent
  constructor
  · intro i hone hi _
    by_cases hsame : i / 2 = pos
    · rw [hsame]
      exact not_trans (hchild.first i hone hi hsame) hkeep
    · exact h.off i hone hi hsame
  · intro i hone hi hsame
    have hoff := h.off i hone hi (by omega)
    rw [hsame] at hoff
    rw [hparent]
    exact not_trans hoff hkeep

theorem DownOrdered.swap {c : ℕ} (h : DownOrdered r slot n pos)
    (hchild : FirstChild r slot n pos c) (hpos : 1 ≤ pos)
    (hbefore : r (slot c) (slot pos)) :
    DownOrdered r (slot ∘ Equiv.swap c pos) n c := by
  have hparent := hchild.parent
  have hup : ∀ i, i ≠ c → i ≠ pos →
      (slot ∘ Equiv.swap c pos) i = slot i := by
    intro i h1 h2
    simp [Equiv.swap_apply_of_ne_of_ne h1 h2]
  have hat : (slot ∘ Equiv.swap c pos) c = slot pos := by simp
  have habove : (slot ∘ Equiv.swap c pos) pos = slot c := by simp
  constructor
  · intro i hone hi hne
    by_cases hsame : i / 2 = pos
    · rw [hsame, habove]
      by_cases hic : i = c
      · subst hic
        rw [hat]
        exact not_of_before hbefore
      · rw [hup i hic (by omega)]
        exact hchild.first i hone hi hsame
    · rw [hup (i / 2) hne hsame]
      by_cases hipos : i = pos
      · subst hipos
        rw [habove]
        exact h.children c (by omega) hchild.le hparent
      · rw [hup i (by omega) hipos]
        exact h.off i hone hi hsame
  · intro i hone hi hsame
    have hoff := h.off i hone hi (by omega)
    rw [hsame] at hoff
    rw [hparent, habove, hup i (by omega) (by omega)]
    exact hoff

/-- Taking the root of slots `1, …, n` away and putting the last value in its
place leaves only the edges below slot `1` to repair. -/
theorem Ordered.replace_top (h : Ordered r slot (n + 1)) :
    DownOrdered r (Function.update slot 1 (slot (n + 1))) n 1 := by
  have hother : ∀ i, i ≠ 1 →
      Function.update slot 1 (slot (n + 1)) i = slot i := by
    intro i hne
    simp [hne]
  constructor
  · intro i hone hi hne
    rw [hother (i / 2) hne]
    by_cases heq : i = 1
    · subst heq
      simpa using h.root (n + 1) le_rfl
    · rw [hother i heq]
      exact h i hone (by omega)
  · intro i hone hi hsame
    rw [hother i (by omega)]
    simpa using h.root i (by omega)

end WeakOrder

end SiftHeap
end Alib
