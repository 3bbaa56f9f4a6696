import Alib.CString
import Alib.Positional
import Mathlib.Order.Lex

/-!
# The order of strings

`strcmp`, and the comparators for keys of `collect.c` that call it.  The C
library fixes the sign of the result only; here the result is the difference
of the first bytes that differ.
-/

namespace Alib

open Positional

def strcmp : List Byte → List Byte → Except Fault ℤ
  | b :: s, c :: t =>
      if b ≠ c then .ok ((b.toNat : ℤ) - c.toNat)
      else if b = 0#8 then .ok 0
      else strcmp s t
  | _, _ => .error .outOfBounds

def aCollectCmpStr (a b : List Byte) : Except Fault ℤ := strcmp a b

/-- `!strcmp(a, b)` -/
def aCollectEqStr (a b : List Byte) : Except Fault Bool := do
  let order ← strcmp a b
  return decide (order = 0)

namespace CString

/-- The bytes as numbers, which strings are ordered by. -/
def reading (s : CString) : List ℕ := s.bytes.map BitVec.toNat

/-- The difference of two strings, each with its NUL. -/
def order (s t : CString) : ℤ :=
  firstDifference (s.reading ++ [0]) (t.reading ++ [0])

theorem reading_pos (s : CString) : ∀ d ∈ s.reading, 0 < d := by
  intro d hd
  obtain ⟨b, hb, rfl⟩ := List.mem_map.mp hd
  refine Nat.pos_of_ne_zero fun hzero => s.noNul ?_
  have hnul : b = 0#8 := BitVec.eq_of_toNat_eq hzero
  exact hnul ▸ hb

theorem reading_injective {s t : CString} (h : s.reading = t.reading) :
    s = t := by
  have hinj : Function.Injective (BitVec.toNat : Byte → ℕ) :=
    fun _ _ => BitVec.eq_of_toNat_eq
  exact CString.ext (List.map_injective_iff.mpr hinj h)

end CString

/-- With a zero behind them, lists of positive numbers differ as they are
ordered. -/
theorem firstDifference_zero_neg_iff {ds es : List ℕ} (hds : ∀ d ∈ ds, 0 < d)
    (hes : ∀ e ∈ es, 0 < e) :
    firstDifference (ds ++ [0]) (es ++ [0]) < 0 ↔ ds < es := by
  induction ds generalizing es with
  | nil =>
      cases es with
      | nil => simp [firstDifference]
      | cons e es =>
          have he := hes e List.mem_cons_self
          simp [firstDifference, he, he.ne]
  | cons d ds ih =>
      have hd := hds d List.mem_cons_self
      cases es with
      | nil => simp [firstDifference, hd.ne']
      | cons e es =>
          have hrest := @ih es
            (fun d hd => hds d (List.mem_cons_of_mem _ hd))
            (fun e he => hes e (List.mem_cons_of_mem _ he))
          rw [List.cons_append, List.cons_append, firstDifference,
            List.cons_lt_cons_iff]
          by_cases heq : d = e
          · simp [heq, hrest]
          · rw [if_neg heq]
            constructor
            · intro hneg
              left
              omega
            · rintro (hlt | ⟨hsame, _⟩)
              · omega
              · exact absurd hsame heq

theorem firstDifference_zero_eq_iff {ds es : List ℕ} (hds : ∀ d ∈ ds, 0 < d)
    (hes : ∀ e ∈ es, 0 < e) :
    firstDifference (ds ++ [0]) (es ++ [0]) = 0 ↔ ds = es := by
  have hlt := firstDifference_zero_neg_iff hds hes
  have hgt := firstDifference_zero_neg_iff hes hds
  rw [firstDifference_swap] at hgt
  constructor
  · intro hzero
    rcases lt_trichotomy ds es with hless | heq | hmore
    · have hneg := hlt.mpr hless
      omega
    · exact heq
    · have hneg := hgt.mpr hmore
      omega
  · intro heq
    have hnot : ¬ ds < es := by
      rw [heq]
      exact lt_irrefl es
    have hnot' : ¬ es < ds := by
      rw [heq]
      exact lt_irrefl es
    rw [← hlt] at hnot
    rw [← hgt] at hnot'
    omega

section Strcmp

variable {s t : CString} {region region' : List Byte}

theorem strcmp_holds (h : Holds region s) (h' : Holds region' t) :
    strcmp region region' = .ok (s.order t) := by
  obtain ⟨after, rfl⟩ := h
  obtain ⟨after', rfl⟩ := h'
  rcases s with ⟨bytes, hnul⟩
  rcases t with ⟨bytes', hnul'⟩
  simp only [CString.stored, CString.order, CString.reading,
    List.append_assoc, List.singleton_append]
  induction bytes generalizing bytes' with
  | nil =>
      cases bytes' with
      | nil => rfl
      | cons c bytes' =>
          have hc : 0#8 ≠ c := fun heq => hnul' (heq ▸ List.mem_cons_self)
          have hne : 0 ≠ c.toNat := fun heq =>
            hc (BitVec.eq_of_toNat_eq heq)
          simp [strcmp, firstDifference, hc, hne]
  | cons b bytes ih =>
      have hb : b ≠ 0#8 := fun heq => hnul (heq ▸ List.mem_cons_self)
      cases bytes' with
      | nil =>
          have hne : b.toNat ≠ 0 := fun heq => hb (BitVec.eq_of_toNat_eq heq)
          simp [strcmp, firstDifference, hb, hne]
      | cons c bytes' =>
          have hrest := ih (fun hmem => hnul (List.mem_cons_of_mem _ hmem))
            bytes' (fun hmem => hnul' (List.mem_cons_of_mem _ hmem))
          by_cases heq : b = c
          · subst heq
            simp only [List.cons_append, strcmp, ne_eq, not_true_eq_false,
              if_false, hb, List.map_cons, firstDifference, if_true]
            exact hrest
          · have hne : b.toNat ≠ c.toNat := fun h =>
              heq (BitVec.eq_of_toNat_eq h)
            simp [strcmp, firstDifference, heq, hne]

theorem CString.order_neg_iff (s t : CString) :
    s.order t < 0 ↔ s.reading < t.reading :=
  firstDifference_zero_neg_iff s.reading_pos t.reading_pos

theorem CString.order_swap (s t : CString) : t.order s = -s.order t :=
  firstDifference_swap _ _

theorem CString.order_pos_iff (s t : CString) :
    0 < s.order t ↔ t.reading < s.reading := by
  rw [← CString.order_neg_iff, CString.order_swap, neg_pos]

theorem CString.order_eq_zero_iff (s t : CString) :
    s.order t = 0 ↔ s = t := by
  rw [CString.order, firstDifference_zero_eq_iff s.reading_pos t.reading_pos]
  exact ⟨CString.reading_injective, fun h => h ▸ rfl⟩

end Strcmp

end Alib
