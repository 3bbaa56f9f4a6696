import Mathlib.Tactic
import Mathlib.Data.Nat.Digits.Lemmas

/-!
# Numerals with the most significant digit in front

Two numerals of the same length are ordered as their values are, by the first
digit in which they differ.
-/

namespace Alib
namespace Positional

def value (base : ℕ) (digits : List ℕ) : ℕ :=
  Nat.ofDigits base digits.reverse

/-- The difference of the first digits that differ. -/
def firstDifference : List ℕ → List ℕ → ℤ
  | d :: ds, e :: es =>
      if d = e then firstDifference ds es else (d : ℤ) - e
  | _, _ => 0

variable {base : ℕ} {ds es : List ℕ}

@[simp] theorem value_nil : value base [] = 0 := rfl

theorem value_cons (d : ℕ) (ds : List ℕ) :
    value base (d :: ds) = value base ds + base ^ ds.length * d := by
  rw [value, List.reverse_cons, Nat.ofDigits_append, List.length_reverse,
    Nat.ofDigits_singleton, value]

theorem value_lt (hbase : 1 < base) (hds : ∀ d ∈ ds, d < base) :
    value base ds < base ^ ds.length := by
  have hlt := Nat.ofDigits_lt_base_pow_length hbase
    (l := ds.reverse) fun d hd => hds d (List.mem_reverse.mp hd)
  rwa [List.length_reverse] at hlt

theorem firstDifference_swap (ds es : List ℕ) :
    firstDifference es ds = -firstDifference ds es := by
  induction ds generalizing es with
  | nil => cases es <;> rfl
  | cons d ds ih =>
      cases es with
      | nil => rfl
      | cons e es =>
          by_cases heq : d = e
          · simp only [firstDifference, heq, if_true]
            exact ih es
          · simp only [firstDifference, heq, Ne.symm heq, if_false]
            omega

/-- A larger digit in front outweighs whatever follows. -/
theorem value_cons_lt (hbase : 1 < base) {d e : ℕ}
    (hlength : ds.length = es.length) (hds : ∀ d ∈ ds, d < base)
    (hlt : d < e) : value base (d :: ds) < value base (e :: es) := by
  have hrest := value_lt hbase hds
  rw [value_cons, value_cons, hlength]
  rw [hlength] at hrest
  calc value base ds + base ^ es.length * d
      < base ^ es.length + base ^ es.length * d := by omega
    _ = base ^ es.length * (d + 1) := by ring
    _ ≤ base ^ es.length * e := Nat.mul_le_mul_left _ hlt
    _ ≤ value base es + base ^ es.length * e := Nat.le_add_left _ _

theorem firstDifference_neg_iff (hbase : 1 < base)
    (hlength : ds.length = es.length) (hds : ∀ d ∈ ds, d < base)
    (hes : ∀ e ∈ es, e < base) :
    firstDifference ds es < 0 ↔ value base ds < value base es := by
  induction ds generalizing es with
  | nil =>
      have hnil : es = [] := List.length_eq_zero_iff.mp hlength.symm
      simp [hnil, firstDifference]
  | cons d ds ih =>
      cases es with
      | nil => cases hlength
      | cons e es =>
          have hlen : ds.length = es.length := Nat.succ.inj hlength
          have hdsRest : ∀ d ∈ ds, d < base := fun d hd =>
            hds d (List.mem_cons_of_mem _ hd)
          have hesRest : ∀ e ∈ es, e < base := fun e he =>
            hes e (List.mem_cons_of_mem _ he)
          rcases lt_trichotomy d e with hlt | heq | hgt
          · have hvalue := @value_cons_lt base ds es hbase d e hlen hdsRest hlt
            simp only [firstDifference, hlt.ne, if_false]
            exact iff_of_true (by omega) hvalue
          · rw [value_cons, value_cons, hlen, heq, Nat.add_lt_add_iff_right]
            simp only [firstDifference, if_true]
            exact ih hlen hdsRest hesRest
          · have hvalue := @value_cons_lt base es ds hbase e d hlen.symm hesRest hgt
            simp only [firstDifference, hgt.ne', if_false]
            exact iff_of_false (by omega) (Nat.lt_asymm hvalue)

theorem firstDifference_pos_iff (hbase : 1 < base)
    (hlength : ds.length = es.length) (hds : ∀ d ∈ ds, d < base)
    (hes : ∀ e ∈ es, e < base) :
    0 < firstDifference ds es ↔ value base es < value base ds := by
  rw [← firstDifference_neg_iff hbase hlength.symm hes hds,
    firstDifference_swap, neg_pos]

end Positional
end Alib
