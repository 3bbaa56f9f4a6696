import Mathlib.Tactic
import Mathlib.Data.BitVec
import Mathlib.SetTheory.Cardinal.Finite

/-!
# Mixing and folding machine words

Adding a word to itself shifted left, and combining it with itself shifted
right by exclusive or, lose no information, in any width.  A hash built from
such steps separates sequences that differ at one place.  Folding a word in
chunks of its low bits carries exclusive or to exclusive or, and a map of that
kind which leaves its results alone has preimages of one size.
-/

namespace Alib
namespace Mixing

section Steps

variable {w k : ℕ}

theorem xorShift_injective (hk : 0 < k) :
    Function.Injective fun x : BitVec w => x ^^^ (x >>> k) := by
  intro x y hxy
  -- The difference of the words is its own right shift, hence zero.
  have hshift : (x ^^^ y) >>> k = x ^^^ y := by
    have hsum : (x ^^^ (x >>> k)) ^^^ (y ^^^ (y >>> k)) = 0#w :=
      BitVec.xor_eq_zero_iff.mpr hxy
    have hswap : (x ^^^ y) ^^^ ((x ^^^ y) >>> k) = 0#w := by
      rw [BitVec.ushiftRight_xor_distrib, ← hsum]
      ac_rfl
    exact (BitVec.xor_eq_zero_iff.mp hswap).symm
  have hdiv : (x ^^^ y).toNat / 2 ^ k = (x ^^^ y).toNat := by
    have hnat := congrArg BitVec.toNat hshift
    rwa [BitVec.toNat_ushiftRight, Nat.shiftRight_eq_div_pow] at hnat
  have hzero : (x ^^^ y).toNat = 0 := by
    by_contra hne
    have hlt := Nat.div_lt_self (Nat.pos_of_ne_zero hne)
      (Nat.one_lt_two_pow hk.ne')
    omega
  exact BitVec.xor_eq_zero_iff.mp (BitVec.eq_of_toNat_eq (by simpa using hzero))

theorem addShift_toNat (x : BitVec w) (k : ℕ) :
    (x + x <<< k).toNat = x.toNat * (1 + 2 ^ k) % 2 ^ w := by
  rw [BitVec.toNat_add, BitVec.toNat_shiftLeft, Nat.shiftLeft_eq,
    Nat.add_mod_mod, Nat.mul_add, Nat.mul_one]

/-- The multiplier is odd. -/
theorem addShift_injective (hk : 0 < k) :
    Function.Injective fun x : BitVec w => x + x <<< k := by
  intro x y hxy
  have hnat := congrArg BitVec.toNat hxy
  simp only [addShift_toNat] at hnat
  have hcoprime : Nat.Coprime (2 ^ w) (1 + 2 ^ k) := by
    apply Nat.Coprime.pow_left
    rw [Nat.coprime_two_left]
    exact odd_one.add_even ((Nat.even_pow' hk.ne').mpr even_two)
  have hmod : x.toNat ≡ y.toNat [MOD 2 ^ w] :=
    Nat.ModEq.cancel_right_of_coprime hcoprime hnat
  exact BitVec.eq_of_toNat_eq
    (Nat.ModEq.eq_of_lt_of_lt hmod x.isLt y.isLt)

end Steps

section Separation

variable {α σ : Type*}

/-- The sequences have one length and differ at exactly one place. -/
structure DifferAtOne (l l' : List α) : Prop where
  length_eq : l.length = l'.length
  place : ∃! i : ℕ, l[i]? ≠ l'[i]?

theorem DifferAtOne.split {l l' : List α} (h : DifferAtOne l l') :
    ∃ before a b after, a ≠ b ∧ l = before ++ a :: after ∧
      l' = before ++ b :: after := by
  rcases h with ⟨hlength, i, hi, hothers⟩
  have hil : i < l.length := by
    by_contra hge
    apply hi
    rw [List.getElem?_eq_none (by omega), List.getElem?_eq_none (by omega)]
  have hil' : i < l'.length := hlength ▸ hil
  have hbefore : l.take i = l'.take i := by
    apply List.ext_getElem?
    intro j
    rw [List.getElem?_take, List.getElem?_take]
    by_cases hj : j < i
    · rw [if_pos hj, if_pos hj]
      by_contra hne
      exact hj.ne (hothers j hne)
    · rw [if_neg hj, if_neg hj]
  have hafter : l.drop (i + 1) = l'.drop (i + 1) := by
    apply List.ext_getElem?
    intro j
    rw [List.getElem?_drop, List.getElem?_drop]
    by_contra hne
    have hj := hothers (i + 1 + j) hne
    omega
  refine ⟨l.take i, l[i], l'[i], l.drop (i + 1), ?_, ?_, ?_⟩
  · intro heq
    apply hi
    rw [List.getElem?_eq_getElem hil, List.getElem?_eq_getElem hil', heq]
  · rw [List.cons_getElem_drop_succ, List.take_append_drop]
  · rw [hbefore, hafter, List.cons_getElem_drop_succ, List.take_append_drop]

theorem differAtOne_of_split (before after : List α) {a b : α}
    (hab : a ≠ b) : DifferAtOne (before ++ a :: after) (before ++ b :: after) := by
  refine ⟨by simp, before.length, by simpa using hab, ?_⟩
  intro i hi
  by_contra hne
  apply hi
  rcases Nat.lt_or_gt_of_ne hne with hlt | hgt
  · rw [List.getElem?_append_left hlt, List.getElem?_append_left hlt]
  · obtain ⟨j, rfl⟩ := Nat.exists_eq_add_of_lt hgt
    rw [List.getElem?_append_right (by omega),
      List.getElem?_append_right (by omega), Nat.add_assoc,
      Nat.add_sub_cancel_left, List.getElem?_cons_succ,
      List.getElem?_cons_succ]

theorem foldl_injective {step : σ → α → σ}
    (hstate : ∀ a, Function.Injective fun s => step s a) (l : List α) :
    Function.Injective fun s => l.foldl step s := by
  induction l with
  | nil => exact Function.injective_id
  | cons a rest ih =>
      intro s t hst
      exact hstate a (ih hst)

/-- A fold whose step is injective in both arguments separates them. -/
theorem DifferAtOne.foldl_ne {l l' : List α} (h : DifferAtOne l l')
    {step : σ → α → σ}
    (hstate : ∀ a, Function.Injective fun s => step s a)
    (hvalue : ∀ s, Function.Injective (step s)) (s : σ) :
    l.foldl step s ≠ l'.foldl step s := by
  obtain ⟨before, a, b, after, hab, rfl, rfl⟩ := h.split
  intro heq
  rw [List.foldl_append, List.foldl_append, List.foldl_cons,
    List.foldl_cons] at heq
  exact hab (hvalue _ (foldl_injective hstate after heq))

end Separation

section Fold

variable {w : ℕ}

/-- The exclusive or of `n` chunks of `bits` bits each, from the low end. -/
def foldChunks (mask : BitVec w) (bits : ℕ) : ℕ → BitVec w → BitVec w
  | 0, _ => 0#w
  | n + 1, x => (x &&& mask) ^^^ foldChunks mask bits n (x >>> bits)

theorem and_xor_distrib (x y mask : BitVec w) :
    (x ^^^ y) &&& mask = (x &&& mask) ^^^ (y &&& mask) := by
  ext i hi
  simp [Bool.and_xor_distrib_right]

theorem foldChunks_xor (mask : BitVec w) (bits n : ℕ) (x y : BitVec w) :
    foldChunks mask bits n (x ^^^ y) =
      foldChunks mask bits n x ^^^ foldChunks mask bits n y := by
  induction n generalizing x y with
  | zero => simp [foldChunks]
  | succ n ih =>
      rw [foldChunks, foldChunks, foldChunks, and_xor_distrib,
        BitVec.ushiftRight_xor_distrib, ih]
      ac_rfl

@[simp] theorem foldChunks_zero (mask : BitVec w) (bits n : ℕ) :
    foldChunks mask bits n 0#w = 0#w := by
  induction n with
  | zero => rfl
  | succ n ih => simp [foldChunks, ih]

/-- A word of one chunk is left alone. -/
theorem foldChunks_of_small {mask x : BitVec w} {bits n : ℕ}
    (hmask : x &&& mask = x) (hshift : x >>> bits = 0#w) :
    foldChunks mask bits (n + 1) x = x := by
  simp [foldChunks, hmask, hshift]

variable {f : BitVec w → BitVec w}

/-- A word is a result of the map and a word the map sends to zero. -/
def splitXor (hxor : ∀ x y, f (x ^^^ y) = f x ^^^ f y)
    (hfix : ∀ x, f (f x) = f x) :
    BitVec w ≃ {r // f r = r} × {x // f x = 0#w} where
  toFun x := (⟨f x, hfix x⟩, ⟨x ^^^ f x, by rw [hxor, hfix, BitVec.xor_self]⟩)
  invFun p := p.2.val ^^^ p.1.val
  left_inv x := by
    change (x ^^^ f x) ^^^ f x = x
    rw [BitVec.xor_assoc, BitVec.xor_self, BitVec.xor_zero]
  right_inv p := by
    rcases p with ⟨⟨r, hr⟩, ⟨x, hx⟩⟩
    have hval : f (x ^^^ r) = r := by rw [hxor, hx, hr, BitVec.zero_xor]
    refine Prod.ext (Subtype.ext hval) (Subtype.ext ?_)
    change (x ^^^ r) ^^^ f (x ^^^ r) = x
    rw [hval, BitVec.xor_assoc, BitVec.xor_self, BitVec.xor_zero]

/-- The preimages of the results are translates of the preimage of zero. -/
def translateXor (hxor : ∀ x y, f (x ^^^ y) = f x ^^^ f y) {r : BitVec w}
    (hr : f r = r) : {x // f x = r} ≃ {x // f x = 0#w} where
  toFun x := ⟨x.val ^^^ r, by rw [hxor, x.property, hr, BitVec.xor_self]⟩
  invFun x := ⟨x.val ^^^ r, by rw [hxor, x.property, hr, BitVec.zero_xor]⟩
  left_inv x := by
    refine Subtype.ext ?_
    change x.val ^^^ r ^^^ r = x.val
    rw [BitVec.xor_assoc, BitVec.xor_self, BitVec.xor_zero]
  right_inv x := by
    refine Subtype.ext ?_
    change x.val ^^^ r ^^^ r = x.val
    rw [BitVec.xor_assoc, BitVec.xor_self, BitVec.xor_zero]

theorem card_word : Nat.card (BitVec w) = 2 ^ w := by
  rw [Nat.card_congr BitVec.equivFin.toEquiv, Nat.card_eq_fintype_card,
    Fintype.card_fin]

theorem card_lt {bits : ℕ} (hbits : bits ≤ w) :
    Nat.card {x : BitVec w // x.toNat < 2 ^ bits} = 2 ^ bits := by
  have hle : 2 ^ bits ≤ 2 ^ w := Nat.pow_le_pow_right (by omega) hbits
  let e : {x : BitVec w // x.toNat < 2 ^ bits} ≃ Fin (2 ^ bits) :=
    { toFun := fun x => ⟨x.val.toNat, x.property⟩
      invFun := fun i => ⟨BitVec.ofNat w i.val, by
        rw [BitVec.toNat_ofNat, Nat.mod_eq_of_lt (i.isLt.trans_le hle)]
        exact i.isLt⟩
      left_inv := fun x => Subtype.ext (by simp)
      right_inv := fun i => Fin.ext (by
        simp [Nat.mod_eq_of_lt (i.isLt.trans_le hle)]) }
  rw [Nat.card_congr e, Nat.card_eq_fintype_card, Fintype.card_fin]

/-- All preimages have the size that the number of results leaves them. -/
theorem card_preimage (hxor : ∀ x y, f (x ^^^ y) = f x ^^^ f y)
    (hfix : ∀ x, f (f x) = f x) {r : BitVec w} (hr : f r = r) :
    Nat.card {r // f r = r} * Nat.card {x // f x = r} = 2 ^ w := by
  rw [Nat.card_congr (translateXor hxor hr), ← Nat.card_prod,
    ← Nat.card_congr (splitXor hxor hfix), card_word]

end Fold

end Mixing
end Alib
