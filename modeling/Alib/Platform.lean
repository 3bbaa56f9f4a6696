import Mathlib.Tactic

/-!
# The C platform under the library

The models assume an LP64 platform: `size_t`, `intptr_t` and pointers have 64
bits, `int` and `unsigned int` have 32.  A `void *` handed in by a caller is a
64-bit word.  A block obtained from the allocator is named by the number of
the request that obtained it, so every successful request yields a new name;
`none` is `NULL`.  What the C standard leaves undefined, and a loop that never
ends, is a `Fault`.
-/

namespace Alib

abbrev Ptr := BitVec 64

abbrev Addr := ℕ

inductive Fault where
  | nullPointer
  | danglingPointer
  | outOfBounds
  | shiftOverflow
  | signedOverflow
  | nullCallback
  | divergence
  deriving DecidableEq, Repr

def sizeofPointer : ℕ := 8

/-- Wrapping `size_t` arithmetic. -/
def sizeAdd (a b : ℕ) : ℕ := (a + b) % 2 ^ 64

def sizeMul (a b : ℕ) : ℕ := a * b % 2 ^ 64

theorem sizeAdd_of_lt {a b : ℕ} (h : a + b < 2 ^ 64) :
    sizeAdd a b = a + b := Nat.mod_eq_of_lt h

theorem sizeMul_of_lt {a b : ℕ} (h : a * b < 2 ^ 64) :
    sizeMul a b = a * b := Nat.mod_eq_of_lt h

/-- The second and the third assignment of an exclusive-or exchange. -/
theorem xor_second (a b : Ptr) : b ^^^ (a ^^^ b) = a := by
  rw [BitVec.xor_comm a b, ← BitVec.xor_assoc, BitVec.xor_self,
    BitVec.zero_xor]

theorem xor_first (a b : Ptr) : (a ^^^ b) ^^^ a = b := by
  rw [BitVec.xor_comm a b, BitVec.xor_assoc, BitVec.xor_self,
    BitVec.xor_zero]

@[simp] theorem ok_bind {ε α β : Type} (a : α) (f : α → Except ε β) :
    (Except.ok a >>= f) = f a := rfl

@[simp] theorem error_bind {ε α β : Type} (e : ε) (f : α → Except ε β) :
    (Except.error e >>= f) = .error e := rfl

@[simp] theorem pure_eq_ok {ε α : Type} (a : α) :
    (pure a : Except ε α) = .ok a := rfl

theorem bind_eq_ok_iff {ε α β : Type} {x : Except ε α} {f : α → Except ε β}
    {b : β} : (x >>= f) = .ok b ↔ ∃ a, x = .ok a ∧ f a = .ok b := by
  cases x with
  | error e => simp
  | ok a => simp

/-- Dereferencing a pointer to a node: `NULL` and a node that is not live
both fault. -/
def load {N : Type*} (mem : Addr → Option N) : Option Addr → Except Fault N
  | none => .error .nullPointer
  | some a =>
      match mem a with
      | none => .error .danglingPointer
      | some node => .ok node

theorem load_of_eq {N : Type*} {mem : Addr → Option N} {a : Addr} {node : N}
    (h : mem a = some node) : load mem (some a) = .ok node := by
  simp [load, h]

def store {N : Type*} (mem : Addr → Option N) (a : Addr) (node : N) :
    Addr → Option N :=
  Function.update mem a (some node)

@[simp] theorem store_same {N : Type*} (mem : Addr → Option N)
    (a : Addr) (node : N) : store mem a node a = some node := by
  simp [store]

theorem store_of_ne {N : Type*} (mem : Addr → Option N)
    {a b : Addr} (node : N) (h : b ≠ a) : store mem a node b = mem b := by
  simp [store, h]

end Alib
