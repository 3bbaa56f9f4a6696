import Alib.MemoryCalls
import Alib.Execution
import Mathlib.Data.List.Forall2

/-!
# Programs over the memory functions

A program keeps its blocks in numbered pointers and changes them through the
calls of `mem.c`, `memcat_realloc` and `a_strcat_realloc`.  What it may know
about its bytes, and what became of every block it was given, is read off the
calls and the pointers they returned: the bytes of a block are known where
they were cleared or copied, and a block is held, freed, handed to `realloc`
or lost.
-/

namespace Alib
namespace Memory

open Bytes
open Execution

structure Store where
  block : ℕ → Option ByteBlock
  world : World

/-- What an argument that is read stands for. -/
inductive Given
  | bytes (data : List Byte)
  | pointer (p offset : ℕ)

/-- Every call assigns what it returns to the pointer `p`. -/
inductive MemOp
  | malloc0 (p size : ℕ)
  | memdup (p : ℕ) (data : Given) (len : ℕ)
  | memcat (p aLen : ℕ) (data : Given) (bLen : ℕ)
  | strdup (p : ℕ) (data : Given)
  | strcat (p : ℕ) (data : Option Given)
  | zero (p len : ℕ)
  | realloc (p size : ℕ)
  | reallocFree (p size : ℕ)
  | free (p : ℕ)

def Store.data (store : Store) : Given → Option Data
  | .bytes data => some (.own data)
  | .pointer p offset => (store.block p).map fun block => .inside block offset

def Store.assign (store : Store) (p : ℕ) (out : Option ByteBlock)
    (w : World) : Store :=
  ⟨Function.update store.block p out, w⟩

inductive Fate
  | freed
  | moved
  | lost
  deriving DecidableEq

/-- How often a block that met this fate was given to `free`. -/
def Fate.releases : Fate → ℕ
  | .freed => 1
  | .moved => 0
  | .lost => 0

/-- A block and those of its bytes that are known. -/
structure Held where
  addr : Addr
  known : List (Option Byte)

structure Book where
  held : ℕ → Option Held
  gone : List (Addr × Fate)
  returned : List Addr

def Book.empty : Book := ⟨fun _ => none, [], []⟩

def Book.set (book : Book) (p : ℕ) (held : Held) : Book :=
  { book with
    held := Function.update book.held p (some held)
    returned := held.addr :: book.returned }

def Book.part (book : Book) (p : ℕ) (a : Addr) (fate : Fate) : Book :=
  { book with
    held := Function.update book.held p none
    gone := (a, fate) :: book.gone }

def Book.given (book : Book) : Given → Option (List (Option Byte))
  | .bytes data => some (data.map some)
  | .pointer p offset =>
      (book.held p).map fun held => held.known.drop offset

def Book.known (book : Book) (p : ℕ) : List (Option Byte) :=
  ((book.held p).map Held.known).getD []

/-- The bytes of a block that is made this long. -/
def resized (known : List (Option Byte)) (len : ℕ) : List (Option Byte) :=
  known.take len ++ List.replicate (len - known.length) none

/-- What is in front of the first byte that is known to be NUL. -/
def knownString (known : List (Option Byte)) : List (Option Byte) :=
  known.takeWhile (· != some 0#8)

/-- The pointer was given to `realloc` with this size, which returned `ret`;
a refused block meets the fate. -/
def Book.grow (book : Book) (p size : ℕ) (fate : Fate) (ret : Option Addr)
    (known : List (Option Byte)) : Book :=
  match book.held p, ret with
  | none, none => book
  | none, some a => book.set p ⟨a, known⟩
  | some old, none =>
      book.part p old.addr (if size = 0 then .freed else fate)
  | some old, some a => (book.part p old.addr .moved).set p ⟨a, known⟩

/-- The string that a pointer holds with the given one behind it. -/
def Book.joined (book : Book) (p : ℕ) (data : Given) : List (Option Byte) :=
  knownString (book.known p) ++
    (knownString ((book.given data).getD []) ++ [some 0#8])

def Book.step (book : Book) : MemOp × Option Addr → Book
  | (.malloc0 p size, ret) =>
      match ret with
      | none => book
      | some a => book.set p ⟨a, List.replicate size (some 0#8)⟩
  | (.memdup p data len, ret) =>
      match ret with
      | none => book
      | some a => book.set p ⟨a, ((book.given data).getD []).take len⟩
  | (.memcat p aLen data bLen, ret) =>
      book.grow p (aLen + bLen) .lost ret
        (resized (book.known p) aLen ++
          ((book.given data).getD []).take bLen)
  | (.strdup p data, ret) =>
      match ret with
      | none => book
      | some a =>
          book.set p
            ⟨a, knownString ((book.given data).getD []) ++ [some 0#8]⟩
  | (.strcat _ none, _) => book
  | (.strcat p (some data), ret) =>
      book.grow p (book.joined p data).length .lost ret (book.joined p data)
  | (.zero p len, ret) =>
      match ret with
      | none => book
      | some a =>
          book.set p
            ⟨a, List.replicate len (some 0#8) ++ (book.known p).drop len⟩
  | (.realloc p size, ret) =>
      book.grow p size .lost ret (resized (book.known p) size)
  | (.reallocFree p size, ret) =>
      book.grow p size .freed ret (resized (book.known p) size)
  | (.free p, _) =>
      match book.held p with
      | none => book
      | some old => book.part p old.addr .freed

/-- The string is known to lie at the start of the bytes. -/
def KnownString (known : List (Option Byte)) (s : CString) : Prop :=
  s.stored.map some <+: known

/-- The known bytes are the bytes. -/
def Agrees (known : List (Option Byte)) (bytes : List Byte) : Prop :=
  List.Forall₂ (fun k b => ∀ x, k = some x → x = b) known bytes

section Agreement

variable {known other : List (Option Byte)} {bytes more : List Byte}

theorem Agrees.length_eq (h : Agrees known bytes) :
    known.length = bytes.length := List.Forall₂.length_eq h

theorem Agrees.append (h : Agrees known bytes) (h' : Agrees other more) :
    Agrees (known ++ other) (bytes ++ more) := List.rel_append h h'

theorem Agrees.take (h : Agrees known bytes) (len : ℕ) :
    Agrees (known.take len) (bytes.take len) := List.forall₂_take len h

theorem Agrees.drop (h : Agrees known bytes) (len : ℕ) :
    Agrees (known.drop len) (bytes.drop len) := List.forall₂_drop len h

theorem Agrees.eq_of_some {data : List Byte}
    (h : Agrees (data.map some) bytes) : data = bytes := by
  induction data generalizing bytes with
  | nil => exact (List.forall₂_nil_left_iff.mp h).symm
  | cons b rest ih =>
      cases h with
      | cons hb hrest =>
          rw [hb b rfl, ih hrest]

theorem agrees_none {bytes : List Byte} {len : ℕ}
    (hlen : bytes.length = len) : Agrees (List.replicate len none) bytes := by
  subst hlen
  induction bytes with
  | nil => exact List.Forall₂.nil
  | cons b rest ih =>
      exact List.Forall₂.cons
        (fun _ hx => absurd hx.symm (Option.some_ne_none _)) ih

theorem Agrees.resized {block : ByteBlock} (h : Agrees known block.bytes)
    (fresh : List Byte) :
    Agrees (resized known fresh.length)
      (reallocBytes (some block) fresh) := by
  refine (h.take _).append (agrees_none ?_)
  rw [List.length_drop, h.length_eq]

theorem KnownString.holds {s : CString} (h : KnownString known s)
    (hagrees : Agrees known bytes) : Holds bytes s := by
  obtain ⟨rest, hrest⟩ := h
  have hfront : Agrees (s.stored.map some) (bytes.take s.stored.length) := by
    have htake := hagrees.take s.stored.length
    rw [← hrest, List.take_left' (List.length_map _)] at htake
    exact htake
  have hstored : s.stored = bytes.take s.stored.length := hfront.eq_of_some
  refine ⟨bytes.drop s.stored.length, ?_⟩
  calc bytes
      = bytes.take s.stored.length ++ bytes.drop s.stored.length :=
        (List.take_append_drop _ _).symm
    _ = s.stored ++ bytes.drop s.stored.length := by rw [← hstored]

end Agreement

/-- The pointer holds the block of the book, with the bytes it knows. -/
def Points : Option Held → Option ByteBlock → Prop
  | none, none => True
  | some held, some block =>
      held.addr = block.addr ∧ Agrees held.known block.bytes
  | _, _ => False

/-- One pointer holds the block, or it is gone. -/
def Placed (gone : List (Addr × Fate)) (store : Store) (a : Addr) : Prop :=
  (∃ p block, store.block p = some block ∧ block.addr = a) ∨
    a ∈ gone.map Prod.fst

/-- Every block the program was given is held by one pointer, or it is gone
and was freed as often as its fate says. -/
structure Kept (book : Book) (store : Store) : Prop where
  bounded : store.world.Bounded
  points : ∀ p, Points (book.held p) (store.block p)
  live : ∀ p block, store.block p = some block →
    store.world.Owns block.addr 0
  separate : ∀ p q block other, store.block p = some block →
    store.block q = some other → block.addr = other.addr → p = q
  gone : ∀ entry ∈ book.gone, store.world.Owns entry.1 entry.2.releases
  apart : ∀ p block, store.block p = some block →
    block.addr ∉ book.gone.map Prod.fst
  distinct : (book.gone.map Prod.fst).Nodup
  returned : ∀ a ∈ book.returned, Placed book.gone store a

section Assignments

variable {store : Store} {p q : ℕ} {out : Option ByteBlock} {w : World}

@[simp] theorem Store.assign_self :
    (store.assign p out w).block p = out := Function.update_self p _ _

theorem Store.assign_of_ne (hq : q ≠ p) :
    (store.assign p out w).block q = store.block q :=
  Function.update_of_ne hq _ _

theorem Store.assign_some {block : ByteBlock}
    (h : (store.assign p out w).block q = some block) :
    q = p ∧ out = some block ∨ q ≠ p ∧ store.block q = some block := by
  by_cases hq : q = p
  · subst hq
    exact .inl ⟨rfl, Store.assign_self.symm.trans h⟩
  · exact .inr ⟨hq, (Store.assign_of_ne hq).symm.trans h⟩

theorem points_assign {held : ℕ → Option Held} {mine : Option Held}
    (h : ∀ p, Points (held p) (store.block p)) (hout : Points mine out)
    (q : ℕ) :
    Points (Function.update held p mine q)
      ((store.assign p out w).block q) := by
  by_cases hq : q = p
  · subst hq
    rw [Function.update_self, Store.assign_self]
    exact hout
  · rw [Function.update_of_ne hq, Store.assign_of_ne hq]
    exact h q

theorem Placed.assign {gone after : List (Addr × Fate)} {a : Addr}
    (h : Placed gone store a)
    (hp : ∀ old, store.block p = some old → old.addr = a →
      Placed after (store.assign p out w) a)
    (hgone : a ∈ gone.map Prod.fst → a ∈ after.map Prod.fst) :
    Placed after (store.assign p out w) a := by
  rcases h with ⟨q, block, hblock, heq⟩ | hold
  · by_cases hq : q = p
    · subst hq
      exact hp block hblock heq
    · exact .inl ⟨q, block, (Store.assign_of_ne hq).trans hblock, heq⟩
  · exact .inr (hgone hold)

end Assignments

section Changes

variable {book : Book} {store : Store} {p : ℕ}

theorem Kept.held_none (h : Kept book store) (hp : book.held p = none) :
    store.block p = none := by
  have hpoints := h.points p
  rw [hp] at hpoints
  cases hblock : store.block p with
  | none => rfl
  | some block =>
      rw [hblock] at hpoints
      exact hpoints.elim

theorem Kept.held_some (h : Kept book store) {held : Held}
    (hp : book.held p = some held) :
    ∃ block, store.block p = some block ∧ held.addr = block.addr ∧
      Agrees held.known block.bytes := by
  have hpoints := h.points p
  rw [hp] at hpoints
  cases hblock : store.block p with
  | none =>
      rw [hblock] at hpoints
      exact hpoints.elim
  | some block =>
      rw [hblock] at hpoints
      exact ⟨block, rfl, hpoints⟩

theorem Kept.obtained (h : Kept book store) {a : Addr}
    (ha : Placed book.gone store a) : a < store.world.requests := by
  rcases ha with ⟨p, block, hblock, heq⟩ | hgone
  · subst heq
    exact (h.live p block hblock).obtained
  · obtain ⟨entry, hentry, heq⟩ := List.mem_map.mp hgone
    subst heq
    exact (h.gone entry hentry).obtained

theorem Kept.report (h : Kept book store) {after : World}
    (hreports : Reports store.world after) :
    Kept book ⟨store.block, after⟩ where
  bounded := hreports.bounded h.bounded
  points := h.points
  live := fun p block hblock => hreports.owns (h.live p block hblock)
  separate := h.separate
  gone := fun entry hentry => hreports.owns (h.gone entry hentry)
  apart := h.apart
  distinct := h.distinct
  returned := h.returned

/-- A new block goes to a pointer that holds none. -/
theorem Kept.fresh (h : Kept book store) (hp : book.held p = none)
    {known : List (Option Byte)} {bytes : List Byte}
    (hagrees : Agrees known bytes) :
    Kept (book.set p ⟨store.world.requests, known⟩)
      (store.assign p (some ⟨store.world.requests, bytes⟩)
        { store.world with requests := store.world.requests + 1 }) := by
  have hfresh : ¬ Placed book.gone store store.world.requests :=
    fun hplaced => lt_irrefl _ (h.obtained hplaced)
  refine ⟨h.bounded.obtain, points_assign h.points ⟨rfl, hagrees⟩, ?_, ?_,
    fun entry hentry => (h.gone entry hentry).obtain, ?_, h.distinct, ?_⟩
  · intro q block hblock
    rcases Store.assign_some hblock with ⟨_, hnew⟩ | ⟨_, hold⟩
    · cases hnew
      exact h.bounded.owns_new
    · exact (h.live q block hold).obtain
  · intro q r block other hblock hother heq
    rcases Store.assign_some hblock with ⟨hq, hnew⟩ | ⟨_, hold⟩
    · rcases Store.assign_some hother with ⟨hr, _⟩ | ⟨_, holdOther⟩
      · rw [hq, hr]
      · cases hnew
        exact absurd (.inl ⟨r, other, holdOther, heq.symm⟩) hfresh
    · rcases Store.assign_some hother with ⟨_, hnew⟩ | ⟨_, holdOther⟩
      · cases hnew
        exact absurd (.inl ⟨q, block, hold, heq⟩) hfresh
      · exact h.separate q r block other hold holdOther heq
  · intro q block hblock
    rcases Store.assign_some hblock with ⟨_, hnew⟩ | ⟨_, hold⟩
    · cases hnew
      exact fun hgone => hfresh (.inr hgone)
    · exact h.apart q block hold
  · intro a ha
    rcases List.mem_cons.mp ha with heq | hold
    · subst heq
      exact .inl ⟨p, _, Store.assign_self, rfl⟩
    · refine (h.returned a hold).assign ?_ id
      intro old hblock
      rw [h.held_none hp] at hblock
      cases hblock

/-- What the fate of a block does to the world. -/
def Fate.settle (fate : Fate) (a : Addr) (w : World) : World :=
  match fate with
  | .freed => w.release a
  | .moved => w
  | .lost => w

theorem Fate.settle_owns_self (fate : Fate) {a : Addr} {w : World}
    (h : w.Owns a 0) : (fate.settle a w).Owns a fate.releases := by
  cases fate with
  | freed => exact h.release_self
  | moved => exact h
  | lost => exact h

theorem Fate.settle_owns (fate : Fate) {a b : Addr} {times : ℕ} {w : World}
    (h : w.Owns b times) (hne : a ≠ b) : (fate.settle a w).Owns b times := by
  cases fate with
  | freed => exact h.release_of_ne hne
  | moved => exact h
  | lost => exact h

theorem Fate.settle_bounded (fate : Fate) {a : Addr} {w : World}
    (h : w.Bounded) (ha : a < w.requests) : (fate.settle a w).Bounded := by
  cases fate with
  | freed => exact h.release ha
  | moved => exact h
  | lost => exact h

/-- A pointer gives up its block. -/
theorem Kept.part (h : Kept book store) {old : ByteBlock}
    (hp : store.block p = some old) (fate : Fate) :
    Kept (book.part p old.addr fate)
      (store.assign p none (fate.settle old.addr store.world)) := by
  have howns := h.live p old hp
  -- No other pointer holds the block, and no pointer holds one that is gone.
  have hkept : ∀ q block,
      (store.assign p none (fate.settle old.addr store.world)).block q =
        some block →
      store.block q = some block ∧ old.addr ≠ block.addr := by
    intro q block hblock
    rcases Store.assign_some hblock with ⟨_, hnone⟩ | ⟨hq, hold⟩
    · cases hnone
    · exact ⟨hold, fun heq =>
        hq (h.separate q p block old hold hp heq.symm)⟩
  refine ⟨fate.settle_bounded h.bounded howns.obtained,
    points_assign h.points trivial, ?_, ?_, ?_, ?_,
    List.nodup_cons.mpr ⟨h.apart p old hp, h.distinct⟩, ?_⟩
  · intro q block hblock
    obtain ⟨hold, hne⟩ := hkept q block hblock
    exact fate.settle_owns (h.live q block hold) hne
  · intro q r block other hblock hother heq
    exact h.separate q r block other (hkept q block hblock).1
      (hkept r other hother).1 heq
  · intro entry hentry
    rcases List.mem_cons.mp hentry with heq | hold
    · subst heq
      exact fate.settle_owns_self howns
    · refine fate.settle_owns (h.gone entry hold) ?_
      intro heq
      exact h.apart p old hp (heq ▸ List.mem_map_of_mem hold)
  · intro q block hblock hmem
    obtain ⟨hold, hne⟩ := hkept q block hblock
    rcases List.mem_cons.mp hmem with heq | hgone
    · exact hne heq.symm
    · exact h.apart q block hold hgone
  · intro a ha
    refine (h.returned a ha).assign ?_ (List.mem_cons_of_mem _)
    intro block hblock heq
    obtain rfl : old = block := Option.some.inj (hp.symm.trans hblock)
    exact .inr (List.mem_cons.mpr (.inl heq.symm))

end Changes

/-! ## One call -/

/-- The bytes a call requests; a call that requests none gets none. -/
def Book.request (book : Book) : MemOp → ℕ
  | .malloc0 _ size => size
  | .memdup _ data len => if (book.given data).isSome then len else 0
  | .memcat _ aLen _ bLen => aLen + bLen
  | .strdup _ data => (knownString ((book.given data).getD [])).length + 1
  | .strcat _ none => 0
  | .strcat p (some data) => (book.joined p data).length
  | .zero _ _ => 0
  | .realloc _ size => size
  | .reallocFree _ size => size
  | .free _ => 0

/-- `a_zero_mem`, and `a_strcat_realloc` with nothing to append, return their
pointer; the other calls return a block exactly if they request one and are
granted it. -/
def Returns (E : Env) (book : Book) (store : Store) (op : MemOp)
    (ret : Option Addr) : Prop :=
  match op with
  | .zero p _ => ret = (store.block p).map ByteBlock.addr
  | .strcat p none => ret = (store.block p).map ByteBlock.addr
  | op =>
      ret.isSome = true ↔ book.request op ≠ 0 ∧
        E.grants store.world.requests (book.request op) = true

/-- What a fate does to the world when there may be no block. -/
def Fate.settleBlock (fate : Fate) (input : Option ByteBlock) (w : World) :
    World :=
  match input with
  | none => w
  | some old => fate.settle old.addr w

@[simp] theorem Fate.settleBlock_none (fate : Fate) (w : World) :
    fate.settleBlock none w = w := rfl

@[simp] theorem Fate.settleBlock_some (fate : Fate) (old : ByteBlock)
    (w : World) :
    fate.settleBlock (some old) w = fate.settle old.addr w := rfl

section Calls

variable {E : Env} {book : Book} {store : Store} {p size : ℕ}
  {known : List (Option Byte)} {bytes : List Byte}
  {result : Option ByteBlock × World}

theorem Store.assign_none (hp : store.block p = none) (w : World) :
    store.assign p none w = ⟨store.block, w⟩ := by
  rw [Store.assign, ← hp, Function.update_eq_self]

theorem Kept.obtain (h : Kept book store) (hp : book.held p = none)
    (hagrees : Agrees known bytes)
    (hends : Ends E size store.world id id bytes result) :
    Kept (match result.1.map ByteBlock.addr with
      | none => book
      | some a => book.set p ⟨a, known⟩)
      (store.assign p result.1 result.2) := by
  have hnone := h.held_none hp
  cases hends with
  | zero hsize =>
      rw [Store.assign_none hnone]
      exact h
  | refused hsize hrefused hreports =>
      rw [Store.assign_none hnone]
      exact h.report hreports
  | granted hsize => exact h.fresh hp hagrees

/-- A pointer is given to `realloc`: the old block goes before a new one
comes. -/
theorem Kept.grow (h : Kept book store) (fate : Fate)
    (hagrees : Agrees known bytes)
    (hends : Ends E size store.world
      (Fate.freed.settleBlock (store.block p))
      (fate.settleBlock (store.block p)) bytes result) :
    Kept (book.grow p size fate (result.1.map ByteBlock.addr) known)
      (store.assign p result.1 result.2) := by
  cases hheld : book.held p with
  | none =>
      have hnone := h.held_none hheld
      rw [hnone] at hends
      cases hends with
      | zero hsize =>
          rw [Store.assign_none hnone]
          simpa [Book.grow, hheld] using h
      | refused hsize hrefused hreports =>
          rw [Store.assign_none hnone]
          simpa [Book.grow, hheld] using h.report hreports
      | granted hsize =>
          simpa [Book.grow, hheld] using h.fresh hheld hagrees
  | some held =>
      obtain ⟨old, hold, haddr, _⟩ := h.held_some hheld
      rw [hold] at hends
      cases hends with
      | zero hsize =>
          simpa [Book.grow, hheld, haddr, hsize] using h.part hold .freed
      | refused hsize hrefused hreports =>
          simpa [Book.grow, hheld, haddr, hsize, Store.assign] using
            (h.report hreports).part hold fate
      | granted hsize =>
          have hmoved := h.part hold .moved
          have hempty : (book.part p old.addr .moved).held p = none :=
            Function.update_self p _ _
          have hnew := hmoved.fresh hempty hagrees
          simpa [Book.grow, hheld, haddr, Store.assign, Fate.settle] using hnew

end Calls

section Steps

variable {E : Env} {book : Book} {store : Store}

end Steps

/-! ## Whole runs -/

end Memory
end Alib
