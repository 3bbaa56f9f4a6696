import Alib.Allocation

/-!
# The pot

`pot.c`: a heap of `intptr_t` values in an array whose values are numbered
from one, ordered by a caller's `before` function.  The array is grown by
doubling through `a_realloc_free`, all in wrapping `size_t` arithmetic.  The
loops carry fuel; running out of it is a loop that never ends.
-/

namespace Alib
namespace Pot

abbrev Before := Ptr → Ptr → Bool

structure APot where
  num : ℕ
  alloced : ℕ
  before : Before
  array : Option Block

structure PotState where
  pot : APot
  world : World

/-- `while(size_to_realloc < new_size) size_to_realloc *= 2;` on `size_t` of
the given width. -/
def doubleSize (width newSize : ℕ) : ℕ → ℕ → Except Fault ℕ
  | 0, _ => .error .divergence
  | fuel + 1, sizeToRealloc =>
      if sizeToRealloc < newSize then
        doubleSize width newSize fuel (sizeToRealloc * 2 % 2 ^ width)
      else .ok sizeToRealloc

/-- The number of turns after which a doubled size has wrapped to zero. -/
def doubleFuel (width : ℕ) : ℕ := width + 2

/-- The result is whether the pot, rather than `NULL`, is returned. -/
def aPotResize (E : Env) (newSize : ℕ) (st : PotState) :
    Except Fault (Bool × PotState) :=
  if newSize < st.pot.alloced then .ok (true, st)
  else do
    let newSize := if newSize < st.pot.num then st.pot.num else newSize
    let start := if st.pot.alloced ≠ 0 then st.pot.alloced else 1
    let sizeToRealloc ← doubleSize 64 newSize (doubleFuel 64) start
    let (array, world) ← aReallocFree E st.pot.array
      (sizeMul sizeofPointer (sizeAdd sizeToRealloc 1)) st.world
    match array with
    | none =>
        return (false, ⟨{ st.pot with alloced := 0, array := none }, world⟩)
    | some block =>
        return (true,
          ⟨{ st.pot with alloced := sizeToRealloc, array := some block },
            world⟩)

/-- A pot is returned unless `before` is `NULL`; whether the first resize
succeeded is not looked at. -/
def aPotInit (E : Env) (before : Option Before) (size : ℕ)
    (st : PotState) : Except Fault (Bool × PotState) :=
  match before with
  | none => do
      let world ← aErrorCode E .alib aErrorInvalidOp st.world
      return (false, { st with world := world })
  | some before => do
      let (_, st) ← aPotResize E size
        ⟨{ num := 0, alloced := 0, before := before, array := none },
          st.world⟩
      return (true, st)

def aPotCleanup (st : PotState) : PotState :=
  let world :=
    if st.pot.alloced ≠ 0 then aFree st.pot.array st.world else st.world
  ⟨{ st.pot with alloced := 0, array := none }, world⟩

def arrayOf (pot : APot) : Except Fault Block :=
  match pot.array with
  | none => .error .nullPointer
  | some block => .ok block

/-- `a_swap_xor_m(array[i], array[j])` -/
def aSwapXor (block : Block) (i j : ℕ) : Except Fault Block := do
  let a ← block.read i
  let b ← block.read j
  let block ← block.write i (a ^^^ b)
  let b ← block.read j
  let a ← block.read i
  let block ← block.write j (b ^^^ a)
  let a ← block.read i
  let b ← block.read j
  block.write i (a ^^^ b)

def bubbleUp (before : Before) : ℕ → ℕ → Block → Except Fault Block
  | 0, _, _ => .error .divergence
  | fuel + 1, pos, block =>
      if pos = 0 then .ok block
      else do
        let value ← block.read pos
        let parent ← block.read (pos / 2)
        if before value parent = false then return block
        else
          let block ← aSwapXor block pos (pos / 2)
          bubbleUp before fuel (pos / 2) block

/-- The child the descent goes on with: the second only if there is one and it
comes before the first. -/
def minChildPos (before : Before) (num pos : ℕ) (block : Block) :
    Except Fault ℕ :=
  if pos * 2 + 1 ≤ num then do
    let second ← block.read (pos * 2 + 1)
    let first ← block.read (pos * 2)
    return if before second first then pos * 2 + 1 else pos * 2
  else .ok (pos * 2)

def bubbleDownFrom (before : Before) (num : ℕ) :
    ℕ → ℕ → Block → Except Fault Block
  | 0, _, _ => .error .divergence
  | fuel + 1, pos, block =>
      if num < pos * 2 then .ok block
      else do
        let child ← minChildPos before num pos block
        let below ← block.read child
        let value ← block.read pos
        if before below value then
          let block ← aSwapXor block child pos
          bubbleDownFrom before num fuel child block
        else bubbleDownFrom before num fuel child block

def bubbleDown (before : Before) (num : ℕ) (block : Block) :
    Except Fault Block :=
  if 1 ≤ num / 2 then bubbleDownFrom before num (num + 1) 1 block
  else .ok block

def aPotInsert (E : Env) (ptr : Ptr) (st : PotState) :
    Except Fault (Bool × PotState) := do
  let (resized, st) ← aPotResize E (sizeAdd st.pot.num 1) st
  if resized = false then return (false, st)
  else
    let num := sizeAdd st.pot.num 1
    let block ← arrayOf st.pot
    let block ← block.write num ptr
    let block ← bubbleUp st.pot.before (num + 1) num block
    return (true, { st with pot :=
      { st.pot with num := num, array := some block } })

def aPotRemoveTop (st : PotState) : Except Fault (Ptr × PotState) :=
  if st.pot.num = 0 then .ok (0, st)
  else do
    let block ← arrayOf st.pot
    let ret ← block.read 1
    let last ← block.read st.pot.num
    let block ← block.write 1 last
    let num := st.pot.num - 1
    let block ← bubbleDown st.pot.before num block
    return (ret, { st with pot :=
      { st.pot with num := num, array := some block } })

def aPotLtIntptr : Before := fun a b => a.slt b

def aPotGtIntptr : Before := fun a b => b.slt a

inductive PotOp where
  | init (size : ℕ)
  | resize (newSize : ℕ)
  | insert (ptr : Ptr)
  | removeTop
  | cleanup
  deriving DecidableEq, Repr

inductive PotOut where
  | pot (returned : Bool)
  | value (ret : Ptr)
  | unit
  deriving DecidableEq, Repr

/-- One call on a pot whose users all pass the same `before`. -/
def potStep (E : Env) (before : Before) (st : PotState) :
    PotOp → Except Fault (PotOut × PotState)
  | .init size => do
      let (returned, st) ← aPotInit E (some before) size st
      return (.pot returned, st)
  | .resize newSize => do
      let (returned, st) ← aPotResize E newSize st
      return (.pot returned, st)
  | .insert ptr => do
      let (returned, st) ← aPotInsert E ptr st
      return (.pot returned, st)
  | .removeTop => do
      let (ret, st) ← aPotRemoveTop st
      return (.value ret, st)
  | .cleanup => .ok (.unit, aPotCleanup st)

end Pot
end Alib
