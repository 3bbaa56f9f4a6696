import Alib.Allocation

/-!
# Vectors of buffers

`old/vec.c`: a chain of buffers to be written together, each with its size and
a flag which says whether the vector frees it.  The items live in a memory of
nodes; what `free` was called with, and which blocks the vector obtained, is
written down in a ledger.  Walks along the chain carry fuel.
-/

namespace Alib
namespace Vec

/-- `struct iovec` -/
structure Iovec where
  iovBase : Ptr
  iovLen : ℕ
  deriving DecidableEq, Repr

structure AVecItem where
  next : Option Addr
  ptr : Ptr
  size : ℕ
  freePtr : Bool

structure AVec where
  head : Option Addr
  tail : Option Addr
  num : ℕ
  size : ℕ

/-- The buffers which `free` was called with, in order, and the items obtained
from the allocator. -/
structure Ledger where
  freedPtrs : List Ptr
  itemNodes : List Addr

structure VecState where
  vec : AVec
  items : Addr → Option AVecItem
  ledger : Ledger
  world : World

def sizeofVecItem : ℕ := 32

def sizeofIovec : ℕ := 16

def aVecInit : AVec where
  head := none
  tail := none
  num := 0
  size := 0

def aVecItemAlloc (E : Env) (next : Option Addr) (ptr : Ptr) (size : ℕ)
    (freePtr : Bool) (st : VecState) : Option Addr × VecState :=
  match malloc E sizeofVecItem st.world with
  | (none, w) => (none, { st with world := w })
  | (some i, w) =>
      (some i, { st with
        items := store st.items i ⟨next, ptr, size, freePtr⟩
        ledger := { st.ledger with itemNodes := st.ledger.itemNodes ++ [i] }
        world := w })

/-- `p->next = next;` -/
def writeNext (items : Addr → Option AVecItem) (p next : Option Addr) :
    Except Fault (Addr → Option AVecItem) :=
  match p with
  | none => .error .nullPointer
  | some a => do
      let item ← load items (some a)
      return store items a { item with next := next }

def aVecPrependItem (i : Addr) (st : VecState) : Except Fault VecState := do
  let items ← writeNext st.items (some i) st.vec.head
  let item ← load items (some i)
  return { st with
    items := items
    vec :=
      { head := some i
        tail := if st.vec.num = 0 then some i else st.vec.tail
        num := sizeAdd st.vec.num 1
        size := sizeAdd st.vec.size item.size } }

def aVecAppendItem (i : Addr) (st : VecState) : Except Fault VecState := do
  let items ← writeNext st.items (some i) none
  let items ←
    if st.vec.num ≠ 0 then writeNext items st.vec.tail (some i)
    else pure items
  let item ← load items (some i)
  return { st with
    items := items
    vec :=
      { head := if st.vec.num ≠ 0 then st.vec.head else some i
        tail := some i
        num := sizeAdd st.vec.num 1
        size := sizeAdd st.vec.size item.size } }

/-- The result says whether the vector was returned; otherwise it is `NULL`. -/
def aVecPrepend (E : Env) (ptr : Ptr) (size : ℕ) (freePtr : Bool)
    (st : VecState) : Except Fault (Bool × VecState) :=
  match aVecItemAlloc E none ptr size freePtr st with
  | (none, st) => .ok (false, st)
  | (some i, st) => do
      let st ← aVecPrependItem i st
      return (true, st)

def aVecAppend (E : Env) (ptr : Ptr) (size : ℕ) (freePtr : Bool)
    (st : VecState) : Except Fault (Bool × VecState) :=
  match aVecItemAlloc E none ptr size freePtr st with
  | (none, st) => .ok (false, st)
  | (some i, st) => do
      let st ← aVecAppendItem i st
      return (true, st)

def aVecPrependIovec (E : Env) (i : Iovec) (freePtr : Bool) (st : VecState) :
    Except Fault (Bool × VecState) :=
  aVecPrepend E i.iovBase i.iovLen freePtr st

def aVecAppendIovec (E : Env) (i : Iovec) (freePtr : Bool) (st : VecState) :
    Except Fault (Bool × VecState) :=
  aVecAppend E i.iovBase i.iovLen freePtr st

/-- An array of the caller and where it lies. -/
structure IovecArray where
  address : Ptr
  iovecs : List Iovec
  deriving DecidableEq, Repr

def readIovec (iovecs : List Iovec) (i : ℕ) : Except Fault Iovec :=
  match iovecs[i]? with
  | none => .error .outOfBounds
  | some iovec => .ok iovec

/-- The rest of the loop when `num` elements are left.  In front of an array
at the very start of the address space the pointer wraps round, so the loop
goes on and reads outside the array. -/
def prependIovecsLoop (E : Env) (array : IovecArray) (freePtr : Bool) :
    ℕ → VecState → Except Fault (Bool × VecState)
  | 0, st =>
      if array.address.toNat < sizeofIovec then .error .outOfBounds
      else .ok (true, st)
  | num + 1, st => do
      let iovec ← readIovec array.iovecs num
      let (returned, st) ← aVecPrependIovec E iovec freePtr st
      if returned then prependIovecsLoop E array freePtr num st
      else return (false, st)

def aVecPrependIovecs (E : Env) (array : IovecArray) (freePtr : Bool)
    (st : VecState) : Except Fault (Bool × VecState) :=
  prependIovecsLoop E array freePtr array.iovecs.length st

def appendIovecsLoop (E : Env) (freePtr : Bool) :
    List Iovec → VecState → Except Fault (Bool × VecState)
  | [], st => .ok (true, st)
  | iovec :: rest, st => do
      let (returned, st) ← aVecAppendIovec E iovec freePtr st
      if returned then appendIovecsLoop E freePtr rest st
      else return (false, st)

def aVecAppendIovecs (E : Env) (array : IovecArray) (freePtr : Bool)
    (st : VecState) : Except Fault (Bool × VecState) :=
  appendIovecsLoop E freePtr array.iovecs st

def aVecSize (st : VecState) : ℕ := st.vec.size

def aVecLen (st : VecState) : ℕ := st.vec.num

/-- Enough turns to walk along any chain that ends. -/
def VecState.fuel (st : VecState) : ℕ := st.world.requests + 1

def writeIovec (iovecs : List Iovec) (i : ℕ) (iovec : Iovec) :
    Except Fault (List Iovec) :=
  if i < iovecs.length then .ok (iovecs.set i iovec) else .error .outOfBounds

def toIovecLoop (items : Addr → Option AVecItem) :
    ℕ → Option Addr → ℕ → List Iovec → Except Fault (List Iovec)
  | 0, _, _, _ => .error .divergence
  | _ + 1, none, _, iovecs => .ok iovecs
  | fuel + 1, some a, i, iovecs => do
      let item ← load items (some a)
      let iovecs ← writeIovec iovecs i ⟨item.ptr, item.size⟩
      toIovecLoop items fuel item.next (i + 1) iovecs

def aVecToIovec (st : VecState) (iovecs : List Iovec) :
    Except Fault (List Iovec) :=
  toIovecLoop st.items st.fuel st.vec.head 0 iovecs

/-- What a new block, or the stack, leaves in an array of this many bytes. -/
def garbageIovecs (E : Env) (request size : ℕ) : List Iovec :=
  (List.range (size / sizeofIovec)).map fun i =>
    ⟨E.garbage request (2 * i), (E.garbage request (2 * i + 1)).toNat⟩

def aVecToIovecAlloc (E : Env) (st : VecState) :
    Except Fault (Option (Addr × List Iovec) × VecState) :=
  let size := sizeMul sizeofIovec st.vec.num
  match malloc E size st.world with
  | (none, w) => .ok (none, { st with world := w })
  | (some a, w) => do
      let iovecs ← aVecToIovec st (garbageIovecs E st.world.requests size)
      return (some (a, iovecs), { st with world := w })

/-- The arguments `a_vec_writev` passes on to `writev`; the number of buffers
is converted to an `int`. -/
def aVecWritev (E : Env) (fd : ℤ) (st : VecState) :
    Except Fault (ℤ × List Iovec × ℤ) := do
  let size := sizeMul sizeofIovec st.vec.num
  let iovecs ← aVecToIovec st (garbageIovecs E st.world.requests size)
  return (fd, iovecs, (BitVec.ofNat 32 st.vec.num).toInt)

def aVecItemFree (a : Addr) (st : VecState) : Except Fault VecState := do
  let item ← load st.items (some a)
  return { st with
    items := Function.update st.items a none
    ledger :=
      if item.freePtr then
        { st.ledger with freedPtrs := st.ledger.freedPtrs ++ [item.ptr] }
      else st.ledger
    world := { st.world with released := st.world.released ++ [a] } }

def aVecFreeLoop : ℕ → Option Addr → VecState → Except Fault VecState
  | 0, _, _ => .error .divergence
  | _ + 1, none, st => .ok st
  | fuel + 1, some a, st => do
      let item ← load st.items (some a)
      let st ← aVecItemFree a st
      aVecFreeLoop fuel item.next st

/-- Neither the vector itself is freed nor its head reset. -/
def aVecFree (st : VecState) : Except Fault VecState :=
  aVecFreeLoop st.fuel st.vec.head st

def aIovecSizeEnd (iovecs : List Iovec) : ℕ :=
  iovecs.foldl (fun size iovec => sizeAdd size iovec.iovLen) 0

def aIovecSize (iovecs : List Iovec) (count : ℕ) : Except Fault ℕ :=
  if count ≤ iovecs.length then .ok (aIovecSizeEnd (iovecs.take count))
  else .error .outOfBounds

inductive VecOp where
  | prepend (ptr : Ptr) (size : ℕ) (freePtr : Bool)
  | append (ptr : Ptr) (size : ℕ) (freePtr : Bool)
  | prependIovec (iovec : Iovec) (freePtr : Bool)
  | appendIovec (iovec : Iovec) (freePtr : Bool)
  | prependIovecs (array : IovecArray) (freePtr : Bool)
  | appendIovecs (array : IovecArray) (freePtr : Bool)
  | size
  | len
  | toIovec (iovecs : List Iovec)
  | toIovecAlloc
  | writev (fd : ℤ)
  deriving DecidableEq, Repr

inductive VecOut where
  | vec (returned : Bool)
  | amount (n : ℕ)
  | iovecs (written : List Iovec)
  | allocated (array : Option (Addr × List Iovec))
  | writev (fd : ℤ) (iovecs : List Iovec) (count : ℤ)
  deriving DecidableEq, Repr

/-- A call which adds buffers, with its result as the step reports it. -/
def added (call : Except Fault (Bool × VecState)) :
    Except Fault (VecOut × VecState) := do
  let (returned, st) ← call
  return (.vec returned, st)

def vecStep (E : Env) (st : VecState) :
    VecOp → Except Fault (VecOut × VecState)
  | .prepend ptr size freePtr => added (aVecPrepend E ptr size freePtr st)
  | .append ptr size freePtr => added (aVecAppend E ptr size freePtr st)
  | .prependIovec iovec freePtr => added (aVecPrependIovec E iovec freePtr st)
  | .appendIovec iovec freePtr => added (aVecAppendIovec E iovec freePtr st)
  | .prependIovecs array freePtr =>
      added (aVecPrependIovecs E array freePtr st)
  | .appendIovecs array freePtr => added (aVecAppendIovecs E array freePtr st)
  | .size => .ok (.amount (aVecSize st), st)
  | .len => .ok (.amount (aVecLen st), st)
  | .toIovec iovecs => do
      let iovecs ← aVecToIovec st iovecs
      return (.iovecs iovecs, st)
  | .toIovecAlloc => do
      let (array, st) ← aVecToIovecAlloc E st
      return (.allocated array, st)
  | .writev fd => do
      let (fd, iovecs, count) ← aVecWritev E fd st
      return (.writev fd iovecs count, st)

end Vec
end Alib
