import Alib.Allocation
import Alib.KeyedMap

/-!
# The hash table

`hash.c`: chains of items in a table of `2 ^ bits` slots, which is rebuilt
with twice the slots when the counter has reached their number.  Items live in
a memory of nodes.  What the destructors are called with, and which blocks the
table obtained, is written down in a ledger.  Walks along chains carry fuel;
running out of it is a walk that never ends.
-/

namespace Alib
namespace Hash

open KeyedMap

/-- The functions a table is initialised with; of the destructors only their
presence matters. -/
structure Callbacks where
  hashFunc : Ptr → BitVec 32
  equalFunc : Ptr → Ptr → Bool
  keyFree : Bool
  valFree : Bool

structure AHashItem where
  ptr : Option Addr
  hash : BitVec 32
  key : Ptr
  val : Ptr

structure AHash extends Callbacks where
  table : Option PointerArray
  bits : ℕ
  count : ℕ

def aHashPtrval (key : Ptr) : BitVec 32 := key.setWidth 32

/-- What `key_free` and `val_free` were called with, in order, and the item
nodes and tables obtained from the allocator. -/
structure Ledger where
  keyFreed : List Ptr
  valFreed : List Ptr
  itemNodes : List Addr
  tables : List Addr

structure HashState where
  hash : AHash
  items : Addr → Option AHashItem
  ledger : Ledger
  world : World

def aHashInit (calls : Callbacks) : AHash where
  toCallbacks := calls
  table := none
  bits := 0
  count := 0

/-- `((0x1)<<bits)` on an `int` of 32 bits -/
def bits2size (bits : ℕ) : Except Fault ℕ :=
  if bits ≤ 30 then .ok (2 ^ bits) else .error .shiftOverflow

def sizeofItem : ℕ := 32

def itemNew (E : Env) (ptr : Option Addr) (key : Ptr) (hash : BitVec 32)
    (val : Ptr) (st : HashState) :
    Except Fault (Option Addr × HashState) := do
  let (item, world) ← aMalloc E sizeofItem st.world
  match item with
  | none => return (none, { st with world := world })
  | some a =>
      return (some a, { st with
        items := store st.items a ⟨ptr, hash, key, val⟩
        ledger := { st.ledger with
          itemNodes := st.ledger.itemNodes ++ [a] }
        world := world })

/-- `if(hash->key_free) hash->key_free(key);` -/
def Ledger.freeKey (present : Bool) (key : Ptr) (ledger : Ledger) : Ledger :=
  if present then { ledger with keyFreed := ledger.keyFreed ++ [key] }
  else ledger

def Ledger.freeVal (present : Bool) (val : Ptr) (ledger : Ledger) : Ledger :=
  if present then { ledger with valFreed := ledger.valFreed ++ [val] }
  else ledger

def itemFree (a : Addr) (st : HashState) : Except Fault HashState := do
  let item ← load st.items (some a)
  return { st with
    items := store st.items a ⟨none, item.hash, 0, 0⟩
    ledger := (st.ledger.freeKey st.hash.keyFree item.key).freeVal
      st.hash.valFree item.val }

def listFree : ℕ → Option Addr → HashState → Except Fault HashState
  | 0, _, _ => .error .divergence
  | _ + 1, none, st => .ok st
  | fuel + 1, some a, st => do
      let item ← load st.items (some a)
      let st ← itemFree a st
      listFree fuel item.ptr st

/-- Enough turns to walk along any chain that ends. -/
def HashState.fuel (st : HashState) : ℕ := st.world.requests + 1

def hashReduceLoop (mask : BitVec 32) (bits : ℕ) :
    ℕ → BitVec 32 → BitVec 32 → Except Fault (BitVec 32)
  | 0, _, _ => .error .divergence
  | fuel + 1, val, ret =>
      if val = 0 then .ok ret
      else hashReduceLoop mask bits fuel (val >>> bits) (ret ^^^ (val &&& mask))

/-- The mask has the lowest `bits` bits set; a shift by 32 or more is
undefined. -/
def hashReduce (val : BitVec 32) (bits : ℕ) : Except Fault (BitVec 32) :=
  if 32 ≤ bits then .error .shiftOverflow
  else if bits = 0 then .ok 0
  else hashReduceLoop (~~~(BitVec.allOnes 32 <<< bits)) bits 33 val 0

def tableOf (hash : AHash) : Except Fault PointerArray :=
  match hash.table with
  | none => .error .nullPointer
  | some table => .ok table

/-- `table[i]` -/
def readSlot (table : PointerArray) (i : ℕ) : Except Fault (Option Addr) :=
  match table.slots[i]? with
  | none => .error .outOfBounds
  | some slot => .ok slot

/-- The entries from `table` up to `table + size`. -/
def readSlots (table : PointerArray) (size : ℕ) :
    Except Fault (List (Option Addr)) :=
  if size ≤ table.slots.length then .ok (table.slots.take size)
  else .error .outOfBounds

def writeSlot (hash : AHash) (i : ℕ) (p : Option Addr) :
    Except Fault AHash := do
  let table ← tableOf hash
  if i < table.slots.length then
    return { hash with table := some { table with slots := table.slots.set i p } }
  else .error .outOfBounds

def listsFree : List (Option Addr) → HashState → Except Fault HashState
  | [], st => .ok st
  | entry :: rest, st => do
      let st ← listFree st.fuel entry st
      listsFree rest st

/-- `a_free(table)` -/
def freeTable (table : PointerArray) (w : World) : World :=
  { w with released := w.released ++ [table.addr] }

def cleanTable (st : HashState) : Except Fault HashState :=
  match st.hash.table with
  | none => .ok st
  | some table => do
      let size ← bits2size st.hash.bits
      let entries ← readSlots table size
      let st ← listsFree entries st
      return { st with
        hash := { st.hash with table := none }
        world := freeTable table st.world }

def aHashClean (st : HashState) : Except Fault HashState := do
  let st ← cleanTable st
  return { st with hash := { st.hash with bits := 0, count := 0 } }

def itemListFind (items : Addr → Option AHashItem)
    (func : Ptr → Ptr → Bool) (hash : BitVec 32) (key : Ptr) :
    ℕ → Option Addr → Except Fault (Option Addr)
  | 0, _ => .error .divergence
  | _ + 1, none => .ok none
  | fuel + 1, some a => do
      let item ← load items (some a)
      if item.hash = hash ∧ func item.key key = true then return some a
      else itemListFind items func hash key fuel item.ptr

/-- Where a pointer to an item is stored: in a slot of the table or in the
link of another item. -/
inductive ItemLocation where
  | slot (i : ℕ)
  | ptrOf (a : Addr)

/-- `*list=p` -/
def writeLocation (list : ItemLocation) (p : Option Addr) (st : HashState) :
    Except Fault HashState :=
  match list with
  | .slot i => do
      let hash ← writeSlot st.hash i p
      return { st with hash := hash }
  | .ptrOf a => do
      let item ← load st.items (some a)
      return { st with items := store st.items a { item with ptr := p } }

def itemListRemove (hash : BitVec 32) (key : Ptr)
    (equal : Ptr → Ptr → Bool) :
    ℕ → ItemLocation → Option Addr → HashState →
      Except Fault (Option Addr × HashState)
  | 0, _, _, _ => .error .divergence
  | _ + 1, _, none, st => .ok (none, st)
  | fuel + 1, list, some a, st => do
      let item ← load st.items (some a)
      if item.hash = hash ∧ equal item.key key = true then
        let st ← writeLocation list item.ptr st
        return (some a, st)
      else itemListRemove hash key equal fuel (.ptrOf a) item.ptr st

/-- `a_swap_xor_ptr_m(dup->val, item->val, void *)` -/
def swapVals (dup item : Addr) (items : Addr → Option AHashItem) :
    Except Fault (Addr → Option AHashItem) := do
  let d ← load items (some dup)
  let i ← load items (some item)
  let items := store items dup { d with val := d.val ^^^ i.val }
  let i ← load items (some item)
  let d ← load items (some dup)
  let items := store items item { i with val := i.val ^^^ d.val }
  let d ← load items (some dup)
  let i ← load items (some item)
  return store items dup { d with val := d.val ^^^ i.val }

/-- `item->ptr = list; hash->table[reduced_hash] = item;` -/
def linkItem (item : Addr) (reducedHash : ℕ) (list : Option Addr)
    (st : HashState) : Except Fault HashState := do
  let node ← load st.items (some item)
  let hash ← writeSlot st.hash reducedHash (some item)
  return { st with
    hash := hash
    items := store st.items item { node with ptr := list } }

def replaceItem (dup item : Addr) (st : HashState) :
    Except Fault HashState := do
  let items ← swapVals dup item st.items
  itemFree item { st with items := items }

def addItem (item : Addr) (st : HashState) : Except Fault HashState := do
  let node ← load st.items (some item)
  let reducedHash ← hashReduce node.hash st.hash.bits
  let table ← tableOf st.hash
  let list ← readSlot table reducedHash.toNat
  let dup ← itemListFind st.items st.hash.equalFunc node.hash node.key
    st.fuel list
  match dup with
  | some dup => replaceItem dup item st
  | none => linkItem item reducedHash.toNat list st

def rehashChain : ℕ → Option Addr → HashState → Except Fault HashState
  | 0, _, _ => .error .divergence
  | _ + 1, none, st => .ok st
  | fuel + 1, some a, st => do
      let item ← load st.items (some a)
      let st ← addItem a st
      rehashChain fuel item.ptr st

def rehashChains : List (Option Addr) → HashState → Except Fault HashState
  | [], st => .ok st
  | list :: rest, st => do
      let st ← rehashChain st.fuel list st
      rehashChains rest st

/-- The last part of `extend`: move the items of the old table, if there is
one, and free it. -/
def rehash (oldTable : Option PointerArray) (oldSize : ℕ) (st : HashState) :
    Except Fault HashState :=
  match oldTable with
  | none => .ok st
  | some old => do
      let lists ← readSlots old oldSize
      let st ← rehashChains lists st
      return { st with world := freeTable old st.world }

/-- `hash->bits` after `if(hash->count) hash->bits++;` -/
def extendedBits (hash : AHash) : ℕ :=
  if hash.count ≠ 0 then sizeAdd hash.bits 1 else hash.bits

def extend (E : Env) (st : HashState) :
    Except Fault (ErrorCode × HashState) := do
  let oldSize ← bits2size st.hash.bits
  let bits := extendedBits st.hash
  let size ← bits2size bits
  let (table, world) ← aMallocNULL E (sizeMul sizeofPointer size) st.world
  match table with
  | none => do
      let (code, world) ← aErrorGetAlibCode E world
      return (code, { st with
        hash := { st.hash with bits := if bits ≠ 0 then bits - 1 else bits }
        world := world })
  | some table => do
      let st' ← rehash st.hash.table oldSize { st with
        hash := { st.hash with table := some table, bits := bits }
        ledger := { st.ledger with tables := st.ledger.tables ++ [table.addr] }
        world := world }
      return (aErrorSuccess, st')

/-- `!hash->count || bits2size(hash->bits) < hash->count+1` -/
def mustExtend (hash : AHash) : Except Fault Bool :=
  if hash.count = 0 then .ok true
  else do
    let size ← bits2size hash.bits
    return size < sizeAdd hash.count 1

def extendIf (E : Env) (must : Bool) (st : HashState) :
    Except Fault (ErrorCode × HashState) :=
  if must then extend E st else .ok (aErrorSuccess, st)

/-- The part of `a_hash_put` after the table was extended. -/
def putItem (E : Env) (key val : Ptr) (st : HashState) :
    Except Fault (ErrorCode × HashState) := do
  let (item, st) ← itemNew E none key (st.hash.hashFunc key) val st
  match item with
  | none => do
      let (code, world) ← aErrorGetAlibCode E st.world
      return (code, { st with world := world })
  | some item => do
      let st ← addItem item st
      return (aErrorSuccess, { st with
        hash := { st.hash with count := sizeAdd st.hash.count 1 } })

def aHashPut (E : Env) (key val : Ptr) (st : HashState) :
    Except Fault (ErrorCode × HashState) := do
  let must ← mustExtend st.hash
  let (ret, st) ← extendIf E must st
  if ret.isSuccess = false then return (ret, st)
  else putItem E key val st

def itemVal (items : Addr → Option AHashItem) :
    Option Addr → Except Fault Ptr
  | none => .ok 0
  | some a => do
      let item ← load items (some a)
      return item.val

def aHashGet (key : Ptr) (st : HashState) : Except Fault Ptr := do
  let keyHash := st.hash.hashFunc key
  let reducedHash ← hashReduce keyHash st.hash.bits
  let table ← tableOf st.hash
  let list ← readSlot table reducedHash.toNat
  let item ← itemListFind st.items st.hash.equalFunc keyHash key st.fuel list
  itemVal st.items item

/-- The part of `a_hash_remove` after the item was unlinked. -/
def removedVal (item : Option Addr) (st : HashState) :
    Except Fault (Ptr × HashState) :=
  match item with
  | none => .ok (0, st)
  | some a => do
      let node ← load st.items (some a)
      let st ← itemFree a
        { st with items := store st.items a { node with val := 0 } }
      return (node.val, st)

def aHashRemove (key : Ptr) (st : HashState) :
    Except Fault (Ptr × HashState) := do
  let keyHash := st.hash.hashFunc key
  let reducedHash ← hashReduce keyHash st.hash.bits
  let table ← tableOf st.hash
  let list ← readSlot table reducedHash.toNat
  let (item, st) ← itemListRemove keyHash key st.hash.equalFunc st.fuel
    (.slot reducedHash.toNat) list st
  removedVal item st

def aHashDelete (key : Ptr) (st : HashState) : Except Fault HashState := do
  let (value, st) ← aHashRemove key st
  return { st with ledger := st.ledger.freeVal st.hash.valFree value }

/-- The calls; `clear` is `a_hash_clean`. -/
abbrev HashOp := MapOp Ptr Ptr

abbrev HashOut := MapOut ErrorCode Ptr

def hashStep (E : Env) (st : HashState) :
    HashOp → Except Fault (HashOut × HashState)
  | .put key val => do
      let (code, st) ← aHashPut E key val st
      return (.code code, st)
  | .get key => do
      let val ← aHashGet key st
      return (.value val, st)
  | .remove key => do
      let (val, st) ← aHashRemove key st
      return (.value val, st)
  | .delete key => do
      let st ← aHashDelete key st
      return (.unit, st)
  | .clear => do
      let st ← aHashClean st
      return (.unit, st)

end Hash
end Alib
