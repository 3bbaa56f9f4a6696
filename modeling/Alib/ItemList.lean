import Alib.Platform

/-!
# The intrusive list

`list.c`: a list threaded through a link field which the caller embeds in his
items at a fixed offset.  The memory of the link fields is a map from the
address of a field to its content; dereferencing `NULL` faults.  The count is
an `unsigned int` of 32 bits.
-/

namespace Alib
namespace ItemList

/-- An item of the caller: neither it nor the link field embedded in it is at
the null address. -/
structure Item (offset : Ptr) where
  address : Ptr
  address_ne : address ≠ 0
  link_ne : address + offset ≠ 0

structure AList where
  head : Option Ptr
  tail : Option Ptr
  offset : Ptr
  count : ℕ

structure ListState where
  list : AList
  links : Ptr → Option Ptr

def aListInit (offset : Ptr) : AList where
  head := none
  tail := none
  offset := offset
  count := 0

def pointer (p : Ptr) : Option Ptr := if p = 0 then none else some p

def pointerValue : Option Ptr → Ptr
  | none => 0
  | some p => p

def item2listItem (list : AList) (item : Ptr) : Option Ptr :=
  pointer (item + list.offset)

def listItem2item (list : AList) (listItem : Option Ptr) : Ptr :=
  pointerValue listItem - list.offset

/-- `p->ptr` -/
def readPtr (links : Ptr → Option Ptr) : Option Ptr → Except Fault (Option Ptr)
  | none => .error .nullPointer
  | some a => .ok (links a)

/-- `p->ptr = value;` -/
def writePtr (links : Ptr → Option Ptr) (p value : Option Ptr) :
    Except Fault (Ptr → Option Ptr) :=
  match p with
  | none => .error .nullPointer
  | some a => .ok (Function.update links a value)

/-- The count after one more item, in an `unsigned int`. -/
def countSucc (count : ℕ) : ℕ := (count + 1) % 2 ^ 32

def aListAppend (item : Ptr) (st : ListState) :
    Except Fault (ℕ × ListState) := do
  let li := item2listItem st.list item
  let links ← writePtr st.links li none
  let count := countSucc st.list.count
  if st.list.count ≠ 0 then
    let links ← writePtr links st.list.tail li
    return (count, ⟨{ st.list with tail := li, count := count }, links⟩)
  else
    return (count,
      ⟨{ st.list with head := li, tail := li, count := count }, links⟩)

def aListPrepend (item : Ptr) (st : ListState) :
    Except Fault (ℕ × ListState) := do
  let li := item2listItem st.list item
  let links ← writePtr st.links li st.list.head
  let count := countSucc st.list.count
  return (count, ⟨{ st.list with head := li, count := count }, links⟩)

def aListDecap (st : ListState) : Except Fault (Ptr × ListState) :=
  let li := st.list.head
  match st.list.count with
  | 0 => .ok (0, st)
  | 1 =>
      .ok (listItem2item st.list li,
        { st with list :=
          { st.list with head := none, tail := none, count := 0 } })
  | count + 2 => do
      let head ← readPtr st.links li
      return (listItem2item st.list li,
        { st with list :=
          { st.list with head := head, count := count + 1 } })

/-- The calls; `a_list_enqueue` is an append, `a_list_push` a prepend, and
`a_list_dequeue` and `a_list_pop` are both a decap. -/
inductive ListOp (offset : Ptr) where
  | append (item : Item offset)
  | prepend (item : Item offset)
  | decap

inductive ListOut where
  | count (n : ℕ)
  | item (p : Ptr)
  deriving DecidableEq, Repr

def listStep {offset : Ptr} (st : ListState) :
    ListOp offset → Except Fault (ListOut × ListState)
  | .append item => do
      let (count, st) ← aListAppend item.address st
      return (.count count, st)
  | .prepend item => do
      let (count, st) ← aListPrepend item.address st
      return (.count count, st)
  | .decap => do
      let (item, st) ← aListDecap st
      return (.item item, st)

end ItemList
end Alib
