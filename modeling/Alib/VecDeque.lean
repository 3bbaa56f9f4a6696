import Alib.Vec
import Alib.NodeChain
import Alib.Execution

/-!
# The vector as a deque of buffers

The deque a vector should be is computed from the calls and from what the
allocator grants.  An array of buffers is added one buffer after the other, so
a refused request leaves those added so far: the first ones when appending, the
last ones when prepending.
-/

namespace Alib
namespace Vec

open Execution

structure Buffer where
  ptr : Ptr
  size : ℕ
  freePtr : Bool
  deriving DecidableEq, Repr

def Iovec.buffer (freePtr : Bool) (iovec : Iovec) : Buffer where
  ptr := iovec.iovBase
  size := iovec.iovLen
  freePtr := freePtr

def Buffer.iovec (buffer : Buffer) : Iovec where
  iovBase := buffer.ptr
  iovLen := buffer.size

/-- The buffers, front first, and the number of requests made so far. -/
structure Deque where
  buffers : List Buffer
  requests : ℕ
  deriving DecidableEq, Repr

/-- How many of the next requests for an item are granted in a row. -/
def granted (E : Env) (request : ℕ) : ℕ → ℕ
  | 0 => 0
  | n + 1 =>
      if E.grants request sizeofVecItem then granted E (request + 1) n + 1
      else 0

def addBack (E : Env) (buffers : List Buffer) (d : Deque) : Bool × Deque :=
  let kept := granted E d.requests buffers.length
  (kept = buffers.length,
    { buffers := d.buffers ++ buffers.take kept
      requests := d.requests + min buffers.length (kept + 1) })

def addFront (E : Env) (buffers : List Buffer) (d : Deque) : Bool × Deque :=
  let kept := granted E d.requests buffers.length
  (kept = buffers.length,
    { buffers := buffers.drop (buffers.length - kept) ++ d.buffers
      requests := d.requests + min buffers.length (kept + 1) })

/-- The sum of the sizes, in a `size_t`. -/
def totalSize (buffers : List Buffer) : ℕ :=
  (buffers.map Buffer.size).sum % 2 ^ 64

def VecOp.buffers : VecOp → List Buffer
  | .prepend ptr n freePtr => [⟨ptr, n, freePtr⟩]
  | .append ptr n freePtr => [⟨ptr, n, freePtr⟩]
  | .prependIovec iovec freePtr => [iovec.buffer freePtr]
  | .appendIovec iovec freePtr => [iovec.buffer freePtr]
  | .prependIovecs array freePtr => array.iovecs.map (·.buffer freePtr)
  | .appendIovecs array freePtr => array.iovecs.map (·.buffer freePtr)
  | _ => []

/-- What a call returns and which buffers are there afterwards. -/
def dequeStep (E : Env) (d : Deque) (op : VecOp) : VecOut × Deque :=
  match op with
  | .prepend .. | .prependIovec .. | .prependIovecs .. =>
      let (returned, d) := addFront E op.buffers d
      (.vec returned, d)
  | .append .. | .appendIovec .. | .appendIovecs .. =>
      let (returned, d) := addBack E op.buffers d
      (.vec returned, d)
  | .size => (.amount (totalSize d.buffers), d)
  | .len => (.amount d.buffers.length, d)
  | .toIovec iovecs =>
      (.iovecs
        (d.buffers.map Buffer.iovec ++ iovecs.drop d.buffers.length), d)
  | .toIovecAlloc =>
      let array :=
        if E.grants d.requests (sizeofIovec * d.buffers.length) then
          some (d.requests, d.buffers.map Buffer.iovec)
        else none
      (.allocated array, { d with requests := d.requests + 1 })
  | .writev fd =>
      (.writev fd (d.buffers.map Buffer.iovec) d.buffers.length, d)

/-- The deque after these calls on a new vector. -/
def dequeOf (E : Env) (requests : ℕ) (history : List VecOp) : Deque :=
  history.foldl (fun d op => (dequeStep E d op).2) ⟨[], requests⟩

@[simp] theorem dequeOf_append (E : Env) (requests : ℕ)
    (history : List VecOp) (op : VecOp) :
    dequeOf E requests (history ++ [op]) =
      (dequeStep E (dequeOf E requests history) op).2 := by
  simp [dequeOf]

/-- The caller's array has room for the buffers, it does not lie at the very
start of the address space, and the number of buffers fits the `int` which
`writev` takes. -/
def HasRoom (d : Deque) : VecOp → Prop
  | .prependIovecs array _ => sizeofIovec ≤ array.address.toNat
  | .toIovec iovecs => d.buffers.length ≤ iovecs.length
  | .writev _ => d.buffers.length < 2 ^ 31
  | _ => True

instance (d : Deque) : (op : VecOp) → Decidable (HasRoom d op)
  | .prependIovecs .. => inferInstanceAs (Decidable (_ ≤ _))
  | .toIovec _ => inferInstanceAs (Decidable (_ ≤ _))
  | .writev _ => inferInstanceAs (Decidable (_ < _))
  | .prepend .. | .append .. | .prependIovec .. | .appendIovec ..
  | .appendIovecs .. | .size | .len | .toIovecAlloc => isTrue trivial

/-- Besides, the buffers fit the address space. -/
def Fits (d : Deque) (op : VecOp) : Prop :=
  d.buffers.length + op.buffers.length < 2 ^ 60 ∧ HasRoom d op

instance (d : Deque) (op : VecOp) : Decidable (Fits d op) :=
  inferInstanceAs (Decidable (_ ∧ _))

/-- Items, each with its address and its buffer. -/
def vecLayout : NodeLayout Addr AVecItem (Addr × Buffer) where
  link := AVecItem.next
  view := fun a item => (a, ⟨item.ptr, item.size, item.freePtr⟩)
  addr := Prod.fst
  addr_view := fun _ _ => rfl

@[simp] theorem vecLayout_addr (entry : Addr × Buffer) :
    vecLayout.addr entry = entry.1 := rfl

/-- The chain of the vector consists of these items, which are all those it
obtained since it was initialised, and nothing was released since. -/
structure Consists (before : World) (st : VecState)
    (entries : List (Addr × Buffer)) : Prop where
  chain : vecLayout.IsChain st.items st.vec.head entries
  tail_eq : st.vec.tail = (entries.map Prod.fst).getLast?
  num_eq : st.vec.num = entries.length
  size_eq : st.vec.size = totalSize (entries.map Prod.snd)
  bound : ∀ entry ∈ entries, entry.1 < st.world.requests
  later : ∀ entry ∈ entries, before.requests ≤ entry.1
  nodes : st.ledger.itemNodes.Perm (entries.map Prod.fst)
  freedPtrs : st.ledger.freedPtrs = []
  released : st.world.released = before.released
  requests_le : before.requests ≤ st.world.requests

/-- The vector holds the buffers of the deque. -/
def Represents (before : World) (st : VecState) (d : Deque) : Prop :=
  ∃ entries, Consists before st entries ∧
    entries.map Prod.snd = d.buffers ∧ st.world.requests = d.requests

section Abstract

variable {E : Env} {d : Deque} {buffer : Buffer} {buffers : List Buffer}

theorem granted_le (E : Env) (request n : ℕ) : granted E request n ≤ n := by
  induction n generalizing request with
  | zero => simp [granted]
  | succ n ih =>
      rw [granted]
      split
      · exact Nat.succ_le_succ (ih (request + 1))
      · exact Nat.zero_le _

@[simp] theorem addBack_nil (d : Deque) : addBack E [] d = (true, d) := by
  simp [addBack, granted]

@[simp] theorem addFront_nil (d : Deque) : addFront E [] d = (true, d) := by
  simp [addFront, granted]

theorem addBack_cons_of_grants (buffers : List Buffer) (buffer : Buffer)
    (hgrant : E.grants d.requests sizeofVecItem = true) :
    addBack E (buffer :: buffers) d =
      addBack E buffers ⟨d.buffers ++ [buffer], d.requests + 1⟩ := by
  simp only [addBack, List.length_cons, granted, hgrant, if_true,
    List.take_succ_cons, List.append_assoc, List.singleton_append,
    Prod.mk.injEq, Deque.mk.injEq, true_and]
  constructor
  · simp
  · omega

theorem addBack_cons_of_refused (buffers : List Buffer) (buffer : Buffer)
    (hrefused : E.grants d.requests sizeofVecItem = false) :
    addBack E (buffer :: buffers) d =
      (false, ⟨d.buffers, d.requests + 1⟩) := by
  simp [addBack, granted, hrefused]

theorem addFront_concat_of_grants (buffers : List Buffer) (buffer : Buffer)
    (hgrant : E.grants d.requests sizeofVecItem = true) :
    addFront E (buffers ++ [buffer]) d =
      addFront E buffers ⟨buffer :: d.buffers, d.requests + 1⟩ := by
  have hle := granted_le E (d.requests + 1) buffers.length
  have hdrop : buffers.length + 1 -
      (granted E (d.requests + 1) buffers.length + 1) =
      buffers.length - granted E (d.requests + 1) buffers.length := by omega
  simp only [addFront, List.length_append, List.length_singleton, granted,
    hgrant, if_true, hdrop, Prod.mk.injEq, Deque.mk.injEq]
  refine ⟨by simp, ?_, by omega⟩
  rw [List.drop_append_of_le_length (Nat.sub_le _ _), List.append_assoc,
    List.singleton_append]

theorem addFront_concat_of_refused (buffers : List Buffer) (buffer : Buffer)
    (hrefused : E.grants d.requests sizeofVecItem = false) :
    addFront E (buffers ++ [buffer]) d =
      (false, ⟨d.buffers, d.requests + 1⟩) := by
  simp [addFront, granted, hrefused]

theorem totalSize_concat (buffers : List Buffer) (buffer : Buffer) :
    totalSize (buffers ++ [buffer]) =
      sizeAdd (totalSize buffers) buffer.size := by
  simp [totalSize, sizeAdd, Nat.add_mod]

theorem totalSize_cons (buffers : List Buffer) (buffer : Buffer) :
    totalSize (buffer :: buffers) =
      sizeAdd (totalSize buffers) buffer.size := by
  simp [totalSize, sizeAdd, Nat.add_mod, Nat.add_comm]

end Abstract

section Items

variable {E : Env} {before : World} {st : VecState} {d : Deque}
  {entries : List (Addr × Buffer)}

/-- The state after a granted request for an item. -/
def withItem (st : VecState) (buffer : Buffer) : VecState :=
  { st with
    items := store st.items st.world.requests
      ⟨none, buffer.ptr, buffer.size, buffer.freePtr⟩
    ledger := { st.ledger with
      itemNodes := st.ledger.itemNodes ++ [st.world.requests] }
    world := { st.world with requests := st.world.requests + 1 } }

theorem aVecItemAlloc_of_grants (buffer : Buffer)
    (hgrant : E.grants st.world.requests sizeofVecItem = true) :
    aVecItemAlloc E none buffer.ptr buffer.size buffer.freePtr st =
      (some st.world.requests, withItem st buffer) := by
  simp [aVecItemAlloc, malloc, hgrant, withItem]

theorem aVecItemAlloc_of_refused (buffer : Buffer)
    (hrefused : E.grants st.world.requests sizeofVecItem = false) :
    aVecItemAlloc E none buffer.ptr buffer.size buffer.freePtr st =
      (none, { st with world :=
        { st.world with
          requests := st.world.requests + 1
          errno := enomem } }) := by
  simp [aVecItemAlloc, malloc, hrefused]

theorem Represents.refused (h : Represents before st d) :
    Represents before
      { st with world :=
        { st.world with
          requests := st.world.requests + 1
          errno := enomem } }
      { d with requests := d.requests + 1 } := by
  rcases h with ⟨entries, hconsists, hbuffers, hrequests⟩
  have hle := hconsists.requests_le
  refine ⟨entries, { hconsists with bound := ?_, requests_le := ?_ },
    hbuffers, ?_⟩
  · intro entry hentry
    exact (hconsists.bound entry hentry).trans (Nat.lt_succ_self _)
  · exact hle.trans (Nat.le_succ _)
  · rw [← hrequests]

theorem Consists.new_not_mem (h : Consists before st entries) :
    st.world.requests ∉ entries.map vecLayout.addr := by
  intro hmem
  obtain ⟨entry, hentry, haddr⟩ := List.mem_map.mp hmem
  have hlt := h.bound entry hentry
  rw [vecLayout_addr] at haddr
  rw [haddr] at hlt
  exact absurd hlt (lt_irrefl _)

theorem Consists.bound_succ (h : Consists before st entries)
    (buffer : Buffer) :
    ∀ entry ∈ (st.world.requests, buffer) :: entries,
      entry.1 < st.world.requests + 1 := by
  intro entry hentry
  rcases List.mem_cons.mp hentry with rfl | hold
  · exact Nat.lt_succ_self _
  · exact (h.bound entry hold).trans (Nat.lt_succ_self _)

theorem Consists.later_new (h : Consists before st entries)
    (buffer : Buffer) :
    ∀ entry ∈ (st.world.requests, buffer) :: entries,
      before.requests ≤ entry.1 := by
  intro entry hentry
  rcases List.mem_cons.mp hentry with rfl | hold
  · exact h.requests_le
  · exact h.later entry hold

theorem sizeAdd_one_of_lt {n : ℕ} (h : n + 1 < 2 ^ 60) :
    sizeAdd n 1 = n + 1 :=
  sizeAdd_of_lt (h.trans (by norm_num))

theorem Consists.prependItem (h : Consists before st entries)
    (buffer : Buffer)
    (hroom : entries.length + 1 < 2 ^ 60) :
    ∃ st', aVecPrependItem st.world.requests (withItem st buffer) = .ok st' ∧
      Consists before st' ((st.world.requests, buffer) :: entries) ∧
      st'.world.requests = st.world.requests + 1 := by
  let node : AVecItem :=
    ⟨st.vec.head, buffer.ptr, buffer.size, buffer.freePtr⟩
  let st' : VecState := { withItem st buffer with
    items := store (withItem st buffer).items st.world.requests node
    vec :=
      { head := some st.world.requests
        tail := if st.vec.num = 0 then some st.world.requests else st.vec.tail
        num := sizeAdd st.vec.num 1
        size := sizeAdd st.vec.size buffer.size } }
  have hcall : aVecPrependItem st.world.requests (withItem st buffer) =
      .ok st' := by
    simp [aVecPrependItem, writeNext, withItem, load, st', node]
    rfl
  have hitems : st'.items = Function.update st.items st.world.requests
      (some node) := by
    simp [st', withItem, store]
  refine ⟨st', hcall, ?_, rfl⟩
  constructor
  · refine ⟨rfl, node, ?_, rfl, ?_⟩
    · rw [hitems]
      simp
    · rw [hitems]
      exact h.chain.update h.new_not_mem
  · cases entries with
    | nil => simp [st', h.num_eq]
    | cons first rest => simp [st', h.num_eq, h.tail_eq]
  · simp only [st', h.num_eq, List.length_cons]
    exact sizeAdd_one_of_lt hroom
  · simp only [st', h.size_eq, List.map_cons, totalSize_cons]
  · exact h.bound_succ buffer
  · exact h.later_new buffer
  · simp only [st', withItem, List.map_cons]
    exact (List.perm_append_singleton _ _).trans (h.nodes.cons _)
  · exact h.freedPtrs
  · exact h.released
  · exact h.requests_le.trans (Nat.le_succ _)

/-- The item of a buffer before it is linked. -/
def newItem (buffer : Buffer) : AVecItem :=
  ⟨none, buffer.ptr, buffer.size, buffer.freePtr⟩

/-- The vector after its items were linked to a new one at the end. -/
def appended (st : VecState) (buffer : Buffer) (head : Option Addr)
    (items : Addr → Option AVecItem) : VecState :=
  { withItem st buffer with
    items := items
    vec :=
      { head := head
        tail := some st.world.requests
        num := sizeAdd st.vec.num 1
        size := sizeAdd st.vec.size buffer.size } }

theorem Consists.appended (h : Consists before st entries) (buffer : Buffer)
    (hroom : entries.length + 1 < 2 ^ 60) {head : Option Addr}
    {items : Addr → Option AVecItem}
    (hchain : vecLayout.IsChain items head
      (entries ++ [(st.world.requests, buffer)])) :
    Consists before (Vec.appended st buffer head items)
      (entries ++ [(st.world.requests, buffer)]) := by
  have hentry : ∀ entry ∈ entries ++ [(st.world.requests, buffer)],
      entry ∈ (st.world.requests, buffer) :: entries := by
    intro entry hmem
    exact (List.perm_append_singleton _ _).mem_iff.mp hmem
  constructor
  · exact hchain
  · simp [Vec.appended]
  · simp only [Vec.appended, h.num_eq, List.length_append]
    exact sizeAdd_one_of_lt hroom
  · simp only [Vec.appended, h.size_eq, List.map_append, List.map_singleton,
      totalSize_concat]
  · intro entry hmem
    exact h.bound_succ buffer entry (hentry entry hmem)
  · intro entry hmem
    exact h.later_new buffer entry (hentry entry hmem)
  · simp only [Vec.appended, withItem, List.map_append, List.map_singleton]
    exact h.nodes.append_right _
  · exact h.freedPtrs
  · exact h.released
  · exact h.requests_le.trans (Nat.le_succ _)

theorem aVecAppendItem_first (buffer : Buffer) (hempty : st.vec.num = 0) :
    aVecAppendItem st.world.requests (withItem st buffer) =
      .ok (Vec.appended st buffer (some st.world.requests)
        (store (withItem st buffer).items st.world.requests
          (newItem buffer))) := by
  simp [aVecAppendItem, writeNext, withItem, load, hempty, Vec.appended,
    newItem]

/-- The item at the end, at another address, gets the new one behind it. -/
theorem aVecAppendItem_linked (buffer : Buffer) (hne : st.vec.num ≠ 0)
    {last : Addr} (htail : st.vec.tail = some last) {lastItem : AVecItem}
    (hlast : Function.update st.items st.world.requests
      (some (newItem buffer)) last = some lastItem)
    (hother : st.world.requests ≠ last) :
    aVecAppendItem st.world.requests (withItem st buffer) =
      .ok (Vec.appended st buffer st.vec.head
        (Function.update
          (Function.update st.items st.world.requests
            (some (newItem buffer))) last
          (some { lastItem with next := some st.world.requests }))) := by
  have hstored : store (withItem st buffer).items st.world.requests
      (newItem buffer) = Function.update st.items st.world.requests
        (some (newItem buffer)) := by
    simp [withItem, store]
  have hfirst : writeNext (withItem st buffer).items
      (some st.world.requests) none =
      .ok (Function.update st.items st.world.requests
        (some (newItem buffer))) := by
    rw [← hstored]
    simp [writeNext, withItem, load, newItem]
  have hsecond : writeNext
      (Function.update st.items st.world.requests (some (newItem buffer)))
      (some last) (some st.world.requests) =
      .ok (Function.update
        (Function.update st.items st.world.requests (some (newItem buffer)))
        last (some { lastItem with next := some st.world.requests })) := by
    simp [writeNext, load_of_eq hlast, store]
  have hload : load (Function.update
      (Function.update st.items st.world.requests (some (newItem buffer)))
      last (some { lastItem with next := some st.world.requests }))
      (some st.world.requests) = .ok (newItem buffer) :=
    load_of_eq (by simp [hother])
  have hnum : (withItem st buffer).vec.num ≠ 0 := hne
  have hend : (withItem st buffer).vec.tail = some last := htail
  simp only [aVecAppendItem, hfirst, ok_bind, if_pos hnum, hend, hsecond,
    hload, pure_eq_ok]
  rfl

theorem Consists.appendItem (h : Consists before st entries)
    (buffer : Buffer)
    (hroom : entries.length + 1 < 2 ^ 60) :
    ∃ st', aVecAppendItem st.world.requests (withItem st buffer) = .ok st' ∧
      Consists before st' (entries ++ [(st.world.requests, buffer)]) ∧
      st'.world.requests = st.world.requests + 1 := by
  rcases List.eq_nil_or_concat entries with rfl | ⟨front, last, hentries⟩
  · refine ⟨_, aVecAppendItem_first buffer h.num_eq,
      h.appended buffer hroom ?_, rfl⟩
    exact ⟨rfl, newItem buffer, by simp, rfl, rfl⟩
  · rw [List.concat_eq_append] at hentries
    subst hentries
    have hnew := h.new_not_mem
    have hchain : vecLayout.IsChain
        (Function.update st.items st.world.requests (some (newItem buffer)))
        st.vec.head (front ++ [last]) := h.chain.update hnew
    obtain ⟨lastItem, hlastItem, hlastView⟩ :=
      hchain.node_of_mem
        (List.mem_append_right front (List.mem_singleton_self last))
    have htail : st.vec.tail = some last.1 := by
      rw [h.tail_eq]
      simp
    have hne : st.vec.num ≠ 0 := by
      rw [h.num_eq]
      simp
    have hother : st.world.requests ≠ last.1 := by
      intro heq
      exact hnew (by simp [heq])
    refine ⟨_, aVecAppendItem_linked buffer hne htail hlastItem hother,
      h.appended buffer hroom ?_, rfl⟩
    have hnode : Function.update st.items st.world.requests
        (some (newItem buffer)) st.world.requests =
        some (newItem buffer) := by simp
    rw [List.append_assoc]
    exact NodeLayout.IsChain.concat hchain hnode rfl rfl hnew rfl hlastView

theorem aVecPrepend_spec (E : Env) (buffer : Buffer)
    (h : Represents before st d)
    (hroom : d.buffers.length + 1 < 2 ^ 60) :
    ∃ st', aVecPrepend E buffer.ptr buffer.size buffer.freePtr st =
        .ok (E.grants d.requests sizeofVecItem, st') ∧
      Represents before st'
        { buffers :=
            if E.grants d.requests sizeofVecItem then buffer :: d.buffers
            else d.buffers
          requests := d.requests + 1 } := by
  have hrefused := h.refused
  rcases h with ⟨entries, hconsists, hbuffers, hrequests⟩
  rw [← hrequests]
  cases hgrant : E.grants st.world.requests sizeofVecItem with
  | true =>
      have hlength : entries.length + 1 < 2 ^ 60 := by
        rw [← hbuffers, List.length_map] at hroom
        exact hroom
      obtain ⟨st', hcall, hafter, hmade⟩ :=
        hconsists.prependItem buffer hlength
      refine ⟨st', ?_, _, hafter, ?_, hmade⟩
      · simp [aVecPrepend, aVecItemAlloc_of_grants buffer hgrant, hcall]
      · simp [hbuffers]
  | false =>
      rw [← hrequests] at hrefused
      refine ⟨_, ?_, by simpa using hrefused⟩
      simp only [aVecPrepend, aVecItemAlloc_of_refused buffer hgrant]

theorem aVecAppend_spec (E : Env) (buffer : Buffer)
    (h : Represents before st d)
    (hroom : d.buffers.length + 1 < 2 ^ 60) :
    ∃ st', aVecAppend E buffer.ptr buffer.size buffer.freePtr st =
        .ok (E.grants d.requests sizeofVecItem, st') ∧
      Represents before st'
        { buffers :=
            if E.grants d.requests sizeofVecItem then d.buffers ++ [buffer]
            else d.buffers
          requests := d.requests + 1 } := by
  have hrefused := h.refused
  rcases h with ⟨entries, hconsists, hbuffers, hrequests⟩
  rw [← hrequests]
  cases hgrant : E.grants st.world.requests sizeofVecItem with
  | true =>
      have hlength : entries.length + 1 < 2 ^ 60 := by
        rw [← hbuffers, List.length_map] at hroom
        exact hroom
      obtain ⟨st', hcall, hafter, hmade⟩ :=
        hconsists.appendItem buffer hlength
      refine ⟨st', ?_, _, hafter, ?_, hmade⟩
      · simp [aVecAppend, aVecItemAlloc_of_grants buffer hgrant, hcall]
      · simp [hbuffers]
  | false =>
      rw [← hrequests] at hrefused
      refine ⟨_, ?_, by simpa using hrefused⟩
      simp only [aVecAppend, aVecItemAlloc_of_refused buffer hgrant]

end Items

section Arrays

variable {E : Env} {before : World} {st : VecState} {d : Deque}

theorem addFront_singleton (buffer : Buffer) (d : Deque) :
    addFront E [buffer] d =
      (E.grants d.requests sizeofVecItem,
        { buffers :=
            if E.grants d.requests sizeofVecItem then buffer :: d.buffers
            else d.buffers
          requests := d.requests + 1 }) := by
  cases hgrant : E.grants d.requests sizeofVecItem with
  | true => simpa using addFront_concat_of_grants [] buffer hgrant
  | false => simpa using addFront_concat_of_refused [] buffer hgrant

theorem addBack_singleton (buffer : Buffer) (d : Deque) :
    addBack E [buffer] d =
      (E.grants d.requests sizeofVecItem,
        { buffers :=
            if E.grants d.requests sizeofVecItem then d.buffers ++ [buffer]
            else d.buffers
          requests := d.requests + 1 }) := by
  cases hgrant : E.grants d.requests sizeofVecItem with
  | true => simpa using addBack_cons_of_grants [] buffer hgrant
  | false => simpa using addBack_cons_of_refused [] buffer hgrant

theorem appendIovecsLoop_spec (E : Env) (freePtr : Bool) (iovecs : List Iovec)
    (h : Represents before st d)
    (hroom : d.buffers.length + iovecs.length < 2 ^ 60) :
    ∃ st', appendIovecsLoop E freePtr iovecs st =
        .ok ((addBack E (iovecs.map (·.buffer freePtr)) d).1, st') ∧
      Represents before st'
        (addBack E (iovecs.map (·.buffer freePtr)) d).2 := by
  induction iovecs generalizing st d with
  | nil => exact ⟨st, by simp [appendIovecsLoop], by simpa using h⟩
  | cons iovec rest ih =>
      rw [List.length_cons] at hroom
      obtain ⟨st₁, hcall, hafter⟩ := aVecAppend_spec E
        (iovec.buffer freePtr) h (by omega)
      rw [List.map_cons]
      cases hgrant : E.grants d.requests sizeofVecItem with
      | true =>
          rw [hgrant] at hcall hafter
          rw [addBack_cons_of_grants _ _ hgrant]
          have hrest : (d.buffers ++ [iovec.buffer freePtr]).length +
              rest.length < 2 ^ 60 := by
            rw [List.length_append, List.length_singleton]
            omega
          obtain ⟨st', hloop, hfinal⟩ := ih hafter hrest
          refine ⟨st', ?_, hfinal⟩
          rw [appendIovecsLoop,
            show aVecAppendIovec E iovec freePtr st = .ok (true, st₁)
              from hcall]
          exact hloop
      | false =>
          rw [hgrant] at hcall hafter
          rw [addBack_cons_of_refused _ _ hgrant]
          refine ⟨st₁, ?_, hafter⟩
          rw [appendIovecsLoop,
            show aVecAppendIovec E iovec freePtr st = .ok (false, st₁)
              from hcall]
          rfl

theorem prependIovecsLoop_spec (E : Env) {array : IovecArray}
    (freePtr : Bool)
    (haddress : sizeofIovec ≤ array.address.toNat) (num : ℕ)
    (hnum : num ≤ array.iovecs.length) (h : Represents before st d)
    (hroom : d.buffers.length + num < 2 ^ 60) :
    ∃ st', prependIovecsLoop E array freePtr num st =
        .ok ((addFront E
          ((array.iovecs.take num).map (·.buffer freePtr)) d).1, st') ∧
      Represents before st' (addFront E
        ((array.iovecs.take num).map (·.buffer freePtr)) d).2 := by
  induction num generalizing st d with
  | zero =>
      refine ⟨st, ?_, by simpa using h⟩
      simp [prependIovecsLoop, not_lt.mpr haddress]
  | succ num ih =>
      obtain ⟨iovec, hiovec⟩ : ∃ iovec, array.iovecs[num]? = some iovec :=
        ⟨_, List.getElem?_eq_getElem (by omega)⟩
      have htake : array.iovecs.take (num + 1) =
          array.iovecs.take num ++ [iovec] := by
        rw [List.take_add_one, hiovec, Option.toList_some]
      obtain ⟨st₁, hcall, hafter⟩ := aVecPrepend_spec E
        (iovec.buffer freePtr) h (by omega)
      have hread : readIovec array.iovecs num = .ok iovec := by
        simp [readIovec, hiovec]
      rw [htake, List.map_append, List.map_singleton, prependIovecsLoop, hread,
        ok_bind]
      cases hgrant : E.grants d.requests sizeofVecItem with
      | true =>
          rw [hgrant] at hcall hafter
          rw [addFront_concat_of_grants _ _ hgrant]
          have hrest : (iovec.buffer freePtr :: d.buffers).length + num <
              2 ^ 60 := by
            rw [List.length_cons]
            omega
          obtain ⟨st', hloop, hfinal⟩ := ih (by omega) hafter hrest
          refine ⟨st', ?_, hfinal⟩
          rw [show aVecPrependIovec E iovec freePtr st = .ok (true, st₁)
            from hcall]
          exact hloop
      | false =>
          rw [hgrant] at hcall hafter
          rw [addFront_concat_of_refused _ _ hgrant]
          refine ⟨st₁, ?_, hafter⟩
          rw [show aVecPrependIovec E iovec freePtr st = .ok (false, st₁)
            from hcall]
          rfl

theorem toIovecLoop_spec {items : Addr → Option AVecItem}
    (entries : List (Addr × Buffer)) {head : Option Addr} {fuel : ℕ}
    (i : ℕ) (iovecs : List Iovec) (hchain : vecLayout.IsChain items head entries)
    (hfuel : entries.length < fuel)
    (hroom : i + entries.length ≤ iovecs.length) :
    toIovecLoop items fuel head i iovecs =
      .ok (iovecs.take i ++ (entries.map Prod.snd).map Buffer.iovec ++
        iovecs.drop (i + entries.length)) := by
  obtain ⟨fuel, rfl⟩ : ∃ n, fuel = n + 1 :=
    Nat.exists_eq_succ_of_ne_zero (by omega)
  induction entries generalizing head fuel i iovecs with
  | nil =>
      rw [NodeLayout.isChain_nil] at hchain
      subst hchain
      simp [toIovecLoop]
  | cons entry rest ih =>
      rcases hchain with ⟨hhead, item, hitem, hview, hrest⟩
      subst hhead
      rw [List.length_cons] at hfuel hroom
      obtain ⟨fuel, rfl⟩ : ∃ n, fuel = n + 1 :=
        Nat.exists_eq_succ_of_ne_zero (by omega)
      have hbuffer : entry.2.iovec = ⟨item.ptr, item.size⟩ := by
        rw [← hview]
        rfl
      have hwrite : writeIovec iovecs i ⟨item.ptr, item.size⟩ =
          .ok (iovecs.set i entry.2.iovec) := by
        rw [writeIovec, if_pos (by omega), hbuffer]
      have hload := load_of_eq hitem
      simp only [toIovecLoop, hload, ok_bind, hwrite]
      change toIovecLoop items (fuel + 1) (vecLayout.link item) (i + 1) _ = _
      rw [ih (i + 1) _ hrest (by rw [List.length_set]; omega) fuel (by omega)]
      have htake : (iovecs.set i entry.2.iovec).take (i + 1) =
          iovecs.take i ++ [entry.2.iovec] := by
        rw [List.take_add_one, List.take_set_of_le le_rfl,
          List.getElem?_set_self (by omega), Option.toList_some]
      have hdrop : (iovecs.set i entry.2.iovec).drop (i + 1 + rest.length) =
          iovecs.drop (i + (rest.length + 1)) := by
        rw [List.drop_set_of_lt (by omega)]
        congr 1
        omega
      simp [htake, hdrop]

theorem aVecToIovec_spec {iovecs : List Iovec} (h : Represents before st d)
    (hroom : d.buffers.length ≤ iovecs.length) :
    aVecToIovec st iovecs =
      .ok (d.buffers.map Buffer.iovec ++ iovecs.drop d.buffers.length) := by
  rcases h with ⟨entries, hconsists, hbuffers, _⟩
  have hlength : entries.length = d.buffers.length := by
    rw [← hbuffers, List.length_map]
  have hfuel : entries.length < st.fuel :=
    Nat.lt_succ_of_le (hconsists.chain.length_le hconsists.bound)
  have hloop := toIovecLoop_spec entries 0 iovecs
    hconsists.chain hfuel (by omega)
  simpa [aVecToIovec, hbuffers, hlength] using hloop

theorem garbageIovecs_length (E : Env) (request n : ℕ) :
    (garbageIovecs E request (sizeofIovec * n)).length = n := by
  simp [garbageIovecs, sizeofIovec]

theorem sizeMul_iovecs {n : ℕ} (h : n < 2 ^ 60) :
    sizeMul sizeofIovec n = sizeofIovec * n := by
  apply sizeMul_of_lt
  simp only [sizeofIovec]
  omega

/-- A new array is filled completely. -/
theorem aVecToIovec_garbage (h : Represents before st d) (request : ℕ)
    (hroom : d.buffers.length < 2 ^ 60) :
    aVecToIovec st
        (garbageIovecs E request (sizeMul sizeofIovec st.vec.num)) =
      .ok (d.buffers.map Buffer.iovec) := by
  have hnum : st.vec.num = d.buffers.length := by
    rcases h with ⟨entries, hconsists, hbuffers, _⟩
    rw [hconsists.num_eq, ← hbuffers, List.length_map]
  have hlength := garbageIovecs_length E request d.buffers.length
  rw [hnum, sizeMul_iovecs hroom, aVecToIovec_spec h hlength.ge,
    List.drop_eq_nil_of_le hlength.le, List.append_nil]

end Arrays

section Runs

variable {E : Env} {before : World} {st : VecState} {d : Deque}
  {w : World} {items : Addr → Option AVecItem}

theorem added_ok {call : Except Fault (Bool × VecState)} {returned : Bool}
    (h : call = .ok (returned, st)) : added call = .ok (.vec returned, st) := by
  subst h
  rfl

theorem toInt_ofNat_of_lt {n : ℕ} (h : n < 2 ^ 31) :
    (BitVec.ofNat 32 n).toInt = n := by
  rw [BitVec.toInt_ofNat', Int.bmod_eq_of_le] <;> omega

theorem vecStep_spec (op : VecOp) (h : Represents before st d)
    (hfits : Fits d op) :
    ∃ st', vecStep E st op = .ok ((dequeStep E d op).1, st') ∧
      Represents before st' (dequeStep E d op).2 := by
  rcases hfits with ⟨hroom, hop⟩
  cases op with
  | prepend ptr size freePtr =>
      obtain ⟨st', hcall, hafter⟩ := aVecPrepend_spec E
        ⟨ptr, size, freePtr⟩ h hroom
      rw [dequeStep, VecOp.buffers, addFront_singleton]
      exact ⟨st', added_ok hcall, hafter⟩
  | append ptr size freePtr =>
      obtain ⟨st', hcall, hafter⟩ := aVecAppend_spec E
        ⟨ptr, size, freePtr⟩ h hroom
      rw [dequeStep, VecOp.buffers, addBack_singleton]
      exact ⟨st', added_ok hcall, hafter⟩
  | prependIovec iovec freePtr =>
      obtain ⟨st', hcall, hafter⟩ := aVecPrepend_spec E
        (iovec.buffer freePtr) h hroom
      rw [dequeStep, VecOp.buffers, addFront_singleton]
      exact ⟨st', added_ok hcall, hafter⟩
  | appendIovec iovec freePtr =>
      obtain ⟨st', hcall, hafter⟩ := aVecAppend_spec E
        (iovec.buffer freePtr) h hroom
      rw [dequeStep, VecOp.buffers, addBack_singleton]
      exact ⟨st', added_ok hcall, hafter⟩
  | prependIovecs array freePtr =>
      rw [VecOp.buffers, List.length_map] at hroom
      obtain ⟨st', hcall, hafter⟩ := prependIovecsLoop_spec E
        freePtr hop array.iovecs.length le_rfl h hroom
      rw [List.take_length] at hcall hafter
      exact ⟨st', added_ok hcall, hafter⟩
  | appendIovecs array freePtr =>
      rw [VecOp.buffers, List.length_map] at hroom
      obtain ⟨st', hcall, hafter⟩ := appendIovecsLoop_spec E
        freePtr array.iovecs h hroom
      exact ⟨st', added_ok hcall, hafter⟩
  | size =>
      refine ⟨st, ?_, h⟩
      rcases h with ⟨entries, hconsists, hbuffers, _⟩
      simp [vecStep, aVecSize, dequeStep, hconsists.size_eq, hbuffers]
  | len =>
      refine ⟨st, ?_, h⟩
      rcases h with ⟨entries, hconsists, hbuffers, _⟩
      simp [vecStep, aVecLen, dequeStep, hconsists.num_eq, ← hbuffers]
  | toIovec iovecs =>
      refine ⟨st, ?_, h⟩
      simp [vecStep, aVecToIovec_spec h hop, dequeStep]
  | toIovecAlloc =>
      have hshort : d.buffers.length < 2 ^ 60 := by omega
      have hfilled := aVecToIovec_garbage (E := E) h st.world.requests hshort
      have hrefused := h.refused
      rcases h with ⟨entries, hconsists, hbuffers, hrequests⟩
      have hsize : sizeMul sizeofIovec st.vec.num =
          sizeofIovec * d.buffers.length := by
        rw [hconsists.num_eq, ← sizeMul_iovecs hshort, ← hbuffers,
          List.length_map]
      rw [hsize] at hfilled
      simp only [dequeStep, ← hrequests]
      cases hgrant : E.grants st.world.requests
          (sizeofIovec * d.buffers.length) with
      | true =>
          have hmalloc := malloc_of_grants hgrant
          refine ⟨{ st with world :=
              { st.world with requests := st.world.requests + 1 } }, ?_,
            entries, { hconsists with bound := ?_, requests_le := ?_ },
            hbuffers, rfl⟩
          · simp only [vecStep, aVecToIovecAlloc, hsize, hmalloc, hfilled,
              ok_bind, pure_eq_ok, if_true]
          · intro entry hentry
            exact (hconsists.bound entry hentry).trans (Nat.lt_succ_self _)
          · exact hconsists.requests_le.trans (Nat.le_succ _)
      | false =>
          rw [← hrequests] at hrefused
          refine ⟨_, ?_, hrefused⟩
          simp [vecStep, aVecToIovecAlloc, hsize, malloc, hgrant]
  | writev fd =>
      refine ⟨st, ?_, h⟩
      have hshort : d.buffers.length < 2 ^ 60 := by omega
      have hfilled := aVecToIovec_garbage (E := E) h st.world.requests hshort
      rcases h with ⟨entries, hconsists, hbuffers, _⟩
      have hnum : st.vec.num = d.buffers.length := by
        rw [hconsists.num_eq, ← hbuffers, List.length_map]
      rw [hnum] at hfilled
      simp only [vecStep, aVecWritev, hnum, hfilled, ok_bind, pure_eq_ok,
        toInt_ofNat_of_lt hop, dequeStep]

/-- A vector just initialised, in any memory. -/
def newVec (items : Addr → Option AVecItem) (w : World) : VecState where
  vec := aVecInit
  items := items
  ledger := ⟨[], []⟩
  world := w

theorem newVec_represents (items : Addr → Option AVecItem) (w : World) :
    Represents w (newVec items w) ⟨[], w.requests⟩ := by
  refine ⟨[], ⟨rfl, rfl, rfl, rfl, ?_, ?_, List.Perm.nil, rfl, rfl, le_rfl⟩,
    rfl, rfl⟩
  · intro entry hentry
    cases hentry
  · intro entry hentry
    cases hentry

abbrev VecConfig := Config VecState VecOp VecOut

def initialConfig (items : Addr → Option AVecItem) (w : World) : VecConfig :=
  Config.initial (newVec items w)

/-- The call returns what the deque returns and leaves the vector with the
buffers of the deque. -/
def DequeCall (E : Env) (w : World) (config : VecConfig) (op : VecOp)
    (after : VecConfig) : Prop :=
  after.transcript = config.transcript ++
      [(op, (dequeStep E (dequeOf E w.requests config.history) op).1)] ∧
    Represents w after.state (dequeOf E w.requests after.history)

def CallFits (E : Env) (w : World) (past : List VecOp) (op : VecOp) : Prop :=
  Fits (dequeOf E w.requests past) op

instance (E : Env) (w : World) (past : List VecOp) (op : VecOp) :
    Decidable (CallFits E w past op) :=
  inferInstanceAs (Decidable (Fits _ _))

/-- Every call of the run finds room, given the calls before it. -/
def AllFit (E : Env) (w : World) (ops : List VecOp) : Prop :=
  Allowed (CallFits E w) [] ops

instance (E : Env) (w : World) (ops : List VecOp) :
    Decidable (AllFit E w ops) :=
  inferInstanceAs (Decidable (Allowed _ _ _))

theorem AllFit.meets {ops : List VecOp} (h : AllFit E w ops) :
    Meets (vecStep E) (fun config op => CallFits E w config.history op)
      (initialConfig items w) ops := by
  apply meets_of_allowed
  exact h

theorem dequeCall_step {config : VecConfig} {op : VecOp}
    (h : Represents w config.state
      (dequeOf E w.requests config.history))
    (hfits : Fits (dequeOf E w.requests config.history) op) :
    ∃ after, config.step (vecStep E) op = .ok after ∧
      DequeCall E w config op after ∧
      Represents w after.state
        (dequeOf E w.requests after.history) := by
  obtain ⟨st', hcall, hafter⟩ := vecStep_spec op h hfits
  have hstep := Config.step_of_ok hcall
  have hhistory := Config.history_step hstep
  have hrepresents : Represents w st'
      (dequeOf E w.requests (config.history ++ [op])) := by
    rw [dequeOf_append]
    exact hafter
  rw [← hhistory] at hrepresents
  exact ⟨_, hstep, ⟨rfl, hrepresents⟩, hrepresents⟩

/-- With any allocator and in any memory, a vector is a deque of buffers. -/
theorem vec_refines_deque (E : Env) (items : Addr → Option AVecItem)
    (w : World) (ops : List VecOp) (hfit : AllFit E w ops) :
    Keeps (vecStep E) (DequeCall E w) (initialConfig items w) ops :=
  keeps_of_meets (fun _ _ => dequeCall_step) (newVec_represents items w)
    hfit.meets

/-- An allocator which grants this many requests and no more. -/
def firstGranted (n : ℕ) : Env where
  grants := fun request _ => request < n
  garbage := fun _ _ => 0
  userGetcode := fun _ => none

def emptyWorld : World := ⟨0, 0, .null, [], false⟩

/-- Two buffers at the back and two in front, of which the allocator grants
only the last. -/
def someCalls : List VecOp :=
  [.append 256 3 true, .appendIovec ⟨512, 4⟩ false,
    .prependIovecs ⟨4096, [⟨768, 5⟩, ⟨1024, 6⟩]⟩ true, .size, .len,
    .writev 1]

theorem vec_refines_deque_some :
    Keeps (vecStep (firstGranted 3)) (DequeCall (firstGranted 3) emptyWorld)
      (initialConfig (fun _ => none) emptyWorld) someCalls :=
  vec_refines_deque (firstGranted 3) (fun _ => none) emptyWorld someCalls
    (by decide)

example : dequeOf (firstGranted 3) 0 someCalls =
    ⟨[⟨1024, 6, true⟩, ⟨256, 3, true⟩, ⟨512, 4, false⟩], 4⟩ := by decide

theorem represents_of_run {ops : List VecOp} {final : VecConfig}
    (hfit : AllFit E w ops)
    (hrun : run (vecStep E) (initialConfig items w) ops = .ok final) :
    Represents w final.state
      (dequeOf E w.requests final.history) := by
  have hstep : ∀ (config : VecConfig) op after,
      Represents w config.state (dequeOf E w.requests config.history) →
      Fits (dequeOf E w.requests config.history) op →
      config.step (vecStep E) op = .ok after →
      Represents w after.state (dequeOf E w.requests after.history) := by
    intro config op after hinv hfits hstep
    obtain ⟨other, hother, _, hrepresents⟩ := dequeCall_step hinv hfits
    obtain rfl : other = after := Config.step_unique hother hstep
    exact hrepresents
  exact inv_of_run hstep (newVec_represents items w) hfit.meets hrun

end Runs

end Vec
end Alib
