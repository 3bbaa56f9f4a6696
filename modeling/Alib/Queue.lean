import Alib.Platform
import Alib.Monitor
import Alib.NodeChain

/-!
# The shared queue

`queue.c`: a chain of items with a head and a tail behind one mutex.
Dequeuers sleep on `waiting_cond` while the queue is open and its count is
zero; `watching_cond` is for `q_deinit`.  The three counters are
`unsigned int`s.  What a call does before it locks and after it unlocks
touches its own item only and is part of its section here.  `xmalloc` does not
return without memory, so an item is always obtained; it is named by a number
not used before.
-/

namespace Alib
namespace Queue

open Monitor

structure QItem where
  data : Ptr
  ptr : Option Addr
  flags : ℕ

structure QueueStruct where
  head : Option Addr
  tail : Option Addr
  num : ℕ
  waiting : ℕ
  watching : ℕ
  isOpen : Bool

/-- The queue, its items, the number of items obtained, and what has been
freed: items, and data freed with them. -/
structure QueueState where
  queue : QueueStruct
  items : Addr → Option QItem
  allocated : ℕ
  freedItems : List Addr
  freedData : List Ptr

inductive QueueCond where
  | waiting
  | watching
  deriving DecidableEq

inductive QueueCall where
  | qEnque (data : Ptr) (flags : ℕ)
  | qDequeue
  | qNum
  | qClose
  | qOpen

/-- What a call returns; `closed` is the `NULL` of `q_dequeue` on a closed
empty queue. -/
inductive QueueRet where
  | status (code : ℕ)
  | data (data : Ptr)
  | closed
  | num (num : ℕ)
  | unit

def queueFlagFreeData : ℕ := 1
def queueStatusSuccess : ℕ := 0
def queueStatusClosed : ℕ := 1

def uintSucc (n : ℕ) : ℕ := (n + 1) % 2 ^ 32

def uintPred (n : ℕ) : ℕ := (n + (2 ^ 32 - 1)) % 2 ^ 32

abbrev QueueSection := SectionResult QueueCond QueueState QueueRet

/-- `q_init()` -/
def qInit : QueueState where
  queue := ⟨none, none, 0, 0, 0, true⟩
  items := fun _ => none
  allocated := 0
  freedItems := []
  freedData := []

def newQItem (data : Ptr) (flags : ℕ) (st : QueueState) :
    Addr × QueueState :=
  (st.allocated,
    { st with
      items := store st.items st.allocated ⟨data, none, flags⟩
      allocated := st.allocated + 1 })

/-- `if(item->flags & queue_flag_free_data && item->data)` and what follows,
for an item that is not `NULL`. -/
def delQItem (item : Addr) (st : QueueState) : Except Fault QueueState := do
  let node ← load st.items (some item)
  let freed := if node.flags &&& queueFlagFreeData ≠ 0 ∧ node.data ≠ 0 then
    [node.data] else []
  return { st with
    items := Function.update st.items item none
    freedItems := st.freedItems ++ [item]
    freedData := st.freedData ++ freed }

/-- `if(count) pthread_cond_...` -/
def noticeIf (count : ℕ) (notice : Notice QueueCond) :
    List (Notice QueueCond) :=
  if count ≠ 0 then [notice] else []

/-- Link the item behind the tail, or as the head. -/
def linkItem (item : Addr) (st : QueueState) : Except Fault QueueState :=
  match st.queue.tail with
  | some tail => do
      let node ← load st.items (some tail)
      return { st with
        items := store st.items tail { node with ptr := some item } }
  | none => .ok { st with queue := { st.queue with head := some item } }

def qEnque (data : Ptr) (flags : ℕ) (st : QueueState) :
    Except Fault QueueSection :=
  let (item, st) := newQItem data flags st
  if st.queue.isOpen = false then
    .ok ⟨st, [], .leave (.status queueStatusClosed)⟩
  else do
    let st ← linkItem item st
    let q := { st.queue with
      tail := some item
      num := uintSucc st.queue.num }
    return ⟨{ st with queue := q },
      noticeIf q.watching (.broadcast .watching) ++
        noticeIf q.waiting (.signal .waiting),
      .leave (.status queueStatusSuccess)⟩

/-- Take the item at the head: unlink it, and once the mutex is released empty
and delete it. -/
def takeHead (st : QueueState) : Except Fault (Ptr × QueueState) :=
  match st.queue.head with
  | none => .error .nullPointer
  | some item => do
      let node ← load st.items (some item)
      let q := { st.queue with
        head := node.ptr
        tail := if node.ptr = none then none else st.queue.tail
        num := uintPred st.queue.num }
      let st ← delQItem item { st with
        queue := q
        items := store st.items item { node with data := 0 } }
      return (node.data, st)

/-- `q_dequeue` from the test of its loop on. -/
def qDequeue (st : QueueState) : Except Fault QueueSection :=
  if st.queue.isOpen = true ∧ st.queue.num = 0 then
    let q := { st.queue with waiting := uintSucc st.queue.waiting }
    .ok ⟨{ st with queue := q }, [], .wait .waiting⟩
  else if st.queue.num = 0 ∧ st.queue.isOpen = false then
    .ok ⟨st, noticeIf st.queue.watching (.broadcast .watching),
      .leave .closed⟩
  else do
    let (data, st) ← takeHead st
    return ⟨st, noticeIf st.queue.watching (.broadcast .watching),
      .leave (.data data)⟩

/-- `q->waiting--` after the wait, and the loop again. -/
def qDequeueWoken (st : QueueState) : Except Fault QueueSection :=
  qDequeue { st with
    queue := { st.queue with waiting := uintPred st.queue.waiting } }

def qNum (st : QueueState) : QueueSection :=
  ⟨st, [], .leave (.num st.queue.num)⟩

def changeOpen (isOpen : Bool) (st : QueueState) : QueueSection :=
  ⟨{ st with queue := { st.queue with isOpen := isOpen } },
    noticeIf st.queue.watching (.broadcast .watching) ++
      noticeIf st.queue.waiting (.signal .waiting),
    .leave .unit⟩

def qClose (st : QueueState) : QueueSection := changeOpen false st

def qOpen (st : QueueState) : QueueSection := changeOpen true st

def enter : QueueCall → QueueState → Except Fault QueueSection
  | .qEnque data flags, st => qEnque data flags st
  | .qDequeue, st => qDequeue st
  | .qNum, st => .ok (qNum st)
  | .qClose, st => .ok (qClose st)
  | .qOpen, st => .ok (qOpen st)

/-- Only `q_dequeue` waits. -/
def resume : QueueCall → QueueState → Except Fault QueueSection
  | .qDequeue, st => qDequeueWoken st
  | _, _ => .error .nullCallback

def queueProgram :
    Program QueueCond QueueState QueueCall QueueRet Fault where
  enter := enter
  resume := resume

/-- What an item in the chain shows. -/
structure Entry where
  addr : Addr
  data : Ptr
  flags : ℕ

def itemLayout : NodeLayout Addr QItem Entry where
  link := QItem.ptr
  view := fun a node => ⟨a, node.data, node.flags⟩
  addr := Entry.addr
  addr_view := fun _ _ => rfl

/-- The chain from the head holds the entries, the tail is the last of them
and the count is their number in an `unsigned int`. -/
structure QueueHolds (st : QueueState) (entries : List Entry) : Prop where
  chain : itemLayout.IsChain st.items st.queue.head entries
  tail_eq : st.queue.tail = (entries.getLast?).map Entry.addr
  num_eq : st.queue.num = entries.length % 2 ^ 32
  addr_lt : ∀ entry ∈ entries, entry.addr < st.allocated

section Specs

variable {st : QueueState} {entries : List Entry}

theorem uintSucc_length (n : ℕ) :
    uintSucc (n % 2 ^ 32) = (n + 1) % 2 ^ 32 := by
  simp [uintSucc]

theorem uintPred_succ (n : ℕ) :
    uintPred ((n + 1) % 2 ^ 32) = n % 2 ^ 32 := by
  unfold uintPred
  omega

theorem queueHolds_init : QueueHolds qInit [] :=
  ⟨rfl, rfl, rfl, by simp⟩

theorem QueueHolds.head_eq_none_iff (h : QueueHolds st entries) :
    st.queue.head = none ↔ entries = [] := by
  have hchain := h.chain
  cases entries with
  | nil => simpa using hchain
  | cons entry rest => simp [hchain.1]

theorem QueueHolds.tail_eq_none_iff (h : QueueHolds st entries) :
    st.queue.tail = none ↔ st.queue.head = none := by
  rw [h.head_eq_none_iff, h.tail_eq]
  simp

theorem QueueHolds.withItem (h : QueueHolds st entries) (data : Ptr)
    (flags : ℕ) : QueueHolds (newQItem data flags st).2 entries := by
  refine ⟨h.chain.update ?_, h.tail_eq, h.num_eq,
    fun entry hentry => Nat.lt_succ_of_lt (h.addr_lt entry hentry)⟩
  intro hmem
  obtain ⟨entry, hentry, haddr⟩ := List.mem_map.mp hmem
  have heq : entry.addr = st.allocated := haddr
  exact absurd (heq ▸ h.addr_lt entry hentry) (lt_irrefl _)

theorem newQItem_not_mem (h : QueueHolds st entries) :
    st.allocated ∉ entries.map itemLayout.addr := by
  intro hmem
  obtain ⟨entry, hentry, haddr⟩ := List.mem_map.mp hmem
  have heq : entry.addr = st.allocated := haddr
  exact absurd (heq ▸ h.addr_lt entry hentry) (lt_irrefl _)

/-- Linking the new item extends the chain at its end. -/
theorem QueueHolds.linked (h : QueueHolds st entries) (data : Ptr)
    (flags : ℕ) :
    ∃ linked,
      linkItem st.allocated (newQItem data flags st).2 = .ok linked ∧
      linked.allocated = st.allocated + 1 ∧
      linked.queue.num = st.queue.num ∧
      linked.queue.waiting = st.queue.waiting ∧
      linked.queue.watching = st.queue.watching ∧
      linked.queue.isOpen = st.queue.isOpen ∧
      itemLayout.IsChain linked.items linked.queue.head
        (entries ++ [⟨st.allocated, data, flags⟩]) := by
  have hnew := (h.withItem data flags).chain
  have hnotMem := newQItem_not_mem h
  have htail := h.tail_eq
  rcases List.eq_nil_or_concat entries with hnil | ⟨front, last, hitems⟩
  · subst hnil
    have htailNone : (newQItem data flags st).2.queue.tail = none := htail
    refine ⟨{ (newQItem data flags st).2 with
      queue := { st.queue with head := some st.allocated } }, ?_, rfl, rfl,
      rfl, rfl, rfl, rfl, ⟨data, none, flags⟩, ?_, rfl, rfl⟩
    · unfold linkItem
      rw [htailNone]
      rfl
    · exact store_same _ _ _
  · rw [List.concat_eq_append] at hitems
    subst hitems
    have htailLast : (newQItem data flags st).2.queue.tail =
        some last.addr := by
      have hlast : st.queue.tail = some last.addr := by
        rw [htail]
        simp
      exact hlast
    obtain ⟨node, hlast, hview⟩ :=
      hnew.node_of_mem (show last ∈ front ++ [last] by simp)
    have hnode : (newQItem data flags st).2.items last.addr = some node :=
      hlast
    refine ⟨{ (newQItem data flags st).2 with
      items := store (newQItem data flags st).2.items last.addr
        { node with ptr := some st.allocated } }, ?_, rfl, rfl, rfl, rfl, rfl,
      ?_⟩
    · unfold linkItem
      rw [htailLast]
      simp only [load_of_eq hnode, ok_bind, pure_eq_ok]
    · let entry : Entry := ⟨st.allocated, data, flags⟩
      have hentry : (newQItem data flags st).2.items
          (itemLayout.addr entry) = some ⟨data, none, flags⟩ :=
        store_same _ _ _
      rw [List.append_assoc]
      exact hnew.concat hentry rfl rfl hnotMem rfl hview

theorem qEnque_closed (hclosed : st.queue.isOpen = false) (data : Ptr)
    (flags : ℕ) :
    qEnque data flags st =
      .ok ⟨(newQItem data flags st).2, [],
        .leave (.status queueStatusClosed)⟩ := by
  have hsame : (newQItem data flags st).2.queue.isOpen = false := hclosed
  unfold qEnque
  simp only [hsame, if_true]

theorem QueueHolds.enqued (h : QueueHolds st entries)
    (hopen : st.queue.isOpen = true) (data : Ptr) (flags : ℕ) :
    ∃ after,
      qEnque data flags st =
        .ok ⟨after, noticeIf st.queue.watching (.broadcast .watching) ++
          noticeIf st.queue.waiting (.signal .waiting),
          .leave (.status queueStatusSuccess)⟩ ∧
      QueueHolds after (entries ++ [⟨st.allocated, data, flags⟩]) ∧
      after.queue.waiting = st.queue.waiting ∧
      after.queue.watching = st.queue.watching ∧
      after.queue.isOpen = true := by
  obtain ⟨linked, hlinked, hallocated, hnum, hwaiting, hwatching, hisOpen,
    hchain⟩ := h.linked data flags
  have hsame : (newQItem data flags st).2.queue.isOpen = true := hopen
  refine ⟨{ linked with queue := { linked.queue with
    tail := some st.allocated
    num := uintSucc linked.queue.num } }, ?_, ⟨hchain, ?_, ?_, ?_⟩, hwaiting,
    hwatching, hisOpen.trans hopen⟩
  · have hitem : (newQItem data flags st).1 = st.allocated := rfl
    unfold qEnque
    simp only [hsame, Bool.true_eq_false, if_false, hitem, hlinked, ok_bind,
      pure_eq_ok, hwaiting, hwatching]
  · simp
  · simp only
    rw [hnum, h.num_eq, uintSucc_length]
    simp
  · intro entry hentry
    simp only [hallocated]
    rcases List.mem_append.mp hentry with hold | hnew
    · exact Nat.lt_succ_of_lt (h.addr_lt entry hold)
    · rw [List.mem_singleton.mp hnew]
      exact Nat.lt_succ_self _

theorem QueueHolds.taken {entry : Entry} {rest : List Entry}
    (h : QueueHolds st (entry :: rest)) :
    ∃ after,
      takeHead st = .ok (entry.data, after) ∧
      QueueHolds after rest ∧
      after.queue.waiting = st.queue.waiting ∧
      after.queue.watching = st.queue.watching ∧
      after.queue.isOpen = st.queue.isOpen := by
  have hnodup := h.chain.nodup
  rcases h with ⟨⟨hhead, node, hnode, hview, hrest⟩, htail, hnum, hlt⟩
  have hnotMem : entry.addr ∉ rest.map itemLayout.addr :=
    (List.nodup_cons.mp hnodup).1
  have hload : st.items entry.addr = some node := hnode
  have hheadAddr : st.queue.head = some entry.addr := hhead
  have hdata : node.data = entry.data := by
    rw [← hview]
    rfl
  have htake : takeHead st = .ok (entry.data,
      { st with
        queue := { st.queue with
          head := node.ptr
          tail := if node.ptr = none then none else st.queue.tail
          num := uintPred st.queue.num }
        items := Function.update
          (store st.items entry.addr { node with data := 0 }) entry.addr none
        freedItems := st.freedItems ++ [entry.addr]
        freedData := st.freedData ++ [] }) := by
    have hemptied : load (store st.items entry.addr { node with data := 0 })
        (some entry.addr) = .ok { node with data := 0 } :=
      load_of_eq (store_same _ _ _)
    unfold takeHead delQItem
    rw [hheadAddr]
    simp only [load_of_eq hload, ok_bind, hemptied, pure_eq_ok, hdata]
    simp
  refine ⟨_, htake, ⟨?_, ?_, ?_, ?_⟩, rfl, rfl, rfl⟩
  · exact (hrest.update hnotMem).update hnotMem
  · cases rest with
    | nil =>
        have hlink : node.ptr = none := hrest
        simp [hlink]
    | cons next rest =>
        have hlink : node.ptr = some next.addr := hrest.1
        simpa [hlink] using htail
  · simp only
    rw [hnum, List.length_cons, uintPred_succ]
  · exact fun other hother => hlt other (List.mem_cons_of_mem _ hother)

/-- The chain does not depend on who waits and whether the queue is open. -/
theorem QueueHolds.withCounts (h : QueueHolds st entries)
    (waiting watching : ℕ) (isOpen : Bool) :
    QueueHolds { st with queue := { st.queue with
      waiting := waiting, watching := watching, isOpen := isOpen } }
      entries :=
  ⟨h.chain, h.tail_eq, h.num_eq, h.addr_lt⟩

theorem QueueHolds.withWaiting (h : QueueHolds st entries) (waiting : ℕ) :
    QueueHolds { st with queue := { st.queue with waiting := waiting } }
      entries :=
  h.withCounts waiting st.queue.watching st.queue.isOpen

/-- What `q_dequeue` does from its loop on: it waits, gives up or takes the
head. -/
inductive Dequeues (st : QueueState) (entries : List Entry) :
    QueueSection → Prop
  | waits (hopen : st.queue.isOpen = true) (hnum : st.queue.num = 0) :
      Dequeues st entries
        ⟨{ st with queue :=
            { st.queue with waiting := uintSucc st.queue.waiting } }, [],
          .wait .waiting⟩
  | closed (hclosed : st.queue.isOpen = false) (hnum : st.queue.num = 0) :
      Dequeues st entries
        ⟨st, noticeIf st.queue.watching (.broadcast .watching),
          .leave .closed⟩
  | takes {entry : Entry} {rest : List Entry} {after : QueueState}
      (hnum : st.queue.num ≠ 0) (hentries : entries = entry :: rest)
      (hholds : QueueHolds after rest)
      (hwaiting : after.queue.waiting = st.queue.waiting)
      (hwatching : after.queue.watching = st.queue.watching)
      (hopen : after.queue.isOpen = st.queue.isOpen) :
      Dequeues st entries
        ⟨after, noticeIf st.queue.watching (.broadcast .watching),
          .leave (.data entry.data)⟩

theorem QueueHolds.dequeues (h : QueueHolds st entries) :
    ∃ result, qDequeue st = .ok result ∧ Dequeues st entries result := by
  by_cases hnum : st.queue.num = 0
  · cases hopen : st.queue.isOpen with
    | true => exact ⟨_, by simp [qDequeue, hnum, hopen], .waits hopen hnum⟩
    | false => exact ⟨_, by simp [qDequeue, hnum, hopen], .closed hopen hnum⟩
  · cases entries with
    | nil => exact absurd h.num_eq hnum
    | cons entry rest =>
        obtain ⟨after, htake, hholds, hwaiting, hwatching, hopen⟩ := h.taken
        refine ⟨_, ?_, .takes hnum rfl hholds hwaiting hwatching hopen⟩
        simp [qDequeue, hnum, htake, hwatching]

end Specs

end Queue
end Alib
