import Alib.QueueDeinit

/-!
# The account of the items of the shared queue

While the queue lives, the items obtained are those deleted, those in the
chain and one for every refused call of `q_enque`, which obtains its item
before it finds the queue closed and then leaves it behind.  `q_deinit`
deletes the chain, so the items of the refused calls are all that is missing
in the end.  Data is freed with the items of the chain only: `q_dequeue`
empties the item that it deletes.
-/

namespace Alib
namespace Queue

open Monitor

variable {T : Type*}

abbrev DeinitLog (T : Type*) := List (T × DeinitCall × QueueRet)

def sharedEntry :
    T × DeinitCall × QueueRet → Option (T × QueueCall × QueueRet)
  | (thread, .shared call, ret) => some (thread, call, ret)
  | (_, .qDeinit, _) => none

/-- The returned calls of the functions other than `q_deinit`. -/
def sharedLog (log : DeinitLog T) : QueueLog T := log.filterMap sharedEntry

def itemWithStatus (expected : ℕ) :
    QueueCall → QueueRet → Option (Ptr × ℕ)
  | .qEnque data flags, .status code =>
      if code = expected then some (data, flags) else none
  | _, _ => none

def acceptedItems (log : QueueLog T) : List (Ptr × ℕ) :=
  recorded (itemWithStatus queueStatusSuccess) log

def refusedItems (log : QueueLog T) : List (Ptr × ℕ) :=
  recorded (itemWithStatus queueStatusClosed) log

/-- Every item obtained is deleted exactly once; the first items accepted are
those handed out; and the data freed are those of the other items accepted,
each once, where it is to be freed with its item. -/
structure Accounts (st : QueueState) (log : QueueLog T) : Prop where
  items : st.freedItems.Perm (List.range st.allocated)
  order : ((acceptedItems log).take (handedOut log).length).map Prod.fst =
    handedOut log
  data : st.freedData =
    freedWith ((acceptedItems log).drop (handedOut log).length)

/-- The items obtained while the queue lives: deleted, in the chain, or left
behind by a refused call. -/
structure Ledger (st : QueueState) (log : QueueLog T) (entries : List Entry)
    (left : List Addr) : Prop where
  holds : QueueHolds st entries
  refusals : left.length = (refusedItems log).length
  items : (st.freedItems ++ entries.map Entry.addr ++ left).Perm
    (List.range st.allocated)
  data : st.freedData = []
  order : ∃ taken, taken.map Prod.fst = handedOut log ∧
    acceptedItems log = taken ++ entries.map Entry.item

/-- The items obtained once the queue is freed. -/
structure Settled (st : QueueState) (log : QueueLog T) (left : List Addr) :
    Prop where
  refusals : left.length = (refusedItems log).length
  items : (st.freedItems ++ left).Perm (List.range st.allocated)
  order : ((acceptedItems log).take (handedOut log).length).map Prod.fst =
    handedOut log
  data : st.freedData =
    freedWith ((acceptedItems log).drop (handedOut log).length)

section Logs

variable {log : QueueLog T} {thread : T} {call : QueueCall} {ret : QueueRet}

theorem acceptedItems_concat :
    acceptedItems (log ++ [(thread, call, ret)]) = acceptedItems log ++
      (itemWithStatus queueStatusSuccess call ret).toList :=
  recorded_concat _ _ _ _ _

theorem refusedItems_concat :
    refusedItems (log ++ [(thread, call, ret)]) = refusedItems log ++
      (itemWithStatus queueStatusClosed call ret).toList :=
  recorded_concat _ _ _ _ _

theorem handedOut_concat :
    handedOut (log ++ [(thread, call, ret)]) =
      handedOut log ++ (takenData call ret).toList :=
  recorded_concat takenData _ _ _ _

theorem sharedLog_shared (log : DeinitLog T)
    (ending : SectionEnd QueueCond QueueRet) :
    sharedLog (ending.logged thread (.shared call) log) =
      ending.logged thread call (sharedLog log) := by
  cases ending with
  | leave ret => simp [SectionEnd.logged, sharedLog, sharedEntry]
  | wait cond => rfl

theorem sharedLog_qDeinit (log : DeinitLog T)
    (ending : SectionEnd QueueCond QueueRet) :
    sharedLog (ending.logged thread .qDeinit log) = sharedLog log := by
  cases ending with
  | leave ret => simp [SectionEnd.logged, sharedLog, sharedEntry]
  | wait cond => rfl

end Logs

section Sections

variable {st after : QueueState} {entries : List Entry} {log : QueueLog T}
  {left : List Addr}

theorem linkItem_deleted {item : Addr}
    (h : linkItem item st = .ok after) : Deleted st after [] := by
  unfold linkItem at h
  cases htail : st.queue.tail with
  | none =>
      rw [htail] at h
      cases h
      exact ⟨by simp, by simp [freedWith], rfl⟩
  | some tail =>
      rw [htail] at h
      obtain ⟨node, _, hnode⟩ := bind_eq_ok_iff.mp h
      cases hnode
      exact ⟨by simp, by simp [freedWith], rfl⟩

theorem qEnque_deleted {data : Ptr} {flags : ℕ} {result : QueueSection}
    (hopen : st.queue.isOpen = true)
    (h : qEnque data flags st = .ok result) :
    Deleted (newQItem data flags st).2 result.state [] := by
  have hsame : (newQItem data flags st).2.queue.isOpen = true := hopen
  unfold qEnque at h
  simp only [hsame, Bool.true_eq_false, if_false] at h
  obtain ⟨linked, hlinked, hresult⟩ := bind_eq_ok_iff.mp h
  have hdeleted := linkItem_deleted hlinked
  cases hresult
  exact ⟨hdeleted.items, hdeleted.data, hdeleted.allocated⟩

/-- The item is emptied before it is deleted. -/
theorem takeHead_deleted {entry : Entry} {rest : List Entry} {data : Ptr}
    (h : QueueHolds st (entry :: rest))
    (htake : takeHead st = .ok (data, after)) :
    Deleted st after [⟨entry.addr, 0, entry.flags⟩] := by
  rcases h.chain with ⟨hhead, node, hnode, hview, _⟩
  have haddr : st.queue.head = some entry.addr := hhead
  have hload : load st.items (some entry.addr) = .ok node :=
    load_of_eq hnode
  have hflags : node.flags = entry.flags := by
    rw [← hview]
    rfl
  unfold takeHead at htake
  rw [haddr] at htake
  simp only [hload, ok_bind] at htake
  obtain ⟨deleted, hdelete, hafter⟩ := bind_eq_ok_iff.mp htake
  cases hafter
  let emptied : QueueState := { st with
    queue := { st.queue with
      head := node.ptr
      tail := if node.ptr = none then none else st.queue.tail
      num := uintPred st.queue.num }
    items := store st.items entry.addr { node with data := 0 } }
  have hempty : emptied.items
      (Entry.mk entry.addr 0 entry.flags).addr =
        some { node with data := 0 } := store_same _ _ _
  obtain ⟨other, hother, _, hdeleted⟩ := delQItem_spec hempty
    (by rw [← hflags]; rfl)
  rw [show delQItem entry.addr emptied = _ from hdelete] at hother
  cases hother
  exact ⟨hdeleted.items, hdeleted.data, hdeleted.allocated⟩

theorem qDequeue_deleted {entry : Entry} {rest : List Entry}
    {result : QueueSection} (h : QueueHolds st (entry :: rest))
    (hnum : st.queue.num ≠ 0) (hresult : qDequeue st = .ok result) :
    Deleted st result.state [⟨entry.addr, 0, entry.flags⟩] := by
  unfold qDequeue at hresult
  rw [if_neg (fun hloop => hnum hloop.2),
    if_neg (fun hclosed => hnum hclosed.1)] at hresult
  obtain ⟨taken, htake, htaken⟩ := bind_eq_ok_iff.mp hresult
  cases htaken
  exact takeHead_deleted h htake

theorem Ledger.withCounts (h : Ledger st log entries left)
    (waiting watching : ℕ) (isOpen : Bool) :
    Ledger { st with queue := { st.queue with
      waiting := waiting, watching := watching, isOpen := isOpen } }
      log entries left :=
  ⟨h.holds.withCounts waiting watching isOpen, h.refusals, h.items, h.data,
    h.order⟩

theorem Ledger.length_le (h : Ledger st log entries left) :
    entries.length ≤ st.allocated := by
  have hlength := h.items.length_eq
  simp only [List.length_append, List.length_map, List.length_range]
    at hlength
  omega

theorem ledger_init : Ledger qInit ([] : QueueLog T) [] [] :=
  ⟨queueHolds_init, rfl, List.Perm.nil, rfl, [], rfl, rfl⟩

/-- A returned call that moves no item. -/
theorem Ledger.returned (h : Ledger st log entries left) {thread : T}
    {call : QueueCall} {ret : QueueRet}
    (haccepted : itemWithStatus queueStatusSuccess call ret = none)
    (hrefused : itemWithStatus queueStatusClosed call ret = none)
    (htaken : takenData call ret = none) :
    Ledger st (log ++ [(thread, call, ret)]) entries left := by
  rcases h.order with ⟨taken, hhanded, hitems⟩
  refine ⟨h.holds, ?_, h.items, h.data, taken, ?_, ?_⟩
  · rw [refusedItems_concat, hrefused, h.refusals]
    simp
  · rw [handedOut_concat, htaken, hhanded]
    simp
  · rw [acceptedItems_concat, haccepted, hitems]
    simp

theorem Ledger.refused (h : Ledger st log entries left) (thread : T)
    (data : Ptr) (flags : ℕ) :
    Ledger (newQItem data flags st).2
      (log ++ [(thread, .qEnque data flags, .status queueStatusClosed)])
      entries (left ++ [st.allocated]) := by
  rcases h.order with ⟨taken, hhanded, hitems⟩
  refine ⟨h.holds.withItem data flags, ?_, ?_, h.data, taken, ?_, ?_⟩
  · rw [refusedItems_concat, List.length_append, h.refusals]
    simp [itemWithStatus]
  · have hperm := h.items.append_right [st.allocated]
    rw [← List.range_succ, List.append_assoc] at hperm
    exact hperm
  · rw [handedOut_concat, hhanded]
    simp [takenData]
  · rw [acceptedItems_concat, hitems]
    simp [itemWithStatus, queueStatusClosed, queueStatusSuccess]

theorem Ledger.accepted (h : Ledger st log entries left) (thread : T)
    (data : Ptr) (flags : ℕ)
    (hholds : QueueHolds after (entries ++ [⟨st.allocated, data, flags⟩]))
    (hdeleted : Deleted (newQItem data flags st).2 after []) :
    Ledger after
      (log ++ [(thread, .qEnque data flags, .status queueStatusSuccess)])
      (entries ++ [⟨st.allocated, data, flags⟩]) left := by
  rcases h.order with ⟨taken, hhanded, hitems⟩
  have hfreed : after.freedItems = st.freedItems := by
    rw [hdeleted.items]
    exact List.append_nil _
  have hallocated : after.allocated = st.allocated + 1 :=
    hdeleted.allocated
  refine ⟨hholds, ?_, ?_, ?_, taken, ?_, ?_⟩
  · rw [refusedItems_concat, h.refusals]
    simp [itemWithStatus, queueStatusClosed, queueStatusSuccess]
  · rw [hfreed, hallocated, List.range_succ]
    refine List.Perm.trans ?_ (h.items.append_right [st.allocated])
    simp only [List.map_append, List.map_cons, List.map_nil,
      List.append_assoc]
    exact ((List.perm_append_comm).append_left _).append_left _
  · rw [hdeleted.data]
    exact (List.append_nil _).trans h.data
  · rw [handedOut_concat, hhanded]
    simp [takenData]
  · rw [acceptedItems_concat, hitems]
    simp [itemWithStatus, Entry.item]

theorem Ledger.handed {entry : Entry} {rest : List Entry}
    (h : Ledger st log (entry :: rest) left) (thread : T)
    (hholds : QueueHolds after rest)
    (hdeleted : Deleted st after [⟨entry.addr, 0, entry.flags⟩]) :
    Ledger after (log ++ [(thread, .qDequeue, .data entry.data)]) rest
      left := by
  rcases h.order with ⟨taken, hhanded, hitems⟩
  refine ⟨hholds, ?_, ?_, ?_, taken ++ [entry.item], ?_, ?_⟩
  · rw [refusedItems_concat, h.refusals]
    simp [itemWithStatus]
  · rw [hdeleted.items, hdeleted.allocated]
    have hperm := h.items
    simp only [List.map_cons, List.map_nil, List.append_assoc,
      List.cons_append, List.nil_append] at hperm ⊢
    exact hperm
  · rw [hdeleted.data, h.data]
    simp [freedWith, Entry.item, FreesData]
  · rw [handedOut_concat, List.map_append, hhanded]
    rfl
  · rw [acceptedItems_concat, hitems]
    simp [itemWithStatus]

theorem Ledger.dequeued (h : Ledger st log entries left) (thread : T)
    {result : QueueSection} (hresult : qDequeue st = .ok result) :
    ∃ entries, Ledger result.state
      (result.ending.logged thread .qDequeue log) entries left := by
  obtain ⟨other, hother, hdequeues⟩ := h.holds.dequeues
  rw [hresult] at hother
  cases hother
  cases hdequeues with
  | waits hopen hnum =>
      exact ⟨entries, h.withCounts _ st.queue.watching st.queue.isOpen⟩
  | closed hclosed hnum => exact ⟨entries, h.returned rfl rfl rfl⟩
  | takes hnum hentries hholds hwaiting hwatching hopen =>
      subst hentries
      have hdeleted := qDequeue_deleted h.holds hnum hresult
      exact ⟨_, h.handed thread hholds hdeleted⟩

theorem Ledger.section (h : Ledger st log entries left) (thread : T)
    {call : QueueCall} {result : QueueSection}
    (hresult : enter call st = .ok result ∨ resume call st = .ok result) :
    ∃ entries left, Ledger result.state
      (result.ending.logged thread call log) entries left := by
  rcases hresult with henter | hresume
  · cases call with
    | qEnque data flags =>
        have henque : qEnque data flags st = .ok result := henter
        cases hopen : st.queue.isOpen with
        | true =>
            have hdeleted := qEnque_deleted hopen henque
            obtain ⟨linked, hother, hholds, _⟩ :=
              h.holds.enqued hopen data flags
            rw [henque] at hother
            cases hother
            exact ⟨_, left, h.accepted thread data flags hholds hdeleted⟩
        | false =>
            rw [qEnque_closed hopen] at henque
            cases henque
            exact ⟨entries, _, h.refused thread data flags⟩
    | qDequeue =>
        obtain ⟨rest, hrest⟩ := h.dequeued thread henter
        exact ⟨rest, left, hrest⟩
    | qNum =>
        cases henter
        exact ⟨entries, left, h.returned rfl rfl rfl⟩
    | qClose =>
        cases henter
        exact ⟨entries, left, (h.withCounts st.queue.waiting
          st.queue.watching false).returned rfl rfl rfl⟩
    | qOpen =>
        cases henter
        exact ⟨entries, left, (h.withCounts st.queue.waiting
          st.queue.watching true).returned rfl rfl rfl⟩
  · have hcall := call_of_resume hresume
    subst hcall
    have hwoken := h.withCounts (uintPred st.queue.waiting)
      st.queue.watching st.queue.isOpen
    obtain ⟨rest, hrest⟩ := hwoken.dequeued thread hresume
    exact ⟨rest, left, hrest⟩

/-- The sweep of `q_deinit` closes the account. -/
theorem Ledger.settled (h : Ledger st log entries left)
    (hdeleted : Deleted st after entries) : Settled after log left := by
  rcases h.order with ⟨taken, hhanded, hitems⟩
  have hlength : (handedOut log).length = taken.length := by
    rw [← hhanded, List.length_map]
  refine ⟨h.refusals, ?_, ?_, ?_⟩
  · rw [hdeleted.items, hdeleted.allocated]
    exact h.items
  · rw [hlength, hitems, List.take_left, hhanded]
  · rw [hdeleted.data, h.data, hlength, hitems, List.drop_left]
    rfl

theorem Settled.accounts_iff (h : Settled st log left) :
    Accounts st log ↔ refusedItems log = [] := by
  constructor
  · intro haccounts
    have hfreed := haccounts.items.length_eq
    have hall := h.items.length_eq
    rw [List.length_append] at hall
    have hnone : left.length = 0 := by omega
    rw [h.refusals] at hnone
    exact List.eq_nil_of_length_eq_zero hnone
  · intro hnone
    have hlength := h.refusals
    rw [hnone] at hlength
    have hleft : left = [] := List.eq_nil_of_length_eq_zero hlength
    have hitems := h.items
    rw [hleft, List.append_nil] at hitems
    exact ⟨hitems, h.order, h.data⟩

end Sections

end Queue
end Alib
