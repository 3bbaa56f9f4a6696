import Alib.QueueFifo

/-!
# Releasing the shared queue

`q_deinit` may be called while the other functions run.  It closes the queue,
waits on `watching_cond` until nobody waits or watches, deletes the items
still in the chain and frees the queue, after which no section can run.  The
loop over the chain carries fuel; as many turns as items were obtained are
enough.
-/

namespace Alib
namespace Queue

open Monitor

variable {T : Type*}

structure DeinitState extends QueueState where
  freed : Bool

/-- A call of `q_deinit` or of one of the other functions. -/
inductive DeinitCall where
  | shared (call : QueueCall)
  | qDeinit

abbrev DeinitSection := SectionResult QueueCond DeinitState QueueRet

abbrev DeinitConfig (T : Type*) :=
  Config QueueCond T DeinitState DeinitCall QueueRet

abbrev DeinitSleeper (T : Type*) := Sleeper QueueCond T DeinitCall

/-- `for(ptr1=ptr2=q->head;ptr1;ptr1=ptr2)` -/
def deleteItems : ℕ → Option Addr → QueueState → Except Fault QueueState
  | _, none, st => .ok st
  | 0, some _, _ => .error .divergence
  | fuel + 1, some ptr1, st => do
      let node ← load st.items (some ptr1)
      let st ← delQItem ptr1 st
      deleteItems fuel node.ptr st

/-- `q_deinit` from the test of its loop on. -/
def qDeinitLoop (st : QueueState) : Except Fault DeinitSection :=
  if st.queue.waiting ≠ 0 ∨ st.queue.watching ≠ 0 then
    let q := { st.queue with watching := uintSucc st.queue.watching }
    .ok ⟨⟨{ st with queue := q }, false⟩, [], .wait .watching⟩
  else do
    let st ← deleteItems st.allocated st.queue.head st
    return ⟨⟨st, true⟩, [], .leave (.status queueStatusSuccess)⟩

def qDeinit (st : QueueState) : Except Fault DeinitSection := do
  let q := { st.queue with isOpen := false }
  let result ← qDeinitLoop { st with queue := q }
  return { result with
    notices := noticeIf q.waiting (.broadcast .waiting) ++
      noticeIf q.watching (.broadcast .watching) ++ result.notices }

/-- `q->watching--` after the wait, and the loop again. -/
def qDeinitWoken (st : QueueState) : Except Fault DeinitSection :=
  qDeinitLoop { st with
    queue := { st.queue with watching := uintPred st.queue.watching } }

/-- A section of another function leaves the queue where it is. -/
def keepQueue (result : QueueSection) : DeinitSection :=
  ⟨⟨result.state, false⟩, result.notices, result.ending⟩

def deinitEnter (call : DeinitCall) (st : DeinitState) :
    Except Fault DeinitSection :=
  if st.freed = true then .error .danglingPointer
  else
    match call with
    | .shared call => (enter call st.toQueueState).map keepQueue
    | .qDeinit => qDeinit st.toQueueState

def deinitResume (call : DeinitCall) (st : DeinitState) :
    Except Fault DeinitSection :=
  if st.freed = true then .error .danglingPointer
  else
    match call with
    | .shared call => (resume call st.toQueueState).map keepQueue
    | .qDeinit => qDeinitWoken st.toQueueState

def deinitProgram :
    Program QueueCond DeinitState DeinitCall QueueRet Fault where
  enter := deinitEnter
  resume := deinitResume

def deinitInit : DeinitState where
  toQueueState := qInit
  freed := false

/-- What `q_enque` was handed with an item. -/
def Entry.item (entry : Entry) : Ptr × ℕ := (entry.data, entry.flags)

/-- The data is freed with its item. -/
def FreesData (item : Ptr × ℕ) : Prop :=
  item.2 &&& queueFlagFreeData ≠ 0 ∧ item.1 ≠ 0

instance : DecidablePred FreesData := fun item =>
  inferInstanceAs (Decidable
    (item.2 &&& queueFlagFreeData ≠ 0 ∧ item.1 ≠ 0))

/-- The data freed with the items, in order. -/
def freedWith (items : List (Ptr × ℕ)) : List Ptr :=
  (items.filter fun item => FreesData item).map Prod.fst

/-- The items of the chain are deleted, each once, and nothing else. -/
structure Deleted (st after : QueueState) (entries : List Entry) :
    Prop where
  items : after.freedItems = st.freedItems ++ entries.map Entry.addr
  data : after.freedData = st.freedData ++ freedWith (entries.map Entry.item)
  allocated : after.allocated = st.allocated

/-- What `q_deinit` does from its loop on: it waits, or it deletes the chain
and frees the queue. -/
inductive Deinits (st : QueueState) (entries : List Entry) :
    DeinitSection → Prop
  | waits (hsome : st.queue.waiting ≠ 0 ∨ st.queue.watching ≠ 0) :
      Deinits st entries
        ⟨⟨{ st with queue :=
            { st.queue with watching := uintSucc st.queue.watching } },
          false⟩, [], .wait .watching⟩
  | frees {after : QueueState}
      (hnone : st.queue.waiting = 0 ∧ st.queue.watching = 0)
      (hdeleted : Deleted st after entries) :
      Deinits st entries
        ⟨⟨after, true⟩, [], .leave (.status queueStatusSuccess)⟩

section Specs

variable {st : QueueState} {entries : List Entry}

theorem freedWith_append (items others : List (Ptr × ℕ)) :
    freedWith (items ++ others) = freedWith items ++ freedWith others := by
  simp [freedWith]

theorem freedWith_singleton (entry : Entry) :
    freedWith [entry.item] =
      if entry.flags &&& queueFlagFreeData ≠ 0 ∧ entry.data ≠ 0 then
        [entry.data] else [] := by
  by_cases hfrees : FreesData entry.item
  · have hcond : entry.flags &&& queueFlagFreeData ≠ 0 ∧ entry.data ≠ 0 :=
      hfrees
    rw [if_pos hcond, freedWith,
      List.filter_cons_of_pos (by simpa using hfrees)]
    rfl
  · have hcond :
        ¬ (entry.flags &&& queueFlagFreeData ≠ 0 ∧ entry.data ≠ 0) := hfrees
    rw [if_neg hcond, freedWith,
      List.filter_cons_of_neg (by simpa using hfrees)]
    rfl

theorem Deleted.append {middle after : QueueState} {others : List Entry}
    (hfirst : Deleted st middle entries)
    (hrest : Deleted middle after others) :
    Deleted st after (entries ++ others) := by
  constructor
  · rw [hrest.items, hfirst.items, List.map_append, List.append_assoc]
  · rw [hrest.data, hfirst.data, List.map_append, freedWith_append,
      List.append_assoc]
  · exact hrest.allocated.trans hfirst.allocated

theorem delQItem_spec {entry : Entry} {node : QItem}
    (hnode : st.items entry.addr = some node)
    (hview : itemLayout.view entry.addr node = entry) :
    ∃ after, delQItem entry.addr st = .ok after ∧
      after.items = Function.update st.items entry.addr none ∧
      Deleted st after [entry] := by
  have hload : load st.items (some entry.addr) = .ok node :=
    load_of_eq hnode
  have hdata : node.data = entry.data := by
    rw [← hview]
    rfl
  have hflags : node.flags = entry.flags := by
    rw [← hview]
    rfl
  refine ⟨{ st with
    items := Function.update st.items entry.addr none
    freedItems := st.freedItems ++ [entry.addr]
    freedData := st.freedData ++ freedWith [entry.item] }, ?_, rfl,
    ⟨rfl, rfl, rfl⟩⟩
  rw [freedWith_singleton]
  simp only [delQItem, hload, ok_bind, pure_eq_ok, hdata, hflags]

theorem deleteItems_spec {head : Option Addr} {fuel : ℕ}
    (hchain : itemLayout.IsChain st.items head entries)
    (hfuel : entries.length ≤ fuel) :
    ∃ after, deleteItems fuel head st = .ok after ∧
      Deleted st after entries := by
  induction entries generalizing st head fuel with
  | nil =>
      rw [NodeLayout.isChain_nil] at hchain
      subst hchain
      refine ⟨st, ?_, ⟨by simp, by simp [freedWith], rfl⟩⟩
      cases fuel with
      | zero => rfl
      | succ fuel => rfl
  | cons entry rest ih =>
      have hnotMem : entry.addr ∉ rest.map itemLayout.addr :=
        (List.nodup_cons.mp hchain.nodup).1
      rcases hchain with ⟨hhead, node, hnode, hview, hrest⟩
      cases fuel with
      | zero => exact absurd hfuel (Nat.not_succ_le_zero _)
      | succ fuel =>
          have haddr : head = some entry.addr := hhead
          have hload : load st.items (some entry.addr) = .ok node :=
            load_of_eq hnode
          obtain ⟨first, hdelete, hitems, hfirst⟩ :=
            delQItem_spec hnode hview
          have hleft : itemLayout.IsChain first.items node.ptr rest := by
            rw [hitems]
            exact hrest.update hnotMem
          obtain ⟨after, hafter, hdeleted⟩ :=
            ih hleft (Nat.le_of_succ_le_succ hfuel)
          refine ⟨after, ?_, hfirst.append hdeleted⟩
          rw [haddr]
          simp only [deleteItems, hload, ok_bind, hdelete, hafter]

theorem QueueHolds.deinits (h : QueueHolds st entries)
    (hlength : entries.length ≤ st.allocated) :
    ∃ result, qDeinitLoop st = .ok result ∧ Deinits st entries result := by
  by_cases hsome : st.queue.waiting ≠ 0 ∨ st.queue.watching ≠ 0
  · exact ⟨_, by simp only [qDeinitLoop, if_pos hsome], .waits hsome⟩
  · have hnone : st.queue.waiting = 0 ∧ st.queue.watching = 0 := by
      push Not at hsome
      exact hsome
    obtain ⟨after, hafter, hdeleted⟩ := deleteItems_spec h.chain hlength
    refine ⟨_, ?_, .frees hnone hdeleted⟩
    simp only [qDeinitLoop, if_neg hsome, hafter, ok_bind, pure_eq_ok]

theorem qDeinit_eq {result : DeinitSection}
    (h : qDeinitLoop { st with queue := { st.queue with isOpen := false } } =
      .ok result) :
    qDeinit st = .ok { result with
      notices := noticeIf st.queue.waiting (.broadcast .waiting) ++
        noticeIf st.queue.watching (.broadcast .watching) ++
        result.notices } := by
  simp only [qDeinit, h, ok_bind, pure_eq_ok]

theorem deinitSection_live {st : DeinitState} {call : DeinitCall}
    {result : DeinitSection}
    (h : deinitEnter call st = .ok result ∨
      deinitResume call st = .ok result) : st.freed = false := by
  cases hfreed : st.freed with
  | false => rfl
  | true =>
      simp only [deinitEnter, deinitResume, hfreed, if_true] at h
      rcases h with henter | hresume
      · cases henter
      · cases hresume

theorem keepQueue_of_map {x : Except Fault QueueSection}
    {result : DeinitSection} (h : x.map keepQueue = .ok result) :
    ∃ inner, x = .ok inner ∧ result = keepQueue inner := by
  cases x with
  | error fault => cases h
  | ok inner =>
      cases h
      exact ⟨inner, rfl, rfl⟩

theorem shared_of_deinitEnter {st : DeinitState} {call : QueueCall}
    {result : DeinitSection}
    (h : deinitEnter (.shared call) st = .ok result) :
    ∃ inner, enter call st.toQueueState = .ok inner ∧
      result = keepQueue inner := by
  have hlive := deinitSection_live (Or.inl h)
  simp only [deinitEnter, hlive, Bool.false_eq_true, if_false] at h
  exact keepQueue_of_map h

theorem shared_of_deinitResume {st : DeinitState} {call : QueueCall}
    {result : DeinitSection}
    (h : deinitResume (.shared call) st = .ok result) :
    ∃ inner, resume call st.toQueueState = .ok inner ∧
      result = keepQueue inner := by
  have hlive := deinitSection_live (Or.inr h)
  simp only [deinitResume, hlive, Bool.false_eq_true, if_false] at h
  exact keepQueue_of_map h

/-- `q_deinit` closes the queue before its loop. -/
theorem loop_of_deinitEnter {st : DeinitState} {result : DeinitSection}
    (h : deinitEnter .qDeinit st = .ok result) :
    ∃ inner, qDeinitLoop { st.toQueueState with
        queue := { st.queue with isOpen := false } } = .ok inner ∧
      result.state = inner.state ∧ result.ending = inner.ending := by
  have hlive := deinitSection_live (Or.inl h)
  simp only [deinitEnter, hlive, Bool.false_eq_true, if_false] at h
  unfold qDeinit at h
  obtain ⟨inner, hinner, hresult⟩ := bind_eq_ok_iff.mp h
  cases hresult
  exact ⟨inner, hinner, rfl, rfl⟩

theorem loop_of_deinitResume {st : DeinitState} {result : DeinitSection}
    (h : deinitResume .qDeinit st = .ok result) :
    qDeinitLoop { st.toQueueState with
      queue := { st.queue with watching := uintPred st.queue.watching } } =
        .ok result := by
  have hlive := deinitSection_live (Or.inr h)
  simp only [deinitResume, hlive, Bool.false_eq_true, if_false] at h
  exact h

theorem qDeinitLoop_waits {result : DeinitSection} {cond : QueueCond}
    (h : qDeinitLoop st = .ok result) (hwait : result.ending = .wait cond) :
    cond = .watching := by
  unfold qDeinitLoop at h
  by_cases hsome : st.queue.waiting ≠ 0 ∨ st.queue.watching ≠ 0
  · rw [if_pos hsome] at h
    cases h
    cases hwait
    rfl
  · rw [if_neg hsome] at h
    obtain ⟨deleted, _, hdeleted⟩ := bind_eq_ok_iff.mp h
    cases hdeleted
    cases hwait

end Specs

section Counters

/-- A dequeuer waits for `waiting_cond`, `q_deinit` for `watching_cond`. -/
def SleepsFor (x : DeinitSleeper T) : Prop :=
  (x.call = .shared .qDequeue ∧ x.cond = .waiting) ∨
    (x.call = .qDeinit ∧ x.cond = .watching)

theorem SleepsFor.watching {x : DeinitSleeper T} (h : SleepsFor x)
    (hcall : x.call = .qDeinit) : x.cond = .watching := by
  rcases h with ⟨hshared, _⟩ | ⟨_, hcond⟩
  · rw [hcall] at hshared
    cases hshared
  · exact hcond

/-- The member that counts the threads waiting for a condition. -/
def counter : QueueCond → QueueStruct → ℕ
  | .waiting, q => q.waiting
  | .watching, q => q.watching

def awaiting (cond : QueueCond) (sleepers : Multiset (DeinitSleeper T)) :
    ℕ :=
  sleepers.countP fun x => x.cond = cond

def Counted (q : QueueStruct) (sleepers : Multiset (DeinitSleeper T)) :
    Prop :=
  ∀ cond, counter cond q = awaiting cond sleepers % 2 ^ 32

/-- A count of the threads waiting for `cond` after a section. -/
def countAfter (cond : QueueCond) (count : ℕ) :
    SectionEnd QueueCond QueueRet → ℕ
  | .leave _ => count
  | .wait other => if other = cond then uintSucc count else count

/-- A section counts its own wait and changes no counter otherwise. -/
def CountsWait (before after : QueueStruct)
    (ending : SectionEnd QueueCond QueueRet) : Prop :=
  ∀ cond, counter cond after = countAfter cond (counter cond before) ending

/-- The thread of `x` uncounts itself when it goes on. -/
def Uncounts (x : DeinitSleeper T) (before after : QueueStruct) : Prop :=
  ∀ cond, counter cond after =
    if x.cond = cond then uintPred (counter cond before)
    else counter cond before

variable {q before after : QueueStruct} {sleepers : Multiset (DeinitSleeper T)}
  {st : QueueState} {entries : List Entry}

theorem awaiting_cons (cond : QueueCond) (x : DeinitSleeper T) :
    awaiting cond (x ::ₘ sleepers) =
      awaiting cond sleepers + if x.cond = cond then 1 else 0 :=
  Multiset.countP_cons _ _ _

theorem Counted.finish (h : Counted before sleepers)
    {ending : SectionEnd QueueCond QueueRet}
    (hcounts : CountsWait before after ending) (thread : T)
    (call : DeinitCall) :
    Counted after (ending.sleeping thread call + sleepers) := by
  intro cond
  rw [hcounts cond]
  cases ending with
  | leave ret =>
      rw [SectionEnd.sleeping, zero_add]
      exact h cond
  | wait other =>
      rw [SectionEnd.sleeping, Multiset.singleton_add, awaiting_cons,
        countAfter]
      by_cases hcond : other = cond
      · rw [if_pos hcond, if_pos hcond, h cond, uintSucc_length]
      · rw [if_neg hcond, if_neg hcond]
        exact h cond

theorem Counted.resume {x : DeinitSleeper T}
    (h : Counted before (x ::ₘ sleepers))
    (huncounts : Uncounts x before after) : Counted after sleepers := by
  intro cond
  rw [huncounts cond]
  rw [h cond, awaiting_cons]
  by_cases hcond : x.cond = cond
  · rw [if_pos hcond, if_pos hcond, uintPred_succ]
  · rw [if_neg hcond, if_neg hcond, add_zero]

theorem Counted.none
    (h : Counted q (0 : Multiset (DeinitSleeper T))) :
    q.waiting = 0 ∧ q.watching = 0 :=
  ⟨h .waiting, h .watching⟩

theorem Counted.withOpen (h : Counted q sleepers) (isOpen : Bool) :
    Counted { q with isOpen := isOpen } sleepers := by
  intro cond
  cases cond with
  | waiting => exact h .waiting
  | watching => exact h .watching

theorem uncounts_waiting {x : DeinitSleeper T} (hcond : x.cond = .waiting)
    (hwaiting : after.waiting = uintPred before.waiting)
    (hwatching : after.watching = before.watching) :
    Uncounts x before after := by
  intro cond
  rw [hcond]
  cases cond with
  | waiting =>
      rw [if_pos rfl]
      exact hwaiting
  | watching =>
      rw [if_neg (by decide)]
      exact hwatching

theorem uncounts_watching {x : DeinitSleeper T} (hcond : x.cond = .watching)
    {watching : ℕ} (hwatching : watching = uintPred before.watching) :
    Uncounts x before { before with watching := watching } := by
  intro cond
  rw [hcond]
  cases cond with
  | waiting =>
      rw [if_neg (by decide)]
      rfl
  | watching =>
      rw [if_pos rfl]
      exact hwatching

theorem countsWait_of_leave {ret : QueueRet}
    (hwaiting : after.waiting = before.waiting)
    (hwatching : after.watching = before.watching) :
    CountsWait before after (.leave ret) := by
  intro cond
  cases cond with
  | waiting => exact hwaiting
  | watching => exact hwatching

theorem Dequeues.countsWait {result : QueueSection}
    (h : Dequeues st entries result) :
    CountsWait st.queue result.state.queue result.ending := by
  cases h with
  | waits hopen hnum =>
      intro cond
      cases cond with
      | waiting => rfl
      | watching => rfl
  | closed hclosed hnum => exact countsWait_of_leave rfl rfl
  | takes hnum hentries hholds hwaiting hwatching hopen =>
      exact countsWait_of_leave hwaiting hwatching

theorem QueueHolds.enter_countsWait (h : QueueHolds st entries)
    {call : QueueCall} {result : QueueSection}
    (henter : enter call st = .ok result) :
    CountsWait st.queue result.state.queue result.ending := by
  cases call with
  | qEnque data flags =>
      have henque : qEnque data flags st = .ok result := henter
      cases hopen : st.queue.isOpen with
      | true =>
          obtain ⟨linked, hother, _, hwaiting, hwatching, _⟩ :=
            h.enqued hopen data flags
          rw [henque] at hother
          cases hother
          exact countsWait_of_leave hwaiting hwatching
      | false =>
          rw [qEnque_closed hopen] at henque
          cases henque
          exact countsWait_of_leave rfl rfl
  | qDequeue =>
      obtain ⟨other, hother, hdequeues⟩ := h.dequeues
      rw [show enter .qDequeue st = _ from hother] at henter
      cases henter
      exact hdequeues.countsWait
  | qNum =>
      cases henter
      exact countsWait_of_leave rfl rfl
  | qClose =>
      cases henter
      exact countsWait_of_leave rfl rfl
  | qOpen =>
      cases henter
      exact countsWait_of_leave rfl rfl

theorem Deinits.countsWait {result : DeinitSection}
    (h : Deinits st entries result) (hlive : result.state.freed = false) :
    CountsWait st.queue result.state.queue result.ending := by
  cases h with
  | waits hsome =>
      intro cond
      cases cond with
      | waiting => rfl
      | watching => rfl
  | frees hnone hdeleted => cases hlive

end Counters

end Queue
end Alib
