import Alib.Queue

/-!
# Conservation and order in the shared queue

The data accepted, in the order of the sections that linked them, are the data
handed out, in the order of the sections that took them, followed by the
chain.  This holds under every interleaving.  The count is the length of the
chain in an `unsigned int`, so it starts again at zero with the item number
`2 ^ 32`.
-/

namespace Alib
namespace Queue

open Monitor

variable {T : Type*}

abbrev QueueConfig (T : Type*) :=
  Config QueueCond T QueueState QueueCall QueueRet

abbrev QueueLog (T : Type*) := List (T × QueueCall × QueueRet)

/-- What `of` reads in the returned calls, in order. -/
def recorded {β : Type*} (of : QueueCall → QueueRet → Option β)
    (log : QueueLog T) : List β :=
  log.filterMap fun entry => of entry.2.1 entry.2.2

theorem recorded_concat {β : Type*} (of : QueueCall → QueueRet → Option β)
    (thread : T) (call : QueueCall) (ret : QueueRet) (log : QueueLog T) :
    recorded of (log ++ [(thread, call, ret)]) =
      recorded of log ++ (of call ret).toList := by
  cases hof : of call ret with
  | none => simp [recorded, hof]
  | some value => simp [recorded, hof]

def acceptedData : QueueCall → QueueRet → Option Ptr
  | .qEnque data _, .status code =>
      if code = queueStatusSuccess then some data else none
  | _, _ => none

def takenData : QueueCall → QueueRet → Option Ptr
  | .qDequeue, .data data => some data
  | _, _ => none

def accepted (log : QueueLog T) : List Ptr := recorded acceptedData log

def handedOut (log : QueueLog T) : List Ptr := recorded takenData log

/-- The data a section moves, by the call it ends. -/
def moved (of : QueueCall → QueueRet → Option Ptr) (call : QueueCall) :
    SectionEnd QueueCond QueueRet → List Ptr
  | .leave ret => (of call ret).toList
  | .wait _ => []

theorem recorded_logged (of : QueueCall → QueueRet → Option Ptr)
    (ending : SectionEnd QueueCond QueueRet) (thread : T) (call : QueueCall)
    (log : QueueLog T) :
    recorded of (ending.logged thread call log) =
      recorded of log ++ moved of call ending := by
  cases ending with
  | leave ret => exact recorded_concat of thread call ret log
  | wait cond => simp [SectionEnd.logged, moved]

/-- A section completes, and what was in the chain and what it accepts is what
it hands out and what is left in the chain. -/
def Conserves (call : QueueCall) (entries : List Entry)
    (result : QueueSection) : Prop :=
  ∃ left, QueueHolds result.state left ∧
    entries.map Entry.data ++ moved acceptedData call result.ending =
      moved takenData call result.ending ++ left.map Entry.data

section Specs

variable {st : QueueState} {entries : List Entry}

theorem Dequeues.conserves {result : QueueSection}
    (h : QueueHolds st entries) (hdequeues : Dequeues st entries result) :
    Conserves .qDequeue entries result := by
  cases hdequeues with
  | waits hopen hnum => exact ⟨entries, h.withWaiting _, by simp [moved]⟩
  | closed hclosed hnum =>
      exact ⟨entries, h, by simp [moved, acceptedData, takenData]⟩
  | takes hnum hentries hholds hwaiting hwatching hopen =>
      subst hentries
      exact ⟨_, hholds, by simp [moved, acceptedData, takenData]⟩

theorem QueueHolds.enters (h : QueueHolds st entries) (call : QueueCall) :
    ∃ result, enter call st = .ok result ∧
      Conserves call entries result := by
  cases call with
  | qEnque data flags =>
      cases hopen : st.queue.isOpen with
      | true =>
          obtain ⟨after, henque, hholds, _⟩ := h.enqued hopen data flags
          exact ⟨_, henque, _, hholds,
            by simp [moved, acceptedData, takenData]⟩
      | false =>
          refine ⟨_, qEnque_closed hopen data flags, entries,
            h.withItem data flags, ?_⟩
          simp [moved, acceptedData, takenData, queueStatusClosed,
            queueStatusSuccess]
  | qDequeue =>
      obtain ⟨result, hresult, hdequeues⟩ := h.dequeues
      exact ⟨result, hresult, hdequeues.conserves h⟩
  | qNum =>
      exact ⟨_, rfl, entries, h, by simp [qNum, moved, acceptedData,
        takenData]⟩
  | qClose =>
      refine ⟨_, rfl, entries, h.withCounts st.queue.waiting
        st.queue.watching false, ?_⟩
      simp [qClose, changeOpen, moved, acceptedData, takenData]
  | qOpen =>
      refine ⟨_, rfl, entries, h.withCounts st.queue.waiting
        st.queue.watching true, ?_⟩
      simp [qOpen, changeOpen, moved, acceptedData, takenData]

theorem QueueHolds.resumes (h : QueueHolds st entries) :
    ∃ result, resume .qDequeue st = .ok result ∧
      Conserves .qDequeue entries result := by
  obtain ⟨result, hresult, hdequeues⟩ :=
    (h.withWaiting (uintPred st.queue.waiting)).dequeues
  exact ⟨result, hresult, hdequeues.conserves (h.withWaiting _)⟩

/-- Only `q_dequeue` has a section to resume. -/
theorem call_of_resume {call : QueueCall} {result : QueueSection}
    (h : resume call st = .ok result) : call = .qDequeue := by
  cases call with
  | qDequeue => rfl
  | qEnque data flags => cases h
  | qNum => cases h
  | qClose => cases h
  | qOpen => cases h

theorem QueueHolds.section (h : QueueHolds st entries) {call : QueueCall}
    {result : QueueSection}
    (hresult : enter call st = .ok result ∨ resume call st = .ok result) :
    Conserves call entries result := by
  rcases hresult with henter | hresume
  · obtain ⟨other, hother, hconserves⟩ := h.enters call
    rw [henter] at hother
    cases hother
    exact hconserves
  · have hcall := call_of_resume hresume
    subst hcall
    obtain ⟨other, hother, hconserves⟩ := h.resumes
    rw [hresume] at hother
    cases hother
    exact hconserves

end Specs

/-- The accepted data are the data handed out and those in the chain. -/
def FifoInv (st : QueueState) (log : QueueLog T) : Prop :=
  ∃ entries, QueueHolds st entries ∧
    accepted log = handedOut log ++ entries.map Entry.data

theorem fifoInv_section {st : QueueState} {log : QueueLog T}
    (hinv : FifoInv st log) {thread : T} {call : QueueCall}
    {result : QueueSection}
    (hresult : enter call st = .ok result ∨ resume call st = .ok result) :
    FifoInv result.state (result.ending.logged thread call log) := by
  rcases hinv with ⟨entries, hholds, hlog⟩
  obtain ⟨left, hleft, hmoved⟩ := hholds.section hresult
  refine ⟨left, hleft, ?_⟩
  unfold accepted handedOut at *
  rw [recorded_logged, recorded_logged, hlog, List.append_assoc, hmoved,
    List.append_assoc]

/-- Conservation and order at a configuration; every section that can be run
completes, and one that hands out data hands out the first of the chain. -/
structure FifoHolds (config : QueueConfig T) (entries : List Entry) :
    Prop where
  chain : itemLayout.IsChain config.shared.items config.shared.queue.head
    entries
  order : accepted config.log =
    handedOut config.log ++ entries.map Entry.data
  num_eq : config.shared.queue.num = entries.length % 2 ^ 32
  tail_eq : config.shared.queue.tail = (entries.getLast?).map Entry.addr
  tail_null : config.shared.queue.tail = none ↔
    config.shared.queue.head = none
  enters : ∀ call, ∃ result, enter call config.shared = .ok result
  resumes : ∀ x ∈ config.waiters.asleep + config.waiters.signalled,
    ∃ result, resume x.call config.shared = .ok result
  first : ∀ result data,
    qDequeue config.shared = .ok result ∨
      qDequeueWoken config.shared = .ok result →
    result.ending = .leave (.data data) →
    ∃ entry rest, entries = entry :: rest ∧ data = entry.data

theorem Dequeues.first {st : QueueState} {entries : List Entry}
    {result : QueueSection} (h : Dequeues st entries result) {data : Ptr}
    (hending : result.ending = .leave (.data data)) :
    ∃ entry rest, entries = entry :: rest ∧ data = entry.data := by
  cases h with
  | waits hopen hnum => cases hending
  | closed hclosed hnum => cases hending
  | takes hnum hentries _ _ _ _ =>
      cases hending
      exact ⟨_, _, hentries, rfl⟩

theorem QueueHolds.first_of_dequeue {st : QueueState} {entries : List Entry}
    (h : QueueHolds st entries) {result : QueueSection} {data : Ptr}
    (hresult : qDequeue st = .ok result ∨ qDequeueWoken st = .ok result)
    (hending : result.ending = .leave (.data data)) :
    ∃ entry rest, entries = entry :: rest ∧ data = entry.data := by
  rcases hresult with henter | hwoken
  · obtain ⟨other, hother, hdequeues⟩ := h.dequeues
    rw [henter] at hother
    cases hother
    exact hdequeues.first hending
  · obtain ⟨other, hother, hdequeues⟩ :=
      (h.withWaiting (uintPred st.queue.waiting)).dequeues
    have hsame : qDequeueWoken st = .ok other := hother
    rw [hwoken] at hsame
    cases hsame
    exact hdequeues.first hending

/-- Every configuration that threads calling the queue functions reach. -/
def Reachable (config : QueueConfig T) : Prop :=
  Reaches queueProgram (fun _ _ => True) (Config.initial qInit) config

/-- Only dequeuers wait, and for `waiting_cond`. -/
def IsDequeuer (x : Sleeper QueueCond T QueueCall) : Prop :=
  x.cond = .waiting ∧ x.call = .qDequeue

theorem qEnque_leaves {data : Ptr} {flags : ℕ} {st : QueueState}
    {result : QueueSection} (h : qEnque data flags st = .ok result) :
    ∃ ret, result.ending = .leave ret := by
  unfold qEnque at h
  by_cases hopen : (newQItem data flags st).2.queue.isOpen = false
  · simp only [hopen, if_true] at h
    cases h
    exact ⟨_, rfl⟩
  · simp only [hopen] at h
    obtain ⟨linked, _, hlinked⟩ := bind_eq_ok_iff.mp h
    cases hlinked
    exact ⟨_, rfl⟩

theorem qDequeue_waits {st : QueueState} {result : QueueSection}
    {cond : QueueCond} (h : qDequeue st = .ok result)
    (hwait : result.ending = .wait cond) : cond = .waiting := by
  unfold qDequeue at h
  by_cases hloop : st.queue.isOpen = true ∧ st.queue.num = 0
  · rw [if_pos hloop] at h
    cases h
    cases hwait
    rfl
  · rw [if_neg hloop] at h
    by_cases hclosed : st.queue.num = 0 ∧ st.queue.isOpen = false
    · rw [if_pos hclosed] at h
      cases h
      cases hwait
    · rw [if_neg hclosed] at h
      obtain ⟨taken, _, htaken⟩ := bind_eq_ok_iff.mp h
      cases htaken
      cases hwait

theorem isDequeuer_of_wait {thread : T} {call : QueueCall}
    {shared : QueueState} {result : QueueSection} {cond : QueueCond}
    (hresult : enter call shared = .ok result ∨
      resume call shared = .ok result)
    (hwait : result.ending = .wait cond) :
    IsDequeuer ⟨cond, thread, call⟩ := by
  have hcall : call = .qDequeue := by
    rcases hresult with henter | hresume
    · cases call with
      | qDequeue => rfl
      | qEnque data flags =>
          obtain ⟨ret, hleave⟩ := qEnque_leaves henter
          rw [hleave] at hwait
          cases hwait
      | qNum =>
          cases henter
          cases hwait
      | qClose =>
          cases henter
          cases hwait
      | qOpen =>
          cases henter
          cases hwait
    · exact call_of_resume hresume
  subst hcall
  refine ⟨?_, rfl⟩
  rcases hresult with henter | hresume
  · exact qDequeue_waits henter hwait
  · exact qDequeue_waits hresume hwait

theorem sleepers_of_reaches
    {condition : QueueConfig T → Action QueueCond T QueueCall → Prop}
    {config : QueueConfig T}
    (hreaches : Reaches queueProgram condition (Config.initial qInit)
      config) :
    ∀ x ∈ config.waiters.asleep + config.waiters.signalled, IsDequeuer x := by
  refine sleepers_keep ?_ ?_ hreaches
  · intro thread call shared result cond hresult hwait
    exact isDequeuer_of_wait hresult hwait
  · intro x hx
    simp [Config.initial] at hx

theorem fifoInv_of_reaches
    {condition : QueueConfig T → Action QueueCond T QueueCall → Prop}
    {config : QueueConfig T}
    (hreaches : Reaches queueProgram condition (Config.initial qInit)
      config) : FifoInv config.shared config.log := by
  refine sections_keep ?_ ?_ hreaches
  · intro thread call shared log result hinv hresult
    exact fifoInv_section hinv hresult
  · exact ⟨[], queueHolds_init, rfl⟩

/-- In every configuration reached under any interleaving the data accepted
are the data handed out and then the chain, whose length modulo `2 ^ 32` is
the count, and nothing is taken from an empty chain. -/
theorem queue_fifo {config : QueueConfig T}
    (hreachable : Reachable config) :
    ∃ entries, FifoHolds config entries := by
  obtain ⟨entries, hholds, hlog⟩ := fifoInv_of_reaches hreachable
  refine ⟨entries, hholds.chain, hlog, hholds.num_eq, hholds.tail_eq,
    hholds.tail_eq_none_iff, ?_, ?_, ?_⟩
  · intro call
    obtain ⟨result, hresult, _⟩ := hholds.enters call
    exact ⟨result, hresult⟩
  · intro x hx
    obtain ⟨_, hcall⟩ := sleepers_of_reaches hreachable x hx
    obtain ⟨result, hresult, _⟩ := hholds.resumes
    exact ⟨result, by rw [hcall]; exact hresult⟩
  · intro result data hresult hending
    exact hholds.first_of_dequeue hresult hending

/-- One thread may fill the queue without bound. -/
theorem reachable_of_length (n : ℕ) :
    ∃ (config : QueueConfig ℕ) (entries : List Entry), Reachable config ∧
      config.waiters = ⟨0, 0⟩ ∧ config.shared.queue.isOpen = true ∧
      config.shared.queue.waiting = 0 ∧ config.shared.queue.watching = 0 ∧
      QueueHolds config.shared entries ∧ entries.length = n := by
  induction n with
  | zero =>
      exact ⟨Config.initial qInit, [], Relation.ReflTransGen.refl, rfl, rfl,
        rfl, rfl, queueHolds_init, rfl⟩
  | succ n ih =>
      obtain ⟨config, entries, hreachable, hwaiters, hopen, hwaiting,
        hwatching, hholds, hlength⟩ := ih
      obtain ⟨after, henque, hafter, hsameWaiting, hsameWatching, hstill⟩ :=
        hholds.enqued hopen 0 0
      simp only [hwaiting, hwatching, noticeIf] at henque
      have hidle : config.waiters.Idle 0 := by
        intro x hx
        simp [hwaiters] at hx
      refine ⟨config.finish 0 (.qEnque 0 0) _ config.waiters, _,
        hreachable.tail ⟨.enter 0 (.qEnque 0 0), trivial,
          .enter hidle henque .nil⟩, ?_, hstill,
        hsameWaiting.trans hwaiting, hsameWatching.trans hwatching, hafter,
        by simp [hlength]⟩
      simp [Config.finish, SectionEnd.sleeping, hwaiters]

theorem initial_idle (thread : T) :
    (Config.initial qInit : QueueConfig T).waiters.Idle thread := by
  intro x hx
  simp [Config.initial] at hx

def dequeuer (thread : ℕ) : Sleeper QueueCond ℕ QueueCall :=
  ⟨.waiting, thread, .qDequeue⟩

/-- Thread 0 sleeps, is signalled by the first of two items, finds it taken by
thread 2 and takes the second; a third item stays. -/
theorem queue_fifo_run :
    ∃ (config : QueueConfig ℕ) (entries : List Entry),
      accepted config.log = [7, 8, 9] ∧ handedOut config.log = [7, 8] ∧
        FifoHolds config entries := by
  have hstart : Reachable (Config.initial qInit : QueueConfig ℕ) :=
    Relation.ReflTransGen.refl
  have hsleeps := reaches_enter hstart 0 .qDequeue {dequeuer 0} 0 trivial
    (initial_idle 0) rfl .nil rfl rfl
  have hwoken := reaches_enter hsleeps 1 (.qEnque 7 0) 0 {dequeuer 0} trivial
    (by simp [Waiters.Idle, dequeuer]) rfl (.cons (.signalOne rfl) .nil) rfl
    rfl
  have hsecond := reaches_enter hwoken 1 (.qEnque 8 0) 0 {dequeuer 0} trivial
    (by simp [Waiters.Idle, dequeuer]) rfl
    (.cons (.signalNone (by simp)) .nil) rfl rfl
  have hstolen : Reachable ⟨⟨⟨some 1, some 1, 1, 1, 0, true⟩, _, _, _, _⟩,
      ⟨0, {dequeuer 0}⟩, _⟩ :=
    reaches_enter hsecond 2 .qDequeue 0 {dequeuer 0} trivial
      (by simp [Waiters.Idle, dequeuer]) rfl .nil rfl rfl
  have hresumed := reaches_resume hstolen (dequeuer 0) 0 0 0 trivial rfl rfl
    .nil rfl rfl
  have hlast := reaches_enter hresumed 1 (.qEnque 9 0) 0 0 trivial
    (by simp [Waiters.Idle]) rfl .nil rfl rfl
  obtain ⟨entries, hfifo⟩ := queue_fifo hlast
  exact ⟨_, entries, rfl, rfl, hfifo⟩

/-- With `2 ^ 32` items in the chain the count is zero. -/
theorem queue_fifo_wraps :
    ¬ ∀ (config : QueueConfig ℕ) (entries : List Entry), Reachable config →
      itemLayout.IsChain config.shared.items config.shared.queue.head
        entries →
      config.shared.queue.num = entries.length := by
  intro hclaim
  obtain ⟨config, entries, hreachable, _, _, _, _, hholds, hlength⟩ :=
    reachable_of_length (2 ^ 32)
  have hnum := hclaim config entries hreachable hholds.chain
  rw [hholds.num_eq, hlength] at hnum
  omega

end Queue
end Alib
