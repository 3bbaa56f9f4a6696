import Alib.QueueFifo

/-!
# Wake-ups in the shared queue

While a dequeuer sleeps that has not been signalled, the chain is no longer
than the number of signalled dequeuers that have yet to resume, since every
item linked sends a signal.  `q_close` sends a single signal however many
sleep, and a dequeuer that resumes in a closed queue passes none on: with two
sleepers it leaves one asleep.  A counter that wraps to zero hides a waiter or
an item from those who test it.
-/

namespace Alib
namespace Queue

open Monitor

variable {T : Type*}

abbrev QueueWaiters (T : Type*) := Waiters QueueCond T QueueCall

/-- A sleeper that is not signalled sleeps on an open empty queue, or another
dequeuer is signalled and has yet to resume. -/
structure Covered (config : QueueConfig T) : Prop where
  awaited : config.waiters.asleep ≠ 0 →
    (config.shared.queue.isOpen = true ∧ config.shared.queue.head = none) ∨
      config.waiters.signalled ≠ 0
  closed : config.shared.queue.isOpen = false →
    config.waiters.signalled = 0 → config.waiters.asleep = 0

/-- `q_close`, which sends one signal, finds no more than one sleeper to send
it to, and no call counts a waiter or an item past `2 ^ 32 - 1`. -/
def Wakeable (config : QueueConfig T) : Action QueueCond T QueueCall → Prop
  | .enter _ .qClose => config.waiters.asleep.card ≤ 1
  | .enter _ .qDequeue =>
      config.shared.queue.isOpen = true → config.shared.queue.num = 0 →
        config.shared.queue.waiting + 1 < 2 ^ 32
  | .enter _ (.qEnque _ _) =>
      config.shared.queue.isOpen = true →
        config.shared.queue.num + 1 < 2 ^ 32
  | _ => True

/-- What the counters say of the waiters, and how many of them the chain may
keep waiting.  In a closed queue nobody sleeps unsignalled. -/
structure WakeInv (st : QueueState) (waiters : QueueWaiters T)
    (entries : List Entry) : Prop where
  holds : QueueHolds st entries
  length_lt : entries.length < 2 ^ 32
  watching : st.queue.watching = 0
  waiting : st.queue.waiting =
    waiters.asleep.card + waiters.signalled.card
  waiting_lt : st.queue.waiting < 2 ^ 32
  cond : ∀ x ∈ waiters.asleep, x.cond = .waiting
  cover : waiters.asleep = 0 ∨ entries.length ≤ waiters.signalled.card
  closed : st.queue.isOpen = false → waiters.asleep = 0

section Notices

variable {before after : QueueWaiters T}

/-- A signal on `waiting_cond` wakes a sleeper unless there is none. -/
theorem notified_signal (hcond : ∀ x ∈ before.asleep, x.cond = .waiting)
    (h : Notified [.signal .waiting] before after) :
    (before.asleep = 0 ∧ after = before) ∨
      ∃ x, before.asleep = x ::ₘ after.asleep ∧
        after.signalled = x ::ₘ before.signalled := by
  cases h with
  | cons hfirst hrest =>
      have hafter := notified_nil hrest
      subst hafter
      cases hfirst with
      | signalNone hnone =>
          refine Or.inl ⟨?_, rfl⟩
          exact Multiset.eq_zero_of_forall_notMem fun x hx =>
            hnone x hx (hcond x hx)
      | signalOne hx => exact Or.inr ⟨_, rfl, rfl⟩

/-- `if(q->waiting) pthread_cond_signal(&(q->waiting_cond))` with a count that
has not wrapped. -/
theorem notified_waiting {waiting : ℕ}
    (hwaiting : waiting = before.asleep.card + before.signalled.card)
    (hcond : ∀ x ∈ before.asleep, x.cond = .waiting)
    (h : Notified (noticeIf waiting (.signal .waiting)) before after) :
    (before.asleep = 0 ∧ after = before) ∨
      ∃ x, before.asleep = x ::ₘ after.asleep ∧
        after.signalled = x ::ₘ before.signalled := by
  by_cases hzero : waiting = 0
  · have hasleep : before.asleep = 0 := by
      rw [← Multiset.card_eq_zero]
      omega
    have hnotices : noticeIf waiting (.signal .waiting) = [] := by
      simp [noticeIf, hzero]
    rw [hnotices] at h
    exact Or.inl ⟨hasleep, notified_nil h⟩
  · have hnotices : noticeIf waiting (.signal .waiting) =
        [.signal .waiting] := by
      simp [noticeIf, hzero]
    rw [hnotices] at h
    exact notified_signal hcond h

/-- Nobody watches, so a broadcast on `watching_cond` is never sent. -/
theorem notified_watching {watching : ℕ} (hwatching : watching = 0)
    (h : Notified (noticeIf watching (.broadcast .watching)) before after) :
    after = before := by
  have hnotices : noticeIf watching (.broadcast .watching) = [] := by
    simp [noticeIf, hwatching]
  rw [hnotices] at h
  exact notified_nil h

/-- A broadcast on `watching_cond` reaches no dequeuer. -/
theorem notified_dequeuers (hcond : ∀ x ∈ before.asleep, x.cond = .waiting)
    (watching : ℕ) :
    Notified (noticeIf watching (.broadcast .watching)) before before := by
  have hbroadcast : NotifiedOnce (.broadcast .watching) before before := by
    have hnone : ∀ x ∈ before.asleep, x.cond ≠ .watching := by
      intro x hx
      rw [hcond x hx]
      simp
    simpa using @NotifiedOnce.broadcast QueueCond T QueueCall .watching 0
      before.asleep before.signalled (by simp) hnone
  unfold noticeIf
  split
  · exact .cons hbroadcast .nil
  · exact .nil

end Notices

section Sections

variable {st : QueueState} {entries : List Entry} {waiters : QueueWaiters T}

theorem QueueHolds.num_eq_zero_iff (h : QueueHolds st entries)
    (hlength : entries.length < 2 ^ 32) :
    st.queue.num = 0 ↔ entries = [] := by
  rw [h.num_eq, Nat.mod_eq_of_lt hlength, List.length_eq_zero_iff]

theorem QueueHolds.dequeues_withWaiting (h : QueueHolds st entries)
    (waiting : ℕ) {result : QueueSection}
    (hresult : qDequeue { st with
      queue := { st.queue with waiting := waiting } } = .ok result) :
    ∃ woken, QueueHolds woken entries ∧ Dequeues woken entries result ∧
      woken.queue.waiting = waiting ∧
      woken.queue.watching = st.queue.watching ∧
      woken.queue.isOpen = st.queue.isOpen := by
  have hholds := h.withWaiting waiting
  obtain ⟨other, hother, hdequeues⟩ := hholds.dequeues
  rw [hresult] at hother
  cases hother
  exact ⟨_, hholds, hdequeues, rfl, rfl, rfl⟩

/-- `q->waiting--` comes before the loop goes on. -/
theorem QueueHolds.dequeues_of_resume (h : QueueHolds st entries)
    {result : QueueSection} (hresult : resume .qDequeue st = .ok result) :
    ∃ woken, QueueHolds woken entries ∧ Dequeues woken entries result ∧
      woken.queue.waiting = uintPred st.queue.waiting ∧
      woken.queue.watching = st.queue.watching ∧
      woken.queue.isOpen = st.queue.isOpen := by
  have hwoken : qDequeueWoken st = .ok result := hresult
  unfold qDequeueWoken at hwoken
  exact h.dequeues_withWaiting _ hwoken

theorem Dequeues.sleeps {result : QueueSection}
    (h : Dequeues st entries result) (hopen : st.queue.isOpen = true)
    (hnum : st.queue.num = 0) :
    result = ⟨{ st with queue := { st.queue with
      waiting := uintSucc st.queue.waiting } }, [], .wait .waiting⟩ := by
  cases h with
  | waits _ _ => rfl
  | closed hclosed _ =>
      rw [hopen] at hclosed
      cases hclosed
  | takes htaken _ _ _ _ _ => exact absurd hnum htaken

theorem Dequeues.returns {result : QueueSection}
    (h : Dequeues st entries result)
    (hreturns : ¬ (st.queue.isOpen = true ∧ st.queue.num = 0)) :
    (∃ ret, result.ending = .leave ret) ∧
      result.notices = noticeIf st.queue.watching (.broadcast .watching) ∧
      result.state.queue.isOpen = st.queue.isOpen := by
  cases h with
  | waits hopen hnum => exact absurd ⟨hopen, hnum⟩ hreturns
  | closed _ _ => exact ⟨⟨_, rfl⟩, rfl, rfl⟩
  | takes _ _ _ _ _ hopen => exact ⟨⟨_, rfl⟩, rfl, hopen⟩

theorem WakeInv.covered {config : QueueConfig T}
    (h : WakeInv config.shared config.waiters entries) : Covered config := by
  constructor
  · intro hasleep
    have hopen : config.shared.queue.isOpen = true := by
      by_contra hshut
      exact hasleep (h.closed (Bool.eq_false_iff.mpr hshut))
    have hlength := h.cover.resolve_left hasleep
    by_cases hsignalled : config.waiters.signalled = 0
    · rw [hsignalled, Multiset.card_zero] at hlength
      have hnil : entries = [] :=
        List.eq_nil_of_length_eq_zero (Nat.le_zero.mp hlength)
      exact Or.inl ⟨hopen, h.holds.head_eq_none_iff.mpr hnil⟩
    · exact Or.inr hsignalled
  · intro hclosed _
    exact h.closed hclosed

/-- A dequeuer that goes on with `q_dequeue` while the others are `waiters`.
It may take one item that no signalled dequeuer of these has to answer for. -/
theorem wakeInv_dequeued {thread : T} {result : QueueSection}
    {notified : QueueWaiters T} (hholds : QueueHolds st entries)
    (hlength : entries.length < 2 ^ 32)
    (hwatching : st.queue.watching = 0)
    (hwaiting : st.queue.waiting =
      waiters.asleep.card + waiters.signalled.card)
    (hlt : st.queue.waiting < 2 ^ 32)
    (hwaits : st.queue.isOpen = true → st.queue.num = 0 →
      st.queue.waiting + 1 < 2 ^ 32)
    (hcond : ∀ x ∈ waiters.asleep, x.cond = .waiting)
    (hcover : waiters.asleep = 0 ∨
      entries.length ≤ waiters.signalled.card + 1)
    (hclosed : st.queue.isOpen = false → waiters.asleep = 0)
    (hdequeues : Dequeues st entries result)
    (hnotified : Notified result.notices waiters notified) :
    ∃ left, WakeInv result.state
      ⟨result.ending.sleeping thread .qDequeue + notified.asleep,
        notified.signalled⟩ left := by
  have hzero := hholds.num_eq_zero_iff hlength
  cases hdequeues with
  | waits hopen hnum =>
      have hsame := notified_nil hnotified
      subst hsame
      have hnil := hzero.mp hnum
      subst hnil
      have hsucc : uintSucc st.queue.waiting = st.queue.waiting + 1 :=
        Nat.mod_eq_of_lt (hwaits hopen hnum)
      refine ⟨[], hholds.withWaiting _, hlength, hwatching, ?_, ?_, ?_,
        Or.inr (by simp), ?_⟩
      · have hcount : uintSucc st.queue.waiting =
            notified.asleep.card + notified.signalled.card + 1 := by
          rw [hsucc, hwaiting]
        refine hcount.trans ?_
        simp only [SectionEnd.sleeping, Multiset.card_add,
          Multiset.card_singleton]
        omega
      · exact Nat.mod_lt _ (Nat.two_pow_pos 32)
      · intro x hx
        rcases Multiset.mem_add.mp hx with hnew | hold
        · rw [Multiset.mem_singleton.mp hnew]
        · exact hcond x hold
      · intro hshut
        have hshut' : st.queue.isOpen = false := hshut
        rw [hopen] at hshut'
        cases hshut'
  | closed hshut hnum =>
      have hsame := notified_watching hwatching hnotified
      subst hsame
      have hnil := hzero.mp hnum
      subst hnil
      simp only [SectionEnd.sleeping, zero_add]
      exact ⟨[], hholds, hlength, hwatching, hwaiting, hlt, hcond,
        Or.inr (by simp), hclosed⟩
  | takes hnum hentries hrest hsameWaiting hsameWatching hopen =>
      have hsame := notified_watching hwatching hnotified
      subst hsame
      subst hentries
      rw [List.length_cons] at hlength hcover
      simp only [SectionEnd.sleeping, zero_add]
      refine ⟨_, hrest, Nat.lt_of_succ_lt hlength,
        hsameWatching.trans hwatching, hsameWaiting.trans hwaiting,
        hsameWaiting ▸ hlt, hcond,
        hcover.imp_right Nat.le_of_succ_le_succ, ?_⟩
      intro hshut
      exact hclosed (hopen ▸ hshut)

/-- A section that signals one sleeper, and none but one is left unsignalled
when it closes the queue. -/
theorem WakeInv.noticed (h : WakeInv st waiters entries)
    {after : QueueState} {left : List Entry} {notified : QueueWaiters T}
    (hholds : QueueHolds after left) (hlt : left.length < 2 ^ 32)
    (hlength : left.length ≤ entries.length + 1)
    (hwaiting : after.queue.waiting = st.queue.waiting)
    (hwatching : after.queue.watching = st.queue.watching)
    (hshut : after.queue.isOpen = false → waiters.asleep.card ≤ 1)
    (hnotified : Notified (noticeIf st.queue.watching (.broadcast .watching) ++
      noticeIf st.queue.waiting (.signal .waiting)) waiters notified) :
    WakeInv after notified left := by
  have hsignal : Notified (noticeIf st.queue.waiting (.signal .waiting))
      waiters notified := by
    simpa [noticeIf, h.watching] using hnotified
  have hwatch := hwatching.trans h.watching
  have hcount := hwaiting.trans h.waiting
  have hcountLt : after.queue.waiting < 2 ^ 32 := hwaiting ▸ h.waiting_lt
  rcases notified_waiting h.waiting h.cond hsignal with
    ⟨hasleep, hsame⟩ | ⟨x, hasleep, hsignalled⟩
  · subst hsame
    exact ⟨hholds, hlt, hwatch, hcount, hcountLt, h.cond, Or.inl hasleep,
      fun _ => hasleep⟩
  · have hwoken : waiters.asleep ≠ 0 := by
      rw [hasleep]
      exact Multiset.cons_ne_zero
    have hcover := h.cover.resolve_left hwoken
    refine ⟨hholds, hlt, hwatch, ?_, hcountLt, ?_, Or.inr ?_, ?_⟩
    · rw [hcount, hasleep, hsignalled, Multiset.card_cons,
        Multiset.card_cons]
      omega
    · intro y hy
      refine h.cond y ?_
      rw [hasleep]
      exact Multiset.mem_cons_of_mem hy
    · rw [hsignalled, Multiset.card_cons]
      exact hlength.trans (Nat.succ_le_succ hcover)
    · intro hclosed
      have hone := hshut hclosed
      rw [hasleep, Multiset.card_cons] at hone
      exact Multiset.card_eq_zero.mp (by omega)

/-- `q_close` and `q_open` leave the chain as it is. -/
theorem WakeInv.changed (h : WakeInv st waiters entries) (isOpen : Bool)
    (hshut : isOpen = false → waiters.asleep.card ≤ 1)
    {notified : QueueWaiters T}
    (hnotified : Notified (changeOpen isOpen st).notices waiters notified) :
    WakeInv (changeOpen isOpen st).state notified entries :=
  h.noticed (h.holds.withCounts st.queue.waiting st.queue.watching isOpen)
    h.length_lt (Nat.le_succ _) rfl rfl hshut hnotified

end Sections

section Steps

variable {config after : QueueConfig T} {entries : List Entry}
  {action : Action QueueCond T QueueCall}

def WakeInvAt (config : QueueConfig T) : Prop :=
  ∃ entries, WakeInv config.shared config.waiters entries

theorem wakeInvAt_leave {result : QueueSection} {ret : QueueRet}
    {notified : QueueWaiters T} (thread : T) (call : QueueCall)
    (hending : result.ending = .leave ret)
    (h : WakeInv result.state notified entries) :
    WakeInvAt (config.finish thread call result notified) := by
  refine ⟨entries, ?_⟩
  have hwaiters : (config.finish thread call result notified).waiters =
      notified := by
    simp [Config.finish, hending, SectionEnd.sleeping]
  rw [hwaiters]
  exact h

theorem wakeInv_enter {thread : T} {call : QueueCall} {result : QueueSection}
    {notified : QueueWaiters T}
    (h : WakeInv config.shared config.waiters entries)
    (hwakeable : Wakeable config (.enter thread call))
    (hresult : enter call config.shared = .ok result)
    (hnotified : Notified result.notices config.waiters notified) :
    WakeInvAt (config.finish thread call result notified) := by
  cases call with
  | qEnque data flags =>
      cases hopen : config.shared.queue.isOpen with
      | false =>
          rw [show enter (.qEnque data flags) config.shared = _ from
            qEnque_closed hopen data flags] at hresult
          cases hresult
          have hsame := notified_nil hnotified
          subst hsame
          exact wakeInvAt_leave thread _ rfl ⟨h.holds.withItem data flags,
            h.length_lt, h.watching, h.waiting, h.waiting_lt, h.cond, h.cover,
            h.closed⟩
      | true =>
          obtain ⟨linked, henque, hholds, hwaiting, hwatching, hstill⟩ :=
            h.holds.enqued hopen data flags
          rw [show enter (.qEnque data flags) config.shared = _ from
            henque] at hresult
          cases hresult
          have hroom : config.shared.queue.num + 1 < 2 ^ 32 :=
            hwakeable hopen
          rw [h.holds.num_eq, Nat.mod_eq_of_lt h.length_lt] at hroom
          have hshut : linked.queue.isOpen = false →
              config.waiters.asleep.card ≤ 1 := by
            intro hclosed
            rw [hstill] at hclosed
            cases hclosed
          exact wakeInvAt_leave thread _ rfl
            (h.noticed hholds (by simpa using hroom) (by simp) hwaiting
              hwatching hshut hnotified)
  | qDequeue =>
      obtain ⟨other, hother, hdequeues⟩ := h.holds.dequeues
      rw [show enter .qDequeue config.shared = _ from hother] at hresult
      cases hresult
      exact wakeInv_dequeued h.holds h.length_lt h.watching h.waiting
        h.waiting_lt hwakeable h.cond (h.cover.imp_right Nat.le_succ_of_le)
        h.closed hdequeues hnotified
  | qNum =>
      cases hresult
      have hsame := notified_nil hnotified
      subst hsame
      exact wakeInvAt_leave thread _ rfl h
  | qClose =>
      cases hresult
      exact wakeInvAt_leave thread _ rfl
        (h.changed false (fun _ => hwakeable) hnotified)
  | qOpen =>
      cases hresult
      exact wakeInvAt_leave thread _ rfl
        (h.changed true (fun hnever => by cases hnever) hnotified)

theorem wakeInv_resumed {x : Sleeper QueueCond T QueueCall}
    {waiters notified : QueueWaiters T} {result : QueueSection}
    (h : WakeInv config.shared config.waiters entries)
    (hcount : config.waiters.asleep.card + config.waiters.signalled.card =
      waiters.asleep.card + waiters.signalled.card + 1)
    (hasleep : ∀ y ∈ waiters.asleep, y ∈ config.waiters.asleep)
    (hcover : waiters.asleep = 0 ∨
      entries.length ≤ waiters.signalled.card + 1)
    (hresult : resume x.call config.shared = .ok result)
    (hnotified : Notified result.notices waiters notified) :
    WakeInvAt (config.finish x.thread x.call result notified) := by
  have hcall := call_of_resume hresult
  rw [hcall] at hresult ⊢
  obtain ⟨woken, hholds, hdequeues, hwaiting, hwatching, hopen⟩ :=
    h.holds.dequeues_of_resume hresult
  have hlt := h.waiting_lt
  rw [h.waiting, hcount] at hwaiting hlt
  have hpred : woken.queue.waiting =
      waiters.asleep.card + waiters.signalled.card := by
    rw [hwaiting, uintPred]
    omega
  have hclosed : woken.queue.isOpen = false → waiters.asleep = 0 := by
    intro hshut
    have hnone := h.closed (hopen ▸ hshut)
    exact Multiset.eq_zero_of_forall_notMem fun y hy => by
      simpa [hnone] using hasleep y hy
  exact wakeInv_dequeued hholds h.length_lt (hwatching.trans h.watching)
    hpred (by omega) (fun _ _ => by omega)
    (fun y hy => h.cond y (hasleep y hy)) hcover hclosed hdequeues hnotified

theorem wakeInv_step (h : WakeInvAt config) (hwakeable : Wakeable config action)
    (hstep : Step queueProgram config action after) : WakeInvAt after := by
  rcases h with ⟨entries, h⟩
  cases hstep with
  | enter hidle hresult hnotified =>
      exact wakeInv_enter h hwakeable hresult hnotified
  | @resume x signalled result notified hx hresult hnotified =>
      have hasleep : ∀ y ∈ (⟨config.waiters.asleep, signalled⟩ :
          QueueWaiters T).asleep, y ∈ config.waiters.asleep := fun y hy => hy
      refine wakeInv_resumed h ?_ hasleep ?_ hresult hnotified
      · simp only [hx, Multiset.card_cons]
        omega
      · refine h.cover.imp_right ?_
        intro hlength
        rwa [hx, Multiset.card_cons] at hlength
  | @spurious x asleep result notified hx hresult hnotified =>
      have hne : config.waiters.asleep ≠ 0 := by
        rw [hx]
        exact Multiset.cons_ne_zero
      refine wakeInv_resumed h ?_ ?_ (Or.inr ?_) hresult hnotified
      · simp only [hx, Multiset.card_cons]
        omega
      · intro y hy
        rw [hx]
        exact Multiset.mem_cons_of_mem hy
      · exact Nat.le_succ_of_le (h.cover.resolve_left hne)

theorem wakeInv_of_reaches
    (hreaches : Reaches queueProgram Wakeable (Config.initial qInit) config) :
    WakeInvAt config := by
  refine inv_of_reaches ?_ ?_ hreaches
  · intro before action after hinv hwakeable hstep
    exact wakeInv_step hinv hwakeable hstep
  · exact ⟨[], queueHolds_init, Nat.two_pow_pos 32, rfl, rfl,
      Nat.two_pow_pos 32, by simp [Config.initial], Or.inl rfl, fun _ => rfl⟩

end Steps

section Uncovered

variable {config after : QueueConfig T} {entries : List Entry}

/-- Any steps at all. -/
abbrev Continues (config later : QueueConfig T) : Prop :=
  Reaches queueProgram (fun _ _ => True) config later

/-- A later configuration leaves a sleeper nobody wakes. -/
def Uncovers (config : QueueConfig T) : Prop :=
  ∃ later, Continues config later ∧ ¬ Covered later

theorem Uncovers.before (h : Uncovers after) (hsteps : Continues config after) :
    Uncovers config := by
  obtain ⟨later, hlater, hnot⟩ := h
  exact ⟨later, hsteps.trans hlater, hnot⟩

/-- What a configuration after the first one keeps. -/
theorem Reachable.continues (h : Reachable config)
    (hsteps : Continues config after) : Reachable after :=
  Relation.ReflTransGen.trans h hsteps

theorem asleep_waiting (hreachable : Reachable config) :
    ∀ y ∈ config.waiters.asleep, y.cond = .waiting := by
  intro y hy
  have hmem : y ∈ config.waiters.asleep + config.waiters.signalled :=
    Multiset.mem_add.mpr (Or.inl hy)
  exact (sleepers_of_reaches hreachable y hmem).1

theorem enter_sleeps {st : QueueState} (hopen : st.queue.isOpen = true)
    (hnum : st.queue.num = 0) :
    queueProgram.enter .qDequeue st = .ok ⟨{ st with queue := { st.queue with
      waiting := uintSucc st.queue.waiting } }, [], .wait .waiting⟩ := by
  simp [queueProgram, enter, qDequeue, hopen, hnum]

/-- A signalled dequeuer can always go on.  In a closed queue it returns, and
in an open queue that counts no item it goes to sleep again. -/
theorem resume_goes_on (hreachable : Reachable config)
    {x : Sleeper QueueCond T QueueCall}
    {rest : Multiset (Sleeper QueueCond T QueueCall)}
    (hx : config.waiters.signalled = x ::ₘ rest) :
    ∃ later, Continues config later ∧ later.waiters.signalled = rest ∧
      later.shared.queue.isOpen = config.shared.queue.isOpen ∧
      (config.shared.queue.isOpen = false →
        later.waiters.asleep = config.waiters.asleep) ∧
      (config.shared.queue.isOpen = true → config.shared.queue.num = 0 →
        later.waiters.asleep = x ::ₘ config.waiters.asleep ∧
        later.shared.queue.num = 0 ∧
        (later.shared.queue.head = none ↔
          config.shared.queue.head = none) ∧
        later.shared.queue.waiting =
          uintSucc (uintPred config.shared.queue.waiting)) := by
  obtain ⟨entries, hholds, _⟩ := fifoInv_of_reaches hreachable
  have hcond := asleep_waiting hreachable
  have hdequeuer : IsDequeuer x := by
    refine sleepers_of_reaches hreachable x (Multiset.mem_add.mpr (Or.inr ?_))
    rw [hx]
    exact Multiset.mem_cons_self x rest
  obtain ⟨result, hresult, _⟩ :=
    (hholds.withWaiting (uintPred config.shared.queue.waiting)).dequeues
  have hresumed : resume .qDequeue config.shared = .ok result := hresult
  obtain ⟨woken, hwoken, hdequeues, hwaiting, _, hopen⟩ :=
    hholds.dequeues_of_resume hresumed
  have hnum : woken.queue.num = config.shared.queue.num :=
    hwoken.num_eq.trans hholds.num_eq.symm
  have hgoes (notified : QueueWaiters T)
      (hnotified : Notified result.notices ⟨config.waiters.asleep, rest⟩
        notified) :
      Continues config (config.finish x.thread x.call result notified) := by
    refine Relation.ReflTransGen.single
      ⟨.resume x, trivial, .resume hx ?_ hnotified⟩
    rw [hdequeuer.2]
    exact hresumed
  by_cases hwaits : woken.queue.isOpen = true ∧ woken.queue.num = 0
  · have heq := hdequeues.sleeps hwaits.1 hwaits.2
    subst heq
    have hself : (⟨.waiting, x.thread, x.call⟩ :
        Sleeper QueueCond T QueueCall) = x := by
      rw [← hdequeuer.1]
    refine ⟨_, hgoes _ .nil, rfl, hopen, ?_, ?_⟩
    · intro hclosed
      rw [← hopen, hwaits.1] at hclosed
      cases hclosed
    · intro _ _
      refine ⟨?_, hwaits.2, ?_, congrArg uintSucc hwaiting⟩
      · simp only [Config.finish, SectionEnd.sleeping, hself]
        rfl
      · exact hwoken.head_eq_none_iff.trans hholds.head_eq_none_iff.symm
  · obtain ⟨⟨ret, hending⟩, hnotices, hsame⟩ := hdequeues.returns hwaits
    have hnotified : Notified result.notices
        (⟨config.waiters.asleep, rest⟩ : QueueWaiters T)
        ⟨config.waiters.asleep, rest⟩ := by
      rw [hnotices]
      refine notified_dequeuers ?_ _
      exact hcond
    refine ⟨_, hgoes _ hnotified, rfl, hsame.trans hopen, ?_, ?_⟩
    · intro _
      simp only [Config.finish, hending, SectionEnd.sleeping, zero_add]
    · intro hstill hzero
      exact absurd ⟨hopen.trans hstill, hnum.trans hzero⟩ hwaits

/-- In a closed queue the signalled dequeuers return and the sleepers stay. -/
theorem uncovers_of_closed {n : ℕ} (hreachable : Reachable config)
    (hn : config.waiters.signalled.card = n)
    (hclosed : config.shared.queue.isOpen = false)
    (hasleep : config.waiters.asleep ≠ 0) : Uncovers config := by
  induction n generalizing config with
  | zero =>
      refine ⟨config, .refl, fun hcovered => hasleep ?_⟩
      exact hcovered.closed hclosed (Multiset.card_eq_zero.mp hn)
  | succ n ih =>
      obtain ⟨x, rest, hx, hrest⟩ := Multiset.card_eq_succ_iff.mp hn
      obtain ⟨later, hlater, hsignalled, hopen, hsame, _⟩ :=
        resume_goes_on hreachable hx.symm
      have hcount : later.waiters.signalled.card = n := by
        rw [hsignalled, hrest]
      exact (ih (hreachable.continues hlater) hcount (hopen.trans hclosed)
        (hsame hclosed ▸ hasleep)).before hlater

/-- In an open queue that counts no item the signalled dequeuers go to sleep
again. -/
theorem all_asleep {n : ℕ} (hreachable : Reachable config)
    (hn : config.waiters.signalled.card = n)
    (hopen : config.shared.queue.isOpen = true)
    (hnum : config.shared.queue.num = 0)
    (hlt : config.shared.queue.waiting < 2 ^ 32) :
    ∃ later, Continues config later ∧ later.waiters.signalled = 0 ∧
      later.shared.queue.isOpen = true ∧ later.shared.queue.num = 0 ∧
      (later.shared.queue.head = none ↔ config.shared.queue.head = none) ∧
      later.shared.queue.waiting = config.shared.queue.waiting ∧
      config.waiters.asleep.card ≤ later.waiters.asleep.card := by
  induction n generalizing config with
  | zero =>
      exact ⟨config, .refl, Multiset.card_eq_zero.mp hn, hopen, hnum, Iff.rfl,
        rfl, le_rfl⟩
  | succ n ih =>
      obtain ⟨x, rest, hx, hrest⟩ := Multiset.card_eq_succ_iff.mp hn
      obtain ⟨mid, hmid, hsignalled, hsameOpen, _, hwaits⟩ :=
        resume_goes_on hreachable hx.symm
      obtain ⟨hasleep, hmidNum, hhead, hwaiting⟩ := hwaits hopen hnum
      have hround : mid.shared.queue.waiting =
          config.shared.queue.waiting := by
        rw [hwaiting, uintSucc, uintPred]
        omega
      have hcount : mid.waiters.signalled.card = n := by
        rw [hsignalled, hrest]
      obtain ⟨later, hlater, hnone, hlaterOpen, hlaterNum, hlaterHead,
        hlaterWaiting, hle⟩ := ih (hreachable.continues hmid) hcount
          (hsameOpen.trans hopen) hmidNum (hround ▸ hlt)
      refine ⟨later, hmid.trans hlater, hnone, hlaterOpen, hlaterNum,
        hlaterHead.trans hhead, hlaterWaiting.trans hround, ?_⟩
      rw [hasleep, Multiset.card_cons] at hle
      omega

/-- A waiter more than the counter holds: nobody is signalled for the next
item. -/
theorem uncovers_of_waiting [Infinite T] (hreachable : Reachable config)
    (hopen : config.shared.queue.isOpen = true)
    (hnum : config.shared.queue.num = 0)
    (hwaiting : config.shared.queue.waiting = 0)
    (hasleep : config.waiters.asleep ≠ 0) : Uncovers config := by
  obtain ⟨mid, hmid, hnone, hmidOpen, _, _, hmidWaiting, hle⟩ :=
    all_asleep hreachable rfl hopen hnum (by omega)
  have hreached := hreachable.continues hmid
  obtain ⟨thread, hidle⟩ := mid.waiters.exists_idle
  obtain ⟨entries, hholds, _⟩ := fifoInv_of_reaches hreached
  obtain ⟨linked, henque, hlinked, _⟩ := hholds.enqued hmidOpen 0 0
  have hnotices : noticeIf mid.shared.queue.waiting
      (.signal QueueCond.waiting) = [] := by
    simp [noticeIf, hmidWaiting.trans hwaiting]
  rw [hnotices, List.append_nil] at henque
  have hlater := reaches_enter hmid thread (.qEnque 0 0) _ _ trivial hidle
    henque (notified_dequeuers (asleep_waiting hreached) _) (zero_add _) rfl
  refine ⟨_, hlater, fun hcovered => ?_⟩
  have hstill : mid.waiters.asleep ≠ 0 := by
    rw [← Multiset.card_pos] at hasleep ⊢
    omega
  rcases hcovered.awaited hstill with ⟨_, hempty⟩ | hsignalled
  · have hnil := hlinked.head_eq_none_iff.mp hempty
    simp at hnil
  · exact hsignalled hnone

/-- An item more than the counter holds: the next dequeuer sleeps. -/
theorem uncovers_of_num [Infinite T] (hreachable : Reachable config)
    (hopen : config.shared.queue.isOpen = true)
    (hnum : config.shared.queue.num = 0)
    (hhead : config.shared.queue.head ≠ none) : Uncovers config := by
  obtain ⟨thread, hidle⟩ := config.waiters.exists_idle
  have hstart : Continues config config := .refl
  have hsleeps := reaches_enter hstart thread .qDequeue _ _ trivial hidle
    (enter_sleeps hopen hnum) .nil rfl rfl
  obtain ⟨later, hlater, hnone, _, _, hlaterHead, _, hle⟩ :=
    all_asleep (hreachable.continues hsleeps) rfl hopen hnum
      (Nat.mod_lt _ (Nat.two_pow_pos 32))
  refine ⟨later, hsleeps.trans hlater, fun hcovered => ?_⟩
  have hasleep : later.waiters.asleep ≠ 0 := by
    rw [← Multiset.card_pos]
    simp only [SectionEnd.sleeping, Multiset.card_add,
      Multiset.card_singleton] at hle
    omega
  rcases hcovered.awaited hasleep with ⟨_, hempty⟩ | hsignalled
  · exact hhead (hlaterHead.mp hempty)
  · exact hsignalled hnone

section Breaks

variable {thread : T} {result : QueueSection} {waiters : QueueWaiters T}

/-- Of two sleepers `q_close` signals one. -/
theorem uncovers_of_close
    (h : WakeInv config.shared config.waiters entries)
    (hreachable :
      Reachable (config.finish thread .qClose (qClose config.shared) waiters))
    (htwo : ¬ config.waiters.asleep.card ≤ 1)
    (hnotified : Notified (qClose config.shared).notices config.waiters
      waiters) :
    Uncovers (config.finish thread .qClose (qClose config.shared)
      waiters) := by
  have hsignal : Notified (noticeIf config.shared.queue.waiting
      (.signal .waiting)) config.waiters waiters := by
    simpa [qClose, changeOpen, noticeIf, h.watching] using hnotified
  refine uncovers_of_closed hreachable rfl rfl ?_
  rw [← Multiset.card_pos]
  rcases notified_waiting h.waiting h.cond hsignal with
    ⟨hasleep, _⟩ | ⟨x, hasleep, _⟩
  · rw [hasleep, Multiset.card_zero] at htwo
    omega
  · rw [hasleep, Multiset.card_cons] at htwo
    simp only [Config.finish, qClose, changeOpen, SectionEnd.sleeping,
      Multiset.card_add, Multiset.card_zero]
    omega

/-- A dequeuer goes to sleep and the counter of the waiters wraps. -/
theorem uncovers_of_wait [Infinite T]
    (h : WakeInv config.shared config.waiters entries)
    (hreachable :
      Reachable (config.finish thread .qDequeue result waiters))
    (hopen : config.shared.queue.isOpen = true)
    (hnum : config.shared.queue.num = 0)
    (hfull : ¬ config.shared.queue.waiting + 1 < 2 ^ 32)
    (hresult : queueProgram.enter .qDequeue config.shared = .ok result) :
    Uncovers (config.finish thread .qDequeue result waiters) := by
  rw [enter_sleeps hopen hnum] at hresult
  cases hresult
  have hwrapped : uintSucc config.shared.queue.waiting = 0 := by
    have hlt := h.waiting_lt
    rw [uintSucc]
    omega
  refine uncovers_of_waiting hreachable hopen hnum hwrapped ?_
  rw [← Multiset.card_pos]
  simp [Config.finish, SectionEnd.sleeping]

/-- An item is linked and the counter of the items wraps. -/
theorem uncovers_of_enque [Infinite T] {data : Ptr} {flags : ℕ}
    (h : WakeInv config.shared config.waiters entries)
    (hreachable :
      Reachable (config.finish thread (.qEnque data flags) result waiters))
    (hopen : config.shared.queue.isOpen = true)
    (hfull : ¬ config.shared.queue.num + 1 < 2 ^ 32)
    (hresult : queueProgram.enter (.qEnque data flags) config.shared =
      .ok result) :
    Uncovers (config.finish thread (.qEnque data flags) result waiters) := by
  obtain ⟨linked, henque, hlinked, _, _, hstill⟩ :=
    h.holds.enqued hopen data flags
  rw [show queueProgram.enter (.qEnque data flags) config.shared = _
    from henque] at hresult
  cases hresult
  rw [h.holds.num_eq, Nat.mod_eq_of_lt h.length_lt] at hfull
  have hlt := h.length_lt
  have hwrapped : linked.queue.num = 0 := by
    rw [hlinked.num_eq, List.length_append, List.length_singleton]
    omega
  have hhead : linked.queue.head ≠ none := by
    intro hempty
    have hnil := hlinked.head_eq_none_iff.mp hempty
    simp at hnil
  exact uncovers_of_num hreachable hstill hwrapped hhead

/-- A step that breaks the condition leaves a configuration from which a
sleeper is left that nobody wakes. -/
theorem uncovers_of_not_wakeable [Infinite T]
    {action : Action QueueCond T QueueCall}
    (h : WakeInv config.shared config.waiters entries)
    (hreachable : Reachable after) (hnot : ¬ Wakeable config action)
    (hstep : Step queueProgram config action after) : Uncovers after := by
  cases hstep with
  | resume => exact absurd trivial hnot
  | spurious => exact absurd trivial hnot
  | @enter thread call result waiters hidle hresult hnotified =>
      cases call with
      | qNum => exact absurd trivial hnot
      | qOpen => exact absurd trivial hnot
      | qClose =>
          cases hresult
          exact uncovers_of_close h hreachable hnot hnotified
      | qDequeue =>
          have hbroken : config.shared.queue.isOpen = true ∧
              config.shared.queue.num = 0 ∧
              ¬ config.shared.queue.waiting + 1 < 2 ^ 32 := by
            simpa [Wakeable] using hnot
          obtain ⟨hopen, hnum, hfull⟩ := hbroken
          exact uncovers_of_wait h hreachable hopen hnum hfull hresult
      | qEnque data flags =>
          have hbroken : config.shared.queue.isOpen = true ∧
              ¬ config.shared.queue.num + 1 < 2 ^ 32 := by
            simpa [Wakeable] using hnot
          exact uncovers_of_enque h hreachable hbroken.1 hbroken.2 hresult

end Breaks

end Uncovered

def emptyQueue (waiting : ℕ) (isOpen : Bool) : QueueState :=
  { qInit with queue := ⟨none, none, 0, waiting, 0, isOpen⟩ }

/-- In every run in which `q_close` finds no more than one sleeper that is not
signalled and no counter wraps, every sleeper is covered.  After any other
step, with threads enough, a sleeper may be left that nobody wakes. -/
theorem queue_wakeup {config : QueueConfig T}
    (hreaches : Reaches queueProgram Wakeable (Config.initial qInit)
      config) :
    Covered config ∧
      (Infinite T → ∀ action after, ¬ Wakeable config action →
        Step queueProgram config action after →
        ∃ later, Reaches queueProgram (fun _ _ => True) after later ∧
          ¬ Covered later) := by
  obtain ⟨entries, hwake⟩ := wakeInv_of_reaches hreaches
  refine ⟨hwake.covered, ?_⟩
  intro hinfinite action after hnot hstep
  have hreachable : Reachable config := by
    refine Relation.ReflTransGen.mono ?_ _ _ hreaches
    rintro before next ⟨other, _, hother⟩
    exact ⟨other, trivial, hother⟩
  exact uncovers_of_not_wakeable hwake
    (hreachable.tail ⟨action, trivial, hstep⟩) hnot hstep

/-- Three dequeuers sleep, two items are accepted, and one of the two woken
takes the first: one sleeps on, one is signalled, one item is left. -/
theorem queue_wakeup_run :
    ∃ config : QueueConfig ℕ,
      config.waiters = ⟨{dequeuer 0}, {dequeuer 2}⟩ ∧
      accepted config.log = [7, 8] ∧ handedOut config.log = [7] ∧
      Covered config ∧
      ∀ action after, ¬ Wakeable config action →
        Step queueProgram config action after →
        ∃ later, Reaches queueProgram (fun _ _ => True) after later ∧
          ¬ Covered later := by
  have hstart : Reaches queueProgram Wakeable
      (Config.initial qInit : QueueConfig ℕ) (Config.initial qInit) :=
    Relation.ReflTransGen.refl
  have hfirst : Reaches queueProgram Wakeable (Config.initial qInit)
      ⟨emptyQueue 1 true, ⟨{dequeuer 0}, 0⟩, []⟩ :=
    reaches_enter hstart 0 .qDequeue {dequeuer 0} 0 (fun _ _ => by decide)
      (initial_idle 0) rfl .nil rfl rfl
  have hsecond : Reaches queueProgram Wakeable (Config.initial qInit)
      ⟨emptyQueue 2 true, ⟨dequeuer 1 ::ₘ {dequeuer 0}, 0⟩, []⟩ :=
    reaches_enter hfirst 1 .qDequeue _ 0 (fun _ _ => by decide)
      (by simp [Waiters.Idle, dequeuer]) rfl .nil rfl rfl
  have hthird : Reaches queueProgram Wakeable (Config.initial qInit)
      ⟨emptyQueue 3 true,
        ⟨dequeuer 2 ::ₘ dequeuer 1 ::ₘ {dequeuer 0}, 0⟩, []⟩ :=
    reaches_enter hsecond 2 .qDequeue _ 0 (fun _ _ => by decide)
      (by simp [Waiters.Idle, dequeuer]) rfl .nil rfl rfl
  have hseven : Reaches queueProgram Wakeable (Config.initial qInit)
      ⟨⟨⟨some 0, some 0, 1, 3, 0, true⟩, _, _, _, _⟩,
        ⟨dequeuer 1 ::ₘ {dequeuer 0}, {dequeuer 2}⟩, _⟩ :=
    reaches_enter hthird 3 (.qEnque 7 0) _ _ (fun _ => by decide)
      (by simp [Waiters.Idle, dequeuer]) rfl (.cons (.signalOne rfl) .nil)
      rfl rfl
  have height : Reaches queueProgram Wakeable (Config.initial qInit)
      ⟨⟨⟨some 0, some 1, 2, 3, 0, true⟩, _, _, _, _⟩,
        ⟨{dequeuer 0}, dequeuer 1 ::ₘ {dequeuer 2}⟩, _⟩ :=
    reaches_enter hseven 3 (.qEnque 8 0) _ _ (fun _ => by decide)
      (by simp [Waiters.Idle, dequeuer]) rfl (.cons (.signalOne rfl) .nil)
      rfl rfl
  have htaken : Reaches queueProgram Wakeable (Config.initial qInit)
      ⟨⟨⟨some 1, some 1, 1, 2, 0, true⟩, _, _, _, _⟩,
        ⟨{dequeuer 0}, {dequeuer 2}⟩, _⟩ :=
    reaches_resume height (dequeuer 1) {dequeuer 2} _ _ trivial rfl rfl .nil
      rfl rfl
  obtain ⟨hcovered, hafter⟩ := queue_wakeup htaken
  exact ⟨_, rfl, rfl, rfl, hcovered, hafter inferInstance⟩

/-- Two dequeuers sleep, `q_close` signals one of them, and that one resumes
and returns. -/
theorem queue_wakeup_lost :
    ¬ ∀ config : QueueConfig ℕ, Reachable config → Covered config := by
  intro hclaim
  have hstart : Reachable (Config.initial qInit : QueueConfig ℕ) :=
    Relation.ReflTransGen.refl
  have hfirst : Reachable ⟨emptyQueue 1 true, ⟨{dequeuer 0}, 0⟩, []⟩ :=
    reaches_enter hstart 0 .qDequeue _ 0 trivial (initial_idle 0) rfl .nil rfl
      rfl
  have hsecond : Reachable
      ⟨emptyQueue 2 true, ⟨dequeuer 1 ::ₘ {dequeuer 0}, 0⟩, []⟩ :=
    reaches_enter hfirst 1 .qDequeue _ 0 trivial
      (by simp [Waiters.Idle, dequeuer]) rfl .nil rfl rfl
  have hclose : Reachable
      ⟨emptyQueue 2 false, ⟨{dequeuer 0}, {dequeuer 1}⟩,
        [(2, .qClose, .unit)]⟩ :=
    reaches_enter hsecond 2 .qClose _ _ trivial
      (by simp [Waiters.Idle, dequeuer]) rfl (.cons (.signalOne rfl) .nil)
      rfl rfl
  have hresumed : Reachable ⟨emptyQueue 1 false, ⟨{dequeuer 0}, 0⟩,
      [(2, .qClose, .unit), (1, .qDequeue, .closed)]⟩ :=
    reaches_resume hclose (dequeuer 1) 0 _ 0 trivial rfl rfl .nil rfl rfl
  have hasleep := (hclaim _ hresumed).closed rfl rfl
  simp at hasleep

end Queue
end Alib
