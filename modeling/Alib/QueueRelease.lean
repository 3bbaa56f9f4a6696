import Alib.QueueWakeup
import Alib.QueueAccount

/-!
# Runs that end in the release of the shared queue

Threads call the queue functions and `q_deinit` in any interleaving.  In every
configuration reached the account holds, and the two counters of the queue
count the threads that wait, so `q_deinit` frees the queue as soon as it runs
with nobody else waiting.  The items left behind are those of the calls of
`q_enque` that found the queue closed.
-/

namespace Alib
namespace Queue

open Monitor

variable {T : Type*}

section Runs

/-- The account while the queue lives and once it is freed. -/
structure AccountInv (st : DeinitState) (log : DeinitLog T) : Prop where
  live : st.freed = false →
    ∃ entries left, Ledger st.toQueueState (sharedLog log) entries left
  settled : st.freed = true →
    ∃ left, Settled st.toQueueState (sharedLog log) left

variable {st : DeinitState} {log : DeinitLog T} {entries : List Entry}
  {left : List Addr} {config before after : DeinitConfig T}
  {condition : DeinitConfig T → Action QueueCond T DeinitCall → Prop}

theorem Ledger.deinits {st : QueueState} {log : QueueLog T}
    (h : Ledger st log entries left) {result : DeinitSection}
    (hresult : qDeinitLoop st = .ok result) : Deinits st entries result := by
  obtain ⟨other, hother, hdeinits⟩ := h.holds.deinits h.length_le
  rw [hresult] at hother
  cases hother
  exact hdeinits

theorem accountInv_shared (h : Ledger st.toQueueState (sharedLog log)
      entries left) (thread : T) {call : QueueCall} {inner : QueueSection}
    (hinner : enter call st.toQueueState = .ok inner ∨
      resume call st.toQueueState = .ok inner) :
    AccountInv (keepQueue inner).state
      ((keepQueue inner).ending.logged thread (.shared call) log) := by
  constructor
  · intro _
    rw [sharedLog_shared]
    exact h.section thread hinner
  · intro hfreed
    cases hfreed

theorem accountInv_deinits {st : QueueState} {result : DeinitSection}
    (h : Ledger st (sharedLog log) entries left)
    (hresult : qDeinitLoop st = .ok result) (thread : T) :
    AccountInv result.state
      (result.ending.logged thread .qDeinit log) := by
  have hdeinits := h.deinits hresult
  constructor
  · intro hlive
    rw [sharedLog_qDeinit]
    cases hdeinits with
    | waits hsome =>
        exact ⟨entries, left, h.withCounts st.queue.waiting _
          st.queue.isOpen⟩
    | frees hnone hdeleted => cases hlive
  · intro hfreed
    rw [sharedLog_qDeinit]
    cases hdeinits with
    | waits hsome => cases hfreed
    | frees hnone hdeleted => exact ⟨left, h.settled hdeleted⟩

theorem shared_of_deinitSection {call : QueueCall} {result : DeinitSection}
    (hresult : deinitEnter (.shared call) st = .ok result ∨
      deinitResume (.shared call) st = .ok result) :
    ∃ inner, (enter call st.toQueueState = .ok inner ∨
      resume call st.toQueueState = .ok inner) ∧
      result = keepQueue inner := by
  rcases hresult with henter | hresume
  · obtain ⟨inner, hinner, heq⟩ := shared_of_deinitEnter henter
    exact ⟨inner, Or.inl hinner, heq⟩
  · obtain ⟨inner, hinner, heq⟩ := shared_of_deinitResume hresume
    exact ⟨inner, Or.inr hinner, heq⟩

theorem accountInv_section (hinv : AccountInv st log) (thread : T)
    {call : DeinitCall} {result : DeinitSection}
    (hresult : deinitEnter call st = .ok result ∨
      deinitResume call st = .ok result) :
    AccountInv result.state (result.ending.logged thread call log) := by
  obtain ⟨entries, left, h⟩ := hinv.live (deinitSection_live hresult)
  cases call with
  | shared call =>
      obtain ⟨inner, hinner, heq⟩ := shared_of_deinitSection hresult
      subst heq
      exact accountInv_shared h thread hinner
  | qDeinit =>
      rcases hresult with henter | hresume
      · obtain ⟨inner, hinner, hstate, hending⟩ := loop_of_deinitEnter henter
        have hclosed := h.withCounts st.queue.waiting st.queue.watching false
        rw [hstate, hending]
        exact accountInv_deinits hclosed hinner thread
      · have hloop := loop_of_deinitResume hresume
        have hwoken := h.withCounts st.queue.waiting
          (uintPred st.queue.watching) st.queue.isOpen
        exact accountInv_deinits hwoken hloop thread

theorem accountInv_of_reaches
    (hreaches : Reaches deinitProgram condition (Config.initial deinitInit)
      config) : AccountInv config.shared config.log := by
  refine sections_keep ?_ ?_ hreaches
  · intro thread call shared log result hinv hresult
    exact accountInv_section hinv thread hresult
  · constructor
    · intro _
      exact ⟨[], [], ledger_init⟩
    · intro hfreed
      cases hfreed

theorem sleepsFor_of_wait {thread : T} {call : DeinitCall}
    {result : DeinitSection} {cond : QueueCond}
    (hresult : deinitEnter call st = .ok result ∨
      deinitResume call st = .ok result)
    (hwait : result.ending = .wait cond) :
    SleepsFor (⟨cond, thread, call⟩ : DeinitSleeper T) := by
  cases call with
  | shared call =>
      obtain ⟨inner, hinner, heq⟩ := shared_of_deinitSection hresult
      subst heq
      obtain ⟨hcond, hcall⟩ :
          IsDequeuer (⟨cond, thread, call⟩ : Sleeper QueueCond T QueueCall) :=
        isDequeuer_of_wait hinner hwait
      left
      exact ⟨congrArg DeinitCall.shared hcall, hcond⟩
  | qDeinit =>
      right
      refine ⟨rfl, ?_⟩
      rcases hresult with henter | hresume
      · obtain ⟨inner, hinner, _, hending⟩ := loop_of_deinitEnter henter
        rw [hending] at hwait
        exact qDeinitLoop_waits hinner hwait
      · exact qDeinitLoop_waits (loop_of_deinitResume hresume) hwait

theorem sleepsFor_of_reaches
    (hreaches : Reaches deinitProgram condition (Config.initial deinitInit)
      config) :
    ∀ x ∈ config.waiters.asleep + config.waiters.signalled,
      SleepsFor x := by
  refine sleepers_keep ?_ ?_ hreaches
  · intro thread call shared result cond hresult hwait
    exact sleepsFor_of_wait hresult hwait
  · intro x hx
    simp [Config.initial] at hx

/-- Every configuration reached by threads that call the queue functions and
`q_deinit`. -/
def DeinitReachable (config : DeinitConfig T) : Prop :=
  Reaches deinitProgram (fun _ _ => True) (Config.initial deinitInit) config

theorem enter_countsWait (hinv : AccountInv st log) {call : DeinitCall}
    {result : DeinitSection} (henter : deinitEnter call st = .ok result)
    (hlive : result.state.freed = false) :
    CountsWait st.queue result.state.queue result.ending := by
  obtain ⟨entries, left, h⟩ := hinv.live (deinitSection_live (Or.inl henter))
  cases call with
  | shared call =>
      obtain ⟨inner, hinner, heq⟩ := shared_of_deinitEnter henter
      subst heq
      exact h.holds.enter_countsWait hinner
  | qDeinit =>
      obtain ⟨inner, hinner, hstate, hending⟩ := loop_of_deinitEnter henter
      have hclosed := h.withCounts st.queue.waiting st.queue.watching false
      rw [hstate] at hlive ⊢
      rw [hending]
      have hcounts := (hclosed.deinits hinner).countsWait hlive
      intro cond
      rw [hcounts cond]
      cases cond with
      | waiting => rfl
      | watching => rfl

theorem resume_countsWait (hinv : AccountInv st log) {x : DeinitSleeper T}
    (hx : SleepsFor x) {result : DeinitSection}
    (hresume : deinitResume x.call st = .ok result)
    (hlive : result.state.freed = false) :
    ∃ woken, Uncounts x st.queue woken ∧
      CountsWait woken result.state.queue result.ending := by
  obtain ⟨entries, left, h⟩ := hinv.live (deinitSection_live (Or.inr hresume))
  rcases hx with ⟨hcall, hcond⟩ | ⟨hcall, hcond⟩
  · rw [hcall] at hresume
    obtain ⟨inner, hinner, heq⟩ := shared_of_deinitResume hresume
    subst heq
    obtain ⟨woken, _, hdequeues, hwaiting, hwatching, _⟩ :=
      h.holds.dequeues_of_resume hinner
    have huncounts : Uncounts x st.queue woken.queue :=
      uncounts_waiting hcond hwaiting hwatching
    exact ⟨woken.queue, huncounts, hdequeues.countsWait⟩
  · rw [hcall] at hresume
    have hloop := loop_of_deinitResume hresume
    have hwoken := h.withCounts st.queue.waiting
      (uintPred st.queue.watching) st.queue.isOpen
    have hcounts := (hwoken.deinits hloop).countsWait hlive
    exact ⟨_, uncounts_watching hcond rfl, hcounts⟩

theorem counted_finish {thread : T} {call : DeinitCall}
    {result : DeinitSection} {woken : QueueStruct}
    {old waiters : Waiters QueueCond T DeinitCall}
    (hcounted : Counted woken (old.asleep + old.signalled))
    (hcounts : CountsWait woken result.state.queue result.ending)
    (hnotified : Notified result.notices old waiters) :
    Counted (before.finish thread call result waiters).shared.queue
      ((before.finish thread call result waiters).waiters.asleep +
        (before.finish thread call result waiters).waiters.signalled) := by
  rw [← hnotified.total_eq] at hcounted
  have hfinish := hcounted.finish hcounts thread call
  rw [← add_assoc] at hfinish
  exact hfinish

/-- The counters count the threads that wait, until the queue is freed. -/
theorem counted_of_reachable (hreachable : DeinitReachable config) :
    config.shared.freed = false → Counted config.shared.queue
      (config.waiters.asleep + config.waiters.signalled) := by
  induction hreachable with
  | refl =>
      intro _ cond
      cases cond with
      | waiting => rfl
      | watching => rfl
  | @tail before after hbefore hlast ih =>
      intro hlive
      rcases hlast with ⟨action, _, hstep⟩
      have hinv := accountInv_of_reaches hbefore
      have hsleepers := sleepsFor_of_reaches hbefore
      cases hstep with
      | enter hidle hresult hnotified =>
          have hcounted := ih (deinitSection_live (Or.inl hresult))
          have hcounts := enter_countsWait hinv hresult hlive
          exact counted_finish hcounted hcounts hnotified
      | @resume x signalled result waiters hx hresult hnotified =>
          have hcounted := ih (deinitSection_live (Or.inr hresult))
          rw [hx, Multiset.add_cons] at hcounted hsleepers
          obtain ⟨woken, huncounts, hcounts⟩ := resume_countsWait hinv
            (hsleepers x (Multiset.mem_cons_self _ _)) hresult hlive
          exact counted_finish (hcounted.resume huncounts) hcounts hnotified
      | @spurious x asleep result waiters hx hresult hnotified =>
          have hcounted := ih (deinitSection_live (Or.inr hresult))
          rw [hx, Multiset.cons_add] at hcounted hsleepers
          obtain ⟨woken, huncounts, hcounts⟩ := resume_countsWait hinv
            (hsleepers x (Multiset.mem_cons_self _ _)) hresult hlive
          exact counted_finish (hcounted.resume huncounts) hcounts hnotified

/-- `q_enque` is called while the queue is open. -/
def EnquesOpen (config : DeinitConfig T)
    (action : Action QueueCond T DeinitCall) : Prop :=
  ∀ thread data flags,
    action = .enter thread (.shared (.qEnque data flags)) →
    config.shared.queue.isOpen = true

/-- The item that the first section of a call refuses. -/
def refusedBy (isOpen : Bool) : Action QueueCond T DeinitCall →
    List (Ptr × ℕ)
  | .enter _ (.shared (.qEnque data flags)) =>
      if isOpen = true then [] else [(data, flags)]
  | _ => []

theorem enquesOpen_iff {action : Action QueueCond T DeinitCall} :
    EnquesOpen config action ↔
      refusedBy config.shared.queue.isOpen action = [] := by
  constructor
  · intro hopen
    unfold refusedBy
    split
    · rw [if_pos (hopen _ _ _ rfl)]
    · rfl
  · intro hnone thread data flags haction
    subst haction
    by_contra hclosed
    rw [refusedBy, if_neg hclosed] at hnone
    cases hnone

theorem refusedItems_quiet {log : QueueLog T} {call : QueueCall}
    (hcall : ∀ data flags, call ≠ .qEnque data flags)
    (ending : SectionEnd QueueCond QueueRet) (thread : T) :
    refusedItems (ending.logged thread call log) = refusedItems log := by
  cases ending with
  | wait cond => rfl
  | leave ret =>
      have hnone : itemWithStatus queueStatusClosed call ret = none := by
        cases call with
        | qEnque data flags => exact absurd rfl (hcall data flags)
        | qDequeue => rfl
        | qNum => rfl
        | qClose => rfl
        | qOpen => rfl
      rw [SectionEnd.logged, refusedItems_concat, hnone]
      simp

theorem qEnque_refuses {st : QueueState} {log : QueueLog T} {data : Ptr}
    {flags : ℕ} {result : QueueSection}
    (h : qEnque data flags st = .ok result) (thread : T) :
    refusedItems (result.ending.logged thread (.qEnque data flags) log) =
      refusedItems log ++
        if st.queue.isOpen = true then [] else [(data, flags)] := by
  cases hopen : st.queue.isOpen with
  | true =>
      have hsame : (newQItem data flags st).2.queue.isOpen = true := hopen
      unfold qEnque at h
      simp only [hsame, Bool.true_eq_false, if_false] at h
      obtain ⟨linked, _, hresult⟩ := bind_eq_ok_iff.mp h
      cases hresult
      simp [SectionEnd.logged, refusedItems_concat, itemWithStatus,
        queueStatusClosed, queueStatusSuccess]
  | false =>
      rw [qEnque_closed hopen] at h
      cases h
      simp [SectionEnd.logged, refusedItems_concat, itemWithStatus]

theorem refusedItems_resumed {x : DeinitSleeper T} {result : DeinitSection}
    (h : deinitResume x.call st = .ok result) :
    refusedItems (sharedLog (result.ending.logged x.thread x.call log)) =
      refusedItems (sharedLog log) := by
  cases hx : x.call with
  | shared call =>
      rw [hx] at h
      obtain ⟨inner, hinner, heq⟩ := shared_of_deinitResume h
      subst heq
      have hcall := call_of_resume hinner
      subst hcall
      rw [sharedLog_shared]
      apply refusedItems_quiet
      intro data flags heq
      cases heq
  | qDeinit => rw [sharedLog_qDeinit]

theorem refusedItems_entered {thread : T} {call : DeinitCall}
    {result : DeinitSection} (h : deinitEnter call st = .ok result) :
    refusedItems (sharedLog (result.ending.logged thread call log)) =
      refusedItems (sharedLog log) ++
        refusedBy st.queue.isOpen (.enter thread call) := by
  cases call with
  | qDeinit =>
      rw [sharedLog_qDeinit]
      exact (List.append_nil _).symm
  | shared call =>
      obtain ⟨inner, hinner, heq⟩ := shared_of_deinitEnter h
      subst heq
      rw [sharedLog_shared]
      have hquiet : (∀ data flags, call ≠ .qEnque data flags) →
          refusedItems ((keepQueue inner).ending.logged thread call
              (sharedLog log)) = refusedItems (sharedLog log) ++ [] := by
        intro hcall
        rw [refusedItems_quiet hcall, List.append_nil]
      cases call with
      | qEnque data flags => exact qEnque_refuses hinner thread
      | qDequeue => exact hquiet (by simp)
      | qNum => exact hquiet (by simp)
      | qClose => exact hquiet (by simp)
      | qOpen => exact hquiet (by simp)

theorem refusedItems_step {action : Action QueueCond T DeinitCall}
    (hstep : Step deinitProgram before action after) :
    refusedItems (sharedLog after.log) =
      refusedItems (sharedLog before.log) ++
        refusedBy before.shared.queue.isOpen action := by
  cases hstep with
  | enter hidle hresult hnotified => exact refusedItems_entered hresult
  | resume hx hresult hnotified =>
      exact (refusedItems_resumed hresult).trans (List.append_nil _).symm
  | spurious hx hresult hnotified =>
      exact (refusedItems_resumed hresult).trans (List.append_nil _).symm

/-- A run refuses nothing if and only if it calls `q_enque` on the open queue
only. -/
theorem reaches_enquesOpen_iff (hreachable : DeinitReachable config) :
    Reaches deinitProgram EnquesOpen (Config.initial deinitInit) config ↔
      refusedItems (sharedLog config.log) = [] := by
  constructor
  · intro hreaches
    clear hreachable
    induction hreaches with
    | refl => rfl
    | tail _ hlast ih =>
        rcases hlast with ⟨action, hopen, hstep⟩
        rw [refusedItems_step hstep, ih, enquesOpen_iff.mp hopen,
          List.append_nil]
  · intro hnone
    induction hreachable with
    | refl => exact Relation.ReflTransGen.refl
    | tail _ hlast ih =>
        rcases hlast with ⟨action, _, hstep⟩
        rw [refusedItems_step hstep, List.append_eq_nil_iff] at hnone
        exact (ih hnone.1).tail
          ⟨action, enquesOpen_iff.mpr hnone.2, hstep⟩

end Runs

/-- A section of `q_deinit` returns and has freed the queue. -/
def Releases (x : Except Fault DeinitSection) : Prop :=
  ∃ result, x = .ok result ∧ result.state.freed = true ∧
    result.ending = .leave (.status queueStatusSuccess)

/-- Once the queue is freed every item has been deleted and every datum
accounted for if and only if `q_enque` was called on the open queue only.
`q_deinit` frees the queue as soon as it runs with nobody else waiting. -/
structure QueueAccount (config : DeinitConfig T) : Prop where
  accounts : config.shared.freed = true →
    (Accounts config.shared.toQueueState (sharedLog config.log) ↔
      Reaches deinitProgram EnquesOpen (Config.initial deinitInit) config)
  releases : config.shared.freed = false →
    config.waiters.asleep + config.waiters.signalled = 0 →
    Releases (deinitEnter .qDeinit config.shared)
  resumes : config.shared.freed = false →
    ∀ x, x.call = .qDeinit →
      config.waiters.asleep + config.waiters.signalled = {x} →
      Releases (deinitResume .qDeinit config.shared)

theorem Ledger.releases {st : QueueState} {log : QueueLog T}
    {entries : List Entry} {left : List Addr}
    (h : Ledger st log entries left)
    (hcounted : Counted st.queue (0 : Multiset (DeinitSleeper T))) :
    Releases (qDeinitLoop st) := by
  obtain ⟨result, hresult, hdeinits⟩ := h.holds.deinits h.length_le
  cases hdeinits with
  | waits hsome =>
      rcases hsome with hwaiting | hwatching
      · exact absurd hcounted.none.1 hwaiting
      · exact absurd hcounted.none.2 hwatching
  | frees _ hdeleted => exact ⟨_, hresult, rfl, rfl⟩

theorem releases_qDeinit {st : QueueState}
    (h : Releases (qDeinitLoop
      { st with queue := { st.queue with isOpen := false } })) :
    Releases (qDeinit st) := by
  obtain ⟨result, hresult, hfreed, hending⟩ := h
  exact ⟨_, qDeinit_eq hresult, hfreed, hending⟩

theorem queue_account {config : DeinitConfig T}
    (hreachable : DeinitReachable config) : QueueAccount config := by
  have hinv := accountInv_of_reaches hreachable
  have hcounted := counted_of_reachable hreachable
  constructor
  · intro hfreed
    obtain ⟨left, hsettled⟩ := hinv.settled hfreed
    exact hsettled.accounts_iff.trans
      (reaches_enquesOpen_iff hreachable).symm
  · intro hlive hnone
    obtain ⟨entries, left, h⟩ := hinv.live hlive
    have hnobody := hcounted hlive
    rw [hnone] at hnobody
    have hclosed := h.withCounts config.shared.queue.waiting
      config.shared.queue.watching false
    have hreleases :=
      releases_qDeinit (hclosed.releases (hnobody.withOpen false))
    simp only [deinitEnter, hlive, Bool.false_eq_true, if_false]
    exact hreleases
  · intro hlive x hcall hsleepers
    obtain ⟨entries, left, h⟩ := hinv.live hlive
    have hx : SleepsFor x := by
      apply sleepsFor_of_reaches hreachable
      rw [hsleepers]
      exact Multiset.mem_singleton_self x
    have honly := hcounted hlive
    rw [hsleepers, ← Multiset.cons_zero] at honly
    have hnobody := honly.resume (uncounts_watching (hx.watching hcall) rfl)
    have hwoken := h.withCounts config.shared.queue.waiting
      (uintPred config.shared.queue.watching) config.shared.queue.isOpen
    have hreleases := hwoken.releases hnobody
    simp only [deinitResume, hlive, Bool.false_eq_true, if_false]
    exact hreleases

/-- A call that a thread makes while nobody waits, and that returns without a
notice. -/
theorem DeinitReachable.calls {config : DeinitConfig T}
    (h : DeinitReachable config) (hnone : config.waiters = ⟨0, 0⟩)
    (thread : T) (call : DeinitCall) {result : DeinitSection} {ret : QueueRet}
    (hresult : deinitEnter call config.shared = .ok result)
    (hnotices : result.notices = []) (hleave : result.ending = .leave ret) :
    DeinitReachable (⟨result.state, ⟨0, 0⟩,
      config.log ++ [(thread, call, ret)]⟩ : DeinitConfig T) := by
  have hidle : config.waiters.Idle thread := by
    intro x hx
    simp [hnone] at hx
  have hnotified : Notified result.notices config.waiters ⟨0, 0⟩ := by
    rw [hnotices, hnone]
    exact .nil
  have hstep := Step.enter (P := deinitProgram) hidle hresult hnotified
  have hafter : config.finish thread call result ⟨0, 0⟩ =
      ⟨result.state, ⟨0, 0⟩, config.log ++ [(thread, call, ret)]⟩ := by
    simp [Config.finish, hleave, SectionEnd.sleeping, SectionEnd.logged]
  rw [hafter] at hstep
  exact Relation.ReflTransGen.tail h ⟨_, trivial, hstep⟩

/-- Two items, one handed out; the other is deleted with its data. -/
theorem queue_account_run :
    ∃ config : DeinitConfig ℕ, config.shared.freedItems = [0, 1] ∧
      config.shared.freedData = [8] ∧ QueueAccount config := by
  have hstart : DeinitReachable
      (Config.initial deinitInit : DeinitConfig ℕ) :=
    Relation.ReflTransGen.refl
  have hfirst := hstart.calls rfl 0 (.shared (.qEnque 7 1)) rfl rfl rfl
  have hsecond := hfirst.calls rfl 0 (.shared (.qEnque 8 1)) rfl rfl rfl
  have hhanded := hsecond.calls rfl 0 (.shared .qDequeue) rfl rfl rfl
  have hfreed := hhanded.calls rfl 0 .qDeinit rfl rfl rfl
  exact ⟨_, rfl, rfl, queue_account hfreed⟩

/-- The item of a refused call is left behind. -/
theorem queue_account_leaks :
    ¬ ∀ config : DeinitConfig ℕ, DeinitReachable config →
      config.shared.freed = true →
      Accounts config.shared.toQueueState (sharedLog config.log) := by
  intro hclaim
  have hstart : DeinitReachable
      (Config.initial deinitInit : DeinitConfig ℕ) :=
    Relation.ReflTransGen.refl
  have hclosed := hstart.calls rfl 0 (.shared .qClose) rfl rfl rfl
  have hrefused := hclosed.calls rfl 0 (.shared (.qEnque 5 0))
    rfl rfl rfl
  have hfreed := hrefused.calls rfl 0 .qDeinit rfl rfl rfl
  have hlength := (hclaim _ hfreed rfl).items.length_eq
  cases hlength

end Queue
end Alib
