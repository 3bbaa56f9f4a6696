import Mathlib.Tactic
import Mathlib.Logic.Relation
import Mathlib.Data.Multiset.AddSub

/-!
# Threads that share a monitor

A program has procedures whose accesses to the shared state all lie in
sections under one mutex.  A section runs without interruption; it ends by
leaving the procedure with a result or by waiting for a condition, which
releases the mutex, and it may have notified sleepers of conditions before.  A
sleeper that has been notified, or wakes for no reason, takes the mutex again
and goes on with the section that follows the wait.  Any number of threads
run procedures, one at a time each, and the log lists the calls that have
returned in the order of their last sections.
-/

namespace Alib
namespace Monitor

variable {C T S Call Ret Err : Type*}

inductive Notice (C : Type*) where
  | signal (cond : C)
  | broadcast (cond : C)

inductive SectionEnd (C Ret : Type*) where
  | leave (ret : Ret)
  | wait (cond : C)

structure SectionResult (C S Ret : Type*) where
  state : S
  notices : List (Notice C)
  ending : SectionEnd C Ret

/-- The first section of a call, and the one a woken call goes on with. -/
structure Program (C S Call Ret Err : Type*) where
  enter : Call → S → Except Err (SectionResult C S Ret)
  resume : Call → S → Except Err (SectionResult C S Ret)

structure Sleeper (C T Call : Type*) where
  cond : C
  thread : T
  call : Call

/-- Sleepers not notified yet, and those notified that have yet to resume. -/
structure Waiters (C T Call : Type*) where
  asleep : Multiset (Sleeper C T Call)
  signalled : Multiset (Sleeper C T Call)

structure Config (C T S Call Ret : Type*) where
  shared : S
  waiters : Waiters C T Call
  log : List (T × Call × Ret)

def Config.initial (shared : S) : Config C T S Call Ret where
  shared := shared
  waiters := ⟨0, 0⟩
  log := []

/-- A signal wakes one sleeper of the condition if there is one, a broadcast
wakes them all. -/
inductive NotifiedOnce : Notice C → Waiters C T Call → Waiters C T Call → Prop
  | signalNone {cond : C} {waiters : Waiters C T Call}
      (hnone : ∀ x ∈ waiters.asleep, x.cond ≠ cond) :
      NotifiedOnce (.signal cond) waiters waiters
  | signalOne {cond : C} {x : Sleeper C T Call}
      {asleep signalled : Multiset (Sleeper C T Call)} (hx : x.cond = cond) :
      NotifiedOnce (.signal cond) ⟨x ::ₘ asleep, signalled⟩
        ⟨asleep, x ::ₘ signalled⟩
  | broadcast {cond : C} {woken asleep signalled : Multiset (Sleeper C T Call)}
      (hwoken : ∀ x ∈ woken, x.cond = cond)
      (hrest : ∀ x ∈ asleep, x.cond ≠ cond) :
      NotifiedOnce (.broadcast cond) ⟨woken + asleep, signalled⟩
        ⟨asleep, woken + signalled⟩

inductive Notified : List (Notice C) → Waiters C T Call → Waiters C T Call →
    Prop
  | nil {waiters : Waiters C T Call} : Notified [] waiters waiters
  | cons {notice : Notice C} {rest : List (Notice C)}
      {before middle after : Waiters C T Call}
      (hfirst : NotifiedOnce notice before middle)
      (hrest : Notified rest middle after) :
      Notified (notice :: rest) before after

def Waiters.Idle (waiters : Waiters C T Call) (thread : T) : Prop :=
  ∀ x ∈ waiters.asleep + waiters.signalled, x.thread ≠ thread

def SectionEnd.logged (ending : SectionEnd C Ret) (thread : T) (call : Call)
    (log : List (T × Call × Ret)) : List (T × Call × Ret) :=
  match ending with
  | .leave ret => log ++ [(thread, call, ret)]
  | .wait _ => log

def SectionEnd.sleeping (ending : SectionEnd C Ret) (thread : T)
    (call : Call) : Multiset (Sleeper C T Call) :=
  match ending with
  | .leave _ => 0
  | .wait cond => {⟨cond, thread, call⟩}

/-- The configuration after a section whose notices have left `waiters`. -/
def Config.finish (config : Config C T S Call Ret) (thread : T) (call : Call)
    (result : SectionResult C S Ret) (waiters : Waiters C T Call) :
    Config C T S Call Ret where
  shared := result.state
  waiters :=
    ⟨result.ending.sleeping thread call + waiters.asleep, waiters.signalled⟩
  log := result.ending.logged thread call config.log

inductive Action (C T Call : Type*) where
  | enter (thread : T) (call : Call)
  | resume (x : Sleeper C T Call)
  | spurious (x : Sleeper C T Call)

inductive Step (P : Program C S Call Ret Err) :
    Config C T S Call Ret → Action C T Call → Config C T S Call Ret → Prop
  | enter {config : Config C T S Call Ret} {thread : T} {call : Call}
      {result : SectionResult C S Ret} {waiters : Waiters C T Call}
      (hidle : config.waiters.Idle thread)
      (hresult : P.enter call config.shared = .ok result)
      (hnotified : Notified result.notices config.waiters waiters) :
      Step P config (.enter thread call)
        (config.finish thread call result waiters)
  | resume {config : Config C T S Call Ret} {x : Sleeper C T Call}
      {signalled : Multiset (Sleeper C T Call)}
      {result : SectionResult C S Ret} {waiters : Waiters C T Call}
      (hx : config.waiters.signalled = x ::ₘ signalled)
      (hresult : P.resume x.call config.shared = .ok result)
      (hnotified : Notified result.notices
        ⟨config.waiters.asleep, signalled⟩ waiters) :
      Step P config (.resume x) (config.finish x.thread x.call result waiters)
  | spurious {config : Config C T S Call Ret} {x : Sleeper C T Call}
      {asleep : Multiset (Sleeper C T Call)}
      {result : SectionResult C S Ret} {waiters : Waiters C T Call}
      (hx : config.waiters.asleep = x ::ₘ asleep)
      (hresult : P.resume x.call config.shared = .ok result)
      (hnotified : Notified result.notices
        ⟨asleep, config.waiters.signalled⟩ waiters) :
      Step P config (.spurious x)
        (config.finish x.thread x.call result waiters)

/-- Any number of steps, each of which met `condition` where it was taken. -/
def Reaches (P : Program C S Call Ret Err)
    (condition : Config C T S Call Ret → Action C T Call → Prop) :
    Config C T S Call Ret → Config C T S Call Ret → Prop :=
  Relation.ReflTransGen fun before after =>
    ∃ action, condition before action ∧ Step P before action after

section Rules

variable {P : Program C S Call Ret Err}
  {condition : Config C T S Call Ret → Action C T Call → Prop}
  {start config : Config C T S Call Ret}

theorem inv_of_reaches {Inv : Config C T S Call Ret → Prop}
    (hstep : ∀ before action after, Inv before → condition before action →
      Step P before action after → Inv after)
    (hstart : Inv start) (hreaches : Reaches P condition start config) :
    Inv config := by
  induction hreaches with
  | refl => exact hstart
  | tail _ hlast ih =>
      rcases hlast with ⟨action, hcondition, hstep'⟩
      exact hstep _ action _ ih hcondition hstep'

/-- A thread that is not waiting enters a call. -/
theorem reaches_enter (h : Reaches P condition start config) (thread : T)
    (call : Call) (asleep signalled : Multiset (Sleeper C T Call))
    {result : SectionResult C S Ret} {waiters : Waiters C T Call}
    (hcondition : condition config (.enter thread call))
    (hidle : config.waiters.Idle thread)
    (hresult : P.enter call config.shared = .ok result)
    (hnotified : Notified result.notices config.waiters waiters)
    (hasleep : result.ending.sleeping thread call + waiters.asleep = asleep)
    (hsignalled : waiters.signalled = signalled) :
    Reaches P condition start ⟨result.state, ⟨asleep, signalled⟩,
      result.ending.logged thread call config.log⟩ := by
  subst hasleep hsignalled
  exact h.tail ⟨.enter thread call, hcondition, .enter hidle hresult hnotified⟩

/-- A signalled sleeper goes on. -/
theorem reaches_resume (h : Reaches P condition start config)
    (x : Sleeper C T Call) (rest asleep signalled : Multiset (Sleeper C T Call))
    {result : SectionResult C S Ret} {waiters : Waiters C T Call}
    (hcondition : condition config (.resume x))
    (hx : config.waiters.signalled = x ::ₘ rest)
    (hresult : P.resume x.call config.shared = .ok result)
    (hnotified : Notified result.notices ⟨config.waiters.asleep, rest⟩ waiters)
    (hasleep : result.ending.sleeping x.thread x.call + waiters.asleep =
      asleep)
    (hsignalled : waiters.signalled = signalled) :
    Reaches P condition start ⟨result.state, ⟨asleep, signalled⟩,
      result.ending.logged x.thread x.call config.log⟩ := by
  subst hasleep hsignalled
  exact h.tail ⟨.resume x, hcondition, .resume hx hresult hnotified⟩

/-- Among infinitely many threads one is not waiting. -/
theorem Waiters.exists_idle [Infinite T] (waiters : Waiters C T Call) :
    ∃ thread, waiters.Idle thread := by
  classical
  obtain ⟨thread, hthread⟩ := Infinite.exists_notMem_finset
    ((waiters.asleep + waiters.signalled).map Sleeper.thread).toFinset
  refine ⟨thread, fun x hx heq => hthread ?_⟩
  rw [Multiset.mem_toFinset, Multiset.mem_map]
  exact ⟨x, hx, heq⟩

/-- What every section keeps of the shared state and the log holds in every
configuration reached. -/
theorem sections_keep {Inv : S → List (T × Call × Ret) → Prop}
    (hsection : ∀ (thread : T) (call : Call) shared log result,
      Inv shared log →
      P.enter call shared = .ok result ∨ P.resume call shared = .ok result →
      Inv result.state (result.ending.logged thread call log))
    (hstart : Inv start.shared start.log)
    (hreaches : Reaches P condition start config) :
    Inv config.shared config.log := by
  have hstep : ∀ before action after,
      Inv before.shared before.log → condition before action →
      Step P before action after → Inv after.shared after.log := by
    intro before action after hinv _ hstep
    cases hstep with
    | enter _ hresult _ =>
        exact hsection _ _ _ _ _ hinv (Or.inl hresult)
    | resume _ hresult _ =>
        exact hsection _ _ _ _ _ hinv (Or.inr hresult)
    | spurious _ hresult _ =>
        exact hsection _ _ _ _ _ hinv (Or.inr hresult)
  exact inv_of_reaches hstep hstart hreaches

theorem notified_nil {before after : Waiters C T Call}
    (h : Notified [] before after) : after = before := by
  cases h
  rfl

theorem NotifiedOnce.total_eq {notice : Notice C}
    {before after : Waiters C T Call} (h : NotifiedOnce notice before after) :
    after.asleep + after.signalled = before.asleep + before.signalled := by
  cases h with
  | signalNone hnone => rfl
  | signalOne hx => simp
  | broadcast hwoken hrest =>
      rw [add_left_comm, add_assoc]

theorem Notified.total_eq {notices : List (Notice C)}
    {before after : Waiters C T Call} (h : Notified notices before after) :
    after.asleep + after.signalled = before.asleep + before.signalled := by
  induction h with
  | nil => rfl
  | cons hfirst _ ih => exact ih.trans hfirst.total_eq

/-- What every wait grants its sleeper holds of all sleepers. -/
theorem sleepers_keep {Good : Sleeper C T Call → Prop}
    (hwait : ∀ (thread : T) (call : Call) shared result cond,
      P.enter call shared = .ok result ∨ P.resume call shared = .ok result →
      result.ending = .wait cond → Good ⟨cond, thread, call⟩)
    (hstart : ∀ x ∈ start.waiters.asleep + start.waiters.signalled, Good x)
    (hreaches : Reaches P condition start config) :
    ∀ x ∈ config.waiters.asleep + config.waiters.signalled, Good x := by
  have hfinish : ∀ (before : Config C T S Call Ret) (thread : T)
      (call : Call) (result : SectionResult C S Ret)
      (old waiters : Waiters C T Call),
      (∀ x ∈ old.asleep + old.signalled, Good x) →
      P.enter call before.shared = .ok result ∨
        P.resume call before.shared = .ok result →
      Notified result.notices old waiters →
      ∀ x ∈ (before.finish thread call result waiters).waiters.asleep +
        (before.finish thread call result waiters).waiters.signalled,
        Good x := by
    intro before thread call result old waiters hold hresult hnotified x hx
    have hx' : x ∈ result.ending.sleeping thread call +
        (waiters.asleep + waiters.signalled) := by
      rw [← add_assoc]
      exact hx
    rw [hnotified.total_eq, Multiset.mem_add] at hx'
    rcases hx' with hnew | hx'
    · cases hending : result.ending with
      | leave ret => simp [hending, SectionEnd.sleeping] at hnew
      | wait cond =>
          have heq : x = ⟨cond, thread, call⟩ := by
            simpa [hending, SectionEnd.sleeping] using hnew
          subst heq
          exact hwait thread call _ result cond hresult hending
    · exact hold x hx'
  have hstep : ∀ before action after,
      (∀ x ∈ before.waiters.asleep + before.waiters.signalled, Good x) →
      condition before action → Step P before action after →
      ∀ x ∈ after.waiters.asleep + after.waiters.signalled, Good x := by
    intro before action after hinv _ hstep
    cases hstep with
    | enter _ hresult hnotified =>
        exact hfinish _ _ _ _ _ _ hinv (Or.inl hresult) hnotified
    | resume hx hresult hnotified =>
        refine hfinish _ _ _ _ _ _ ?_ (Or.inr hresult) hnotified
        intro y hy
        refine hinv y ?_
        rw [hx, Multiset.add_cons]
        exact Multiset.mem_cons_of_mem hy
    | spurious hx hresult hnotified =>
        refine hfinish _ _ _ _ _ _ ?_ (Or.inr hresult) hnotified
        intro y hy
        refine hinv y ?_
        rw [hx, Multiset.cons_add]
        exact Multiset.mem_cons_of_mem hy
  exact inv_of_reaches hstep hstart hreaches

end Rules

end Monitor
end Alib
