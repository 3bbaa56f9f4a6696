import Alib.ErrorStack
import Alib.Execution

/-!
# The global error stack as a log

The reports made through `a_error_stack_macro_helper` are read off the
transcript of the calls, newest first, and compared with the chain that the
global stack heads.  A report with the start flag discards what was reported
before.  The helper calls `getcode` without the test `a_error_getcode` makes,
and after a start it releases the old chain but still links it behind the new
node.
-/

namespace Alib

/-- The modules and codes along the `ptr` links. -/
def ErrorStack.entries : ErrorStack → List (ErrorMod × ErrorCode)
  | .null => []
  | .stackAllocError => [(.stackAlloc, .value 0)]
  | .node _ mod code ptr => (mod, code) :: ptr.entries

/-- The blocks along the `ptr` links. -/
def ErrorStack.chain : ErrorStack → List Addr
  | .node addr _ _ ptr => addr :: ptr.chain
  | _ => []

theorem ErrorStack.entries_eq_nil_iff {stack : ErrorStack} :
    stack.entries = [] ↔ stack = .null := by
  cases stack <;> simp [ErrorStack.entries]

namespace ErrorLog

open Execution

abbrev Entry := ErrorMod × ErrorCode

/-- `a_error_getcode(mod)` -/
def aErrorGetcode (E : Env) (mod : ErrorMod) (w : World) : ErrorCode :=
  match getcode E mod with
  | some callback => callback w
  | none => .value 0

/-- Between reports anything may store into `errno`. -/
inductive ErrorOp where
  | report (mod : ErrorMod) (useGetcode : Bool) (code : ErrorCode)
      (start : Bool)
  | setErrno (errno : Ptr)

inductive ErrorOut where
  | reported (entry : Entry)
  | done

abbrev ErrorConfig := Config World ErrorOp ErrorOut

def reportedEntry (E : Env) (mod : ErrorMod) (useGetcode : Bool)
    (code : ErrorCode) (w : World) : Entry :=
  (mod, if useGetcode then aErrorGetcode E mod w else code)

def errorStep (E : Env) (w : World) : ErrorOp →
    Except Fault (ErrorOut × World)
  | .report mod useGetcode code start => do
      let after ← aErrorStackMacroHelper E mod useGetcode code start w
      return (.reported (reportedEntry E mod useGetcode code w), after)
  | .setErrno errno => return (.done, { w with errno := errno })

def loggedStep (log : List Entry) : ErrorOp × ErrorOut → List Entry
  | (.report _ _ _ start, .reported entry) =>
      if start then [entry] else entry :: log
  | _ => log

/-- The entries reported since the latest report with the start flag, newest
first. -/
def logged (transcript : List (ErrorOp × ErrorOut)) : List Entry :=
  transcript.foldl loggedStep []

@[simp] theorem logged_append (transcript : List (ErrorOp × ErrorOut))
    (entry : ErrorOp × ErrorOut) :
    logged (transcript ++ [entry]) = loggedStep (logged transcript) entry := by
  simp [logged]

/-- After the call the chain of the global stack is the log, and none of its
nodes has been released. -/
def LogStep (_config : ErrorConfig) (_op : ErrorOp) (after : ErrorConfig) :
    Prop :=
  after.state.globalErrorStack.entries = logged after.transcript ∧
    ∀ a ∈ after.state.globalErrorStack.chain, a ∉ after.state.released

/-- The module can be asked for its code, and a start finds nothing to
discard. -/
def Reportable (E : Env) (config : ErrorConfig) : ErrorOp → Prop
  | .report mod useGetcode _ start =>
      (useGetcode = true → (getcode E mod).isSome) ∧
        (start = true → config.state.globalErrorStack = .null)
  | .setErrno _ => True

/-- Names of blocks come from earlier requests, and the nodes of the global
stack are allocated. -/
structure FreshWorld (w : World) : Prop where
  released : ∀ a ∈ w.released, a < w.requests
  chain : ∀ a ∈ w.globalErrorStack.chain, a < w.requests ∧ a ∉ w.released

def LogInv (config : ErrorConfig) : Prop :=
  config.state.globalErrorStack.entries = logged config.transcript ∧
    FreshWorld config.state

/-- The world in which a report asks for its code. -/
def startedWorld (start : Bool) (w : World) : World :=
  if start then aErrorStackFree w.globalErrorStack w else w

/-- The world after a node was granted and put in front of `ptr`. -/
def pushedWorld (mod : ErrorMod) (code : ErrorCode) (ptr : ErrorStack)
    (w : World) : World :=
  { w with
    requests := w.requests + 1
    globalErrorStack := .node w.requests mod code ptr }

@[simp] theorem pushedWorld_entries (mod : ErrorMod) (code : ErrorCode)
    (ptr : ErrorStack) (w : World) :
    (pushedWorld mod code ptr w).globalErrorStack.entries =
      (mod, code) :: ptr.entries := rfl

section Runs

variable {E : Env}

theorem reportedCode_eq_aErrorGetcode {mod : ErrorMod} {useGetcode : Bool}
    (hcode : useGetcode = true → (getcode E mod).isSome)
    (code : ErrorCode) (w : World) :
    reportedCode E mod useGetcode code w =
      .ok (reportedEntry E mod useGetcode code w).2 := by
  cases useGetcode with
  | false => rfl
  | true =>
      obtain ⟨callback, hcallback⟩ := Option.isSome_iff_exists.mp (hcode rfl)
      simp [reportedCode, reportedEntry, aErrorGetcode, hcallback]

theorem aErrorStack_granted (hgrant : E.GrantsAll) (mod : ErrorMod)
    (code : ErrorCode) (prev : ErrorStack) (w : World) :
    aErrorStack E mod code prev w =
      (.node w.requests mod code prev,
        { w with requests := w.requests + 1 }) := by
  simp [aErrorStack, malloc, hgrant w.requests sizeofErrorStack]

theorem aErrorStackFree_null {w : World}
    (hstack : w.globalErrorStack = .null) :
    aErrorStackFree w.globalErrorStack w = w := by
  rw [hstack]
  simp [aErrorStackFree, ErrorStack.freeOrder, ErrorStack.release,
    Except.isOk, Except.toBool]

theorem startedWorld_eq {start : Bool} {w : World}
    (hstart : start = true → w.globalErrorStack = .null) :
    startedWorld start w = w := by
  cases start with
  | false => rfl
  | true => exact aErrorStackFree_null (hstart rfl)

/-- A report links its node in front of the old chain whether or not it starts
a new one; after a start the old chain has been released. -/
theorem aErrorStackMacroHelper_granted (hgrant : E.GrantsAll) (w : World)
    (mod : ErrorMod) {useGetcode : Bool} {code : ErrorCode} {start : Bool}
    {actual : ErrorCode}
    (hcode : reportedCode E mod useGetcode code (startedWorld start w) =
      .ok actual) :
    aErrorStackMacroHelper E mod useGetcode code start w =
      .ok (pushedWorld mod actual w.globalErrorStack
        (startedWorld start w)) := by
  unfold startedWorld at hcode ⊢
  simp only [aErrorStackMacroHelper, hcode, ok_bind,
    aErrorStack_granted hgrant, pure_eq_ok]
  rfl

theorem getcode_isSome_of_ok {mod : ErrorMod} {useGetcode : Bool}
    {code : ErrorCode} {start : Bool} {w after : World}
    (hafter : aErrorStackMacroHelper E mod useGetcode code start w =
      .ok after) (huse : useGetcode = true) : (getcode E mod).isSome := by
  subst huse
  cases hgetcode : getcode E mod with
  | none => simp [aErrorStackMacroHelper, reportedCode, hgetcode] at hafter
  | some callback => rfl

theorem FreshWorld.push {w : World} (hfresh : FreshWorld w) (mod : ErrorMod)
    (code : ErrorCode) :
    FreshWorld (pushedWorld mod code w.globalErrorStack w) where
  released := fun a ha => Nat.lt_succ_of_lt (hfresh.released a ha)
  chain := by
    intro a ha
    simp only [pushedWorld, ErrorStack.chain, List.mem_cons] at ha
    rcases ha with heq | ha
    · subst heq
      exact ⟨Nat.lt_succ_self _,
        fun hmem => absurd (hfresh.released _ hmem) (lt_irrefl _)⟩
    · obtain ⟨hlt, hlive⟩ := hfresh.chain a ha
      exact ⟨Nat.lt_succ_of_lt hlt, hlive⟩

theorem LogInv.logStep {config after : ErrorConfig} {op : ErrorOp}
    (hinv : LogInv after) : LogStep config op after :=
  ⟨hinv.1, fun a ha => (hinv.2.chain a ha).2⟩

theorem report_keeps (hgrant : E.GrantsAll) {config : ErrorConfig}
    (hinv : LogInv config) {mod : ErrorMod} {useGetcode : Bool}
    {code : ErrorCode} {start : Bool}
    (hcondition : Reportable E config (.report mod useGetcode code start)) :
    ∃ after,
      config.step (errorStep E) (.report mod useGetcode code start) =
        .ok after ∧ LogInv after := by
  rcases hcondition with ⟨hcode, hstart⟩
  rcases hinv with ⟨hlog, hfresh⟩
  have hworld := startedWorld_eq hstart
  have hreported := reportedCode_eq_aErrorGetcode hcode code config.state
  rw [← hworld] at hreported
  have hhelper := aErrorStackMacroHelper_granted hgrant config.state mod
    hreported
  rw [hworld] at hhelper
  have hstep : errorStep E config.state (.report mod useGetcode code start) =
      .ok (.reported (reportedEntry E mod useGetcode code config.state),
        pushedWorld mod
          (reportedEntry E mod useGetcode code config.state).2
          config.state.globalErrorStack config.state) := by
    simp only [errorStep, hhelper, ok_bind, pure_eq_ok]
  refine ⟨_, Config.step_of_ok hstep, ?_, hfresh.push mod _⟩
  rw [logged_append, ← hlog]
  cases start with
  | false => rfl
  | true =>
      simp [loggedStep, ErrorStack.entries, hstart rfl, reportedEntry]

/-- A report keeps the log exactly if its module can be asked for the code and
a start finds nothing to discard: otherwise the callback is absent, or the
released chain still follows the new entry. -/
theorem report_iff (hgrant : E.GrantsAll) {config : ErrorConfig}
    (hinv : LogInv config) (mod : ErrorMod) (useGetcode : Bool)
    (code : ErrorCode) (start : Bool) :
    Reportable E config (.report mod useGetcode code start) ↔
      ∃ after,
        config.step (errorStep E) (.report mod useGetcode code start) =
          .ok after ∧
        LogStep config (.report mod useGetcode code start) after := by
  constructor
  · intro hcondition
    obtain ⟨after, hafter, hinvAfter⟩ := report_keeps hgrant hinv hcondition
    exact ⟨after, hafter, hinvAfter.logStep⟩
  · rintro ⟨after, hafter, hentries, _⟩
    obtain ⟨out, hstep, htranscript⟩ := Config.step_eq_ok_iff.mp hafter
    have hisSome : useGetcode = true → (getcode E mod).isSome := by
      intro huse
      cases hhelper : aErrorStackMacroHelper E mod useGetcode code start
          config.state with
      | error fault => simp [errorStep, hhelper] at hstep
      | ok w => exact getcode_isSome_of_ok hhelper huse
    refine ⟨hisSome, fun hstart => ?_⟩
    have hreported := reportedCode_eq_aErrorGetcode hisSome code
      (startedWorld start config.state)
    have hhelper := aErrorStackMacroHelper_granted hgrant config.state mod
      hreported
    simp only [errorStep, hhelper, ok_bind, pure_eq_ok, Except.ok.injEq,
      Prod.mk.injEq] at hstep
    rcases hstep with ⟨hout, hstate⟩
    -- The log has the new entry only, the chain also whatever was there.
    rw [htranscript, ← hout, logged_append, ← hstate] at hentries
    subst hstart
    simp only [pushedWorld_entries, loggedStep, if_true, List.cons.injEq]
      at hentries
    exact ErrorStack.entries_eq_nil_iff.mp hentries.2

theorem setErrno_keeps {config : ErrorConfig} (hinv : LogInv config)
    (errno : Ptr) :
    ∃ after, config.step (errorStep E) (.setErrno errno) = .ok after ∧
      LogInv after := by
  refine ⟨⟨{ config.state with errno := errno },
    config.transcript ++ [(.setErrno errno, .done)]⟩, rfl, ?_, ?_⟩
  · rw [logged_append]
    exact hinv.1
  · exact ⟨hinv.2.released, hinv.2.chain⟩

/-- From an empty stack and with every node granted, every report completes
and leaves the log in the chain if and only if at every report the module has
a code to give, where it is asked for one, and a start finds no stack. -/
theorem aErrorStack_log_iff (hgrant : E.GrantsAll) {w : World}
    (hempty : w.globalErrorStack = .null)
    (hreleased : ∀ a ∈ w.released, a < w.requests) (ops : List ErrorOp) :
    Keeps (errorStep E) LogStep (Config.initial w) ops ↔
      Meets (errorStep E) (Reportable E) (Config.initial w) ops := by
  have hstart : LogInv (Config.initial w) := by
    refine ⟨?_, hreleased, ?_⟩
    · simp [hempty, ErrorStack.entries, logged]
    · simp [hempty, ErrorStack.chain]
  have hadmissible : Meets (errorStep E) (fun _ _ => True)
      (Config.initial w) ops :=
    meets_of_forall (fun _ _ _ => trivial) _
  refine keeps_iff_meets ?_ ?_ hstart hadmissible
  · intro config op hinv _
    cases op with
    | report mod useGetcode code start =>
        exact report_iff hgrant hinv mod useGetcode code start
    | setErrno errno =>
        obtain ⟨after, hafter, hinvAfter⟩ := setErrno_keeps hinv errno
        exact ⟨fun _ => ⟨after, hafter, hinvAfter.logStep⟩,
          fun _ => trivial⟩
  · intro config op after hinv _ hcondition hafter
    have hkept : ∃ other, config.step (errorStep E) op = .ok other ∧
        LogInv other := by
      cases op with
      | report mod useGetcode code start =>
          exact report_keeps hgrant hinv hcondition
      | setErrno errno => exact setErrno_keeps hinv errno
    obtain ⟨other, hother, hinvOther⟩ := hkept
    obtain rfl : other = after := Config.step_unique hother hafter
    exact hinvOther

end Runs

def emptyWorld : World where
  requests := 0
  errno := 0
  globalErrorStack := .null
  released := []
  misused := false

theorem aErrorStack_log_run :
    Keeps (errorStep (filledEnv 0)) LogStep (Config.initial emptyWorld)
      [.report .alib false (.value 3) true, .setErrno 2,
        .report .perror true (.value 0) false] := by
  have hgrant : (filledEnv 0).GrantsAll := fun _ _ => rfl
  have hreleased : ∀ a ∈ emptyWorld.released, a < emptyWorld.requests := by
    simp [emptyWorld]
  refine (aErrorStack_log_iff hgrant rfl hreleased _).mpr
    ⟨⟨by simp, fun _ => rfl⟩, ?_⟩
  intro first hfirst
  refine ⟨trivial, fun second hsecond => ⟨⟨fun _ => rfl, by simp⟩, ?_⟩⟩
  exact fun _ _ => trivial

/-- `a_error(alib)` follows the `NULL` callback of the module. -/
theorem aErrorStack_log_fails :
    ¬ Keeps (errorStep (filledEnv 0)) LogStep (Config.initial emptyWorld)
      [.report .alib true (.value 0) false] := by
  intro hkeeps
  rcases hkeeps with ⟨after, hafter, _⟩
  obtain ⟨out, hstep, _⟩ := Config.step_eq_ok_iff.mp hafter
  simp [errorStep, aErrorStackMacroHelper, reportedCode, getcode] at hstep

end ErrorLog
end Alib
