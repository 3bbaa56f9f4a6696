import Alib.ErrorLog

/-!
# Releasing the global error stack

`a_error_stack_free` reads a node, releases the chain behind it, releases the
stack that a stack-module code points to, and then the node.  `release`, the
traversal with every access checked against the blocks released so far,
completes exactly if every node reached is live and reached by one path.
`a_error(stack)` records the current stack as its code and also links it
behind the new node, so both paths reach it.
-/

namespace Alib

mutual

/-- The heap nodes reached through `ptr` links and codes of the stack
module. -/
def ErrorStack.Reaches : ErrorStack → Addr → Prop
  | .node addr mod code ptr, a =>
      a = addr ∨ ptr.Reaches a ∨ mod = .stack ∧ code.Reaches a
  | _, _ => False

def ErrorCode.Reaches : ErrorCode → Addr → Prop
  | .value _, _ => False
  | .stack pointer, a => pointer.Reaches a

end

mutual

/-- Every node is reached by one path only, and every code of the stack module
is a stack. -/
def ErrorStack.Separate : ErrorStack → Prop
  | .node addr mod code ptr =>
      ptr.Separate ∧ ¬ ptr.Reaches addr ∧
        (mod = .stack → code.Separate ∧ ¬ code.Reaches addr ∧
          ∀ a, code.Reaches a → ¬ ptr.Reaches a)
  | _ => True

def ErrorCode.Separate : ErrorCode → Prop
  | .value code => code = 0
  | .stack pointer => pointer.Separate

end

theorem accessNode_eq_ok_iff {addr : Addr} {w : World} {u : Unit} :
    accessNode addr w = .ok u ↔ addr < w.requests ∧ addr ∉ w.released := by
  unfold accessNode
  split <;> simp_all

mutual

theorem ErrorStack.mem_freeOrder (stack : ErrorStack) (a : Addr) :
    a ∈ stack.freeOrder ↔ stack.Reaches a := by
  cases stack with
  | null => simp [ErrorStack.freeOrder, ErrorStack.Reaches]
  | stackAllocError => simp [ErrorStack.freeOrder, ErrorStack.Reaches]
  | node addr mod code ptr =>
      have hptr := ptr.mem_freeOrder a
      have hcode := code.mem_freeOrder a
      by_cases hmod : mod = .stack
      · simp only [ErrorStack.freeOrder, ErrorStack.Reaches, hmod, if_true,
          List.mem_append, List.mem_singleton, hptr, hcode, true_and]
        tauto
      · simp only [ErrorStack.freeOrder, ErrorStack.Reaches, hmod, if_false,
          List.mem_append, List.mem_singleton, hptr, List.not_mem_nil,
          false_and, or_false]
        tauto

theorem ErrorCode.mem_freeOrder (code : ErrorCode) (a : Addr) :
    a ∈ code.freeOrder ↔ code.Reaches a := by
  cases code with
  | value code => simp [ErrorCode.freeOrder, ErrorCode.Reaches]
  | stack pointer => exact pointer.mem_freeOrder a

end

mutual

theorem ErrorStack.Separate.nodup_freeOrder {stack : ErrorStack}
    (hseparate : stack.Separate) : stack.freeOrder.Nodup := by
  cases stack with
  | null => exact List.nodup_nil
  | stackAllocError => exact List.nodup_nil
  | node addr mod code ptr =>
      rcases hseparate with ⟨hptr, haddr, hcode⟩
      have hptrOrder := hptr.nodup_freeOrder
      rw [← ptr.mem_freeOrder] at haddr
      by_cases hmod : mod = .stack
      · obtain ⟨hcode, haddrCode, hapart⟩ := hcode hmod
        have hcodeOrder := hcode.nodup_freeOrder
        rw [← code.mem_freeOrder] at haddrCode
        have hdisjoint : ∀ a ∈ ptr.freeOrder, a ∉ code.freeOrder := by
          intro a ha hmem
          exact hapart a ((code.mem_freeOrder a).mp hmem)
            ((ptr.mem_freeOrder a).mp ha)
        simp only [ErrorStack.freeOrder, hmod, if_true]
        refine List.nodup_append.mpr
          ⟨List.nodup_append.mpr ⟨hptrOrder, hcodeOrder, ?_⟩, by simp, ?_⟩
        · intro a ha b hb hab
          exact hdisjoint a ha (hab ▸ hb)
        · intro a ha b hb hab
          rw [List.mem_singleton.mp hb] at hab
          subst hab
          exact (List.mem_append.mp ha).elim haddr haddrCode
      · simp only [ErrorStack.freeOrder, hmod, if_false, List.append_nil]
        refine List.nodup_append.mpr ⟨hptrOrder, by simp, ?_⟩
        intro a ha b hb hab
        rw [List.mem_singleton.mp hb] at hab
        subst hab
        exact haddr ha

theorem ErrorCode.Separate.nodup_freeOrder {code : ErrorCode}
    (hseparate : code.Separate) : code.freeOrder.Nodup := by
  cases code with
  | value code => exact List.nodup_nil
  | stack pointer =>
      have hpointer : pointer.Separate := hseparate
      exact hpointer.nodup_freeOrder

end

/-- Every node reached has been obtained and is not released. -/
def ErrorStack.Live (stack : ErrorStack) (w : World) : Prop :=
  ∀ a, stack.Reaches a → a < w.requests ∧ a ∉ w.released

def ErrorCode.Live (code : ErrorCode) (w : World) : Prop :=
  ∀ a, code.Reaches a → a < w.requests ∧ a ∉ w.released

def ErrorStack.freed (stack : ErrorStack) (w : World) : World :=
  { w with released := w.released ++ stack.freeOrder }

def ErrorCode.freed (code : ErrorCode) (w : World) : World :=
  { w with released := w.released ++ code.freeOrder }

/-- What releasing a code does: only the stack module owns its codes. -/
def aErrorCodeFree (mod : ErrorMod) (code : ErrorCode) (w : World) : World :=
  if mod = .stack then code.freed w else w

theorem ErrorStack.mem_freed {stack : ErrorStack} {w : World} {a : Addr} :
    a ∈ (stack.freed w).released ↔
      a ∈ w.released ∨ stack.Reaches a := by
  simp [ErrorStack.freed, stack.mem_freeOrder]

theorem ErrorCode.mem_freed {code : ErrorCode} {w : World} {a : Addr} :
    a ∈ (code.freed w).released ↔ a ∈ w.released ∨ code.Reaches a := by
  simp [ErrorCode.freed, code.mem_freeOrder]

theorem mem_aErrorCodeFree {mod : ErrorMod} {code : ErrorCode} {w : World}
    {a : Addr} :
    a ∈ (aErrorCodeFree mod code w).released ↔
      a ∈ w.released ∨ mod = .stack ∧ code.Reaches a := by
  by_cases hmod : mod = .stack
  · simp [aErrorCodeFree, hmod, ErrorCode.mem_freed]
  · simp [aErrorCodeFree, hmod]

theorem aErrorCodeFree_requests (mod : ErrorMod) (code : ErrorCode)
    (w : World) : (aErrorCodeFree mod code w).requests = w.requests := by
  unfold aErrorCodeFree
  split <;> rfl

theorem ErrorStack.freed_node (addr : Addr) (mod : ErrorMod)
    (code : ErrorCode) (ptr : ErrorStack) (w : World) :
    { aErrorCodeFree mod code (ptr.freed w) with
      released := (aErrorCodeFree mod code (ptr.freed w)).released ++
        [addr] } = (ErrorStack.node addr mod code ptr).freed w := by
  by_cases hmod : mod = .stack
  · simp [aErrorCodeFree, hmod, ErrorCode.freed, ErrorStack.freed,
      ErrorStack.freeOrder]
  · simp [aErrorCodeFree, hmod, ErrorStack.freed, ErrorStack.freeOrder]

theorem ErrorCode.live_freed_iff {code : ErrorCode}
    {stack : ErrorStack} {w : World} :
    code.Live (stack.freed w) ↔
      code.Live w ∧ ∀ a, code.Reaches a → ¬ stack.Reaches a := by
  constructor
  · intro h
    refine ⟨fun a ha => ⟨(h a ha).1, fun hmem => ?_⟩, fun a ha hreach => ?_⟩
    · exact (h a ha).2 (ErrorStack.mem_freed.mpr (Or.inl hmem))
    · exact (h a ha).2 (ErrorStack.mem_freed.mpr (Or.inr hreach))
  · intro h a ha
    refine ⟨(h.1 a ha).1, fun hmem => ?_⟩
    exact (ErrorStack.mem_freed.mp hmem).elim (h.1 a ha).2 (h.2 a ha)

mutual

/-- The traversal completes exactly on a live stack whose nodes are reached by
one path each, and then releases what `a_error_stack_free` releases. -/
theorem ErrorStack.release_eq_ok_iff (stack : ErrorStack) (w after : World) :
    stack.release w = .ok after ↔
      stack.Separate ∧ stack.Live w ∧ after = stack.freed w := by
  cases stack with
  | null =>
      have hlive : ErrorStack.null.Live w := fun a ha => ha.elim
      simp only [ErrorStack.release, ErrorStack.Separate, hlive, true_and,
        ErrorStack.freed, ErrorStack.freeOrder, List.append_nil,
        Except.ok.injEq]
      exact eq_comm
  | stackAllocError =>
      have hlive : ErrorStack.stackAllocError.Live w := fun a ha => ha.elim
      simp only [ErrorStack.release, ErrorStack.Separate, hlive, true_and,
        ErrorStack.freed, ErrorStack.freeOrder, List.append_nil,
        Except.ok.injEq]
      exact eq_comm
  | node addr mod code ptr =>
      have hptr := ptr.release_eq_ok_iff w
      have hcode : ∀ other,
          (if mod = .stack then code.release (ptr.freed w)
            else .ok (ptr.freed w)) = .ok other ↔
          (mod = .stack → code.Separate ∧ code.Live (ptr.freed w)) ∧
            other = aErrorCodeFree mod code (ptr.freed w) := by
        intro other
        have hrelease :=
          code.release_eq_ok_iff (ptr.freed w) other
        by_cases hmod : mod = .stack
        · simp [aErrorCodeFree, hmod, hrelease, and_assoc]
        · simp [aErrorCodeFree, hmod, eq_comm]
      simp only [ErrorStack.release, freeNode, bind_eq_ok_iff,
        accessNode_eq_ok_iff, pure_eq_ok, hptr, Except.ok.injEq]
      constructor
      · intro h
        rcases h with ⟨_, hfirst, _, ⟨hseparate, hlive, heq⟩, _, hsecond, _,
          hthird, _, hlast, hafter⟩
        subst heq
        obtain ⟨howned, heq⟩ := (hcode _).mp hthird
        subst heq
        have haddr : ¬ ptr.Reaches addr :=
          fun hreach => hsecond.2 (ErrorStack.mem_freed.mpr (Or.inr hreach))
        have hcodeAddr : mod = .stack → ¬ code.Reaches addr :=
          fun hmod hreach => hlast.2
            (mem_aErrorCodeFree.mpr (Or.inr ⟨hmod, hreach⟩))
        have happart : mod = .stack →
            code.Live w ∧ ∀ a, code.Reaches a → ¬ ptr.Reaches a :=
          fun hmod => ErrorCode.live_freed_iff.mp (howned hmod).2
        refine ⟨⟨hseparate, haddr, fun hmod => ⟨(howned hmod).1,
          hcodeAddr hmod, (happart hmod).2⟩⟩, ?_, ?_⟩
        · intro a ha
          rcases ha with heq | hptrReach | ⟨hmod, hcodeReach⟩
          · exact heq ▸ hfirst
          · exact hlive a hptrReach
          · exact (happart hmod).1 a hcodeReach
        · rw [← hafter, ← ErrorStack.freed_node]
      · intro h
        rcases h with ⟨⟨hseparate, haddr, hcodes⟩, hlive, hafter⟩
        have hfirst := hlive addr (Or.inl rfl)
        refine ⟨(), hfirst, _,
          ⟨hseparate, fun a ha => hlive a (Or.inr (Or.inl ha)), rfl⟩, (),
          ⟨hfirst.1, ?_⟩, _, (hcode _).mpr ⟨?_, rfl⟩, (), ⟨?_, ?_⟩, ?_⟩
        · exact fun hmem =>
            (ErrorStack.mem_freed.mp hmem).elim hfirst.2 haddr
        · intro hmod
          obtain ⟨hcodeSeparate, _, hapart⟩ := hcodes hmod
          exact ⟨hcodeSeparate, ErrorCode.live_freed_iff.mpr
            ⟨fun a ha => hlive a (Or.inr (Or.inr ⟨hmod, ha⟩)), hapart⟩⟩
        · rw [aErrorCodeFree_requests]
          exact hfirst.1
        · intro hmem
          rcases mem_aErrorCodeFree.mp hmem with hmem | ⟨hmod, hreach⟩
          · exact (ErrorStack.mem_freed.mp hmem).elim hfirst.2 haddr
          · exact (hcodes hmod).2.1 hreach
        · rw [hafter, ← ErrorStack.freed_node]

theorem ErrorCode.release_eq_ok_iff (code : ErrorCode) (w after : World) :
    code.release w = .ok after ↔
      code.Separate ∧ code.Live w ∧ after = code.freed w := by
  cases code with
  | value code =>
      have hlive : ErrorCode.Live (.value code) w := fun a ha => ha.elim
      have hfreed : (ErrorCode.value code).freed w = w := by
        simp [ErrorCode.freed, ErrorCode.freeOrder]
      by_cases hzero : code = 0
      · simp only [ErrorCode.release, if_pos hzero, ErrorCode.Separate, hlive,
          hfreed, true_and, Except.ok.injEq]
        exact ⟨fun h => ⟨hzero, h.symm⟩, fun h => h.2.symm⟩
      · constructor
        · intro h
          rw [ErrorCode.release, if_neg hzero] at h
          cases h
        · intro h
          exact absurd h.1 hzero
  | stack pointer => exact pointer.release_eq_ok_iff w after

end

theorem mem_aErrorStackFree {stack : ErrorStack} {w : World} {a : Addr} :
    a ∈ (aErrorStackFree stack w).released ↔
      a ∈ w.released ∨ stack.Reaches a :=
  ErrorStack.mem_freed

/-- Releasing a stack is noted as misuse unless each of its nodes is live and
reached by one path. -/
theorem aErrorStackFree_misused_iff {stack : ErrorStack} {w : World} :
    (aErrorStackFree stack w).misused = false ↔
      w.misused = false ∧ stack.Separate ∧ stack.Live w := by
  have hrelease := stack.release_eq_ok_iff w
  cases hresult : stack.release w with
  | error fault =>
      have hnot : ¬ (stack.Separate ∧ stack.Live w) := by
        intro h
        have hok := (hrelease _).mpr ⟨h.1, h.2, rfl⟩
        rw [hresult] at hok
        cases hok
      simp [aErrorStackFree, hresult, Except.isOk, Except.toBool, hnot]
  | ok after =>
      obtain ⟨hseparate, hlive, _⟩ := (hrelease after).mp hresult
      simp [aErrorStackFree, hresult, Except.isOk, Except.toBool, hseparate,
        hlive]

namespace ErrorRelease

open Execution
open ErrorLog

/-- The calls `a_error` and `a_error_code` with the modules of the library. -/
def IsPush : ErrorOp → Prop
  | .report (.user _) _ _ _ => False
  | .report _ _ _ start => start = false
  | .setErrno _ => True

/-- `a_error_stack_free` on the global stack completes, visits every heap node
reached from it once, and none that was released before. -/
def ReleasedOnce (w : World) : Prop :=
  ∃ visits,
    w.globalErrorStack.release w =
        .ok { w with released := w.released ++ visits } ∧
      visits.Nodup ∧
      (∀ a, a ∈ visits ↔ w.globalErrorStack.Reaches a) ∧
      ∀ a ∈ visits, a ∉ w.released

def ReleaseStep (_config : ErrorConfig) (_op : ErrorOp)
    (after : ErrorConfig) : Prop :=
  ReleasedOnce after.state

/-- A stack-module push whose node is granted does not record a second path to
a node: `a_error(stack)` finds no heap node on the stack, and the pointer
given to `a_error_code(stack, pointer)` reaches live nodes, each by one path,
none of them on the stack. -/
def OwnsCode (E : Env) (config : ErrorConfig) : ErrorOp → Prop
  | .report .stack true _ _ =>
      E.grants config.state.requests sizeofErrorStack = true →
        ∀ a, ¬ config.state.globalErrorStack.Reaches a
  | .report .stack false code _ =>
      E.grants config.state.requests sizeofErrorStack = true →
        code.Separate ∧ code.Live config.state ∧
          ∀ a, code.Reaches a → ¬ config.state.globalErrorStack.Reaches a
  | _ => True

/-- The nodes of the global stack are live and reached by one path each. -/
structure OwnedStack (w : World) : Prop where
  separate : w.globalErrorStack.Separate
  live : w.globalErrorStack.Live w
  released : ∀ a ∈ w.released, a < w.requests

def ReleaseInv (config : ErrorConfig) : Prop :=
  OwnedStack config.state

theorem releasedOnce_iff {w : World} :
    ReleasedOnce w ↔
      w.globalErrorStack.Separate ∧ w.globalErrorStack.Live w := by
  constructor
  · intro h
    rcases h with ⟨visits, hrelease, _⟩
    obtain ⟨hseparate, hlive, _⟩ :=
      (ErrorStack.release_eq_ok_iff _ _ _).mp hrelease
    exact ⟨hseparate, hlive⟩
  · intro h
    rcases h with ⟨hseparate, hlive⟩
    refine ⟨w.globalErrorStack.freeOrder,
      (ErrorStack.release_eq_ok_iff _ _ _).mpr ⟨hseparate, hlive, rfl⟩,
      hseparate.nodup_freeOrder, fun a => ErrorStack.mem_freeOrder _ a,
      fun a ha => (hlive a ((ErrorStack.mem_freeOrder _ a).mp ha)).2⟩

/-- A granted push leaves a stack that can be released exactly if the code it
records is owned by the new node alone. -/
theorem OwnedStack.pushed_iff {w : World} (hinv : OwnedStack w)
    (mod : ErrorMod) (code : ErrorCode) :
    ReleasedOnce (pushedWorld mod code w.globalErrorStack w) ↔
      (mod = .stack → code.Separate ∧ code.Live w ∧
        ∀ a, code.Reaches a → ¬ w.globalErrorStack.Reaches a) := by
  have hfresh : ¬ w.globalErrorStack.Reaches w.requests :=
    fun hreach => lt_irrefl _ (hinv.live _ hreach).1
  rw [releasedOnce_iff]
  constructor
  · intro h hmod
    rcases h with ⟨⟨_, _, hcode⟩, hlive⟩
    obtain ⟨hseparate, haddr, hapart⟩ := hcode hmod
    refine ⟨hseparate, fun a ha => ?_, hapart⟩
    obtain ⟨hlt, hmem⟩ := hlive a (Or.inr (Or.inr ⟨hmod, ha⟩))
    have hne : a ≠ w.requests := fun heq => haddr (heq ▸ ha)
    exact ⟨lt_of_le_of_ne (Nat.le_of_lt_succ hlt) hne, hmem⟩
  · intro h
    refine ⟨⟨hinv.separate, hfresh, fun hmod => ?_⟩, ?_⟩
    · obtain ⟨hseparate, hlive, hapart⟩ := h hmod
      exact ⟨hseparate, fun hreach => lt_irrefl _ (hlive _ hreach).1, hapart⟩
    · intro a ha
      rcases ha with heq | hreach | ⟨hmod, hreach⟩
      · subst heq
        exact ⟨Nat.lt_succ_self _,
          fun hmem => lt_irrefl _ (hinv.released _ hmem)⟩
      · obtain ⟨hlt, hmem⟩ := hinv.live a hreach
        exact ⟨Nat.lt_succ_of_lt hlt, hmem⟩
      · obtain ⟨hlt, hmem⟩ := (h hmod).2.1 a hreach
        exact ⟨Nat.lt_succ_of_lt hlt, hmem⟩

/-- The world after a refused push: the chain is released and the static
node takes its place. -/
def refusedWorld (w : World) : World :=
  { aErrorStackFree w.globalErrorStack
      { w with requests := w.requests + 1, errno := enomem } with
    globalErrorStack := .stackAllocError }

theorem OwnedStack.refused {w : World} (hinv : OwnedStack w) :
    OwnedStack (refusedWorld w) where
  separate := trivial
  live := fun a ha => ha.elim
  released := by
    intro a ha
    have hmem : a ∈ (aErrorStackFree w.globalErrorStack w).released := ha
    rcases mem_aErrorStackFree.mp hmem with hold | hreach
    · exact Nat.lt_succ_of_lt (hinv.released a hold)
    · exact Nat.lt_succ_of_lt (hinv.live a hreach).1

section Runs

variable {E : Env}

theorem push_cases {mod : ErrorMod} {useGetcode : Bool} {code : ErrorCode}
    {w : World} (hcode : useGetcode = true → (getcode E mod).isSome) :
    aErrorStackMacroHelper E mod useGetcode code false w =
      .ok (if E.grants w.requests sizeofErrorStack then
        pushedWorld mod (reportedEntry E mod useGetcode code w).2
          w.globalErrorStack w
      else refusedWorld w) := by
  have hreported := reportedCode_eq_aErrorGetcode hcode code w
  by_cases hgrant : E.grants w.requests sizeofErrorStack = true
  · simp [aErrorStackMacroHelper, hreported, aErrorStack, malloc, hgrant,
      pushedWorld]
  · simp [aErrorStackMacroHelper, hreported, aErrorStack, malloc, hgrant,
      refusedWorld, aErrorStackFree]

/-- The condition on a push, in terms of the code the node records. -/
theorem OwnedStack.ownsCode_iff {config : ErrorConfig}
    (hinv : OwnedStack config.state) (mod : ErrorMod) (useGetcode : Bool)
    (code : ErrorCode) (start : Bool) :
    OwnsCode E config (.report mod useGetcode code start) ↔
      (E.grants config.state.requests sizeofErrorStack = true →
        mod = .stack →
          let recorded :=
            (reportedEntry E mod useGetcode code config.state).2
          recorded.Separate ∧ recorded.Live config.state ∧
            ∀ a, recorded.Reaches a →
              ¬ config.state.globalErrorStack.Reaches a) := by
  cases mod with
  | stack =>
      cases useGetcode with
      | false => simp [OwnsCode, reportedEntry]
      | true =>
          have hrecorded :
              (reportedEntry E .stack true code config.state).2 =
                .stack config.state.globalErrorStack := rfl
          simp only [OwnsCode, hrecorded, true_implies]
          constructor
          · intro h hgrant
            exact ⟨hinv.separate, hinv.live, fun a _ => h hgrant a⟩
          · intro h hgrant a ha
            exact (h hgrant).2.2 a ha ha
  | alib => simp [OwnsCode]
  | none => simp [OwnsCode]
  | perror => simp [OwnsCode]
  | stackAlloc => simp [OwnsCode]
  | user id => simp [OwnsCode]

theorem state_of_push {config after : ErrorConfig} {mod : ErrorMod}
    {useGetcode : Bool} {code : ErrorCode} {start : Bool}
    (hpush : IsPush (.report mod useGetcode code start))
    (hafter : config.step (errorStep E)
      (.report mod useGetcode code start) = .ok after) :
    after.state =
      if E.grants config.state.requests sizeofErrorStack then
        pushedWorld mod
          (reportedEntry E mod useGetcode code config.state).2
          config.state.globalErrorStack config.state
      else refusedWorld config.state := by
  have hstart : start = false := by
    cases mod <;> first | exact hpush | exact hpush.elim
  subst hstart
  obtain ⟨out, hstep, _⟩ := Config.step_eq_ok_iff.mp hafter
  cases hhelper : aErrorStackMacroHelper E mod useGetcode code false
      config.state with
  | error fault => simp [errorStep, hhelper] at hstep
  | ok w =>
      have hcases :=
        hhelper.symm.trans (push_cases (getcode_isSome_of_ok hhelper))
      simp only [errorStep, hhelper, ok_bind, pure_eq_ok, Except.ok.injEq,
        Prod.mk.injEq] at hstep
      rw [← hstep.2]
      exact Except.ok.inj hcases

theorem push_iff {config after : ErrorConfig}
    (hinv : OwnedStack config.state) {op : ErrorOp} (hpush : IsPush op)
    (hafter : config.step (errorStep E) op = .ok after) :
    OwnsCode E config op ↔ ReleasedOnce after.state := by
  cases op with
  | report mod useGetcode code start =>
      rw [hinv.ownsCode_iff, state_of_push hpush hafter]
      by_cases hgrant :
          E.grants config.state.requests sizeofErrorStack = true
      · simp only [hgrant, if_true, true_implies]
        exact (hinv.pushed_iff mod _).symm
      · simp only [hgrant, Bool.false_eq_true, if_false, false_implies,
          true_iff]
        exact releasedOnce_iff.mpr ⟨hinv.refused.separate, hinv.refused.live⟩
  | setErrno errno =>
      cases hafter
      exact ⟨fun _ => releasedOnce_iff.mpr ⟨hinv.separate, hinv.live⟩,
        fun _ => trivial⟩

theorem OwnedStack.step {config after : ErrorConfig}
    (hinv : OwnedStack config.state) {op : ErrorOp} (hpush : IsPush op)
    (hcondition : OwnsCode E config op)
    (hafter : config.step (errorStep E) op = .ok after) :
    OwnedStack after.state := by
  obtain ⟨hseparate, hlive⟩ :=
    releasedOnce_iff.mp ((push_iff hinv hpush hafter).mp hcondition)
  refine ⟨hseparate, hlive, ?_⟩
  cases op with
  | report mod useGetcode code start =>
      rw [state_of_push hpush hafter]
      split
      · exact fun a ha => Nat.lt_succ_of_lt (hinv.released a ha)
      · exact hinv.refused.released
  | setErrno errno =>
      cases hafter
      exact hinv.released

/-- In every run of pushes with the modules of the library that completes,
whichever nodes are refused, the global stack can be released, every node
reached from it once, if and only if no granted stack-module push records a
second path to a node. -/
theorem aErrorStackFree_once_iff {w : World}
    (hempty : w.globalErrorStack = .null)
    (hreleased : ∀ a ∈ w.released, a < w.requests) {ops : List ErrorOp}
    (hpushes : ∀ op ∈ ops, IsPush op) {final : ErrorConfig}
    (hrun : run (errorStep E) (Config.initial w) ops = .ok final) :
    Keeps (errorStep E) ReleaseStep (Config.initial w) ops ↔
      Meets (errorStep E) (OwnsCode E) (Config.initial w) ops := by
  have hstart : ReleaseInv (Config.initial w) := by
    refine ⟨?_, ?_, hreleased⟩
    · simp [hempty, ErrorStack.Separate]
    · intro a ha
      simp [hempty, ErrorStack.Reaches] at ha
  have htotal : ∀ (config : ErrorConfig) (op : ErrorOp), ReleaseInv config →
      (IsPush op ∧ ∃ after, config.step (errorStep E) op = .ok after) →
      ∃ after, config.step (errorStep E) op = .ok after ∧
        (ReleaseStep config op after → OwnsCode E config op) ∧
        (OwnsCode E config op →
          ReleaseStep config op after ∧ ReleaseInv after) := by
    intro config op hinv hop
    rcases hop with ⟨hpush, after, hafter⟩
    have hiff := push_iff hinv hpush hafter
    exact ⟨after, hafter, hiff.mpr, fun hcondition =>
      ⟨hiff.mp hcondition, hinv.step hpush hcondition hafter⟩⟩
  exact keeps_iff_meets_of_total htotal hstart (meets_of_run hpushes hrun)

end Runs

theorem aErrorStackFree_once_run :
    Keeps (errorStep (filledEnv 0)) ReleaseStep (Config.initial emptyWorld)
      [.report .stack true (.value 0) false,
        .report .perror true (.value 0) false,
        .report .stack false (.value 0) false] := by
  have hpushes : ∀ op ∈ [ErrorOp.report .stack true (.value 0) false,
      .report .perror true (.value 0) false,
      .report .stack false (.value 0) false], IsPush op := by
    intro op hop
    fin_cases hop <;> rfl
  have hreleased : ∀ a ∈ emptyWorld.released, a < emptyWorld.requests := by
    simp [emptyWorld]
  refine (aErrorStackFree_once_iff rfl hreleased hpushes rfl).mpr
    ⟨fun _ a ha => ha.elim, ?_⟩
  intro first hfirst
  refine ⟨trivial, fun second hsecond => ⟨fun _ => ?_, fun _ _ => trivial⟩⟩
  exact ⟨rfl, fun a ha => ha.elim, fun a ha => ha.elim⟩

/-- After `a_error_code(alib, 3); a_error(stack)` the first node is the code
and the chain of the second. -/
theorem aErrorStackFree_once_fails :
    ¬ Keeps (errorStep (filledEnv 0)) ReleaseStep (Config.initial emptyWorld)
      [.report .alib false (.value 3) false,
        .report .stack true (.value 0) false] := by
  intro hkeeps
  rcases hkeeps with ⟨first, hfirst, _, second, hsecond, hreleased, _⟩
  cases hfirst
  cases hsecond
  obtain ⟨⟨_, _, hcode⟩, _⟩ := releasedOnce_iff.mp hreleased
  obtain ⟨_, _, hapart⟩ := hcode rfl
  exact hapart 0 (Or.inl rfl) (Or.inl rfl)

end ErrorRelease
end Alib
