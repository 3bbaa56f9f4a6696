import Alib.Platform

/-!
# Error modules and the global error stack

The functions of `error.c` that the allocators and the containers report
through.  Nodes of an error stack are never changed once built, so a stack is
an inductive value whose nodes carry the name of their block.  The code of an
entry is an `intptr_t`; for the stack module it is a pointer to another
stack.  Modules of the caller are known by an identity, and their `getcode`
callback, possibly absent, belongs to the environment.
-/

namespace Alib

inductive ErrorMod where
  | alib
  | none
  | perror
  | stackAlloc
  | stack
  | user (id : ℕ)
  deriving DecidableEq

mutual

inductive ErrorCode where
  | value (code : Ptr)
  | stack (pointer : ErrorStack)

inductive ErrorStack where
  | null
  | stackAllocError
  | node (addr : Addr) (mod : ErrorMod) (code : ErrorCode)
      (ptr : ErrorStack)

end

def aErrorSuccess : ErrorCode := .value 0
def aErrorInvalidOp : ErrorCode := .value 3
def aErrorOpSmall : ErrorCode := .value 4
def aErrorOther : ErrorCode := .value 6

/-- The truth value of a code in a C condition. -/
def ErrorCode.isSuccess : ErrorCode → Bool
  | .value code => code = 0
  | .stack .null => true
  | .stack _ => false

@[simp] theorem isSuccess_aErrorSuccess :
    aErrorSuccess.isSuccess = true := rfl

@[simp] theorem isSuccess_aErrorOther :
    aErrorOther.isSuccess = false := rfl

/-- The process-wide state: requests made to the allocator so far, `errno`,
the global error stack, the blocks released so far, and whether a node of an
error stack was read or released that was not live. -/
structure World where
  requests : ℕ
  errno : Ptr
  globalErrorStack : ErrorStack
  released : List Addr
  misused : Bool

/-- What the library cannot know: which requests the allocator grants, what a
granted block holds, and the callbacks of the caller's error modules.  A
`getcode` answers a code and makes no report of its own. -/
structure Env where
  grants : ℕ → ℕ → Bool
  garbage : ℕ → ℕ → Ptr
  userGetcode : ℕ → Option (World → ErrorCode)

def Env.GrantsAll (E : Env) : Prop :=
  ∀ request size, E.grants request size = true

/-- An allocator which grants every request and leaves `garbage` in every
word. -/
def filledEnv (garbage : Ptr) : Env where
  grants := fun _ _ => true
  garbage := fun _ _ => garbage
  userGetcode := fun _ => none

/-- `ENOMEM`, which a refused request leaves in `errno`. -/
def enomem : Ptr := 12

def malloc (E : Env) (size : ℕ) (w : World) : Option Addr × World :=
  if E.grants w.requests size then
    (some w.requests, { w with requests := w.requests + 1 })
  else
    (none, { w with requests := w.requests + 1, errno := enomem })

def getcode (E : Env) : ErrorMod → Option (World → ErrorCode)
  | .perror => some fun w => .value w.errno
  | .stack => some fun w => .stack w.globalErrorStack
  | .user id => E.userGetcode id
  | _ => none

def ErrorStack.topMod : ErrorStack → Option ErrorMod
  | .null => none
  | .stackAllocError => some .stackAlloc
  | .node _ mod _ _ => some mod

mutual

/-- The nodes `a_error_stack_free` releases, in order.  Only the stack module
owns its codes. -/
def ErrorStack.freeOrder : ErrorStack → List Addr
  | .null => []
  | .stackAllocError => []
  | .node addr mod code ptr =>
      ptr.freeOrder ++ (if mod = .stack then code.freeOrder else []) ++ [addr]

def ErrorCode.freeOrder : ErrorCode → List Addr
  | .value _ => []
  | .stack pointer => pointer.freeOrder

end

/-- An access to the node at `addr`: it faults unless the block has been
obtained and not been released. -/
def accessNode (addr : Addr) (w : World) : Except Fault Unit :=
  if addr < w.requests ∧ addr ∉ w.released then .ok ()
  else .error .danglingPointer

def freeNode (addr : Addr) (w : World) : Except Fault World := do
  accessNode addr w
  return { w with released := w.released ++ [addr] }

mutual

/-- `a_error_stack_free` with every access checked. -/
def ErrorStack.release : ErrorStack → World → Except Fault World
  | .null, w => .ok w
  | .stackAllocError, w => .ok w
  | .node addr mod code ptr, w => do
      accessNode addr w
      let w ← ptr.release w
      accessNode addr w
      let w ← (if mod = .stack then code.release w else .ok w)
      freeNode addr w

/-- `stack_free`, which is only called with a code other than zero. -/
def ErrorCode.release : ErrorCode → World → Except Fault World
  | .value code, w => if code = 0 then .ok w else .error .danglingPointer
  | .stack pointer, w => pointer.release w

end

/-- `a_error_stack_free`.  A fault of the traversal is noted in the world, and
the nodes count as released whether it met one or not. -/
def aErrorStackFree (stack : ErrorStack) (w : World) : World :=
  { w with
    released := w.released ++ stack.freeOrder
    misused := w.misused || !(stack.release w).isOk }

def sizeofErrorStack : ℕ := 24

def aErrorStack (E : Env) (mod : ErrorMod) (code : ErrorCode)
    (prev : ErrorStack) (w : World) : ErrorStack × World :=
  match malloc E sizeofErrorStack w with
  | (none, w) => (.stackAllocError, aErrorStackFree prev w)
  | (some stack, w) => (.node stack mod code prev, w)

/-- `if(getcode) code = mod->getcode(mod)` -/
def reportedCode (E : Env) (mod : ErrorMod) (useGetcode : Bool)
    (code : ErrorCode) (w : World) : Except Fault ErrorCode :=
  if useGetcode then
    match getcode E mod with
    | none => .error .nullCallback
    | some callback => .ok (callback w)
  else .ok code

def aErrorStackMacroHelper (E : Env) (mod : ErrorMod) (useGetcode : Bool)
    (code : ErrorCode) (start : Bool) (w : World) : Except Fault World := do
  let stack := w.globalErrorStack
  let w := if start then aErrorStackFree stack w else w
  let code ← reportedCode E mod useGetcode code w
  let (top, w) := aErrorStack E mod code stack w
  return { w with globalErrorStack := top }

/-- `a_error(mod)` -/
def aError (E : Env) (mod : ErrorMod) (w : World) : Except Fault World :=
  aErrorStackMacroHelper E mod true (.value 0) false w

/-- `a_error_code(mod, code)` -/
def aErrorCode (E : Env) (mod : ErrorMod) (code : ErrorCode) (w : World) :
    Except Fault World :=
  aErrorStackMacroHelper E mod false code false w

def aErrorGetAlibCode (E : Env) (w : World) :
    Except Fault (ErrorCode × World) :=
  match w.globalErrorStack with
  | .null => .ok (aErrorSuccess, w)
  | .node _ .alib code _ => .ok (code, w)
  | _ => do
      let w ← aErrorCode E .alib aErrorOther w
      return (aErrorOther, w)

theorem malloc_requests (E : Env) (size : ℕ) (w : World) :
    (malloc E size w).2.requests = w.requests + 1 := by
  unfold malloc
  split <;> rfl

theorem aErrorStack_requests (E : Env) (mod : ErrorMod) (code : ErrorCode)
    (prev : ErrorStack) (w : World) :
    (aErrorStack E mod code prev w).2.requests = w.requests + 1 := by
  unfold aErrorStack malloc
  by_cases hgrant : E.grants w.requests sizeofErrorStack <;>
    simp [hgrant, aErrorStackFree]

theorem aErrorStack_topMod (E : Env) (mod : ErrorMod) (code : ErrorCode)
    (prev : ErrorStack) (w : World) :
    (aErrorStack E mod code prev w).1.topMod = some mod ∨
      (aErrorStack E mod code prev w).1.topMod = some .stackAlloc := by
  unfold aErrorStack malloc
  by_cases hgrant : E.grants w.requests sizeofErrorStack <;>
    simp [hgrant, ErrorStack.topMod]

/-- Reporting under a module that has a code to give, or with a given code,
completes, costs one request and leaves that module or the static allocation
error on top. -/
theorem aErrorStackMacroHelper_ok
    (E : Env) (mod : ErrorMod) (useGetcode : Bool) (code : ErrorCode)
    (w : World) (hcode : useGetcode = true → (getcode E mod).isSome) :
    ∃ after,
      aErrorStackMacroHelper E mod useGetcode code false w = .ok after ∧
        after.requests = w.requests + 1 ∧
        (after.globalErrorStack.topMod = some mod ∨
          after.globalErrorStack.topMod = some .stackAlloc) := by
  obtain ⟨actual, hactual⟩ : ∃ actual,
      reportedCode E mod useGetcode code w = .ok actual := by
    cases useGetcode with
    | false => exact ⟨code, rfl⟩
    | true =>
        obtain ⟨callback, hcallback⟩ := Option.isSome_iff_exists.mp (hcode rfl)
        exact ⟨callback w, by simp [reportedCode, hcallback]⟩
  have hrequests := aErrorStack_requests E mod actual w.globalErrorStack w
  have htop := aErrorStack_topMod E mod actual w.globalErrorStack w
  refine ⟨{ (aErrorStack E mod actual w.globalErrorStack w).2 with
    globalErrorStack := (aErrorStack E mod actual w.globalErrorStack w).1 },
    ?_, hrequests, htop⟩
  simp only [aErrorStackMacroHelper, Bool.false_eq_true, if_false, hactual,
    ok_bind, pure_eq_ok]

/-- With another module on top, the code handed back is `A_ERROR_OTHER`. -/
theorem aErrorGetAlibCode_of_topMod
    (E : Env) (w : World) {mod : ErrorMod}
    (htop : w.globalErrorStack.topMod = some mod) (hmod : mod ≠ .alib) :
    ∃ after, aErrorGetAlibCode E w = .ok (aErrorOther, after) ∧
      after.requests = w.requests + 1 := by
  obtain ⟨after, hafter, hrequests, _⟩ :=
    aErrorStackMacroHelper_ok E .alib false aErrorOther w (by simp)
  refine ⟨after, ?_, hrequests⟩
  have hreport : (do
      let w ← aErrorCode E .alib aErrorOther w
      return (aErrorOther, w) : Except Fault (ErrorCode × World)) =
        .ok (aErrorOther, after) := by
    simp [aErrorCode, hafter]
  unfold aErrorGetAlibCode
  cases hstack : w.globalErrorStack with
  | null => simp [hstack, ErrorStack.topMod] at htop
  | stackAllocError => exact hreport
  | node addr top code ptr =>
      have htopMod : top = mod := by
        simpa [hstack, ErrorStack.topMod] using htop
      subst top
      cases mod with
      | alib => exact absurd rfl hmod
      | none => exact hreport
      | perror => exact hreport
      | stackAlloc => exact hreport
      | stack => exact hreport
      | user id => exact hreport

end Alib
