import Alib.ThreadStack

/-!
# Releasing what is left

`a_clean_vargs` of `old/clean.c` is called with modules, each followed by what
it releases, and a `NULL`.  A module leaves alone what cannot have been
obtained.  When the system refuses a call, `errno` goes to the error stack of
the thread and the others are still called.
-/

namespace Alib
namespace Clean

open ThreadStack

inductive CleanMod where
  | socket
  | fd
  | filePtr
  | free
  | unmap
  | unlink
  deriving DecidableEq, Repr

/-- The arguments of `a_clean_real` after the first. -/
inductive CleanArg where
  | mod (mod : Option CleanMod)
  | fd (fd : BitVec 32)
  | ptr (ptr : Ptr)
  | size (size : ℕ)
  deriving DecidableEq, Repr

inductive SysCall where
  | close (fd : BitVec 32)
  | fclose (file : Ptr)
  | free (ptr : Ptr)
  | munmap (ptr : Ptr) (size : ℕ)
  | unlink (file : Ptr)
  deriving DecidableEq, Repr

/-- The value of `errno` with which a call fails after those before it.  The
text that `stdc_string` makes of it is asked for nowhere. -/
structure System where
  failsWith : List SysCall → SysCall → Option Ptr
  stdcString : Option (Env → Arg → Option ByteBlock → World →
    Except Fault (Option ByteBlock × World))

structure CleanState where
  calls : List SysCall
  thread : ErrorThread

/-- `a_error_posix` -/
def errorPosix (S : System) : Mod where
  source := some fun w => .word w.errno
  freeArg := argFreeFunc true
  string := S.stdcString

/-- A call, and `a_error_add_m(a_error_posix)` when it fails. -/
def cleanCall (E : Env) (S : System) (call : SysCall) (st : CleanState) :
    Except Fault (Bool × CleanState) :=
  match S.failsWith st.calls call with
  | none => .ok (false, { st with calls := st.calls ++ [call] })
  | some errno => do
      let thread ← aErrorAddVargs E (some (errorPosix S)) [.mod none]
        { st.thread with world := { st.thread.world with errno := errno } }
      return (true, ⟨st.calls ++ [call], thread⟩)

def fdInvalid (fd : BitVec 32) : Bool := fd.toInt < 0

def aCleanSocket (E : Env) (S : System) (sock : BitVec 32) (st : CleanState) :
    Except Fault (Bool × CleanState) :=
  if fdInvalid sock then .ok (false, st) else cleanCall E S (.close sock) st

def aCleanFd (E : Env) (S : System) (fd : BitVec 32) (st : CleanState) :
    Except Fault (Bool × CleanState) :=
  if fdInvalid fd then .ok (false, st) else cleanCall E S (.close fd) st

def aCleanFilePtr (E : Env) (S : System) (file : Ptr) (st : CleanState) :
    Except Fault (Bool × CleanState) :=
  if file = 0 then .ok (false, st) else cleanCall E S (.fclose file) st

def aCleanFree (ptr : Ptr) (st : CleanState) : Bool × CleanState :=
  if ptr = 0 then (false, st)
  else (false, { st with calls := st.calls ++ [.free ptr] })

def aCleanUnmap (E : Env) (S : System) (ptr : Ptr) (size : ℕ)
    (st : CleanState) : Except Fault (Bool × CleanState) :=
  if ptr = 0 ∨ size = 0 then .ok (false, st)
  else cleanCall E S (.munmap ptr size) st

def aCleanUnlink (E : Env) (S : System) (file : Ptr) (st : CleanState) :
    Except Fault (Bool × CleanState) :=
  cleanCall E S (.unlink file) st

/-- `while(mod)`; `ret` is what was returned so far. -/
def cleanLoop (E : Env) (S : System) : List CleanArg → Option CleanMod →
    Bool → CleanState → Except Fault (Bool × CleanState)
  | _, none, ret, st => .ok (ret, st)
  | .fd sock :: .mod next :: rest, some .socket, ret, st => do
      let (status, st) ← aCleanSocket E S sock st
      cleanLoop E S rest next (ret || status) st
  | .fd fd :: .mod next :: rest, some .fd, ret, st => do
      let (status, st) ← aCleanFd E S fd st
      cleanLoop E S rest next (ret || status) st
  | .ptr file :: .mod next :: rest, some .filePtr, ret, st => do
      let (status, st) ← aCleanFilePtr E S file st
      cleanLoop E S rest next (ret || status) st
  | .ptr ptr :: .mod next :: rest, some .free, ret, st => do
      let (status, st) := aCleanFree ptr st
      cleanLoop E S rest next (ret || status) st
  | .ptr ptr :: .size size :: .mod next :: rest, some .unmap, ret, st => do
      let (status, st) ← aCleanUnmap E S ptr size st
      cleanLoop E S rest next (ret || status) st
  | .ptr file :: .mod next :: rest, some .unlink, ret, st => do
      let (status, st) ← aCleanUnlink E S file st
      cleanLoop E S rest next (ret || status) st
  | _, some _, _, _ => .error .outOfBounds

def aCleanVargs (E : Env) (S : System) (mod : Option CleanMod)
    (args : List CleanArg) (st : CleanState) :
    Except Fault (Bool × CleanState) :=
  cleanLoop E S args mod false st

/-- What a caller holds when it calls `a_clean`. -/
inductive Resource where
  | socket (sock : BitVec 32)
  | fd (fd : BitVec 32)
  | filePtr (file : Ptr)
  | free (ptr : Ptr)
  | unmap (ptr : Ptr) (size : ℕ)
  | unlink (file : Ptr)
  deriving DecidableEq, Repr

namespace Resource

def mod : Resource → CleanMod
  | .socket _ => .socket
  | .fd _ => .fd
  | .filePtr _ => .filePtr
  | .free _ => .free
  | .unmap _ _ => .unmap
  | .unlink _ => .unlink

def args : Resource → List CleanArg
  | .socket sock => [.fd sock]
  | .fd fileno => [.fd fileno]
  | .filePtr file => [.ptr file]
  | .free ptr => [.ptr ptr]
  | .unmap ptr size => [.ptr ptr, .size size]
  | .unlink file => [.ptr file]

/-- How it is released; `none` when it was never obtained. -/
def call : Resource → Option SysCall
  | .socket sock => if fdInvalid sock then none else some (.close sock)
  | .fd fileno => if fdInvalid fileno then none else some (.close fileno)
  | .filePtr file => if file = 0 then none else some (.fclose file)
  | .free ptr => if ptr = 0 then none else some (.free ptr)
  | .unmap ptr size =>
      if ptr = 0 ∨ size = 0 then none else some (.munmap ptr size)
  | .unlink file => some (.unlink file)

end Resource

/-- `a_clean(...)`: the modules with what they release, and a `NULL`. -/
def firstMod (resources : List Resource) : Option CleanMod :=
  resources.head?.map Resource.mod

def vaArgs : List Resource → List CleanArg
  | [] => []
  | resource :: rest =>
      resource.args ++ .mod (firstMod rest) :: vaArgs rest

/-- `free` does not fail. -/
def System.errnoOf (S : System) (past : List SysCall) : SysCall → Option Ptr
  | .free _ => none
  | call => S.failsWith past call

/-- The errors of the calls, in their order. -/
def System.errnos (S : System) : List SysCall → List SysCall → List Ptr
  | _, [] => []
  | past, call :: rest =>
      (S.errnoOf past call).toList ++ S.errnos (past ++ [call]) rest

section Runs

variable {E : Env} {S : System} {st : CleanState}

/-- After some errors were added to the stack of a thread. -/
def Reports (E : Env) (errnos : List Ptr) (st after : ErrorThread) : Prop :=
  E.GrantsAll → st.mallocError = false → (∀ errno ∈ errnos, errno ≠ 0) →
    after.mallocError = false ∧
      after.items.map StackItem.arg =
        (errnos.map Arg.value).reverse ++ st.items.map StackItem.arg

theorem Reports.nil (st : ErrorThread) : Reports E [] st st :=
  fun _ hquiet _ => ⟨hquiet, rfl⟩

theorem Reports.trans {first second : List Ptr} {st mid after : ErrorThread}
    (h : Reports E first st mid) (h' : Reports E second mid after) :
    Reports E (first ++ second) st after := by
  intro hgrants hquiet hnonzero
  obtain ⟨hmid, hitems⟩ := h hgrants hquiet
    fun errno herrno => hnonzero errno (List.mem_append_left _ herrno)
  obtain ⟨hafter, hmore⟩ := h' hgrants hmid
    fun errno herrno => hnonzero errno (List.mem_append_right _ herrno)
  refine ⟨hafter, ?_⟩
  rw [hmore, hitems, List.map_append, List.reverse_append, List.append_assoc]

/-- Reporting a failed call completes, and with every item granted it pushes
the error. -/
theorem addPosix_reports (E : Env) (S : System) (st : ErrorThread) :
    ∃ after, aErrorAddVargs E (some (errorPosix S)) [.mod none] st =
        .ok after ∧
      Reports E [st.world.errno] st after := by
  by_cases herror : st.mallocError = true
  · refine ⟨st, ?_, ?_⟩
    · rw [aErrorAddVargs, if_pos herror]
    · intro _ hquiet
      rw [herror] at hquiet
      exact absurd hquiet (by simp)
  · by_cases hgrant : E.grants st.world.requests sizeofStackItem = true
    · have halloc : allocStackItem E st.world =
          (some ⟨st.world.requests, none, .value 0⟩,
            { st.world with requests := st.world.requests + 1 }) := by
        simp [allocStackItem, malloc, hgrant]
      refine ⟨addArg E ⟨st.world.requests, none, .value 0⟩
        (.word st.world.errno) { st with world := { st.world with
          requests := st.world.requests + 1 } }, ?_, ?_⟩
      · simp [aErrorAddVargs, herror, addLoop, halloc, errorPosix]
      · intro _ hquiet hnonzero
        have hne : st.world.errno ≠ 0 := hnonzero _ List.mem_cons_self
        have hnull : (Arg.value st.world.errno).isNull = false := by
          simpa [Arg.isNull] using hne
        simp only [addArg, argFromVar, hnull, Bool.false_eq_true, if_false,
          push]
        exact ⟨hquiet, rfl⟩
    · have halloc : allocStackItem E st.world =
          (none, { st.world with
            requests := st.world.requests + 1
            errno := enomem }) := by
        simp [allocStackItem, malloc, hgrant]
      refine ⟨mallocError { st with world := { st.world with
        requests := st.world.requests + 1
        errno := enomem } }, ?_, ?_⟩
      · simp [aErrorAddVargs, herror, addLoop, halloc]
      · intro hgrants
        exact absurd (hgrants _ _) hgrant

/-- A module does its call, if it has one, and reports its error. -/
structure Cleans (E : Env) (S : System) (calls : List SysCall)
    (st : CleanState) (status : Bool) (after : CleanState) : Prop where
  calls_eq : after.calls = st.calls ++ calls
  status_iff : status = true ↔ S.errnos st.calls calls ≠ []
  reports : Reports E (S.errnos st.calls calls) st.thread after.thread

theorem Cleans.nothing (st : CleanState) : Cleans E S [] st false st where
  calls_eq := (List.append_nil _).symm
  status_iff := by simp [System.errnos]
  reports := Reports.nil st.thread

theorem cleanCall_cleans {call : SysCall}
    (hcall : S.errnoOf st.calls call = S.failsWith st.calls call) :
    ∃ status after, cleanCall E S call st = .ok (status, after) ∧
      Cleans E S [call] st status after := by
  have herrnos : S.errnos st.calls [call] =
      (S.failsWith st.calls call).toList := by
    simp [System.errnos, hcall]
  cases hfails : S.failsWith st.calls call with
  | none =>
      rw [hfails] at herrnos
      refine ⟨false, { st with calls := st.calls ++ [call] }, ?_, rfl, ?_, ?_⟩
      · simp [cleanCall, hfails]
      · simp [herrnos]
      · rw [herrnos]
        exact Reports.nil st.thread
  | some errno =>
      rw [hfails] at herrnos
      obtain ⟨thread, hadd, hreports⟩ := addPosix_reports E S
        { st.thread with world := { st.thread.world with errno := errno } }
      refine ⟨true, ⟨st.calls ++ [call], thread⟩, ?_, rfl, ?_, ?_⟩
      · simp only [cleanCall, hfails, hadd, ok_bind, pure_eq_ok]
      · simp [herrnos]
      · rw [herrnos]
        exact hreports

theorem errnos_append (S : System) (past first second : List SysCall) :
    S.errnos past (first ++ second) =
      S.errnos past first ++ S.errnos (past ++ first) second := by
  induction first generalizing past with
  | nil => simp [System.errnos]
  | cons call first ih => simp [System.errnos, ih, List.append_assoc]

theorem Cleans.trans {first second : List SysCall} {mid after : CleanState}
    {status later : Bool} (h : Cleans E S first st status mid)
    (h' : Cleans E S second mid later after) :
    Cleans E S (first ++ second) st (status || later) after := by
  have hsecond := h'.reports
  have hlater := h'.status_iff
  rw [h.calls_eq] at hsecond hlater
  refine ⟨?_, ?_, ?_⟩
  · rw [h'.calls_eq, h.calls_eq, List.append_assoc]
  · rw [Bool.or_eq_true, h.status_iff, hlater, errnos_append]
    simp only [ne_eq, List.append_eq_nil_iff, not_and_or]
  · rw [errnos_append]
    exact h.reports.trans hsecond

theorem aCleanFree_cleans (ptr : Ptr) (st : CleanState) :
    Cleans E S (Resource.free ptr).call.toList st (aCleanFree ptr st).1
      (aCleanFree ptr st).2 := by
  unfold aCleanFree
  by_cases hnull : ptr = 0
  · simp only [Resource.call, hnull, if_true]
    exact Cleans.nothing st
  · simp only [Resource.call, hnull, if_false]
    refine ⟨rfl, ?_, ?_⟩
    · simp [System.errnos, System.errnoOf]
    · simp only [Option.toList_some, System.errnos, System.errnoOf,
        Option.toList_none, List.append_nil]
      exact Reports.nil st.thread

/-- A module that tests what it is given and then does its call. -/
theorem tested_cleans {invalid : Prop} [Decidable invalid] {call : SysCall}
    (hcall : S.errnoOf st.calls call = S.failsWith st.calls call) :
    ∃ status after,
      (if invalid then .ok (false, st) else cleanCall E S call st) =
          .ok (status, after) ∧
        Cleans E S (if invalid then none else some call).toList st status
          after := by
  by_cases hinvalid : invalid
  · rw [if_pos hinvalid, if_pos hinvalid]
    exact ⟨false, st, rfl, Cleans.nothing st⟩
  · rw [if_neg hinvalid, if_neg hinvalid]
    exact cleanCall_cleans hcall

/-- The loop consumes what one resource put into the arguments. -/
theorem cleanLoop_resource (E : Env) (S : System) (resource : Resource)
    (next : Option CleanMod) (rest : List CleanArg) (ret : Bool)
    (st : CleanState) :
    ∃ status after, Cleans E S resource.call.toList st status after ∧
      cleanLoop E S (resource.args ++ .mod next :: rest) (some resource.mod)
          ret st = cleanLoop E S rest next (ret || status) after := by
  cases resource with
  | socket sock =>
      obtain ⟨status, after, hcall, hcleans⟩ := @tested_cleans E S st
        (fdInvalid sock = true) _ (.close sock) rfl
      refine ⟨status, after, hcleans, ?_⟩
      simp only [Resource.args, Resource.mod, List.cons_append,
        List.nil_append, cleanLoop, aCleanSocket, hcall, ok_bind]
  | fd fd =>
      obtain ⟨status, after, hcall, hcleans⟩ := @tested_cleans E S st
        (fdInvalid fd = true) _ (.close fd) rfl
      refine ⟨status, after, hcleans, ?_⟩
      simp only [Resource.args, Resource.mod, List.cons_append,
        List.nil_append, cleanLoop, aCleanFd, hcall, ok_bind]
  | filePtr file =>
      obtain ⟨status, after, hcall, hcleans⟩ := @tested_cleans E S st
        (file = 0) _ (.fclose file) rfl
      refine ⟨status, after, hcleans, ?_⟩
      simp only [Resource.args, Resource.mod, List.cons_append,
        List.nil_append, cleanLoop, aCleanFilePtr, hcall, ok_bind]
  | free ptr =>
      refine ⟨_, _, aCleanFree_cleans ptr st, ?_⟩
      simp only [Resource.args, Resource.mod, List.cons_append,
        List.nil_append, cleanLoop]
  | unmap ptr size =>
      obtain ⟨status, after, hcall, hcleans⟩ := @tested_cleans E S st
        (ptr = 0 ∨ size = 0) _ (.munmap ptr size) rfl
      refine ⟨status, after, hcleans, ?_⟩
      simp only [Resource.args, Resource.mod, List.cons_append,
        List.nil_append, cleanLoop, aCleanUnmap, hcall, ok_bind]
  | unlink file =>
      obtain ⟨status, after, hcall, hcleans⟩ := @cleanCall_cleans E S st
        (.unlink file) rfl
      refine ⟨status, after, hcleans, ?_⟩
      simp only [Resource.args, Resource.mod, List.cons_append,
        List.nil_append, cleanLoop, aCleanUnlink, hcall, ok_bind]

theorem cleanLoop_cleans (E : Env) (S : System) (resources : List Resource)
    (ret : Bool) (st : CleanState) :
    ∃ status after,
      cleanLoop E S (vaArgs resources) (firstMod resources) ret st =
          .ok (ret || status, after) ∧
        Cleans E S (resources.filterMap Resource.call) st status after := by
  induction resources generalizing ret st with
  | nil =>
      refine ⟨false, st, ?_, Cleans.nothing st⟩
      rw [Bool.or_false]
      exact cleanLoop.eq_1 E S _ ret st
  | cons resource rest ih =>
      obtain ⟨status, mid, hfirst, hloop⟩ := cleanLoop_resource E S resource
        (firstMod rest) (vaArgs rest) ret st
      obtain ⟨later, after, hrest, hcleans⟩ := ih (ret || status) mid
      refine ⟨status || later, after, ?_, ?_⟩
      · rw [← Bool.or_assoc]
        exact hloop.trans hrest
      · have hcalls : (resource :: rest).filterMap Resource.call =
            resource.call.toList ++ rest.filterMap Resource.call := by
          cases hcall : resource.call <;> simp [hcall]
        rw [hcalls]
        exact hfirst.trans hcleans

/-- Whatever fails, every resource that was obtained is released, once and in
the order of the arguments; the status says whether a call failed, and with
every item granted the errors are on the stack of the thread, the last one on
top. -/
theorem a_clean_releases_all (E : Env) (S : System) (resources : List Resource)
    (st : CleanState) :
    ∃ status after,
      aCleanVargs E S (firstMod resources) (vaArgs resources) st =
          .ok (status, after) ∧
        after.calls = st.calls ++ resources.filterMap Resource.call ∧
        (status = true ↔
          S.errnos st.calls (resources.filterMap Resource.call) ≠ []) ∧
        (E.GrantsAll → st.thread.mallocError = false →
          (∀ errno ∈
              S.errnos st.calls (resources.filterMap Resource.call),
            errno ≠ 0) →
          after.thread.items.map StackItem.arg =
            ((S.errnos st.calls
              (resources.filterMap Resource.call)).map Arg.value).reverse ++
            st.thread.items.map StackItem.arg) := by
  obtain ⟨status, after, hloop, hcleans⟩ :=
    cleanLoop_cleans E S resources false st
  rw [Bool.false_or] at hloop
  refine ⟨status, after, hloop, hcleans.calls_eq, hcleans.status_iff, ?_⟩
  intro hgrants hquiet hnonzero
  exact (hcleans.reports hgrants hquiet hnonzero).2

end Runs

end Clean
end Alib
