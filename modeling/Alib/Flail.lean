import Alib.Basename
import Alib.Allocation

/-!
# Leaving a function with `flail`

`flail.c`: the letters in front of the first semicolon of the format are
options, which close descriptors, free memory, remove files and choose what is
returned or shown; every other byte there is passed over.  They take their
operands from the variable arguments, and what is left of these goes to the
message.  An argument which is missing or of another type than the letter
takes is undefined, and so are a format without a semicolon, a block freed that
is not there to be freed, and a message shown that was never written.  The
formatting itself and the texts of `strerror` belong to the environment.
-/

namespace Alib
namespace Flail

inductive Arg where
  | int (value : ℤ)
  | ptr (p : Option Addr)
  | str (file : CString)
  | handler (id : ℕ)

/-- The open descriptors, the files that were removed and what the output
handlers were called with. -/
structure Process where
  fds : Finset ℤ
  unlinked : List CString
  shown : List (ℕ × List Byte × ℤ)
  world : World

/-- The library's own state and what it takes from the C library. -/
structure Sutil where
  flailBasename : CString
  flailOutput : ℕ
  vsnprintf : List Byte → List Arg → List Byte
  strerror : ℤ → List Byte

def bufSize : ℕ := 1024

def flailInit (name : CString) (s : Sutil) : Sutil :=
  { s with flailBasename :=
      match strrchr name slash with
      | none => name
      | some base => name.drop (base + 1) }

def flailSetOutputHandler (handler : ℕ) (s : Sutil) : ℕ × Sutil :=
  (s.flailOutput, { s with flailOutput := handler })

def close (fd : ℤ) (p : Process) : Process := { p with fds := p.fds.erase fd }

def free (ptr : Option Addr) (p : Process) : Except Fault Process :=
  match ptr with
  | none => .ok p
  | some addr => do
      let world ← freeNode addr p.world
      return { p with world := world }

def unlink (file : CString) (p : Process) : Process :=
  { p with unlinked := p.unlinked ++ [file] }

/-- The variables of `flail`. -/
structure Vars where
  args : List Arg
  myerrno : ℤ
  value : ℤ
  shouldExit : Bool
  shouldReturn : Bool
  output : Bool
  method : ℕ
  process : Process

def semicolon : Byte := 0x3B#8

/-- One turn of the `switch`. -/
def flailOption (letter : Byte) (v : Vars) : Except Fault Vars :=
  if letter = 0x66#8 then      -- 'f'
    match v.args with
    | .int fd :: rest =>
        .ok { v with args := rest, process := close fd v.process }
    | _ => .error .outOfBounds
  else if letter = 0x6D#8 then -- 'm'
    match v.args with
    | .ptr p :: rest => do
        let process ← free p v.process
        return { v with args := rest, process := process }
    | _ => .error .outOfBounds
  else if letter = 0x76#8 then -- 'v'
    match v.args with
    | .int value :: rest => .ok { v with args := rest, value := value }
    | _ => .error .outOfBounds
  else if letter = 0x72#8 then -- 'r'
    .ok { v with shouldReturn := true }
  else if letter = 0x71#8 then -- 'q'
    .ok { v with shouldExit := true }
  else if letter = 0x65#8 then -- 'e'
    match v.args with
    | .int error :: rest => .ok { v with args := rest, myerrno := error }
    | _ => .error .outOfBounds
  else if letter = 0x6F#8 then -- 'o'
    .ok { v with output := true }
  else if letter = 0x52#8 then -- 'R'
    match v.args with
    | .str file :: rest =>
        .ok { v with args := rest, process := unlink file v.process }
    | _ => .error .outOfBounds
  else if letter = 0x68#8 then -- 'h'
    match v.args with
    | .handler id :: rest => .ok { v with args := rest, method := id }
    | _ => .error .outOfBounds
  else .ok v

/-- The options up to the semicolon, and the format behind it. -/
def flailOptions : List Byte → Vars → Except Fault (List Byte × Vars)
  | [], _ => .error .outOfBounds
  | letter :: rest, v =>
      if letter = semicolon then .ok (rest, v)
      else do
        let v ← flailOption letter v
        flailOptions rest v

/-- What fits a buffer of `buf_size` bytes with its NUL. -/
def clip (text : List Byte) : List Byte := text.take (bufSize - 1)

/-- `": "` -/
def colonSpace : List Byte := [0x3A#8, 0x20#8]

/-- The message; without a base name and an error it is never written. -/
def message (s : Sutil) (text : List Byte) (args : List Arg) (myerrno : ℤ) :
    Option (List Byte) :=
  let tmp := clip (s.vsnprintf text args)
  if s.flailBasename.bytes ≠ [] then
    if myerrno ≠ 0 then
      some (clip (s.flailBasename.bytes ++ colonSpace ++ tmp ++ colonSpace ++
        s.strerror myerrno))
    else some (clip (s.flailBasename.bytes ++ colonSpace ++ tmp))
  else if myerrno ≠ 0 then
    some (clip (tmp ++ colonSpace ++ s.strerror myerrno))
  else none

/-- `if(output) method(msg,value);` -/
def callMethod (s : Sutil) (text : List Byte) (v : Vars) :
    Except Fault Process :=
  if v.output then
    match message s text v.args v.myerrno with
    | none => .error .outOfBounds
    | some msg =>
        .ok { v.process with
          shown := v.process.shown ++ [(v.method, msg, v.value)] }
  else .ok v.process

inductive Ending where
  | returned (value : ℤ)
  | exited (value : ℤ)
  deriving DecidableEq, Repr

def ending (v : Vars) : Ending :=
  if v.shouldExit then .exited v.value
  else if v.shouldReturn then .returned v.value
  else .returned 0

def start (s : Sutil) (errno : ℤ) (args : List Arg) (p : Process) : Vars where
  args := args
  myerrno := errno
  value := 0
  shouldExit := false
  shouldReturn := false
  output := false
  method := s.flailOutput
  process := p

def flail (s : Sutil) (errno : ℤ) (format : CString) (args : List Arg)
    (p : Process) : Except Fault (Ending × Process) := do
  let (text, v) ← flailOptions format.stored (start s errno args p)
  let process ← callMethod s text v
  return (ending v, process)

/-- What one option asks for.  A byte which is no option and not the semicolon
asks for nothing. -/
inductive Action where
  | closeFd (fd : ℤ)
  | freeMemory (p : Option Addr)
  | setValue (value : ℤ)
  | doReturn
  | doExit
  | setErrno (error : ℤ)
  | doOutput
  | removeFile (file : CString)
  | setMethod (id : ℕ)
  | ignore (letter : Byte)

/-- The letters `f`, `m`, `v`, `r`, `q`, `e`, `o`, `R`, `h` and the semicolon,
none of which is ignored. -/
def letters : List Byte :=
  [0x66#8, 0x6D#8, 0x76#8, 0x72#8, 0x71#8, 0x65#8, 0x6F#8, 0x52#8, 0x68#8,
    semicolon]

def Action.WellFormed : Action → Prop
  | .ignore letter => letter ∉ letters
  | _ => True

def Action.letter : Action → Byte
  | .closeFd _ => 0x66#8
  | .freeMemory _ => 0x6D#8
  | .setValue _ => 0x76#8
  | .doReturn => 0x72#8
  | .doExit => 0x71#8
  | .setErrno _ => 0x65#8
  | .doOutput => 0x6F#8
  | .removeFile _ => 0x52#8
  | .setMethod _ => 0x68#8
  | .ignore letter => letter

def Action.operands : Action → List Arg
  | .closeFd fd => [.int fd]
  | .freeMemory p => [.ptr p]
  | .setValue value => [.int value]
  | .setErrno error => [.int error]
  | .removeFile file => [.str file]
  | .setMethod id => [.handler id]
  | _ => []

def Action.freed : Action → Option Addr
  | .freeMemory p => p
  | _ => none

def withReleased (w : World) (blocks : List Addr) : World :=
  { w with released := w.released ++ blocks }

/-- What the action does, apart from taking its operands. -/
def perform (v : Vars) : Action → Vars
  | .closeFd fd => { v with process := close fd v.process }
  | .freeMemory p => { v with process := { v.process with
      world := withReleased v.process.world p.toList } }
  | .setValue value => { v with value := value }
  | .doReturn => { v with shouldReturn := true }
  | .doExit => { v with shouldExit := true }
  | .setErrno error => { v with myerrno := error }
  | .doOutput => { v with output := true }
  | .removeFile file => { v with process := unlink file v.process }
  | .setMethod id => { v with method := id }
  | .ignore _ => v

/-- The blocks the actions free were obtained and not released before, and no
block is freed twice. -/
structure Frees (w : World) (actions : List Action) : Prop where
  live : ∀ addr ∈ actions.filterMap Action.freed,
    addr < w.requests ∧ addr ∉ w.released
  nodup : (actions.filterMap Action.freed).Nodup

theorem Action.letter_ne (action : Action) (h : action.WellFormed) :
    action.letter ≠ semicolon := by
  cases action with
  | ignore letter =>
      intro heq
      apply h
      rw [show letter = semicolon from heq]
      simp [letters]
  | closeFd | freeMemory | setValue | doReturn | doExit | setErrno | doOutput
  | removeFile | setMethod => simp [Action.letter, semicolon]

section Options

variable {v after : Vars} {bytes text : List Byte} {letter : Byte}

theorem foldl_perform_args (actions : List Action) (v : Vars)
    (args : List Arg) :
    actions.foldl perform { v with args := args } =
      { actions.foldl perform v with args := args } := by
  induction actions generalizing v with
  | nil => rfl
  | cons action rest ih =>
      have hfirst : perform { v with args := args } action =
          { perform v action with args := args } := by
        cases action <;> rfl
      rw [List.foldl_cons, List.foldl_cons, hfirst, ih]

theorem perform_world (v : Vars) (action : Action) :
    (perform v action).process.world =
      withReleased v.process.world action.freed.toList := by
  cases action with
  | freeMemory p => rfl
  | closeFd | setValue | doReturn | doExit | setErrno | doOutput | removeFile
  | setMethod | ignore =>
      simp [perform, close, unlink, Action.freed, withReleased]

theorem frees_of_none {w : World} {actions : List Action}
    (h : actions.filterMap Action.freed = []) : Frees w actions := by
  constructor <;> simp [h]

theorem frees_of_single {w : World} {actions : List Action} {addr : Addr}
    (h : actions.filterMap Action.freed = [addr])
    (hlive : addr < w.requests ∧ addr ∉ w.released) : Frees w actions := by
  constructor <;> simp [h, hlive]

/-- The blocks of the later actions are there after the first. -/
theorem frees_cons {w : World} {action : Action} {actions : List Action} :
    Frees w (action :: actions) ↔
      Frees w [action] ∧
        Frees (withReleased w action.freed.toList) actions := by
  cases hfreed : action.freed with
  | none =>
      have hsame : withReleased w [] = w := by
        simp [withReleased]
      have hcons : (action :: actions).filterMap Action.freed =
          actions.filterMap Action.freed := by simp [hfreed]
      have hone : [action].filterMap Action.freed = [] := by simp [hfreed]
      rw [Option.toList_none, hsame]
      constructor
      · intro h
        exact ⟨frees_of_none hone, hcons ▸ h.live, hcons ▸ h.nodup⟩
      · rintro ⟨_, h⟩
        exact ⟨hcons.symm ▸ h.live, hcons.symm ▸ h.nodup⟩
  | some addr =>
      have hcons : (action :: actions).filterMap Action.freed =
          addr :: actions.filterMap Action.freed := by simp [hfreed]
      have hone : [action].filterMap Action.freed = [addr] := by
        simp [hfreed]
      constructor
      · rintro ⟨hlive, hnodup⟩
        rw [hcons] at hlive hnodup
        obtain ⟨hnot, hrest⟩ := List.nodup_cons.mp hnodup
        refine ⟨frees_of_single hone (hlive addr List.mem_cons_self), ?_,
          hrest⟩
        · intro other hother
          obtain ⟨hbefore, hheld⟩ :=
            hlive other (List.mem_cons_of_mem _ hother)
          refine ⟨hbefore, ?_⟩
          have hne : other ≠ addr := fun heq => hnot (heq ▸ hother)
          simp [withReleased, hheld, hne]
      · rintro ⟨⟨hfirst, _⟩, hlive, hnodup⟩
        rw [hone] at hfirst
        have hnot : addr ∉ actions.filterMap Action.freed := by
          intro hmem
          apply (hlive addr hmem).2
          simp [withReleased]
        refine ⟨?_, ?_⟩
        · rw [hcons]
          intro other hother
          rcases List.mem_cons.mp hother with heq | hmem
          · exact hfirst other (List.mem_singleton.mpr heq)
          · refine ⟨(hlive other hmem).1, fun hheld => (hlive other hmem).2 ?_⟩
            simp [withReleased, hheld]
        · rw [hcons]
          exact List.nodup_cons.mpr ⟨hnot, hnodup⟩

/-- `free` completes exactly if the block is there to be freed. -/
theorem free_eq_ok_iff {ptr : Option Addr} {p after : Process} :
    free ptr p = .ok after ↔
      Frees p.world [.freeMemory ptr] ∧
        after = { p with world := withReleased p.world ptr.toList } := by
  cases ptr with
  | none =>
      have hfrees : Frees p.world [.freeMemory none] := frees_of_none rfl
      have hsame : ({ p with world := withReleased p.world [] } : Process) =
          p := by simp [withReleased]
      rw [Option.toList_none, hsame]
      constructor
      · intro h
        cases h
        exact ⟨hfrees, rfl⟩
      · rintro ⟨_, heq⟩
        rw [heq]
        rfl
  | some addr =>
      have hfrees : Frees p.world [.freeMemory (some addr)] ↔
          addr < p.world.requests ∧ addr ∉ p.world.released := by
        constructor
        · intro h
          exact h.live addr (by simp [Action.freed])
        · exact frees_of_single rfl
      rw [hfrees]
      by_cases hlive : addr < p.world.requests ∧ addr ∉ p.world.released
      · simp [free, freeNode, accessNode, hlive, withReleased, eq_comm]
      · simp [free, freeNode, accessNode, hlive]

theorem flailOption_action (action : Action) (hformed : action.WellFormed)
    (hfrees : Frees v.process.world [action]) (rest : List Arg)
    (hargs : v.args = action.operands ++ rest) :
    flailOption action.letter v =
      .ok { perform v action with args := rest } := by
  cases action with
  | ignore letter =>
      have hrest : v.args = rest := hargs
      have hnot : letter ∉ letters := hformed
      simp only [letters, List.mem_cons, not_or] at hnot
      simp [flailOption, Action.letter, hnot, perform, ← hrest]
  | doReturn | doExit | doOutput =>
      have hrest : v.args = rest := hargs
      simp [flailOption, Action.letter, perform, ← hrest]
  | freeMemory p =>
      have hfree := free_eq_ok_iff.mpr ⟨hfrees, rfl⟩
      simp [flailOption, Action.letter, hargs, Action.operands, perform,
        hfree]
  | closeFd | setValue | setErrno | removeFile | setMethod =>
      simp [flailOption, Action.letter, hargs, Action.operands, perform]

theorem flailOptions_actions (actions : List Action) (rest : List Arg)
    (hformed : ∀ action ∈ actions, action.WellFormed)
    (hfrees : Frees v.process.world actions)
    (hargs : v.args = actions.flatMap Action.operands ++ rest) :
    flailOptions (actions.map Action.letter ++ semicolon :: text) v =
      .ok (text, { actions.foldl perform v with args := rest }) := by
  induction actions generalizing v with
  | nil =>
      have hrest : v.args = rest := hargs
      simp [flailOptions, ← hrest]
  | cons action actions ih =>
      rw [List.flatMap_cons, List.append_assoc] at hargs
      obtain ⟨hfree, hlater⟩ := frees_cons.mp hfrees
      rw [← perform_world] at hlater
      have hfirst := flailOption_action action
        (hformed action List.mem_cons_self) hfree _ hargs
      have hletter : action.letter ≠ semicolon :=
        action.letter_ne (hformed action List.mem_cons_self)
      have hrest := @ih { perform v action with
          args := actions.flatMap Action.operands ++ rest }
        (fun other hother => hformed other (List.mem_cons_of_mem _ hother))
        hlater rfl
      rw [List.map_cons, List.cons_append, flailOptions, if_neg hletter,
        hfirst, ok_bind, hrest, List.foldl_cons, foldl_perform_args]

end Options

section Effects

variable {s : Sutil} {errno : ℤ} {args : List Arg} {p after : Process}
  {format : CString} {result : Ending}

def Action.closed : Action → Option ℤ
  | .closeFd fd => some fd
  | _ => none

def Action.removed : Action → Option CString
  | .removeFile file => some file
  | _ => none

def Action.value : Action → Option ℤ
  | .setValue value => some value
  | _ => none

def Action.error : Action → Option ℤ
  | .setErrno error => some error
  | _ => none

def Action.method : Action → Option ℕ
  | .setMethod id => some id
  | _ => none

def Action.isReturn : Action → Bool
  | .doReturn => true
  | _ => false

def Action.isExit : Action → Bool
  | .doExit => true
  | _ => false

def Action.isOutput : Action → Bool
  | .doOutput => true
  | _ => false

/-- The last of these operands, if there is one. -/
def lastOf {α : Type} (operand : Action → Option α) (actions : List Action)
    (initial : α) : α :=
  (actions.filterMap operand).getLast?.getD initial

/-- What a call does whose options are these actions. -/
structure Does (s : Sutil) (errno : ℤ) (p : Process) (actions : List Action)
    (text : List Byte) (rest : List Arg) (result : Ending) (after : Process) :
    Prop where
  fds : ∀ fd, fd ∈ after.fds ↔
    fd ∈ p.fds ∧ fd ∉ actions.filterMap Action.closed
  unlinked : after.unlinked =
    p.unlinked ++ actions.filterMap Action.removed
  world : after.world = withReleased p.world (actions.filterMap Action.freed)
  silent : actions.any Action.isOutput = false → after.shown = p.shown
  shown : actions.any Action.isOutput = true → ∃ msg,
    message s text rest (lastOf Action.error actions errno) = some msg ∧
      after.shown = p.shown ++
        [(lastOf Action.method actions s.flailOutput, msg,
          lastOf Action.value actions 0)]
  result : result =
    if actions.any Action.isExit then
      .exited (lastOf Action.value actions 0)
    else if actions.any Action.isReturn then
      .returned (lastOf Action.value actions 0)
    else .returned 0

theorem lastOf_concat {α : Type} (operand : Action → Option α)
    (actions : List Action) (action : Action) (initial : α) :
    lastOf operand (actions ++ [action]) initial =
      (operand action).getD (lastOf operand actions initial) := by
  cases hoperand : operand action with
  | none => simp [lastOf, hoperand]
  | some x => simp [lastOf, hoperand]

/-- The variables after some options. -/
structure Reached (before : Vars) (actions : List Action) (after : Vars) :
    Prop where
  fds : ∀ fd, fd ∈ after.process.fds ↔
    fd ∈ before.process.fds ∧ fd ∉ actions.filterMap Action.closed
  unlinked : after.process.unlinked =
    before.process.unlinked ++ actions.filterMap Action.removed
  world : after.process.world =
    withReleased before.process.world (actions.filterMap Action.freed)
  shown : after.process.shown = before.process.shown
  value : after.value = lastOf Action.value actions before.value
  myerrno : after.myerrno = lastOf Action.error actions before.myerrno
  method : after.method = lastOf Action.method actions before.method
  shouldExit : after.shouldExit =
    (before.shouldExit || actions.any Action.isExit)
  shouldReturn : after.shouldReturn =
    (before.shouldReturn || actions.any Action.isReturn)
  output : after.output = (before.output || actions.any Action.isOutput)

theorem Reached.concat {before middle : Vars} {actions : List Action}
    (h : Reached before actions middle) (action : Action) :
    Reached before (actions ++ [action]) (perform middle action) where
  fds := by
    intro fd
    cases action with
    | closeFd other =>
        simp only [perform, close, Finset.mem_erase, h.fds fd,
          List.filterMap_append, List.mem_append]
        simp [Action.closed]
        tauto
    | _ => simp [perform, unlink, h.fds fd, Action.closed]
  unlinked := by
    cases action with
    | _ => simp [perform, close, unlink, h.unlinked, Action.removed]
  world := by
    rw [perform_world, h.world]
    cases hfreed : action.freed <;> simp [withReleased, hfreed]
  shown := by
    cases action with
    | _ => simp [perform, close, unlink, h.shown]
  value := by
    rw [lastOf_concat, ← h.value]
    cases action <;> rfl
  myerrno := by
    rw [lastOf_concat, ← h.myerrno]
    cases action <;> rfl
  method := by
    rw [lastOf_concat, ← h.method]
    cases action <;> rfl
  shouldExit := by
    rw [List.any_append, ← Bool.or_assoc, ← h.shouldExit]
    cases action <;> simp [perform, Action.isExit]
  shouldReturn := by
    rw [List.any_append, ← Bool.or_assoc, ← h.shouldReturn]
    cases action <;> simp [perform, Action.isReturn]
  output := by
    rw [List.any_append, ← Bool.or_assoc, ← h.output]
    cases action <;> simp [perform, Action.isOutput]

theorem reached_foldl (before : Vars) (actions : List Action) :
    Reached before actions (actions.foldl perform before) := by
  induction actions using List.reverseRecOn with
  | nil => constructor <;> simp [lastOf, withReleased]
  | append_singleton actions action ih =>
      rw [List.foldl_append]
      exact ih.concat action

/-- There is something to write a message from. -/
def Written (s : Sutil) (myerrno : ℤ) : Prop :=
  s.flailBasename.bytes ≠ [] ∨ myerrno ≠ 0

theorem message_isSome_iff (s : Sutil) (text : List Byte) (args : List Arg)
    (myerrno : ℤ) :
    (∃ msg, message s text args myerrno = some msg) ↔ Written s myerrno := by
  unfold message Written
  split
  · split <;> simp_all
  · split <;> simp_all

/-- The message of the actions is written if it is shown. -/
def Shows (s : Sutil) (errno : ℤ) (actions : List Action) : Prop :=
  actions.any Action.isOutput = true →
    Written s (lastOf Action.error actions errno)

theorem does_of_reached {actions : List Action} {text : List Byte}
    {rest : List Arg} {v : Vars}
    (h : Reached (start s errno args p) actions v)
    (hcall : callMethod s text { v with args := rest } = .ok after) :
    Does s errno p actions text rest (ending { v with args := rest })
      after := by
  have hexit := h.shouldExit
  have hreturn := h.shouldReturn
  have houtput := h.output
  simp only [start, Bool.false_or] at hexit hreturn houtput
  have hshown : v.process.shown = p.shown := h.shown
  have hvalue : v.value = lastOf Action.value actions 0 := h.value
  have herror : v.myerrno = lastOf Action.error actions errno := h.myerrno
  have hmethod : v.method = lastOf Action.method actions s.flailOutput :=
    h.method
  have hresult : ending { v with args := rest } =
      if actions.any Action.isExit then
        .exited (lastOf Action.value actions 0)
      else if actions.any Action.isReturn then
        .returned (lastOf Action.value actions 0)
      else .returned 0 := by
    simp only [ending, hexit, hreturn, hvalue]
  simp only [callMethod, houtput] at hcall
  cases hany : actions.any Action.isOutput with
  | false =>
      rw [hany, if_neg Bool.false_ne_true] at hcall
      cases hcall
      exact ⟨h.fds, h.unlinked, h.world, fun _ => hshown,
        fun hnever => absurd (hany ▸ hnever) Bool.false_ne_true, hresult⟩
  | true =>
      rw [hany, if_pos rfl] at hcall
      split at hcall
      next => cases hcall
      next msg hmsg =>
        cases hcall
        refine ⟨h.fds, h.unlinked, h.world,
          fun hnever => absurd (hany ▸ hnever) (by decide), fun _ => ?_,
          hresult⟩
        refine ⟨msg, herror ▸ hmsg, ?_⟩
        rw [hshown, hvalue, hmethod]

theorem Does.unique {actions : List Action} {text : List Byte}
    {rest : List Arg} {result' : Ending} {after' : Process}
    (h : Does s errno p actions text rest result after)
    (h' : Does s errno p actions text rest result' after') :
    result = result' ∧ after = after' := by
  refine ⟨h.result.trans h'.result.symm, ?_⟩
  have hfds : after.fds = after'.fds := by
    ext fd
    rw [h.fds, h'.fds]
  have hunlinked := h.unlinked.trans h'.unlinked.symm
  have hworld := h.world.trans h'.world.symm
  have hshown : after.shown = after'.shown := by
    cases hany : actions.any Action.isOutput with
    | false => exact (h.silent hany).trans (h'.silent hany).symm
    | true =>
        obtain ⟨msg, hmsg, hafter⟩ := h.shown hany
        obtain ⟨msg', hmsg', hafter'⟩ := h'.shown hany
        have hsame : msg = msg' := Option.some.inj (hmsg.symm.trans hmsg')
        rw [hafter, hafter', hsame]
  cases after
  cases after'
  simp only at hfds hunlinked hshown hworld
  rw [hfds, hunlinked, hshown, hworld]

/-- The format and the arguments, split into what the options take and what is
left for the message. -/
structure Parses (format : CString) (args : List Arg) (actions : List Action)
    (text : List Byte) (rest : List Arg) : Prop where
  formed : ∀ action ∈ actions, action.WellFormed
  format_eq : format.stored =
    actions.map Action.letter ++ semicolon :: text
  args_eq : args = actions.flatMap Action.operands ++ rest

theorem flail_of_parses {actions : List Action} {text : List Byte}
    {rest : List Arg} (h : Parses format args actions text rest)
    (hfrees : Frees p.world actions) (hshows : Shows s errno actions) :
    ∃ result after, flail s errno format args p = .ok (result, after) ∧
      Does s errno p actions text rest result after := by
  have hoptions := @flailOptions_actions (start s errno args p) text actions
    rest h.formed hfrees h.args_eq
  have hreached := reached_foldl (start s errno args p) actions
  let v := { actions.foldl perform (start s errno args p) with args := rest }
  obtain ⟨after, hcall⟩ : ∃ after, callMethod s text v = .ok after := by
    have houtput : v.output = actions.any Action.isOutput := by
      have hreachedOutput := hreached.output
      simp only [start, Bool.false_or] at hreachedOutput
      exact hreachedOutput
    cases hany : actions.any Action.isOutput with
    | false =>
        rw [callMethod, houtput, hany, if_neg Bool.false_ne_true]
        exact ⟨_, rfl⟩
    | true =>
        have herror : v.myerrno = lastOf Action.error actions errno :=
          hreached.myerrno
        have hwritten := hshows hany
        rw [← herror] at hwritten
        obtain ⟨msg, hmsg⟩ :=
          (message_isSome_iff s text v.args v.myerrno).mpr hwritten
        rw [callMethod, houtput, hany, if_pos rfl, hmsg]
        exact ⟨_, rfl⟩
  refine ⟨ending v, after, ?_, does_of_reached hreached hcall⟩
  rw [flail, h.format_eq, hoptions, ok_bind]
  exact congrArg (· >>= _) hcall

/-- The name kept for messages is empty only for a name that is empty or ends
in a slash. -/
theorem flailInit_basename (name : CString) (s : Sutil)
    (hname : name.bytes ≠ []) (hlast : name.bytes.getLast? ≠ some slash) :
    (flailInit name s).flailBasename.bytes ≠ [] := by
  rcases lastIdx_cases slash name.bytes with
    ⟨hnone, _⟩ | ⟨before, after, hbytes, _, hsome⟩
  · have hsame : (flailInit name s).flailBasename = name := by
      simp [flailInit, strrchr, hnone]
    rw [hsame]
    exact hname
  · have hdrop : (flailInit name s).flailBasename =
        name.drop (before.length + 1) := by
      simp [flailInit, strrchr, hsome]
    have hafter : name.bytes.drop (before.length + 1) = after := by
      rw [hbytes, List.drop_append, List.drop_of_length_le (by omega)]
      simp
    rw [hdrop, CString.drop_bytes, hafter]
    intro hempty
    apply hlast
    rw [hbytes, hempty, List.getLast?_concat]

/-- Once `flail_init` has taken a program's name every call can show its
message, and without the option `h` it goes to the handler that was set. -/
theorem flail_started {actions : List Action} {text : List Byte}
    {rest : List Arg} (name : CString) (handler : ℕ) (s : Sutil)
    (hname : name.bytes ≠ []) (hlast : name.bytes.getLast? ≠ some slash)
    (hparses : Parses format args actions text rest)
    (hfrees : Frees p.world actions)
    (houtput : actions.any Action.isOutput = true)
    (hmethod : actions.filterMap Action.method = []) :
    ∃ result after msg,
      flail (flailSetOutputHandler handler (flailInit name s)).2 errno format
          args p = .ok (result, after) ∧
        after.shown = p.shown ++
          [(handler, msg, lastOf Action.value actions 0)] := by
  have hshows : Shows (flailSetOutputHandler handler (flailInit name s)).2
      errno actions :=
    fun _ => Or.inl (flailInit_basename name s hname hlast)
  obtain ⟨result, after, hcall, hdoes⟩ :=
    @flail_of_parses _ errno args p format actions text rest hparses hfrees
      hshows
  obtain ⟨msg, _, hshown⟩ := hdoes.shown houtput
  refine ⟨result, after, msg, hcall, ?_⟩
  rw [hshown, lastOf, hmethod]
  rfl

end Effects

end Flail
end Alib
