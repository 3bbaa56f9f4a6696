import Alib.ErrorRelease
import Alib.Allocation
import Alib.Vsprintf
import Alib.Printf
import Alib.Hex

/-!
# What is reported on the standard error

`a_warn_real` of `die.c` and `a_debug_real` of `debug.c`, with the `getstr`
callbacks of `error.c` that turn a code into text.  The callback of the stack
module follows its code to the node on top of a stack and asks the module
there.  The output of a caller's format is a parameter; the texts of `strerror`
and of the caller's modules, and where blocks lie, belong to the environment.
-/

namespace Alib
namespace Warn

open Execution ErrorLog

/-- A string of a `getstr` callback, and whether the free function it hands
back with it does anything. -/
abbrev Text := Option CString × Bool

structure TextEnv where
  strerror : BitVec 32 → CString
  userGetstr : ℕ → Option (ErrorCode → Text)
  address : Addr → Ptr
  stackAllocError : Ptr

def TextEnv.word (T : TextEnv) : ErrorCode → Ptr
  | .value code => code
  | .stack .null => 0
  | .stack .stackAllocError => T.stackAllocError
  | .stack (.node addr _ _ _) => T.address addr

/-- A text that is not given back. -/
def lasting (text : CString) : Text := (some text, false)

def errorVal2str : List CString :=
  [⟨ascii "Success", by decide⟩,
    ⟨ascii "Not Implemented", by decide⟩,
    ⟨ascii "Unknown", by decide⟩,
    ⟨ascii "Invalid operand", by decide⟩,
    ⟨ascii "Operand too small", by decide⟩,
    ⟨ascii "Operand too large", by decide⟩,
    ⟨ascii "Other Library", by decide⟩,
    ⟨ascii "Empty", by decide⟩]

def invalidValue : CString := ⟨ascii "Invalid a_error value", by decide⟩

def nullGetstr : CString :=
  ⟨ascii
    "internal error a_error_strerr received a_error module with null getstr",
    by decide⟩

def unableToAllocate : CString :=
  ⟨ascii "unable to allocate error stack memory while handling error",
    by decide⟩

def nullStack : CString :=
  ⟨ascii "Null error stack passed to a_strerr", by decide⟩

def valGet (code : Ptr) : Text :=
  if 7 < code.toInt ∨ code.toInt < 0 then lasting invalidValue
  else (errorVal2str[code.toNat]?, false)

def userGet (T : TextEnv) (id : ℕ) (code : ErrorCode) : Text :=
  match T.userGetstr id with
  | none => lasting nullGetstr
  | some getstr => getstr code

mutual

/-- `a_error_strerr(mod, code, free_func)` -/
def aErrorStrerr (T : TextEnv) :
    ErrorCode → ErrorMod → World → Except Fault Text
  | .value code, .stack, _ =>
      if code = 0 then .ok (lasting nullStack) else .error .danglingPointer
  | .stack stack, .stack, w => stackGetstr T stack w
  | code, .alib, _ => .ok (valGet (T.word code))
  | _, .none, _ => .ok (lasting .nil)
  | code, .perror, _ => .ok (lasting (T.strerror ((T.word code).setWidth 32)))
  | _, .stackAlloc, _ => .ok (lasting unableToAllocate)
  | code, .user id, _ => .ok (userGet T id code)

def stackGetstr (T : TextEnv) : ErrorStack → World → Except Fault Text
  | .null, _ => .ok (lasting nullStack)
  | .stackAllocError, _ => .ok (lasting unableToAllocate)
  | .node addr mod code _, w => do
      accessNode addr w
      aErrorStrerr T code mod w

end

/-- What was written to `stderr`, and the texts that were given back. -/
structure WarnState where
  world : World
  stderr : List Byte
  freed : List CString

/-- `__FILE__`, `__LINE__` and `__func__` -/
structure Place where
  file : CString
  line : BitVec 32
  func : CString

def placeFormat : CString := ⟨ascii "[%s:%u:%s]", by decide⟩

def Place.text (place : Place) : CString :=
  placeFormat.printf
    [.str place.file, .unsigned place.line, .str place.func]

/-- `vfprintf(stderr, fmt, args)` -/
def vfprintf (fmt : CString) (args : List PrintfArg) (st : WarnState) :
    WarnState :=
  { st with stderr := st.stderr ++ (fmt.printf args).bytes }

def aDiePrintfDefault (fmt : CString) (args : List PrintfArg)
    (st : WarnState) : Except Fault WarnState :=
  match fmt.bytes.getLast? with
  | none => .error .outOfBounds
  | some last =>
      if last ≠ newline then
        .ok (vfprintf (fmt ++ ⟨[newline], by decide⟩) args st)
      else .ok (vfprintf fmt args st)

def withError : CString := ⟨ascii "%s %s: %s", by decide⟩

def withoutError : CString := ⟨ascii "%s %s", by decide⟩

def errorText (T : TextEnv) (errorMod : Option ErrorMod) (code : ErrorCode)
    (w : World) : Except Fault Text :=
  match errorMod with
  | none => .ok (none, false)
  | some .none => .ok (none, false)
  | some mod => aErrorStrerr T code mod w

/-- What `fmt` and its arguments yield, formatted into the memory of an
`alloca` and passed on. -/
def formatted (conv : Convention) (mem : Stack) (fmt o : CString) :
    Except Fault CString := do
  let tmpLen ← aVsprintfFindLen conv fmt o mem
  let (_, buffer) ← vsnprintf conv o (mem.alloca tmpLen) tmpLen
  readString buffer

def freeText (text : Text) (st : WarnState) : WarnState :=
  match text with
  | (some errorStr, true) => { st with freed := st.freed ++ [errorStr] }
  | _ => st

/-- `msg` is the output of `fmt`. -/
def aWarnRealVargs (T : TextEnv) (conv : Convention) (mem : Stack)
    (place : Place) (errorMod : Option ErrorMod) (code : ErrorCode)
    (fmt msg : CString) (st : WarnState) : Except Fault WarnState := do
  let text ← errorText T errorMod code st.world
  let msg ← formatted conv mem fmt msg
  let info ← formatted conv mem placeFormat place.text
  let st ← match text.1 with
    | some errorStr =>
        if errorStr.bytes ≠ [] then
          aDiePrintfDefault withError [.str info, .str msg, .str errorStr] st
        else aDiePrintfDefault withoutError [.str info, .str msg] st
    | none => aDiePrintfDefault withoutError [.str info, .str msg] st
  return freeText text st

def aWarnReal (T : TextEnv) (conv : Convention) (mem : Stack)
    (place : Place) (errorMod : Option ErrorMod) (code : ErrorCode)
    (fmt msg : CString) (st : WarnState) : Except Fault WarnState :=
  aWarnRealVargs T conv mem place errorMod code fmt msg st

def aWarnRealGetcode (E : Env) (T : TextEnv) (conv : Convention)
    (mem : Stack) (place : Place) (errorMod : Option ErrorMod)
    (fmt msg : CString) (st : WarnState) : Except Fault WarnState :=
  let code := match errorMod with
    | none => .value 0
    | some mod => aErrorGetcode E mod st.world
  aWarnRealVargs T conv mem place errorMod code fmt msg st

def debugFormat : CString := ⟨ascii "%s %s\n", by decide⟩

/-- A `NULL` passed for `%s` is undefined. -/
def aDebugReal (E : Env) (conv : Convention) (mem : Stack) (place : Place)
    (fmt msg : CString) (st : WarnState) : Except Fault WarnState := do
  let (info, w) ← aVsprintfMalloc E conv placeFormat place.text mem st.world
  let (msg, w) ← aVsprintfMalloc E conv fmt msg mem w
  match info, msg with
  | some info, some msg =>
      let infoText ← readString info.bytes
      let msgText ← readString msg.bytes
      let st := vfprintf debugFormat [.str infoText, .str msgText]
        { st with world := w }
      return { st with
        world := Bytes.aFree (some msg) (Bytes.aFree (some info) st.world) }
  | _, _ => .error .nullPointer

/-- The calls, with the place they are made from, what lies on the stack, a
format and the output it yields. -/
inductive WarnOp where
  | error (op : ErrorOp)
  | malloc (size : ℕ)
  | warn (place : Place) (mem : Stack) (errorMod : Option ErrorMod)
      (fmt msg : CString)
  | warnCode (place : Place) (mem : Stack) (errorMod : Option ErrorMod)
      (code : ErrorCode) (fmt msg : CString)
  | debug (place : Place) (mem : Stack) (fmt msg : CString)

abbrev WarnConfig := Config WarnState WarnOp ErrorOut

def warnStep (E : Env) (T : TextEnv) (conv : Convention) (st : WarnState) :
    WarnOp → Except Fault (ErrorOut × WarnState)
  | .error op => do
      let (out, world) ← errorStep E st.world op
      return (out, { st with world := world })
  | .malloc size => do
      let (_, world) ← aMalloc E size st.world
      return (.done, { st with world := world })
  | .warn place mem errorMod fmt msg => do
      let st ← aWarnRealGetcode E T conv mem place errorMod fmt msg st
      return (.done, st)
  | .warnCode place mem errorMod code fmt msg => do
      let st ← aWarnReal T conv mem place errorMod code fmt msg st
      return (.done, st)
  | .debug place mem fmt msg => do
      let st ← aDebugReal E conv mem place fmt msg st
      return (.done, st)

/-- What a module other than the stack module answers. -/
def moduleText (T : TextEnv) : ErrorMod → ErrorCode → Text
  | .alib, code => valGet (T.word code)
  | .none, _ => lasting .nil
  | .perror, code => lasting (T.strerror ((T.word code).setWidth 32))
  | .stackAlloc, _ => lasting unableToAllocate
  | .stack, _ => lasting nullStack
  | .user id, code => userGet T id code

/-- The requests made, and the text of the newest report. -/
structure Newest where
  requests : ℕ
  text : Text

/-- A report under the stack module repeats the report before it, and one
whose node is refused is lost with all before it. -/
def Newest.report (E : Env) (T : TextEnv) (newest : Newest) (mod : ErrorMod)
    (code : ErrorCode) : Newest where
  requests := newest.requests + 1
  text :=
    if E.grants newest.requests sizeofErrorStack = false then
      lasting unableToAllocate
    else if mod = .stack then newest.text
    else moduleText T mod code

def Newest.requested (newest : Newest) (count : ℕ) : Newest :=
  { newest with requests := newest.requests + count }

/-- A refused request is a report of its own. -/
def newestStep (E : Env) (T : TextEnv) (newest : Newest) :
    WarnOp × ErrorOut → Newest
  | (.error (.report _ _ _ _), .reported (mod, code)) =>
      newest.report E T mod code
  | (.malloc size, _) =>
      if size = 0 then newest
      else if E.grants newest.requests size then newest.requested 1
      else (newest.requested 1).report E T .perror (.value enomem)
  | (.debug _ _ _ _, _) => newest.requested 2
  | _ => newest

def newest (E : Env) (T : TextEnv) (requests : ℕ)
    (transcript : List (WarnOp × ErrorOut)) : Newest :=
  transcript.foldl (newestStep E T) ⟨requests, lasting nullStack⟩

@[simp] theorem newest_append (E : Env) (T : TextEnv) (requests : ℕ)
    (transcript : List (WarnOp × ErrorOut)) (entry : WarnOp × ErrorOut) :
    newest E T requests (transcript ++ [entry]) =
      newestStep E T (newest E T requests transcript) entry := by
  simp [newest]

def errorPart (text : Text) : List Byte :=
  match text.1 with
  | some errorStr =>
      if errorStr.bytes ≠ [] then ascii ": " ++ errorStr.bytes else []
  | none => []

/-- One line of output. -/
def line (place : Place) (msg : CString) (text : Text) : List Byte :=
  place.text.bytes ++ ascii " " ++ msg.bytes ++ errorPart text ++ [newline]

def printed (place : Place) (msg : CString) (text : Text) (st : WarnState) :
    WarnState :=
  freeText text { st with stderr := st.stderr ++ line place msg text }

/-- The text that `a_warn` asks a module for. -/
def warnedText (E : Env) (T : TextEnv) (requests : ℕ) (config : WarnConfig) :
    Option ErrorMod → Text
  | none => (none, false)
  | some .none => (none, false)
  | some .stack => (newest E T requests config.transcript).text
  | some mod => moduleText T mod (aErrorGetcode E mod config.state.world)

/-- A warning is one line with its text, which is given back; a debugging
message is one without.  Reports print nothing. -/
def WarnStep (E : Env) (T : TextEnv) (requests : ℕ) (config : WarnConfig)
    (op : WarnOp) (after : WarnConfig) : Prop :=
  match op with
  | .error _ => after.state.stderr = config.state.stderr ∧
      after.state.freed = config.state.freed
  | .malloc _ => after.state.stderr = config.state.stderr ∧
      after.state.freed = config.state.freed
  | .warn place _ errorMod _ msg => after.state =
      printed place msg (warnedText E T requests config errorMod) config.state
  | .warnCode place _ errorMod code _ msg => ∀ text,
      errorText T errorMod code config.state.world = .ok text →
        after.state = printed place msg text config.state
  | .debug place _ _ msg =>
      after.state.stderr =
          config.state.stderr ++ line place msg (none, false) ∧
        after.state.freed = config.state.freed ∧
        after.state.world.globalErrorStack =
          config.state.world.globalErrorStack

/-- A format which is not empty, and an output whose length an `int` holds. -/
structure Formats (fmt o : CString) : Prop where
  fmt_ne : fmt.bytes ≠ []
  fmt_lt : fmt.length < 2 ^ 63
  lt : o.length < 2 ^ 31 - 1

structure Prints (place : Place) (fmt msg : CString) : Prop where
  message : Formats fmt msg
  place : place.text.length < 2 ^ 31 - 1

/-- What a report needs: a code to give, under the stack module that of the
stack itself, and a chain which can be released if the node is refused. -/
structure Reports (E : Env) (w : World) (mod : ErrorMod) (useGetcode : Bool)
    (start : Bool) : Prop where
  getcode : useGetcode = true → (Alib.getcode E mod).isSome
  stack : mod = .stack → useGetcode = true
  start : start = false
  refused : E.grants w.requests sizeofErrorStack = false →
    ErrorRelease.ReleasedOnce w

def Defined (E : Env) (T : TextEnv) (config : WarnConfig) : WarnOp → Prop
  | .error (.report mod useGetcode _ start) =>
      Reports E config.state.world mod useGetcode start
  | .error (.setErrno _) => True
  | .malloc size => size ≠ 0 →
      E.grants config.state.world.requests size = false →
        Reports E (malloc E size config.state.world).2 .perror true false
  | .warn place _ _ fmt msg => Prints place fmt msg
  | .warnCode place _ errorMod code fmt msg => Prints place fmt msg ∧
      ∃ text, errorText T errorMod code config.state.world = .ok text
  | .debug place _ fmt msg => Prints place fmt msg ∧
      E.grants config.state.world.requests (place.text.length + 1) = true ∧
      E.grants (config.state.world.requests + 1) (msg.length + 1) = true

section Texts

variable {T : TextEnv}

theorem aErrorStrerr_module {mod : ErrorMod} (hmod : mod ≠ .stack)
    (code : ErrorCode) (w : World) :
    aErrorStrerr T code mod w = .ok (moduleText T mod code) := by
  cases mod with
  | stack => exact absurd rfl hmod
  | alib => cases code <;> rfl
  | none => cases code <;> rfl
  | perror => cases code <;> rfl
  | stackAlloc => cases code <;> rfl
  | user id => cases code <;> rfl

/-- Nodes of the first world which are live are so in the second. -/
structure Extends (w w' : World) : Prop where
  requests : w.requests ≤ w'.requests
  released : ∀ a < w.requests, a ∈ w'.released → a ∈ w.released

theorem Extends.accessNode {w w' : World} (h : Extends w w') {addr : Addr}
    {u : Unit} (haccess : Alib.accessNode addr w = .ok u) :
    Alib.accessNode addr w' = .ok () := by
  rw [accessNode_eq_ok_iff] at haccess ⊢
  exact ⟨haccess.1.trans_le h.requests,
    fun hmem => haccess.2 (h.released addr haccess.1 hmem)⟩

mutual

theorem aErrorStrerr_extends (code : ErrorCode) (mod : ErrorMod)
    {w w' : World} (h : Extends w w') {text : Text}
    (htext : aErrorStrerr T code mod w = .ok text) :
    aErrorStrerr T code mod w' = .ok text := by
  by_cases hmod : mod = .stack
  · subst hmod
    cases code with
    | value code => exact htext
    | stack stack => exact stackGetstr_extends stack h htext
  · rw [aErrorStrerr_module hmod] at htext ⊢
    exact htext

theorem stackGetstr_extends (stack : ErrorStack) {w w' : World}
    (h : Extends w w') {text : Text}
    (htext : stackGetstr T stack w = .ok text) :
    stackGetstr T stack w' = .ok text := by
  cases stack with
  | null => exact htext
  | stackAllocError => exact htext
  | node addr mod code ptr =>
      rw [stackGetstr] at htext ⊢
      obtain ⟨_, haccess, hcode⟩ := bind_eq_ok_iff.mp htext
      rw [h.accessNode haccess, ok_bind]
      exact aErrorStrerr_extends code mod h hcode

end

end Texts

section Printing

variable {T : TextEnv} {place : Place} {fmt msg o : CString}
  {st : WarnState}

theorem Formats.guess (h : Formats fmt o) : sizeMul fmt.length 2 ≠ 0 := by
  have hpos : 0 < fmt.length := List.length_pos_iff.mpr h.fmt_ne
  have hlt := h.fmt_lt
  rw [sizeMul_of_lt (by omega)]
  omega

theorem placeFormat_formats (h : place.text.length < 2 ^ 31 - 1) :
    Formats placeFormat place.text :=
  ⟨by decide, by decide, h⟩

theorem formatted_eq (conv : Convention) (mem : Stack) (h : Formats fmt o) :
    formatted conv mem fmt o = .ok o := by
  have hfind : aVsprintfFindLen conv fmt o mem = .ok (o.length + 1) :=
    aVsprintfFindLen_guess conv h.lt h.guess
  have hformat := vsnprintf_of_room conv (Nat.lt_succ_self o.length)
    (le_length_alloca mem (o.length + 1))
  have hheld : Holds (o.stored ++
      (mem.alloca (o.length + 1)).drop (o.length + 1)) o := ⟨_, rfl⟩
  rw [formatted, hfind, ok_bind, hformat, ok_bind]
  exact hheld.readString

theorem aDiePrintf_withError (place : Place) (msg : CString)
    {errorStr : CString} (herror : errorStr.bytes ≠ []) (owned : Bool)
    (st : WarnState) :
    aDiePrintfDefault withError
        [.str place.text, .str msg, .str errorStr] st =
      .ok { st with
        stderr := st.stderr ++ line place msg (some errorStr, owned) } := by
  have hline : line place msg (some errorStr, owned) =
      place.text.bytes ++ 0x20#8 :: (msg.bytes ++ 0x3A#8 :: 0x20#8 ::
        (errorStr.bytes ++ [newline])) := by
    simp [line, errorPart, herror, ascii]
  rw [hline]
  rfl

theorem aDiePrintf_withoutError (place : Place) (msg : CString) (text : Text)
    (htext : errorPart text = []) (st : WarnState) :
    aDiePrintfDefault withoutError [.str place.text, .str msg] st =
      .ok { st with stderr := st.stderr ++ line place msg text } := by
  have hline : line place msg text =
      place.text.bytes ++ 0x20#8 :: (msg.bytes ++ [newline]) := by
    simp [line, htext, ascii]
  rw [hline]
  rfl

theorem aWarnRealVargs_eq (conv : Convention) (mem : Stack)
    {errorMod : Option ErrorMod} {code : ErrorCode} {text : Text}
    (h : Prints place fmt msg)
    (htext : errorText T errorMod code st.world = .ok text) :
    aWarnRealVargs T conv mem place errorMod code fmt msg st =
      .ok (printed place msg text st) := by
  have hinfo := formatted_eq conv mem (placeFormat_formats h.place)
  rw [aWarnRealVargs, htext, ok_bind, formatted_eq conv mem h.message,
    ok_bind, hinfo, ok_bind]
  rcases text with ⟨_ | errorStr, owned⟩
  · simp only [aDiePrintf_withoutError place msg (none, owned) rfl st,
      ok_bind, pure_eq_ok]
    rfl
  · by_cases herror : errorStr.bytes = []
    · have hnothing : errorPart (some errorStr, owned) = [] := by
        simp [errorPart, herror]
      simp only [ne_eq, herror, not_true_eq_false, if_false,
        aDiePrintf_withoutError place msg _ hnothing st, ok_bind, pure_eq_ok]
      rfl
    · simp only [ne_eq, herror, not_false_eq_true, if_true,
        aDiePrintf_withError place msg herror owned st, ok_bind, pure_eq_ok]
      rfl

theorem aVsprintfMalloc_eq {E : Env} {w : World} (conv : Convention)
    (mem : Stack) (h : Formats fmt o)
    (hgrant : E.grants w.requests (o.length + 1) = true) :
    aVsprintfMalloc E conv fmt o mem w =
      .ok (some ⟨w.requests, o.stored⟩,
        { w with requests := w.requests + 1 }) := by
  have hlt := h.lt
  have hnarrow : unsignedInt (o.length + 1) = o.length + 1 :=
    unsignedInt_of_lt (by omega)
  have hlength : (Bytes.freshBytes E w.requests (o.length + 1)).length =
      o.length + 1 := Bytes.freshBytes_length
  have hformat := vsnprintf_of_room conv (Nat.lt_succ_self o.length)
    hlength.ge
  rw [List.drop_of_length_le hlength.le, List.append_nil] at hformat
  have hnonneg : ¬ (o.length : ℤ) < 0 := by omega
  rw [aVsprintfMalloc, aVsprintfFindLen_guess conv hlt h.guess, ok_bind]
  simp only [hnarrow,
    Bytes.aMalloc_of_grants (Nat.succ_ne_zero _) hgrant, ok_bind, hformat,
    if_neg hnonneg, pure_eq_ok]

/-- The world after both buffers of a debugging message were released. -/
def debuggedWorld (w : World) : World :=
  { w with
    requests := w.requests + 2
    released := w.released ++ [w.requests] ++ [w.requests + 1] }

theorem aDebugReal_eq {E : Env} (conv : Convention) (mem : Stack)
    (st : WarnState) (h : Prints place fmt msg)
    (hinfo : E.grants st.world.requests (place.text.length + 1) = true)
    (hmsg : E.grants (st.world.requests + 1) (msg.length + 1) = true) :
    aDebugReal E conv mem place fmt msg st =
      .ok { st with
        world := debuggedWorld st.world
        stderr := st.stderr ++ line place msg (none, false) } := by
  have hfirst := aVsprintfMalloc_eq (w := st.world) conv mem
    (placeFormat_formats h.place) hinfo
  have hsecond := aVsprintfMalloc_eq
    (w := { st.world with requests := st.world.requests + 1 }) conv mem
    h.message hmsg
  have hline : line place msg (none, false) =
      place.text.bytes ++ 0x20#8 :: (msg.bytes ++ [newline]) := by
    simp [line, errorPart, ascii]
  rw [aDebugReal, hfirst, ok_bind]
  simp only [hsecond, ok_bind, (holds_stored place.text).readString,
    (holds_stored msg).readString, pure_eq_ok, hline]
  rfl

end Printing

section Runs

variable {E : Env} {T : TextEnv} {conv : Convention} {n : ℕ}

/-- The stack module answers with the text of the newest report. -/
structure Shows (T : TextEnv) (w : World) (newest : Newest) : Prop where
  shown : stackGetstr T w.globalErrorStack w = .ok newest.text
  requests : w.requests = newest.requests
  released : ∀ a ∈ w.released, a < w.requests

def WarnInv (E : Env) (T : TextEnv) (n : ℕ) (config : WarnConfig) : Prop :=
  Shows T config.state.world (newest E T n config.transcript)

section Reporting

variable {w : World} {before : Newest}

theorem Shows.errno (h : Shows T w before) (errno : Ptr) :
    Shows T { w with errno := errno } before := by
  have hextends : Extends w { w with errno := errno } :=
    ⟨le_rfl, fun _ _ hmem => hmem⟩
  exact ⟨stackGetstr_extends _ hextends h.shown, h.requests, h.released⟩

theorem Shows.requested (h : Shows T w before) :
    Shows T { w with requests := w.requests + 1 } (before.requested 1) := by
  have hextends : Extends w { w with requests := w.requests + 1 } :=
    ⟨Nat.le_succ _, fun _ _ hmem => hmem⟩
  refine ⟨stackGetstr_extends _ hextends h.shown, ?_,
    fun a ha => Nat.lt_succ_of_lt (h.released a ha)⟩
  rw [Newest.requested, ← h.requests]

theorem Shows.pushed (h : Shows T w before) {mod : ErrorMod}
    {code : ErrorCode} {text : Text}
    (htext : aErrorStrerr T code mod w = .ok text) :
    Shows T (pushedWorld mod code w.globalErrorStack w)
      ⟨before.requests + 1, text⟩ := by
  have hfresh : w.requests ∉ w.released :=
    fun hmem => lt_irrefl _ (h.released _ hmem)
  have haccess : accessNode w.requests
      (pushedWorld mod code w.globalErrorStack w) = .ok () :=
    accessNode_eq_ok_iff.mpr ⟨Nat.lt_succ_self _, hfresh⟩
  have hextends : Extends w (pushedWorld mod code w.globalErrorStack w) :=
    ⟨Nat.le_succ _, fun _ _ hmem => hmem⟩
  refine ⟨?_, ?_, fun a ha => Nat.lt_succ_of_lt (h.released a ha)⟩
  · change (do
      accessNode w.requests (pushedWorld mod code w.globalErrorStack w)
      aErrorStrerr T code mod (pushedWorld mod code w.globalErrorStack w)) = _
    rw [haccess, ok_bind]
    exact aErrorStrerr_extends code mod hextends htext
  · rw [← h.requests]
    rfl

theorem Shows.refused (h : Shows T w before)
    (hreleased : ErrorRelease.ReleasedOnce w) :
    Shows T (ErrorRelease.refusedWorld w)
      ⟨before.requests + 1, lasting unableToAllocate⟩ := by
  obtain ⟨_, hlive⟩ := ErrorRelease.releasedOnce_iff.mp hreleased
  refine ⟨rfl, ?_, ?_⟩
  · rw [← h.requests]
    rfl
  · intro a ha
    have hmem : a ∈ (aErrorStackFree w.globalErrorStack w).released := ha
    rcases mem_aErrorStackFree.mp hmem with hold | hreach
    · exact Nat.lt_succ_of_lt (h.released a hold)
    · exact Nat.lt_succ_of_lt (hlive a hreach).1

theorem Shows.reported_text (h : Shows T w before) {mod : ErrorMod}
    {useGetcode : Bool} (code : ErrorCode)
    (hstack : mod = .stack → useGetcode = true) :
    aErrorStrerr T (reportedEntry E mod useGetcode code w).2 mod w =
      .ok (if mod = .stack then before.text
        else moduleText T mod (reportedEntry E mod useGetcode code w).2) := by
  by_cases hmod : mod = .stack
  · subst hmod
    rw [hstack rfl, if_pos rfl]
    exact h.shown
  · rw [if_neg hmod]
    exact aErrorStrerr_module hmod _ _

/-- A report leaves the text of its node, or of the static node, on top. -/
theorem Shows.report (h : Shows T w before) {mod : ErrorMod}
    {useGetcode : Bool} (code : ErrorCode)
    (hdefined : Reports E w mod useGetcode false) :
    ∃ after, aErrorStackMacroHelper E mod useGetcode code false w =
        .ok after ∧
      Shows T after
        (before.report E T mod (reportedEntry E mod useGetcode code w).2) := by
  have hpush := @ErrorRelease.push_cases E mod useGetcode code w
    hdefined.getcode
  cases hgrant : E.grants w.requests sizeofErrorStack with
  | true =>
      rw [hgrant, if_pos rfl] at hpush
      refine ⟨_, hpush, ?_⟩
      rw [Newest.report, ← h.requests, hgrant, h.requests]
      exact h.pushed (h.reported_text code hdefined.stack)
  | false =>
      rw [hgrant] at hpush
      refine ⟨_, hpush, ?_⟩
      rw [Newest.report, ← h.requests, hgrant, h.requests]
      exact h.refused (hdefined.refused hgrant)

theorem Shows.malloc (h : Shows T w before) {size : ℕ}
    (hdefined : size ≠ 0 → E.grants w.requests size = false →
      Reports E (Alib.malloc E size w).2 .perror true false) :
    ∃ out after, aMalloc E size w = .ok (out, after) ∧
      Shows T after (newestStep E T before (.malloc size, .done)) := by
  by_cases hsize : size = 0
  · subst hsize
    exact ⟨none, w, rfl, h⟩
  · rw [newestStep, if_neg hsize, ← h.requests]
    cases hgrant : E.grants w.requests size with
    | true =>
        refine ⟨some w.requests, { w with requests := w.requests + 1 }, ?_,
          h.requested⟩
        simp [aMalloc, hsize, Alib.malloc, hgrant]
    | false =>
        have hrefused := hdefined hsize hgrant
        have hmalloc : Alib.malloc E size w = (none, { w with
            requests := w.requests + 1
            errno := enomem }) := by
          simp [Alib.malloc, hgrant]
        rw [hmalloc] at hrefused
        obtain ⟨after, hreport, hshows⟩ :=
          (h.requested.errno enomem).report (.value 0) hrefused
        refine ⟨none, after, ?_, hshows⟩
        rw [aMalloc, if_neg hsize, hmalloc]
        simp only [aError, hreport, ok_bind, pure_eq_ok]

theorem Shows.debugged (h : Shows T w before) :
    Shows T (debuggedWorld w) (before.requested 2) := by
  have hextends : Extends w (debuggedWorld w) := by
    refine ⟨Nat.le_add_right _ 2, fun a hlt hmem => ?_⟩
    simp only [debuggedWorld, List.mem_append, List.mem_singleton] at hmem
    rcases hmem with (hold | hinfo) | hmsg
    · exact hold
    · exact absurd hinfo hlt.ne
    · exact absurd hmsg (hlt.trans (Nat.lt_succ_self _)).ne
  refine ⟨stackGetstr_extends _ hextends h.shown, ?_, ?_⟩
  · rw [Newest.requested, ← h.requests]
    rfl
  · intro a ha
    simp only [debuggedWorld, List.mem_append, List.mem_singleton] at ha ⊢
    rcases ha with (hold | hinfo) | hmsg
    · exact (h.released a hold).trans_le (Nat.le_add_right _ 2)
    · exact hinfo ▸ Nat.lt_add_of_pos_right Nat.two_pos
    · exact hmsg ▸ Nat.lt_succ_self _

end Reporting

theorem warn_text {config : WarnConfig} (hinv : WarnInv E T n config)
    (errorMod : Option ErrorMod) :
    errorText T errorMod
        (match errorMod with
        | none => .value 0
        | some mod => aErrorGetcode E mod config.state.world)
        config.state.world =
      .ok (warnedText E T n config errorMod) := by
  cases errorMod with
  | none => rfl
  | some mod =>
      cases mod with
      | none => rfl
      | stack => exact hinv.shown
      | alib => exact aErrorStrerr_module ErrorMod.noConfusion _ _
      | perror => exact aErrorStrerr_module ErrorMod.noConfusion _ _
      | stackAlloc => exact aErrorStrerr_module ErrorMod.noConfusion _ _
      | user id => exact aErrorStrerr_module ErrorMod.noConfusion _ _

theorem freeText_world (text : Text) (st : WarnState) :
    (freeText text st).world = st.world := by
  unfold freeText
  split <;> rfl

/-- A warning leaves the world as it is. -/
theorem WarnInv.printed {config : WarnConfig} (hinv : WarnInv E T n config)
    (place : Place) (msg : CString) (text : Text) {op : WarnOp}
    (hop : ∀ newest, newestStep E T newest (op, .done) = newest) :
    WarnInv E T n ⟨Warn.printed place msg text config.state,
      config.transcript ++ [(op, .done)]⟩ := by
  have hworld : (Warn.printed place msg text config.state).world =
      config.state.world := freeText_world _ _
  rw [WarnInv, newest_append, hop, hworld]
  exact hinv

theorem warn_step {config : WarnConfig} (op : WarnOp)
    (hinv : WarnInv E T n config) (hdefined : Defined E T config op) :
    ∃ after, config.step (warnStep E T conv) op = .ok after ∧
      WarnStep E T n config op after ∧ WarnInv E T n after := by
  cases op with
  | error op =>
      cases op with
      | report mod useGetcode code start =>
          have hstart : start = false := hdefined.start
          subst hstart
          obtain ⟨after, hreport, hshows⟩ := hinv.report code hdefined
          have hstep : warnStep E T conv config.state
              (.error (.report mod useGetcode code false)) =
              .ok (.reported (reportedEntry E mod useGetcode code
                config.state.world), { config.state with
                  world := after }) := by
            simp only [warnStep, errorStep, hreport, ok_bind, pure_eq_ok]
          refine ⟨_, Config.step_of_ok hstep, ⟨rfl, rfl⟩, ?_⟩
          rw [WarnInv, newest_append]
          exact hshows
      | setErrno errno =>
          have hstep : warnStep E T conv config.state
              (.error (.setErrno errno)) = .ok (.done, { config.state with
                world := { config.state.world with errno := errno } }) := rfl
          refine ⟨_, Config.step_of_ok hstep, ⟨rfl, rfl⟩, ?_⟩
          rw [WarnInv, newest_append]
          exact hinv.errno errno
  | malloc size =>
      obtain ⟨out, after, hmalloc, hshows⟩ := hinv.malloc hdefined
      have hstep : warnStep E T conv config.state (.malloc size) =
          .ok (.done, { config.state with world := after }) := by
        simp only [warnStep, hmalloc, ok_bind, pure_eq_ok]
      refine ⟨_, Config.step_of_ok hstep, ⟨rfl, rfl⟩, ?_⟩
      rw [WarnInv, newest_append]
      exact hshows
  | warn place mem errorMod fmt msg =>
      have hcall := aWarnRealVargs_eq conv mem hdefined
        (warn_text hinv errorMod)
      have hstep : warnStep E T conv config.state
          (.warn place mem errorMod fmt msg) = .ok (.done,
            printed place msg (warnedText E T n config errorMod)
              config.state) := by
        simp only [warnStep, aWarnRealGetcode, hcall, ok_bind, pure_eq_ok]
      exact ⟨_, Config.step_of_ok hstep, rfl,
        hinv.printed place msg _ fun _ => rfl⟩
  | warnCode place mem errorMod code fmt msg =>
      rcases hdefined with ⟨hprints, text, htext⟩
      have hcall := aWarnRealVargs_eq conv mem hprints htext
      have hstep : warnStep E T conv config.state
          (.warnCode place mem errorMod code fmt msg) = .ok (.done,
            printed place msg text config.state) := by
        simp only [warnStep, aWarnReal, hcall, ok_bind, pure_eq_ok]
      refine ⟨_, Config.step_of_ok hstep, ?_,
        hinv.printed place msg text fun _ => rfl⟩
      intro other hother
      rw [htext] at hother
      cases hother
      rfl
  | debug place mem fmt msg =>
      rcases hdefined with ⟨hprints, hinfo, hmsg⟩
      have hcall := aDebugReal_eq conv mem config.state hprints hinfo hmsg
      have hstep : warnStep E T conv config.state
          (.debug place mem fmt msg) = .ok (.done, { config.state with
            world := debuggedWorld config.state.world
            stderr := config.state.stderr ++
              line place msg (none, false) }) := by
        simp only [warnStep, hcall, ok_bind, pure_eq_ok]
      refine ⟨_, Config.step_of_ok hstep, ⟨rfl, rfl, rfl⟩, ?_⟩
      rw [WarnInv, newest_append]
      exact hinv.debugged

/-- Over every run of defined calls, whichever nodes and requests are refused,
`a_warn` under the stack module prints the text of the newest report, and
under another one what that module answers. -/
theorem a_warn_prints_newest {w : World} (hempty : w.globalErrorStack = .null)
    (hreleased : ∀ a ∈ w.released, a < w.requests) (stderr : List Byte)
    (freed : List CString) {ops : List WarnOp}
    (hdefined : Meets (warnStep E T conv) (Defined E T)
      (Config.initial ⟨w, stderr, freed⟩) ops) :
    Keeps (warnStep E T conv) (WarnStep E T w.requests)
      (Config.initial ⟨w, stderr, freed⟩) ops := by
  have hinit : WarnInv E T w.requests
      (Config.initial ⟨w, stderr, freed⟩) := by
    refine ⟨?_, rfl, hreleased⟩
    rw [Config.initial_state, hempty]
    rfl
  exact keeps_of_meets (fun config op => warn_step op) hinit hdefined

/-- Every code of `errno` has one text. -/
def plainTexts : TextEnv where
  strerror := fun _ => letter
  userGetstr := fun _ => none
  address := fun addr => BitVec.ofNat 64 (16 * addr)
  stackAllocError := 8

def letterPlace : Place := ⟨letter, 7, letter⟩

theorem letter_prints : Prints letterPlace letter letter :=
  ⟨⟨by decide, by decide, by decide⟩, by decide⟩

/-- An allocator which refuses what is large. -/
def smallOnly : Env where
  grants := fun _ size => size < 100
  garbage := fun _ _ => 0
  userGetcode := fun _ => none

/-- The reason of a refused request, looked for through `a_error(stack)`. -/
theorem a_warn_prints_newest_refused :
    Keeps (warnStep smallOnly plainTexts .preC99)
      (WarnStep smallOnly plainTexts emptyWorld.requests)
      (Config.initial ⟨emptyWorld, [], []⟩)
      [.malloc 100, .error (.report .stack true (.value 0) false),
        .warn letterPlace bareStack (some .stack) letter letter,
        .debug letterPlace bareStack letter letter] := by
  have hreleased : ∀ a ∈ emptyWorld.released, a < emptyWorld.requests := by
    simp [emptyWorld]
  have hreports : ∀ w mod, (Alib.getcode smallOnly mod).isSome →
      Reports smallOnly w mod true false := by
    intro w mod hcode
    refine ⟨fun _ => hcode, fun _ => rfl, rfl, fun hrefused => ?_⟩
    exact absurd (hrefused : true = false) Bool.noConfusion
  refine a_warn_prints_newest (w := emptyWorld) rfl hreleased [] [] ?_
  refine meets_of_forall (fun op hop config => ?_) _
  fin_cases hop
  · exact fun _ _ => hreports _ _ rfl
  · exact hreports _ _ rfl
  · exact letter_prints
  · exact ⟨letter_prints, rfl, rfl⟩

example : (newest smallOnly plainTexts 0
    [(.malloc 100, .done)]).text = lasting letter := by rfl

end Runs

end Warn
end Alib
