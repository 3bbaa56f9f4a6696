import Alib.Hex
import Alib.Buffers
import Alib.Flail

/-!
# Reading a whole file

`read_file` of `buffers.c` opens a file, reads it with `read_buf`, closes it
and leaves through `flail` when one of these fails.  An opened file gets the
lowest descriptor that is not open.  The option `f` of `flail` takes the next
argument, which is the zero in front of the descriptor: a file that cannot be
read stays open and descriptor 0 is closed instead.
-/

namespace Alib
namespace ReadFile

open Descriptor Execution Buffers Flail

theorem exists_free (fds : Finset ℤ) : ∃ n : ℕ, (n : ℤ) ∉ fds := by
  obtain ⟨n, hn⟩ := Infinite.exists_notMem_finset (fds.image Int.toNat)
  refine ⟨n, fun hmem => hn ?_⟩
  exact Finset.mem_image.mpr ⟨n, hmem, Int.toNat_natCast n⟩

def lowestFree (fds : Finset ℤ) : ℕ := Nat.find (exists_free fds)

/-- How one call finds the file system: the file cannot be opened, or this is
what can be read from it; closing it may report an error. -/
structure FileCall where
  file : Option (Source Byte)
  closeFails : Bool

/-- The content and its NUL can be counted by an `int`. -/
def FileCall.Short (call : FileCall) : Prop :=
  ∀ source, call.file = some source → source.pending.length + 1 < 2 ^ 31

/-- `open(filename, O_RDONLY)` -/
def openFile (call : FileCall) (p : Process) :
    Option (ℤ × Source Byte) × Process :=
  match call.file with
  | none => (none, p)
  | some source =>
      (some (lowestFree p.fds, source),
        { p with fds := insert (lowestFree p.fds : ℤ) p.fds })

def couldNotOpen : CString :=
  ⟨ascii "r;[read_file] could not open file %s", by decide⟩

def couldNotRead : CString :=
  ⟨ascii "rf;[read_file] could not read file %s", by decide⟩

def errorClosing : CString :=
  ⟨ascii "mr;[read_file] error closing file %s", by decide⟩

/-- The file, an `int` converted to a pointer, or the end of the process. -/
inductive FileOut where
  | file (block : ByteBlock)
  | pointer (value : ℤ)
  | exited (value : ℤ)

def flailOut (s : Sutil) (format : CString) (args : List Arg) (p : Process) :
    Except Fault (FileOut × Process) := do
  let (result, p) ← flail s p.world.errno.toInt format args p
  match result with
  | .returned value => return (.pointer value, p)
  | .exited value => return (.exited value, p)

/-- An error of `close` does not keep the descriptor open. -/
def readFile (E : Env) (s : Sutil) (filename : CString) (call : FileCall)
    (p : Process) : Except Fault (FileOut × Process) :=
  match openFile call p with
  | (none, p) => flailOut s couldNotOpen [.int 0, .str filename] p
  | (some (fd, source), p) => do
      let (file, _, w) ← readBuf E source p.world
      let p := { p with world := w }
      match file with
      | none => flailOut s couldNotRead [.int 0, .int fd, .str filename] p
      | some file =>
          let p := close fd p
          if call.closeFails then
            flailOut s errorClosing
              [.ptr file.addr, .int 0, .str filename] p
          else return (.file file, p)

section Calls

variable {E : Env} {s : Sutil} {p : Process} {filename : CString}
  {call : FileCall}

theorem lowestFree_not_mem (fds : Finset ℤ) : (lowestFree fds : ℤ) ∉ fds :=
  Nat.find_spec (exists_free fds)

theorem lowestFree_eq_zero {fds : Finset ℤ} (h : (0 : ℤ) ∉ fds) :
    lowestFree fds = 0 :=
  (Nat.find_eq_zero _).mpr (by exact_mod_cast h)

/-- Only blocks that were obtained have been released. -/
def Obtained (w : World) : Prop := ∀ addr ∈ w.released, addr < w.requests

theorem obtained_withReleased {w : World} {blocks : List Addr}
    (h : Obtained w) (hblocks : ∀ addr ∈ blocks, addr < w.requests) :
    Obtained (withReleased w blocks) := by
  intro addr haddr
  rcases List.mem_append.mp haddr with hold | hnew
  · exact h addr hold
  · exact hblocks addr hnew

theorem obtained_of_readEnds {pieces : List (List Byte) × Bool × Source Byte}
    {w after : World} {out : Option ByteBlock} {source : Source Byte}
    (h : Obtained w) (hends : ReadEnds E none [] pieces w out source after) :
    Obtained after := by
  intro addr haddr
  by_cases hready : AllGranted E w.requests 0 pieces.1 ∧ pieces.2.1 = false
  · obtain ⟨_, _, _, _, hreleased, _, hrequests⟩ :=
      hends.filled hready.1 hready.2
    rw [hreleased] at haddr
    exact Nat.lt_of_lt_of_le (h addr haddr) (by omega)
  · obtain ⟨_, held, _, hreleased, hrequests⟩ := hends.failed hready
    rw [hreleased] at haddr
    rcases List.mem_append.mp haddr with hold | hnew
    · exact Nat.lt_of_lt_of_le (h addr hold) (by omega)
    · rw [heldBlock] at hnew
      split at hnew
      next => cases hnew
      next hpos =>
        rw [List.mem_singleton.mp hnew]
        exact Nat.lt_of_lt_of_le (m := w.requests + held) (by omega)
          (by omega)

/-- Reading fails or runs out of memory. -/
def ReadFails (E : Env) (source : Source Byte) (w : World) : Prop :=
  ¬ (AllGranted E w.requests 0 (source.drain tmpbufSize).1 ∧
    (source.drain tmpbufSize).2.1 = false)

theorem flailOut_of_parses {format : CString} {args rest : List Arg}
    {actions : List Action} {text : List Byte}
    (hparses : Parses format args actions text rest)
    (hfrees : Frees p.world actions)
    (hsilent : actions.any Action.isOutput = false)
    (hexit : actions.any Action.isExit = false)
    (hvalue : actions.filterMap Action.value = []) :
    ∃ after, flailOut s format args p = .ok (.pointer 0, after) ∧
      (∀ fd, fd ∈ after.fds ↔
        fd ∈ p.fds ∧ fd ∉ actions.filterMap Action.closed) ∧
      after.world =
        withReleased p.world (actions.filterMap Action.freed) := by
  have hshows : Shows s p.world.errno.toInt actions := by
    intro houtput
    rw [hsilent] at houtput
    cases houtput
  obtain ⟨result, after, hcall, hdoes⟩ := @flail_of_parses s
    p.world.errno.toInt args p format actions text rest hparses hfrees hshows
  have hresult : result = .returned 0 := by
    rw [hdoes.result, hexit, lastOf, hvalue]
    simp
  subst hresult
  refine ⟨after, ?_, hdoes.fds, hdoes.world⟩
  simp only [flailOut, hcall, ok_bind, pure_eq_ok]

/-- What a call returns and what becomes of the descriptors and the block, for
each of the ways it can end. -/
structure Returns (E : Env) (p : Process) (call : FileCall) (out : FileOut)
    (after : Process) : Prop where
  refused : call.file = none → out = .pointer 0 ∧ after.fds = p.fds ∧
    after.world = p.world
  unread : ∀ source, call.file = some source → ReadFails E source p.world →
    out = .pointer 0 ∧
      after.fds = (insert (lowestFree p.fds : ℤ) p.fds).erase 0 ∧
      ∃ held, after.world.released =
        p.world.released ++ heldBlock none p.world.requests held
  read : ∀ source, call.file = some source → ¬ ReadFails E source p.world →
    after.fds = p.fds ∧ ∃ block : ByteBlock,
      block.bytes = (source.drain tmpbufSize).1.flatten ++ [0#8] ∧
      if call.closeFails then
        out = .pointer 0 ∧
          after.world.released = p.world.released ++ [block.addr]
      else out = .file block ∧ after.world.released = p.world.released

theorem readFile_refused (hfile : call.file = none) :
    ∃ after, readFile E s filename call p = .ok (.pointer 0, after) ∧
      after.fds = p.fds ∧ after.world = p.world := by
  have hparses : Parses couldNotOpen [.int 0, .str filename] [.doReturn]
      (ascii "[read_file] could not open file %s" ++ [0#8])
      [.int 0, .str filename] :=
    ⟨by simp [Action.WellFormed], by decide, rfl⟩
  have hfrees : Frees p.world [.doReturn] := frees_of_none rfl
  obtain ⟨after, hcall, hfds, hworld⟩ :=
    @flailOut_of_parses s p _ _ _ _ _ hparses hfrees rfl rfl rfl
  have hopen : openFile call p = (none, p) := by simp [openFile, hfile]
  refine ⟨after, by rw [readFile, hopen]; exact hcall, ?_, ?_⟩
  · ext fd
    rw [hfds]
    simp [Action.closed]
  · have hnone : [Action.doReturn].filterMap Action.freed = [] := rfl
    rw [hworld, hnone, withReleased, List.append_nil]

theorem readBuf_ends {source : Source Byte} (hshort : call.Short)
    (hfile : call.file = some source) :
    ∃ out last w, readBuf E source p.world = .ok (out, last, w) ∧
      ReadEnds E none [] (source.drain tmpbufSize) p.world out last w := by
  have hlength := hshort source hfile
  obtain ⟨out, last, w, hread, hends⟩ := @readBufLoop_ends E source p.world
    (source.pending.length + 1) none [] (Nat.lt_succ_self _)
    (by rw [List.length_nil]; omega) rfl
  rw [← readBuf_eq] at hread
  exact ⟨out, last, w, hread, hends⟩

theorem readFile_unread {source : Source Byte} (hshort : call.Short)
    (hobtained : Obtained p.world) (hfile : call.file = some source)
    (hfails : ReadFails E source p.world) :
    ∃ after, readFile E s filename call p = .ok (.pointer 0, after) ∧
      after.fds = (insert (lowestFree p.fds : ℤ) p.fds).erase 0 ∧
      (∃ held, after.world.released =
        p.world.released ++ heldBlock none p.world.requests held) ∧
      Obtained after.world := by
  obtain ⟨out, last, w, hread, hends⟩ :=
    @readBuf_ends E p call source hshort hfile
  obtain ⟨rfl, held, _, hreleased, _⟩ := hends.failed hfails
  let opened : Process := { p with
    fds := insert (lowestFree p.fds : ℤ) p.fds
    world := w }
  have hparses : Parses couldNotRead
      [.int 0, .int (lowestFree p.fds), .str filename]
      [.doReturn, .closeFd 0]
      (ascii "[read_file] could not read file %s" ++ [0#8])
      [.int (lowestFree p.fds), .str filename] :=
    ⟨by simp [Action.WellFormed], by decide, rfl⟩
  have hfrees : Frees opened.world [.doReturn, .closeFd 0] :=
    frees_of_none rfl
  obtain ⟨after, hcall, hfds, hworld⟩ :=
    @flailOut_of_parses s opened _ _ _ _ _ hparses hfrees rfl rfl rfl
  have hsame : after.world = w := by
    have hnone : [Action.doReturn, .closeFd 0].filterMap Action.freed = [] :=
      rfl
    rw [hworld, hnone, withReleased, List.append_nil]
  refine ⟨after, ?_, ?_, ⟨held, ?_⟩, ?_⟩
  · simp only [readFile, openFile, hfile, hread, ok_bind]
    exact hcall
  · ext fd
    rw [hfds, Finset.mem_erase]
    simp [Action.closed, opened, and_comm, @eq_comm ℤ 0 fd]
  · rw [hsame]
    exact hreleased
  · rw [hsame]
    exact obtained_of_readEnds hobtained hends

theorem readFile_read {source : Source Byte} (hshort : call.Short)
    (hobtained : Obtained p.world) (hfile : call.file = some source)
    (hread : ¬ ReadFails E source p.world) :
    ∃ out after, readFile E s filename call p = .ok (out, after) ∧
      after.fds = p.fds ∧ (∃ block : ByteBlock,
        block.bytes = (source.drain tmpbufSize).1.flatten ++ [0#8] ∧
        if call.closeFails then
          out = .pointer 0 ∧
            after.world.released = p.world.released ++ [block.addr]
        else out = .file block ∧
          after.world.released = p.world.released) ∧
      Obtained after.world := by
  have hready := not_not.mp hread
  obtain ⟨out, last, w, hcall, hends⟩ :=
    @readBuf_ends E p call source hshort hfile
  obtain ⟨block, rfl, hbytes, _, hreleased, haddr, hrequests⟩ :=
    hends.filled hready.1 hready.2
  have hafter : Obtained w := obtained_of_readEnds hobtained hends
  let closed : Process := { p with
    fds := (insert (lowestFree p.fds : ℤ) p.fds).erase (lowestFree p.fds)
    world := w }
  have hclosed : closed.fds = p.fds :=
    Finset.erase_insert (lowestFree_not_mem p.fds)
  cases hfails : call.closeFails with
  | false =>
      refine ⟨.file block, closed, ?_, hclosed, ⟨block, hbytes, ?_⟩, hafter⟩
      · simp only [readFile, openFile, hfile, hcall, ok_bind, hfails]
        rfl
      · exact ⟨rfl, hreleased⟩
  | true =>
      have hparses : Parses errorClosing
          [.ptr block.addr, .int 0, .str filename]
          [.freeMemory block.addr, .doReturn]
          (ascii "[read_file] error closing file %s" ++ [0#8])
          [.int 0, .str filename] :=
        ⟨by simp [Action.WellFormed], rfl, rfl⟩
      -- the block was obtained by this call, so it was not released before
      have hlive : block.addr < w.requests ∧ block.addr ∉ w.released := by
        rw [haddr, hrequests, hreleased]
        refine ⟨Nat.lt_succ_self _, fun hmem => ?_⟩
        exact absurd (hobtained _ hmem)
          (Nat.not_lt.mpr (Nat.le_add_right _ _))
      have hfrees : Frees closed.world
          [.freeMemory block.addr, .doReturn] := frees_of_single rfl hlive
      obtain ⟨after, hflail, hfds, hworld⟩ :=
        @flailOut_of_parses s closed _ _ _ _ _ hparses hfrees rfl rfl rfl
      refine ⟨.pointer 0, after, ?_, ?_, ⟨block, hbytes, rfl, ?_⟩, ?_⟩
      · simp only [readFile, openFile, hfile, hcall, ok_bind, hfails, if_true]
        exact hflail
      · rw [← hclosed]
        ext fd
        rw [hfds]
        simp [Action.closed]
      · rw [hworld, ← hreleased]
        simp [Action.freed, closed, withReleased]
      · rw [hworld]
        exact obtained_withReleased hafter
          (fun addr haddr => (hfrees.live addr haddr).1)

theorem readFile_returns (E : Env) (s : Sutil) (filename : CString)
    (hshort : call.Short) (hobtained : Obtained p.world) :
    ∃ out after, readFile E s filename call p = .ok (out, after) ∧
      Returns E p call out after ∧ Obtained after.world := by
  cases hfile : call.file with
  | none =>
      obtain ⟨after, hcall, hfds, hworld⟩ :=
        @readFile_refused E s p filename call hfile
      refine ⟨_, after, hcall, ⟨fun _ => ⟨rfl, hfds, hworld⟩, ?_, ?_⟩,
        hworld ▸ hobtained⟩
      · intro source hsome
        rw [hfile] at hsome
        cases hsome
      · intro source hsome
        rw [hfile] at hsome
        cases hsome
  | some source =>
      have hunique : ∀ other, call.file = some other → other = source := by
        intro other hother
        rw [hfile] at hother
        exact (Option.some.inj hother).symm
      have hnone : call.file ≠ none := by
        rw [hfile]
        exact Option.some_ne_none source
      by_cases hfails : ReadFails E source p.world
      · obtain ⟨after, hcall, hfds, hheld, hafter⟩ :=
          @readFile_unread E s p filename call source hshort hobtained hfile
            hfails
        refine ⟨_, after, hcall, ⟨fun h => absurd h hnone, ?_, ?_⟩, hafter⟩
        · intro other _ _
          exact ⟨rfl, hfds, hheld⟩
        · intro other hother hread
          rw [hunique other hother] at hread
          exact absurd hfails hread
      · obtain ⟨out, after, hcall, hfds, hblock, hafter⟩ :=
          @readFile_read E s p filename call source hshort hobtained hfile
            hfails
        refine ⟨out, after, hcall, ⟨fun h => absurd h hnone, ?_, ?_⟩, hafter⟩
        · intro other hother hread
          rw [hunique other hother] at hread
          exact absurd hread hfails
        · intro other hother _
          rw [hunique other hother]
          exact ⟨hfds, hblock⟩

end Calls

section Runs

variable {E : Env} {s : Sutil} {p : Process}

abbrev FileConfig := Config Process (CString × FileCall) FileOut

def fileStep (E : Env) (s : Sutil) (p : Process) (op : CString × FileCall) :
    Except Fault (FileOut × Process) :=
  readFile E s op.1 op.2 p

def CallReturns (E : Env) (config : FileConfig) (op : CString × FileCall)
    (after : FileConfig) : Prop :=
  ∃ out, after.transcript = config.transcript ++ [(op, out)] ∧
    Returns E config.state op.2 out after.state

/-- The descriptors are those at the start, or instead of descriptor 0 the
lowest one that was not open then. -/
def AtMostOne (initial fds : Finset ℤ) : Prop :=
  fds = initial ∨
    (0 : ℤ) ∈ initial ∧
      fds = insert (lowestFree initial : ℤ) (initial.erase 0)

theorem lowestFree_ne_zero {fds : Finset ℤ} (h : (0 : ℤ) ∈ fds) :
    (lowestFree fds : ℤ) ≠ 0 := by
  intro heq
  apply lowestFree_not_mem fds
  rw [heq]
  exact h

theorem erase_opened {fds : Finset ℤ} (h : (0 : ℤ) ∉ fds) :
    (insert (lowestFree fds : ℤ) fds).erase 0 = fds := by
  rw [lowestFree_eq_zero h]
  exact Finset.erase_insert h

theorem AtMostOne.unread {initial fds : Finset ℤ}
    (h : AtMostOne initial fds) :
    AtMostOne initial ((insert (lowestFree fds : ℤ) fds).erase 0) := by
  rcases h with rfl | ⟨hzero, rfl⟩
  · by_cases hzero : (0 : ℤ) ∈ fds
    · right
      exact ⟨hzero, Finset.erase_insert_of_ne (lowestFree_ne_zero hzero)⟩
    · left
      exact erase_opened hzero
  · right
    refine ⟨hzero, erase_opened ?_⟩
    rw [Finset.mem_insert, not_or]
    exact ⟨(lowestFree_ne_zero hzero).symm, Finset.notMem_erase 0 initial⟩

/-- What holds between calls. -/
structure Leaking (p : Process) (config : FileConfig) : Prop where
  fds : AtMostOne p.fds config.state.fds
  obtained : Obtained config.state.world

theorem fileStep_returns (config : FileConfig) (op : CString × FileCall)
    (h : Leaking p config) (hshort : op.2.Short) :
    ∃ after, config.step (fileStep E s) op = .ok after ∧
      CallReturns E config op after ∧ Leaking p after := by
  obtain ⟨out, after, hcall, hreturns, hobtained⟩ :=
    readFile_returns E s op.1 hshort h.obtained
  refine ⟨_, Config.step_of_ok hcall, ⟨out, rfl, hreturns⟩, ?_, hobtained⟩
  cases hfile : op.2.file with
  | none =>
      rw [(hreturns.refused hfile).2.1]
      exact h.fds
  | some source =>
      by_cases hfails : ReadFails E source config.state.world
      · rw [(hreturns.unread source hfile hfails).2.1]
        exact h.fds.unread
      · rw [(hreturns.read source hfile hfails).1]
        exact h.fds

/-- However memory and files of less than 2 GiB behave, every call returns as
described, and all the calls together leave at most one descriptor open that
was not open before: the first file that cannot be read keeps its descriptor
and takes descriptor 0 away, which every later file gets and gives back. -/
theorem readFile_leaks_once (E : Env) (s : Sutil) (p : Process)
    (hobtained : Obtained p.world) (calls : List (CString × FileCall))
    (hshort : ∀ call ∈ calls, call.2.Short) :
    Keeps (fileStep E s) (CallReturns E) (Config.initial p) calls ∧
      ∃ final, run (fileStep E s) (Config.initial p) calls = .ok final ∧
        AtMostOne p.fds final.state.fds := by
  have hmeets : Meets (fileStep E s) (fun _ op => op.2.Short)
      (Config.initial p : FileConfig) calls :=
    meets_of_forall (fun op hop _ => hshort op hop) _
  have hstart : Leaking p (Config.initial p : FileConfig) :=
    ⟨Or.inl rfl, hobtained⟩
  constructor
  · exact keeps_of_meets (fun config op hinv hop =>
      fileStep_returns config op hinv hop) hstart hmeets
  · obtain ⟨final, hrun, hfinal⟩ := run_of_meets (fun config op hinv hop =>
      (fileStep_returns (E := E) (s := s) config op hinv hop).imp
        fun _ h => ⟨h.1, h.2.2⟩) hstart hmeets
    exact ⟨final, hrun, hfinal.fds⟩

/-- A process with the three descriptors it starts with. -/
def startedProcess : Process where
  fds := {0, 1, 2}
  unlinked := []
  shown := []
  world := ⟨0, 0, .null, [], false⟩

def plainSutil : Sutil where
  flailBasename := ⟨[], by decide⟩
  flailOutput := 0
  vsnprintf := fun text _ => text
  strerror := fun _ => []

def plainName : CString := ⟨[0x67#8], by decide⟩

def twoLetters : Source Byte := ⟨fun _ => some 1, 0, [65#8, 66#8]⟩

/-- A file which cannot be read, one whose `close` fails, one which is read
and one which is not there. -/
def fourCalls : List (CString × FileCall) :=
  [(plainName, ⟨some ⟨fun _ => none, 0, [67#8]⟩, false⟩),
    (plainName, ⟨some twoLetters, true⟩),
    (plainName, ⟨some twoLetters, false⟩), (plainName, ⟨none, false⟩)]

theorem readFile_leaks_once_four :
    Keeps (fileStep (filledEnv 0) plainSutil) (CallReturns (filledEnv 0))
        (Config.initial startedProcess) fourCalls ∧
      ∃ final, run (fileStep (filledEnv 0) plainSutil)
          (Config.initial startedProcess) fourCalls = .ok final ∧
        AtMostOne startedProcess.fds final.state.fds := by
  refine readFile_leaks_once (filledEnv 0) plainSutil startedProcess
    (fun _ haddr => by cases haddr) fourCalls ?_
  intro call hcall source hsource
  simp only [fourCalls, List.mem_cons, List.not_mem_nil, or_false] at hcall
  rcases hcall with rfl | rfl | rfl | rfl <;> cases hsource <;> decide

end Runs

end ReadFile
end Alib
