import Alib.CString
import Alib.Descriptor

/-!
# Copying from a socket to a file

`write_file` of `socket.c` receives blocks and writes each of them completely,
going on after short writes, until a `SIGPIPE` has been noticed.  An error ends
the process.  When the other side has closed the connection `recv` returns 0,
which is taken for a block without bytes, so the loop goes on.  The loops carry
fuel; running out of it leaves the copy running.
-/

namespace Alib
namespace SocketFile

open Descriptor

/-- The result of `recv` or `write`, converted to an `unsigned int`. -/
def unsignedResult : Option ℕ → ℕ
  | none => 2 ^ 32 - 1
  | some n => n % 2 ^ 32

inductive Ending where
  | running
  | returned
  | exited (status : ℕ)
  deriving DecidableEq, Repr

/-- `write(dst, buf + offset, amount)` -/
def write (buf : List Byte) (offset amount : ℕ) (dst : Sink Byte) :
    Except Fault (ℕ × Sink Byte) :=
  if offset + amount ≤ buf.length then
    let (result, dst) := dst.write ((buf.drop offset).take amount)
    .ok (unsignedResult result, dst)
  else .error .outOfBounds

/-- The inner loop.  `some status` ends the process and `none` leaves the
loop. -/
def writeRest (buf : List Byte) (amountRead : ℕ) :
    ℕ → ℕ → Sink Byte → Except Fault (Option Ending × Sink Byte)
  | 0, _, dst => .ok (some .running, dst)
  | fuel + 1, amountWritten, dst =>
      if amountWritten = amountRead then .ok (none, dst)
      else do
        let (amount, dst) ← write buf amountWritten
          ((amountRead + 2 ^ 32 - amountWritten) % 2 ^ 32) dst
        if amount = 2 ^ 32 - 1 then return (some (.exited 1), dst)
        else
          writeRest buf amountRead fuel ((amountWritten + amount) % 2 ^ 32) dst

/-- One turn of the outer loop. -/
def copyBlock (fuel bsize : ℕ) (buf : List Byte) (src : Source Byte)
    (dst : Sink Byte) :
    Except Fault (Option Ending × List Byte × Source Byte × Sink Byte) := do
  let (result, src) := src.read bsize
  let amountRead := unsignedResult (result.map List.length)
  if amountRead = 2 ^ 32 - 1 then return (some (.exited 1), buf, src, dst)
  else do
    let buf ← writeAt buf 0 (result.getD [])
    let (amountWritten, dst) ← write buf 0 amountRead dst
    if amountWritten = 2 ^ 32 - 1 then
      return (some (.exited 1), buf, src, dst)
    else do
      let (ending, dst) ← writeRest buf amountRead fuel amountWritten dst
      return (ending, buf, src, dst)

/-- `sigPipe` says before which turns the signal has been noticed. -/
def writeFileLoop (sigPipe : ℕ → Bool) (turns bsize : ℕ) :
    ℕ → List Byte → Source Byte → Sink Byte →
      Except Fault (Ending × Source Byte × Sink Byte)
  | 0, _, src, dst => .ok (.running, src, dst)
  | fuel + 1, buf, src, dst =>
      if sigPipe (turns - (fuel + 1)) then .ok (.returned, src, dst)
      else do
        let (ending, buf, src, dst) ← copyBlock turns bsize buf src dst
        match ending with
        | some ending => return (ending, src, dst)
        | none => writeFileLoop sigPipe turns bsize fuel buf src dst

/-- What the stack leaves in the buffer is given. -/
def writeFile (sigPipe : ℕ → Bool) (turns bsize : ℕ) (buf : List Byte)
    (src : Source Byte) (dst : Sink Byte) :
    Except Fault (Ending × Source Byte × Sink Byte) :=
  writeFileLoop sigPipe turns bsize turns buf src dst

section Blocks

variable {buf : List Byte} {dst : Sink Byte} {src : Source Byte}
  {amountRead amountWritten fuel bsize : ℕ}

theorem unsignedResult_of_lt {n : ℕ} (h : n < 2 ^ 32) :
    unsignedResult (some n) = n := Nat.mod_eq_of_lt h

theorem write_of_none {offset amount : ℕ}
    (hroom : offset + amount ≤ buf.length)
    (hscript : dst.script dst.calls = none) :
    write buf offset amount dst =
      .ok (2 ^ 32 - 1, { dst with calls := dst.calls + 1 }) := by
  rw [write, if_pos hroom]
  simp [Sink.write, hscript, unsignedResult]

theorem write_of_some {offset amount most : ℕ}
    (hroom : offset + amount ≤ buf.length) (hsize : buf.length < 2 ^ 32 - 1)
    (hscript : dst.script dst.calls = some most) :
    write buf offset amount dst =
      .ok (min most amount, { dst with
        calls := dst.calls + 1
        accepted :=
          dst.accepted ++ (buf.drop offset).take (min most amount) }) := by
  have hlength : ((buf.drop offset).take amount).length = amount := by
    rw [List.length_take, List.length_drop]
    omega
  have hbound : min most amount < 2 ^ 32 := by omega
  rw [write, if_pos hroom]
  simp only [Sink.write, hscript, hlength, unsignedResult_of_lt hbound,
    List.take_take]

/-- A block of which the bytes from `start` to `kept` were written. -/
structure Wrote (block : List Byte) (start kept : ℕ) (dst after : Sink Byte) :
    Prop where
  script : after.script = dst.script
  start_le : start ≤ kept
  kept_le : kept ≤ block.length
  accepted : after.accepted =
    dst.accepted ++ (block.drop start).take (kept - start)

theorem Wrote.refl {block : List Byte} {start : ℕ}
    (h : start ≤ block.length) (dst : Sink Byte) :
    Wrote block start start dst dst :=
  ⟨rfl, le_rfl, h, by simp⟩

theorem Wrote.trans {block : List Byte} {start middle kept : ℕ}
    {between after : Sink Byte} (h : Wrote block start middle dst between)
    (h' : Wrote block middle kept between after) :
    Wrote block start kept dst after where
  script := h'.script.trans h.script
  start_le := h.start_le.trans h'.start_le
  kept_le := h'.kept_le
  accepted := by
    have hstart := h.start_le
    have hmiddle := h'.start_le
    have hsplit : kept - start = (middle - start) + (kept - middle) := by omega
    have hdrop : (block.drop start).drop (middle - start) =
        block.drop middle := by
      rw [List.drop_drop]
      congr 1
      omega
    rw [h'.accepted, h.accepted, hsplit, List.take_add, hdrop,
      List.append_assoc]

/-- One call of `write` from a position of the block on. -/
theorem wrote_of_write {most : ℕ} (hread : amountRead ≤ buf.length)
    (hle : amountWritten ≤ amountRead) :
    Wrote (buf.take amountRead) amountWritten
      (amountWritten + min most (amountRead - amountWritten)) dst
      { dst with
        calls := dst.calls + 1
        accepted := dst.accepted ++ (buf.drop amountWritten).take
          (min most (amountRead - amountWritten)) } where
  script := rfl
  start_le := Nat.le_add_right _ _
  kept_le := by
    rw [List.length_take]
    omega
  accepted := by
    have hamount : min (amountWritten + min most (amountRead - amountWritten) -
        amountWritten) (amountRead - amountWritten) =
        min most (amountRead - amountWritten) := by omega
    rw [List.drop_take, List.take_take, hamount]

theorem writeRest_spec (hsize : buf.length < 2 ^ 32 - 1)
    (hread : amountRead ≤ buf.length) (hle : amountWritten ≤ amountRead)
    (fuel : ℕ) (dst : Sink Byte) :
    ∃ ending after kept,
      writeRest buf amountRead fuel amountWritten dst = .ok (ending, after) ∧
      Wrote (buf.take amountRead) amountWritten kept dst after ∧
      (ending = none → kept = amountRead) ∧ ending ≠ some .returned ∧
      (Steady dst.script → amountRead - amountWritten < fuel →
        ending = none) := by
  have hblock : amountWritten ≤ (buf.take amountRead).length := by
    rw [List.length_take]
    omega
  induction fuel generalizing amountWritten dst with
  | zero =>
      refine ⟨_, dst, amountWritten, rfl, Wrote.refl hblock dst, by simp,
        by simp, ?_⟩
      intro _ hlt
      omega
  | succ fuel ih =>
      by_cases hdone : amountWritten = amountRead
      · refine ⟨none, dst, amountWritten, ?_, Wrote.refl hblock dst,
          fun _ => hdone, by simp, fun _ _ => rfl⟩
        rw [writeRest, if_pos hdone]
      · have hamount : (amountRead + 2 ^ 32 - amountWritten) % 2 ^ 32 =
            amountRead - amountWritten := by omega
        rw [writeRest, if_neg hdone, hamount]
        cases hscript : dst.script dst.calls with
        | none =>
            have hcall := write_of_none
              (by omega : amountWritten + (amountRead - amountWritten) ≤
                buf.length) hscript
            have hwrote : Wrote (buf.take amountRead) amountWritten
                amountWritten dst { dst with calls := dst.calls + 1 } :=
              ⟨rfl, le_rfl, hblock, by simp⟩
            refine ⟨some (.exited 1), _, amountWritten, ?_, hwrote, by simp,
              by simp, ?_⟩
            · rw [hcall, ok_bind]
              rfl
            · exact fun hsteady _ => absurd hscript (hsteady.ne_none _)
        | some most =>
            have hcall := write_of_some
              (by omega : amountWritten + (amountRead - amountWritten) ≤
                buf.length) hsize hscript
            have hwrote := @wrote_of_write buf dst amountRead amountWritten
              most hread hle
            have hnext : (amountWritten +
                min most (amountRead - amountWritten)) % 2 ^ 32 =
                amountWritten + min most (amountRead - amountWritten) := by
              apply Nat.mod_eq_of_lt
              omega
            have hne : ¬ min most (amountRead - amountWritten) =
                2 ^ 32 - 1 := by omega
            obtain ⟨ending, after, kept, hrest, hafter, hnone, hnot, hends⟩ :=
              ih (by omega) _ hwrote.kept_le
            refine ⟨ending, after, kept, ?_, hwrote.trans hafter, hnone, hnot,
              ?_⟩
            · rw [hcall, ok_bind]
              simp only [if_neg hne, hnext]
              exact hrest
            · intro hsteady hlt
              obtain ⟨least, hleast⟩ := hsteady dst.calls
              rw [hscript] at hleast
              cases hleast
              exact hends hsteady (by omega)

/-- What one turn does: it receives a block and writes a part of it, all of it
if the turn is completed. -/
structure Copies (bsize kept : ℕ) (block : List Byte)
    (src source : Source Byte) (dst sink : Sink Byte) : Prop where
  pending : src.pending = block ++ source.pending
  length_le : block.length ≤ bsize
  kept_le : kept ≤ block.length
  accepted : sink.accepted = dst.accepted ++ block.take kept
  sourceScript : source.script = src.script
  sinkScript : sink.script = dst.script

theorem copyBlock_spec (hsize : bsize < 2 ^ 32 - 1)
    (hbuf : buf.length = bsize) (fuel : ℕ) (src : Source Byte)
    (dst : Sink Byte) :
    ∃ ending after source sink block kept,
      copyBlock fuel bsize buf src dst = .ok (ending, after, source, sink) ∧
      after.length = bsize ∧ Copies bsize kept block src source dst sink ∧
      (ending = none → kept = block.length) ∧ ending ≠ some .returned ∧
      (Steady src.script → Steady dst.script → bsize < fuel →
        ending = none ∧ (src.pending ≠ [] → 0 < bsize → block ≠ [])) := by
  cases hsrc : src.script src.calls with
  | none =>
      have hrecv := Source.read_of_none bsize hsrc
      refine ⟨some (.exited 1), buf, { src with calls := src.calls + 1 }, dst,
        [], 0, ?_, hbuf, ?_, by simp, by simp, ?_⟩
      · rw [copyBlock, hrecv]
        rfl
      · exact ⟨rfl, Nat.zero_le _, le_rfl, by simp, rfl, rfl⟩
      · exact fun hsteady => absurd hsrc (hsteady.ne_none _)
  | some most =>
      have hrecv := Source.read_of_some bsize hsrc
      have hpending := List.take_append_drop (min most bsize) src.pending
      generalize hblock : src.pending.take (min most bsize) = block at *
      have hlength : block.length ≤ bsize := by
        rw [← hblock, List.length_take]
        omega
      have hprogress : Steady src.script → src.pending ≠ [] → 0 < bsize →
          block ≠ [] := by
        intro hsteady hne hpos hempty
        obtain ⟨least, hleast⟩ := hsteady src.calls
        rw [hsrc] at hleast
        cases hleast
        rw [hempty, List.take_eq_nil_iff] at hblock
        rcases hblock with hzero | hnil
        · omega
        · exact hne hnil
      have hamount : unsignedResult (some block.length) = block.length :=
        unsignedResult_of_lt (by omega)
      have hreceived : writeAt buf 0 block =
          .ok (block ++ buf.drop block.length) := by
        rw [writeAt, if_pos (by omega), List.take_zero, List.nil_append,
          Nat.zero_add]
      generalize hstored : block ++ buf.drop block.length = stored at *
      have hstoredLength : stored.length = bsize := by
        rw [← hstored, List.length_append, List.length_drop]
        omega
      have hstoredBlock : stored.take block.length = block := by
        rw [← hstored, List.take_left]
      have hne : ¬ block.length = 2 ^ 32 - 1 := by omega
      cases hdst : dst.script dst.calls with
      | none =>
          have hcall := write_of_none
            (by omega : 0 + block.length ≤ stored.length) hdst
          refine ⟨some (.exited 1), stored, { src with
              calls := src.calls + 1
              pending := src.pending.drop (min most bsize) },
            { dst with calls := dst.calls + 1 }, block, 0, ?_, hstoredLength,
            ?_, by simp, by simp, ?_⟩
          · simp only [copyBlock, hrecv, Option.map_some, hamount, if_neg hne,
              Option.getD_some, hreceived, ok_bind, hcall, if_true,
              pure_eq_ok]
          · exact ⟨hpending.symm, hlength, Nat.zero_le _, by simp, rfl, rfl⟩
          · exact fun _ hsteady => absurd hdst (hsteady.ne_none _)
      | some m =>
          have hcall := write_of_some
            (by omega : 0 + block.length ≤ stored.length) (by omega) hdst
          have hfirst := @wrote_of_write stored dst block.length 0 m
            (by omega) (Nat.zero_le _)
          have hsome : ¬ min m block.length = 2 ^ 32 - 1 := by omega
          rw [Nat.zero_add, Nat.sub_zero, hstoredBlock] at hfirst
          obtain ⟨ending, sink, kept, hrest, hwrote, hnone, hnot, hends⟩ :=
            @writeRest_spec stored block.length (min m block.length)
              (by omega) (by omega) (Nat.min_le_right _ _) fuel _
          rw [hstoredBlock] at hwrote
          have hwhole := hfirst.trans hwrote
          refine ⟨ending, stored, { src with
              calls := src.calls + 1
              pending := src.pending.drop (min most bsize) }, sink, block,
            kept, ?_, hstoredLength, ?_, hnone, hnot, ?_⟩
          · simp only [copyBlock, hrecv, Option.map_some, hamount, if_neg hne,
              Option.getD_some, hreceived, ok_bind, hcall, if_neg hsome,
              hrest, pure_eq_ok]
          · refine ⟨hpending.symm, hlength, hwhole.kept_le, ?_, rfl,
              hwhole.script⟩
            rw [hwhole.accepted, List.drop_zero, Nat.sub_zero]
          · intro hsource hsteady hlt
            exact ⟨hends hsteady (by omega), hprogress hsource⟩

end Blocks

section Runs

variable {sigPipe : ℕ → Bool} {buf : List Byte} {src : Source Byte}
  {dst : Sink Byte} {turns bsize fuel : ℕ}

/-- What was received has been written, except for the end of the last block
when the copy was cut off. -/
structure Copied (bsize : ℕ) (ending : Ending) (src source : Source Byte)
    (dst sink : Sink Byte) : Prop where
  received : ∃ delivered kept, src.pending = delivered ++ source.pending ∧
    kept ≤ delivered.length ∧ delivered.length ≤ kept + bsize ∧
    sink.accepted = dst.accepted ++ delivered.take kept ∧
    (ending = .returned → kept = delivered.length)

theorem Copied.after_block {ending : Ending} {block : List Byte}
    {middle source : Source Byte} {between sink : Sink Byte}
    (h : Copies bsize block.length block src middle dst between)
    (hrest : Copied bsize ending middle source between sink) :
    Copied bsize ending src source dst sink := by
  obtain ⟨delivered, kept, hpending, hle, hlast, haccepted, hreturned⟩ :=
    hrest.received
  refine ⟨block ++ delivered, block.length + kept, ?_, ?_, ?_, ?_, ?_⟩
  · rw [h.pending, hpending, List.append_assoc]
  · rw [List.length_append]
    omega
  · rw [List.length_append]
    omega
  · rw [haccepted, h.accepted, List.take_length, List.append_assoc,
      List.take_length_add_append]
  · intro hending
    rw [List.length_append, hreturned hending]

theorem writeFileLoop_spec (hsize : bsize < 2 ^ 32 - 1)
    (hbuf : buf.length = bsize) (fuel : ℕ) (src : Source Byte)
    (dst : Sink Byte) :
    ∃ ending source sink,
      writeFileLoop sigPipe turns bsize fuel buf src dst =
        .ok (ending, source, sink) ∧
      Copied bsize ending src source dst sink ∧
      (ending = .returned → ∃ turn, sigPipe turn = true) ∧
      (Steady src.script → Steady dst.script → bsize < turns → 0 < bsize →
        (∀ turn, sigPipe turn = false) → src.pending.length ≤ fuel →
        ending = .running ∧ source.pending = [] ∧
          sink.accepted = dst.accepted ++ src.pending) := by
  induction fuel generalizing buf src dst with
  | zero =>
      refine ⟨.running, src, dst, rfl, ⟨[], 0, rfl, le_rfl, Nat.zero_le _,
        by simp, by simp⟩, by simp, ?_⟩
      intro _ _ _ _ _ hempty
      have hnil : src.pending = [] :=
        List.length_eq_zero_iff.mp (Nat.le_zero.mp hempty)
      exact ⟨rfl, hnil, by rw [hnil, List.append_nil]⟩
  | succ fuel ih =>
      rw [writeFileLoop]
      cases hsignal : sigPipe (turns - (fuel + 1)) with
      | true =>
          refine ⟨.returned, src, dst, by rw [if_pos rfl], ⟨[], 0, rfl,
            le_rfl, Nat.zero_le _, by simp, by simp⟩,
            fun _ => ⟨_, hsignal⟩, ?_⟩
          intro _ _ _ _ hnever
          rw [hnever] at hsignal
          cases hsignal
      | false =>
          obtain ⟨ending, after, middle, between, block, kept, hcall, hafter,
            hcopies, hnone, hnot, hsteady⟩ :=
            copyBlock_spec hsize hbuf turns src dst
          simp only [Bool.false_eq_true, if_false, hcall, ok_bind]
          cases ending with
          | some ending =>
              refine ⟨ending, middle, between, rfl, ⟨block, kept,
                hcopies.pending, hcopies.kept_le, ?_, hcopies.accepted, ?_⟩,
                ?_, ?_⟩
              · have hlength := hcopies.length_le
                omega
              · intro hreturned
                exact absurd (congrArg some hreturned) hnot
              · intro hreturned
                exact absurd (congrArg some hreturned) hnot
              · intro hsource hsink hturns
                exact absurd (hsteady hsource hsink hturns).1
                  (Option.some_ne_none ending)
          | none =>
              obtain ⟨ending, source, sink, hloop, hcopied, hreturned,
                hcomplete⟩ := ih hafter middle between
              have hkept := hnone rfl
              subst hkept
              refine ⟨ending, source, sink, hloop,
                Copied.after_block hcopies hcopied, hreturned, ?_⟩
              intro hsource hsink hturns hpos hnever hfuel
              have hblock := (hsteady hsource hsink hturns).2
              have hshort : middle.pending.length ≤ fuel := by
                have hlength := congrArg List.length hcopies.pending
                rw [List.length_append] at hlength
                by_cases hempty : src.pending = []
                · rw [hempty, List.length_nil] at hlength
                  omega
                · have hpiece := List.length_pos_of_ne_nil
                    (hblock hempty hpos)
                  omega
              obtain ⟨hrunning, hnil, haccepted⟩ := hcomplete
                (hcopies.sourceScript ▸ hsource)
                (hcopies.sinkScript ▸ hsink) hturns hpos hnever hshort
              refine ⟨hrunning, hnil, ?_⟩
              rw [haccepted, hcopies.accepted, hcopies.pending,
                List.take_length, List.append_assoc]

/-- Whatever the sizes of the transfers, nothing that was received is lost or
written twice, except that the end of the last block may be missing when the
process ends.  The function returns only after a signal; without one and
without errors it writes everything and goes on for ever. -/
theorem writeFile_copies (sigPipe : ℕ → Bool) (turns bsize : ℕ)
    (buf : List Byte) (src : Source Byte) (dst : Sink Byte)
    (hsize : bsize < 2 ^ 32 - 1) (hbuf : buf.length = bsize) :
    ∃ ending source sink,
      writeFile sigPipe turns bsize buf src dst =
        .ok (ending, source, sink) ∧
      Copied bsize ending src source dst sink ∧
      (ending = .returned → ∃ turn, sigPipe turn = true) ∧
      (Steady src.script → Steady dst.script → bsize < turns → 0 < bsize →
        (∀ turn, sigPipe turn = false) → src.pending.length ≤ turns →
        ending = .running ∧ source.pending = [] ∧
          sink.accepted = dst.accepted ++ src.pending) :=
  writeFileLoop_spec hsize hbuf turns src dst

theorem writeFile_copies_short :
    ∃ ending source sink,
      writeFile (fun _ => false) 5 2 [0#8, 0#8]
          ⟨fun _ => some 2, 0, [65#8, 66#8, 67#8]⟩ ⟨fun _ => some 1, 0, []⟩ =
        .ok (ending, source, sink) ∧
      Copied 2 ending ⟨fun _ => some 2, 0, [65#8, 66#8, 67#8]⟩ source
        ⟨fun _ => some 1, 0, []⟩ sink ∧
      (ending = .returned → ∃ turn : ℕ, (fun _ => false) turn = true) ∧
      (Steady (fun _ => some 2) → Steady (fun _ => some 1) → 2 < 5 → 0 < 2 →
        (∀ turn : ℕ, (fun _ => false) turn = false) →
        [65#8, 66#8, 67#8].length ≤ 5 →
        ending = .running ∧ source.pending = [] ∧
          sink.accepted = [] ++ [65#8, 66#8, 67#8]) :=
  writeFile_copies (fun _ => false) 5 2 [0#8, 0#8]
    ⟨fun _ => some 2, 0, [65#8, 66#8, 67#8]⟩ ⟨fun _ => some 1, 0, []⟩
    (by decide) (by decide)

end Runs

end SocketFile
end Alib
