import Alib.ByteBlock
import Alib.Descriptor
import Alib.Execution

/-!
# Buffers written to and read from a descriptor

`buffers.c`: `write_buf` sends a string, going on after a short write, and
`read_buf` collects everything that can be read into one block, grown piece by
piece, and ends it with a NUL.  Positions and lengths are `int`; their
overflow is undefined.  What a failed call leaves in `errno` is left out.
-/

namespace Alib
namespace Buffers

open Descriptor Execution

/-- The sum of two `int`. -/
def intAdd (a b : ℤ) : Except Fault ℤ :=
  if -2 ^ 31 ≤ a + b ∧ a + b < 2 ^ 31 then .ok (a + b)
  else .error .signedOverflow

/-- A `size_t` converted to an `int`. -/
def intOfSize (n : ℕ) : ℤ := (BitVec.ofNat 32 n).toInt

/-- An `int` converted to a `size_t`. -/
def sizeOfInt (a : ℤ) : ℕ := (a % 2 ^ 64).toNat

/-- The bytes of a region from an offset on. -/
def readSpan (region : List Byte) (offset : ℤ) (count : ℕ) :
    Except Fault (List Byte) :=
  if 0 ≤ offset ∧ offset + count ≤ region.length then
    .ok ((region.drop offset.toNat).take count)
  else .error .outOfBounds

/-- `write(in, buf + offset, len)`; the result is converted to an `int`. -/
def write (region : List Byte) (offset len : ℤ) (sink : Sink Byte) :
    Except Fault (ℤ × Sink Byte) := do
  let data ← readSpan region offset (sizeOfInt len)
  match sink.write data with
  | (none, sink) => return (-1, sink)
  | (some n, sink) => return (intOfSize n, sink)

def writeBufLoop (region : List Byte) :
    ℕ → ℤ → ℤ → ℤ → Sink Byte → Except Fault (ℤ × Sink Byte)
  | 0, _, _, _, _ => .error .divergence
  | fuel + 1, tmp, len, writelen, sink =>
      if writelen = len then
        .ok (if writelen < 0 then -1 else 0, sink)
      else do
        let tmp ← intAdd tmp writelen
        let len ← intAdd len (-writelen)
        let (writelen, sink) ← write region tmp len sink
        writeBufLoop region fuel tmp len writelen sink

def writeBuf (fuel : ℕ) (buf : CString) (sink : Sink Byte) :
    Except Fault (ℤ × Sink Byte) := do
  let len := intOfSize buf.length
  let (writelen, sink) ← write buf.stored 0 len sink
  if writelen < 0 then return (-1, sink)
  else writeBufLoop buf.stored fuel 0 len writelen sink

/-- `sizeof(tmpbuf)` -/
def tmpbufSize : ℕ := 1024

def readBufLoop (E : Env) :
    ℕ → Option ByteBlock → ℤ → Option (List Byte) → Source Byte → World →
      Except Fault (Option ByteBlock × Source Byte × World)
  | 0, _, _, _, _, _ => .error .divergence
  | _ + 1, buf, _, none, source, w =>
      .ok (none, source, Bytes.aFree buf w)
  | _ + 1, buf, tmp, some [], source, w => do
      let size ← intAdd tmp 1
      match Bytes.realloc E buf (sizeOfInt size) w with
      | (none, w) => return (none, source, Bytes.aFree buf w)
      | (some buf2, w) => do
          let bytes ← writeAt buf2.bytes (sizeOfInt tmp) [0#8]
          return (some { buf2 with bytes := bytes }, source, w)
  | fuel + 1, buf, tmp, some (first :: rest), source, w => do
      let tmp' ← intAdd tmp (first :: rest).length
      match Bytes.realloc E buf (sizeOfInt tmp') w with
      | (none, w) => return (none, source, Bytes.aFree buf w)
      | (some buf2, w) => do
          let bytes ← writeAt buf2.bytes (sizeOfInt tmp) (first :: rest)
          let (next, source) := source.read tmpbufSize
          readBufLoop E fuel (some { buf2 with bytes := bytes }) tmp' next
            source w

/-- Every turn of the loop takes something from what is pending. -/
def readBuf (E : Env) (source : Source Byte) (w : World) :
    Except Fault (Option ByteBlock × Source Byte × World) :=
  match source.read tmpbufSize with
  | (none, source) => .ok (none, source, w)
  | (some piece, after) =>
      readBufLoop E (source.pending.length + 1) none 0 (some piece) after w

section Integers

theorem intAdd_eq {a b : ℤ} {sum : ℕ} (h : a + b = sum)
    (hsum : sum < 2 ^ 31) : intAdd a b = .ok (sum : ℤ) := by
  have hlow : -2 ^ 31 ≤ a + b := by omega
  have hhigh : a + b < 2 ^ 31 := by omega
  rw [intAdd, if_pos ⟨hlow, hhigh⟩, h]

theorem intOfSize_of_lt {n : ℕ} (h : n < 2 ^ 31) : intOfSize n = n := by
  rw [intOfSize, BitVec.toInt_ofNat', Int.bmod_eq_of_le] <;> omega

theorem sizeOfInt_natCast {n : ℕ} (h : n < 2 ^ 64) :
    sizeOfInt (n : ℤ) = n := by
  rw [sizeOfInt, Int.emod_eq_of_lt (by omega) (by exact_mod_cast h)]
  rfl

end Integers

section Writing

variable {buf : CString} {sink final : Sink Byte} {tmp len fuel : ℕ}
  {r : ℤ}

/-- The result of `write` as an `int`. -/
def writeResult : Option ℕ → ℤ
  | none => -1
  | some n => n

@[simp] theorem writeResult_none : writeResult none = -1 := rfl

@[simp] theorem writeResult_some (n : ℕ) : writeResult (some n) = n := rfl

theorem readSpan_stored (buf : CString) (hroom : tmp + len = buf.length) :
    readSpan buf.stored tmp len = .ok (buf.bytes.drop tmp) := by
  have hbytes : buf.bytes.length = buf.length := rfl
  have hlength : tmp + len ≤ buf.stored.length := by
    rw [CString.length_stored]
    omega
  rw [readSpan, if_pos ⟨by omega, by exact_mod_cast hlength⟩,
    Int.toNat_natCast, CString.stored, List.drop_append_of_le_length
    (by omega), List.take_append_of_le_length
    (by rw [List.length_drop]; omega), List.take_of_length_le
    (by rw [List.length_drop]; omega)]

theorem readSpan_negative (region : List Byte) (count : ℕ) :
    readSpan region (-1) count = .error .outOfBounds := by
  simp [readSpan]

/-- One call of `write` for what is left of the string. -/
theorem write_stored (sink : Sink Byte) (hroom : tmp + len = buf.length)
    (hlength : buf.length < 2 ^ 31) :
    write buf.stored tmp len sink =
      .ok (writeResult (sink.write (buf.bytes.drop tmp)).1,
        (sink.write (buf.bytes.drop tmp)).2) := by
  have hsize : sizeOfInt (len : ℤ) = len := sizeOfInt_natCast (by omega)
  simp only [write, hsize, readSpan_stored buf hroom, ok_bind]
  cases hscript : sink.script sink.calls with
  | none => simp [Sink.write, hscript, writeResult]
  | some most =>
      have hbound : min most (buf.bytes.drop tmp).length < 2 ^ 31 := by
        rw [List.length_drop]
        have hbytes : buf.bytes.length = buf.length := rfl
        omega
      simp only [Sink.write, hscript, writeResult, intOfSize_of_lt hbound,
        pure_eq_ok]

/-- What a part of the loop sends: the bytes which were left, and one more
for every failed call; without one, exactly the bytes which were left. -/
structure Sends (left : List Byte) (sink final : Sink Byte) : Prop where
  script : final.script = sink.script
  calls_le : sink.calls ≤ final.calls
  accepted : ∃ sent, final.accepted = sink.accepted ++ sent ∧
    sent.length = left.length +
      failures sink.script sink.calls final.calls ∧
    (failures sink.script sink.calls final.calls = 0 → sent = left)

theorem Sends.refl (sink : Sink Byte) : Sends [] sink sink :=
  ⟨rfl, le_rfl, [], by simp⟩

/-- A call which accepts some of the bytes, and then the rest. -/
theorem Sends.after_some {left : List Byte} {most : ℕ}
    (hscript : sink.script sink.calls = some most)
    (h : Sends (left.drop most) (sink.write left).2 final) :
    Sends left sink final := by
  have hwrite : (sink.write left).2 = { sink with
      calls := sink.calls + 1
      accepted := sink.accepted ++ left.take most } := by
    simp [Sink.write, hscript]
  rw [hwrite] at h
  rcases h with ⟨hsame, hle, sent, haccepted, hlength, hexact⟩
  simp only at hsame hle haccepted hlength hexact
  have hfailures : failures sink.script sink.calls final.calls =
      failures sink.script (sink.calls + 1) final.calls := by
    rw [failures_trans (Nat.le_succ _) hle, failures_succ_of_some hscript,
      Nat.zero_add]
  refine ⟨hsame, by omega, left.take most ++ sent, ?_, ?_, ?_⟩
  · rw [haccepted, List.append_assoc]
  · rw [List.length_append, hlength, hfailures, List.length_take,
      List.length_drop]
    omega
  · intro hzero
    rw [hfailures] at hzero
    rw [hexact hzero, List.take_append_drop]

/-- A failed call, after which one byte more is left. -/
theorem Sends.after_none {left more : List Byte}
    (hscript : sink.script sink.calls = none)
    (hmore : more.length = left.length + 1)
    (h : Sends more (sink.write left).2 final) :
    Sends left sink final := by
  have hwrite : (sink.write left).2 = { sink with
      calls := sink.calls + 1 } := by
    simp [Sink.write, hscript]
  rw [hwrite] at h
  rcases h with ⟨hsame, hle, sent, haccepted, hlength, _⟩
  simp only at hsame hle haccepted hlength
  have hfailures : failures sink.script sink.calls final.calls =
      1 + failures sink.script (sink.calls + 1) final.calls := by
    rw [failures_trans (Nat.le_succ _) hle, failures_succ_of_fails hscript]
  refine ⟨hsame, by omega, sent, haccepted, ?_, ?_⟩
  · rw [hlength, hmore, hfailures]
    omega
  · intro hzero
    rw [hfailures] at hzero
    omega

/-- What is left of the string before the next call, given how the last one
went. -/
def leftAfter (buf : CString) (tmp : ℕ) : Option ℕ → List Byte
  | none => buf.bytes.drop (tmp - 1)
  | some n => buf.bytes.drop (tmp + n)

/-- The turn of the loop which sends what is left. -/
theorem sends_of_write {position : ℕ}
    (hnext : Sends (leftAfter buf position
        (sink.write (buf.bytes.drop position)).1)
      (sink.write (buf.bytes.drop position)).2 final)
    (hposition : (sink.write (buf.bytes.drop position)).1 = none →
      0 < position)
    (hle : position ≤ buf.bytes.length) :
    Sends (buf.bytes.drop position) sink final := by
  cases hscript : sink.script sink.calls with
  | none =>
      have hresult : (sink.write (buf.bytes.drop position)).1 = none := by
        simp [Sink.write, hscript]
      have hpositive := hposition hresult
      rw [hresult] at hnext
      apply Sends.after_none hscript _ hnext
      rw [leftAfter, List.length_drop, List.length_drop]
      omega
  | some most =>
      have hresult : (sink.write (buf.bytes.drop position)).1 =
          some (min most (buf.bytes.drop position).length) := by
        simp [Sink.write, hscript]
      have hdrop : leftAfter buf position
          (some (min most (buf.bytes.drop position).length)) =
          (buf.bytes.drop position).drop most := by
        rw [leftAfter, List.drop_drop]
        rcases Nat.le_total most (buf.bytes.drop position).length with
          hshort | hlong
        · rw [Nat.min_eq_left hshort]
        · rw [List.length_drop] at hlong ⊢
          rw [Nat.min_eq_right hlong, List.drop_eq_nil_of_le (by omega),
            List.drop_eq_nil_of_le (by omega)]
      rw [hresult, hdrop] at hnext
      exact Sends.after_some hscript hnext

theorem write_le (sink : Sink Byte) (position : ℕ) {n : ℕ}
    (hn : (sink.write (buf.bytes.drop position)).1 = some n) :
    n ≤ buf.length - position := by
  have hbytes : buf.bytes.length = buf.length := rfl
  cases hscript : sink.script sink.calls with
  | none => simp [Sink.write, hscript] at hn
  | some most =>
      simp only [Sink.write, hscript, List.length_drop,
        Option.some.injEq] at hn
      omega

/-- The loop returns 0 only, also when calls failed. -/
theorem writeBufLoop_sends (hlength : buf.length < 2 ^ 31)
    {last : Option ℕ} (hroom : tmp + len = buf.length)
    (hlast : ∀ n, last = some n → n ≤ len)
    (h : writeBufLoop buf.stored fuel tmp len (writeResult last) sink =
      .ok (r, final)) :
    r = 0 ∧ (last = none → 0 < tmp) ∧
      Sends (leftAfter buf tmp last) sink final := by
  induction fuel generalizing tmp len last sink with
  | zero => cases h
  | succ fuel ih =>
      have hbytes : buf.bytes.length = buf.length := rfl
      -- the body of the loop, once the new position is known
      have hturn : ∀ position remaining : ℕ,
          position + remaining = buf.length →
          (write buf.stored position remaining sink >>= fun result =>
            writeBufLoop buf.stored fuel position remaining result.1
              result.2) = .ok (r, final) →
          r = 0 ∧ Sends (buf.bytes.drop position) sink final := by
        intro position remaining hsplit hbody
        rw [write_stored sink hsplit hlength, ok_bind] at hbody
        obtain ⟨hzero, hpositive, hsends⟩ := ih hsplit
          (fun n hn => (write_le _ _ hn).trans (by omega)) hbody
        exact ⟨hzero, sends_of_write hsends hpositive (by omega)⟩
      rw [writeBufLoop] at h
      cases last with
      | none =>
          have hne : ¬ (-1 : ℤ) = len := by omega
          rw [writeResult_none, if_neg hne] at h
          cases tmp with
          | zero =>
              have htmp : intAdd ((0 : ℕ) : ℤ) (-1) = .ok (-1) := by decide
              rw [htmp, ok_bind] at h
              obtain ⟨count, _, hrest⟩ := bind_eq_ok_iff.mp h
              simp [write, readSpan_negative] at hrest
          | succ tmp =>
              have htmp : intAdd ((tmp + 1 : ℕ) : ℤ) (-1) = .ok (tmp : ℤ) :=
                intAdd_eq (by omega) (by omega)
              have hlen : intAdd (len : ℤ) (-(-1)) =
                  .ok ((len + 1 : ℕ) : ℤ) :=
                intAdd_eq (by omega) (by omega)
              rw [htmp, ok_bind, hlen, ok_bind] at h
              obtain ⟨hzero, hsends⟩ := hturn tmp (len + 1) (by omega) h
              exact ⟨hzero, fun _ => Nat.succ_pos tmp, hsends⟩
      | some n =>
          have hle := hlast n rfl
          rw [writeResult_some] at h
          by_cases hdone : n = len
          · rw [hdone, if_pos rfl, if_neg (by omega)] at h
            cases h
            have hnone : leftAfter buf tmp (some n) = [] :=
              List.drop_eq_nil_of_le (by omega)
            rw [hnone]
            exact ⟨rfl, fun hnever => absurd hnever (Option.some_ne_none n),
              Sends.refl _⟩
          · have hne : ¬ (n : ℤ) = len := by exact_mod_cast hdone
            have htmp : intAdd (tmp : ℤ) n = .ok ((tmp + n : ℕ) : ℤ) :=
              intAdd_eq (by omega) (by omega)
            have hlen : intAdd (len : ℤ) (-n) = .ok ((len - n : ℕ) : ℤ) :=
              intAdd_eq (by omega) (by omega)
            rw [if_neg hne, htmp, ok_bind, hlen, ok_bind] at h
            obtain ⟨hzero, hsends⟩ := hturn (tmp + n) (len - n) (by omega) h
            exact ⟨hzero, fun hnone => absurd hnone (Option.some_ne_none n),
              hsends⟩

/-- With a steady sink every turn of the loop leaves less. -/
theorem writeBufLoop_of_steady (fuel : ℕ) (sink : Sink Byte) (n : ℕ)
    (hlength : buf.length < 2 ^ 31) (hsteady : Steady sink.script)
    (hroom : tmp + len = buf.length) (hle : n ≤ len)
    (hfuel : len - n < fuel) :
    ∃ final, writeBufLoop buf.stored fuel tmp len n sink = .ok (0, final) := by
  obtain ⟨fuel, rfl⟩ : ∃ k, fuel = k + 1 :=
    Nat.exists_eq_succ_of_ne_zero (by omega)
  induction fuel generalizing tmp len n sink with
  | zero =>
      have hdone : n = len := by omega
      exact ⟨sink, by simp [writeBufLoop, hdone]⟩
  | succ fuel ih =>
      by_cases hdone : n = len
      · exact ⟨sink, by simp [writeBufLoop, hdone]⟩
      · have hne : ¬ (n : ℤ) = len := by exact_mod_cast hdone
        have htmp : intAdd (tmp : ℤ) n = .ok ((tmp + n : ℕ) : ℤ) :=
          intAdd_eq (by omega) (by omega)
        have hlen : intAdd (len : ℤ) (-n) = .ok ((len - n : ℕ) : ℤ) :=
          intAdd_eq (by omega) (by omega)
        have hsplit : tmp + n + (len - n) = buf.length := by omega
        obtain ⟨most, hmost⟩ := hsteady sink.calls
        have hresult : (sink.write (buf.bytes.drop (tmp + n))).1 =
            some (min (most + 1) (len - n)) := by
          have hbytes : buf.bytes.length = buf.length := rfl
          have hleft : (buf.bytes.drop (tmp + n)).length = len - n := by
            rw [List.length_drop]
            omega
          simp [Sink.write, hmost, hleft]
        have hscript : (sink.write (buf.bytes.drop (tmp + n))).2.script =
            sink.script := by
          simp [Sink.write, hmost]
        have hrest := @ih (tmp + n) (len - n)
          (sink.write (buf.bytes.drop (tmp + n))).2 (min (most + 1) (len - n))
          (hscript ▸ hsteady) hsplit (Nat.min_le_right (most + 1) _) (by omega)
        rw [writeBufLoop, if_neg hne, htmp, ok_bind, hlen, ok_bind,
          write_stored sink hsplit hlength, ok_bind, hresult]
        exact hrest

theorem writeBuf_eq (fuel : ℕ) (sink : Sink Byte)
    (hlength : buf.length < 2 ^ 31) :
    writeBuf fuel buf sink =
      if (sink.write buf.bytes).1 = none then
        .ok (-1, (sink.write buf.bytes).2)
      else
        writeBufLoop buf.stored fuel 0 buf.length
          (writeResult (sink.write buf.bytes).1)
          (sink.write buf.bytes).2 := by
  have hwrite := write_stored sink (Nat.zero_add buf.length) hlength
  rw [List.drop_zero, Nat.cast_zero] at hwrite
  simp only [writeBuf, intOfSize_of_lt hlength, hwrite, ok_bind]
  cases (sink.write buf.bytes).1 with
  | none => simp
  | some n =>
      have hnot : ¬ (n : ℤ) < 0 := by omega
      rw [writeResult_some, if_neg hnot, if_neg (Option.some_ne_none n)]

theorem writeBuf_sends {most : ℕ} (hlength : buf.length < 2 ^ 31)
    (hscript : sink.script sink.calls = some most)
    (h : writeBuf fuel buf sink = .ok (r, final)) :
    r = 0 ∧ Sends buf.bytes sink final := by
  have hsome : (sink.write buf.bytes).1 ≠ none := by
    simp [Sink.write, hscript]
  rw [writeBuf_eq fuel sink hlength, if_neg hsome] at h
  have hle : ∀ n, (sink.write buf.bytes).1 = some n → n ≤ buf.length := by
    intro n hn
    exact write_le sink 0 (by rwa [List.drop_zero])
  obtain ⟨hzero, hpositive, hsends⟩ :=
    writeBufLoop_sends hlength (Nat.zero_add _) hle h
  have hwhole : Sends (buf.bytes.drop 0) sink final :=
    sends_of_write hsends hpositive (Nat.zero_le _)
  exact ⟨hzero, hwhole⟩

/-- What `write_buf` returns and sends, however the calls go.  Only a failure
of the first call is reported; a later one makes it send a byte again. -/
theorem writeBuf_outcome (fuel : ℕ) (buf : CString) (sink final : Sink Byte)
    (r : ℤ) (hlength : buf.length < 2 ^ 31)
    (h : writeBuf fuel buf sink = .ok (r, final)) :
    (r = -1 ↔ sink.script sink.calls = none) ∧
      (r = -1 → final.accepted = sink.accepted) ∧
      (r ≠ -1 → r = 0 ∧ Sends buf.bytes sink final) := by
  cases hscript : sink.script sink.calls with
  | none =>
      have hnone : (sink.write buf.bytes).1 = none := by
        simp [Sink.write, hscript]
      rw [writeBuf_eq fuel sink hlength, if_pos hnone] at h
      cases h
      refine ⟨by simp, fun _ => ?_, fun hne => absurd rfl hne⟩
      simp [Sink.write, hscript]
  | some most =>
      obtain ⟨hzero, hsends⟩ := writeBuf_sends hlength hscript h
      subst hzero
      exact ⟨by simp, fun hneg => absurd hneg (by decide),
        fun _ => ⟨rfl, hsends⟩⟩

/-- The second call fails after the first has sent one byte of two. -/
def failingSecond : Sink Byte where
  script := fun call =>
    if call = 0 then some 1 else if call = 1 then none else some 5
  calls := 0
  accepted := []

def twoBytes : CString := ⟨[65#8, 66#8], by decide⟩

theorem writeBuf_outcome_failing :
    ∃ final, writeBuf 4 twoBytes failingSecond = .ok (0, final) ∧
      ((0 : ℤ) = -1 ↔ failingSecond.script failingSecond.calls = none) ∧
      ((0 : ℤ) = -1 → final.accepted = failingSecond.accepted) ∧
      ((0 : ℤ) ≠ -1 →
        (0 : ℤ) = 0 ∧ Sends twoBytes.bytes failingSecond final) :=
  ⟨_, rfl, writeBuf_outcome 4 twoBytes failingSecond _ 0 (by decide) rfl⟩

theorem writeBuf_of_steady (hlength : buf.length < 2 ^ 31)
    (hsteady : Steady sink.script) :
    ∃ final, writeBuf (buf.length + 1) buf sink = .ok (0, final) ∧
      final.accepted = sink.accepted ++ buf.bytes := by
  obtain ⟨most, hmost⟩ := hsteady sink.calls
  have hresult : (sink.write buf.bytes).1 =
      some (min (most + 1) buf.bytes.length) := by
    simp [Sink.write, hmost]
  have hscript : (sink.write buf.bytes).2.script = sink.script := by
    simp [Sink.write, hmost]
  obtain ⟨final, hloop⟩ := writeBufLoop_of_steady (buf.length + 1)
    (sink.write buf.bytes).2 (min (most + 1) buf.bytes.length) hlength
    (hscript ▸ hsteady)
    (Nat.zero_add buf.length) (Nat.min_le_right _ _) (by omega)
  have hcall : writeBuf (buf.length + 1) buf sink = .ok (0, final) := by
    rw [writeBuf_eq _ sink hlength, hresult, if_neg (Option.some_ne_none _)]
    exact hloop
  obtain ⟨_, hsends⟩ := writeBuf_sends hlength hmost hcall
  rcases hsends.accepted with ⟨sent, haccepted, _, hexact⟩
  rw [hexact (failures_of_steady hsteady)] at haccepted
  exact ⟨final, hcall, haccepted⟩

end Writing

section Reading

variable {E : Env} {source : Source Byte} {w : World} {fuel : ℕ}

/-- Every block is granted: one for each piece, each as large as everything
read so far, and one for the NUL. -/
def AllGranted (E : Env) (request size : ℕ) : List (List Byte) → Prop
  | [] => E.grants request (size + 1) = true
  | piece :: rest =>
      E.grants request (size + piece.length) = true ∧
        AllGranted E (request + 1) (size + piece.length) rest

instance (E : Env) (request size : ℕ) (pieces : List (List Byte)) :
    Decidable (AllGranted E request size pieces) := by
  induction pieces generalizing request size with
  | nil => exact instDecidableEqBool _ _
  | cons piece rest ih => exact instDecidableAnd

/-- The block which holds what was read so far. -/
def HoldsRead (buf : Option ByteBlock) (content : List Byte) : Prop :=
  match buf with
  | none => content = []
  | some block => block.bytes = content

/-- The block held after this many more were granted; each of the others went
to `realloc`. -/
def heldBlock (buf : Option ByteBlock) (request held : ℕ) : List Addr :=
  if held = 0 then (buf.map ByteBlock.addr).toList else [request + held - 1]

/-- What is left after reading has ended, given the pieces that were there to
be read: a block with all of them and a NUL, or `NULL` and no block. -/
structure ReadEnds (E : Env) (buf : Option ByteBlock) (content : List Byte)
    (pieces : List (List Byte) × Bool × Source Byte) (w : World)
    (out : Option ByteBlock) (source : Source Byte) (after : World) :
    Prop where
  filled : AllGranted E w.requests content.length pieces.1 →
    pieces.2.1 = false → ∃ block, out = some block ∧
      block.bytes = content ++ pieces.1.flatten ++ [0#8] ∧
      source = pieces.2.2 ∧ after.released = w.released ∧
      block.addr = w.requests + pieces.1.length ∧
      after.requests = w.requests + pieces.1.length + 1
  failed : ¬ (AllGranted E w.requests content.length pieces.1 ∧
      pieces.2.1 = false) → out = none ∧
    ∃ held ≤ pieces.1.length,
      after.released = w.released ++ heldBlock buf w.requests held ∧
      (after.requests = w.requests + held ∨
        after.requests = w.requests + held + 1)

theorem aFree_released (buf : Option ByteBlock) (w : World) :
    (Bytes.aFree buf w).released = w.released ++ heldBlock buf w.requests 0 ∧
      (Bytes.aFree buf w).requests = w.requests := by
  cases buf with
  | none => simp [Bytes.aFree, heldBlock]
  | some block => simp [Bytes.aFree, World.release, heldBlock]

theorem realloc_of_refused {buf : Option ByteBlock} {size : ℕ}
    (hrefused : E.grants w.requests size = false) :
    Bytes.realloc E buf size w =
      (none, { w with requests := w.requests + 1, errno := enomem }) := by
  simp [Bytes.realloc, malloc, hrefused]

/-- Appending to the block: `realloc`, then writing behind what was there. -/
theorem writeAt_grown {buf : Option ByteBlock} {content : List Byte}
    (more : List Byte) (hbuf : HoldsRead buf content) (fresh : List Byte)
    (hlength : fresh.length = content.length + more.length) :
    writeAt (Bytes.reallocBytes buf fresh) content.length more =
      .ok (content ++ more) := by
  have htotal : (Bytes.reallocBytes buf fresh).length =
      content.length + more.length := by
    rw [Bytes.reallocBytes_length, hlength]
  have htake : (Bytes.reallocBytes buf fresh).take content.length =
      content := by
    cases buf with
    | none =>
        rw [show content = [] from hbuf]
        rfl
    | some block =>
        have hbytes : block.bytes = content := hbuf
        rw [Bytes.reallocBytes, hbytes, List.take_of_length_le
          (by omega : content.length ≤ fresh.length), List.take_left]
  rw [writeAt, if_pos htotal.ge, htake, List.drop_eq_nil_of_le htotal.le,
    List.append_nil]

theorem readEnds_none {buf : Option ByteBlock} {content : List Byte}
    {pieces : List (List Byte) × Bool × Source Byte} {last : Source Byte}
    (reported : World) (hreleased : reported.released = w.released)
    (hrequests : reported.requests = w.requests ∨
      reported.requests = w.requests + 1)
    (hnot : ¬ (AllGranted E w.requests content.length pieces.1 ∧
      pieces.2.1 = false)) :
    ReadEnds E buf content pieces w none last
      (Bytes.aFree buf reported) where
  filled := fun hgranted hended => absurd ⟨hgranted, hended⟩ hnot
  failed := by
    intro _
    obtain ⟨hfreed, hsame⟩ := aFree_released buf reported
    refine ⟨rfl, 0, Nat.zero_le _, ?_, ?_⟩
    · rw [hfreed, hreleased]
      rfl
    · rw [hsame]
      exact hrequests

/-- Reading went on after one piece was stored. -/
theorem ReadEnds.cons {buf out : Option ByteBlock}
    {content piece : List Byte}
    {pieces : List (List Byte) × Bool × Source Byte} {last : Source Byte}
    {granted after : World}
    (hgrant : E.grants w.requests (content.length + piece.length) = true)
    (hrequests : granted.requests = w.requests + 1)
    (hreleased : granted.released = w.released)
    (h : ReadEnds E (some ⟨w.requests, content ++ piece⟩) (content ++ piece)
      pieces granted out last after) :
    ReadEnds E buf content (piece :: pieces.1, pieces.2.1, pieces.2.2) w out
      last after := by
  rcases h with ⟨hfilled, hfailed⟩
  rw [List.length_append, hrequests, hreleased] at hfilled hfailed
  constructor
  · intro hgranted hended
    obtain ⟨block, hout, hbytes, hlast, hsame, haddr, hmade⟩ :=
      hfilled hgranted.2 hended
    refine ⟨block, hout, ?_, hlast, hsame, ?_, ?_⟩
    · rw [hbytes, List.flatten_cons]
      simp only [List.append_assoc]
    · simp only [List.length_cons]
      rw [haddr, Nat.add_assoc, Nat.add_comm 1]
    · simp only [List.length_cons]
      omega
  · intro hnot
    obtain ⟨hnone, held, hle, hfreed, hmade⟩ :=
      hfailed fun hrest => hnot ⟨⟨hgrant, hrest.1⟩, hrest.2⟩
    refine ⟨hnone, held + 1, Nat.succ_le_succ hle, ?_, ?_⟩
    · rw [hfreed]
      cases held with
      | zero => simp [heldBlock]
      | succ held =>
          simp only [heldBlock, Nat.succ_ne_zero, if_false]
          rw [show w.requests + 1 + (held + 1) - 1 =
            w.requests + (held + 1 + 1) - 1 by omega]
    · rcases hmade with hexact | hmore
      · left
        rw [hexact]
        omega
      · right
        rw [hmore]
        omega

theorem readEnds_refused {buf : Option ByteBlock} {content : List Byte}
    {pieces : List (List Byte) × Bool × Source Byte} {last : Source Byte}
    (hnot : ¬ (AllGranted E w.requests content.length pieces.1 ∧
      pieces.2.1 = false)) :
    ReadEnds E buf content pieces w none last
      (Bytes.aFree buf { w with
        requests := w.requests + 1
        errno := enomem }) :=
  readEnds_none _ rfl (Or.inr rfl) hnot

/-- At the end of the data a NUL is stored. -/
theorem readBufLoop_end {buf : Option ByteBlock} {content : List Byte}
    (fuel : ℕ) (source : Source Byte)
    (hlength : content.length + 1 < 2 ^ 31) (hbuf : HoldsRead buf content) :
    ∃ out after,
      readBufLoop E (fuel + 1) buf content.length (some []) source w =
          .ok (out, source, after) ∧
        ReadEnds E buf content ([], false, source) w out source after := by
  have hadd : intAdd (content.length : ℤ) 1 =
      .ok ((content.length + 1 : ℕ) : ℤ) :=
    intAdd_eq (by omega) hlength
  have hsize : sizeOfInt ((content.length + 1 : ℕ) : ℤ) =
      content.length + 1 := sizeOfInt_natCast (by omega)
  have hoffset : sizeOfInt (content.length : ℤ) = content.length :=
    sizeOfInt_natCast (by omega)
  simp only [readBufLoop, hadd, ok_bind, hsize]
  cases hgrant : E.grants w.requests (content.length + 1) with
  | true =>
      have hwrite := writeAt_grown [0#8] hbuf
        (Bytes.freshBytes E w.requests (content.length + 1)) (by simp)
      rw [Bytes.realloc_of_grants hgrant]
      simp only [hoffset, hwrite, ok_bind]
      refine ⟨_, _, rfl, ⟨fun _ _ => ?_, fun hnot => ?_⟩⟩
      · exact ⟨_, rfl, by simp, rfl, rfl, rfl, rfl⟩
      · exact absurd ⟨hgrant, rfl⟩ hnot
  | false =>
      rw [realloc_of_refused hgrant]
      refine ⟨_, _, rfl, readEnds_refused ?_⟩
      simp [AllGranted, hgrant]

section Piece

variable {buf : Option ByteBlock} {content piece : List Byte}

theorem readBufLoop_piece (fuel : ℕ) (source : Source Byte)
    (hpiece : piece ≠ []) (hlength : content.length + piece.length < 2 ^ 31)
    (hbuf : HoldsRead buf content)
    (hgrant : E.grants w.requests (content.length + piece.length) = true) :
    readBufLoop E (fuel + 1) buf content.length (some piece) source w =
      readBufLoop E fuel (some ⟨w.requests, content ++ piece⟩)
        (content ++ piece).length (source.read tmpbufSize).1
        (source.read tmpbufSize).2
        { w with requests := w.requests + 1 } := by
  cases piece with
  | nil => exact absurd rfl hpiece
  | cons first rest =>
      have hadd : intAdd (content.length : ℤ) ((first :: rest).length : ℤ) =
          .ok ((content.length + (first :: rest).length : ℕ) : ℤ) :=
        intAdd_eq (by omega) hlength
      have hsize : sizeOfInt
          ((content.length + (first :: rest).length : ℕ) : ℤ) =
          content.length + (first :: rest).length :=
        sizeOfInt_natCast (by omega)
      have hoffset : sizeOfInt (content.length : ℤ) = content.length :=
        sizeOfInt_natCast (by omega)
      have hwrite := writeAt_grown (first :: rest) hbuf
        (Bytes.freshBytes E w.requests
          (content.length + (first :: rest).length))
        (by rw [Bytes.freshBytes_length])
      simp only [readBufLoop, hadd, ok_bind, hsize,
        Bytes.realloc_of_grants hgrant, hoffset, hwrite]
      rw [List.length_append]

theorem readBufLoop_refused (fuel : ℕ) (source : Source Byte)
    (hpiece : piece ≠ []) (hlength : content.length + piece.length < 2 ^ 31)
    (hgrant : E.grants w.requests (content.length + piece.length) = false) :
    readBufLoop E (fuel + 1) buf content.length (some piece) source w =
      .ok (none, source, Bytes.aFree buf { w with
        requests := w.requests + 1
        errno := enomem }) := by
  cases piece with
  | nil => exact absurd rfl hpiece
  | cons first rest =>
      have hadd : intAdd (content.length : ℤ) ((first :: rest).length : ℤ) =
          .ok ((content.length + (first :: rest).length : ℕ) : ℤ) :=
        intAdd_eq (by omega) hlength
      have hsize : sizeOfInt
          ((content.length + (first :: rest).length : ℕ) : ℤ) =
          content.length + (first :: rest).length :=
        sizeOfInt_natCast (by omega)
      simp only [readBufLoop, hadd, ok_bind, hsize,
        realloc_of_refused hgrant]
      rfl

end Piece

theorem readBufLoop_ends {buf : Option ByteBlock} {content : List Byte}
    (hfuel : source.pending.length < fuel)
    (hlength : content.length + source.pending.length + 1 < 2 ^ 31)
    (hbuf : HoldsRead buf content) :
    ∃ out last after,
      readBufLoop E fuel buf content.length (source.read tmpbufSize).1
          (source.read tmpbufSize).2 w = .ok (out, last, after) ∧
        ReadEnds E buf content (source.pieces tmpbufSize fuel) w out last
          after := by
  induction fuel generalizing buf content source w with
  | zero => omega
  | succ fuel ih =>
      cases hscript : source.script source.calls with
      | none =>
          have hread := Source.read_of_none tmpbufSize hscript
          refine ⟨none, _, _, by rw [hread]; rfl, ?_⟩
          simp only [Source.pieces, hread]
          exact readEnds_none w rfl (Or.inl rfl) (by simp)
      | some most =>
          have hread := Source.read_of_some tmpbufSize hscript
          have hsplit := List.take_append_drop (min most tmpbufSize)
            source.pending
          cases htake : source.pending.take (min most tmpbufSize) with
          | nil =>
              rw [htake] at hread
              simp only [Source.pieces, hread]
              obtain ⟨out, after, hloop, hends⟩ := readBufLoop_end fuel _
                (by omega) hbuf
              exact ⟨out, _, after, hloop, hends⟩
          | cons first rest =>
              rw [htake] at hread hsplit
              have htotal : (first :: rest).length +
                  (source.pending.drop (min most tmpbufSize)).length =
                  source.pending.length := by
                rw [← List.length_append, hsplit]
              have hpiece : 0 < (first :: rest).length := by simp
              simp only [Source.pieces, hread]
              cases hgrant : E.grants w.requests
                  (content.length + (first :: rest).length) with
              | true =>
                  rw [readBufLoop_piece fuel _ (List.cons_ne_nil first rest)
                    (by omega) hbuf hgrant]
                  obtain ⟨out, last, after, hloop, hends⟩ :=
                    @ih { source with
                        calls := source.calls + 1
                        pending :=
                          source.pending.drop (min most tmpbufSize) }
                      { w with requests := w.requests + 1 }
                      (some ⟨w.requests, content ++ (first :: rest)⟩)
                      (content ++ (first :: rest)) (by simp only; omega)
                      (by rw [List.length_append]; simp only; omega) rfl
                  refine ⟨out, last, after, hloop,
                    ReadEnds.cons hgrant ?_ ?_ hends⟩
                  · rfl
                  · rfl
              | false =>
                  rw [readBufLoop_refused fuel _
                    (List.cons_ne_nil first rest) (by omega) hgrant]
                  refine ⟨_, _, _, rfl, readEnds_refused ?_⟩
                  simp only [AllGranted, hgrant]
                  simp

theorem readBuf_eq (E : Env) (source : Source Byte) (w : World) :
    readBuf E source w =
      readBufLoop E (source.pending.length + 1) none ([] : List Byte).length
        (source.read tmpbufSize).1 (source.read tmpbufSize).2 w := by
  cases hscript : source.script source.calls with
  | none =>
      rw [readBuf, Source.read_of_none tmpbufSize hscript]
      rfl
  | some most =>
      rw [readBuf, Source.read_of_some tmpbufSize hscript]
      rfl

end Reading

section RoundTrip

variable {E : Env}

theorem allGranted_of_grantsAll (hgrants : E.GrantsAll) (request size : ℕ)
    (pieces : List (List Byte)) : AllGranted E request size pieces := by
  induction pieces generalizing request size with
  | nil => exact hgrants _ _
  | cons piece rest ih => exact ⟨hgrants _ _, ih _ _⟩

/-- One call of `write_buf` for each string. -/
def writeStep (sink : Sink Byte) (buf : CString) :
    Except Fault (ℤ × Sink Byte) :=
  writeBuf (buf.length + 1) buf sink

theorem writeBuf_script {fuel : ℕ} {buf : CString} {sink final : Sink Byte}
    {r : ℤ} (hlength : buf.length < 2 ^ 31) (hsteady : Steady sink.script)
    (h : writeBuf fuel buf sink = .ok (r, final)) :
    final.script = sink.script := by
  obtain ⟨most, hmost⟩ := hsteady sink.calls
  exact (writeBuf_sends hlength hmost h).2.script

theorem foldl_append_bytes (strings : List CString) (start : CString) :
    (strings.foldl (· ++ ·) start).bytes =
      start.bytes ++ (strings.map CString.bytes).flatten := by
  induction strings generalizing start with
  | nil => simp
  | cons first rest ih => simp [ih]

theorem concat_cons (buf : CString) (rest : List CString) :
    CString.concat (buf :: rest) = buf ++ CString.concat rest := by
  apply CString.ext
  simp [CString.concat, foldl_append_bytes]

theorem writeStep_run {bufs : List CString} {sink : Sink Byte}
    (transcript : List (CString × ℤ))
    (hlength : (CString.concat bufs).length < 2 ^ 31)
    (hsteady : Steady sink.script) :
    ∃ final, run writeStep ⟨sink, transcript⟩ bufs = .ok final ∧
      final.state.accepted = sink.accepted ++ (CString.concat bufs).bytes ∧
      final.transcript = transcript ++ bufs.map fun buf => (buf, 0) := by
  induction bufs generalizing sink transcript with
  | nil => exact ⟨_, rfl, by simp [CString.concat], by simp⟩
  | cons buf rest ih =>
      rw [concat_cons, CString.length_append] at hlength
      have hshort : buf.length < 2 ^ 31 := by omega
      obtain ⟨after, hcall, haccepted⟩ := writeBuf_of_steady hshort hsteady
      have hscript := writeBuf_script hshort hsteady hcall
      obtain ⟨final, hrun, hfinal, htranscript⟩ := @ih after
        (transcript ++ [(buf, 0)]) (by omega) (hscript ▸ hsteady)
      refine ⟨final, ?_, ?_, ?_⟩
      · rw [run, Config.step_of_ok hcall]
        exact hrun
      · rw [hfinal, haccepted, concat_cons, CString.append_bytes,
          List.append_assoc]
      · rw [htranscript]
        simp

/-- Strings written one after the other are read back as one string, however
the writes and the reads are cut into pieces. -/
theorem readBuf_of_writeBuf (E : Env) (w : World) (bufs : List CString)
    (writing reading : Script) (hgrants : E.GrantsAll)
    (hwriting : Steady writing) (hreading : Steady reading)
    (hlength : (CString.concat bufs).length + 1 < 2 ^ 31) :
    ∃ sent, run writeStep (Config.initial ⟨writing, 0, []⟩) bufs = .ok sent ∧
      (∀ entry ∈ sent.transcript, entry.2 = 0) ∧
      ∃ block last after,
        readBuf E ⟨reading, 0, sent.state.accepted⟩ w =
          .ok (some block, last, after) ∧
        block.bytes = (CString.concat bufs).stored ∧ last.pending = [] ∧
        after.released = w.released := by
  obtain ⟨sent, hrun, haccepted, htranscript⟩ :=
    @writeStep_run bufs ⟨writing, 0, []⟩ [] (by omega) hwriting
  rw [List.nil_append] at haccepted htranscript
  refine ⟨sent, hrun, ?_, ?_⟩
  · rw [htranscript]
    intro entry hentry
    obtain ⟨buf, _, rfl⟩ := List.mem_map.mp hentry
    rfl
  · rw [haccepted]
    generalize hbytes : (CString.concat bufs).bytes = bytes
    have hbytesLength : bytes.length + 1 < 2 ^ 31 := by
      rw [← hbytes]
      exact hlength
    obtain ⟨hdelivered, hended⟩ := @Source.pieces_of_steady _
      ⟨reading, 0, bytes⟩ tmpbufSize (bytes.length + 1) hreading (by decide)
      (Nat.lt_succ_self _)
    have hrest := Source.pieces_append tmpbufSize (bytes.length + 1)
      (⟨reading, 0, bytes⟩ : Source Byte)
    rw [hdelivered] at hrest
    have hread := @readBufLoop_ends E ⟨reading, 0, bytes⟩ w
      (bytes.length + 1) none [] (Nat.lt_succ_self _)
      (by rw [List.length_nil]; simp only; omega) rfl
    obtain ⟨out, last, after, hcall, hends⟩ := hread
    obtain ⟨block, rfl, hblock, rfl, hreleased, _⟩ :=
      hends.filled (allGranted_of_grantsAll hgrants _ _ _) hended
    refine ⟨block, _, after, ?_, ?_, List.append_right_eq_self.mp hrest,
      hreleased⟩
    · rw [readBuf_eq]
      exact hcall
    · rw [hblock, hdelivered, CString.stored, hbytes]
      rfl

theorem readBuf_of_writeBuf_two :
    ∃ sent, run writeStep (Config.initial ⟨fun _ => some 1, 0, []⟩)
        [twoBytes, twoBytes] = .ok sent ∧
      (∀ entry ∈ sent.transcript, entry.2 = 0) ∧
      ∃ block last after,
        readBuf (filledEnv 0) ⟨fun _ => some 3, 0, sent.state.accepted⟩
            ⟨0, 0, .null, [], false⟩ = .ok (some block, last, after) ∧
        block.bytes = (CString.concat [twoBytes, twoBytes]).stored ∧
        last.pending = [] ∧ after.released = [] :=
  readBuf_of_writeBuf (filledEnv 0) ⟨0, 0, .null, [], false⟩ [twoBytes, twoBytes]
    (fun _ => some 1) (fun _ => some 3) (fun _ _ => rfl) (fun _ => ⟨0, rfl⟩)
    (fun _ => ⟨2, rfl⟩) (by decide)

end RoundTrip

end Buffers
end Alib
