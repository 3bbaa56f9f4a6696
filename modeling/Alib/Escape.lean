import Alib.Xmalloc

/-!
# Escaping colons

`escape_colon` and `unescape_colon` of `to_do/util.c`.  The first puts a
backslash in front of every colon and leaves other backslashes as they are;
the second, in place, drops every backslash.
-/

namespace Alib

open Bytes

/-- `for(in_ptr = in;*in_ptr;in_ptr++,out_ptr++)`, up to where `out_ptr` ends
up. -/
def escapeLoop (input : List Byte) :
    ℕ → ℕ → ℕ → List Byte → Except Fault (ℕ × List Byte)
  | 0, _, _, _ => .error .divergence
  | fuel + 1, inPtr, outPtr, out => do
      let b ← readAt input inPtr
      if b = 0#8 then return (outPtr, out)
      else if b = colon then do
        let out ← writeAt out outPtr [backslash]
        let out ← writeAt out (outPtr + 1) [b]
        escapeLoop input fuel (inPtr + 1) (outPtr + 2) out
      else do
        let out ← writeAt out outPtr [b]
        escapeLoop input fuel (inPtr + 1) (outPtr + 1) out

/-- The bytes written to the block for the string at the start of `input`. -/
def escapeTo (input out : List Byte) : Except Fault (List Byte) := do
  let (outPtr, out) ← escapeLoop input (input.length + 1) 0 0 out
  writeAt out outPtr [0#8]

def escapeColon (E : Env) (input : List Byte) (w : World) :
    Except Fault (Outcome (Option ByteBlock × World)) := do
  let len ← strlen input
  (Bytes.aXmalloc E (sizeAdd (sizeMul len 2) 1) w).andThen fun (out, w) => do
    let bytes ← escapeTo input out.bytes
    let outLen ← strlen bytes
    return aXrealloc E (some { out with bytes := bytes }) (sizeAdd outLen 1) w

/-- `for(leading = following = str;*leading;leading++)` -/
def unescapeLoop :
    ℕ → ℕ → ℕ → List Byte → Except Fault (ℕ × List Byte)
  | 0, _, _, _ => .error .divergence
  | fuel + 1, leading, following, str => do
      let b ← readAt str leading
      if b = 0#8 then return (following, str)
      else if b = backslash then
        unescapeLoop fuel (leading + 1) following str
      else do
        let str ← writeAt str following [b]
        unescapeLoop fuel (leading + 1) (following + 1) str

def unescapeColon (str : List Byte) : Except Fault (List Byte) := do
  let (following, str) ← unescapeLoop (str.length + 1) 0 0 str
  writeAt str following [0#8]

/-- One backslash is added in front of every colon, and nothing else. -/
inductive ColonsEscaped : List Byte → List Byte → Prop
  | nil : ColonsEscaped [] []
  | colon {s t : List Byte} (h : ColonsEscaped s t) :
      ColonsEscaped (colon :: s) (backslash :: colon :: t)
  | other {s t : List Byte} {b : Byte} (hb : b ≠ Alib.colon)
      (h : ColonsEscaped s t) : ColonsEscaped (b :: s) (b :: t)

/-- Every colon stands right behind a backslash. -/
def ColonsPreceded (bytes : List Byte) : Prop :=
  ∀ i, bytes[i]? = some colon → ∃ j, i = j + 1 ∧ bytes[j]? = some backslash

/-- `escape_colon` completes on every allocator, and returns when it is granted
its requests; what it returns has the colons escaped, and `unescape_colon`
makes the string of it again. -/
structure EscapesBack (s : CString) : Prop where
  completes : ∀ E w rest, ∃ outcome,
    escapeColon E (s.stored ++ rest) w = .ok outcome
  returns : ∀ E w rest, E.GrantsAll → ∃ block after,
    escapeColon E (s.stored ++ rest) w = .ok (.returned (some block, after))
  back : ∀ E w rest out after,
    escapeColon E (s.stored ++ rest) w = .ok (.returned (out, after)) →
    ∃ block escaped str, out = some block ∧ Holds block.bytes escaped ∧
      ColonsEscaped s.bytes escaped.bytes ∧ ColonsPreceded escaped.bytes ∧
      unescapeColon block.bytes = .ok str ∧ Holds str s

namespace CString

def escapeByte (b : Byte) : List Byte :=
  if b = colon then [backslash, colon] else [b]

/-- What `escape_colon` makes of the string. -/
def escaped (s : CString) : CString :=
  ⟨s.bytes.flatMap escapeByte, by
    intro hmem
    obtain ⟨b, hb, hzero⟩ := List.mem_flatMap.mp hmem
    unfold escapeByte at hzero
    split at hzero
    · exact absurd hzero (by decide)
    · exact s.noNul ((List.mem_singleton.mp hzero) ▸ hb)⟩

/-- What `unescape_colon` makes of the string. -/
def unescaped (s : CString) : CString :=
  ⟨s.bytes.filter (· ≠ backslash), fun hmem =>
    s.noNul (List.mem_of_mem_filter hmem)⟩

@[simp] theorem escaped_bytes (s : CString) :
    s.escaped.bytes = s.bytes.flatMap escapeByte := rfl

@[simp] theorem unescaped_bytes (s : CString) :
    s.unescaped.bytes = s.bytes.filter (· ≠ backslash) := rfl

theorem unescaped_eq_self_iff {s : CString} :
    s.unescaped = s ↔ backslash ∉ s.bytes := by
  rw [CString.ext_iff, unescaped_bytes, List.filter_eq_self]
  constructor
  · intro hkept hmem
    simpa using hkept backslash hmem
  · intro hmem b hb
    simpa using fun heq : b = backslash => hmem (heq ▸ hb)

/-- The backslashes added are dropped again, and so are all others. -/
theorem unescaped_escaped (s : CString) :
    s.escaped.unescaped = s.unescaped := by
  apply CString.ext
  rw [unescaped_bytes, escaped_bytes, List.filter_flatMap, unescaped_bytes]
  induction s.bytes with
  | nil => rfl
  | cons b bytes ih =>
      rw [List.flatMap_cons, ih]
      by_cases hb : b = colon
      · subst hb
        rfl
      · by_cases hslash : b = backslash
        · subst hslash
          rfl
        · simp [escapeByte, hb, hslash]

theorem colonsEscaped_escaped (s : CString) :
    ColonsEscaped s.bytes s.escaped.bytes := by
  rw [escaped_bytes]
  induction s.bytes with
  | nil => exact .nil
  | cons b bytes ih =>
      rw [List.flatMap_cons]
      by_cases hb : b = colon
      · subst hb
        exact .colon ih
      · rw [escapeByte, if_neg hb]
        exact .other hb ih

theorem length_le_escaped (s : CString) : s.length ≤ s.escaped.length ∧
    s.escaped.length ≤ 2 * s.length := by
  unfold length
  rw [escaped_bytes]
  induction s.bytes with
  | nil => simp
  | cons b bytes ih =>
      rw [List.flatMap_cons, List.length_append, List.length_cons]
      have hone : 1 ≤ (escapeByte b).length ∧ (escapeByte b).length ≤ 2 := by
        unfold escapeByte
        split <;> simp
      omega

end CString

theorem ColonsEscaped.preceded {s t : List Byte} (h : ColonsEscaped s t) :
    ColonsPreceded t := by
  induction h with
  | nil =>
      intro i hi
      simp at hi
  | colon _ ih =>
      intro i hi
      rcases i with _ | _ | i
      · exact absurd (Option.some.inj hi) (by decide)
      · exact ⟨0, rfl, rfl⟩
      · obtain ⟨j, hj, hslash⟩ := ih i hi
        exact ⟨j + 2, by omega, hslash⟩
  | other hb _ ih =>
      intro i hi
      rcases i with _ | i
      · exact absurd (Option.some.inj hi) hb
      · obtain ⟨j, hj, hslash⟩ := ih i hi
        exact ⟨j + 1, by omega, hslash⟩

section Loops

theorem escapeLoop_step {b : Byte} (hb : b ≠ 0#8) (front after : List Byte)
    (done old left : List Byte)
    (hold : old.length = (CString.escapeByte b).length) (fuel : ℕ) :
    escapeLoop (front ++ b :: after) (fuel + 1) front.length done.length
        (done ++ old ++ left) =
      escapeLoop (front ++ b :: after) fuel (front ++ [b]).length
        (done ++ CString.escapeByte b).length
        (done ++ CString.escapeByte b ++ left) := by
  rw [escapeLoop, readAt_append, ok_bind, if_neg hb, List.length_append,
    List.length_append, List.length_singleton]
  by_cases hcolon : b = colon
  · have hbyte : CString.escapeByte b = [backslash, b] := by
      rw [CString.escapeByte, if_pos hcolon, hcolon]
    rw [hbyte] at hold ⊢
    obtain ⟨x, y, rfl⟩ := List.length_eq_two.mp hold
    have hfirst : writeAt (done ++ [x, y] ++ left) done.length [backslash] =
        .ok (done ++ [backslash, y] ++ left) := by
      have hwrite := writeAt_byte done (y :: left) x backslash
      simpa using hwrite
    have hsecond : writeAt (done ++ [backslash, y] ++ left) (done.length + 1)
        [b] = .ok (done ++ [backslash, b] ++ left) := by
      have hwrite := writeAt_byte (done ++ [backslash]) left y b
      simpa using hwrite
    rw [if_pos hcolon, hfirst, ok_bind, hsecond, ok_bind]
    rfl
  · have hbyte : CString.escapeByte b = [b] := by
      rw [CString.escapeByte, if_neg hcolon]
    rw [hbyte] at hold ⊢
    obtain ⟨x, rfl⟩ := List.length_eq_one_iff.mp hold
    have hfirst : writeAt (done ++ [x] ++ left) done.length [b] =
        .ok (done ++ [b] ++ left) := writeAt_append done [x] left rfl
    rw [if_neg hcolon, hfirst, ok_bind]
    rfl

theorem escapeLoop_spec (bytes : List Byte) (hnul : 0#8 ∉ bytes) :
    ∀ fuel front rest done old left, bytes.length < fuel →
      old.length = (bytes.flatMap CString.escapeByte).length →
      escapeLoop (front ++ bytes ++ 0#8 :: rest) fuel front.length
          done.length (done ++ old ++ left) =
        .ok ((done ++ bytes.flatMap CString.escapeByte).length,
          done ++ bytes.flatMap CString.escapeByte ++ left) := by
  induction bytes with
  | nil =>
      intro fuel front rest done old left hfuel hold
      obtain ⟨fuel, rfl⟩ := Nat.exists_eq_add_one.mpr hfuel
      have hnil : old = [] := List.eq_nil_of_length_eq_zero hold
      subst hnil
      rw [List.append_nil, escapeLoop, readAt_append, ok_bind, if_pos rfl]
      simp
  | cons b bytes ih =>
      intro fuel front rest done old left hfuel hold
      obtain ⟨fuel, rfl⟩ :=
        Nat.exists_eq_add_one.mpr (Nat.zero_lt_of_lt hfuel)
      have hb : b ≠ 0#8 := fun hzero => hnul (by simp [hzero])
      have hbytes : 0#8 ∉ bytes := fun hmem => hnul (by simp [hmem])
      rw [List.flatMap_cons, List.length_append] at hold
      -- The old bytes are those of this turn and those of the later ones.
      have hfirst : (old.take (CString.escapeByte b).length).length =
          (CString.escapeByte b).length := by
        rw [List.length_take]
        omega
      have hothers : (old.drop (CString.escapeByte b).length).length =
          (bytes.flatMap CString.escapeByte).length := by
        rw [List.length_drop]
        omega
      have hsplit : done ++ old ++ left =
          done ++ old.take (CString.escapeByte b).length ++
            (old.drop (CString.escapeByte b).length ++ left) := by
        rw [List.append_assoc, List.append_assoc, ← List.append_assoc
          (old.take _), List.take_append_drop]
      have hstep := escapeLoop_step hb front (bytes ++ 0#8 :: rest) done
        (old.take (CString.escapeByte b).length)
        (old.drop (CString.escapeByte b).length ++ left) hfirst fuel
      have hrest := ih hbytes fuel (front ++ [b]) rest
        (done ++ CString.escapeByte b)
        (old.drop (CString.escapeByte b).length) left
        (Nat.lt_of_succ_lt_succ hfuel) hothers
      rw [List.flatMap_cons, hsplit, List.append_assoc front,
        List.cons_append, hstep, ← List.append_assoc done]
      simpa using hrest

theorem escapeTo_spec (s : CString) (rest out : List Byte)
    (hroom : s.escaped.length + 1 ≤ out.length) :
    escapeTo (s.stored ++ rest) out =
      .ok (s.escaped.stored ++ out.drop (s.escaped.length + 1)) := by
  have hlength : s.escaped.bytes.length = s.escaped.length := rfl
  have hsplit : out = out.take s.escaped.length ++
      (out.drop s.escaped.length) := (List.take_append_drop _ _).symm
  obtain ⟨x, left, hdrop⟩ : ∃ x left, out.drop s.escaped.length =
      x :: left := by
    cases hcase : out.drop s.escaped.length with
    | nil =>
        have hzero := congrArg List.length hcase
        rw [List.length_drop, List.length_nil] at hzero
        omega
    | cons x left => exact ⟨x, left, rfl⟩
  have hleft : out.drop (s.escaped.length + 1) = left := by
    rw [← List.drop_drop, hdrop]
    rfl
  have hloop := escapeLoop_spec s.bytes s.noNul
    ((s.stored ++ rest).length + 1) [] rest [] (out.take s.escaped.length)
    (x :: left) (by simp [CString.stored])
    (by rw [List.length_take]; exact Nat.min_eq_left (by omega))
  rw [List.nil_append, List.nil_append, List.nil_append, List.length_nil,
    ← CString.escaped_bytes, ← hdrop, ← hsplit] at hloop
  have hregion : s.stored ++ rest = s.bytes ++ 0#8 :: rest := by
    simp [CString.stored]
  rw [escapeTo, hregion]
  rw [hregion] at hloop
  rw [hloop, ok_bind]
  dsimp only
  rw [hdrop, writeAt_byte, hleft]
  simp [CString.stored]

/-- The loop writes at least the bytes it reads, into the same block. -/
theorem escapeLoop_length (bytes : List Byte) (hnul : 0#8 ∉ bytes) :
    ∀ fuel front rest outPtr out outPtr' out',
      escapeLoop (front ++ bytes ++ 0#8 :: rest) fuel front.length outPtr
          out = .ok (outPtr', out') →
      outPtr + bytes.length ≤ outPtr' ∧ out'.length = out.length := by
  induction bytes with
  | nil =>
      intro fuel front rest outPtr out outPtr' out' h
      cases fuel with
      | zero => cases h
      | succ fuel =>
          rw [List.append_nil, escapeLoop, readAt_append, ok_bind,
            if_pos rfl] at h
          cases h
          exact ⟨le_rfl, rfl⟩
  | cons b bytes ih =>
      intro fuel front rest outPtr out outPtr' out' h
      have hb : b ≠ 0#8 := fun hzero => hnul (by simp [hzero])
      have hbytes : 0#8 ∉ bytes := fun hmem => hnul (by simp [hmem])
      have hinput : front ++ b :: bytes ++ 0#8 :: rest =
          front ++ [b] ++ bytes ++ 0#8 :: rest := by simp
      have hread : readAt (front ++ [b] ++ bytes ++ 0#8 :: rest)
          front.length = .ok b := by
        rw [← hinput, List.append_assoc]
        exact readAt_append front _ b
      have hfront : front.length + 1 = (front ++ [b]).length := by simp
      cases fuel with
      | zero => cases h
      | succ fuel =>
          rw [hinput, escapeLoop, hread, ok_bind, if_neg hb, hfront] at h
          rw [List.length_cons]
          by_cases hcolon : b = colon
          · rw [if_pos hcolon] at h
            obtain ⟨first, hfirst, h⟩ := bind_eq_ok_iff.mp h
            obtain ⟨second, hsecond, h⟩ := bind_eq_ok_iff.mp h
            obtain ⟨hle, hlength⟩ := ih hbytes _ _ _ _ _ _ _ h
            rw [writeAt_length hsecond, writeAt_length hfirst] at hlength
            exact ⟨by omega, hlength⟩
          · rw [if_neg hcolon] at h
            obtain ⟨first, hfirst, h⟩ := bind_eq_ok_iff.mp h
            obtain ⟨hle, hlength⟩ := ih hbytes _ _ _ _ _ _ _ h
            rw [writeAt_length hfirst] at hlength
            exact ⟨by omega, hlength⟩

theorem length_lt_of_escapeTo {s : CString} {rest out written : List Byte}
    (h : escapeTo (s.stored ++ rest) out = .ok written) :
    s.length < out.length := by
  have hregion : s.stored ++ rest = [] ++ s.bytes ++ 0#8 :: rest := by
    simp [CString.stored]
  unfold escapeTo at h
  obtain ⟨⟨outPtr, last⟩, hloop, hwrite⟩ := bind_eq_ok_iff.mp h
  rw [hregion] at hloop
  obtain ⟨hle, hlength⟩ := escapeLoop_length s.bytes s.noNul _ [] rest _ _ _ _
    hloop
  obtain ⟨hroom, _⟩ := writeAt_ok_iff.mp hwrite
  rw [List.length_singleton] at hroom
  have hbytes : s.bytes.length = s.length := rfl
  omega

/-- A backslash stays in the gap between the pointers. -/
theorem unescapeLoop_dropped (fuel : ℕ) (done gap behind : List Byte) :
    unescapeLoop (fuel + 1) (done ++ gap).length done.length
        (done ++ gap ++ backslash :: behind) =
      unescapeLoop fuel (done ++ (gap ++ [backslash])).length done.length
        (done ++ (gap ++ [backslash]) ++ behind) := by
  have hregion : done ++ gap ++ backslash :: behind =
      done ++ (gap ++ [backslash]) ++ behind := by simp
  have hleading : (done ++ gap).length + 1 =
      (done ++ (gap ++ [backslash])).length := by
    simp only [List.length_append, List.length_singleton]
    omega
  rw [unescapeLoop, readAt_append, ok_bind, if_neg (by decide), if_pos rfl,
    hregion, hleading]

/-- Another byte is written to the first place of the gap, which moves on. -/
theorem unescapeLoop_moved {b : Byte} (hb : b ≠ 0#8) (hslash : b ≠ backslash)
    (fuel : ℕ) (done gap behind : List Byte) :
    ∃ moved, moved.length = gap.length ∧
      unescapeLoop (fuel + 1) (done ++ gap).length done.length
          (done ++ gap ++ b :: behind) =
        unescapeLoop fuel (done ++ [b] ++ moved).length (done ++ [b]).length
          (done ++ [b] ++ moved ++ behind) := by
  obtain ⟨x, moved, hgap⟩ : ∃ x moved, gap ++ [b] = x :: moved :=
    List.exists_cons_of_ne_nil (by simp)
  have hsame : gap.length + 1 = moved.length + 1 := by
    have hlength := congrArg List.length hgap
    rwa [List.length_append, List.length_singleton, List.length_cons]
      at hlength
  have hregion : done ++ gap ++ b :: behind =
      done ++ x :: (moved ++ behind) := by
    have hfront : done ++ gap ++ b :: behind =
        done ++ (gap ++ [b]) ++ behind := by simp
    rw [hfront, hgap]
    simp
  have hmoved : done ++ b :: (moved ++ behind) =
      done ++ [b] ++ moved ++ behind := by simp
  have hleading : (done ++ gap).length + 1 =
      (done ++ [b] ++ moved).length := by
    simp only [List.length_append, List.length_singleton]
    omega
  have hfollowing : done.length + 1 = (done ++ [b]).length := by simp
  refine ⟨moved, (Nat.succ.inj hsame).symm, ?_⟩
  rw [unescapeLoop, readAt_append, ok_bind, if_neg hb, if_neg hslash, hregion,
    writeAt_byte, ok_bind, hmoved, hleading, hfollowing]

/-- The loop moves the bytes that stay down to `following`; the gap between
the pointers grows by the backslashes met. -/
theorem unescapeLoop_spec (bytes : List Byte) (hnul : 0#8 ∉ bytes) :
    ∀ fuel done gap rest, bytes.length < fuel →
      ∃ gap', unescapeLoop fuel (done ++ gap).length done.length
          (done ++ gap ++ bytes ++ 0#8 :: rest) =
        .ok ((done ++ bytes.filter (· ≠ backslash)).length,
          done ++ bytes.filter (· ≠ backslash) ++ gap' ++ 0#8 :: rest) ∧
        (bytes.filter (· ≠ backslash)).length + gap'.length =
          gap.length + bytes.length := by
  induction bytes with
  | nil =>
      intro fuel done gap rest hfuel
      obtain ⟨fuel, rfl⟩ := Nat.exists_eq_add_one.mpr hfuel
      refine ⟨gap, ?_, by simp⟩
      rw [List.append_nil, unescapeLoop, readAt_append, ok_bind, if_pos rfl]
      simp
  | cons b bytes ih =>
      intro fuel done gap rest hfuel
      obtain ⟨fuel, rfl⟩ :=
        Nat.exists_eq_add_one.mpr (Nat.zero_lt_of_lt hfuel)
      have hfuel' : bytes.length < fuel := Nat.lt_of_succ_lt_succ hfuel
      have hb : b ≠ 0#8 := fun hzero => hnul (by simp [hzero])
      have hbytes : 0#8 ∉ bytes := fun hmem => hnul (by simp [hmem])
      have hregion : done ++ gap ++ b :: bytes ++ 0#8 :: rest =
          done ++ gap ++ b :: (bytes ++ 0#8 :: rest) := by simp
      by_cases hslash : b = backslash
      · subst hslash
        have hkept : (backslash :: bytes).filter (· ≠ backslash) =
            bytes.filter (· ≠ backslash) := by simp
        obtain ⟨gap', hloop, hlength⟩ :=
          ih hbytes fuel done (gap ++ [backslash]) rest hfuel'
        rw [List.append_assoc _ bytes] at hloop
        rw [hregion, unescapeLoop_dropped, hkept]
        refine ⟨gap', hloop, ?_⟩
        rw [hlength, List.length_append, List.length_singleton,
          List.length_cons]
        omega
      · have hkept : (b :: bytes).filter (· ≠ backslash) =
            b :: bytes.filter (· ≠ backslash) := by simp [hslash]
        obtain ⟨moved, hsame, hturn⟩ :=
          unescapeLoop_moved hb hslash fuel done gap (bytes ++ 0#8 :: rest)
        obtain ⟨gap', hloop, hlength⟩ :=
          ih hbytes fuel (done ++ [b]) moved rest hfuel'
        rw [List.append_assoc _ bytes] at hloop
        rw [hregion, hturn, hloop, hkept]
        refine ⟨gap', by simp, ?_⟩
        rw [List.length_cons, List.length_cons]
        omega

/-- In place, the backslashes of the string are dropped and nothing behind it
is touched. -/
theorem unescapeColon_spec (s : CString) (rest : List Byte) :
    ∃ str, unescapeColon (s.stored ++ rest) = .ok str ∧
      Holds str s.unescaped ∧ str.drop (s.length + 1) = rest := by
  have hregion : s.stored ++ rest = [] ++ [] ++ s.bytes ++ 0#8 :: rest := by
    simp [CString.stored]
  obtain ⟨gap, hloop, hlength⟩ := unescapeLoop_spec s.bytes s.noNul
    ((s.stored ++ rest).length + 1) [] [] rest (by simp [CString.stored])
  have hbytes : s.bytes.length = s.length := rfl
  rw [← hregion, List.nil_append, List.length_nil,
    ← CString.unescaped_bytes] at hloop
  rw [← CString.unescaped_bytes, hbytes, List.length_nil,
    Nat.zero_add] at hlength
  rw [unescapeColon, hloop, ok_bind]
  dsimp only
  -- The NUL is written over the first byte of the gap, or over the old NUL.
  cases gap with
  | nil =>
      rw [List.append_nil, writeAt_byte]
      refine ⟨_, rfl, ⟨rest, by simp [CString.stored]⟩, ?_⟩
      rw [← hlength]
      simp
  | cons x gap =>
      rw [List.append_assoc, List.cons_append, writeAt_byte]
      refine ⟨_, rfl, ⟨gap ++ 0#8 :: rest, by simp [CString.stored]⟩, ?_⟩
      rw [← hlength, List.drop_append, Nat.add_assoc]
      simp

end Loops

section Calls

variable {s : CString}

/-- A string whose doubled length fits `size_t` is escaped unless a request is
refused. -/
theorem escapeColon_cases (hlength : s.length < 2 ^ 63) (E : Env)
    (rest : List Byte) (w : World) :
    (¬ E.GrantsAll ∧ escapeColon E (s.stored ++ rest) w =
        .ok (.exited 1)) ∨
      ∃ block after, escapeColon E (s.stored ++ rest) w =
          .ok (.returned (some block, after)) ∧
        Holds block.bytes s.escaped := by
  have hheld : Holds (s.stored ++ rest) s := ⟨rest, rfl⟩
  have hsize : sizeAdd (sizeMul s.length 2) 1 = 2 * s.length + 1 := by
    unfold sizeAdd sizeMul
    omega
  obtain ⟨_, hescaped⟩ := s.length_le_escaped
  unfold escapeColon
  rw [hheld.strlen, ok_bind, hsize]
  rcases aXmalloc_cases E (2 * s.length + 1) w with
    ⟨hrefused, hexit⟩ | ⟨out, after, hout, hroom⟩
  · left
    refine ⟨fun hall => ?_, by rw [hexit]; rfl⟩
    rw [hall] at hrefused
    cases hrefused
  · have hwrite := escapeTo_spec s rest out.bytes (by omega)
    have hblock : Holds
        (s.escaped.stored ++ out.bytes.drop (s.escaped.length + 1))
        s.escaped := ⟨_, rfl⟩
    have hnew : sizeAdd s.escaped.length 1 = s.escaped.length + 1 :=
      sizeAdd_of_lt (by omega)
    simp only [hout, Outcome.andThen_returned, hwrite, ok_bind,
      hblock.strlen, hnew, pure_eq_ok]
    have hfilled : Holds (ByteBlock.mk out.addr (s.escaped.stored ++
        out.bytes.drop (s.escaped.length + 1))).bytes s.escaped := hblock
    rcases aXrealloc_cases E hfilled le_rfl after with
      ⟨hrefused, hexit⟩ | ⟨block, last, hblock', hheld'⟩
    · left
      refine ⟨fun hall => ?_, by rw [hexit]⟩
      rw [hall] at hrefused
      cases hrefused
    · right
      exact ⟨block, last, by rw [hblock'], hheld'⟩

/-- A longer string makes the size of the block wrap, and no such block holds
it. -/
theorem length_lt_of_escapeColon {E : Env} {rest : List Byte} {w : World}
    {ret : Option ByteBlock × World}
    (h : escapeColon E (s.stored ++ rest) w = .ok (.returned ret)) :
    s.length < 2 ^ 63 := by
  have hheld : Holds (s.stored ++ rest) s := ⟨rest, rfl⟩
  unfold escapeColon at h
  rw [hheld.strlen, ok_bind] at h
  rcases aXmalloc_cases E (sizeAdd (sizeMul s.length 2) 1) w with
    ⟨_, hexit⟩ | ⟨out, after, hout, hroom⟩
  · rw [hexit] at h
    cases h
  · simp only [hout, Outcome.andThen_returned] at h
    obtain ⟨written, hwrite, _⟩ := bind_eq_ok_iff.mp h
    have hlt := length_lt_of_escapeTo hwrite
    rw [hroom] at hlt
    unfold sizeAdd sizeMul at hlt
    omega

theorem unescapeColon_escaped {block : ByteBlock}
    (h : Holds block.bytes s.escaped) :
    ∃ str, unescapeColon block.bytes = .ok str ∧ Holds str s.unescaped := by
  rcases h with ⟨rest, hbytes⟩
  obtain ⟨str, hstr, hheld, _⟩ := unescapeColon_spec s.escaped rest
  rw [hbytes]
  exact ⟨str, hstr, s.unescaped_escaped ▸ hheld⟩

theorem escapesBack_of_no_backslash (hslash : backslash ∉ s.bytes)
    (hlength : s.length < 2 ^ 63) : EscapesBack s := by
  constructor
  · intro E w rest
    rcases escapeColon_cases hlength E rest w with
      ⟨_, hexit⟩ | ⟨block, after, hret, _⟩
    · exact ⟨_, hexit⟩
    · exact ⟨_, hret⟩
  · intro E w rest hall
    rcases escapeColon_cases hlength E rest w with
      ⟨hrefused, _⟩ | ⟨block, after, hret, _⟩
    · exact absurd hall hrefused
    · exact ⟨block, after, hret⟩
  · intro E w rest out after hout
    rcases escapeColon_cases hlength E rest w with
      ⟨_, hexit⟩ | ⟨block, after', hret, hheld⟩
    · rw [hexit] at hout
      cases hout
    · rw [hret] at hout
      cases hout
      obtain ⟨str, hstr, hback⟩ := unescapeColon_escaped hheld
      rw [CString.unescaped_eq_self_iff.mpr hslash] at hback
      have hescaped := s.colonsEscaped_escaped
      exact ⟨block, s.escaped, str, rfl, hheld, hescaped, hescaped.preceded,
        hstr, hback⟩

/-- A backslash of the string itself does not come back. -/
theorem EscapesBack.no_backslash (h : EscapesBack s) :
    backslash ∉ s.bytes ∧ s.length < 2 ^ 63 := by
  obtain ⟨block, after, hret⟩ :=
    h.returns (filledEnv 0) ⟨0, 0, .null, [], false⟩ [] (fun _ _ => rfl)
  have hlength := length_lt_of_escapeColon hret
  obtain ⟨found, _, str, hfound, _, _, _, hstr, hback⟩ :=
    h.back _ _ _ _ _ hret
  cases hfound
  refine ⟨?_, hlength⟩
  rcases escapeColon_cases hlength (filledEnv 0) [] ⟨0, 0, .null, [], false⟩ with
    ⟨_, hexit⟩ | ⟨block', after', hret', hheld⟩
  · rw [hexit] at hret
    cases hret
  · rw [hret'] at hret
    cases hret
    obtain ⟨str', hstr', hunescaped⟩ := unescapeColon_escaped hheld
    rw [hstr] at hstr'
    cases hstr'
    exact CString.unescaped_eq_self_iff.mp (hunescaped.unique hback)

/-- A string comes back from `escape_colon` and `unescape_colon` exactly when
it has no backslash and its doubled length fits `size_t`. -/
theorem escapesBack_iff (s : CString) :
    EscapesBack s ↔ backslash ∉ s.bytes ∧ s.length < 2 ^ 63 := by
  constructor
  · exact EscapesBack.no_backslash
  · intro h
    exact escapesBack_of_no_backslash h.1 h.2

/-- The string that is one backslash. -/
theorem oneBackslash_not_escapesBack :
    ¬ EscapesBack ⟨[0x5C#8], by decide⟩ := by
  intro h
  exact h.no_backslash.1 (List.mem_singleton.mpr rfl)

end Calls

end Alib
