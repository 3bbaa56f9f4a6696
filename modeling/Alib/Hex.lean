import Alib.HexNumber
import Alib.Xmalloc

/-!
# Bytes as hex digits

`mem2hex`, `hex2mem_len` and `hex2mem_len_malloc` of `to_do/util.c`.  The
decoder hands windows of two characters to `strtoul` and ends the process when
that returns `ULONG_MAX`; a last odd character is not looked at.  `mem2hex` and
`hex2mem_len` take `out` and `in` as two regions that do not overlap.
-/

namespace Alib

def ascii (text : String) : List Byte :=
  text.toList.map fun c => BitVec.ofNat 8 c.toNat

/-- A call that returns or ends the process with a message. -/
inductive HexOutcome (α : Type) where
  | returned (ret : α)
  | died (message : List Byte)

def HexOutcome.map {α β : Type} (f : α → β) : HexOutcome α → HexOutcome β
  | .returned ret => .returned (f ret)
  | .died message => .died message

/-- `while(in_ptr < in_end)` -/
def mem2hexLoop (input : List Byte) (inEnd : ℕ) :
    ℕ → ℕ → ℕ → List Byte → Except Fault (List Byte)
  | 0, _, _, _ => .error .divergence
  | fuel + 1, inPtr, outPtr, out =>
      if inPtr < inEnd then do
        let b ← readAt input inPtr
        let out ← writeAt out outPtr (hexPair b ++ [0#8])
        mem2hexLoop input inEnd fuel (inPtr + 1) (outPtr + 2) out
      else .ok out

def mem2hex (out input : List Byte) (inLen : ℕ) :
    Except Fault (List Byte) :=
  mem2hexLoop input inLen (inLen + 1) 0 0 out

/-- `die_perror("could not get number from \"%s\"", in)` -/
def dieNumber {α : Type} (input : List Byte) :
    Except Fault (HexOutcome α) := do
  let len ← strlen input
  return .died (ascii "could not get number from \"" ++ input.take len ++
    ascii "\"")

/-- `for(;in + 1< in_end;in+=2)` -/
def hex2memLoop (input : List Byte) (inEnd : ℕ) :
    ℕ → ℕ → ℕ → List Byte → Except Fault (HexOutcome (List Byte))
  | 0, _, _, _ => .error .divergence
  | fuel + 1, inPtr, outPtr, out =>
      if inPtr + 1 < inEnd then do
        let first ← readAt input inPtr
        let second ← readAt input (inPtr + 1)
        let tmpUint ← strtoulHex [first, second, 0#8]
        if tmpUint = ulongMax then dieNumber (input.drop inPtr)
        else do
          let out ← writeAt out outPtr [BitVec.ofNat 8 tmpUint]
          hex2memLoop input inEnd fuel (inPtr + 2) (outPtr + 1) out
      else .ok (.returned out)

def hex2memLen (out input : List Byte) (len : ℕ) :
    Except Fault (HexOutcome (List Byte)) :=
  hex2memLoop input len (len + 1) 0 0 out

/-- The message of `a_xmalloc`. -/
def mallocMessage (size : ℕ) : List Byte :=
  ascii "could not malloc(" ++ ascii (toString (size % 2 ^ 32)) ++ ascii ")"

def hex2memLenMalloc (E : Env) (input : List Byte) (len : ℕ) (w : World) :
    Except Fault (HexOutcome (ByteBlock × World)) :=
  match Bytes.aXmalloc E (len / 2) w with
  | .exited _ => .ok (.died (mallocMessage (len / 2)))
  | .returned (block, w) => do
      let outcome ← hex2memLen block.bytes input len
      return outcome.map fun bytes => ({ block with bytes := bytes }, w)

/-- An even number of characters, all of them hex digits. -/
def IsHex (chars : List Byte) : Prop :=
  Even chars.length ∧ ∀ b ∈ chars, IsHexDigit b

/-- A string of hex digits of even length. -/
structure HexString where
  chars : List Byte
  isHex : IsHex chars

/-- `mem2hex` writes the digits of the bytes and, if there are any, a NUL,
whatever follows them in memory and whatever was in a buffer with the room. -/
def WritesHex (bytes digits : List Byte) : Prop :=
  ∀ out after, (bytes ≠ [] → 2 * bytes.length + 1 ≤ out.length) →
    mem2hex out (bytes ++ after) bytes.length =
      .ok (if bytes = [] then out
        else digits ++ 0#8 :: out.drop (2 * bytes.length + 1))

/-- `hex2mem_len` of these characters writes the bytes and nothing else. -/
def ReadsHex (chars bytes : List Byte) : Prop :=
  ∀ out after, bytes.length ≤ out.length →
    hex2memLen out (chars ++ after) chars.length =
      .ok (.returned (bytes ++ out.drop bytes.length))

/-- Both decoders return for hex digits of even number and for nothing else,
where they die; `after` is what follows the characters in memory. -/
structure AcceptsExactlyHex (chars after : List Byte) : Prop where
  returns_iff : ∀ out, chars.length / 2 ≤ out.length →
    ((∃ ret, hex2memLen out (chars ++ after) chars.length =
      .ok (.returned ret)) ↔ IsHex chars)
  dies : ∀ out, chars.length / 2 ≤ out.length → ¬ IsHex chars →
    ∃ message, hex2memLen out (chars ++ after) chars.length =
      .ok (.died message)
  malloc_returns_iff : ∀ E w, E.grants w.requests (chars.length / 2) = true →
    ((∃ ret, hex2memLenMalloc E (chars ++ after) chars.length w =
      .ok (.returned ret)) ↔ IsHex chars)
  malloc_dies : ∀ E w, E.grants w.requests (chars.length / 2) = true →
    ¬ IsHex chars →
    ∃ message, hex2memLenMalloc E (chars ++ after) chars.length w =
      .ok (.died message)

section Write

/-- The digits of the bytes, in order. -/
def hexDigits (bytes : List Byte) : List Byte := bytes.flatMap hexPair

theorem length_hexDigits (bytes : List Byte) :
    (hexDigits bytes).length = 2 * bytes.length := by
  induction bytes with
  | nil => rfl
  | cons b bytes ih =>
      rw [hexDigits, List.flatMap_cons, List.length_append,
        List.length_cons, ← hexDigits, ih]
      simp only [hexPair, List.length_cons, List.length_nil]
      omega

/-- Each turn writes its NUL over the place of the next digits. -/
theorem mem2hexLoop_turn (fuel : ℕ) (front bytes after done left : List Byte)
    (b x y z : Byte) :
    mem2hexLoop (front ++ b :: bytes ++ after) (front ++ b :: bytes).length
        (fuel + 1) front.length done.length (done ++ x :: y :: z :: left) =
      mem2hexLoop (front ++ [b] ++ bytes ++ after)
        (front ++ [b] ++ bytes).length fuel (front ++ [b]).length
        (done ++ hexPair b).length (done ++ hexPair b ++ 0#8 :: left) := by
  have hgo : front.length < (front ++ b :: bytes).length := by simp
  have hread : readAt (front ++ b :: bytes ++ after) front.length =
      .ok b := by
    rw [List.append_assoc]
    exact readAt_append front _ b
  have hwrite : writeAt (done ++ x :: y :: z :: left) done.length
      (hexPair b ++ [0#8]) = .ok (done ++ hexPair b ++ 0#8 :: left) := by
    have hthree := writeAt_append done [x, y, z] left
      (show (hexPair b ++ [0#8]).length = [x, y, z].length from rfl)
    simpa using hthree
  have hinput : front ++ b :: bytes = front ++ [b] ++ bytes := by simp
  have hfront : front.length + 1 = (front ++ [b]).length := by simp
  have hdone : done.length + 2 = (done ++ hexPair b).length := by
    simp [hexPair]
  rw [mem2hexLoop, if_pos hgo, hread, ok_bind, hwrite, ok_bind, hinput,
    hfront, hdone]

theorem mem2hexLoop_spec (bytes : List Byte) :
    ∀ fuel front after done old, bytes.length < fuel →
      (bytes ≠ [] → 2 * bytes.length + 1 ≤ old.length) →
      mem2hexLoop (front ++ bytes ++ after) (front ++ bytes).length fuel
          front.length done.length (done ++ old) =
        .ok (if bytes = [] then done ++ old
          else done ++ hexDigits bytes ++
            0#8 :: old.drop (2 * bytes.length + 1)) := by
  induction bytes with
  | nil =>
      intro fuel front after done old hfuel _
      obtain ⟨fuel, rfl⟩ := Nat.exists_eq_add_one.mpr hfuel
      have hend : ¬ front.length < (front ++ []).length := by simp
      rw [mem2hexLoop, if_neg hend, if_pos rfl]
  | cons b bytes ih =>
      intro fuel front after done old hfuel hroom
      obtain ⟨fuel, rfl⟩ :=
        Nat.exists_eq_add_one.mpr (Nat.zero_lt_of_lt hfuel)
      have hlength := hroom (List.cons_ne_nil b bytes)
      rw [List.length_cons] at hlength
      obtain ⟨x, y, z, left, rfl⟩ :
          ∃ x y z left, old = x :: y :: z :: left := by
        rcases old with _ | ⟨x, _ | ⟨y, _ | ⟨z, left⟩⟩⟩
        · simp at hlength
        · simp at hlength
        · simp only [List.length_cons, List.length_nil] at hlength
          omega
        · exact ⟨x, y, z, left, rfl⟩
      have hnext := ih fuel (front ++ [b]) after (done ++ hexPair b)
        (0#8 :: left) (Nat.lt_of_succ_lt_succ hfuel) (by
          intro _
          simp only [List.length_cons] at hlength ⊢
          omega)
      rw [mem2hexLoop_turn, hnext, if_neg (List.cons_ne_nil b bytes)]
      by_cases hlast : bytes = []
      · rw [if_pos hlast, hlast]
        simp [hexDigits]
      · rw [if_neg hlast]
        simp [hexDigits, Nat.mul_add]

theorem writesHex_hexDigits (bytes : List Byte) :
    WritesHex bytes (hexDigits bytes) := by
  intro out after hroom
  have hloop := mem2hexLoop_spec bytes (bytes.length + 1) [] after [] out
    (Nat.lt_succ_self _) hroom
  simpa [mem2hex] using hloop

end Write

section Read

/-- The windows decoded one after another, as a list. -/
def decodeWindows (after : List Byte) :
    List Byte → Except Fault (HexOutcome (List Byte))
  | first :: second :: rest => do
      let tmpUint ← strtoulHex [first, second, 0#8]
      if tmpUint = ulongMax then dieNumber (first :: second :: rest ++ after)
      else do
        let outcome ← decodeWindows after rest
        return outcome.map (BitVec.ofNat 8 tmpUint :: ·)
  | _ => .ok (.returned [])

variable {after : List Byte}

theorem dieNumber_map {α β : Type} (f : α → β) (input : List Byte) :
    (dieNumber input).map (HexOutcome.map f) = dieNumber input := by
  unfold dieNumber
  cases strlen input with
  | error fault => rfl
  | ok len => rfl

theorem map_outcome_map {α β γ : Type} (f : α → β) (g : β → γ)
    (call : Except Fault (HexOutcome α)) :
    (call.map (HexOutcome.map f)).map (HexOutcome.map g) =
      call.map (HexOutcome.map fun ret => g (f ret)) := by
  cases call with
  | error fault => rfl
  | ok outcome =>
      cases outcome with
      | returned ret => rfl
      | died message => rfl

theorem decodeWindows_next {first second : Byte} {rest : List Byte}
    {tmpUint : ℕ} (hnumber : strtoulHex [first, second, 0#8] = .ok tmpUint)
    (hmax : tmpUint ≠ ulongMax) :
    decodeWindows after (first :: second :: rest) =
      (decodeWindows after rest).map
        (HexOutcome.map (BitVec.ofNat 8 tmpUint :: ·)) := by
  rw [decodeWindows, hnumber, ok_bind, if_neg hmax]
  cases decodeWindows after rest with
  | error fault => rfl
  | ok outcome => rfl

theorem length_lt_two {chars : List Byte}
    (hshort : ∀ a b rest, chars = a :: b :: rest → False) :
    chars.length < 2 := by
  rcases chars with _ | ⟨a, _ | ⟨b, rest⟩⟩
  · simp
  · simp
  · exact absurd rfl (hshort a b rest)

theorem decodeWindows_of_short {chars : List Byte}
    (h : chars.length < 2) : decodeWindows after chars = .ok (.returned []) := by
  rcases chars with _ | ⟨a, _ | ⟨b, rest⟩⟩
  · rfl
  · rfl
  · simp only [List.length_cons] at h
    omega

theorem readAt_window (front behind : List Byte) (first second : Byte) :
    readAt (front ++ first :: second :: behind) front.length = .ok first ∧
      readAt (front ++ first :: second :: behind) (front.length + 1) =
        .ok second := by
  constructor
  · exact readAt_append front _ first
  · have hread := readAt_append (front ++ [first]) behind second
    rw [List.append_assoc, List.length_append] at hread
    exact hread

/-- The loop stores what the windows decode to. -/
theorem hex2memLoop_eq (after chars : List Byte) :
    ∀ fuel front done old left, chars.length < fuel →
      old.length = chars.length / 2 →
      hex2memLoop (front ++ chars ++ after) (front ++ chars).length fuel
          front.length done.length (done ++ old ++ left) =
        (decodeWindows after chars).map
          (HexOutcome.map fun bytes => done ++ bytes ++ left) := by
  induction chars using decodeWindows.induct with
  | case1 first second rest ih =>
      intro fuel front done old left hfuel hold
      rw [List.length_cons, List.length_cons] at hfuel hold
      obtain ⟨fuel, rfl⟩ :=
        Nat.exists_eq_add_one.mpr (Nat.zero_lt_of_lt hfuel)
      obtain ⟨x, old, rfl⟩ : ∃ x tail, old = x :: tail := by
        cases old with
        | nil =>
            rw [List.length_nil] at hold
            omega
        | cons x tail => exact ⟨x, tail, rfl⟩
      have hgo : front.length + 1 <
          (front ++ first :: second :: rest).length := by
        simp only [List.length_append, List.length_cons]
        omega
      have hinput : front ++ first :: second :: rest ++ after =
          front ++ first :: (second :: (rest ++ after)) := by simp
      obtain ⟨hfirst, hsecond⟩ :=
        readAt_window front (rest ++ after) first second
      rw [hex2memLoop, if_pos hgo, hinput, hfirst, ok_bind, hsecond, ok_bind]
      cases hnumber : strtoulHex [first, second, 0#8] with
      | error fault =>
          rw [decodeWindows, hnumber]
          rfl
      | ok tmpUint =>
          rw [ok_bind]
          by_cases hmax : tmpUint = ulongMax
          · rw [decodeWindows, hnumber, ok_bind, if_pos hmax, if_pos hmax,
              List.drop_left, dieNumber_map]
            rfl
          · have hwrite : writeAt (done ++ x :: old ++ left) done.length
                [BitVec.ofNat 8 tmpUint] =
                .ok (done ++ [BitVec.ofNat 8 tmpUint] ++ old ++ left) := by
              have hbyte := writeAt_byte done (old ++ left) x
                (BitVec.ofNat 8 tmpUint)
              simpa using hbyte
            have hnext := ih fuel (front ++ [first, second])
              (done ++ [BitVec.ofNat 8 tmpUint]) old left
              (by omega) (by rw [List.length_cons] at hold; omega)
            have hregion : front ++ [first, second] ++ rest ++ after =
                front ++ first :: (second :: (rest ++ after)) := by simp
            have hend : (front ++ [first, second] ++ rest).length =
                (front ++ first :: second :: rest).length := by simp
            have hfront : (front ++ [first, second]).length =
                front.length + 2 := by simp
            have hdone : (done ++ [BitVec.ofNat 8 tmpUint]).length =
                done.length + 1 := by simp
            rw [hregion, hend, hfront, hdone] at hnext
            rw [if_neg hmax, hwrite, ok_bind, hnext,
              decodeWindows_next hnumber hmax, map_outcome_map]
            simp only [List.append_assoc, List.cons_append,
              List.nil_append]
  | case2 chars hshort =>
      intro fuel front done old left hfuel hold
      obtain ⟨fuel, rfl⟩ :=
        Nat.exists_eq_add_one.mpr (Nat.zero_lt_of_lt hfuel)
      have hlength := length_lt_two hshort
      have hnil : old = [] :=
        List.eq_nil_of_length_eq_zero (by omega)
      have hend : ¬ front.length + 1 < (front ++ chars).length := by
        rw [List.length_append]
        omega
      rw [hex2memLoop, if_neg hend, decodeWindows_of_short hlength, hnil]
      rfl

theorem hex2memLen_eq (chars after : List Byte) {out : List Byte}
    (hroom : chars.length / 2 ≤ out.length) :
    hex2memLen out (chars ++ after) chars.length =
      (decodeWindows after chars).map
        (HexOutcome.map (· ++ out.drop (chars.length / 2))) := by
  have hloop := hex2memLoop_eq after chars (chars.length + 1) [] []
    (out.take (chars.length / 2)) (out.drop (chars.length / 2))
    (Nat.lt_succ_self _)
    (by rw [List.length_take]; exact Nat.min_eq_left hroom)
  rw [List.nil_append, List.nil_append, List.length_nil,
    List.take_append_drop] at hloop
  exact hloop

theorem decodeWindows_digits {first second : Byte} {high low : ℕ}
    (hfirst : hexValue first = some high) (hsecond : hexValue second = some low)
    (rest : List Byte) :
    decodeWindows after (first :: second :: rest) =
      (decodeWindows after rest).map
        (HexOutcome.map (BitVec.ofNat 8 (16 * high + low) :: ·)) := by
  have hdigit : IsHexDigit first := by rw [IsHexDigit, hfirst]; rfl
  have hdigit' : IsHexDigit second := by rw [IsHexDigit, hsecond]; rfl
  have hhigh := (hexDigit_of_hexValue hfirst).1
  have hlow := (hexDigit_of_hexValue hsecond).1
  obtain ⟨bytes, hnumber, _, hbytes, _⟩ := strtoulHex_window first second
  rw [hbytes hdigit.plain.1 hdigit'.plain.1,
    hexNumber_pair hfirst hsecond] at hnumber
  have hmax : 16 * high + low ≠ ulongMax := by
    unfold ulongMax
    omega
  exact decodeWindows_next hnumber hmax

theorem readsHex_of_decodeWindows {chars bytes : List Byte}
    (hlength : bytes.length = chars.length / 2)
    (h : ∀ after, decodeWindows after chars = .ok (.returned bytes)) :
    ReadsHex chars bytes := by
  intro out after hroom
  rw [hlength] at hroom ⊢
  rw [hex2memLen_eq chars after hroom, h after]
  rfl

theorem decodeWindows_hexDigits (bytes after : List Byte) :
    decodeWindows after (hexDigits bytes) = .ok (.returned bytes) := by
  induction bytes with
  | nil => rfl
  | cons b bytes ih =>
      have hb := b.isLt
      have hhigh : hexValue (hexDigit (b.toNat / 16)) =
          some (b.toNat / 16) := hexValue_hexDigit (by omega)
      have hlow : hexValue (hexDigit (b.toNat % 16)) =
          some (b.toNat % 16) := hexValue_hexDigit (by omega)
      have hvalue : 16 * (b.toNat / 16) + b.toNat % 16 = b.toNat :=
        Nat.div_add_mod _ _
      have hcons : hexDigits (b :: bytes) =
          hexDigit (b.toNat / 16) :: hexDigit (b.toNat % 16) ::
            hexDigits bytes := rfl
      rw [hcons, decodeWindows_digits hhigh hlow, ih, hvalue,
        BitVec.ofNat_toNat, BitVec.setWidth_eq]
      rfl

theorem lower_hexDigits {bytes : List Byte} :
    ∀ d ∈ hexDigits bytes, IsHexDigit d ∧ tolower d = d := by
  intro d hd
  obtain ⟨b, _, hpair⟩ := List.mem_flatMap.mp hd
  have hb := b.isLt
  have hone : ∀ digit < 16, IsHexDigit (hexDigit digit) ∧
      tolower (hexDigit digit) = hexDigit digit := fun digit h =>
    ⟨isHexDigit_hexDigit h, tolower_hexDigit h⟩
  rw [hexPair, List.mem_cons, List.mem_singleton] at hpair
  rcases hpair with rfl | rfl
  · exact hone _ (by omega)
  · exact hone _ (by omega)

/-- Hex digits of even number decode to bytes whose digits they are, up to
case. -/
theorem decodeWindows_hex (chars : List Byte) (h : IsHex chars) :
    ∃ bytes, hexDigits bytes = chars.map tolower ∧
      ∀ after, decodeWindows after chars = .ok (.returned bytes) := by
  induction chars using decodeWindows.induct with
  | case1 first second rest ih =>
      rcases h with ⟨heven, hdigits⟩
      have hrest : IsHex rest := by
        constructor
        · rw [List.length_cons, List.length_cons, Nat.even_iff] at heven
          rw [Nat.even_iff]
          omega
        · intro b hb
          exact hdigits b (List.mem_cons_of_mem _ (List.mem_cons_of_mem _ hb))
      obtain ⟨high, hfirst⟩ := Option.isSome_iff_exists.mp
        (hdigits first List.mem_cons_self)
      obtain ⟨low, hsecond⟩ := Option.isSome_iff_exists.mp
        (hdigits second (List.mem_cons_of_mem _ List.mem_cons_self))
      obtain ⟨hhigh, hfirst'⟩ := hexDigit_of_hexValue hfirst
      obtain ⟨hlow, hsecond'⟩ := hexDigit_of_hexValue hsecond
      obtain ⟨bytes, hbytes, hdecode⟩ := ih hrest
      refine ⟨BitVec.ofNat 8 (16 * high + low) :: bytes, ?_, ?_⟩
      · have hbyte : (BitVec.ofNat 8 (16 * high + low)).toNat =
            16 * high + low := by
          rw [BitVec.toNat_ofNat]
          omega
        have hdiv : (16 * high + low) / 16 = high := by omega
        have hmod : (16 * high + low) % 16 = low := by omega
        rw [hexDigits, List.flatMap_cons, ← hexDigits, hbytes, hexPair, hbyte,
          hdiv, hmod, hfirst', hsecond']
        rfl
      · intro after
        rw [decodeWindows_digits hfirst hsecond, hdecode after]
        rfl
  | case2 chars hshort =>
      rcases chars with _ | ⟨a, _ | ⟨b, rest⟩⟩
      · exact ⟨[], rfl, fun _ => rfl⟩
      · have hodd := h.1
        simp at hodd
      · exact absurd rfl (hshort a b rest)

theorem length_of_hexDigits {bytes chars : List Byte}
    (h : hexDigits bytes = chars.map tolower) :
    bytes.length = chars.length / 2 := by
  have hlength := congrArg List.length h
  rw [length_hexDigits, List.length_map] at hlength
  omega

end Read

/-- The digits of bytes are read back as these bytes, and hex digits are
written back, in lower case, from the bytes they are read as. -/
theorem hex_roundTrip :
    (∀ bytes : List Byte, ∃ digits, digits.length = 2 * bytes.length ∧
      (∀ d ∈ digits, IsHexDigit d ∧ tolower d = d) ∧
      WritesHex bytes digits ∧ ReadsHex digits bytes) ∧
    ∀ s : HexString, ∃ bytes, ReadsHex s.chars bytes ∧
      WritesHex bytes (s.chars.map tolower) := by
  constructor
  · intro bytes
    refine ⟨hexDigits bytes, length_hexDigits bytes, lower_hexDigits,
      writesHex_hexDigits bytes, ?_⟩
    apply readsHex_of_decodeWindows
    · rw [length_hexDigits]
      omega
    · exact decodeWindows_hexDigits bytes
  · intro s
    obtain ⟨bytes, hdigits, hdecode⟩ := decodeWindows_hex s.chars s.isHex
    refine ⟨bytes, ?_, hdigits ▸ writesHex_hexDigits bytes⟩
    exact readsHex_of_decodeWindows (length_of_hexDigits hdigits) hdecode

section Accept

variable {chars after : List Byte}

/-- A window of a minus and a one, with a NUL behind it that ends the message
it is printed in. -/
def MinusOne (chars after : List Byte) : Prop :=
  ∃ before behind, Even before.length ∧
    chars = before ++ 0x2D#8 :: 0x31#8 :: behind ∧ 0#8 ∈ behind ++ after

theorem dieNumber_died_iff {α : Type} {input : List Byte} :
    (∃ message, (dieNumber input : Except Fault (HexOutcome α)) =
      .ok (.died message)) ↔ 0#8 ∈ input := by
  rw [← strlen_ok_iff]
  unfold dieNumber
  cases strlen input with
  | error fault => simp
  | ok len => simp

theorem map_died_iff {α β : Type} {f : α → β}
    {call : Except Fault (HexOutcome α)} :
    (∃ message, call.map (HexOutcome.map f) = .ok (.died message)) ↔
      ∃ message, call = .ok (.died message) := by
  cases call with
  | error fault => simp [Except.map]
  | ok outcome => cases outcome <;> simp [Except.map, HexOutcome.map]

theorem map_returned_iff {α β : Type} {f : α → β}
    {call : Except Fault (HexOutcome α)} :
    (∃ ret, call.map (HexOutcome.map f) = .ok (.returned ret)) ↔
      ∃ ret, call = .ok (.returned ret) := by
  cases call with
  | error fault => simp [Except.map]
  | ok outcome => cases outcome <;> simp [Except.map, HexOutcome.map]

theorem minusOne_cons {first second : Byte} {rest : List Byte}
    (h : MinusOne rest after) : MinusOne (first :: second :: rest) after := by
  rcases h with ⟨before, behind, heven, hrest, hnul⟩
  refine ⟨first :: second :: before, behind, ?_, by rw [hrest]; rfl, hnul⟩
  rw [Nat.even_iff] at heven ⊢
  rw [List.length_cons, List.length_cons]
  omega

/-- The first two characters are the window, or it is one of those behind
them. -/
theorem MinusOne.cases {first second : Byte} {rest : List Byte}
    (h : MinusOne (first :: second :: rest) after) :
    (first = 0x2D#8 ∧ second = 0x31#8 ∧ 0#8 ∈ rest ++ after) ∨
      MinusOne rest after := by
  rcases h with ⟨before, behind, heven, hchars, hnul⟩
  rcases before with _ | ⟨a, _ | ⟨b, before⟩⟩
  · left
    simp only [List.nil_append, List.cons.injEq] at hchars
    obtain ⟨hfirst, hsecond, hrest⟩ := hchars
    exact ⟨hfirst, hsecond, hrest ▸ hnul⟩
  · simp at heven
  · right
    simp only [List.cons_append, List.cons.injEq] at hchars
    refine ⟨before, behind, ?_, hchars.2.2, hnul⟩
    rw [List.length_cons, List.length_cons, Nat.even_iff] at heven
    rw [Nat.even_iff]
    omega

/-- The decoder dies on a window of a minus and a one, and on no other. -/
theorem decodeWindows_died_iff :
    (∃ message, decodeWindows after chars = .ok (.died message)) ↔
      MinusOne chars after := by
  induction chars using decodeWindows.induct with
  | case1 first second rest ih =>
      obtain ⟨bytes, hnumber, hshort, hbytes, hwindow⟩ :=
        strtoulHex_window first second
      by_cases hmax : hexNumber bytes = ulongMax
      · obtain ⟨hfirst, hsecond⟩ :=
          hwindow ((hexNumber_eq_max_iff hshort).mp hmax)
        rw [decodeWindows, hnumber, ok_bind, if_pos hmax, dieNumber_died_iff]
        have hbehind : 0#8 ∈ first :: second :: rest ++ after ↔
            0#8 ∈ rest ++ after := by
          rw [hfirst, hsecond]
          simp
        rw [hbehind]
        constructor
        · intro hnul
          exact ⟨[], rest, by simp, by rw [hfirst, hsecond]; rfl, hnul⟩
        · intro h
          rcases h.cases with ⟨_, _, hnul⟩ | hrest
          · exact hnul
          · rcases hrest with ⟨before, behind, _, hrest, hnul⟩
            rw [hrest]
            simp only [List.mem_append, List.mem_cons] at hnul ⊢
            tauto
      · rw [decodeWindows_next hnumber hmax, map_died_iff, ih]
        constructor
        · exact minusOne_cons
        · intro h
          rcases h.cases with ⟨hfirst, hsecond, _⟩ | hrest
          · have hboth := hbytes (by rw [hfirst]; decide)
              (by rw [hsecond]; decide)
            rw [hfirst, hsecond] at hboth
            exact absurd ((hexNumber_eq_max_iff hshort).mpr hboth) hmax
          · exact hrest
  | case2 chars hshort =>
      constructor
      · intro h
        obtain ⟨message, h⟩ := h
        rw [decodeWindows_of_short (length_lt_two hshort)] at h
        cases h
      · intro h
        rcases h with ⟨before, behind, heven, hchars, _⟩
        rcases before with _ | ⟨a, _ | ⟨b, before⟩⟩
        · exact absurd hchars (hshort _ _ _)
        · simp at heven
        · exact absurd hchars (hshort _ _ _)

theorem MinusOne.not_isHex (h : MinusOne chars after) : ¬ IsHex chars := by
  intro hhex
  rcases h with ⟨before, behind, _, hchars, _⟩
  have hdigit : IsHexDigit 0x2D#8 := hhex.2 _ (by rw [hchars]; simp)
  exact absurd hdigit (by decide)

/-- The variant that allocates decodes into its own block. -/
theorem hex2memLenMalloc_eq {E : Env} {w : World} (after : List Byte)
    (hgrant : E.grants w.requests (chars.length / 2) = true) :
    ∃ f : List Byte → ByteBlock × World,
      hex2memLenMalloc E (chars ++ after) chars.length w =
        (decodeWindows after chars).map (HexOutcome.map f) := by
  have hroom : chars.length / 2 ≤
      (Bytes.freshBytes E w.requests (chars.length / 2)).length := by
    rw [Bytes.freshBytes_length]
  refine ⟨fun bytes =>
    (⟨w.requests, bytes ++ (Bytes.freshBytes E w.requests
        (chars.length / 2)).drop (chars.length / 2)⟩,
      { w with requests := w.requests + 1 }), ?_⟩
  unfold hex2memLenMalloc
  rw [Bytes.aXmalloc_of_grants hgrant]
  dsimp only
  rw [hex2memLen_eq chars after hroom]
  cases decodeWindows after chars with
  | error fault => rfl
  | ok outcome =>
      cases outcome with
      | died message => rfl
      | returned bytes => rfl

theorem acceptsExactlyHex_of_isHex (h : IsHex chars) :
    AcceptsExactlyHex chars after := by
  obtain ⟨bytes, _, hdecode⟩ := decodeWindows_hex chars h
  constructor
  · intro out hroom
    rw [hex2memLen_eq chars after hroom, map_returned_iff]
    exact ⟨fun _ => h, fun _ => ⟨bytes, hdecode after⟩⟩
  · intro out _ hnot
    exact absurd h hnot
  · intro E w hgrant
    obtain ⟨f, hf⟩ := hex2memLenMalloc_eq after hgrant
    rw [hf, map_returned_iff]
    exact ⟨fun _ => h, fun _ => ⟨bytes, hdecode after⟩⟩
  · intro E w _ hnot
    exact absurd h hnot

theorem acceptsExactlyHex_of_minusOne (h : MinusOne chars after) :
    AcceptsExactlyHex chars after := by
  have hdied := decodeWindows_died_iff.mpr h
  have hnot := h.not_isHex
  have hnever :
      ¬ ∃ ret, decodeWindows after chars = .ok (.returned ret) := by
    intro hret
    obtain ⟨message, hmessage⟩ := hdied
    obtain ⟨ret, hret⟩ := hret
    rw [hmessage] at hret
    cases hret
  constructor
  · intro out hroom
    rw [hex2memLen_eq chars after hroom, map_returned_iff]
    exact ⟨fun hret => absurd hret hnever, fun hhex => absurd hhex hnot⟩
  · intro out hroom _
    rw [hex2memLen_eq chars after hroom, map_died_iff]
    exact hdied
  · intro E w hgrant
    obtain ⟨f, hf⟩ := hex2memLenMalloc_eq after hgrant
    rw [hf, map_returned_iff]
    exact ⟨fun hret => absurd hret hnever, fun hhex => absurd hhex hnot⟩
  · intro E w hgrant _
    obtain ⟨f, hf⟩ := hex2memLenMalloc_eq after hgrant
    rw [hf, map_died_iff]
    exact hdied

theorem AcceptsExactlyHex.isHex_or_minusOne
    (h : AcceptsExactlyHex chars after) :
    IsHex chars ∨ MinusOne chars after := by
  by_cases hhex : IsHex chars
  · exact Or.inl hhex
  · right
    have hroom : chars.length / 2 ≤
        (List.replicate (chars.length / 2) 0#8).length := by simp
    have hdied := h.dies _ hroom hhex
    rw [hex2memLen_eq chars after hroom, map_died_iff] at hdied
    exact decodeWindows_died_iff.mp hdied

/-- The decoders accept exactly hex on these characters exactly when they are
hex, or have a window that is refused. -/
theorem acceptsExactlyHex_iff (chars after : List Byte) :
    AcceptsExactlyHex chars after ↔ IsHex chars ∨ MinusOne chars after := by
  constructor
  · exact AcceptsExactlyHex.isHex_or_minusOne
  · intro h
    rcases h with hhex | hminus
    · exact acceptsExactlyHex_of_isHex hhex
    · exact acceptsExactlyHex_of_minusOne hminus

/-- `zz` is decoded to a zero byte. -/
theorem zz_accepted : ¬ AcceptsExactlyHex [0x7A#8, 0x7A#8] [0#8] := by
  intro h
  rcases h.isHex_or_minusOne with hhex | hminus
  · exact absurd (hhex.2 0x7A#8 (by simp)) (by decide)
  · rcases hminus.cases with ⟨hfirst, _⟩ | ⟨before, behind, _, hrest, _⟩
    · exact absurd hfirst (by decide)
    · exact absurd hrest (by simp)

end Accept

end Alib
