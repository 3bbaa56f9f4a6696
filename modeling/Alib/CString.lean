import Mathlib.Data.List.TakeWhile
import Alib.Platform

/-!
# C strings

A region of memory is the list of its bytes in the order of their addresses.
A string lies at the start of a region when its bytes and a NUL do.  The
functions of the C library fault where they would read or write past the end
of the region they are given.
-/

namespace Alib

abbrev Byte := BitVec 8

def slash : Byte := 0x2F#8

def backslash : Byte := 0x5C#8

def colon : Byte := 0x3A#8

def dot : Byte := 0x2E#8

/-- `isspace` of the C locale. -/
def isspace (b : Byte) : Bool := b = 0x20#8 || (0x09#8 ≤ b && b ≤ 0x0D#8)

/-- The bytes of a string in front of its NUL. -/
@[ext] structure CString where
  bytes : List Byte
  noNul : 0#8 ∉ bytes

namespace CString

def nil : CString := ⟨[], List.not_mem_nil⟩

def length (s : CString) : ℕ := s.bytes.length

/-- The string as it lies in memory. -/
def stored (s : CString) : List Byte := s.bytes ++ [0#8]

def append (s t : CString) : CString :=
  ⟨s.bytes ++ t.bytes, by simp [s.noNul, t.noNul]⟩

instance : Append CString := ⟨append⟩

/-- The concatenation of a list of strings. -/
def concat (strings : List CString) : CString :=
  strings.foldl (· ++ ·) nil

/-- The string a pointer into the string points to. -/
def drop (s : CString) (offset : ℕ) : CString :=
  ⟨s.bytes.drop offset, fun hmem => s.noNul (List.mem_of_mem_drop hmem)⟩

/-- What is left after a NUL is written at the offset. -/
def take (s : CString) (offset : ℕ) : CString :=
  ⟨s.bytes.take offset, fun hmem => s.noNul (List.mem_of_mem_take hmem)⟩

@[simp] theorem nil_bytes : nil.bytes = [] := rfl

@[simp] theorem drop_bytes (s : CString) (offset : ℕ) :
    (s.drop offset).bytes = s.bytes.drop offset := rfl

@[simp] theorem take_bytes (s : CString) (offset : ℕ) :
    (s.take offset).bytes = s.bytes.take offset := rfl

@[simp] theorem nil_length : nil.length = 0 := rfl

@[simp] theorem append_bytes (s t : CString) :
    (s ++ t).bytes = s.bytes ++ t.bytes := rfl

@[simp] theorem length_append (s t : CString) :
    (s ++ t).length = s.length + t.length := List.length_append

@[simp] theorem length_stored (s : CString) :
    s.stored.length = s.length + 1 := by
  simp [stored, length]

theorem take_of_le {s : CString} {offset : ℕ} (h : s.length ≤ offset) :
    s.take offset = s := CString.ext (List.take_of_length_le h)

theorem nil_append (s : CString) : nil ++ s = s := CString.ext rfl

theorem stored_append (s t : CString) :
    (s ++ t).stored = s.bytes ++ t.stored := by
  simp [stored]

end CString

/-- The string lies at the start of the region. -/
def Holds (region : List Byte) (s : CString) : Prop :=
  ∃ rest, region = s.stored ++ rest

/-- `strlen` of the start of a region. -/
def strlen : List Byte → Except Fault ℕ
  | [] => .error .outOfBounds
  | b :: rest =>
      if b = 0#8 then .ok 0
      else do
        let len ← strlen rest
        return len + 1

/-- The string that a region is passed as. -/
def readString (region : List Byte) : Except Fault CString :=
  if 0#8 ∈ region then
    .ok ⟨region.takeWhile (· ≠ 0#8), fun hmem => by
      simpa using List.mem_takeWhile_imp hmem⟩
  else .error .outOfBounds

/-- The byte at an offset. -/
def readAt (region : List Byte) (offset : ℕ) : Except Fault Byte :=
  match region[offset]? with
  | none => .error .outOfBounds
  | some b => .ok b

/-- The bytes from an offset on are overwritten. -/
def writeAt (region : List Byte) (offset : ℕ) (bytes : List Byte) :
    Except Fault (List Byte) :=
  if offset + bytes.length ≤ region.length then
    .ok (region.take offset ++ bytes ++ region.drop (offset + bytes.length))
  else .error .outOfBounds

/-- `memcpy(out, in, len)` -/
def memcpy (out input : List Byte) (len : ℕ) : Except Fault (List Byte) :=
  if len ≤ input.length then writeAt out 0 (input.take len)
  else .error .outOfBounds

/-- `strcpy(out, s)` -/
def strcpy (out : List Byte) (s : CString) : Except Fault (List Byte) :=
  writeAt out 0 s.stored

/-- `strcat(out, s)` -/
def strcat (out : List Byte) (s : CString) : Except Fault (List Byte) := do
  let len ← strlen out
  writeAt out len s.stored

/-- The offset of the first occurrence of a byte. -/
def firstIdx (c : Byte) : List Byte → Option ℕ
  | [] => none
  | b :: rest => if b = c then some 0 else (firstIdx c rest).map (· + 1)

/-- The offset of the last occurrence of a byte. -/
def lastIdx (c : Byte) : List Byte → Option ℕ
  | [] => none
  | b :: rest =>
      match lastIdx c rest with
      | some i => some (i + 1)
      | none => if b = c then some 0 else none

/-- `strchr(s, c)`, as an offset into the string. -/
def strchr (s : CString) (c : Byte) : Option ℕ := firstIdx c s.bytes

/-- `strrchr(s, c)`, as an offset into the string. -/
def strrchr (s : CString) (c : Byte) : Option ℕ := lastIdx c s.bytes

/-- `strchr` of the string at the start of a region. -/
def strchrAt (region : List Byte) (c : Byte) : Except Fault (Option ℕ) := do
  let len ← strlen region
  return firstIdx c (region.take len)

/-- `strrchr` of the string at the start of a region. -/
def strrchrAt (region : List Byte) (c : Byte) : Except Fault (Option ℕ) := do
  let len ← strlen region
  return lastIdx c (region.take len)

section Search

variable {c : Byte} {bytes : List Byte}

theorem firstIdx_cases (c : Byte) (bytes : List Byte) :
    (firstIdx c bytes = none ∧ c ∉ bytes) ∨
      ∃ before after, bytes = before ++ c :: after ∧ c ∉ before ∧
        firstIdx c bytes = some before.length := by
  induction bytes with
  | nil => exact Or.inl ⟨rfl, List.not_mem_nil⟩
  | cons b rest ih =>
      by_cases hb : b = c
      · subst hb
        exact Or.inr ⟨[], rest, rfl, List.not_mem_nil, by simp [firstIdx]⟩
      · rcases ih with ⟨hnone, hmem⟩ | ⟨before, after, hrest, hmem, hsome⟩
        · left
          refine ⟨by simp [firstIdx, hb, hnone], ?_⟩
          exact List.not_mem_cons_of_ne_of_not_mem (Ne.symm hb) hmem
        · right
          refine ⟨b :: before, after, by rw [hrest, List.cons_append], ?_,
            by simp [firstIdx, hb, hsome]⟩
          exact List.not_mem_cons_of_ne_of_not_mem (Ne.symm hb) hmem

theorem lastIdx_cases (c : Byte) (bytes : List Byte) :
    (lastIdx c bytes = none ∧ c ∉ bytes) ∨
      ∃ before after, bytes = before ++ c :: after ∧ c ∉ after ∧
        lastIdx c bytes = some before.length := by
  induction bytes with
  | nil => exact Or.inl ⟨rfl, List.not_mem_nil⟩
  | cons b rest ih =>
      rcases ih with ⟨hnone, hmem⟩ | ⟨before, after, hrest, hmem, hsome⟩
      · by_cases hb : b = c
        · subst hb
          exact Or.inr ⟨[], rest, rfl, hmem, by simp [lastIdx, hnone]⟩
        · left
          refine ⟨by simp [lastIdx, hnone, hb], ?_⟩
          exact List.not_mem_cons_of_ne_of_not_mem (Ne.symm hb) hmem
      · exact Or.inr ⟨b :: before, after, by rw [hrest, List.cons_append],
          hmem, by simp [lastIdx, hsome]⟩

theorem firstIdx_of_not_mem (h : c ∉ bytes) : firstIdx c bytes = none := by
  rcases firstIdx_cases c bytes with
    ⟨hnone, _⟩ | ⟨before, after, hbytes, _, _⟩
  · exact hnone
  · exact absurd (by simp [hbytes]) h

theorem firstIdx_append {before : List Byte} (h : c ∉ before)
    (after : List Byte) :
    firstIdx c (before ++ c :: after) = some before.length := by
  induction before with
  | nil => simp [firstIdx]
  | cons b before ih =>
      have hb : b ≠ c := fun heq => h (by simp [heq])
      have hrest : c ∉ before := fun hmem => h (by simp [hmem])
      simp [firstIdx, hb, ih hrest]

theorem firstIdx_lt {i : ℕ} (h : firstIdx c bytes = some i) :
    i < bytes.length := by
  rcases firstIdx_cases c bytes with
    ⟨hnone, _⟩ | ⟨before, after, hbytes, _, hi⟩
  · rw [hnone] at h
    cases h
  · rw [hi] at h
    cases h
    rw [hbytes, List.length_append, List.length_cons]
    omega

theorem lastIdx_lt {i : ℕ} (h : lastIdx c bytes = some i) :
    i < bytes.length := by
  rcases lastIdx_cases c bytes with ⟨hnone, _⟩ | ⟨before, after, hbytes, _, hi⟩
  · rw [hnone] at h
    cases h
  · rw [hi] at h
    cases h
    rw [hbytes, List.length_append, List.length_cons]
    omega

end Search

section Length

variable {region : List Byte} {s t : CString}

theorem holds_stored (s : CString) : Holds s.stored s :=
  ⟨[], (List.append_nil _).symm⟩

theorem strlen_stored (bytes rest : List Byte) (h : 0#8 ∉ bytes) :
    strlen (bytes ++ 0#8 :: rest) = .ok bytes.length := by
  induction bytes with
  | nil => simp [strlen]
  | cons b bytes ih =>
      have hb : b ≠ 0#8 := fun hzero => h (by simp [hzero])
      have hbytes : 0#8 ∉ bytes := fun hmem => h (by simp [hmem])
      simp [strlen, hb, ih hbytes]

theorem Holds.strlen (h : Holds region s) :
    Alib.strlen region = .ok s.length := by
  rcases h with ⟨rest, hregion⟩
  rw [hregion, CString.stored, List.append_assoc]
  exact strlen_stored s.bytes rest s.noNul

theorem Holds.length_le (h : Holds region s) :
    s.length + 1 ≤ region.length := by
  rcases h with ⟨rest, hregion⟩
  rw [hregion, List.length_append, CString.length_stored]
  exact Nat.le_add_right _ _

/-- The region in front of the first NUL determines the string. -/
theorem Holds.take_eq (h : Holds region s) :
    region.take (s.length + 1) = s.stored := by
  rcases h with ⟨rest, hregion⟩
  rw [hregion]
  exact List.take_left' (CString.length_stored s)

theorem Holds.take_length (h : Holds region s) :
    region.take s.length = s.bytes := by
  have hfront := congrArg (List.take s.length) h.take_eq
  rw [List.take_take, Nat.min_eq_left (Nat.le_succ _)] at hfront
  rw [hfront, CString.stored]
  exact List.take_left' rfl

theorem Holds.unique (h : Holds region s) (h' : Holds region t) : s = t := by
  have hlength : s.length = t.length :=
    Except.ok.inj (h.strlen.symm.trans h'.strlen)
  apply CString.ext
  rw [← h.take_length, ← h'.take_length, hlength]

theorem Holds.readString (h : Holds region s) :
    Alib.readString region = .ok s := by
  obtain ⟨after, rfl⟩ := h
  have hmem : 0#8 ∈ s.stored ++ after := by simp [CString.stored]
  have hall : ∀ b ∈ s.bytes, decide (b ≠ 0#8) = true := by
    intro b hb
    rw [decide_eq_true_eq]
    rintro rfl
    exact s.noNul hb
  have htake : (s.stored ++ after).takeWhile (· ≠ 0#8) = s.bytes := by
    rw [CString.stored, List.append_assoc,
      List.takeWhile_append_of_pos hall]
    simp
  rw [Alib.readString, if_pos hmem]
  exact congrArg Except.ok (CString.ext htake)

theorem Holds.strchrAt (h : Holds region s) (c : Byte) :
    Alib.strchrAt region c = .ok (strchr s c) := by
  have htake : region.take s.length = s.bytes := h.take_length
  simp [Alib.strchrAt, h.strlen, htake, strchr]

theorem Holds.strrchrAt (h : Holds region s) (c : Byte) :
    Alib.strrchrAt region c = .ok (strrchr s c) := by
  have htake : region.take s.length = s.bytes := h.take_length
  simp [Alib.strrchrAt, h.strlen, htake, strrchr]

theorem strlen_cases (region : List Byte) :
    Alib.strlen region = .error .outOfBounds ∨
      ∃ len, Alib.strlen region = .ok len := by
  induction region with
  | nil => exact Or.inl rfl
  | cons b rest ih =>
      by_cases hb : b = 0#8
      · exact Or.inr ⟨0, by simp [Alib.strlen, hb]⟩
      · rcases ih with hfault | ⟨len, hlen⟩
        · exact Or.inl (by simp [Alib.strlen, hb, hfault])
        · exact Or.inr ⟨len + 1, by simp [Alib.strlen, hb, hlen]⟩

theorem strlen_lt {len : ℕ} (h : Alib.strlen region = .ok len) :
    len < region.length := by
  induction region generalizing len with
  | nil => cases h
  | cons b rest ih =>
      rw [Alib.strlen] at h
      by_cases hb : b = 0#8
      · rw [if_pos hb] at h
        cases h
        exact Nat.zero_lt_succ _
      · rw [if_neg hb] at h
        obtain ⟨len', hlen', hreturn⟩ := bind_eq_ok_iff.mp h
        cases hreturn
        exact Nat.succ_lt_succ (ih hlen')

theorem strlen_ok_iff :
    (∃ len, Alib.strlen region = .ok len) ↔ 0#8 ∈ region := by
  induction region with
  | nil => simp [Alib.strlen]
  | cons b rest ih =>
      by_cases hb : b = 0#8
      · simp [Alib.strlen, hb]
      · have hmem : 0#8 ∈ b :: rest ↔ 0#8 ∈ rest := by
          simp [List.mem_cons, Ne.symm hb]
        rw [hmem, ← ih, Alib.strlen, if_neg hb]
        constructor
        · intro h
          obtain ⟨len, hlen⟩ := h
          obtain ⟨len', hlen', _⟩ := bind_eq_ok_iff.mp hlen
          exact ⟨len', hlen'⟩
        · intro h
          obtain ⟨len, hlen⟩ := h
          exact ⟨len + 1, by rw [hlen]; rfl⟩

theorem strlen_eq_zero_iff :
    Alib.strlen region = .ok 0 ↔ region.head? = some 0#8 := by
  cases region with
  | nil => simp [Alib.strlen]
  | cons b rest =>
      rw [Alib.strlen, List.head?_cons, Option.some_inj]
      by_cases hb : b = 0#8
      · simp [hb]
      · rw [if_neg hb]
        refine ⟨fun h => ?_, fun h => absurd h hb⟩
        obtain ⟨len, _, hreturn⟩ := bind_eq_ok_iff.mp h
        cases hreturn

end Length

section Write

variable {region written bytes : List Byte} {offset : ℕ} {s : CString}

theorem readAt_of_getElem? {b : Byte} (h : region[offset]? = some b) :
    readAt region offset = .ok b := by
  simp [readAt, h]

theorem readAt_append (before after : List Byte) (b : Byte) :
    readAt (before ++ b :: after) before.length = .ok b :=
  readAt_of_getElem? (by simp)

theorem writeAt_ok_iff :
    writeAt region offset bytes = .ok written ↔
      offset + bytes.length ≤ region.length ∧
        region.take offset ++ bytes ++ region.drop (offset + bytes.length) =
          written := by
  unfold writeAt
  by_cases h : offset + bytes.length ≤ region.length
  · simp [h]
  · simp [h]

theorem writeAt_append (before old after : List Byte)
    (h : bytes.length = old.length) :
    writeAt (before ++ old ++ after) before.length bytes =
      .ok (before ++ bytes ++ after) := by
  refine writeAt_ok_iff.mpr ⟨?_, ?_⟩
  · simp only [List.length_append, h]
    omega
  · have hend : before.length + bytes.length = (before ++ old).length := by
      rw [List.length_append, h]
    rw [hend, List.drop_left, List.append_assoc before old,
      List.take_left]

theorem writeAt_byte (before after : List Byte) (old new : Byte) :
    writeAt (before ++ old :: after) before.length [new] =
      .ok (before ++ new :: after) := by
  have hwrite := writeAt_append before [old] after
    (show [new].length = [old].length from rfl)
  rw [List.append_assoc, List.append_assoc] at hwrite
  exact hwrite

theorem writeAt_end (h : offset + bytes.length = region.length) :
    writeAt region offset bytes = .ok (region.take offset ++ bytes) :=
  writeAt_ok_iff.mpr ⟨h.le, by rw [h, List.drop_length, List.append_nil]⟩

theorem writeAt_length (h : writeAt region offset bytes = .ok written) :
    written.length = region.length := by
  obtain ⟨hle, rfl⟩ := writeAt_ok_iff.mp h
  simp only [List.length_append, List.length_take, List.length_drop]
  omega

/-- Only the bytes written to are changed. -/
theorem writeAt_frame (h : writeAt region offset bytes = .ok written) {i : ℕ}
    (hi : i < offset ∨ offset + bytes.length ≤ i) :
    written[i]? = region[i]? := by
  obtain ⟨hle, rfl⟩ := writeAt_ok_iff.mp h
  have htake : (region.take offset).length = offset := by
    rw [List.length_take]
    omega
  rcases hi with hlt | hge
  · rw [List.append_assoc, List.getElem?_append_left (by omega),
      List.getElem?_take_of_lt hlt]
  · rw [List.getElem?_append_right
        (by rw [List.length_append, htake]; exact hge),
      List.length_append, htake, List.getElem?_drop,
      Nat.add_sub_cancel' hge]

theorem writeAt_drop (h : writeAt region offset bytes = .ok written) {n : ℕ}
    (hn : offset + bytes.length ≤ n) : written.drop n = region.drop n := by
  apply List.ext_getElem?
  intro i
  rw [List.getElem?_drop, List.getElem?_drop,
    writeAt_frame h (Or.inr (by omega))]

/-- Writing a NUL into a string cuts it off there. -/
theorem Holds.cut (h : Holds region s) {i : ℕ} (hi : i ≤ s.length)
    (hwrite : writeAt region i [0#8] = .ok written) :
    Holds written (s.take i) := by
  obtain ⟨_, rfl⟩ := writeAt_ok_iff.mp hwrite
  refine ⟨region.drop (i + [0#8].length), ?_⟩
  have htake : region.take i = s.bytes.take i := by
    rw [← h.take_length, List.take_take, Nat.min_eq_left hi]
  rw [htake]
  rfl

theorem strcpy_of_le (h : s.length + 1 ≤ region.length) :
    strcpy region s = .ok (s.stored ++ region.drop (s.length + 1)) := by
  unfold strcpy writeAt
  simp [h]

theorem memcpy_exact {out input : List Byte} {len : ℕ}
    (hinput : len ≤ input.length) (hout : out.length = len) :
    memcpy out input len = .ok (input.take len) := by
  have hend : 0 + (input.take len).length = out.length := by
    rw [Nat.zero_add, List.length_take, Nat.min_eq_left hinput, hout]
  unfold memcpy
  rw [if_pos hinput, writeAt_end hend]
  rfl

/-- Appending to a region with room for no more than the added string, whose
first byte is not a NUL, leaves the region. -/
theorem strcat_overflows {b : Byte} {rest : List Byte} (hb : b ≠ 0#8)
    (hroom : rest.length = s.length) :
    strcat (b :: rest) s = .error .outOfBounds := by
  have hlen : strlen (b :: rest) =
      (do let len ← strlen rest; return len + 1) := by
    rw [strlen, if_neg hb]
  unfold strcat
  rcases strlen_cases rest with hfault | ⟨len, hrest⟩
  · simp [hlen, hfault]
  · have hpast : ¬ len + 1 + s.stored.length ≤ (b :: rest).length := by
      rw [CString.length_stored, List.length_cons]
      omega
    simp only [hlen, hrest, ok_bind, pure_eq_ok, writeAt, if_neg hpast]

theorem Holds.strcat_exact (h : Holds region s) {t : CString}
    (hroom : region.length = s.length + t.length + 1) :
    strcat region t = .ok (s ++ t).stored := by
  have hend : s.length + t.stored.length = region.length := by
    rw [CString.length_stored, hroom, Nat.add_assoc]
  unfold strcat
  rw [h.strlen, ok_bind, writeAt_end hend, h.take_length,
    CString.stored_append]

end Write

end Alib
