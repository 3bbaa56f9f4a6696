import Mathlib.Data.List.DropRight
import Alib.CString

/-!
# Trimming a string in place

`a_chomp` and `a_strchomp` of `util.c` on a string that lies somewhere in a
larger buffer.  A pointer is an offset into the buffer, possibly one before its
start, and every address read or written is recorded.  Both functions start at
the last byte of the string; only `a_chomp` compares its pointer with the start
of the string before it reads.
-/

namespace Alib

/-- A buffer and the offsets read or written so far. -/
structure Watched where
  bytes : List Byte
  touched : List ℤ

def readByte (ptr : ℤ) (m : Watched) : Except Fault (Byte × Watched) :=
  if 0 ≤ ptr then
    match m.bytes[ptr.toNat]? with
    | none => .error .outOfBounds
    | some b => .ok (b, { m with touched := m.touched ++ [ptr] })
  else .error .outOfBounds

def writeByte (ptr : ℤ) (b : Byte) (m : Watched) : Except Fault Watched :=
  if 0 ≤ ptr ∧ ptr < m.bytes.length then
    .ok ⟨m.bytes.set ptr.toNat b, m.touched ++ [ptr]⟩
  else .error .outOfBounds

/-- The bytes of a string and its NUL. -/
def stringOffsets (str len : ℕ) : List ℤ :=
  (List.range (len + 1)).map fun i : ℕ => (str : ℤ) + (i : ℤ)

/-- `strlen` of the string at an offset: it reads up to the NUL. -/
def strlenAt (str : ℕ) (m : Watched) : Except Fault (ℕ × Watched) := do
  let len ← strlen (m.bytes.drop str)
  return (len, { m with touched := m.touched ++ stringOffsets str len })

/-- The cases of the `switch` that stands in for it. -/
def spaceCase (b : Byte) : Bool :=
  b = 0x20#8 || b = 0x0C#8 || b = 0x0A#8 || b = 0x0D#8 || b = 0x09#8 ||
    b = 0x0B#8

/-- The two ways `a_chomp` is compiled. -/
inductive ChompBuild where
  | isspace
  | switch
  deriving DecidableEq

def ChompBuild.strips : ChompBuild → Byte → Bool
  | .isspace => Alib.isspace
  | .switch => spaceCase

/-- `for(ptr = str + strlen(str) - 1;ptr >= str;ptr--)` -/
def chompLoop (strips : Byte → Bool) (str : ℕ) :
    ℕ → ℤ → Watched → Except Fault Watched
  | 0, _, _ => .error .divergence
  | fuel + 1, ptr, m =>
      if (str : ℤ) ≤ ptr then do
        let (b, m) ← readByte ptr m
        if strips b then
          let m ← writeByte ptr 0#8 m
          chompLoop strips str fuel (ptr - 1) m
        else return m
      else .ok m

def aChomp (build : ChompBuild) (str : ℕ) (m : Watched) :
    Except Fault Watched := do
  let (len, m) ← strlenAt str m
  chompLoop build.strips str (len + 1) (str + len - 1) m

/-- The bytes `a_strchomp` removes. -/
def strchompCase (b : Byte) : Bool := b = 0x0A#8 || b = 0x20#8 || b = 0x09#8

def aStrchomp (str : ℕ) (m : Watched) : Except Fault Watched := do
  let (len, m) ← strlenAt str m
  let strEnd : ℤ := str + len - 1
  let (b, m) ← readByte strEnd m
  if strchompCase b then writeByte strEnd 0#8 m else return m

section Laws

variable (pre post : List Byte) (s : CString)

/-- The buffer with the string between the bytes before and after it. -/
def placed : Watched := ⟨pre ++ s.stored ++ post, []⟩

/-- The call leaves the trimmed string in place of the old one and touches no
byte outside. -/
def Trims (kept : CString) (call : Except Fault Watched) : Prop :=
  ∃ m region, call = .ok m ∧ m.bytes = pre ++ region ++ post ∧
    region.length = s.length + 1 ∧ Holds region kept ∧
    ∀ a ∈ m.touched, (pre.length : ℤ) ≤ a ∧ a ≤ pre.length + s.length

/-- The longest prefix that does not end in whitespace. -/
structure LongestTrimmed (kept : CString) : Prop where
  isPrefix : kept.bytes <+: s.bytes
  trimmed : ∀ b, kept.bytes.getLast? = some b → isspace b = false
  longest : ∀ bytes, bytes <+: s.bytes →
    (∀ b, bytes.getLast? = some b → isspace b = false) →
    bytes <+: kept.bytes

/-- The string without its last byte if that is a newline, space or tab. -/
def strchomped : CString :=
  match s.bytes.getLast? with
  | none => s
  | some b => if strchompCase b then s.take (s.length - 1) else s

/-- Both functions trim the string and stay inside it. -/
structure TrimsInside : Prop where
  chomp : ∃ kept, LongestTrimmed s kept ∧
    ∀ build, Trims pre post s kept (aChomp build pre.length (placed pre post s))
  builds : aChomp .isspace pre.length (placed pre post s) =
    aChomp .switch pre.length (placed pre post s)
  strchomp : Trims pre post s (strchomped s)
    (aStrchomp pre.length (placed pre post s))

end Laws

section Accesses

variable {pre rest : List Byte} {b c : Byte} {touched : List ℤ}

theorem readByte_at (touched : List ℤ) :
    readByte pre.length ⟨pre ++ b :: rest, touched⟩ =
      .ok (b, ⟨pre ++ b :: rest, touched ++ [(pre.length : ℤ)]⟩) := by
  simp [readByte]

theorem writeByte_at (touched : List ℤ) :
    writeByte pre.length c ⟨pre ++ b :: rest, touched⟩ =
      .ok ⟨pre ++ c :: rest, touched ++ [(pre.length : ℤ)]⟩ := by
  simp [writeByte]

theorem mem_stringOffsets {str len : ℕ} {a : ℤ}
    (h : a ∈ stringOffsets str len) : (str : ℤ) ≤ a ∧ a ≤ str + len := by
  obtain ⟨i, hi, heq⟩ := List.mem_map.mp h
  rw [List.mem_range] at hi
  omega

theorem last_offset (pre init : List Byte) (b : Byte) :
    (pre.length : ℤ) + (init ++ [b]).length - 1 =
      ((pre ++ init).length : ℤ) := by
  simp only [List.length_append, List.length_singleton]
  push_cast
  omega

theorem strlenAt_placed (pre post : List Byte) (s : CString) :
    strlenAt pre.length (placed pre post s) =
      .ok (s.length,
        ⟨pre ++ s.stored ++ post, stringOffsets pre.length s.length⟩) := by
  have hheld : Holds (s.stored ++ post) s := ⟨post, rfl⟩
  simp [strlenAt, placed, hheld.strlen]

end Accesses

section Chomp

variable {pre post : List Byte} {s : CString}

theorem spaceCase_eq : spaceCase = isspace := by
  funext b
  revert b
  decide

theorem strips_eq (build : ChompBuild) : build.strips = isspace := by
  cases build with
  | isspace => rfl
  | switch => exact spaceCase_eq

theorem aChomp_builds (str : ℕ) (m : Watched) :
    aChomp .isspace str m = aChomp .switch str m := by
  unfold aChomp
  rw [strips_eq, strips_eq]

/-- One turn of the loop, at the last of the bytes it has not looked at. -/
theorem chompLoop_concat (strips : Byte → Bool) (pre bytes rest : List Byte)
    (b : Byte) (fuel : ℕ) (touched : List ℤ) :
    chompLoop strips pre.length (fuel + 1)
        (pre.length + (bytes ++ [b]).length - 1)
        ⟨pre ++ (bytes ++ [b]) ++ rest, touched⟩ =
      if strips b then
        chompLoop strips pre.length fuel (pre.length + bytes.length - 1)
          ⟨pre ++ bytes ++ 0#8 :: rest,
            touched ++ [((pre ++ bytes).length : ℤ)] ++
              [((pre ++ bytes).length : ℤ)]⟩
      else
        .ok ⟨pre ++ (bytes ++ [b]) ++ rest,
          touched ++ [((pre ++ bytes).length : ℤ)]⟩ := by
  have hgo : (pre.length : ℤ) ≤ ((pre ++ bytes).length : ℤ) := by
    rw [List.length_append]
    omega
  have hnext : ((pre ++ bytes).length : ℤ) - 1 =
      pre.length + bytes.length - 1 := by
    rw [List.length_append]
    push_cast
    omega
  have hregion : pre ++ (bytes ++ [b]) ++ rest =
      (pre ++ bytes) ++ b :: rest := by simp
  rw [last_offset, hregion]
  simp only [chompLoop, if_pos hgo, readByte_at, ok_bind]
  by_cases hstrip : strips b
  · rw [if_pos hstrip, if_pos hstrip, writeByte_at, ok_bind, hnext]
  · rw [if_neg hstrip, if_neg hstrip]
    rfl

theorem overwritten_concat {strips : Byte → Bool} {bytes : List Byte}
    {b : Byte} (hstrip : strips b) :
    ((bytes ++ [b]).rdropWhile strips) ++
        List.replicate ((bytes ++ [b]).length -
          ((bytes ++ [b]).rdropWhile strips).length) 0#8 =
      bytes.rdropWhile strips ++
        List.replicate (bytes.length - (bytes.rdropWhile strips).length) 0#8 ++
        [0#8] := by
  have hkept : (bytes.rdropWhile strips).length ≤ bytes.length :=
    (List.rdropWhile_prefix _ _).length_le
  have hcount : (bytes ++ [b]).length - (bytes.rdropWhile strips).length =
      bytes.length - (bytes.rdropWhile strips).length + 1 := by
    rw [List.length_append, List.length_singleton]
    omega
  rw [List.rdropWhile_concat_pos _ _ _ hstrip, hcount, List.replicate_succ',
    List.append_assoc]

/-- The loop overwrites the bytes at the end that it strips, from the right,
and looks at no byte before the start of the string. -/
theorem chompLoop_spec (strips : Byte → Bool) (pre bytes : List Byte) :
    ∀ fuel rest touched, bytes.length < fuel →
      ∃ m, chompLoop strips pre.length fuel (pre.length + bytes.length - 1)
          ⟨pre ++ bytes ++ rest, touched⟩ = .ok m ∧
        m.bytes = pre ++ (bytes.rdropWhile strips ++
          List.replicate (bytes.length - (bytes.rdropWhile strips).length)
            0#8) ++ rest ∧
        ∀ a ∈ m.touched, a ∈ touched ∨
          ((pre.length : ℤ) ≤ a ∧ a < pre.length + bytes.length) := by
  induction bytes using List.reverseRecOn with
  | nil =>
      intro fuel rest touched hfuel
      obtain ⟨fuel, rfl⟩ := Nat.exists_eq_add_one.mpr hfuel
      have hstop : ¬ (pre.length : ℤ) ≤ pre.length + (0 : ℕ) - 1 := by omega
      refine ⟨⟨pre ++ rest, touched⟩, ?_, by simp, fun a ha => Or.inl ha⟩
      simp only [List.length_nil, chompLoop, if_neg hstop, List.append_nil]
  | append_singleton bytes b ih =>
      intro fuel rest touched hfuel
      have hlength : (bytes ++ [b]).length = bytes.length + 1 := by simp
      rw [hlength] at hfuel
      obtain ⟨fuel, rfl⟩ :=
        Nat.exists_eq_add_one.mpr (Nat.zero_lt_of_lt hfuel)
      rw [chompLoop_concat]
      -- The byte looked at is inside: it is the last one of the string.
      have hlast : (pre.length : ℤ) ≤ ((pre ++ bytes).length : ℤ) ∧
          ((pre ++ bytes).length : ℤ) <
            pre.length + (bytes ++ [b]).length := by
        rw [hlength, List.length_append]
        omega
      by_cases hstrip : strips b
      · rw [if_pos hstrip]
        obtain ⟨m, hm, hbytes, htouched⟩ :=
          ih fuel (0#8 :: rest) (touched ++ [((pre ++ bytes).length : ℤ)] ++
            [((pre ++ bytes).length : ℤ)]) (by omega)
        refine ⟨m, hm, ?_, ?_⟩
        · rw [hbytes, overwritten_concat hstrip]
          simp
        · intro a ha
          rcases htouched a ha with hold | hnew
          · simp only [List.mem_append, List.mem_singleton, or_assoc,
              or_self] at hold
            rcases hold with hold | heq
            · exact Or.inl hold
            · exact Or.inr (heq ▸ hlast)
          · right
            omega
      · rw [if_neg hstrip]
        refine ⟨_, rfl, ?_, ?_⟩
        · rw [List.rdropWhile_concat_neg _ _ _ hstrip]
          simp
        · intro a ha
          rcases List.mem_append.mp ha with hold | hnew
          · exact Or.inl hold
          · exact Or.inr (List.mem_singleton.mp hnew ▸ hlast)

/-- The string without the whitespace at its end. -/
def CString.chomped (s : CString) : CString :=
  ⟨s.bytes.rdropWhile isspace, fun hmem =>
    s.noNul ((List.rdropWhile_prefix _ _).subset hmem)⟩

theorem longestTrimmed_chomped (s : CString) : LongestTrimmed s s.chomped where
  isPrefix := List.rdropWhile_prefix _ _
  trimmed := by
    intro b hb
    have hne : s.chomped.bytes ≠ [] := by
      intro hnil
      rw [hnil] at hb
      cases hb
    have hlast := List.rdropWhile_last_not isspace s.bytes hne
    rw [List.getLast?_eq_some_getLast hne] at hb
    cases hb
    exact Bool.eq_false_iff.mpr hlast
  longest := by
    intro bytes hfront hlast
    have hsplit : s.chomped.bytes ++ s.bytes.rtakeWhile isspace = s.bytes :=
      List.rdropWhile_append_rtakeWhile
    rcases List.prefix_or_prefix_of_prefix hfront
      (List.rdropWhile_prefix isspace s.bytes) with hle | hge
    · exact hle
    · rcases hge with ⟨tail, htail⟩
      have hspaces : tail <+: s.bytes.rtakeWhile isspace := by
        rw [← htail] at hfront
        refine (List.prefix_append_right_inj s.chomped.bytes).mp ?_
        rw [hsplit]
        exact hfront
      rcases List.eq_nil_or_concat tail with hnil | ⟨init, b, htailEq⟩
      · rw [hnil, List.append_nil] at htail
        exact htail ▸ List.prefix_rfl
      · have hnot : isspace b = false := hlast b (by
          rw [← htail, htailEq, List.concat_eq_append, ← List.append_assoc]
          simp)
        have hmem : b ∈ s.bytes.rtakeWhile isspace :=
          hspaces.subset (by simp [htailEq])
        rw [List.mem_rtakeWhile_imp hmem] at hnot
        cases hnot

theorem aChomp_trims (build : ChompBuild) (pre post : List Byte)
    (s : CString) :
    Trims pre post s s.chomped
      (aChomp build pre.length (placed pre post s)) := by
  obtain ⟨m, hm, hbytes, htouched⟩ :=
    chompLoop_spec build.strips pre s.bytes (s.length + 1) (0#8 :: post)
      (stringOffsets pre.length s.length) (Nat.lt_succ_self _)
  rw [strips_eq] at hbytes
  have hkept : s.chomped.bytes.length ≤ s.bytes.length :=
    (List.rdropWhile_prefix _ _).length_le
  refine ⟨m, s.chomped.bytes ++
    List.replicate (s.bytes.length - s.chomped.bytes.length) 0#8 ++ [0#8],
    ?_, ?_, ?_, ?_, ?_⟩
  · unfold aChomp
    have hregion : pre ++ s.stored ++ post = pre ++ s.bytes ++ 0#8 :: post := by
      simp [CString.stored]
    rw [strlenAt_placed, ok_bind, hregion]
    exact hm
  · rw [hbytes]
    simp [CString.chomped]
  · simp only [List.length_append, List.length_replicate,
      List.length_singleton, CString.length]
    omega
  · refine ⟨List.replicate (s.bytes.length - s.chomped.bytes.length) 0#8, ?_⟩
    rw [CString.stored, List.append_assoc, List.append_assoc,
      ← List.replicate_succ', List.replicate_succ]
    rfl
  · intro a ha
    rcases htouched a ha with hlen | hloop
    · exact mem_stringOffsets hlen
    · rw [← CString.length] at hloop
      omega

end Chomp

section Strchomp

variable {pre post : List Byte} {s : CString} {ptr : ℤ} {b : Byte}
  {m m' : Watched}

theorem readByte_touched (h : readByte ptr m = .ok (b, m')) :
    ptr ∈ m'.touched := by
  unfold readByte at h
  by_cases hptr : 0 ≤ ptr
  · rw [if_pos hptr] at h
    cases hbyte : m.bytes[ptr.toNat]? with
    | none =>
        rw [hbyte] at h
        cases h
    | some found =>
        rw [hbyte] at h
        cases h
        exact List.mem_append_right _ (List.mem_singleton.mpr rfl)
  · rw [if_neg hptr] at h
    cases h

theorem writeByte_touched (h : writeByte ptr b m = .ok m') {a : ℤ}
    (ha : a ∈ m.touched) : a ∈ m'.touched := by
  unfold writeByte at h
  split at h
  · cases h
    exact List.mem_append_left _ ha
  · cases h

/-- With an empty string the byte before it is read. -/
theorem aStrchomp_reads_before (hempty : s.bytes = [])
    (h : aStrchomp pre.length (placed pre post s) = .ok m) :
    (pre.length : ℤ) - 1 ∈ m.touched := by
  have hptr : (pre.length : ℤ) + s.length - 1 = pre.length - 1 := by
    simp [CString.length, hempty]
  unfold aStrchomp at h
  rw [strlenAt_placed, ok_bind] at h
  simp only [hptr] at h
  obtain ⟨⟨b, read⟩, hread, h⟩ := bind_eq_ok_iff.mp h
  have htouched := readByte_touched hread
  dsimp only at h
  by_cases hcase : strchompCase b
  · rw [if_pos hcase] at h
    exact writeByte_touched h htouched
  · rw [if_neg hcase] at h
    cases h
    exact htouched

theorem not_trims_empty (hempty : s.bytes = []) (kept : CString) :
    ¬ Trims pre post s kept (aStrchomp pre.length (placed pre post s)) := by
  intro htrims
  rcases htrims with ⟨m, region, hm, _, _, _, hinside⟩
  have hbefore := hinside _ (aStrchomp_reads_before hempty hm)
  omega

/-- With a last byte `b` the call reads that byte and overwrites it if it is
one of the cases. -/
theorem aStrchomp_concat (pre post : List Byte) {init : List Byte}
    (hbytes : s.bytes = init ++ [b]) :
    aStrchomp pre.length (placed pre post s) =
      if strchompCase b then
        .ok ⟨(pre ++ init) ++ 0#8 :: 0#8 :: post,
          stringOffsets pre.length s.length ++
            [((pre ++ init).length : ℤ)] ++ [((pre ++ init).length : ℤ)]⟩
      else
        .ok ⟨(pre ++ init) ++ b :: 0#8 :: post,
          stringOffsets pre.length s.length ++
            [((pre ++ init).length : ℤ)]⟩ := by
  have hptr : (pre.length : ℤ) + s.length - 1 =
      ((pre ++ init).length : ℤ) := by
    rw [CString.length, hbytes, last_offset]
  have hregion : pre ++ s.stored ++ post =
      (pre ++ init) ++ b :: 0#8 :: post := by
    simp [CString.stored, hbytes]
  unfold aStrchomp
  rw [strlenAt_placed, ok_bind]
  simp only [hptr, hregion, readByte_at, ok_bind]
  by_cases hcase : strchompCase b
  · rw [if_pos hcase, if_pos hcase, writeByte_at]
  · rw [if_neg hcase, if_neg hcase]
    rfl

theorem aStrchomp_trims (pre post : List Byte) (hne : s.bytes ≠ []) :
    Trims pre post s (strchomped s)
      (aStrchomp pre.length (placed pre post s)) := by
  rcases List.eq_nil_or_concat s.bytes with hnil | ⟨init, b, hbytes⟩
  · exact absurd hnil hne
  · rw [List.concat_eq_append] at hbytes
    have hlength : s.length = init.length + 1 := by
      rw [CString.length, hbytes, List.length_append, List.length_singleton]
    have hoffset : ((pre ++ init).length : ℤ) = pre.length + init.length := by
      rw [List.length_append]
      push_cast
      rfl
    have hlast : s.bytes.getLast? = some b := by simp [hbytes]
    have hcall := aStrchomp_concat pre post hbytes
    by_cases hcase : strchompCase b
    · rw [if_pos hcase] at hcall
      refine ⟨_, init ++ [0#8, 0#8], hcall, by simp, by simp [hlength], ?_, ?_⟩
      · refine ⟨[0#8], ?_⟩
        simp [strchomped, hcase, CString.stored, hbytes, hlength]
      · intro a ha
        simp only [List.mem_append, List.mem_singleton, or_assoc,
          or_self] at ha
        rcases ha with hlen | heq
        · exact mem_stringOffsets hlen
        · rw [heq, hoffset, hlength]
          omega
    · rw [if_neg hcase] at hcall
      refine ⟨_, s.stored, hcall, ?_, by simp, ?_, ?_⟩
      · simp [CString.stored, hbytes]
      · simp only [strchomped, hlast, if_neg hcase]
        exact holds_stored s
      · intro a ha
        rcases List.mem_append.mp ha with hlen | heq
        · exact mem_stringOffsets hlen
        · rw [List.mem_singleton.mp heq, hoffset, hlength]
          omega

/-- Both functions trim every string but the empty one inside its bounds;
before an empty string `a_strchomp` reads the byte in front. -/
theorem trimsInside_iff (pre post : List Byte) (s : CString) :
    TrimsInside pre post s ↔ s.bytes ≠ [] := by
  constructor
  · intro h hempty
    exact not_trims_empty hempty _ h.strchomp
  · intro hne
    exact ⟨⟨s.chomped, longestTrimmed_chomped s,
        fun build => aChomp_trims build pre post s⟩,
      aChomp_builds _ _, aStrchomp_trims pre post hne⟩

/-- An empty string behind a newline: the newline is overwritten. -/
theorem emptyString_not_trimsInside : ¬ TrimsInside [0x0A#8] [] .nil :=
  fun h => not_trims_empty rfl _ h.strchomp

end Strchomp

end Alib
