import Alib.Escape

/-!
# Clipping at a colon

`clip_at_colon` of `to_do/util.c`.  Its loop searches from the start of the
string every time, so a turn that is not the last one changes nothing; it stops
at the first colon when a backslash stands in front of it, and goes on for ever
when another byte does.
-/

namespace Alib

/-- `do ptr = strchr(in, ':'); while(ptr > in && *(ptr - 1) != '\\');` -/
def clipLoop (input : List Byte) : ℕ → Except Fault (Option ℕ)
  | 0 => .error .divergence
  | fuel + 1 => do
      match ← strchrAt input colon with
      | none => return none
      | some ptr =>
          if 0 < ptr then do
            let b ← readAt input (ptr - 1)
            if b ≠ backslash then clipLoop input fuel
            else return some ptr
          else return some ptr

/-- The offset returned, `none` for `NULL`, and what is left in `in`. -/
def clipAtColon (fuel : ℕ) (input : List Byte) :
    Except Fault (Option ℕ × List Byte) := do
  match ← clipLoop input fuel with
  | none => return (none, input)
  | some ptr => do
      let input ← writeAt input ptr [0#8]
      let input ← unescapeColon input
      return (some (ptr + 1), input)

/-- A colon that does not stand right behind a backslash. -/
def UnescapedColon (bytes : List Byte) (i : ℕ) : Prop :=
  bytes[i]? = some colon ∧ ∀ j, i = j + 1 → bytes[j]? ≠ some backslash

/-- What the call returns and leaves behind is `NULL` when there is no
unescaped colon, and otherwise splits the string at the first one. -/
structure SplitAtColon (s : CString) (ptr : Option ℕ) (input : List Byte) :
    Prop where
  null_iff : ptr = none ↔ ∀ i, ¬ UnescapedColon s.bytes i
  split : ∀ p, ptr = some p → ∃ i, p = i + 1 ∧ UnescapedColon s.bytes i ∧
    (∀ j < i, ¬ UnescapedColon s.bytes j) ∧
    Holds (input.drop p) (s.drop p) ∧ Holds input (s.take i).unescaped

/-- The call returns, and splits the string at its first unescaped colon. -/
def ClipsAtColon (s : CString) : Prop :=
  ∀ rest, ∃ fuel ptr input,
    clipAtColon fuel (s.stored ++ rest) = .ok (ptr, input) ∧
      SplitAtColon s ptr input

/-- Repeated calls, each on what the one before returned, leave these fields;
the last one is unescaped at the end. -/
inductive ClippedInto : List Byte → List CString → Prop
  | last {input clipped str : List Byte} {s : CString} {fuel : ℕ}
      (hclip : clipAtColon fuel input = .ok (none, clipped))
      (hstr : unescapeColon clipped = .ok str) (hheld : Holds str s) :
      ClippedInto input [s]
  | next {input clipped : List Byte} {s : CString} {fields : List CString}
      {fuel p : ℕ} (hclip : clipAtColon fuel input = .ok (some p, clipped))
      (hheld : Holds clipped s)
      (hrest : ClippedInto (clipped.drop p) fields) :
      ClippedInto input (s :: fields)

/-- A text without a backslash. -/
structure PlainText extends CString where
  noBackslash : backslash ∉ bytes

/-- The escaped texts with colons between them. -/
def joinEscaped : List PlainText → PlainText → CString
  | [], last => last.escaped
  | field :: fields, last =>
      field.escaped ++ ⟨[colon], by decide⟩ ++ joinEscaped fields last

/-- Clipping the joined texts gives them back in order. -/
def ClipsFields (fields : List PlainText) (last : PlainText) : Prop :=
  ∀ rest, ClippedInto ((joinEscaped fields last).stored ++ rest)
    (fields.map PlainText.toCString ++ [last.toCString])

section Loop

variable {s : CString} {i fuel : ℕ}

theorem clipLoop_none (hcolon : strchr s colon = none) (rest : List Byte) :
    clipLoop (s.stored ++ rest) (fuel + 1) = .ok none := by
  have hheld : Holds (s.stored ++ rest) s := ⟨rest, rfl⟩
  simp only [clipLoop, hheld.strchrAt, hcolon, ok_bind, pure_eq_ok]

theorem CString.getElem?_stored {b : Byte} (h : s.bytes[i]? = some b)
    (rest : List Byte) : (s.stored ++ rest)[i]? = some b := by
  have hlt := (List.getElem?_eq_some_iff.mp h).1
  have hlength : i < s.stored.length := by
    rw [CString.length_stored]
    exact Nat.lt_succ_of_lt hlt
  rw [List.getElem?_append_left hlength, CString.stored,
    List.getElem?_append_left hlt, h]

theorem clipLoop_some (hcolon : strchr s colon = some i)
    (hstop : ∀ j, i = j + 1 → s.bytes[j]? = some backslash)
    (rest : List Byte) :
    clipLoop (s.stored ++ rest) (fuel + 1) = .ok (some i) := by
  have hheld : Holds (s.stored ++ rest) s := ⟨rest, rfl⟩
  simp only [clipLoop, hheld.strchrAt, hcolon, ok_bind, pure_eq_ok]
  cases i with
  | zero => rfl
  | succ j =>
      have hread : readAt (s.stored ++ rest) j = .ok backslash :=
        readAt_of_getElem? (CString.getElem?_stored (hstop j rfl) rest)
      simp [hread]

theorem clipLoop_diverges {j : ℕ} {b : Byte}
    (hcolon : strchr s colon = some (j + 1)) (hj : s.bytes[j]? = some b)
    (hb : b ≠ backslash) (rest : List Byte) (fuel : ℕ) :
    clipLoop (s.stored ++ rest) fuel = .error .divergence := by
  have hheld : Holds (s.stored ++ rest) s := ⟨rest, rfl⟩
  have hread : readAt (s.stored ++ rest) (j + 1 - 1) = .ok b :=
    readAt_of_getElem? (CString.getElem?_stored hj rest)
  induction fuel with
  | zero => rfl
  | succ fuel ih =>
      simp only [clipLoop, hheld.strchrAt, hcolon, ok_bind, hread,
        Nat.succ_pos, if_true, if_pos hb, ih]

end Loop

section Calls

variable {s : CString} {i : ℕ}

theorem clipAtColon_none (hcolon : strchr s colon = none) (rest : List Byte)
    (fuel : ℕ) :
    clipAtColon (fuel + 1) (s.stored ++ rest) =
      .ok (none, s.stored ++ rest) := by
  simp [clipAtColon, clipLoop_none hcolon rest]

theorem CString.drop_stored (h : i ≤ s.length) (rest : List Byte) :
    (s.stored ++ rest).drop i = (s.drop i).stored ++ rest := by
  have hlength : i ≤ s.bytes.length := h
  rw [CString.stored, CString.stored, List.append_assoc,
    List.drop_append_of_le_length hlength, CString.drop_bytes,
    List.append_assoc]

/-- At the colon the loop stopped at, the string is cut off and unescaped;
the bytes behind the colon stay. -/
theorem clipAtColon_some (hcolon : strchr s colon = some i)
    (hstop : ∀ j, i = j + 1 → s.bytes[j]? = some backslash)
    (rest : List Byte) (fuel : ℕ) :
    ∃ input, clipAtColon (fuel + 1) (s.stored ++ rest) =
        .ok (some (i + 1), input) ∧
      Holds input (s.take i).unescaped ∧
      input.drop (i + 1) = (s.drop (i + 1)).stored ++ rest := by
  have hi : i < s.length := firstIdx_lt hcolon
  have hheld : Holds (s.stored ++ rest) s := ⟨rest, rfl⟩
  have hroom : i + [0#8].length ≤ (s.stored ++ rest).length := by
    rw [List.length_append, CString.length_stored, List.length_singleton]
    omega
  obtain ⟨cut, hcut⟩ : ∃ cut,
      writeAt (s.stored ++ rest) i [0#8] = .ok cut :=
    ⟨_, writeAt_ok_iff.mpr ⟨hroom, rfl⟩⟩
  have hfront := hheld.cut hi.le hcut
  rcases hfront with ⟨behind, hbehind⟩
  obtain ⟨input, hinput, hunescaped, hdrop⟩ :=
    unescapeColon_spec (s.take i) behind
  have hlength : (s.take i).length = i := by
    rw [CString.length, CString.take_bytes, List.length_take]
    exact Nat.min_eq_left hi.le
  refine ⟨input, ?_, hunescaped, ?_⟩
  · unfold clipAtColon
    rw [clipLoop_some hcolon hstop rest, ok_bind]
    dsimp only
    rw [hcut, ok_bind, hbehind, hinput]
    rfl
  · rw [hlength] at hdrop
    have hstored : (s.take i).stored.length = i + 1 := by
      rw [CString.length_stored, hlength]
    have hsame : cut.drop (i + 1) = behind := by
      rw [hbehind]
      exact List.drop_left' hstored
    rw [hdrop, ← hsame, writeAt_drop hcut (n := i + 1) (by simp)]
    exact CString.drop_stored hi rest

theorem clipAtColon_diverges {j : ℕ} {b : Byte}
    (hcolon : strchr s colon = some (j + 1)) (hj : s.bytes[j]? = some b)
    (hb : b ≠ backslash) (rest : List Byte) (fuel : ℕ) :
    clipAtColon fuel (s.stored ++ rest) = .error .divergence := by
  unfold clipAtColon
  rw [clipLoop_diverges hcolon hj hb rest fuel]
  rfl

end Calls

section Single

variable {s : CString}

theorem not_unescapedColon (hcolon : colon ∉ s.bytes) (i : ℕ) :
    ¬ UnescapedColon s.bytes i := fun h =>
  hcolon (List.mem_of_getElem? h.1)

theorem clipsAtColon_of_no_colon (hcolon : colon ∉ s.bytes) :
    ClipsAtColon s := by
  intro rest
  refine ⟨1, _, _, clipAtColon_none (firstIdx_of_not_mem hcolon) rest 0, ?_⟩
  constructor
  · exact ⟨fun _ => not_unescapedColon hcolon, fun _ => rfl⟩
  · intro p hp
    cases hp

theorem strchr_head {bytes : List Byte} (hbytes : s.bytes = colon :: bytes) :
    strchr s colon = some 0 := by
  rw [strchr, hbytes]
  exact firstIdx_append List.not_mem_nil bytes

theorem clipsAtColon_of_head {bytes : List Byte}
    (hbytes : s.bytes = colon :: bytes) : ClipsAtColon s := by
  intro rest
  have hcolon := strchr_head hbytes
  have hstop : ∀ j, 0 = j + 1 → s.bytes[j]? = some backslash := by
    intro j hj
    omega
  have hfirst : UnescapedColon s.bytes 0 :=
    ⟨by rw [hbytes]; rfl, fun j hj => by omega⟩
  obtain ⟨input, hclip, hheld, hdrop⟩ :=
    clipAtColon_some hcolon hstop rest 0
  refine ⟨1, _, _, hclip, ?_⟩
  constructor
  · constructor
    · intro hnull
      cases hnull
    · intro hnone
      exact absurd hfirst (hnone 0)
  · intro p hp
    cases hp
    exact ⟨0, rfl, hfirst, fun j hj => by omega,
      ⟨rest, hdrop⟩, hheld⟩

/-- A first colon that is not the first byte is escaped, and clipped at, or
is not escaped, and never found. -/
theorem ClipsAtColon.first_colon (h : ClipsAtColon s) :
    colon ∉ s.bytes ∨ s.bytes.head? = some colon := by
  rcases firstIdx_cases colon s.bytes with
    ⟨_, hmem⟩ | ⟨before, after, hbytes, hmem, hfirst⟩
  · exact Or.inl hmem
  · rcases List.eq_nil_or_concat before with hnil | ⟨front, b, hbefore⟩
    · right
      rw [hbytes, hnil]
      rfl
    · exfalso
      rw [List.concat_eq_append] at hbefore
      have hcolon : strchr s colon = some (front.length + 1) := by
        rw [strchr, hfirst, hbefore, List.length_append]
        rfl
      have hlast : s.bytes[front.length]? = some b := by
        rw [hbytes, hbefore, List.append_assoc]
        simp
      obtain ⟨fuel, ptr, input, hclip, hsplit⟩ := h []
      by_cases hb : b = backslash
      · cases fuel with
        | zero => cases hclip
        | succ fuel =>
            have hstop : ∀ j, front.length + 1 = j + 1 →
                s.bytes[j]? = some backslash := by
              intro j hj
              rw [← Nat.succ.inj hj, hlast, hb]
            obtain ⟨input', hclip', _⟩ :=
              clipAtColon_some hcolon hstop [] fuel
            rw [hclip] at hclip'
            cases hclip'
            obtain ⟨i, hi, hunescaped, _⟩ := hsplit.split _ rfl
            have hat := hunescaped.2 front.length (by omega)
            exact hat (by rw [hlast, hb])
      · rw [clipAtColon_diverges hcolon hlast hb [] fuel] at hclip
        cases hclip

theorem clipsAtColon_iff (s : CString) :
    ClipsAtColon s ↔ colon ∉ s.bytes ∨ s.bytes.head? = some colon := by
  constructor
  · exact ClipsAtColon.first_colon
  · intro h
    rcases h with hcolon | hhead
    · exact clipsAtColon_of_no_colon hcolon
    · obtain ⟨bytes, hbytes⟩ := List.head?_eq_some_iff.mp hhead
      exact clipsAtColon_of_head hbytes

end Single

section Fields

variable {field last : PlainText} {s : CString} {fields : List CString}

theorem escapeByte_of_no_colon {bytes : List Byte} (h : colon ∉ bytes) :
    bytes.flatMap CString.escapeByte = bytes := by
  have hbyte : ∀ b ∈ bytes, CString.escapeByte b = [b] := by
    intro b hb
    rw [CString.escapeByte, if_neg (fun heq : b = colon => h (heq ▸ hb))]
  rw [List.flatMap_congr hbyte]
  exact List.flatMap_singleton' bytes

theorem CString.escaped_of_no_colon (h : colon ∉ s.bytes) : s.escaped = s :=
  CString.ext (escapeByte_of_no_colon h)

/-- In a text with a colon, the first one is behind the backslash added for
it, and what stands in front of that is shorter than the text. -/
theorem PlainText.first_escaped (hcolon : colon ∈ field.bytes) :
    ∃ front after, field.escaped.bytes =
        front ++ backslash :: colon :: after ∧ colon ∉ front ∧
      front.length < field.length := by
  rcases firstIdx_cases colon field.bytes with
    ⟨_, hmem⟩ | ⟨before, after, hbytes, hmem, _⟩
  · exact absurd hcolon hmem
  · refine ⟨before, after.flatMap CString.escapeByte, ?_, hmem, ?_⟩
    · rw [CString.escaped_bytes, hbytes, List.flatMap_append,
        List.flatMap_cons, escapeByte_of_no_colon hmem]
      rfl
    · rw [CString.length, hbytes, List.length_append, List.length_cons]
      omega

/-- An escaped colon that comes first is clipped at: what is left in `in` is
the text up to it. -/
theorem clipAtColon_escaped {front after : List Byte}
    (hbytes : s.bytes = front ++ backslash :: colon :: after)
    (hfront : colon ∉ front) (rest : List Byte) (fuel : ℕ) :
    ∃ input cut, clipAtColon (fuel + 1) (s.stored ++ rest) =
        .ok (some (front.length + 2), input) ∧ Holds input cut ∧
      cut.length ≤ front.length := by
  have hsplit : s.bytes = (front ++ [backslash]) ++ colon :: after := by
    rw [hbytes, List.append_assoc]
    rfl
  have hmem : colon ∉ front ++ [backslash] := by
    intro h
    rcases List.mem_append.mp h with h | h
    · exact hfront h
    · exact absurd (List.mem_singleton.mp h) (by decide)
  have hcolon : strchr s colon = some (front.length + 1) := by
    rw [strchr, hsplit, firstIdx_append hmem, List.length_append]
    rfl
  have hstop : ∀ j, front.length + 1 = j + 1 →
      s.bytes[j]? = some backslash := by
    intro j hj
    rw [← Nat.succ.inj hj, hbytes]
    simp
  obtain ⟨input, hclip, hheld, _⟩ := clipAtColon_some hcolon hstop rest fuel
  refine ⟨input, _, hclip, hheld, ?_⟩
  have htake : s.bytes.take (front.length + 1) = front ++ [backslash] := by
    rw [hsplit]
    exact List.take_left' (by simp)
  rw [CString.length, CString.unescaped_bytes, CString.take_bytes, htake,
    List.filter_append]
  simpa using List.length_filter_le _ front

/-- The last text is given back when it has no colon; otherwise it is clipped
at its own. -/
theorem clippedInto_last_iff (rest : List Byte) :
    ClippedInto (last.escaped.stored ++ rest) [last.toCString] ↔
      colon ∉ last.bytes := by
  constructor
  · intro h hcolon
    obtain ⟨front, after, hbytes, hfront, _⟩ := last.first_escaped hcolon
    cases h with
    | @last _ _ _ _ fuel hclip _ _ =>
        cases fuel with
        | zero => cases hclip
        | succ fuel =>
            obtain ⟨input, cut, hclip', _⟩ :=
              clipAtColon_escaped hbytes hfront rest fuel
            rw [hclip] at hclip'
            cases hclip'
    | next _ _ hrest => cases hrest
  · intro hcolon
    have hsame := CString.escaped_of_no_colon hcolon
    obtain ⟨str, hstr, hheld, _⟩ := unescapeColon_spec last.toCString rest
    rw [CString.unescaped_eq_self_iff.mpr last.noBackslash] at hheld
    rw [hsame]
    exact .last (clipAtColon_none (firstIdx_of_not_mem hcolon) rest 0) hstr
      hheld

/-- A colon that comes first is clipped at, and leaves nothing in `in`. -/
theorem clipAtColon_head {joined : CString}
    (hjoined : joined.bytes = colon :: s.bytes) (rest : List Byte)
    (fuel : ℕ) :
    ∃ input, clipAtColon (fuel + 1) (joined.stored ++ rest) =
        .ok (some 1, input) ∧ Holds input .nil ∧
      input.drop 1 = s.stored ++ rest := by
  obtain ⟨input, hclip, hheld, hdrop⟩ := clipAtColon_some
    (strchr_head hjoined) (fun j hj => by omega) rest fuel
  have hnone : (joined.take 0).unescaped = .nil := CString.ext rfl
  have hrest : joined.drop (0 + 1) = s := by
    apply CString.ext
    rw [CString.drop_bytes, hjoined]
    rfl
  rw [hnone] at hheld
  rw [hrest] at hdrop
  exact ⟨input, hclip, hheld, hdrop⟩

/-- A text that is not empty is never clipped off whole: the search does not
get past a text without colons, and cuts one with colons short. -/
theorem not_holds_of_clip {joined : CString} {behind : List Byte}
    (hjoined : joined.bytes = field.escaped.bytes ++ colon :: behind)
    (hfield : field.bytes ≠ []) {rest clipped : List Byte} {fuel p : ℕ}
    (hclip : clipAtColon fuel (joined.stored ++ rest) =
      .ok (some p, clipped)) : ¬ Holds clipped field.toCString := by
  intro hheld
  cases fuel with
  | zero => cases hclip
  | succ fuel =>
      by_cases hcolon : colon ∈ field.bytes
      · obtain ⟨front, after, hescaped, hfront, hlt⟩ :=
          field.first_escaped hcolon
        have hsplit : joined.bytes = front ++ backslash :: colon ::
            (after ++ colon :: behind) := by
          rw [hjoined, hescaped]
          simp
        obtain ⟨input, cut, hclip', hcut, hle⟩ :=
          clipAtColon_escaped hsplit hfront rest fuel
        rw [hclip] at hclip'
        cases hclip'
        have hsame := hheld.unique hcut
        rw [hsame] at hlt
        omega
      · obtain ⟨init, b, hbytes⟩ :=
          (List.eq_nil_or_concat field.bytes).resolve_left hfield
        rw [List.concat_eq_append] at hbytes
        rw [CString.escaped_of_no_colon hcolon, hbytes] at hjoined
        rw [hbytes] at hcolon
        have hfirst : strchr joined colon = some (init.length + 1) := by
          rw [strchr, hjoined, firstIdx_append hcolon, List.length_append]
          rfl
        have hlast : joined.bytes[init.length]? = some b := by
          rw [hjoined, List.append_assoc]
          simp
        have hb : b ≠ backslash := by
          intro heq
          apply field.noBackslash
          rw [hbytes, heq]
          simp
        rw [clipAtColon_diverges hfirst hlast hb rest] at hclip
        cases hclip

theorem clippedInto_next_iff (hfields : fields ≠ []) (rest : List Byte) :
    ClippedInto ((field.escaped ++ ⟨[colon], by decide⟩ ++ s).stored ++ rest)
        (field.toCString :: fields) ↔
      field.bytes = [] ∧ ClippedInto (s.stored ++ rest) fields := by
  have hbytes : (field.escaped ++ ⟨[colon], by decide⟩ ++ s).bytes =
      field.escaped.bytes ++ colon :: s.bytes := by simp
  generalize field.escaped ++ ⟨[colon], by decide⟩ ++ s = joined at hbytes ⊢
  have hstart : field.bytes = [] → joined.bytes = colon :: s.bytes := by
    intro hnil
    rw [hbytes, CString.escaped_bytes, hnil]
    rfl
  constructor
  · intro h
    cases h with
    | last => exact absurd rfl hfields
    | @next _ clipped _ _ fuel p hclip hheld hrest =>
        have hnil : field.bytes = [] := by
          by_contra hfield
          exact not_holds_of_clip hbytes hfield hclip hheld
        cases fuel with
        | zero => cases hclip
        | succ fuel =>
            obtain ⟨input, hclip', _, hdrop⟩ :=
              clipAtColon_head (hstart hnil) rest fuel
            rw [hclip] at hclip'
            cases hclip'
            rw [hdrop] at hrest
            exact ⟨hnil, hrest⟩
  · intro h
    obtain ⟨input, hclip, hheld, hdrop⟩ :=
      clipAtColon_head (hstart h.1) rest 0
    have hnil : field.toCString = .nil := CString.ext h.1
    rw [hnil]
    refine .next hclip hheld ?_
    rw [hdrop]
    exact h.2

theorem clipsFields_iff (fields : List PlainText) (last : PlainText)
    (rest : List Byte) :
    ClippedInto ((joinEscaped fields last).stored ++ rest)
        (fields.map PlainText.toCString ++ [last.toCString]) ↔
      (∀ field ∈ fields, field.bytes = []) ∧ colon ∉ last.bytes := by
  induction fields with
  | nil =>
      have hlast : ClippedInto (last.escaped.stored ++ rest)
          [last.toCString] ↔ colon ∉ last.bytes := clippedInto_last_iff rest
      simpa [joinEscaped] using hlast
  | cons field fields ih =>
      rw [joinEscaped, List.map_cons, List.cons_append,
        clippedInto_next_iff (by simp) rest, ih, List.forall_mem_cons,
        and_assoc]

end Fields

/-- The call clips a string right exactly when it has no colon or starts with
one; so of joined texts all but the last must be empty, and the last one must
have no colon. -/
theorem clipAtColon_clips_iff (s : CString) (fields : List PlainText)
    (last : PlainText) :
    (ClipsAtColon s ↔ colon ∉ s.bytes ∨ s.bytes.head? = some colon) ∧
      (ClipsFields fields last ↔
        (∀ field ∈ fields, field.bytes = []) ∧ colon ∉ last.bytes) := by
  refine ⟨clipsAtColon_iff s, ?_⟩
  constructor
  · intro h
    exact (clipsFields_iff fields last []).mp (h [])
  · intro h rest
    exact (clipsFields_iff fields last rest).mpr h

/-- The call does not return for `a:b`. -/
theorem letters_not_clipped :
    ¬ ClipsAtColon ⟨[0x61#8, 0x3A#8, 0x62#8], by decide⟩ := by
  intro h
  rcases h.first_colon with hcolon | hhead
  · exact hcolon (by decide)
  · exact absurd hhead (by decide)

end Alib
