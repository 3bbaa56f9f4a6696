import Alib.ByteBlock

/-!
# Copying and appending strings

`a_strcat_realloc` of `util.c` and `a_strdup` of `mem.c`.  The first appends to
whatever the reallocated block holds, also when there was no block before, and
reads the string it appends only after its block went to `realloc`; the second
keeps the length it copies in an `unsigned int`.
-/

namespace Alib

open Bytes

def aStrcatRealloc (E : Env) (orig : Option ByteBlock) (add : Option Data)
    (w : World) : Except Fault (Option ByteBlock × World) :=
  match add with
  | none => .ok (orig, w)
  | some add => do
      let origLen ←
        match orig with
        | none => .ok 0
        | some block => strlen block.bytes
      let addLen ← strlen add.bytes
      let (out, w) ← Bytes.aRealloc E orig
        (sizeAdd (sizeAdd origLen addLen) 1) w
      match out with
      | none => return (none, w)
      | some block => do
          let source ← readAfter orig add
          let source ← readString source
          let bytes ← strcat block.bytes source
          return (some { block with bytes := bytes }, w)

/-- `a_strcat_realloc` folded over a list of strings, from `NULL`. -/
def strcatAll (E : Env) (adds : List CString) (w : World) :
    Except Fault (Option ByteBlock × World) :=
  adds.foldlM (fun (orig, w) add =>
    aStrcatRealloc E orig (some (.own add.stored)) w) (none, w)

/-- The narrowing of a `size_t` to an `unsigned int`. -/
def unsignedInt (size : ℕ) : ℕ := size % 2 ^ 32

def aStrdup (E : Env) (input : List Byte) (w : World) :
    Except Fault (Option ByteBlock × World) := do
  let inputLen ← strlen input
  let len := unsignedInt (sizeAdd inputLen 1)
  let (out, w) ← Bytes.aMalloc E len w
  match out with
  | none => return (none, w)
  | some block => do
      let bytes ← memcpy block.bytes input len
      return (some { block with bytes := bytes }, w)

section Strcat

variable {E : Env} {w : World} {orig : Option ByteBlock} {s add : CString}
  {input : Data}

/-- A pointer to a string, `NULL` standing for the empty one. -/
def PointsTo (orig : Option ByteBlock) (s : CString) : Prop :=
  match orig with
  | none => s = .nil
  | some block => Holds block.bytes s

/-- The call returns a block which holds the string and nothing else. -/
def Returns (call : Except Fault (Option ByteBlock × World)) (s : CString) :
    Prop :=
  ∃ block after, call = .ok (some block, after) ∧ block.bytes = s.stored

/-- The call yields the string, `NULL` standing for the empty one. -/
def Yields (call : Except Fault (Option ByteBlock × World)) (s : CString) :
    Prop :=
  Returns call s ∨ ∃ after, call = .ok (none, after) ∧ s = .nil

theorem strcatSize_eq (hfits : s.length + add.length + 1 < 2 ^ 64) :
    sizeAdd (sizeAdd s.length add.length) 1 = s.length + add.length + 1 := by
  have hsum : sizeAdd s.length add.length = s.length + add.length :=
    sizeAdd_of_lt (by omega)
  rw [hsum, sizeAdd_of_lt hfits]

theorem aStrcatRealloc_eq {block : ByteBlock} (hblock : Holds block.bytes s)
    (hinput : Holds input.bytes add) (hapart : ¬ input.Within (some block))
    (hfits : s.length + add.length + 1 < 2 ^ 64)
    (hgrant : E.grants w.requests (s.length + add.length + 1) = true) :
    aStrcatRealloc E (some block) (some input) w =
      .ok (some ⟨w.requests, (s ++ add).stored⟩,
        { w with requests := w.requests + 1 }) := by
  have hheld : Holds (reallocBytes (some block)
      (freshBytes E w.requests (s.length + add.length + 1))) s :=
    holds_reallocBytes hblock (by rw [freshBytes_length]; omega)
  have hstrcat := hheld.strcat_exact (t := add)
    (by rw [reallocBytes_length, freshBytes_length])
  simp [aStrcatRealloc, hblock.strlen, hinput.strlen, strcatSize_eq hfits,
    aRealloc_of_grants (Nat.succ_ne_zero _) hgrant, readAfter, hapart,
    hinput.readString, hstrcat]

/-- A string inside the block is read after the block went to `realloc`. -/
theorem aStrcatRealloc_within {block : ByteBlock}
    (hblock : Holds block.bytes s) (hinput : Holds input.bytes add)
    (hwithin : input.Within (some block))
    (hfits : s.length + add.length + 1 < 2 ^ 64)
    (hgrant : E.grants w.requests (s.length + add.length + 1) = true) :
    aStrcatRealloc E (some block) (some input) w =
      .error .danglingPointer := by
  simp [aStrcatRealloc, hblock.strlen, hinput.strlen, strcatSize_eq hfits,
    aRealloc_of_grants (Nat.succ_ne_zero _) hgrant, readAfter, hwithin]

theorem not_within_none : ¬ input.Within none := by
  cases input <;> exact id

/-- From `NULL` the new string is appended to what the allocator left in the
block, which has room for no more than that string. -/
theorem aStrcatRealloc_null (hinput : Holds input.bytes add)
    (hfits : add.length + 1 < 2 ^ 64)
    (hgrant : E.grants w.requests (add.length + 1) = true) :
    aStrcatRealloc E none (some input) w =
      if garbageByte E w.requests 0 = 0#8 then
        .ok (some ⟨w.requests, add.stored⟩,
          { w with requests := w.requests + 1 })
      else .error .outOfBounds := by
  have hsize : sizeAdd (sizeAdd 0 add.length) 1 = add.length + 1 := by
    have hsum : sizeAdd 0 add.length = add.length := by
      rw [sizeAdd_of_lt (by omega), Nat.zero_add]
    rw [hsum, sizeAdd_of_lt hfits]
  have hrealloc : Bytes.aRealloc E none (add.length + 1) w =
      .ok (some ⟨w.requests, freshBytes E w.requests (add.length + 1)⟩,
        { w with requests := w.requests + 1 }) :=
    aRealloc_of_grants (Nat.succ_ne_zero _) hgrant
  obtain ⟨rest, hrest⟩ := freshBytes_succ E w.requests add.length
  have hlength : rest.length = add.length := by
    have hcount := congrArg List.length hrest
    rw [freshBytes_length, List.length_cons] at hcount
    omega
  simp only [aStrcatRealloc, hinput.strlen, ok_bind, hsize, hrealloc, hrest,
    readAfter, if_neg not_within_none, hinput.readString]
  by_cases hzero : garbageByte E w.requests 0 = 0#8
  · have hheld : Holds (0#8 :: rest) .nil := ⟨rest, rfl⟩
    have hstrcat := hheld.strcat_exact (t := add) (by simp [hlength])
    rw [if_pos hzero, hzero, hstrcat, CString.nil_append]
    rfl
  · rw [if_neg hzero, strcat_overflows hzero hlength]
    rfl

theorem aStrcatRealloc_returns_iff (horig : PointsTo orig s)
    (hinput : Holds input.bytes add)
    (hfits : s.length + add.length + 1 < 2 ^ 64)
    (hgrant : E.grants w.requests (s.length + add.length + 1) = true) :
    Returns (aStrcatRealloc E orig (some input) w) (s ++ add) ↔
      (orig = none → garbageByte E w.requests 0 = 0#8) ∧
        ¬ input.Within orig := by
  cases orig with
  | some block =>
      by_cases hwithin : input.Within (some block)
      · rw [Returns, aStrcatRealloc_within horig hinput hwithin hfits hgrant]
        constructor
        · intro hreturns
          rcases hreturns with ⟨block, after, hcall, _⟩
          cases hcall
        · intro hcond
          exact absurd hwithin hcond.2
      · refine ⟨fun _ => ⟨fun hnone => ?_, hwithin⟩, fun _ => ?_⟩
        · exact absurd hnone (Option.some_ne_none block)
        · exact ⟨_, _, aStrcatRealloc_eq horig hinput hwithin hfits hgrant,
            rfl⟩
  | none =>
      have hnil : s = .nil := horig
      subst hnil
      rw [CString.nil_length, Nat.zero_add] at hfits hgrant
      rw [Returns, aStrcatRealloc_null hinput hfits hgrant,
        CString.nil_append, and_iff_left not_within_none]
      by_cases hzero : garbageByte E w.requests 0 = 0#8
      · rw [if_pos hzero]
        exact ⟨fun _ _ => hzero, fun _ => ⟨_, _, rfl, rfl⟩⟩
      · rw [if_neg hzero]
        constructor
        · intro hreturns
          rcases hreturns with ⟨block, after, hcall, _⟩
          cases hcall
        · intro hcond
          exact absurd (hcond rfl) hzero

theorem length_le_foldl (s : CString) (adds : List CString) :
    s.length ≤ (adds.foldl (· ++ ·) s).length := by
  induction adds generalizing s with
  | nil => exact le_rfl
  | cons add adds ih =>
      have hstep := ih (s ++ add)
      rw [CString.length_append] at hstep
      exact (Nat.le_add_right _ _).trans hstep

/-- Once there is a block, the rest of the list is appended to it. -/
theorem strcatAll_from (hgrant : E.GrantsAll) {adds : List CString}
    {block : ByteBlock} (hblock : block.bytes = s.stored)
    (hfits : (adds.foldl (· ++ ·) s).length + 1 < 2 ^ 64) (w : World) :
    Returns (adds.foldlM (fun (orig, w) add =>
        aStrcatRealloc E orig (some (.own add.stored)) w)
      (some block, w)) (adds.foldl (· ++ ·) s) := by
  induction adds generalizing s block w with
  | nil => exact ⟨block, w, rfl, hblock⟩
  | cons add adds ih =>
      have hheld : Holds block.bytes s := hblock ▸ holds_stored s
      have hlength := length_le_foldl (s ++ add) adds
      rw [CString.length_append] at hlength
      have hsum : s.length + add.length + 1 < 2 ^ 64 := by
        rw [List.foldl_cons] at hfits
        omega
      have hadd : Holds (Data.own add.stored).bytes add := holds_stored add
      have hcall := aStrcatRealloc_eq hheld hadd id hsum (hgrant w.requests _)
      rw [List.foldlM_cons]
      simp only [hcall, ok_bind]
      exact ih rfl hfits _

/-- Appending strings one after another, from `NULL`, yields their
concatenation exactly when there are none or the first block happens to start
with a NUL. -/
theorem strcatAll_yields_iff (hgrant : E.GrantsAll) {adds : List CString}
    (hfits : (CString.concat adds).length + 1 < 2 ^ 64) :
    Yields (strcatAll E adds w) (CString.concat adds) ↔
      adds = [] ∨ garbageByte E w.requests 0 = 0#8 := by
  cases adds with
  | nil => exact ⟨fun _ => Or.inl rfl, fun _ => Or.inr ⟨w, rfl, rfl⟩⟩
  | cons add adds =>
      have hconcat : CString.concat (add :: adds) =
          adds.foldl (· ++ ·) add := by
        rw [CString.concat, List.foldl_cons, CString.nil_append]
      rw [hconcat] at hfits ⊢
      have hlength := length_le_foldl add adds
      have hcall : aStrcatRealloc E none (some (.own add.stored)) w =
          if garbageByte E w.requests 0 = 0#8 then
            .ok (some ⟨w.requests, add.stored⟩,
              { w with requests := w.requests + 1 })
          else .error .outOfBounds :=
        aStrcatRealloc_null (holds_stored add) (by omega)
          (hgrant w.requests _)
      unfold strcatAll
      rw [List.foldlM_cons]
      simp only [hcall]
      by_cases hzero : garbageByte E w.requests 0 = 0#8
      · rw [if_pos hzero, ok_bind]
        exact ⟨fun _ => Or.inr hzero,
          fun _ => Or.inl (strcatAll_from hgrant rfl hfits _)⟩
      · rw [if_neg hzero, error_bind]
        constructor
        · intro hyields
          rcases hyields with ⟨block, after, hcall, _⟩ | ⟨after, hcall, _⟩
          · cases hcall
          · cases hcall
        · intro hcond
          exact absurd (hcond.resolve_left (List.cons_ne_nil _ _)) hzero

/-- `a_strcat_realloc` concatenates exactly when there is a string to append to
or the new block happens to start with a NUL, and the string that is appended
does not lie in the block it is appended to; folding it over a list from `NULL`
does when there are no strings or the first block starts with a NUL. -/
theorem aStrcatRealloc_concatenates_iff (E : Env) (w : World) :
    (∀ orig s input add, PointsTo orig s → Holds (Data.bytes input) add →
      s.length + add.length + 1 < 2 ^ 64 →
      E.grants w.requests (s.length + add.length + 1) = true →
      (Returns (aStrcatRealloc E orig (some input) w) (s ++ add) ↔
        (orig = none → garbageByte E w.requests 0 = 0#8) ∧
          ¬ input.Within orig)) ∧
    (∀ adds, E.GrantsAll → (CString.concat adds).length + 1 < 2 ^ 64 →
      (Yields (strcatAll E adds w) (CString.concat adds) ↔
        adds = [] ∨ garbageByte E w.requests 0 = 0#8)) :=
  ⟨fun _ _ _ _ horig hinput hfits hgrant =>
      aStrcatRealloc_returns_iff horig hinput hfits hgrant,
    fun _ hgrant hfits => strcatAll_yields_iff hgrant hfits⟩

/-- The string `"a"`. -/
def letter : CString := ⟨[97#8], by decide⟩

/-- The tail of one block is appended to another one, and in memory that held
zeros `NULL` may stand for the empty string. -/
theorem aStrcatRealloc_concatenates_zeros :
    Returns (aStrcatRealloc (filledEnv 0) (some ⟨0, letter.stored⟩)
      (some (.inside ⟨1, 98#8 :: letter.stored⟩ 1))
      ⟨2, 0, .null, [], false⟩) (letter ++ letter) ∧
    Yields (strcatAll (filledEnv 0) [letter, letter] ⟨0, 0, .null, [], false⟩)
      (CString.concat [letter, letter]) :=
  ⟨((aStrcatRealloc_concatenates_iff (filledEnv 0) ⟨2, 0, .null, [], false⟩).1
      (some ⟨0, letter.stored⟩) letter (.inside ⟨1, 98#8 :: letter.stored⟩ 1)
      letter (holds_stored letter) (holds_stored letter) (by decide) rfl).mpr
      ⟨nofun, nofun⟩,
    ((aStrcatRealloc_concatenates_iff (filledEnv 0) ⟨0, 0, .null, [], false⟩).2
      [letter, letter] (fun _ _ => rfl) (by decide)).mpr
      (Or.inr (by decide))⟩

/-- In memory that held ones the first string is appended past the end of its
block. -/
theorem aStrcatRealloc_overflows :
    ¬ Returns (aStrcatRealloc (filledEnv 1) none (some (.own letter.stored))
      ⟨0, 0, .null, [], false⟩) (.nil ++ letter) := by
  intro hreturns
  rcases hreturns with ⟨block, after, hcall, _⟩
  have hletter : Holds (Data.own letter.stored).bytes letter :=
    holds_stored letter
  rw [aStrcatRealloc_null hletter (by decide) rfl, if_neg (by decide)] at hcall
  cases hcall

end Strcat

section Strdup

variable {E : Env} {w : World} {input : List Byte} {s : CString}

theorem unsignedInt_sizeAdd (a b : ℕ) :
    unsignedInt (sizeAdd a b) = unsignedInt (a + b) :=
  Nat.mod_mod_of_dvd _ (by decide)

theorem unsignedInt_succ (size : ℕ) :
    unsignedInt (unsignedInt size + 1) = unsignedInt (size + 1) := by
  unfold unsignedInt
  omega

theorem unsignedInt_of_lt {size : ℕ} (h : size < 2 ^ 32) :
    unsignedInt size = size :=
  Nat.mod_eq_of_lt h

/-- A length whose narrowing is zero: nothing is allocated. -/
theorem aStrdup_wraps (hinput : Holds input s)
    (hwraps : unsignedInt (s.length + 1) = 0) :
    aStrdup E input w = .ok (none, w) := by
  simp [aStrdup, hinput.strlen, unsignedInt_sizeAdd, hwraps, Bytes.aMalloc,
    Alib.aMalloc]

theorem aStrdup_granted (hinput : Holds input s)
    (hpos : unsignedInt (s.length + 1) ≠ 0)
    (hgrant : E.grants w.requests (unsignedInt (s.length + 1)) = true) :
    aStrdup E input w =
      .ok (some ⟨w.requests, input.take (unsignedInt (s.length + 1))⟩,
        { w with requests := w.requests + 1 }) := by
  have hle : unsignedInt (s.length + 1) ≤ input.length :=
    (Nat.mod_le _ _).trans hinput.length_le
  have hcopy : memcpy
      (freshBytes E w.requests (unsignedInt (s.length + 1))) input
        (unsignedInt (s.length + 1)) =
      .ok (input.take (unsignedInt (s.length + 1))) :=
    memcpy_exact hle freshBytes_length
  simp [aStrdup, hinput.strlen, unsignedInt_sizeAdd,
    aMalloc_of_grants hpos hgrant, hcopy]

/-- `a_strdup` copies a string exactly when its length with the NUL is an
`unsigned int`. -/
theorem aStrdup_returns_iff (hinput : Holds input s)
    (hgrant : E.grants w.requests (unsignedInt (s.length + 1)) = true) :
    Returns (aStrdup E input w) s ↔ s.length + 1 < 2 ^ 32 := by
  by_cases hpos : unsignedInt (s.length + 1) = 0
  · rw [Returns, aStrdup_wraps hinput hpos]
    constructor
    · intro hreturns
      rcases hreturns with ⟨block, after, hcall, _⟩
      cases hcall
    · intro hlt
      rw [unsignedInt_of_lt hlt] at hpos
      exact absurd hpos (Nat.succ_ne_zero _)
  · have hcall := aStrdup_granted hinput hpos hgrant
    constructor
    · intro hreturns
      rcases hreturns with ⟨block, after, hblock, hbytes⟩
      rw [hcall] at hblock
      cases hblock
      have hlength := congrArg List.length hbytes
      rw [List.length_take, CString.length_stored] at hlength
      have hnarrow : unsignedInt (s.length + 1) < 2 ^ 32 :=
        Nat.mod_lt _ (by decide)
      omega
    · intro hlt
      rw [unsignedInt_of_lt hlt, hinput.take_eq] at hcall
      exact ⟨_, _, hcall, rfl⟩

theorem aStrdup_returns_letter :
    Returns (aStrdup (filledEnv 1) letter.stored ⟨0, 0, .null, [], false⟩) letter :=
  (aStrdup_returns_iff (holds_stored letter) rfl).mpr (by decide)

/-- A string of this many letters. -/
def letters (count : ℕ) : CString :=
  ⟨List.replicate count 97#8, fun hmem =>
    absurd (List.eq_of_mem_replicate hmem) (by decide)⟩

theorem letters_length (count : ℕ) : (letters count).length = count :=
  List.length_replicate

/-- A string of `2 ^ 32 - 1` letters is not copied at all. -/
theorem aStrdup_fails :
    ¬ Returns (aStrdup (filledEnv 1) (letters (2 ^ 32 - 1)).stored
      ⟨0, 0, .null, [], false⟩) (letters (2 ^ 32 - 1)) := by
  have hwraps : unsignedInt ((letters (2 ^ 32 - 1)).length + 1) = 0 := by
    rw [letters_length]
    rfl
  rw [Returns, aStrdup_wraps (holds_stored _) hwraps]
  intro hreturns
  rcases hreturns with ⟨block, after, hcall, _⟩
  cases hcall

end Strdup

end Alib
