import Mathlib.Data.List.DropRight
import Alib.ByteBlock

/-!
# The name at the end of a path

`a_basename` and `a_barename` of `util.c`.  The path is searched for its last
slash, then for its last backslash, then for its first colon, and the first
search that finds something decides what is dropped.
-/

namespace Alib

open Bytes

/-- The separators `a_basename` knows. -/
def Separator (b : Byte) : Prop := b = slash ∨ b = backslash ∨ b = colon

instance (b : Byte) : Decidable (Separator b) :=
  inferInstanceAs (Decidable (_ ∨ _))

def aBasename (path : CString) : CString :=
  match strrchr path slash <|> strrchr path backslash <|> strchr path colon with
  | none => path
  | some tmp => path.drop (tmp + 1)

def aBarename (E : Env) (path : CString) (w : World) :
    Except Fault (Option ByteBlock × World) := do
  let constTmp := aBasename path
  let (out, w) ← Bytes.aMalloc E (sizeAdd constTmp.length 1) w
  match out with
  | none => return (none, w)
  | some out => do
      let bytes ← strcpy out.bytes constTmp
      match ← strrchrAt bytes dot with
      | none => return (some { out with bytes := bytes }, w)
      | some tmp => do
          let bytes ← writeAt bytes tmp [0#8]
          let len ← strlen bytes
          Bytes.aReallocFree E (some { out with bytes := bytes })
            (sizeAdd len 1) w

/-- The bytes behind the last one that fails the test, or all of them. -/
def afterLast (test : Byte → Bool) (bytes : List Byte) : List Byte :=
  bytes.rtakeWhile test

/-- What is left has no separator that is searched for later: behind the last
slash there is neither a backslash nor a colon, without a slash there is no
colon behind the last backslash, and without both there is at most one
colon. -/
def OneKindLeft (path : List Byte) : Prop :=
  if slash ∈ path then
    backslash ∉ afterLast (· ≠ slash) path ∧ colon ∉ afterLast (· ≠ slash) path
  else if backslash ∈ path then colon ∉ afterLast (· ≠ backslash) path
  else path.count colon ≤ 1

/-- The base name is what follows the last separator. -/
structure DropsSeparators (path : CString) : Prop where
  suffix : (aBasename path).bytes =
    afterLast (fun b => ¬ Separator b) path.bytes
  separators : ∀ b ∈ (aBasename path).bytes, ¬ Separator b
  idempotent : aBasename (aBasename path) = aBasename path
  barename : ∀ E w out after, aBarename E path w = .ok (some out, after) →
    ∃ name : CString, Holds out.bytes name ∧ ∀ b ∈ name.bytes, ¬ Separator b

section AfterLast

variable {test : Byte → Bool} {c : Byte} {before after : List Byte}

theorem afterLast_append_cons (hc : ¬ test c)
    (hafter : ∀ b ∈ after, test b) :
    afterLast test (before ++ c :: after) = after := by
  unfold afterLast List.rtakeWhile
  have hreverse : (before ++ c :: after).reverse =
      after.reverse ++ c :: before.reverse := by simp
  rw [hreverse, List.takeWhile_append_of_pos
    (fun b hb => hafter b (List.mem_reverse.mp hb)),
    List.takeWhile_cons_of_neg hc, List.append_nil, List.reverse_reverse]

theorem afterLast_self {bytes : List Byte} (h : ∀ b ∈ bytes, test b) :
    afterLast test bytes = bytes :=
  List.rtakeWhile_eq_self_iff.mpr h

end AfterLast

section Basename

variable {path : CString}

/-- What `a_basename` does: it drops everything up to the last slash, without
one up to the last backslash, without these up to the first colon. -/
theorem aBasename_cases (path : CString) :
    (∃ before after, path.bytes = before ++ slash :: after ∧ slash ∉ after ∧
      (aBasename path).bytes = after) ∨
    (slash ∉ path.bytes ∧ ∃ before after,
      path.bytes = before ++ backslash :: after ∧ backslash ∉ after ∧
      (aBasename path).bytes = after) ∨
    (slash ∉ path.bytes ∧ backslash ∉ path.bytes ∧ ∃ before after,
      path.bytes = before ++ colon :: after ∧ colon ∉ before ∧
      (aBasename path).bytes = after) ∨
    ((∀ b ∈ path.bytes, ¬ Separator b) ∧ aBasename path = path) := by
  have hdrop : ∀ {before after : List Byte} {c : Byte},
      path.bytes = before ++ c :: after →
      (path.drop (before.length + 1)).bytes = after := by
    intro before after c hpath
    rw [CString.drop_bytes, hpath]
    simp
  rcases lastIdx_cases slash path.bytes with
    ⟨hslash, hnoSlash⟩ | ⟨before, after, hpath, hafter, hslash⟩
  · rcases lastIdx_cases backslash path.bytes with
      ⟨hback, hnoBack⟩ | ⟨before, after, hpath, hafter, hback⟩
    · rcases firstIdx_cases colon path.bytes with
        ⟨hcolon, hnoColon⟩ | ⟨before, after, hpath, hbefore, hcolon⟩
      · refine Or.inr (Or.inr (Or.inr ⟨?_, ?_⟩))
        · intro b hb hseparator
          rcases hseparator with heq | heq | heq
          · exact hnoSlash (heq ▸ hb)
          · exact hnoBack (heq ▸ hb)
          · exact hnoColon (heq ▸ hb)
        · simp [aBasename, strrchr, strchr, hslash, hback, hcolon]
      · refine Or.inr (Or.inr (Or.inl
          ⟨hnoSlash, hnoBack, before, after, hpath, hbefore, ?_⟩))
        simpa [aBasename, strrchr, strchr, hslash, hback, hcolon]
          using hdrop hpath
    · refine Or.inr (Or.inl ⟨hnoSlash, before, after, hpath, hafter, ?_⟩)
      simpa [aBasename, strrchr, hslash, hback] using hdrop hpath
  · refine Or.inl ⟨before, after, hpath, hafter, ?_⟩
    simpa [aBasename, strrchr, hslash] using hdrop hpath

theorem aBasename_self (h : ∀ b ∈ path.bytes, ¬ Separator b) :
    aBasename path = path := by
  have hnot : ∀ {before after : List Byte} {c : Byte}, Separator c →
      path.bytes ≠ before ++ c :: after := by
    intro before after c hc hpath
    exact h c (by rw [hpath]; simp) hc
  rcases aBasename_cases path with
    ⟨_, _, hpath, _⟩ | ⟨_, _, _, hpath, _⟩ | ⟨_, _, _, _, hpath, _⟩ |
      ⟨_, hself⟩
  · exact absurd hpath (hnot (Or.inl rfl))
  · exact absurd hpath (hnot (Or.inr (Or.inl rfl)))
  · exact absurd hpath (hnot (Or.inr (Or.inr rfl)))
  · exact hself

theorem aBasename_suffix (path : CString) :
    (∃ before c, Separator c ∧
      path.bytes = before ++ c :: (aBasename path).bytes) ∨
      aBasename path = path := by
  rcases aBasename_cases path with
    ⟨before, _, hpath, _, hname⟩ | ⟨_, before, _, hpath, _, hname⟩ |
      ⟨_, _, before, _, hpath, _, hname⟩ | ⟨_, hself⟩
  · exact Or.inl ⟨before, slash, Or.inl rfl, by rw [hname]; exact hpath⟩
  · exact Or.inl ⟨before, backslash, Or.inr (Or.inl rfl),
      by rw [hname]; exact hpath⟩
  · exact Or.inl ⟨before, colon, Or.inr (Or.inr rfl),
      by rw [hname]; exact hpath⟩
  · exact Or.inr hself

theorem aBasename_afterLast
    (h : ∀ b ∈ (aBasename path).bytes, ¬ Separator b) :
    (aBasename path).bytes =
      afterLast (fun b => ¬ Separator b) path.bytes := by
  rcases aBasename_suffix path with ⟨before, c, hc, hpath⟩ | hself
  · conv_rhs => rw [hpath]
    exact (afterLast_append_cons (by simpa using hc)
      (fun b hb => by simpa using h b hb)).symm
  · rw [hself] at h ⊢
    exact (afterLast_self fun b hb => by simpa using h b hb).symm

theorem forall_not_separator_iff {bytes : List Byte} :
    (∀ b ∈ bytes, ¬ Separator b) ↔
      slash ∉ bytes ∧ backslash ∉ bytes ∧ colon ∉ bytes := by
  constructor
  · intro h
    exact ⟨fun hmem => h slash hmem (Or.inl rfl),
      fun hmem => h backslash hmem (Or.inr (Or.inl rfl)),
      fun hmem => h colon hmem (Or.inr (Or.inr rfl))⟩
  · intro h b hb hseparator
    rcases h with ⟨hslash, hback, hcolon⟩
    rcases hseparator with heq | heq | heq
    · exact hslash (heq ▸ hb)
    · exact hback (heq ▸ hb)
    · exact hcolon (heq ▸ hb)

theorem afterLast_ne {c : Byte} {before after : List Byte} (h : c ∉ after) :
    afterLast (· ≠ c) (before ++ c :: after) = after :=
  afterLast_append_cons (by simp) fun b hb => by
    simpa using ne_of_mem_of_not_mem hb h

theorem aBasename_separators_iff (path : CString) :
    (∀ b ∈ (aBasename path).bytes, ¬ Separator b) ↔
      OneKindLeft path.bytes := by
  rcases aBasename_cases path with
    ⟨before, after, hpath, hafter, hname⟩ |
      ⟨hslash, before, after, hpath, hafter, hname⟩ |
      ⟨hslash, hback, before, after, hpath, hbefore, hname⟩ |
      ⟨hnone, hself⟩
  · have hmem : slash ∈ path.bytes := by simp [hpath]
    rw [hname, forall_not_separator_iff, OneKindLeft, if_pos hmem, hpath,
      afterLast_ne hafter]
    exact ⟨fun h => h.2, fun h => ⟨hafter, h⟩⟩
  · have hmem : backslash ∈ path.bytes := by simp [hpath]
    have hslashAfter : slash ∉ after := fun h => hslash (by simp [hpath, h])
    rw [hname, forall_not_separator_iff, OneKindLeft, if_neg hslash,
      if_pos hmem, hpath, afterLast_ne hafter]
    exact ⟨fun h => h.2.2, fun h => ⟨hslashAfter, hafter, h⟩⟩
  · have hslashAfter : slash ∉ after := fun h => hslash (by simp [hpath, h])
    have hbackAfter : backslash ∉ after := fun h => hback (by simp [hpath, h])
    have hcount : path.bytes.count colon = after.count colon + 1 := by
      rw [hpath, List.count_append, List.count_eq_zero.mpr hbefore,
        List.count_cons_self, Nat.zero_add]
    rw [hname, forall_not_separator_iff, OneKindLeft, if_neg hslash,
      if_neg hback, hcount]
    constructor
    · intro h
      rw [List.count_eq_zero.mpr h.2.2]
    · intro h
      exact ⟨hslashAfter, hbackAfter, List.count_eq_zero.mp (by omega)⟩
  · rw [hself]
    obtain ⟨hslash, hback, hcolon⟩ := forall_not_separator_iff.mp hnone
    refine ⟨fun _ => ?_, fun _ => hnone⟩
    rw [OneKindLeft, if_neg hslash, if_neg hback,
      List.count_eq_zero.mpr hcolon]
    exact Nat.zero_le _

end Basename

section Barename

variable {E : Env} {path : CString} {w after : World} {out : ByteBlock}

/-- The name `a_barename` returns is a beginning of the base name. -/
theorem aBarename_holds (h : aBarename E path w = .ok (some out, after)) :
    ∃ count, Holds out.bytes ((aBasename path).take count) := by
  obtain ⟨⟨block, w'⟩, hmalloc, h⟩ := bind_eq_ok_iff.mp h
  cases block with
  | none => cases h
  | some block =>
      obtain ⟨bytes, hcopy, h⟩ := bind_eq_ok_iff.mp h
      obtain ⟨hroom, hbytes⟩ := writeAt_ok_iff.mp hcopy
      have hheld : Holds bytes (aBasename path) :=
        ⟨_, by rw [← hbytes]; rfl⟩
      have hsmall : (aBasename path).length + 1 < 2 ^ 64 := by
        have hlt : sizeAdd (aBasename path).length 1 < 2 ^ 64 :=
          Nat.mod_lt _ (by decide)
        rw [(aMalloc_some hmalloc).2, freshBytes_length,
          CString.length_stored] at hroom
        omega
      rw [hheld.strrchrAt, ok_bind] at h
      cases hdot : strrchr (aBasename path) dot with
      | none =>
          simp only [hdot] at h
          cases h
          refine ⟨(aBasename path).length, ?_⟩
          rw [CString.take_of_le le_rfl]
          exact hheld
      | some tmp =>
          simp only [hdot] at h
          obtain ⟨cut, hcut, h⟩ := bind_eq_ok_iff.mp h
          obtain ⟨len, hlen, h⟩ := bind_eq_ok_iff.mp h
          have hle : tmp < (aBasename path).length := lastIdx_lt hdot
          have hheldCut : Holds cut ((aBasename path).take tmp) :=
            hheld.cut hle.le hcut
          rw [hheldCut.strlen] at hlen
          cases hlen
          rw [aReallocFree_some h]
          refine ⟨tmp, holds_reallocBytes hheldCut ?_⟩
          have hcutLength : ((aBasename path).take tmp).length = tmp := by
            rw [CString.length, CString.take_bytes, List.length_take]
            exact Nat.min_eq_left hle.le
          rw [freshBytes_length, hcutLength, sizeAdd_of_lt (by omega)]

/-- `a_basename` drops everything up to the last separator exactly when no
separator that it searches for later is left. -/
theorem dropsSeparators_iff (path : CString) :
    DropsSeparators path ↔ OneKindLeft path.bytes := by
  constructor
  · intro h
    exact (aBasename_separators_iff path).mp h.separators
  · intro h
    have hnone := (aBasename_separators_iff path).mpr h
    refine ⟨aBasename_afterLast hnone, hnone, aBasename_self hnone, ?_⟩
    intro E w out after hbarename
    obtain ⟨count, hholds⟩ := aBarename_holds hbarename
    exact ⟨_, hholds, fun b hb => hnone b (List.mem_of_mem_take hb)⟩

/-- The path `a/b\c`. -/
def mixedPath : CString :=
  ⟨[0x61#8, slash, 0x62#8, backslash, 0x63#8], by decide⟩

/-- The base name of `a/b\c` is `b\c`, whose base name is `c`. -/
theorem mixedPath_fails : ¬ DropsSeparators mixedPath := by
  intro h
  have hback := h.separators backslash (by decide)
  exact hback (by decide)

end Barename

end Alib
