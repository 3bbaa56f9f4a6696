import Alib.BlockAccount
import Alib.CString

/-!
# Blocks of bytes

The allocators of `mem.c` on blocks whose contents are bytes, for the functions
that store strings.  They make the same requests and the same releases as on
blocks of words.  `a_realloc` releases its block itself when the size is zero;
`a_realloc_free` releases it whenever `a_realloc` returned `NULL`.  A pointer
into a block cannot be read once the block was given to `realloc`.
-/

namespace Alib

structure ByteBlock where
  addr : Addr
  bytes : List Byte

namespace Bytes

/-- The byte of a word at this offset, the low one first. -/
def byteOf (word : Ptr) (j : ℕ) : Byte := word.extractLsb' (8 * j) 8

/-- What the allocator left in the byte of a granted block. -/
def garbageByte (E : Env) (request i : ℕ) : Byte :=
  byteOf (E.garbage request (i / sizeofPointer)) (i % sizeofPointer)

def freshBytes (E : Env) (request size : ℕ) : List Byte :=
  (List.range size).map (garbageByte E request)

def aMalloc (E : Env) (size : ℕ) (w : World) :
    Except Fault (Option ByteBlock × World) := do
  let (out, after) ← Alib.aMalloc E size w
  return (out.map fun addr => ⟨addr, freshBytes E w.requests size⟩, after)

def aFree (input : Option ByteBlock) (w : World) : World :=
  match input with
  | none => w
  | some block => w.release block.addr

/-- The bytes of a reallocated block: the common prefix is kept. -/
def reallocBytes (input : Option ByteBlock) (fresh : List Byte) : List Byte :=
  match input with
  | none => fresh
  | some block =>
      block.bytes.take fresh.length ++ fresh.drop block.bytes.length

/-- `realloc`, which leaves the block as it is when the request is refused. -/
def realloc (E : Env) (input : Option ByteBlock) (size : ℕ) (w : World) :
    Option ByteBlock × World :=
  match malloc E size w with
  | (some out, after) =>
      (some ⟨out, reallocBytes input (freshBytes E w.requests size)⟩, after)
  | (none, after) => (none, after)

def aRealloc (E : Env) (input : Option ByteBlock) (size : ℕ) (w : World) :
    Except Fault (Option ByteBlock × World) :=
  if size = 0 then .ok (none, aFree input w)
  else
    match realloc E input size w with
    | (some out, w) => .ok (some out, w)
    | (none, w) => do
        let w ← aError E .perror w
        return (none, w)

def aReallocFree (E : Env) (input : Option ByteBlock) (size : ℕ) (w : World) :
    Except Fault (Option ByteBlock × World) := do
  let (out, w) ← aRealloc E input size w
  match out with
  | none => return (none, aFree input w)
  | some block => return (some block, w)

/-- What a pointer that is only read leads to: bytes of the caller's own, or a
place in a block. -/
inductive Data
  | own (bytes : List Byte)
  | inside (block : ByteBlock) (offset : ℕ)

def Data.bytes : Data → List Byte
  | .own bytes => bytes
  | .inside block offset => block.bytes.drop offset

/-- The pointer leads into the block that is given to `realloc`. -/
def Data.Within : Data → Option ByteBlock → Prop
  | .inside block _, some handed => block.addr = handed.addr
  | _, _ => False

instance (data : Data) (handed : Option ByteBlock) :
    Decidable (data.Within handed) :=
  match data, handed with
  | .own _, _ => inferInstanceAs (Decidable False)
  | .inside _ _, none => inferInstanceAs (Decidable False)
  | .inside block _, some handed =>
      inferInstanceAs (Decidable (block.addr = handed.addr))

/-- What is read through a pointer once a block went to `realloc`. -/
def readAfter (handed : Option ByteBlock) (data : Data) :
    Except Fault (List Byte) :=
  if data.Within handed then .error .danglingPointer else .ok data.bytes

section Contents

variable {E : Env} {request size i : ℕ}

@[simp] theorem freshBytes_length :
    (freshBytes E request size).length = size := by
  simp [freshBytes]

theorem freshBytes_getElem? (hi : i < size) :
    (freshBytes E request size)[i]? = some (garbageByte E request i) := by
  simp [freshBytes, hi]

theorem freshBytes_succ (E : Env) (request size : ℕ) :
    ∃ rest, freshBytes E request (size + 1) =
      garbageByte E request 0 :: rest := by
  refine ⟨((List.range size).map (· + 1)).map (garbageByte E request), ?_⟩
  rw [freshBytes, List.range_succ_eq_map, List.map_cons]

theorem reallocBytes_length (input : Option ByteBlock) (fresh : List Byte) :
    (reallocBytes input fresh).length = fresh.length := by
  cases input with
  | none => rfl
  | some block =>
      simp only [reallocBytes, List.length_append, List.length_take,
        List.length_drop]
      omega

theorem reallocBytes_getElem? (block : ByteBlock) {fresh : List Byte}
    (hi : i < fresh.length) :
    (reallocBytes (some block) fresh)[i]? =
      if i < block.bytes.length then block.bytes[i]? else fresh[i]? := by
  simp only [reallocBytes]
  by_cases hold : i < block.bytes.length
  · rw [if_pos hold, List.getElem?_append_left
      (by rw [List.length_take]; omega), List.getElem?_take_of_lt hi]
  · have htake : block.bytes.take fresh.length = block.bytes :=
      List.take_of_length_le (by omega)
    rw [if_neg hold, htake, List.getElem?_append_right (by omega),
      List.getElem?_drop, Nat.add_sub_cancel' (Nat.le_of_not_lt hold)]

/-- A region that only grows keeps the string at its start. -/
theorem holds_reallocBytes {block : ByteBlock} {fresh : List Byte}
    {s : CString} (h : Holds block.bytes s)
    (hroom : s.length + 1 ≤ fresh.length) :
    Holds (reallocBytes (some block) fresh) s := by
  rcases h with ⟨rest, hbytes⟩
  refine ⟨rest.take (fresh.length - (s.length + 1)) ++
    fresh.drop block.bytes.length, ?_⟩
  simp only [Bytes.reallocBytes]
  rw [hbytes, List.take_append, CString.length_stored,
    List.take_of_length_le (by rw [CString.length_stored]; exact hroom),
    List.append_assoc]

end Contents

section Calls

variable {E : Env} {size : ℕ} {w : World} {input : Option ByteBlock}

theorem aMalloc_of_grants (hsize : size ≠ 0)
    (hgrant : E.grants w.requests size = true) :
    aMalloc E size w =
      .ok (some ⟨w.requests, freshBytes E w.requests size⟩,
        { w with requests := w.requests + 1 }) := by
  simp [aMalloc, Alib.aMalloc, hsize, malloc_of_grants hgrant]

theorem realloc_of_grants (hgrant : E.grants w.requests size = true) :
    realloc E input size w =
      (some ⟨w.requests, reallocBytes input (freshBytes E w.requests size)⟩,
        { w with requests := w.requests + 1 }) := by
  simp [realloc, malloc_of_grants hgrant]

theorem aRealloc_of_grants (hsize : size ≠ 0)
    (hgrant : E.grants w.requests size = true) :
    aRealloc E input size w =
      .ok (some ⟨w.requests,
          reallocBytes input (freshBytes E w.requests size)⟩,
        { w with requests := w.requests + 1 }) := by
  simp [aRealloc, hsize, realloc_of_grants hgrant]

theorem aReallocFree_of_grants (hsize : size ≠ 0)
    (hgrant : E.grants w.requests size = true) :
    aReallocFree E input size w =
      .ok (some ⟨w.requests,
          reallocBytes input (freshBytes E w.requests size)⟩,
        { w with requests := w.requests + 1 }) := by
  simp [aReallocFree, aRealloc_of_grants hsize hgrant]

theorem aMalloc_some {block : ByteBlock} {after : World}
    (h : aMalloc E size w = .ok (some block, after)) :
    size ≠ 0 ∧ block.bytes = freshBytes E w.requests size := by
  have hsize : size ≠ 0 := by
    intro hzero
    subst hzero
    simp [aMalloc, Alib.aMalloc] at h
  refine ⟨hsize, ?_⟩
  obtain ⟨⟨out, made⟩, hout, hreturn⟩ := bind_eq_ok_iff.mp h
  cases out with
  | none => cases hreturn
  | some addr =>
      cases hreturn
      rfl

theorem aReallocFree_of_refused (hsize : size ≠ 0)
    (hrefused : E.grants w.requests size = false) :
    ∃ reported, Reports w reported ∧
      aReallocFree E input size w = .ok (none, aFree input reported) := by
  obtain ⟨reported, hreport, _⟩ := aError_perror_refused E size w
  have hmalloc : malloc E size w = (none, (malloc E size w).2) := by
    simp [malloc, hrefused]
  refine ⟨reported, (malloc_reports E size w).trans
    (aErrorStackMacroHelper_reports (by decide) hreport), ?_⟩
  unfold aReallocFree aRealloc realloc
  rw [if_neg hsize, hmalloc]
  simp [hreport]

/-- A request of size zero is not made, and both functions release. -/
theorem aReallocFree_zero :
    aReallocFree E input 0 w = .ok (none, aFree input (aFree input w)) := by
  simp [aReallocFree, aRealloc]

theorem aReallocFree_some {block : ByteBlock} {after : World}
    (h : aReallocFree E input size w = .ok (some block, after)) :
    block.bytes = reallocBytes input (freshBytes E w.requests size) := by
  by_cases hsize : size = 0
  · subst hsize
    rw [aReallocFree_zero] at h
    cases h
  · cases hgrant : E.grants w.requests size with
    | true =>
        rw [aReallocFree_of_grants hsize hgrant] at h
        cases h
        rfl
    | false =>
        obtain ⟨reported, _, hcall⟩ : ∃ reported, Reports w reported ∧
            aReallocFree E input size w =
              .ok (none, aFree input reported) :=
          aReallocFree_of_refused hsize hgrant
        rw [hcall] at h
        cases h

end Calls

section Words

variable {E : Env} {size : ℕ} {w : World}

/-- The same block seen as words and as bytes. -/
structure SameBlock (words : Block) (block : ByteBlock) : Prop where
  addr : words.addr = block.addr
  bytes : words.bytes = block.bytes.length
  byte : ∀ i j, words.Has i → j < sizeofPointer →
    block.bytes[sizeofPointer * i + j]? = some (byteOf (words.word i) j)

/-- `NULL`, or a block of whole words. -/
def SamePointer : Option Block → Option ByteBlock → Prop
  | none, none => True
  | some words, some block =>
      SameBlock words block ∧ sizeofPointer ∣ block.bytes.length
  | _, _ => False

theorem lt_bytes_of_has {words : Block} {i j : ℕ} (hi : words.Has i)
    (hj : j < sizeofPointer) : sizeofPointer * i + j < words.bytes := by
  unfold Block.Has at hi
  rw [Nat.mul_add, Nat.mul_one] at hi
  omega

theorem garbageByte_at (E : Env) (request i : ℕ) {j : ℕ}
    (hj : j < sizeofPointer) :
    garbageByte E request (sizeofPointer * i + j) =
      byteOf (E.garbage request i) j := by
  rw [garbageByte, Nat.mul_add_div (by simp [sizeofPointer]),
    Nat.div_eq_of_lt hj, Nat.add_zero, Nat.mul_add_mod, Nat.mod_eq_of_lt hj]

theorem SameBlock.realloc {words : Block} {block : ByteBlock}
    (h : SameBlock words block) (hwhole : sizeofPointer ∣ block.bytes.length)
    (addr : Addr) (request size : ℕ) :
    SameBlock ⟨addr, size, reallocWord (some words) (E.garbage request)⟩
      ⟨addr, reallocBytes (some block) (freshBytes E request size)⟩ where
  addr := rfl
  bytes := by rw [reallocBytes_length, freshBytes_length]
  byte := by
    intro i j hi hj
    have hroom : sizeofPointer * i + j < size := lt_bytes_of_has hi hj
    have hhas : words.Has i ↔ sizeofPointer * i + j < block.bytes.length := by
      rcases hwhole with ⟨n, hn⟩
      unfold Block.Has
      rw [h.bytes, hn]
      simp only [sizeofPointer] at hj ⊢
      omega
    rw [reallocBytes_getElem? block (by rwa [freshBytes_length]),
      freshBytes_getElem? hroom]
    simp only [reallocWord]
    by_cases hold : words.Has i
    · rw [if_pos (hhas.mp hold), if_pos hold]
      exact h.byte i j hold hj
    · rw [if_neg (fun hlt => hold (hhas.mpr hlt)), if_neg hold,
        garbageByte_at E request i hj]

theorem sameBlock_fresh (E : Env) (addr : Addr) (request size : ℕ) :
    SameBlock ⟨addr, size, reallocWord none (E.garbage request)⟩
      ⟨addr, reallocBytes none (freshBytes E request size)⟩ where
  addr := rfl
  bytes := by rw [reallocBytes_length, freshBytes_length]
  byte := by
    intro i j hi hj
    have hroom : sizeofPointer * i + j < size := lt_bytes_of_has hi hj
    simp only [reallocBytes, reallocWord]
    rw [freshBytes_getElem? hroom, garbageByte_at E request i hj]

theorem SamePointer.aFree {words : Option Block} {block : Option ByteBlock}
    (h : SamePointer words block) (w : World) :
    Alib.aFree words w = Bytes.aFree block w := by
  cases words with
  | none =>
      cases block with
      | none => rfl
      | some block => exact h.elim
  | some words =>
      cases block with
      | none => exact h.elim
      | some block =>
          simp only [Alib.aFree, Bytes.aFree, World.release, h.1.addr]

theorem SamePointer.realloc {words : Option Block} {block : Option ByteBlock}
    (h : SamePointer words block) (hwhole : sizeofPointer ∣ size)
    (addr : Addr) (request : ℕ) :
    SamePointer (some ⟨addr, size, reallocWord words (E.garbage request)⟩)
      (some ⟨addr, reallocBytes block (freshBytes E request size)⟩) := by
  refine ⟨?_, by rwa [reallocBytes_length, freshBytes_length]⟩
  cases words with
  | none =>
      cases block with
      | none => exact sameBlock_fresh E addr request size
      | some block => exact h.elim
  | some words =>
      cases block with
      | none => exact h.elim
      | some block => exact h.1.realloc h.2 addr request size

/-- On blocks of whole words the two models of `a_realloc_free` agree: they
make the same requests and releases and return the same block. -/
theorem aReallocFree_same {words : Option Block} {block : Option ByteBlock}
    (h : SamePointer words block) (hwhole : sizeofPointer ∣ size) :
    ∃ out out' after,
      Alib.aReallocFree E words size w = .ok (out, after) ∧
      aReallocFree E block size w = .ok (out', after) ∧
      SamePointer out out' := by
  by_cases hsize : size = 0
  · subst hsize
    refine ⟨none, none, _, rfl, ?_, trivial⟩
    rw [aReallocFree_zero, ← h.aFree w, ← h.aFree]
  · cases hgrant : E.grants w.requests size with
    | true =>
        exact ⟨_, _, _, Alib.aReallocFree_of_grants words hsize hgrant,
          aReallocFree_of_grants hsize hgrant,
          h.realloc hwhole w.requests w.requests⟩
    | false =>
        obtain ⟨reported, hreport, _⟩ := aError_perror_refused E size w
        have hmalloc : malloc E size w = (none, (malloc E size w).2) := by
          simp [malloc, hgrant]
        refine ⟨none, none, Alib.aFree words reported, ?_, ?_, trivial⟩
        · unfold Alib.aReallocFree Alib.aRealloc
          rw [if_neg hsize, hmalloc]
          simp [hreport]
        · unfold aReallocFree aRealloc realloc
          rw [if_neg hsize, hmalloc]
          simp [hreport, h.aFree]

end Words

section Ownership

variable {E : Env} {input : Option ByteBlock} {size : ℕ} {w : World}

/-- What the caller of `a_realloc_free` may rely on: after `NULL` the block
has been released exactly once; otherwise it went to one `realloc`, was not
released besides, and its contents are the start of the block returned.  Other
blocks keep their account. -/
structure ReallocKeeps (E : Env) (input : Option ByteBlock) (size : ℕ)
    (w : World) (out : Option ByteBlock) (after : World) : Prop where
  released : out = none → ∀ old, input = some old → after.Owns old.addr 1
  returned : ∀ block, out = some block →
    realloc E input size w = (some block, after) ∧
      after.Owns block.addr 0 ∧ block.bytes.length = size
  handed : ∀ block, out = some block → ∀ old, input = some old →
    after.Owns old.addr 0 ∧
      ∀ i < min old.bytes.length size, block.bytes[i]? = old.bytes[i]?
  others : ∀ a times, w.Owns a times →
    (∀ old, input = some old → old.addr ≠ a) → after.Owns a times

theorem aFree_owns {a : Addr} {times : ℕ} (h : w.Owns a times)
    (hother : ∀ old, input = some old → old.addr ≠ a) :
    (aFree input w).Owns a times := by
  cases input with
  | none => exact h
  | some old => exact h.release_of_ne (hother old rfl)

theorem reallocKeeps_of_grants (hbounded : w.Bounded)
    (hlive : ∀ old, input = some old → w.Owns old.addr 0)
    (hgrant : E.grants w.requests size = true) :
    ReallocKeeps E input size w
      (some ⟨w.requests, reallocBytes input (freshBytes E w.requests size)⟩)
      { w with requests := w.requests + 1 } where
  released := fun hnone => absurd hnone (Option.some_ne_none _)
  returned := by
    intro block hblock
    cases hblock
    refine ⟨realloc_of_grants hgrant, hbounded.owns_new, ?_⟩
    rw [reallocBytes_length, freshBytes_length]
  handed := by
    intro block hblock old hold
    cases hblock
    subst hold
    refine ⟨(hlive old rfl).obtain, ?_⟩
    intro i hi
    rw [reallocBytes_getElem? old (by rw [freshBytes_length]; omega),
      if_pos (by omega)]
  others := fun a times howns _ => howns.obtain

theorem reallocKeeps_of_refused {reported : World}
    (hlive : ∀ old, input = some old → w.Owns old.addr 0)
    (hreports : Reports w reported) :
    ReallocKeeps E input size w none (aFree input reported) where
  released := by
    intro _ old hold
    subst hold
    exact (hreports.owns (hlive old rfl)).release_self
  returned := fun block hblock => absurd hblock.symm (Option.some_ne_none _)
  handed := fun block hblock => absurd hblock.symm (Option.some_ne_none _)
  others := fun a times howns hother => aFree_owns (hreports.owns howns) hother

theorem aReallocFree_zero_owns {old : ByteBlock} (hlive : w.Owns old.addr 0)
    {out : Option ByteBlock} {after : World}
    (hcall : aReallocFree E (some old) 0 w = .ok (out, after)) :
    out = none ∧ after.Owns old.addr 2 := by
  rw [aReallocFree_zero] at hcall
  cases hcall
  exact ⟨rfl, hlive.release_self.release_self⟩

theorem not_reallocKeeps_zero {old : ByteBlock} (hlive : w.Owns old.addr 0) :
    ¬ ∃ out after, aReallocFree E (some old) 0 w = .ok (out, after) ∧
      ReallocKeeps E (some old) 0 w out after := by
  intro hkeeps
  rcases hkeeps with ⟨out, after, hcall, hkeeps⟩
  obtain ⟨hout, htwice⟩ := aReallocFree_zero_owns hlive hcall
  have honce := (hkeeps.released hout old rfl).count
  rw [htwice.count] at honce
  omega

/-- `a_realloc_free` keeps exact ownership except when it is given a block and
the size zero: then the block is released twice. -/
theorem aReallocFree_keeps_iff (hbounded : w.Bounded)
    (hlive : ∀ old, input = some old → w.Owns old.addr 0) :
    (∃ out after, aReallocFree E input size w = .ok (out, after) ∧
      ReallocKeeps E input size w out after) ↔
      input = none ∨ size ≠ 0 := by
  by_cases hsize : size = 0
  · subst hsize
    constructor
    · intro hkeeps
      cases input with
      | none => exact Or.inl rfl
      | some old =>
          exact absurd hkeeps (not_reallocKeeps_zero (hlive old rfl))
    · intro hcond
      have hinput : input = none := hcond.resolve_right (not_not.mpr rfl)
      subst hinput
      exact ⟨none, w, aReallocFree_zero,
        reallocKeeps_of_refused hlive (Reports.refl w)⟩
  · refine ⟨fun _ => Or.inr hsize, fun _ => ?_⟩
    cases hgrant : E.grants w.requests size with
    | true =>
        exact ⟨_, _, aReallocFree_of_grants hsize hgrant,
          reallocKeeps_of_grants hbounded hlive hgrant⟩
    | false =>
        obtain ⟨reported, hreports, hcall⟩ : ∃ reported, Reports w reported ∧
            aReallocFree E input size w =
              .ok (none, aFree input reported) :=
          aReallocFree_of_refused hsize hgrant
        exact ⟨none, _, hcall, reallocKeeps_of_refused hlive hreports⟩

/-- The ledger of a process which has obtained one block. -/
def oneBlockWorld : World := ⟨1, 0, .null, [], false⟩

theorem oneBlockWorld_bounded : oneBlockWorld.Bounded :=
  ⟨fun _ ha => absurd ha List.not_mem_nil,
    fun _ ha => absurd ha List.not_mem_nil⟩

theorem oneBlockWorld_owns : oneBlockWorld.Owns 0 0 :=
  ⟨Nat.zero_lt_one, rfl, List.not_mem_nil⟩

theorem aReallocFree_keeps_grown :
    ∃ out after,
      aReallocFree (filledEnv 0) (some ⟨0, [65#8]⟩) 2 oneBlockWorld =
        .ok (out, after) ∧
      ReallocKeeps (filledEnv 0) (some ⟨0, [65#8]⟩) 2 oneBlockWorld out
        after :=
  (aReallocFree_keeps_iff oneBlockWorld_bounded fun old hold => by
    cases hold
    exact oneBlockWorld_owns).mpr (Or.inr (by decide))

/-- A block of one byte and the size zero. -/
theorem aReallocFree_doubleFree :
    ¬ ∃ out after,
      aReallocFree (filledEnv 0) (some ⟨0, [65#8]⟩) 0 oneBlockWorld =
        .ok (out, after) ∧
      ReallocKeeps (filledEnv 0) (some ⟨0, [65#8]⟩) 0 oneBlockWorld out
        after :=
  not_reallocKeeps_zero oneBlockWorld_owns

end Ownership

end Bytes
end Alib
