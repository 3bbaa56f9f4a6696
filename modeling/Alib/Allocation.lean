import Alib.ErrorStack

/-!
# The allocators that return

`a_malloc`, `a_mallocNULL`, `a_realloc` and `a_realloc_free` of `mem.c`.  A
refused request is reported under the `perror` module before `NULL` is
returned; a request of size zero is not made at all.
-/

namespace Alib

def aMalloc (E : Env) (size : ℕ) (w : World) :
    Except Fault (Option Addr × World) :=
  if size = 0 then .ok (none, w)
  else
    match malloc E size w with
    | (some out, w) => .ok (some out, w)
    | (none, w) => do
        let w ← aError E .perror w
        return (none, w)

/-- A block of pointer slots. -/
structure PointerArray where
  addr : Addr
  slots : List (Option Addr)

/-- `for(c=0;c<size/sizeof(void*);c++) ptr_array[c] = NULL;` -/
def nullSlots (slots : List (Option Addr)) (count : ℕ) :
    List (Option Addr) :=
  (List.range count).foldl (fun slots c => slots.set c none) slots

def aMallocNULL (E : Env) (size : ℕ) (w : World) :
    Except Fault (Option PointerArray × World) :=
  if size % sizeofPointer ≠ 0 then do
    let w ← aErrorCode E .alib aErrorInvalidOp w
    return (none, w)
  else do
    let (ret, w') ← aMalloc E size w
    match ret with
    | none => return (none, w')
    | some addr =>
        let count := size / sizeofPointer
        let found := (List.range count).map fun c =>
          some (E.garbage w.requests c).toNat
        return (some ⟨addr, nullSlots found count⟩, w')

/-- A block of 64-bit words. -/
structure Block where
  addr : Addr
  bytes : ℕ
  word : ℕ → Ptr

def Block.Has (block : Block) (i : ℕ) : Prop :=
  sizeofPointer * (i + 1) ≤ block.bytes

instance (block : Block) (i : ℕ) : Decidable (block.Has i) :=
  inferInstanceAs (Decidable (_ ≤ _))

def Block.read (block : Block) (i : ℕ) : Except Fault Ptr :=
  if block.Has i then .ok (block.word i) else .error .outOfBounds

def Block.write (block : Block) (i : ℕ) (v : Ptr) : Except Fault Block :=
  if block.Has i then
    .ok { block with word := Function.update block.word i v }
  else .error .outOfBounds

def aFree (input : Option Block) (w : World) : World :=
  match input with
  | none => w
  | some block => { w with released := w.released ++ [block.addr] }

/-- The words of a reallocated block: the common prefix is kept, the rest is
whatever the allocator left there. -/
def reallocWord (input : Option Block) (fresh : ℕ → Ptr) (i : ℕ) : Ptr :=
  match input with
  | none => fresh i
  | some block => if block.Has i then block.word i else fresh i

def aRealloc (E : Env) (input : Option Block) (size : ℕ) (w : World) :
    Except Fault (Option Block × World) :=
  if size = 0 then .ok (none, aFree input w)
  else
    match malloc E size w with
    | (some out, w') =>
        .ok (some ⟨out, size, reallocWord input (E.garbage w.requests)⟩, w')
    | (none, w') => do
        let w' ← aError E .perror w'
        return (none, w')

def aReallocFree (E : Env) (input : Option Block) (size : ℕ) (w : World) :
    Except Fault (Option Block × World) := do
  let (out, w) ← aRealloc E input size w
  match out with
  | none => return (none, aFree input w)
  | some block => return (some block, w)

/-- What a refused request leaves behind: some requests were made and the top
of the error stack is not an entry of the library's own module. -/
structure Refused (before after : World) : Prop where
  requests_le : before.requests ≤ after.requests
  topMod : after.globalErrorStack.topMod = some .perror ∨
    after.globalErrorStack.topMod = some .stackAlloc

theorem malloc_of_grants {E : Env} {size : ℕ} {w : World}
    (h : E.grants w.requests size = true) :
    malloc E size w =
      (some w.requests, { w with requests := w.requests + 1 }) := by
  simp [malloc, h]

theorem aError_perror_refused (E : Env) (size : ℕ) (w : World) :
    ∃ after, aError E .perror (malloc E size w).2 = .ok after ∧
      Refused w after := by
  obtain ⟨after, hafter, hrequests, htop⟩ :=
    aErrorStackMacroHelper_ok E .perror true (.value 0) (malloc E size w).2
      (by simp [getcode])
  refine ⟨after, hafter, ?_, htop⟩
  rw [hrequests, malloc_requests]
  omega

theorem aMalloc_cases (E : Env) {size : ℕ} (hsize : size ≠ 0) (w : World) :
    (E.grants w.requests size = true ∧
      aMalloc E size w =
        .ok (some w.requests, { w with requests := w.requests + 1 })) ∨
    (E.grants w.requests size = false ∧
      ∃ after, aMalloc E size w = .ok (none, after) ∧ Refused w after) := by
  cases hgrant : E.grants w.requests size with
  | true =>
      left
      exact ⟨rfl, by simp [aMalloc, hsize, malloc, hgrant]⟩
  | false =>
      right
      obtain ⟨after, hafter, hrefused⟩ := aError_perror_refused E size w
      refine ⟨rfl, after, ?_, hrefused⟩
      have hmalloc : malloc E size w = (none, (malloc E size w).2) := by
        simp [malloc, hgrant]
      unfold aMalloc
      rw [if_neg hsize, hmalloc]
      simp [hafter]

theorem foldl_set_none_getElem? (slots : List (Option Addr)) (count i : ℕ) :
    (nullSlots slots count)[i]? =
      if i < count then slots[i]?.map (fun _ => none) else slots[i]? := by
  unfold nullSlots
  induction count with
  | zero => simp
  | succ count ih =>
      rw [List.range_succ, List.foldl_append]
      simp only [List.foldl_cons, List.foldl_nil]
      have hlength : ∀ (counts : List ℕ) (slots : List (Option Addr)),
          (counts.foldl (fun slots c => slots.set c none) slots).length =
            slots.length := by
        intro counts
        induction counts with
        | nil => simp
        | cons c rest ihRest => intro slots; simp [ihRest]
      rw [List.getElem?_set, ih, hlength]
      by_cases hi : count = i
      · subst hi
        by_cases hin : count < slots.length
        · simp [hin]
        · simp [hin]
      · by_cases hlt : i < count
        · simp [hi, hlt, Nat.lt_succ_of_lt hlt]
        · have hnot : ¬ i < count + 1 := by omega
          simp [hi, hlt, hnot]

theorem nullSlots_eq_replicate (slots : List (Option Addr)) :
    nullSlots slots slots.length = List.replicate slots.length none := by
  apply List.ext_getElem?
  intro i
  rw [foldl_set_none_getElem?, List.getElem?_replicate]
  by_cases hi : i < slots.length
  · simp [hi]
  · simp [hi]

/-- `a_mallocNULL` of a positive multiple of the pointer size either yields a
new table of null slots or leaves a report of the refused request. -/
theorem aMallocNULL_cases (E : Env) {count : ℕ} (hcount : 0 < count)
    (w : World) :
    (E.grants w.requests (sizeofPointer * count) = true ∧
      aMallocNULL E (sizeofPointer * count) w =
        .ok (some ⟨w.requests, List.replicate count none⟩,
          { w with requests := w.requests + 1 })) ∨
    (E.grants w.requests (sizeofPointer * count) = false ∧
      ∃ after, aMallocNULL E (sizeofPointer * count) w = .ok (none, after) ∧
        Refused w after) := by
  have hsize : sizeofPointer * count ≠ 0 := by
    simp [sizeofPointer]
    omega
  have hmod : sizeofPointer * count % sizeofPointer = 0 := by simp
  have hdiv : sizeofPointer * count / sizeofPointer = count :=
    Nat.mul_div_cancel_left count (by simp [sizeofPointer])
  rcases aMalloc_cases E hsize w with
    ⟨hgrant, hmalloc⟩ | ⟨hgrant, after, hmalloc, hrefused⟩
  · left
    refine ⟨hgrant, ?_⟩
    have hnull := nullSlots_eq_replicate
      ((List.range count).map fun c => some (E.garbage w.requests c).toNat)
    simp only [List.length_map, List.length_range] at hnull
    simp [aMallocNULL, hmod, hmalloc, hdiv, hnull]
  · right
    exact ⟨hgrant, after, by simp [aMallocNULL, hmod, hmalloc], hrefused⟩

theorem aReallocFree_of_grants {E : Env} {size : ℕ} {w : World}
    (input : Option Block) (hsize : size ≠ 0)
    (hgrant : E.grants w.requests size = true) :
    aReallocFree E input size w =
      .ok (some ⟨w.requests, size,
          reallocWord input (E.garbage w.requests)⟩,
        { w with requests := w.requests + 1 }) := by
  simp [aReallocFree, aRealloc, hsize, malloc_of_grants hgrant]

theorem aReallocFree_bytes {E : Env} {input : Option Block} {size : ℕ}
    {w after : World} {block : Block}
    (h : aReallocFree E input size w = .ok (some block, after)) :
    block.bytes = size := by
  obtain ⟨⟨out, w'⟩, hrealloc, hreturn⟩ := bind_eq_ok_iff.mp h
  cases out with
  | none => cases hreturn
  | some out =>
      cases hreturn
      unfold aRealloc at hrealloc
      by_cases hsize : size = 0
      · rw [if_pos hsize] at hrealloc
        cases hrealloc
      · rw [if_neg hsize] at hrealloc
        cases hmalloc : malloc E size w with
        | mk addr made =>
            rw [hmalloc] at hrealloc
            cases addr with
            | some addr =>
                cases hrealloc
                rfl
            | none =>
                obtain ⟨_, _, hnone⟩ := bind_eq_ok_iff.mp hrealloc
                cases hnone

theorem aReallocFree_of_refused {E : Env} {size : ℕ} {w : World}
    (input : Option Block) (hsize : size ≠ 0)
    (hrefused : E.grants w.requests size = false) :
    ∃ after, aReallocFree E input size w = .ok (none, after) := by
  obtain ⟨after, hafter, _⟩ := aError_perror_refused E size w
  have hmalloc : malloc E size w = (none, (malloc E size w).2) := by
    simp [malloc, hrefused]
  refine ⟨aFree input after, ?_⟩
  unfold aReallocFree aRealloc
  rw [if_neg hsize, hmalloc]
  simp [hafter]

end Alib
