import Alib.MallocNull
import Alib.ByteBlock

/-!
# The allocators that end the process

`a_xmalloc` and `a_xrealloc` of `mem.c` on blocks of bytes: a refused request
ends in `a_die` instead of returning.
-/

namespace Alib

/-- The rest of a function after a call that may end the process. -/
def Outcome.andThen {α β : Type} (outcome : Outcome α)
    (next : α → Except Fault (Outcome β)) : Except Fault (Outcome β) :=
  match outcome with
  | .exited status => .ok (.exited status)
  | .returned ret => next ret

@[simp] theorem Outcome.andThen_exited {α β : Type} (status : ℕ)
    (next : α → Except Fault (Outcome β)) :
    (Outcome.exited status).andThen next = .ok (.exited status) := rfl

@[simp] theorem Outcome.andThen_returned {α β : Type} (ret : α)
    (next : α → Except Fault (Outcome β)) :
    (Outcome.returned ret).andThen next = next ret := rfl

namespace Bytes

def aXmalloc (E : Env) (size : ℕ) (w : World) :
    Outcome (ByteBlock × World) :=
  match malloc E size w with
  | (some out, after) =>
      .returned (⟨out, freshBytes E w.requests size⟩, after)
  | (none, _) => .exited 1

def aXrealloc (E : Env) (ptr : Option ByteBlock) (size : ℕ) (w : World) :
    Outcome (Option ByteBlock × World) :=
  if size = 0 then .returned (none, aFree ptr w)
  else
    match ptr with
    | none =>
        match aXmalloc E size w with
        | .returned (out, after) => .returned (some out, after)
        | .exited status => .exited status
    | some block =>
        match realloc E (some block) size w with
        | (some out, after) => .returned (some out, after)
        | (none, _) => .exited 1

section Calls

variable {E : Env} {size : ℕ} {w : World}

theorem aXmalloc_of_grants (hgrant : E.grants w.requests size = true) :
    aXmalloc E size w =
      .returned (⟨w.requests, freshBytes E w.requests size⟩,
        { w with requests := w.requests + 1 }) := by
  simp [aXmalloc, malloc_of_grants hgrant]

theorem aXmalloc_cases (E : Env) (size : ℕ) (w : World) :
    (E.grants w.requests size = false ∧ aXmalloc E size w = .exited 1) ∨
      ∃ out after, aXmalloc E size w = .returned (out, after) ∧
        out.bytes.length = size := by
  cases hgrant : E.grants w.requests size with
  | false => exact Or.inl ⟨rfl, by simp [aXmalloc, malloc, hgrant]⟩
  | true => exact Or.inr ⟨_, _, aXmalloc_of_grants hgrant, freshBytes_length⟩

theorem aXrealloc_of_grants (block : ByteBlock) (hsize : size ≠ 0)
    (hgrant : E.grants w.requests size = true) :
    aXrealloc E (some block) size w =
      .returned (some ⟨w.requests,
        reallocBytes (some block) (freshBytes E w.requests size)⟩,
        { w with requests := w.requests + 1 }) := by
  simp [aXrealloc, hsize, realloc_of_grants hgrant]

/-- A string that fits the new size is still in the block. -/
theorem aXrealloc_cases (E : Env) {block : ByteBlock} {s : CString}
    (hblock : Holds block.bytes s) (hsize : s.length + 1 ≤ size)
    (w : World) :
    (E.grants w.requests size = false ∧
        aXrealloc E (some block) size w = .exited 1) ∨
      ∃ out after, aXrealloc E (some block) size w =
          .returned (some out, after) ∧ Holds out.bytes s := by
  have hne : size ≠ 0 := by omega
  cases hgrant : E.grants w.requests size with
  | false =>
      exact Or.inl ⟨rfl, by simp [aXrealloc, realloc, malloc, hne, hgrant]⟩
  | true =>
      refine Or.inr ⟨_, _, aXrealloc_of_grants block hne hgrant, ?_⟩
      exact holds_reallocBytes hblock (by rw [freshBytes_length]; exact hsize)

end Calls

end Bytes
end Alib
