import Alib.Strings

/-!
# The length of formatted output

`a_vsprintf_find_len` and `a_vsprintf_malloc` of `util.c` over a `vsnprintf`
that follows either of two conventions: the one of C99, which returns the
length of the whole output, and an older one, which returns `-1` unless the
output with its NUL fits.  The output itself, which depends on the format and
the arguments, is a parameter.
-/

namespace Alib

open Bytes

inductive Convention where
  | c99
  | preC99
  deriving DecidableEq

/-- `vsnprintf(out, size, fmt, args)` where `o` is the formatted output. -/
def vsnprintf (conv : Convention) (o : CString) (out : List Byte) (size : ℕ) :
    Except Fault (ℤ × List Byte) :=
  match conv with
  | .c99 =>
      if size = 0 then .ok (o.length, out)
      else do
        let out ← writeAt out 0 (o.take (size - 1)).stored
        return (o.length, out)
  | .preC99 =>
      if o.length < size then do
        let out ← strcpy out o
        return (o.length, out)
      else do
        let out ← writeAt out 0 (o.take size).bytes
        return (-1, out)

/-- What lies on the stack: the contents of a buffer of each size, and the
bytes above it. -/
structure Stack where
  fresh : ℕ → ℕ → Byte
  above : List Byte
  fits : above.length < 2 ^ 64

/-- The memory `alloca(size)` points to. -/
def Stack.alloca (stack : Stack) (size : ℕ) : List Byte :=
  (List.range size).map (stack.fresh size) ++ stack.above

def aVsprintfTryLen (conv : Convention) (o : CString) (stack : Stack)
    (tryLen : ℕ) : Except Fault ℕ := do
  let (ret, tried) ← vsnprintf conv o (stack.alloca tryLen) tryLen
  if ret < 0 then return 0
  else
    let len ← strlen tried
    return sizeAdd len 1

/-- `while(!(msg_len = a_vsprintf_try_len(...))) try_len <<= 1;` -/
def findLenLoop (conv : Convention) (o : CString) (stack : Stack) :
    ℕ → ℕ → Except Fault ℕ
  | 0, _ => .error .divergence
  | fuel + 1, tryLen => do
      let msgLen ← aVsprintfTryLen conv o stack tryLen
      if msgLen = 0 then findLenLoop conv o stack fuel (sizeMul tryLen 2)
      else return msgLen

/-- After 64 turns the length tried is zero, and stays so. -/
def findLenFuel : ℕ := 65

/-- The sum with one is done in `int`. -/
def aVsprintfFindLen (conv : Convention) (fmt o : CString) (stack : Stack) :
    Except Fault ℕ := do
  let (ret, _) ← vsnprintf conv o [] 0
  let msgLen := (ret + 1).toNat
  if 1 < msgLen then return msgLen
  else findLenLoop conv o stack findLenFuel (sizeMul fmt.length 2)

def aVsprintfMalloc (E : Env) (conv : Convention) (fmt o : CString)
    (stack : Stack) (w : World) :
    Except Fault (Option ByteBlock × World) := do
  let len ← aVsprintfFindLen conv fmt o stack
  let len := unsignedInt len
  let (out, w) ← Bytes.aMalloc E len w
  match out with
  | none => return (none, w)
  | some block => do
      let (ret, bytes) ← vsnprintf conv o block.bytes len
      if ret < 0 then
        let w ← aError E .perror w
        return (none, Bytes.aFree (some block) w)
      else return (some { block with bytes := bytes }, w)

/-- The length found is that of the output with its NUL, and the string
formatted into new memory is the output. -/
structure FormatsExactly (conv : Convention) (fmt o : CString)
    (stack : Stack) : Prop where
  length : aVsprintfFindLen conv fmt o stack = .ok (o.length + 1)
  malloc : ∀ E w, E.grants w.requests (o.length + 1) = true →
    Returns (aVsprintfMalloc E conv fmt o stack w) o

section Vsnprintf

variable {conv : Convention} {fmt o : CString} {stack : Stack}
  {out : List Byte} {size tryLen : ℕ}

theorem vsnprintf_of_room (conv : Convention) (hsize : o.length < size)
    (hout : size ≤ out.length) :
    vsnprintf conv o out size =
      .ok (o.length, o.stored ++ out.drop (o.length + 1)) := by
  have hcopy : strcpy out o =
      .ok (o.stored ++ out.drop (o.length + 1)) :=
    strcpy_of_le (by omega)
  cases conv with
  | c99 =>
      have hpos : size ≠ 0 := by omega
      have hwhole : o.take (size - 1) = o := CString.take_of_le (by omega)
      simp only [vsnprintf, if_neg hpos, hwhole]
      rw [← strcpy, hcopy]
      rfl
  | preC99 => simp only [vsnprintf, if_pos hsize, hcopy, ok_bind, pure_eq_ok]

/-- Without room the older convention reports that it failed. -/
theorem vsnprintf_short (hsize : size ≤ o.length) (hout : size ≤ out.length) :
    ∃ out', vsnprintf .preC99 o out size = .ok (-1, out') := by
  have hlength : 0 + (o.take size).bytes.length ≤ out.length := by
    rw [CString.take_bytes, List.length_take]
    omega
  simp only [vsnprintf, if_neg (Nat.not_lt.mpr hsize), writeAt,
    if_pos hlength, ok_bind, pure_eq_ok]
  exact ⟨_, rfl⟩

theorem le_length_alloca (stack : Stack) (size : ℕ) :
    size ≤ (stack.alloca size).length := by
  simp [Stack.alloca]

theorem aVsprintfTryLen_of_room (ho : o.length < 2 ^ 31 - 1)
    (hsize : o.length < tryLen) :
    aVsprintfTryLen conv o stack tryLen = .ok (o.length + 1) := by
  have hheld : Holds (o.stored ++
      (stack.alloca tryLen).drop (o.length + 1)) o := ⟨_, rfl⟩
  have hnonneg : ¬ (o.length : ℤ) < 0 := by omega
  unfold aVsprintfTryLen
  rw [vsnprintf_of_room conv hsize (le_length_alloca stack tryLen), ok_bind]
  simp only [if_neg hnonneg, hheld.strlen, ok_bind, pure_eq_ok]
  rw [sizeAdd_of_lt (by omega)]

theorem aVsprintfTryLen_short (hsize : tryLen ≤ o.length) :
    aVsprintfTryLen .preC99 o stack tryLen = .ok 0 := by
  obtain ⟨out, hout⟩ :=
    vsnprintf_short hsize (le_length_alloca stack tryLen)
  simp [aVsprintfTryLen, hout]

theorem findLenLoop_of_room (ho : o.length < 2 ^ 31 - 1) {fuel : ℕ}
    (hsize : o.length < tryLen) :
    findLenLoop conv o stack (fuel + 1) tryLen = .ok (o.length + 1) := by
  simp [findLenLoop, aVsprintfTryLen_of_room ho hsize]

/-- Doubling a length that is not zero finds room for the output. -/
theorem findLenLoop_preC99 (ho : o.length < 2 ^ 31 - 1) :
    ∀ fuel tryLen, o.length < tryLen * 2 ^ fuel →
      findLenLoop .preC99 o stack (fuel + 1) tryLen = .ok (o.length + 1) := by
  intro fuel
  induction fuel with
  | zero =>
      intro tryLen hreach
      rw [pow_zero, Nat.mul_one] at hreach
      exact findLenLoop_of_room ho hreach
  | succ fuel ih =>
      intro tryLen hreach
      by_cases hsize : o.length < tryLen
      · exact findLenLoop_of_room ho hsize
      · have hdouble : sizeMul tryLen 2 = tryLen * 2 :=
          sizeMul_of_lt (by omega)
        have hrest := ih (tryLen * 2) (by
          rw [Nat.mul_assoc, ← Nat.pow_succ']
          exact hreach)
        rw [findLenLoop, aVsprintfTryLen_short (Nat.le_of_not_lt hsize),
          ok_bind, if_pos rfl, hdouble]
        exact hrest

theorem findLenLoop_preC99_zero (fuel : ℕ) :
    findLenLoop .preC99 o stack fuel 0 = .error .divergence := by
  induction fuel with
  | zero => rfl
  | succ fuel ih =>
      have hdouble : sizeMul 0 2 = 0 := rfl
      rw [findLenLoop, aVsprintfTryLen_short (Nat.zero_le _), ok_bind,
        if_pos rfl, hdouble, ih]

theorem aVsprintfFindLen_slow {ret : ℤ} {out' : List Byte}
    (hfirst : vsnprintf conv o [] 0 = .ok (ret, out')) (hret : ret ≤ 0) :
    aVsprintfFindLen conv fmt o stack =
      findLenLoop conv o stack findLenFuel (sizeMul fmt.length 2) := by
  have hnot : ¬ 1 < (ret + 1).toNat := by omega
  unfold aVsprintfFindLen
  rw [hfirst, ok_bind]
  simp only [if_neg hnot]

end Vsnprintf

section FindLen

variable {fmt o : CString} {stack : Stack}

theorem vsnprintf_null_c99 (o : CString) :
    vsnprintf .c99 o [] 0 = .ok (o.length, []) := rfl

theorem vsnprintf_null_preC99 (o : CString) :
    ∃ out, vsnprintf .preC99 o [] 0 = .ok (-1, out) :=
  vsnprintf_short (Nat.zero_le _) (Nat.zero_le _)

/-- The convention of C99 gives a length that is not zero at once. -/
theorem aVsprintfFindLen_fast (ho : o.bytes ≠ []) :
    aVsprintfFindLen .c99 fmt o stack = .ok (o.length + 1) := by
  have hpos : 0 < o.length := List.length_pos_iff.mpr ho
  have hsum : ((o.length : ℤ) + 1).toNat = o.length + 1 := by omega
  have hfast : 1 < o.length + 1 := by omega
  simp only [aVsprintfFindLen, vsnprintf_null_c99, ok_bind, hsum,
    if_pos hfast, pure_eq_ok]

/-- A guess that is not zero finds the length under both conventions. -/
theorem aVsprintfFindLen_guess (conv : Convention)
    (ho : o.length < 2 ^ 31 - 1) (hguess : sizeMul fmt.length 2 ≠ 0) :
    aVsprintfFindLen conv fmt o stack = .ok (o.length + 1) := by
  cases conv with
  | c99 =>
      by_cases hnil : o.bytes = []
      · have hzero : o.length = 0 := by rw [CString.length, hnil]; rfl
        rw [aVsprintfFindLen_slow (vsnprintf_null_c99 o) (by omega)]
        exact findLenLoop_of_room ho (by omega)
      · exact aVsprintfFindLen_fast hnil
  | preC99 =>
      obtain ⟨out, hfirst⟩ := vsnprintf_null_preC99 o
      rw [aVsprintfFindLen_slow hfirst (by omega)]
      refine findLenLoop_preC99 ho 64 _ ?_
      have hpos : 1 ≤ sizeMul fmt.length 2 := Nat.one_le_iff_ne_zero.mpr hguess
      omega

/-- A guess of zero never ends under the older convention. -/
theorem aVsprintfFindLen_diverges (hguess : sizeMul fmt.length 2 = 0) :
    aVsprintfFindLen .preC99 fmt o stack = .error .divergence := by
  obtain ⟨out, hfirst⟩ := vsnprintf_null_preC99 o
  rw [aVsprintfFindLen_slow hfirst (by omega), hguess]
  exact findLenLoop_preC99_zero _

/-- A guess of zero for an empty output measures what lies above the empty
buffer. -/
theorem aVsprintfFindLen_above (hnil : o.bytes = [])
    (hguess : sizeMul fmt.length 2 = 0) :
    aVsprintfFindLen .c99 fmt o stack = .ok (o.length + 1) ↔
      stack.above.head? = some 0#8 := by
  have hzero : o.length = 0 := by rw [CString.length, hnil]; rfl
  have htry : aVsprintfTryLen .c99 o stack 0 =
      (do let len ← strlen stack.above; return sizeAdd len 1) := by
    have hnonneg : ¬ (o.length : ℤ) < 0 := by omega
    simp [aVsprintfTryLen, vsnprintf, Stack.alloca, hnonneg]
  rw [aVsprintfFindLen_slow (vsnprintf_null_c99 o) (by omega), hguess,
    findLenFuel, findLenLoop, htry, hzero, ← strlen_eq_zero_iff]
  rcases strlen_cases stack.above with hfault | ⟨len, hlen⟩
  · simp [hfault]
  · have hsum : sizeAdd len 1 = len + 1 :=
      sizeAdd_of_lt ((Nat.succ_le_of_lt (strlen_lt hlen)).trans_lt stack.fits)
    simp [hlen, hsum]

theorem aVsprintfMalloc_returns {E : Env} {conv : Convention} {w : World}
    (ho : o.length < 2 ^ 31 - 1)
    (hfind : aVsprintfFindLen conv fmt o stack = .ok (o.length + 1))
    (hgrant : E.grants w.requests (o.length + 1) = true) :
    Returns (aVsprintfMalloc E conv fmt o stack w) o := by
  have hnarrow : unsignedInt (o.length + 1) = o.length + 1 :=
    unsignedInt_of_lt (by omega)
  have hformat : vsnprintf conv o (freshBytes E w.requests (o.length + 1))
      (o.length + 1) =
      .ok (o.length, o.stored ++
        (freshBytes E w.requests (o.length + 1)).drop (o.length + 1)) :=
    vsnprintf_of_room conv (Nat.lt_succ_self _) (by rw [freshBytes_length])
  have hdrop : (freshBytes E w.requests (o.length + 1)).drop (o.length + 1) =
      [] := List.drop_of_length_le (by rw [freshBytes_length])
  have hnonneg : ¬ (o.length : ℤ) < 0 := by omega
  rw [hdrop, List.append_nil] at hformat
  refine ⟨⟨w.requests, o.stored⟩, { w with requests := w.requests + 1 }, ?_,
    rfl⟩
  unfold aVsprintfMalloc
  rw [hfind, ok_bind]
  simp only [hnarrow, aMalloc_of_grants (Nat.succ_ne_zero _) hgrant, ok_bind,
    hformat, if_neg hnonneg, pure_eq_ok]

/-- The length is found and the string formatted exactly when the guess is not
zero, or the convention is that of C99 and the output is not empty or the stack
happens to hold a NUL. -/
theorem formatsExactly_iff (conv : Convention) (fmt o : CString)
    (stack : Stack) (ho : o.length < 2 ^ 31 - 1) :
    FormatsExactly conv fmt o stack ↔
      sizeMul fmt.length 2 ≠ 0 ∨
        (conv = .c99 ∧
          (o.bytes ≠ [] ∨ stack.above.head? = some 0#8)) := by
  have hlength : aVsprintfFindLen conv fmt o stack = .ok (o.length + 1) ↔
      sizeMul fmt.length 2 ≠ 0 ∨
        (conv = .c99 ∧
          (o.bytes ≠ [] ∨ stack.above.head? = some 0#8)) := by
    by_cases hguess : sizeMul fmt.length 2 = 0
    · rw [or_iff_right (not_not.mpr hguess)]
      cases conv with
      | c99 =>
          by_cases hnil : o.bytes = []
          · rw [aVsprintfFindLen_above hnil hguess]
            simp [hnil]
          · simp [aVsprintfFindLen_fast hnil, hnil]
      | preC99 => simp [aVsprintfFindLen_diverges hguess]
    · exact ⟨fun _ => Or.inl hguess,
        fun _ => aVsprintfFindLen_guess conv ho hguess⟩
  rw [← hlength]
  exact ⟨fun h => h.length, fun hfind => ⟨hfind, fun E w hgrant =>
    aVsprintfMalloc_returns ho hfind hgrant⟩⟩

/-- An empty stack above the buffer. -/
def bareStack : Stack := ⟨fun _ _ => 1, [], by decide⟩

/-- The format `"a"` with the output `"a"`. -/
theorem letter_formatsExactly :
    FormatsExactly .preC99 letter letter bareStack :=
  (formatsExactly_iff .preC99 letter letter bareStack (by decide)).mpr
    (Or.inl (by decide))

/-- The empty format under the older convention. -/
theorem emptyFormat_fails : ¬ FormatsExactly .preC99 .nil .nil bareStack := by
  intro h
  have hlength := h.length
  rw [aVsprintfFindLen_diverges (by decide)] at hlength
  cases hlength

end FindLen

end Alib
