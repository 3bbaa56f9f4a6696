import Alib.Strings

/-!
# Names of addresses

`a_reverse_resolve`, `a_reverse_resolve_or_ip` and `a_inet_ntoa` of
`resolve.c`.  The caller hands in a buffer with its size, or `NULL` to have one
allocated; a buffer that is found too small makes the call fail and the length
of the name is stored as the size.  What `gethostbyaddr` finds is a parameter.
-/

namespace Alib

open Bytes

/-- The state after a call: whether a pointer, rather than `NULL`, is returned,
what `out` points to and the size stored through the caller's pointer. -/
structure Resolved where
  returned : Bool
  out : Option ByteBlock
  size : ℕ
  world : World

/-- The name of the host is copied to the buffer, or to a new one. -/
def copyHostName (E : Env) (hName : CString) (out : Option ByteBlock)
    (outIn : ℕ) (w : World) : Except Fault Resolved :=
  match out with
  | none => do
      let outIn := unsignedInt (sizeAdd hName.length 1)
      let (out, w) ← Bytes.aMalloc E outIn w
      match out with
      | none => return ⟨false, none, outIn, w⟩
      | some out => do
          let bytes ← strcpy out.bytes hName
          return ⟨true, some { out with bytes := bytes }, outIn, w⟩
  | some out =>
      let addrLen := unsignedInt hName.length
      if outIn ≤ unsignedInt (addrLen + 1) then do
        let w ← aErrorCode E .alib aErrorOpSmall w
        return ⟨false, some out, addrLen, w⟩
      else do
        let bytes ← strcpy out.bytes hName
        return ⟨true, some { out with bytes := bytes }, outIn, w⟩

def aReverseResolve (E : Env) (hostinfo : Option CString)
    (out : Option ByteBlock) (outIn : ℕ) (w : World) :
    Except Fault Resolved :=
  match hostinfo with
  | none => do
      let w ← aError E .perror w
      return ⟨false, out, outIn, w⟩
  | some hName => copyHostName E hName out outIn w

/-- The text of an address has at most 15 bytes. -/
def aInetNtoa (E : Env) (text : CString) (out : Option ByteBlock)
    (outLen : ℕ) (w : World) : Except Fault Resolved :=
  match out with
  | none => do
      let (out, w) ← Bytes.aMalloc E 16 w
      match out with
      | none => return ⟨false, none, outLen, w⟩
      | some out => do
          let bytes ← strcpy out.bytes text
          return ⟨true, some { out with bytes := bytes }, outLen, w⟩
  | some out =>
      if outLen < 16 then do
        let w ← aErrorCode E .alib aErrorOpSmall w
        return ⟨false, some out, outLen, w⟩
      else do
        let bytes ← strcpy out.bytes text
        return ⟨true, some { out with bytes := bytes }, outLen, w⟩

def aReverseResolveOrIp (E : Env) (hostinfo : Option CString)
    (text : CString) (out : Option ByteBlock) (outLen : ℕ) (w : World) :
    Except Fault Resolved :=
  match hostinfo with
  | some hName => copyHostName E hName out outLen w
  | none => aInetNtoa E text out outLen w

/-- The call returned the buffer with the string in it. -/
def Copied (r : Resolved) (s : CString) : Prop :=
  r.returned = true ∧ ∃ block, r.out = some block ∧ Holds block.bytes s

/-- The call returns the name exactly when it fits the size given, writes only
to that many bytes, and when it fails stores a size with which the same call on
a buffer of that size succeeds. -/
structure Negotiates
    (call : ByteBlock → ℕ → World → Except Fault Resolved) (hName : CString)
    (out : ByteBlock) (size : ℕ) (w : World) (r : Resolved) : Prop where
  call_eq : call out size w = .ok r
  fits : r.returned = true ↔ hName.length + 1 ≤ size
  copied : r.returned = true → Copied r hName
  frame : ∃ block, r.out = some block ∧ block.addr = out.addr ∧
    block.bytes.length = out.bytes.length ∧
    block.bytes.drop size = out.bytes.drop size
  retry : r.returned = false → ∀ other : ByteBlock,
    other.bytes.length = r.size →
    ∃ r', call other r.size r.world = .ok r' ∧ Copied r' hName

section CopyHostName

variable {E : Env} {hName : CString} {out : ByteBlock} {size : ℕ} {w : World}

theorem copyHostName_of_lt (hsize : size < 2 ^ 32)
    (hout : size ≤ out.bytes.length) (hlt : hName.length + 1 < size) :
    copyHostName E hName (some out) size w =
      .ok ⟨true, some { out with
        bytes := hName.stored ++ out.bytes.drop (hName.length + 1) },
        size, w⟩ := by
  have hlen : unsignedInt hName.length = hName.length :=
    unsignedInt_of_lt (by omega)
  have hsum : unsignedInt (hName.length + 1) = hName.length + 1 :=
    unsignedInt_of_lt (by omega)
  have hcopy : strcpy out.bytes hName =
      .ok (hName.stored ++ out.bytes.drop (hName.length + 1)) :=
    strcpy_of_le (by omega)
  simp only [copyHostName, hlen, hsum, if_neg (Nat.not_le.mpr hlt), hcopy,
    ok_bind, pure_eq_ok]

/-- What a call with a buffer can do: it fails with the narrowed length of the
name as the size, or copies the name because the narrowed length with the NUL
is below the size. -/
theorem copyHostName_cases {r : Resolved}
    (h : copyHostName E hName (some out) size w = .ok r) :
    (size ≤ unsignedInt (hName.length + 1) ∧ r.returned = false ∧
      r.out = some out ∧ r.size = unsignedInt hName.length) ∨
    (unsignedInt (hName.length + 1) < size ∧ r.returned = true ∧
      ∃ bytes, strcpy out.bytes hName = .ok bytes ∧
        r.out = some { out with bytes := bytes }) := by
  simp only [copyHostName, unsignedInt_succ] at h
  by_cases hsmall : size ≤ unsignedInt (hName.length + 1)
  · left
    rw [if_pos hsmall] at h
    obtain ⟨reported, _, hreturn⟩ := bind_eq_ok_iff.mp h
    cases hreturn
    exact ⟨hsmall, rfl, rfl, rfl⟩
  · right
    rw [if_neg hsmall] at h
    obtain ⟨bytes, hcopy, hreturn⟩ := bind_eq_ok_iff.mp h
    cases hreturn
    exact ⟨Nat.lt_of_not_le hsmall, rfl, bytes, hcopy, rfl⟩

theorem length_lt_of_copied {r : Resolved}
    (h : copyHostName E hName (some out) size w = .ok r)
    (hcopied : Copied r hName) : hName.length + 1 ≤ out.bytes.length := by
  rcases copyHostName_cases h with
    ⟨_, hfalse, _, _⟩ | ⟨_, _, bytes, hcopy, _⟩
  · rw [hcopied.1] at hfalse
    cases hfalse
  · obtain ⟨hroom, _⟩ := writeAt_ok_iff.mp hcopy
    rw [Nat.zero_add, CString.length_stored] at hroom
    exact hroom

/-- The negotiation works when the size exceeds the length of the name with its
NUL. -/
theorem negotiates_of_lt (hsize : size < 2 ^ 32)
    (hout : size ≤ out.bytes.length) (hlt : hName.length + 1 < size) :
    ∃ r, Negotiates (fun out => copyHostName E hName (some out)) hName out
      size w r := by
  have hcopy : strcpy out.bytes hName =
      .ok (hName.stored ++ out.bytes.drop (hName.length + 1)) :=
    strcpy_of_le (by omega)
  have hpast : 0 + hName.stored.length ≤ size := by
    rw [Nat.zero_add, CString.length_stored]
    exact hlt.le
  exact ⟨_, copyHostName_of_lt hsize hout hlt,
    ⟨fun _ => hlt.le, fun _ => rfl⟩,
    fun _ => ⟨rfl, _, rfl, _, rfl⟩,
    ⟨_, rfl, rfl, writeAt_length hcopy, writeAt_drop hcopy hpast⟩,
    fun hfalse => Bool.noConfusion hfalse⟩

/-- Otherwise it does not: the size that is stored is too small again, or the
name was copied although it does not fit. -/
theorem lt_of_negotiates {r : Resolved} (hsize : size < 2 ^ 32)
    (h : Negotiates (fun out => copyHostName E hName (some out)) hName out
      size w r) : hName.length + 1 < size := by
  rcases copyHostName_cases h.call_eq with
    ⟨_, hreturned, _, hstored⟩ | ⟨hwrapped, hreturned, _⟩
  · exfalso
    obtain ⟨r', hcall, hcopied⟩ :=
      h.retry hreturned ⟨0, List.replicate r.size 0#8⟩ List.length_replicate
    have hroom := length_lt_of_copied hcall hcopied
    have hnarrow : unsignedInt hName.length ≤ hName.length := Nat.mod_le _ _
    rw [List.length_replicate, hstored] at hroom
    omega
  · have hle := h.fits.mp hreturned
    rw [unsignedInt_of_lt (by omega)] at hwrapped
    exact hwrapped

end CopyHostName

section Negotiation

variable {E : Env} {out : ByteBlock} {size : ℕ}

/-- Both look-ups negotiate the size of the buffer correctly exactly when the
size given exceeds the length of the name with its NUL. -/
theorem reverseResolve_negotiates_iff (hName text : CString) (w : World)
    (hsize : size < 2 ^ 32) (hout : size ≤ out.bytes.length) :
    ((∃ r, Negotiates
        (fun out => aReverseResolve E (some hName) (some out)) hName out size w
        r) ∧
      ∃ r, Negotiates
        (fun out => aReverseResolveOrIp E (some hName) text (some out)) hName
        out size w r) ↔
      hName.length + 1 < size := by
  constructor
  · intro h
    rcases h.1 with ⟨r, hr⟩
    exact lt_of_negotiates hsize hr
  · intro hlt
    exact ⟨negotiates_of_lt hsize hout hlt, negotiates_of_lt hsize hout hlt⟩

/-- A buffer of three bytes for a name of one. -/
theorem reverseResolve_negotiates_roomy :
    (∃ r, Negotiates (fun out => aReverseResolve (filledEnv 0) (some letter)
        (some out)) letter ⟨0, [1#8, 1#8, 1#8]⟩ 3 ⟨1, 0, .null, [], false⟩ r) ∧
      ∃ r, Negotiates (fun out => aReverseResolveOrIp (filledEnv 0)
        (some letter) letter (some out)) letter ⟨0, [1#8, 1#8, 1#8]⟩ 3
        ⟨1, 0, .null, [], false⟩ r :=
  (reverseResolve_negotiates_iff letter letter ⟨1, 0, .null, [], false⟩ (by decide)
    (by decide)).mpr (by decide)

/-- A buffer of two bytes holds that name but is refused. -/
theorem reverseResolve_refuses_exact :
    ¬ ∃ r, Negotiates (fun out => aReverseResolve (filledEnv 0) (some letter)
      (some out)) letter ⟨0, [1#8, 1#8]⟩ 2 ⟨1, 0, .null, [], false⟩ r := by
  intro h
  rcases h with ⟨r, hr⟩
  have hlt : letter.length + 1 < 2 := lt_of_negotiates (by decide) hr
  revert hlt
  decide

end Negotiation

end Alib
