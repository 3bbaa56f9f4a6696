import Alib.HashMap

/-!
# A put that fails

`a_hash_put` either stores its entry and returns success, or returns a nonzero
code and leaves every entry, the counter and the destructors alone, at every
pattern of refused allocations.  This needs a symmetric `equal_func`; with
another one a rehash can meet an equal key and lose an entry before the put
fails.
-/

namespace Alib
namespace Hash

open Execution KeyedMap

variable {E : Env} {calls : Callbacks} {st : HashState}
  {entries : Multiset Entry}

/-- The entry for this key and value was added, or the value of an entry with
an equal key replaced. -/
def StoredIn (calls : Callbacks) (key val : Ptr) (entries : Multiset Entry)
    (after : HashState) : Prop :=
  (∃ a, HoldsEntries after
    (⟨a, calls.hashFunc key, key, val⟩ ::ₘ entries)) ∨
  ∃ e ∈ entries, e.hash = calls.hashFunc key ∧
    calls.equalFunc e.key key = true ∧
    HoldsEntries after ({ e with val := val } ::ₘ entries.erase e)

/-- Every key that was put is still looked up as before, and every key equal
to itself has its value. -/
def StillFound (calls : Callbacks) (entries : Multiset Entry)
    (before after : HashState) : Prop :=
  ∀ e ∈ entries, aHashGet e.key after = aHashGet e.key before ∧
    (calls.equalFunc e.key e.key = true → aHashGet e.key after = .ok e.val)

/-- The outcome of a put is all or nothing. -/
inductive AllOrNothing (calls : Callbacks) (st : HashState)
    (entries : Multiset Entry) (key val : Ptr) (code : ErrorCode)
    (after : HashState) : Prop where
  | all (hcode : code.isSuccess = true)
      (hstored : StoredIn calls key val entries after)
  | nothing (hcode : code.isSuccess = false)
      (hholds : HoldsEntries after entries)
      (hcount : after.hash.count = st.hash.count)
      (hfrees : SameFrees st.ledger after.ledger)
      (hfound : StillFound calls entries st after)

theorem HashInv.get_entry (h : HashInv calls st entries) {e : Entry}
    (he : e ∈ entries) :
    aHashGet e.key st =
      .ok (if calls.equalFunc e.key e.key = true then e.val else 0) := by
  have hallocated : st.hash.table ≠ none := by
    intro hnone
    rw [h.entries_eq_zero hnone] at he
    exact absurd he (Multiset.notMem_zero e)
  obtain ⟨val, hget, hlooksUp⟩ := aHashGet_spec h.linked hallocated e.key
  have hother : ∀ other ∈ entries, calls.finds e.key other = true →
      other = e := by
    intro other hmem hfinds
    by_contra hne
    have haddr : other.addr ≠ e.addr :=
      h.apart.addr_ne he ((Multiset.mem_erase_of_ne hne).mpr hmem)
    have hunequal := h.apart.unequal other hmem e he haddr
    rw [h.hashed e he] at hunequal
    rw [Callbacks.finds, hunequal] at hfinds
    cases hfinds
  have hself : calls.finds e.key e = calls.equalFunc e.key e.key := by
    rw [Callbacks.finds, matching, h.hashed e he, decide_eq_true rfl,
      Bool.true_and]
  rw [hget]
  rcases hlooksUp with ⟨other, hmem, hfinds, hval⟩ | ⟨hnone, hval⟩
  · obtain rfl := hother other hmem hfinds
    rw [hself] at hfinds
    rw [if_pos hfinds, hval]
  · have hfalse := hnone e he
    rw [hself] at hfalse
    rw [hfalse, if_neg Bool.false_ne_true, hval]

theorem PutOutcome.allOrNothing {key val : Ptr} {code : ErrorCode}
    {after : HashState} (h : HashInv calls st entries)
    (houtcome : PutOutcome E calls st entries key val code after) :
    AllOrNothing calls st entries key val code after := by
  cases houtcome with
  | added a after _ hinv _ _ _ =>
      exact .all rfl (.inl ⟨a, hinv.holdsEntries⟩)
  | replaced e after hmem hfinds hinv _ _ _ =>
      rw [Callbacks.finds, matching, Bool.and_eq_true,
        decide_eq_true_eq] at hfinds
      exact .all rfl
        (.inr ⟨e, hmem, hfinds.1, hfinds.2, hinv.holdsEntries⟩)
  | failed after hunchanged _ =>
      refine .nothing rfl hunchanged.inv.holdsEntries hunchanged.count_eq
        hunchanged.frees ?_
      intro e he
      rw [hunchanged.inv.get_entry he, h.get_entry he]
      refine ⟨rfl, ?_⟩
      intro hequal
      rw [if_pos hequal]

/-- An allocator which refuses one request. -/
def refusingEnv (refused : ℕ) : Env where
  grants := fun request _ => decide (request ≠ refused)
  garbage := fun _ _ => 0
  userGetcode := fun _ => none

/-- One hash value for all keys, and `2` is equal to `1` but not `1` to `2`. -/
def lopsidedCalls : Callbacks where
  hashFunc := fun _ => 0
  equalFunc := fun a b => decide (a = b) || decide (a = 2 ∧ b = 1)
  keyFree := true
  valFree := true

/-- The rehash before the refused item finds `1` equal to `2`, frees it and
gives its value to `2`, so the put is not all or nothing. -/
theorem allOrNothing_needs_symm :
    ¬ ∀ reached, run (hashStep (refusingEnv 5))
        (Config.initial
          ⟨aHashInit lopsidedCalls, fun _ => none, blankLedger, blankWorld⟩)
        [.put 1 10, .put 2 20] = .ok reached →
      ∃ entries code after, HoldsEntries reached.state entries ∧
        aHashPut (refusingEnv 5) 3 30 reached.state = .ok (code, after) ∧
        AllOrNothing lopsidedCalls reached.state entries 3 30 code after := by
  intro h
  obtain ⟨entries, code, after, _, hput, hall⟩ := h _ rfl
  cases hput
  cases hall with
  | all hcode _ => cases hcode
  | nothing _ _ _ hfrees _ =>
      have hkeys : [(1 : Ptr)] = [] := hfrees.keyFreed_eq
      cases hkeys

end Hash
end Alib
