import Alib.HashPut

/-!
# One call on a hash table

The outcome of each call in terms of the entries, and the invariant of runs:
the counter never exceeds the number of puts since the table was last clean,
so no size overflows below `2 ^ 30` puts.
-/

namespace Alib
namespace Hash

open Execution KeyedMap

variable {E : Env} {calls : Callbacks} {st : HashState}
  {entries : Multiset Entry}

abbrev HashConfig := Config HashState HashOp HashOut

/-- A call which is defined in this state. -/
def Runs (st : HashState) : HashOp → Prop
  | .put _ _ => st.hash.count < 2 ^ 30
  | .clear => True
  | _ => st.hash.table ≠ none

/-- The state after `a_hash_delete` called `val_free` on the removed value. -/
def withFreedVal (val : Ptr) (st : HashState) : HashState :=
  { st with ledger := st.ledger.freeVal st.hash.valFree val }

inductive CallOutcome (E : Env) (calls : Callbacks) (st : HashState)
    (entries : Multiset Entry) : HashOp → HashOut → HashState → Prop where
  | put (key val : Ptr) (code : ErrorCode) (after : HashState)
      (houtcome : PutOutcome E calls st entries key val code after) :
      CallOutcome E calls st entries (.put key val) (.code code) after
  | get (key val : Ptr) (hlooksUp : LooksUp calls entries key val) :
      CallOutcome E calls st entries (.get key) (.value val) st
  | remove (key val : Ptr) (after : HashState)
      (houtcome : RemoveOutcome calls st entries key val after) :
      CallOutcome E calls st entries (.remove key) (.value val) after
  | delete (key val : Ptr) (removed : HashState)
      (houtcome : RemoveOutcome calls st entries key val removed) :
      CallOutcome E calls st entries (.delete key) .unit
        (withFreedVal val removed)
  | clear (after : HashState) (hcleaned : Cleaned calls st entries after) :
      CallOutcome E calls st entries .clear .unit after

theorem hashStep_spec
    (hsymm : ∀ a b, calls.equalFunc a b = true → calls.equalFunc b a = true)
    (h : HashInv calls st entries) (op : HashOp) (hruns : Runs st op) :
    ∃ out after, hashStep E st op = .ok (out, after) ∧
      CallOutcome E calls st entries op out after := by
  cases op with
  | put key val =>
      obtain ⟨code, after, hput, houtcome⟩ :=
        aHashPut_spec (E := E) hsymm h hruns key val
      refine ⟨.code code, after, ?_, .put key val code after houtcome⟩
      rw [hashStep, hput]
      rfl
  | get key =>
      obtain ⟨val, hget, hlooksUp⟩ := aHashGet_spec h.linked hruns key
      refine ⟨.value val, st, ?_, .get key val hlooksUp⟩
      rw [hashStep, hget]
      rfl
  | remove key =>
      obtain ⟨val, after, hremove, houtcome⟩ := aHashRemove_spec h hruns key
      refine ⟨.value val, after, ?_, .remove key val after houtcome⟩
      rw [hashStep, hremove]
      rfl
  | delete key =>
      obtain ⟨val, removed, hremove, houtcome⟩ :=
        aHashRemove_spec h hruns key
      refine ⟨.unit, withFreedVal val removed, ?_,
        .delete key val removed houtcome⟩
      rw [hashStep, aHashDelete, hremove]
      rfl
  | clear =>
      obtain ⟨after, hclean, hcleaned⟩ := aHashClean_spec h
      refine ⟨.unit, after, ?_, .clear after hcleaned⟩
      rw [hashStep, hclean]
      rfl

theorem HashInv.withFreedVal (h : HashInv calls st entries) (val : Ptr) :
    HashInv calls (withFreedVal val st) entries where
  callbacks := h.callbacks
  unallocated := h.unallocated
  holds := h.holds
  apart := h.apart
  live := h.live
  hashed := h.hashed
  card_le := h.card_le
  bits_le := h.bits_le
  bits_of_zero := h.bits_of_zero
  count_le := h.count_le
  size_le := h.size_le

section Outcomes

variable {op : HashOp} {out : HashOut} {after : HashState}

theorem RemoveOutcome.exists_inv {key val : Ptr}
    (h : HashInv calls st entries)
    (houtcome : RemoveOutcome calls st entries key val after) :
    ∃ fewer, HashInv calls after fewer := by
  cases houtcome with
  | removed e after _ _ hinv _ _ _ _ => exact ⟨_, hinv⟩
  | absent _ => exact ⟨entries, h⟩

theorem RemoveOutcome.count_eq {key val : Ptr}
    (houtcome : RemoveOutcome calls st entries key val after) :
    after.hash.count = st.hash.count := by
  cases houtcome with
  | removed e after _ _ _ _ hcount _ _ => exact hcount
  | absent _ => rfl

theorem RemoveOutcome.allocated {key val : Ptr}
    (houtcome : RemoveOutcome calls st entries key val after)
    (hallocated : st.hash.table ≠ none) : after.hash.table ≠ none := by
  cases houtcome with
  | removed e after _ _ _ hallocatedAfter _ _ _ => exact hallocatedAfter
  | absent _ => exact hallocated

theorem CallOutcome.exists_inv (h : HashInv calls st entries)
    (houtcome : CallOutcome E calls st entries op out after) :
    ∃ entries', HashInv calls after entries' := by
  cases houtcome with
  | put key val code after houtcome =>
      cases houtcome with
      | added a after _ hinv _ _ _ => exact ⟨_, hinv⟩
      | replaced e after _ _ hinv _ _ _ => exact ⟨_, hinv⟩
      | failed after hunchanged _ => exact ⟨entries, hunchanged.inv⟩
  | get key val _ => exact ⟨entries, h⟩
  | remove key val after houtcome => exact houtcome.exists_inv h
  | delete key val removed houtcome =>
      obtain ⟨fewer, hinv⟩ := houtcome.exists_inv h
      exact ⟨fewer, hinv.withFreedVal val⟩
  | clear after hcleaned => exact ⟨0, hcleaned.inv⟩

theorem PutOutcome.count_cases {key val : Ptr} {code : ErrorCode}
    (houtcome : PutOutcome E calls st entries key val code after) :
    after.hash.count = st.hash.count + 1 ∨
      (¬ E.GrantsAll ∧ after.hash.count = st.hash.count) := by
  cases houtcome with
  | added a after _ _ _ hcount _ => exact .inl hcount
  | replaced e after _ _ _ _ hcount _ => exact .inl hcount
  | failed after hunchanged hdenied =>
      exact .inr ⟨hdenied, hunchanged.count_eq⟩

theorem CallOutcome.count_le
    (houtcome : CallOutcome E calls st entries op out after)
    {past : List HashOp} (hcount : st.hash.count ≤ recentPuts past) :
    after.hash.count ≤ recentPuts (past ++ [op]) := by
  rw [recentPuts_append]
  cases houtcome with
  | put key val code after houtcome =>
      rcases houtcome.count_cases with hafter | ⟨_, hafter⟩
      · rw [hafter]
        exact Nat.succ_le_succ hcount
      · rw [hafter]
        exact Nat.le_succ_of_le hcount
  | get key val _ => exact hcount
  | remove key val after houtcome =>
      rw [houtcome.count_eq]
      exact hcount
  | delete key val removed houtcome =>
      change removed.hash.count ≤ _
      rw [houtcome.count_eq]
      exact hcount
  | clear after hcleaned =>
      rw [hcleaned.hash_eq]
      exact Nat.le_refl 0

/-- Every granted put counts, also one that replaces a value, and no call
takes a removed entry off the counter. -/
theorem CallOutcome.count_eq (hgrant : E.GrantsAll)
    (houtcome : CallOutcome E calls st entries op out after) :
    after.hash.count = countPuts st.hash.count op := by
  cases houtcome with
  | put key val code after houtcome =>
      rcases houtcome.count_cases with hafter | ⟨hdenied, _⟩
      · exact hafter
      · exact absurd hgrant hdenied
  | get key val _ => rfl
  | remove key val after houtcome => exact houtcome.count_eq
  | delete key val removed houtcome => exact houtcome.count_eq
  | clear after hcleaned => exact congrArg AHash.count hcleaned.hash_eq

theorem CallOutcome.allocated
    (houtcome : CallOutcome E calls st entries op out after)
    (hop : op ≠ .clear) (hallocated : st.hash.table ≠ none) :
    after.hash.table ≠ none := by
  cases houtcome with
  | put key val code after houtcome =>
      cases houtcome with
      | added a after _ _ hallocatedAfter _ _ => exact hallocatedAfter
      | replaced e after _ _ _ hallocatedAfter _ _ => exact hallocatedAfter
      | failed after hunchanged _ => exact hunchanged.allocated hallocated
  | get key val _ => exact hallocated
  | remove key val after houtcome => exact houtcome.allocated hallocated
  | delete key val removed houtcome => exact houtcome.allocated hallocated
  | clear after _ => exact absurd rfl hop

end Outcomes

/-- The state of a table after a run, whatever the allocator refused. -/
structure RunInv (calls : Callbacks) (config : HashConfig) : Prop where
  exists_inv : ∃ entries, HashInv calls config.state entries
  count_le : config.state.hash.count ≤ recentPuts config.history

/-- Fewer than `2 ^ 30` puts since the table was last clean. -/
def FewPuts (past : List HashOp) : HashOp → Prop
  | .put _ _ => recentPuts past + 1 < 2 ^ 30
  | _ => True

instance (past : List HashOp) (op : HashOp) : Decidable (FewPuts past op) := by
  cases op <;> unfold FewPuts <;> infer_instance

theorem runInv_init (calls : Callbacks) (items : Addr → Option AHashItem)
    (ledger : Ledger) (world : World) :
    RunInv calls
      (Config.initial ⟨aHashInit calls, items, ledger, world⟩) :=
  ⟨⟨0, HashInv.init calls items ledger world⟩, Nat.zero_le _⟩

theorem runs_of_fewPuts {past : List HashOp} {op : HashOp}
    (hcount : st.hash.count ≤ recentPuts past) (hfew : FewPuts past op)
    (hallocated : op.looksUp = true → st.hash.table ≠ none) : Runs st op := by
  cases op with
  | put key val =>
      have hlt : recentPuts past + 1 < 2 ^ 30 := hfew
      exact lt_of_le_of_lt hcount (Nat.lt_of_succ_lt hlt)
  | get key => exact hallocated rfl
  | remove key => exact hallocated rfl
  | delete key => exact hallocated rfl
  | clear => trivial

theorem aHashGet_allocated {key val : Ptr}
    (hget : aHashGet key st = .ok val) : st.hash.table ≠ none := by
  intro hnone
  have htableOf : tableOf st.hash = .error .nullPointer := by
    rw [tableOf, hnone]
  simp only [aHashGet, htableOf] at hget
  cases hreduce : hashReduce (st.hash.hashFunc key) st.hash.bits with
  | error fault =>
      rw [hreduce] at hget
      cases hget
  | ok r =>
      rw [hreduce] at hget
      cases hget

theorem aHashRemove_allocated {key : Ptr} {result : Ptr × HashState}
    (hremove : aHashRemove key st = .ok result) : st.hash.table ≠ none := by
  intro hnone
  have htableOf : tableOf st.hash = .error .nullPointer := by
    rw [tableOf, hnone]
  simp only [aHashRemove, htableOf] at hremove
  cases hreduce : hashReduce (st.hash.hashFunc key) st.hash.bits with
  | error fault =>
      rw [hreduce] at hremove
      cases hremove
  | ok r =>
      rw [hreduce] at hremove
      cases hremove

/-- A call which looks for a key faults when there is no table. -/
theorem allocated_of_ok {op : HashOp} {result : HashOut × HashState}
    (hlooks : op.looksUp = true) (hstep : hashStep E st op = .ok result) :
    st.hash.table ≠ none := by
  cases op with
  | put key val => cases hlooks
  | get key =>
      obtain ⟨val, hget, _⟩ := bind_eq_ok_iff.mp hstep
      exact aHashGet_allocated hget
  | remove key =>
      obtain ⟨removed, hremove, _⟩ := bind_eq_ok_iff.mp hstep
      exact aHashRemove_allocated hremove
  | delete key =>
      obtain ⟨deleted, hdelete, _⟩ := bind_eq_ok_iff.mp hstep
      obtain ⟨removed, hremove, _⟩ := bind_eq_ok_iff.mp hdelete
      exact aHashRemove_allocated hremove
  | clear => cases hlooks

section Linked

variable {op : HashOp} {out : HashOut} {after : HashState}

theorem HashLinked.withFreedVal (h : HashLinked calls st entries)
    (val : Ptr) : HashLinked calls (withFreedVal val st) entries where
  callbacks := h.callbacks
  unallocated := h.unallocated
  holds := h.holds
  nodup := h.nodup
  live := h.live
  hashed := h.hashed
  bits_le := h.bits_le
  bits_of_zero := h.bits_of_zero
  count_le := h.count_le
  size_le := h.size_le

/-- What `a_hash_remove` returns and leaves whatever `equal_func` answers. -/
inductive LinkedRemove (calls : Callbacks) (st : HashState)
    (entries : Multiset Entry) (key : Ptr) :
    Ptr → HashState → Multiset Entry → Prop where
  | removed (e : Entry) (after : HashState) (hmem : e ∈ entries)
      (hfinds : calls.finds key e = true)
      (hledger : after.ledger = st.ledger.freeItem calls e.key 0) :
      LinkedRemove calls st entries key e.val after (entries.erase e)
  | absent (hnone : ∀ e ∈ entries, calls.finds key e = false) :
      LinkedRemove calls st entries key 0 st entries

/-- The outcome of a call that returns, whatever the callbacks answer. -/
inductive LinkedOutcome (E : Env) (calls : Callbacks) (st : HashState)
    (entries : Multiset Entry) :
    HashOp → HashOut → HashState → Multiset Entry → Prop where
  | put (key val : Ptr) (code : ErrorCode) (after : HashState)
      (entries' : Multiset Entry)
      (houtcome : LinkedPut E calls st entries key val code after entries') :
      LinkedOutcome E calls st entries (.put key val) (.code code) after
        entries'
  | get (key val : Ptr) :
      LinkedOutcome E calls st entries (.get key) (.value val) st entries
  | remove (key val : Ptr) (after : HashState) (entries' : Multiset Entry)
      (houtcome : LinkedRemove calls st entries key val after entries') :
      LinkedOutcome E calls st entries (.remove key) (.value val) after
        entries'
  | delete (key val : Ptr) (removed : HashState) (entries' : Multiset Entry)
      (houtcome : LinkedRemove calls st entries key val removed entries') :
      LinkedOutcome E calls st entries (.delete key) .unit
        (withFreedVal val removed) entries'
  | clear (after : HashState) (order : List Entry)
      (horder : (order : Multiset Entry) = entries)
      (hhash : after.hash = aHashInit calls)
      (hledger : after.ledger = st.ledger.freeAll calls order) :
      LinkedOutcome E calls st entries .clear .unit after 0

theorem LinkedPut.linked {key val : Ptr} {code : ErrorCode}
    {entries' : Multiset Entry}
    (h : LinkedPut E calls st entries key val code after entries') :
    HashLinked calls after entries' := by
  cases h with
  | stored a after entries' hlinked _ _ _ => exact hlinked
  | failed after entries' hrearranged _ => exact hrearranged.linked

theorem aHashRemove_linked (h : HashLinked calls st entries) {key val : Ptr}
    (hremove : aHashRemove key st = .ok (val, after)) :
    ∃ entries', HashLinked calls after entries' ∧
      LinkedRemove calls st entries key val after entries' := by
  rcases aHashRemove_cases h (aHashRemove_allocated hremove) key with
    ⟨e, hmem, removed, hfinds, hcall, hlinked, _, _, hledger, _⟩ |
    ⟨hnone, hcall⟩
  · rw [hremove] at hcall
    cases hcall
    exact ⟨_, hlinked, .removed e _ hmem hfinds hledger⟩
  · rw [hremove] at hcall
    cases hcall
    exact ⟨entries, h, .absent hnone⟩

theorem hashStep_linked (h : HashLinked calls st entries)
    (hstep : hashStep E st op = .ok (out, after)) :
    ∃ entries', HashLinked calls after entries' ∧
      LinkedOutcome E calls st entries op out after entries' := by
  cases op with
  | put key val =>
      obtain ⟨⟨code, state⟩, hput, hreturn⟩ := bind_eq_ok_iff.mp hstep
      cases hreturn
      obtain ⟨entries', houtcome⟩ := aHashPut_of_ok h hput
      exact ⟨entries', houtcome.linked, .put key val code _ _ houtcome⟩
  | get key =>
      obtain ⟨val, _, hreturn⟩ := bind_eq_ok_iff.mp hstep
      cases hreturn
      exact ⟨entries, h, .get key val⟩
  | remove key =>
      obtain ⟨⟨val, state⟩, hremove, hreturn⟩ := bind_eq_ok_iff.mp hstep
      cases hreturn
      obtain ⟨entries', hlinked, houtcome⟩ := aHashRemove_linked h hremove
      exact ⟨entries', hlinked, .remove key val _ _ houtcome⟩
  | delete key =>
      obtain ⟨state, hdelete, hreturn⟩ := bind_eq_ok_iff.mp hstep
      cases hreturn
      obtain ⟨⟨val, removed⟩, hremove, hfreed⟩ := bind_eq_ok_iff.mp hdelete
      cases hfreed
      obtain ⟨entries', hlinked, houtcome⟩ := aHashRemove_linked h hremove
      exact ⟨entries', hlinked.withFreedVal val,
        .delete key val removed _ houtcome⟩
  | clear =>
      obtain ⟨state, hclean, hreturn⟩ := bind_eq_ok_iff.mp hstep
      cases hreturn
      obtain ⟨order, items, horder, hcall⟩ := aHashClean_eq h
      rw [hclean] at hcall
      cases hcall
      exact ⟨0, .init calls items _ _, .clear _ order horder rfl rfl⟩

/-- The state a completed run reaches, whatever the callbacks answer. -/
def LinkedInv (calls : Callbacks) (config : HashConfig) : Prop :=
  ∃ entries, HashLinked calls config.state entries

theorem linkedInv_init (calls : Callbacks) (items : Addr → Option AHashItem)
    (ledger : Ledger) (world : World) :
    LinkedInv calls
      (Config.initial ⟨aHashInit calls, items, ledger, world⟩) :=
  ⟨0, .init calls items ledger world⟩

theorem linkedInv_of_run (items : Addr → Option AHashItem) (ledger : Ledger)
    (world : World) {ops : List HashOp} {reached : HashConfig}
    (hrun : run (hashStep E)
      (Config.initial ⟨aHashInit calls, items, ledger, world⟩) ops =
        .ok reached) : LinkedInv calls reached := by
  have hstep : ∀ (config : HashConfig) (op : HashOp) (after : HashConfig),
      LinkedInv calls config → True →
      config.step (hashStep E) op = .ok after → LinkedInv calls after := by
    intro config op after hinv _ hafter
    rcases hinv with ⟨entries, h⟩
    obtain ⟨out, hcall, _⟩ := Config.step_eq_ok_iff.mp hafter
    obtain ⟨entries', h', _⟩ := hashStep_linked h hcall
    exact ⟨entries', h'⟩
  exact inv_of_run hstep (linkedInv_init calls items ledger world)
    (meets_of_forall (fun _ _ _ => trivial) _) hrun

end Linked

theorem runInv_step
    (hsymm : ∀ a b, calls.equalFunc a b = true → calls.equalFunc b a = true)
    (config : HashConfig) (op : HashOp) (after : HashConfig)
    (hinv : RunInv calls config) (hfew : FewPuts config.history op)
    (hstep : config.step (hashStep E) op = .ok after) :
    RunInv calls after := by
  rcases hinv.exists_inv with ⟨entries, h⟩
  obtain ⟨out, hcall, _⟩ := Config.step_eq_ok_iff.mp hstep
  have hruns := runs_of_fewPuts hinv.count_le hfew
    (fun hlooks => allocated_of_ok hlooks hcall)
  obtain ⟨out', after', hcall', houtcome⟩ :=
    hashStep_spec (E := E) hsymm h op hruns
  rw [hcall] at hcall'
  cases hcall'
  constructor
  · exact houtcome.exists_inv h
  · rw [Config.history_step hstep]
    exact houtcome.count_le hinv.count_le

end Hash
end Alib
