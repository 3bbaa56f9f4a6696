import Alib.HashCount

/-!
# Looking for a key that is not there

The table is made by the first put whose request for it is granted and dropped
by `a_hash_clean`, and no function that looks for a key checks that there is
one.  Where there is, a key that is not stored is looked up, removed and
deleted as such, whatever the callbacks answer; where there is none, each of
these reads through a null pointer.
-/

namespace Alib
namespace Hash

open Execution KeyedMap

variable {E : Env} {calls : Callbacks} {st : HashState}
  {entries : Multiset Entry}

/-- A key is stored if some entry has its hash and an equal key. -/
def Stored (calls : Callbacks) (st : HashState) (key : Ptr) : Prop :=
  ∃ entries, HoldsEntries st entries ∧
    ∃ e ∈ entries, calls.finds key e = true

/-- Every function that looks for the key returns and finds nothing; at most
`val_free` is called. -/
structure Queryable (st : HashState) (key : Ptr) : Prop where
  get : aHashGet key st = .ok 0
  remove : aHashRemove key st = .ok (0, st)
  delete : aHashDelete key st = .ok (withFreedVal 0 st)

theorem finds_false_of_not_stored {key : Ptr} (h : HoldsEntries st entries)
    (hkey : ¬ Stored calls st key) :
    ∀ e ∈ entries, calls.finds key e = false := by
  intro e he
  by_contra hfinds
  rw [Bool.not_eq_false] at hfinds
  exact hkey ⟨entries, h, e, he, hfinds⟩

theorem HashLinked.queryable (h : HashLinked calls st entries) {key : Ptr}
    (hkey : ¬ Stored calls st key) (hallocated : st.hash.table ≠ none) :
    Queryable st key := by
  have hnone := finds_false_of_not_stored h.holds hkey
  have hget : aHashGet key st = .ok 0 := by
    obtain ⟨val, hget, hlooksUp⟩ := aHashGet_spec h hallocated key
    rcases hlooksUp with ⟨e, he, hfinds, _⟩ | ⟨_, hval⟩
    · rw [hnone e he] at hfinds
      cases hfinds
    · rw [hget, hval]
  have hremove : aHashRemove key st = .ok (0, st) := by
    rcases aHashRemove_cases h hallocated key with
      ⟨e, he, _, hfinds, _⟩ | ⟨_, hremove⟩
    · rw [hnone e he] at hfinds
      cases hfinds
    · exact hremove
  refine ⟨hget, hremove, ?_⟩
  rw [aHashDelete, hremove]
  rfl

/-- In every state a completed run reaches, and for every key that is not
stored, the functions that look for the key may be called exactly if the table
is allocated. -/
theorem aHash_queryable_iff (E : Env) (calls : Callbacks)
    (items : Addr → Option AHashItem) (ledger : Ledger) (world : World)
    (ops : List HashOp) (reached : HashConfig)
    (hrun : run (hashStep E)
      (Config.initial ⟨aHashInit calls, items, ledger, world⟩) ops =
        .ok reached) (key : Ptr)
    (hkey : ¬ Stored calls reached.state key) :
    Queryable reached.state key ↔ reached.state.hash.table ≠ none := by
  constructor
  · intro hqueryable
    exact aHashGet_allocated hqueryable.get
  · intro hallocated
    obtain ⟨entries, h⟩ := linkedInv_of_run items ledger world hrun
    exact h.queryable hkey hallocated

/-- A table whose only entry was removed. -/
theorem aHash_queryable_run :
    ∃ reached, run (hashStep (filledEnv 0)) emptyConfig
        [.put 1 10, .remove 1] = .ok reached ∧
      (Queryable reached.state 1 ↔ reached.state.hash.table ≠ none) := by
  refine ⟨_, rfl, aHash_queryable_iff (filledEnv 0) wordCalls (fun _ => none)
    blankLedger blankWorld [.put 1 10, .remove 1] _ rfl 1 ?_⟩
  intro hstored
  rcases hstored with ⟨entries, hholds, e, he, _⟩
  obtain ⟨chains, htable, hcontents⟩ := hholds.of_some rfl
  have hchain := htable.chain 0 none rfl
  rw [← hcontents] at he
  obtain ⟨i, hi, hmem⟩ := mem_contents.mp he
  have hzero : i = 0 := Nat.lt_one_iff.mp hi
  rw [hzero, NodeLayout.isChain_none.mp hchain] at hmem
  cases hmem

/-- A fresh table cannot be queried. -/
theorem aHash_queryable_fails :
    ¬ ∀ ops reached key,
      run (hashStep (filledEnv 0)) emptyConfig ops = .ok reached →
      ¬ Stored wordCalls reached.state key →
      Queryable reached.state key := by
  intro hclaim
  have hstored : ¬ Stored wordCalls emptyConfig.state 1 := by
    intro hstored
    rcases hstored with ⟨entries, hholds, e, he, _⟩
    rw [hholds.of_none rfl] at he
    exact absurd he (Multiset.notMem_zero e)
  have hget := (hclaim [] emptyConfig 1 rfl hstored).get
  cases hget

end Hash
end Alib
