import Alib.HashMap

/-!
# The shape of a hash table

The representation invariant in terms of the memory: after every call of every
run, whatever the allocator refused, a table with a positive counter has its
`2 ^ bits` chains, every item hashed, placed and unlike every other, and a
size between the counter and twice the counter.
-/

namespace Alib
namespace Hash

open Execution KeyedMap

variable {E : Env} {calls : Callbacks} {st : HashState}
  {entries : Multiset Entry}

/-- The chains of a table and what holds of the items in them. -/
structure WellFormed (calls : Callbacks) (st : HashState)
    (table : PointerArray) (chains : Chains) : Prop where
  allocated : st.hash.table = some table
  size : table.slots.length = 2 ^ st.hash.bits
  chain : ∀ i slot, table.slots[i]? = some slot →
    itemLayout.IsChain st.items slot (chains i)
  hashed : ∀ i < 2 ^ st.hash.bits, ∀ e ∈ chains i,
    e.hash = calls.hashFunc e.key
  placed : ∀ i < 2 ^ st.hash.bits, ∀ e ∈ chains i,
    ∃ r, hashReduce e.hash st.hash.bits = .ok r ∧ r.toNat = i
  nodes : ((contents st.hash.bits chains).map Entry.addr).Nodup
  unequal : ∀ e ∈ contents st.hash.bits chains,
    ∀ other ∈ contents st.hash.bits chains, e.addr ≠ other.addr →
      ¬ calls.Same e.key other.key
  card_le : (contents st.hash.bits chains).card ≤ st.hash.count
  count_le : st.hash.count ≤ 2 ^ st.hash.bits
  size_le : 2 ^ st.hash.bits ≤ 2 * st.hash.count

theorem HashInv.wellFormed (hlawful : calls.Lawful)
    (h : HashInv calls st entries) (hcount : 1 ≤ st.hash.count) :
    ∃ table chains, WellFormed calls st table chains := by
  have hallocated : st.hash.table ≠ none := by
    intro hnone
    rw [h.unallocated hnone] at hcount
    cases hcount
  obtain ⟨table, htable⟩ := Option.ne_none_iff_exists'.mp hallocated
  obtain ⟨chains, hholds, hcontents⟩ := h.holds table htable
  refine ⟨table, chains, ?_⟩
  constructor
  · exact htable
  · exact hholds.size
  · exact hholds.chain
  · intro i hi e he
    apply h.hashed
    rw [← hcontents]
    exact mem_contents.mpr ⟨i, hi, he⟩
  · intro i hi e he
    obtain ⟨r, hr, hindex, _⟩ := hashReduce_eq h.bits_le e.hash
    exact ⟨r, hr, hindex.trans (hholds.placed i hi e he)⟩
  · rw [hcontents]
    exact h.apart.nodup
  · rw [hcontents]
    intro e he other hother hne hsame
    have hunequal := h.apart.unequal e he other hother hne
    rw [(matching_iff hlawful h he (h.hashed other hother)).mpr hsame]
      at hunequal
    cases hunequal
  · rw [hcontents]
    exact h.card_le
  · exact h.count_le
  · exact h.size_le hcount

/-- Fewer than `2 ^ 30` puts since the last clean, and a table for the calls
which look for a key. -/
def TableReady (config : HashConfig) (op : HashOp) : Prop :=
  FewPuts config.history op ∧
    (op.looksUp = true → config.state.hash.table ≠ none)

def KeepsShape (calls : Callbacks) (_ : HashConfig) (_ : HashOp)
    (after : HashConfig) : Prop :=
  1 ≤ after.state.hash.count →
    ∃ table chains, WellFormed calls after.state table chains

theorem keepsShape_step (hlawful : calls.Lawful) (config : HashConfig)
    (op : HashOp) (hinv : RunInv calls config)
    (hready : TableReady config op) :
    ∃ after, config.step (hashStep E) op = .ok after ∧
      KeepsShape calls config op after ∧ RunInv calls after := by
  rcases hinv.exists_inv with ⟨entries, h⟩
  have hruns := runs_of_fewPuts hinv.count_le hready.1 hready.2
  obtain ⟨out, state, hcall, houtcome⟩ :=
    hashStep_spec (E := E) hlawful.symm h op hruns
  have hstep := Config.step_of_ok hcall
  have hafter := runInv_step hlawful.symm config op _ hinv hready.1 hstep
  rcases hafter.exists_inv with ⟨entries', h'⟩
  exact ⟨_, hstep, h'.wellFormed hlawful, hafter⟩

/-- The representation invariant holds along every run, whatever the
allocator grants. -/
theorem aHash_wellFormed (E : Env) (hlawful : calls.Lawful)
    (items : Addr → Option AHashItem) (ledger : Ledger) (world : World)
    (ops : List HashOp)
    (hready : Meets (hashStep E) TableReady
      (Config.initial ⟨aHashInit calls, items, ledger, world⟩) ops) :
    Keeps (hashStep E) (KeepsShape calls)
      (Config.initial ⟨aHashInit calls, items, ledger, world⟩) ops :=
  keeps_of_meets (keepsShape_step hlawful)
    (runInv_init calls items ledger world) hready

theorem aHash_wellFormed_run :
    Keeps (hashStep (filledEnv 0)) (KeepsShape wordCalls)
      (Config.initial
        ⟨aHashInit wordCalls, fun _ => none, blankLedger, blankWorld⟩)
      [.put 1 10, .put 2 20, .remove 1, .clear] := by
  refine aHash_wellFormed (filledEnv 0) wordCalls_lawful (fun _ => none)
    blankLedger blankWorld _ ?_
  refine ⟨⟨by decide, fun h => by cases h⟩, fun first hfirst => ?_⟩
  cases hfirst
  refine ⟨⟨by decide, fun h => by cases h⟩, fun second hsecond => ?_⟩
  cases hsecond
  refine ⟨⟨trivial, fun _ => Option.some_ne_none _⟩, fun third _ => ?_⟩
  exact ⟨⟨trivial, fun h => by cases h⟩, fun _ _ => trivial⟩

end Hash
end Alib
