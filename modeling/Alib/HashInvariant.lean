import Alib.HashRehash

/-!
# The invariant of a hash table, and looking up, removing and cleaning

`HashLinked` ties the table, the number of bits, the counter and the stored
hashes to the multiset of entries, whatever `hash_func` and `equal_func`
answer.  `HashInv` adds that the entries are apart, for which `equal_func` has
to be symmetric.  Each call has one lemma, which says in terms of the entries
what is returned, what the destructors are called with and what the invariant
is afterwards.
-/

namespace Alib
namespace Hash

/-- The entry is the one a search for the key stops at. -/
def Callbacks.finds (calls : Callbacks) (key : Ptr) (e : Entry) : Bool :=
  matching calls.equalFunc (calls.hashFunc key) key e

structure HashInv (calls : Callbacks) (st : HashState)
    (entries : Multiset Entry) : Prop where
  callbacks : st.hash.toCallbacks = calls
  unallocated : st.hash.table = none → st.hash.count = 0
  holds : ∀ table, st.hash.table = some table →
    ∃ chains, TableHolds st.items table.slots st.hash.bits chains ∧
      contents st.hash.bits chains = entries
  apart : Apart calls.equalFunc entries
  live : ∀ e ∈ entries, e.addr < st.world.requests
  hashed : ∀ e ∈ entries, e.hash = calls.hashFunc e.key
  card_le : entries.card ≤ st.hash.count
  bits_le : st.hash.bits ≤ 30
  bits_of_zero : st.hash.count = 0 → st.hash.bits = 0
  count_le : st.hash.count ≤ 2 ^ st.hash.bits
  size_le : 1 ≤ st.hash.count → 2 ^ st.hash.bits ≤ 2 * st.hash.count

/-- What `a_hash_get` returns for the key. -/
def LooksUp (calls : Callbacks) (entries : Multiset Entry) (key val : Ptr) :
    Prop :=
  (∃ e ∈ entries, calls.finds key e = true ∧ val = e.val) ∨
    ((∀ e ∈ entries, calls.finds key e = false) ∧ val = 0)

variable {calls : Callbacks} {st : HashState} {entries : Multiset Entry}

def HoldsEntries (st : HashState) (entries : Multiset Entry) : Prop :=
  match st.hash.table with
  | none => entries = 0
  | some table =>
      ∃ chains, TableHolds st.items table.slots st.hash.bits chains ∧
        contents st.hash.bits chains = entries

/-- The part of the invariant that no `equal_func` can break. -/
structure HashLinked (calls : Callbacks) (st : HashState)
    (entries : Multiset Entry) : Prop where
  callbacks : st.hash.toCallbacks = calls
  unallocated : st.hash.table = none → st.hash.count = 0
  holds : HoldsEntries st entries
  nodup : (entries.map Entry.addr).Nodup
  live : ∀ e ∈ entries, e.addr < st.world.requests
  hashed : ∀ e ∈ entries, e.hash = calls.hashFunc e.key
  bits_le : st.hash.bits ≤ 30
  bits_of_zero : st.hash.count = 0 → st.hash.bits = 0
  count_le : st.hash.count ≤ 2 ^ st.hash.bits
  size_le : 1 ≤ st.hash.count → 2 ^ st.hash.bits ≤ 2 * st.hash.count

theorem HoldsEntries.of_none (h : HoldsEntries st entries)
    (hnone : st.hash.table = none) : entries = 0 := by
  rw [HoldsEntries, hnone] at h
  exact h

theorem HoldsEntries.of_some {table : PointerArray}
    (h : HoldsEntries st entries) (htable : st.hash.table = some table) :
    ∃ chains, TableHolds st.items table.slots st.hash.bits chains ∧
      contents st.hash.bits chains = entries := by
  rw [HoldsEntries, htable] at h
  exact h

theorem holdsEntries_of_some {table : PointerArray} {chains : Chains}
    (htable : st.hash.table = some table)
    (hholds : TableHolds st.items table.slots st.hash.bits chains)
    (hcontents : contents st.hash.bits chains = entries) :
    HoldsEntries st entries := by
  rw [HoldsEntries, htable]
  exact ⟨chains, hholds, hcontents⟩

theorem HashInv.entries_eq_zero (h : HashInv calls st entries)
    (hnone : st.hash.table = none) : entries = 0 := by
  have hcard := h.card_le
  rw [h.unallocated hnone, Nat.le_zero, Multiset.card_eq_zero] at hcard
  exact hcard

theorem HashInv.holdsEntries (h : HashInv calls st entries) :
    HoldsEntries st entries := by
  unfold HoldsEntries
  cases htable : st.hash.table with
  | none => exact h.entries_eq_zero htable
  | some table => exact h.holds table htable

theorem HashInv.linked (h : HashInv calls st entries) :
    HashLinked calls st entries where
  callbacks := h.callbacks
  unallocated := h.unallocated
  holds := h.holdsEntries
  nodup := h.apart.nodup
  live := h.live
  hashed := h.hashed
  bits_le := h.bits_le
  bits_of_zero := h.bits_of_zero
  count_le := h.count_le
  size_le := h.size_le

theorem HashLinked.of_chains {hash : AHash} {table : PointerArray}
    {bits count : ℕ} {chains : Chains} (hcalls : hash.toCallbacks = calls)
    (hhash : st.hash =
      { hash with table := some table, bits := bits, count := count })
    (hholds : TableHolds st.items table.slots bits chains)
    (hcontents : contents bits chains = entries)
    (hnodup : (entries.map Entry.addr).Nodup)
    (hlive : ∀ e ∈ entries, e.addr < st.world.requests)
    (hhashed : ∀ e ∈ entries, e.hash = calls.hashFunc e.key)
    (hbits : bits ≤ 30) (hzero : count = 0 → bits = 0)
    (hcount : count ≤ 2 ^ bits) (hsize : 1 ≤ count → 2 ^ bits ≤ 2 * count) :
    HashLinked calls st entries := by
  have htable : st.hash.table = some table := by rw [hhash]
  have hbitsEq : st.hash.bits = bits := by rw [hhash]
  have hcountEq : st.hash.count = count := by rw [hhash]
  rw [← hbitsEq] at hholds hcontents hbits hzero hcount hsize
  rw [← hcountEq] at hzero hcount hsize
  constructor
  · rw [hhash]
    exact hcalls
  · intro hnone
    rw [htable] at hnone
    cases hnone
  · exact holdsEntries_of_some htable hholds hcontents
  · exact hnodup
  · exact hlive
  · exact hhashed
  · exact hbits
  · exact hzero
  · exact hcount
  · exact hsize

theorem HashInv.of_linked (h : HashLinked calls st entries)
    (hapart : Apart calls.equalFunc entries)
    (hcard : entries.card ≤ st.hash.count) : HashInv calls st entries where
  callbacks := h.callbacks
  unallocated := h.unallocated
  holds := fun _ htable => h.holds.of_some htable
  apart := hapart
  live := h.live
  hashed := h.hashed
  card_le := hcard
  bits_le := h.bits_le
  bits_of_zero := h.bits_of_zero
  count_le := h.count_le
  size_le := h.size_le

theorem HashLinked.init (calls : Callbacks) (items : Addr → Option AHashItem)
    (ledger : Ledger) (world : World) :
    HashLinked calls ⟨aHashInit calls, items, ledger, world⟩ 0 where
  callbacks := rfl
  unallocated := fun _ => rfl
  holds := rfl
  nodup := by simp
  live := by simp
  hashed := by simp
  bits_le := by simp [aHashInit]
  bits_of_zero := fun _ => rfl
  count_le := by simp [aHashInit]
  size_le := by simp [aHashInit]

theorem HashInv.init (calls : Callbacks) (items : Addr → Option AHashItem)
    (ledger : Ledger) (world : World) :
    HashInv calls ⟨aHashInit calls, items, ledger, world⟩ 0 :=
  .of_linked (.init calls items ledger world) .zero (by simp)

theorem TableHolds.congr {items items' : Addr → Option AHashItem}
    {slots : List (Option Addr)} {bits : ℕ} {chains : Chains}
    (h : TableHolds items slots bits chains)
    (hagree : ∀ e ∈ contents bits chains, items' e.addr = items e.addr) :
    TableHolds items' slots bits chains := by
  constructor
  · exact h.size
  · intro i slot hslot
    have hi : i < 2 ^ bits := by
      rw [← h.size]
      exact (List.getElem?_eq_some_iff.mp hslot).1
    apply (h.chain i slot hslot).congr
    intro e he
    exact hagree e (mem_contents.mpr ⟨i, hi, he⟩)
  · exact h.placed

theorem HashLinked.length_lt_fuel (h : HashLinked calls st entries)
    {slots : List (Option Addr)} {chains : Chains}
    (hholds : TableHolds st.items slots st.hash.bits chains)
    (hcontents : contents st.hash.bits chains = entries) :
    ∀ i < 2 ^ st.hash.bits, (chains i).length < st.fuel := by
  apply hholds.length_lt_fuel
  rw [hcontents]
  exact h.live

theorem HashLinked.matching_eq (h : HashLinked calls st entries) (key : Ptr) :
    matching st.hash.equalFunc (st.hash.hashFunc key) key =
      calls.finds key := by
  rw [← h.callbacks]
  rfl

theorem aHashGet_spec (h : HashLinked calls st entries)
    (hallocated : st.hash.table ≠ none) (key : Ptr) :
    ∃ val, aHashGet key st = .ok val ∧ LooksUp calls entries key val := by
  obtain ⟨table, htable⟩ := Option.ne_none_iff_exists'.mp hallocated
  obtain ⟨chains, hholds, hcontents⟩ := h.holds.of_some htable
  obtain ⟨r, slot, hreaches⟩ :=
    hholds.reaches htable h.bits_le (st.hash.hashFunc key)
  have hfind := itemListFind_eq st.hash.equalFunc (st.hash.hashFunc key) key
    hreaches.linked (h.length_lt_fuel hholds hcontents _ hreaches.lt)
  have hget : aHashGet key st = itemVal st.items
      (((chains (reduceIndex (st.hash.hashFunc key) st.hash.bits)).find?
        (matching st.hash.equalFunc (st.hash.hashFunc key) key)).map
          Entry.addr) := by
    simp only [aHashGet, hreaches.reduce, hreaches.allocated, hreaches.index,
      hreaches.read, hfind, ok_bind]
  have hcalls := h.matching_eq key
  rcases hholds.find_cases h.bits_le st.hash.equalFunc
      (st.hash.hashFunc key) key with
    ⟨hnone, hall⟩ | ⟨e, first, second, hsplit, hmatch, hfirst, hmem⟩
  · refine ⟨0, ?_, .inr ⟨?_, rfl⟩⟩
    · rw [hget, hnone]
      rfl
    · rw [hcalls, hcontents] at hall
      exact hall
  · have hfound : (chains (reduceIndex (st.hash.hashFunc key)
        st.hash.bits)).find?
        (matching st.hash.equalFunc (st.hash.hashFunc key) key) = some e := by
      rw [List.find?_eq_some_iff_append]
      refine ⟨hmatch, first, second, hsplit, ?_⟩
      intro other hother
      simp [hfirst other hother]
    obtain ⟨node, hnode, _, _, hval⟩ := hholds.node hmem
    refine ⟨e.val, ?_, .inl ⟨e, hcontents ▸ hmem, ?_, rfl⟩⟩
    · rw [hget, hfound, Option.map_some, itemVal, load_of_eq hnode, ok_bind,
        hval]
      rfl
    · rwa [hcalls] at hmatch

section Remove

variable {table : PointerArray} {chains : Chains} {equal : Ptr → Ptr → Bool}
  {hash : BitVec 32} {key : Ptr} {first second : List Entry} {e : Entry}
  {node : AHashItem}

def locationAfter (list : ItemLocation) (first : List Entry) : ItemLocation :=
  match first.getLast? with
  | none => list
  | some prev => .ptrOf prev.addr

theorem locationAfter_cons (list : ItemLocation) (prev : Entry)
    (rest : List Entry) :
    locationAfter list (prev :: rest) =
      locationAfter (.ptrOf prev.addr) rest := by
  unfold locationAfter
  rw [List.getLast?_cons]
  cases rest.getLast? <;> rfl

theorem itemListRemove_found {head : Option Addr} {list : ItemLocation}
    {fuel : ℕ}
    (hchain : itemLayout.IsChain st.items head (first ++ e :: second))
    (hfirst : ∀ other ∈ first, matching equal hash key other = false)
    (hmatch : matching equal hash key e = true)
    (hnode : st.items e.addr = some node) (hfuel : first.length < fuel) :
    itemListRemove hash key equal fuel list head st = do
      let st ← writeLocation (locationAfter list first) node.ptr st
      return (some e.addr, st) := by
  induction first generalizing head list fuel with
  | nil =>
      cases fuel with
      | zero => cases hfuel
      | succ fuel =>
          obtain ⟨hhead, found, hfound, hview, _⟩ :
              head = some e.addr ∧ ∃ found, st.items e.addr = some found ∧
                entryOf e.addr found = e ∧
                itemLayout.IsChain st.items found.ptr second := hchain
          rw [hnode] at hfound
          cases hfound
          rw [← hview, matching_entryOf] at hmatch
          rw [hhead, itemListRemove, load_of_eq hnode, ok_bind, if_pos hmatch]
          rfl
  | cons prev rest ih =>
      cases fuel with
      | zero => cases hfuel
      | succ fuel =>
          obtain ⟨hhead, found, hfound, hview, hrest⟩ :
              head = some prev.addr ∧ ∃ found,
                st.items prev.addr = some found ∧
                entryOf prev.addr found = prev ∧
                itemLayout.IsChain st.items found.ptr
                  (rest ++ e :: second) := hchain
          have hnot : ¬ (found.hash = hash ∧ equal found.key key = true) := by
            rw [← matching_entryOf equal hash key prev.addr, hview,
              hfirst prev (by simp)]
            exact Bool.false_ne_true
          rw [hhead, itemListRemove, load_of_eq hfound, ok_bind, if_neg hnot,
            locationAfter_cons]
          exact ih hrest (fun other hother => hfirst other (by simp [hother]))
            (Nat.lt_of_succ_lt_succ hfuel)

theorem itemListRemove_absent {head : Option Addr} {chain : List Entry}
    {list : ItemLocation} {fuel : ℕ}
    (hchain : itemLayout.IsChain st.items head chain)
    (hnone : ∀ e ∈ chain, matching equal hash key e = false)
    (hfuel : chain.length < fuel) :
    itemListRemove hash key equal fuel list head st = .ok (none, st) := by
  induction chain generalizing head list fuel with
  | nil =>
      cases fuel with
      | zero => cases hfuel
      | succ fuel =>
          rw [hchain]
          rfl
  | cons prev rest ih =>
      cases fuel with
      | zero => cases hfuel
      | succ fuel =>
          obtain ⟨hhead, found, hfound, hview, hrest⟩ :
              head = some prev.addr ∧ ∃ found,
                st.items prev.addr = some found ∧
                entryOf prev.addr found = prev ∧
                itemLayout.IsChain st.items found.ptr rest := hchain
          have hnot : ¬ (found.hash = hash ∧ equal found.key key = true) := by
            rw [← matching_entryOf equal hash key prev.addr, hview,
              hnone prev (by simp)]
            exact Bool.false_ne_true
          rw [hhead, itemListRemove, load_of_eq hfound, ok_bind, if_neg hnot]
          exact ih hrest (fun other hother => hnone other (by simp [hother]))
            (Nat.lt_of_succ_lt_succ hfuel)

/-- Writing the link of an entry over the pointer to it takes it out of its
chain and leaves its node alone. -/
theorem unlink_spec (htable : st.hash.table = some table)
    (hholds : TableHolds st.items table.slots st.hash.bits chains)
    (hnodup : ((contents st.hash.bits chains).map Entry.addr).Nodup) {i : ℕ}
    (hi : i < 2 ^ st.hash.bits) (hsplit : chains i = first ++ e :: second)
    (hnode : st.items e.addr = some node) :
    ∃ slots items,
      writeLocation (locationAfter (.slot i) first) node.ptr st =
        .ok (st.withTable table slots items) ∧
      TableHolds items slots st.hash.bits
        (Function.update chains i (first ++ second)) ∧
      items e.addr = some node := by
  obtain ⟨slot, hslot, hchain⟩ := hholds.slot hi
  have hplaced := hholds.placed i hi
  rw [hsplit] at hchain hplaced
  have hplacedRest : ∀ other ∈ first ++ second,
      reduceIndex other.hash st.hash.bits = i := by
    intro other hother
    rcases List.mem_append.mp hother with hbefore | hafter
    · exact hplaced other (by simp [hbefore])
    · exact hplaced other (by simp [hafter])
  rcases List.eq_nil_or_concat first with rfl | ⟨front, prev, hfirst⟩
  · have hrest : itemLayout.IsChain st.items node.ptr second :=
      hchain.rest hnode
    have hlength : i < table.slots.length := by rwa [hholds.size]
    refine ⟨table.slots.set i node.ptr, st.items, ?_, ?_, hnode⟩
    · rw [locationAfter, List.getLast?_nil]
      dsimp only
      rw [writeLocation, writeSlot_eq htable hlength]
      rfl
    · apply hholds.update List.length_set
      · exact List.getElem?_set_self hlength
      · intro j hj
        exact List.getElem?_set_ne (Ne.symm hj)
      · intro _ _ _ _ _
        rfl
      · exact hrest
      · exact hplacedRest
  · rw [List.concat_eq_append] at hfirst
    subst hfirst
    have hprev : prev ∈ chains i := by
      rw [hsplit]
      simp
    have hwhole : itemLayout.IsChain st.items slot
        (front ++ prev :: e :: second) := by simpa using hchain
    obtain ⟨found, hfound, hview⟩ : ∃ found,
        st.items prev.addr = some found ∧ entryOf prev.addr found = prev :=
      hwhole.node_of_mem (by simp)
    have hne : e.addr ≠ prev.addr := by
      intro heq
      exact hwhole.not_mem_split.2 (by simp [← heq, itemLayout])
    have hunlinked : itemLayout.IsChain
        (store st.items prev.addr { found with ptr := node.ptr }) slot
        (front ++ prev :: second) := hwhole.unlink hnode rfl hview
    refine ⟨table.slots,
      store st.items prev.addr { found with ptr := node.ptr }, ?_, ?_, ?_⟩
    · rw [locationAfter, List.getLast?_concat]
      dsimp only
      rw [writeLocation, load_of_eq hfound, ok_bind,
        HashState.withTable_slots htable]
      rfl
    · apply hholds.update rfl hslot (fun j _ => rfl)
      · intro j hj hji other hother
        exact store_of_ne _ _ (other_chain hnodup hi hj hji hprev hother)
      · simpa using hunlinked
      · exact hplacedRest
    · rw [store_of_ne _ _ hne, hnode]

/-- `item_free` on an item with this key and value. -/
def Ledger.freeItem (calls : Callbacks) (key val : Ptr) (ledger : Ledger) :
    Ledger :=
  (ledger.freeKey calls.keyFree key).freeVal calls.valFree val

theorem itemFree_eq (st : HashState) {a : Addr}
    (hcalls : st.hash.toCallbacks = calls)
    (hnode : st.items a = some node) :
    itemFree a st = .ok { st with
      items := store st.items a ⟨none, node.hash, 0, 0⟩
      ledger := st.ledger.freeItem calls node.key node.val } := by
  rw [itemFree, load_of_eq hnode, ok_bind, ← hcalls]
  rfl

theorem removedVal_eq {a : Addr} (hcalls : st.hash.toCallbacks = calls)
    (hnode : st.items a = some node) :
    removedVal (some a) st = .ok (node.val, { st with
      items := store (store st.items a { node with val := 0 }) a
        ⟨none, node.hash, 0, 0⟩
      ledger := st.ledger.freeItem calls node.key 0 }) := by
  let blanked : HashState :=
    { st with items := store st.items a { node with val := 0 } }
  have hblank : blanked.items a = some { node with val := 0 } :=
    store_same _ _ _
  have hfree : itemFree a blanked = .ok { blanked with
      items := store blanked.items a ⟨none, node.hash, 0, 0⟩
      ledger := st.ledger.freeItem calls node.key 0 } :=
    itemFree_eq blanked hcalls hblank
  rw [removedVal, load_of_eq hnode, ok_bind]
  change (itemFree a blanked >>= _) = _
  rw [hfree, ok_bind]
  rfl

theorem HashLinked.fewer (h : HashLinked calls st entries)
    {fewer : Multiset Entry} (hle : fewer ≤ entries) (after : HashState)
    (hhash : after.hash = { st.hash with table := some table })
    (hworld : after.world = st.world)
    (hholds : TableHolds after.items table.slots st.hash.bits chains)
    (hcontents : contents st.hash.bits chains = fewer) :
    HashLinked calls after fewer := by
  apply HashLinked.of_chains h.callbacks hhash hholds hcontents
  · exact Multiset.nodup_of_le (Multiset.map_le_map hle) h.nodup
  · intro e he
    rw [hworld]
    exact h.live e (Multiset.mem_of_le hle he)
  · intro e he
    exact h.hashed e (Multiset.mem_of_le hle he)
  · exact h.bits_le
  · exact h.bits_of_zero
  · exact h.count_le
  · exact h.size_le

inductive RemoveOutcome (calls : Callbacks) (st : HashState)
    (entries : Multiset Entry) (key : Ptr) : Ptr → HashState → Prop where
  | removed (e : Entry) (after : HashState) (hmem : e ∈ entries)
      (hfinds : calls.finds key e = true)
      (hinv : HashInv calls after (entries.erase e))
      (hallocated : after.hash.table ≠ none)
      (hcount : after.hash.count = st.hash.count)
      (hledger : after.ledger = st.ledger.freeItem calls e.key 0)
      (hworld : after.world = st.world) :
      RemoveOutcome calls st entries key e.val after
  | absent (hnone : ∀ e ∈ entries, calls.finds key e = false) :
      RemoveOutcome calls st entries key 0 st

theorem aHashRemove_cases (h : HashLinked calls st entries)
    (hallocated : st.hash.table ≠ none) (key : Ptr) :
    (∃ e ∈ entries, ∃ after, calls.finds key e = true ∧
      aHashRemove key st = .ok (e.val, after) ∧
      HashLinked calls after (entries.erase e) ∧
      after.hash.table ≠ none ∧ after.hash.count = st.hash.count ∧
      after.ledger = st.ledger.freeItem calls e.key 0 ∧
      after.world = st.world) ∨
    ((∀ e ∈ entries, calls.finds key e = false) ∧
      aHashRemove key st = .ok (0, st)) := by
  obtain ⟨table, htable⟩ := Option.ne_none_iff_exists'.mp hallocated
  obtain ⟨chains, hholds, hcontents⟩ := h.holds.of_some htable
  obtain ⟨r, slot, hreaches⟩ :=
    hholds.reaches htable h.bits_le (st.hash.hashFunc key)
  have hlt := hreaches.lt
  have hchain := hreaches.linked
  have hfuel := h.length_lt_fuel hholds hcontents _ hlt
  have hremove : ∀ {item unlinked},
      itemListRemove (st.hash.hashFunc key) key st.hash.equalFunc st.fuel
        (.slot (reduceIndex (st.hash.hashFunc key) st.hash.bits)) slot st =
          .ok (item, unlinked) →
      aHashRemove key st = removedVal item unlinked := by
    intro item unlinked hrun
    simp only [aHashRemove, hreaches.reduce, hreaches.allocated, hreaches.index,
      hreaches.read, hrun, ok_bind]
  have hcalls := h.matching_eq key
  rcases hholds.find_cases h.bits_le st.hash.equalFunc
      (st.hash.hashFunc key) key with
    ⟨hnone, hall⟩ | ⟨e, first, second, hsplit, hmatch, hfirst, hmem⟩
  · right
    refine ⟨?_, ?_⟩
    · rw [hcalls, hcontents] at hall
      exact hall
    · apply (hremove (itemListRemove_absent hchain ?_ hfuel)).trans rfl
      intro e he
      exact hall e (mem_contents.mpr ⟨_, hlt, he⟩)
  · obtain ⟨node, hnode, _, hkey, hval⟩ := hholds.node hmem
    rw [hsplit] at hchain hfuel
    have hfuelFirst : first.length < st.fuel := by
      apply lt_of_le_of_lt _ hfuel
      simp
    have hnodup : ((contents st.hash.bits chains).map Entry.addr).Nodup := by
      rw [hcontents]
      exact h.nodup
    obtain ⟨slots, items, hwrite, hunlinked, hkept⟩ :=
      unlink_spec htable hholds hnodup hlt hsplit hnode
    have herase := contents_split hlt hsplit
    rw [hcontents] at herase hmem
    let after : HashState := { st.withTable table slots items with
      items := store (store items e.addr { node with val := 0 }) e.addr
        ⟨none, node.hash, 0, 0⟩
      ledger := st.ledger.freeItem calls e.key 0 }
    have hvalue : removedVal (some e.addr) (st.withTable table slots items) =
        .ok (e.val, after) := by
      rw [← hval]
      simp only [after, ← hkey]
      exact removedVal_eq h.callbacks hkept
    have hfinds : calls.finds key e = true := by rwa [hcalls] at hmatch
    refine Or.inl ⟨e, hmem, after, hfinds, ?_, ?_, Option.some_ne_none _, rfl,
      rfl, rfl⟩
    · rw [← hvalue]
      apply hremove
      rw [itemListRemove_found hchain hfirst hmatch hnode hfuelFirst, hwrite]
      exact ok_bind _ _
    · apply h.fewer (Multiset.erase_le e entries) after rfl rfl _ herase
      apply hunlinked.congr
      intro other hother
      have hne : other.addr ≠ e.addr := by
        rw [herase] at hother
        exact addr_ne_of_nodup h.nodup hmem hother
      simp [after, store_of_ne, hne]

theorem aHashRemove_spec (h : HashInv calls st entries)
    (hallocated : st.hash.table ≠ none) (key : Ptr) :
    ∃ val after, aHashRemove key st = .ok (val, after) ∧
      RemoveOutcome calls st entries key val after := by
  rcases aHashRemove_cases h.linked hallocated key with
    ⟨e, hmem, after, hfinds, hremove, hlinked, htable, hcount, hledger,
      hworld⟩ | ⟨hnone, hremove⟩
  · have hcard : (entries.erase e).card ≤ after.hash.count := by
      rw [hcount]
      exact (Multiset.card_le_card (Multiset.erase_le e entries)).trans
        h.card_le
    have hinv : HashInv calls after (entries.erase e) :=
      .of_linked hlinked (h.apart.of_le (Multiset.erase_le e entries)) hcard
    exact ⟨e.val, after, hremove,
      .removed e after hmem hfinds hinv htable hcount hledger hworld⟩
  · exact ⟨0, st, hremove, .absent hnone⟩

end Remove

section Clean

/-- `item_free` on each of these items, in order. -/
def Ledger.freeAll (calls : Callbacks) (order : List Entry)
    (ledger : Ledger) : Ledger :=
  order.foldl (fun ledger e => ledger.freeItem calls e.key e.val) ledger

theorem listFree_spec (hcalls : st.hash.toCallbacks = calls)
    {head : Option Addr} {chain : List Entry} {fuel : ℕ}
    (hchain : itemLayout.IsChain st.items head chain)
    (hfuel : chain.length < fuel) :
    ∃ items,
      listFree fuel head st = .ok { st with
        items := items
        ledger := st.ledger.freeAll calls chain } ∧
      ∀ a, (∀ e ∈ chain, e.addr ≠ a) → items a = st.items a := by
  induction chain generalizing st head fuel with
  | nil =>
      cases fuel with
      | zero => cases hfuel
      | succ fuel =>
          rw [NodeLayout.isChain_nil] at hchain
          rw [hchain]
          exact ⟨st.items, rfl, fun _ _ => rfl⟩
  | cons e rest ih =>
      cases fuel with
      | zero => cases hfuel
      | succ fuel =>
          have hnodup := hchain.nodup
          obtain ⟨hhead, node, hnode, hview, hrest⟩ :
              head = some e.addr ∧ ∃ node, st.items e.addr = some node ∧
                entryOf e.addr node = e ∧
                itemLayout.IsChain st.items node.ptr rest := hchain
          have hfree := itemFree_eq st hcalls hnode
          have hkey : node.key = e.key := by
            rw [← hview]
            rfl
          have hval : node.val = e.val := by
            rw [← hview]
            rfl
          rw [hkey, hval] at hfree
          let freed : HashState := { st with
            items := store st.items e.addr ⟨none, node.hash, 0, 0⟩
            ledger := st.ledger.freeItem calls e.key e.val }
          have hrest' : itemLayout.IsChain freed.items node.ptr rest :=
            hrest.update (List.nodup_cons.mp hnodup).1
          obtain ⟨items, hlist, hframe⟩ :=
            @ih freed hcalls _ _ hrest' (Nat.lt_of_succ_lt_succ hfuel)
          refine ⟨items, ?_, ?_⟩
          · rw [hhead, listFree, load_of_eq hnode, ok_bind, hfree, ok_bind]
            exact hlist
          · intro a ha
            have hlater := hframe a fun other hother =>
              ha other (List.mem_cons_of_mem e hother)
            exact hlater.trans
              (store_of_ne st.items _ (Ne.symm (ha e (by simp))))

theorem listsFree_spec (hcalls : st.hash.toCallbacks = calls)
    {lists : List (Option Addr)} {chains : List (List Entry)}
    (hlists : List.Forall₂ (itemLayout.IsChain st.items) lists chains)
    (hnodup : (chains.flatten.map Entry.addr).Nodup)
    (hlive : ∀ e ∈ chains.flatten, e.addr < st.world.requests) :
    ∃ items, listsFree lists st = .ok { st with
      items := items
      ledger := st.ledger.freeAll calls chains.flatten } := by
  induction chains generalizing st lists with
  | nil =>
      cases hlists
      exact ⟨st.items, rfl⟩
  | cons first rest ih =>
      cases hlists with
      | @cons head _ lists _ hfirst hrest =>
      rw [List.flatten_cons, List.map_append, List.nodup_append] at hnodup
      rw [List.flatten_cons] at hlive
      have hlength : first.length < st.fuel := by
        apply Nat.lt_succ_of_le
        apply hfirst.length_le
        intro e he
        exact hlive e (by simp [he])
      obtain ⟨items, hfree, hframe⟩ := listFree_spec hcalls hfirst hlength
      let freed : HashState := { st with
        items := items
        ledger := st.ledger.freeAll calls first }
      have hrest' : List.Forall₂ (itemLayout.IsChain freed.items)
          lists rest := by
        apply NodeLayout.isChains_congr hrest
        intro other hother
        apply hframe
        intro e he
        exact hnodup.2.2 _ (List.mem_map_of_mem he) _
          (List.mem_map_of_mem hother)
      obtain ⟨items', hlater⟩ := @ih freed hcalls _ hrest' hnodup.2.1
        (fun e he => hlive e (List.mem_append_right _ he))
      refine ⟨items', ?_⟩
      rw [listsFree, hfree, ok_bind, List.flatten_cons]
      simp only [Ledger.freeAll, List.foldl_append] at hlater ⊢
      exact hlater

/-- What `a_hash_clean` leaves behind: an empty table, after freeing every
entry. -/
structure Cleaned (calls : Callbacks) (st : HashState)
    (entries : Multiset Entry) (after : HashState) : Prop where
  inv : HashInv calls after 0
  ledger_eq : ∃ order : List Entry, (order : Multiset Entry) = entries ∧
    after.ledger = st.ledger.freeAll calls order
  hash_eq : after.hash = aHashInit calls
  requests_eq : after.world.requests = st.world.requests

/-- The table, if there is one, goes back to the allocator. -/
def releaseTable (table : Option PointerArray) (w : World) : World :=
  table.elim w fun table => freeTable table w

theorem aHashClean_eq (h : HashLinked calls st entries) :
    ∃ (order : List Entry) (items : Addr → Option AHashItem),
      (order : Multiset Entry) = entries ∧
      aHashClean st = .ok {
        hash := aHashInit calls
        items := items
        ledger := st.ledger.freeAll calls order
        world := releaseTable st.hash.table st.world } := by
  have hempty : { st.hash with table := none, bits := 0, count := 0 } =
      aHashInit calls := by
    rw [aHashInit, ← h.callbacks]
  rw [← hempty]
  cases htable : st.hash.table with
  | none =>
      refine ⟨[], st.items, (h.holds.of_none htable).symm, ?_⟩
      have hsame : { st.hash with table := none, bits := 0, count := 0 } =
          { st.hash with bits := 0, count := 0 } := by
        rw [← htable]
      rw [hsame, aHashClean, cleanTable, htable]
      rfl
  | some table =>
      obtain ⟨chains, hholds, hcontents⟩ := h.holds.of_some htable
      have hflatten := contents_eq_flatten st.hash.bits chains
      rw [hcontents] at hflatten
      have hnodup := h.nodup
      have hlive := h.live
      rw [hflatten] at hnodup hlive
      obtain ⟨items, hfree⟩ :=
        listsFree_spec h.callbacks hholds.isChains hnodup hlive
      have hsize : bits2size st.hash.bits = .ok (2 ^ st.hash.bits) := by
        rw [bits2size, if_pos h.bits_le]
      have hslots : readSlots table (2 ^ st.hash.bits) =
          .ok table.slots := by
        rw [readSlots, if_pos (le_of_eq hholds.size.symm), ← hholds.size,
          List.take_length]
      refine ⟨_, items, hflatten.symm, ?_⟩
      rw [aHashClean, cleanTable, htable]
      dsimp only
      rw [hsize, ok_bind, hslots, ok_bind, hfree]
      rfl

theorem aHashClean_spec (h : HashInv calls st entries) :
    ∃ after, aHashClean st = .ok after ∧ Cleaned calls st entries after := by
  obtain ⟨order, items, horder, hclean⟩ := aHashClean_eq h.linked
  refine ⟨_, hclean, .init calls items _ _, ⟨order, horder, rfl⟩, rfl, ?_⟩
  cases htable : st.hash.table with
  | none => rfl
  | some table => rfl

end Clean

end Hash
end Alib
