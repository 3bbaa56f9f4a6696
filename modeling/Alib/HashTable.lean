import Alib.Hash
import Alib.NodeChain

/-!
# What a hash table holds

An allocated table is described by its chains: the entries met from each
slot.  The entries of a table form a multiset, so the order within a chain and
the slot an entry lies in are left behind here; one lemma for each function of
`hash.c` says what the function does to the entries.
-/

namespace Alib
namespace Hash

section Reduce

theorem mask_and_lt (val : BitVec 32) (bits : ℕ) :
    (val &&& ~~~(BitVec.allOnes 32 <<< bits)).toNat < 2 ^ bits := by
  apply Nat.lt_pow_two_of_testBit
  intro i hi
  rw [BitVec.testBit_toNat]
  have hlt : ¬ i < bits := Nat.not_lt.mpr hi
  simp only [BitVec.getLsbD_and, BitVec.getLsbD_not,
    BitVec.getLsbD_shiftLeft, BitVec.getLsbD_allOnes, hlt, decide_false,
    Bool.not_false, Bool.and_true]
  by_cases hwidth : i < 32
  · have hdiff : i - bits < 32 := lt_of_le_of_lt (Nat.sub_le i bits) hwidth
    simp [hwidth, hdiff]
  · simp [hwidth]

/-- The folding loop ends when the fuel exceeds the number of bits left. -/
theorem hashReduceLoop_ok {bits : ℕ} (hbits : bits ≠ 0) {n fuel : ℕ}
    {val ret : BitVec 32} (hval : val.toNat < 2 ^ n) (hfuel : n < fuel)
    (hret : ret.toNat < 2 ^ bits) :
    ∃ r, hashReduceLoop (~~~(BitVec.allOnes 32 <<< bits)) bits fuel val ret =
        .ok r ∧ r.toNat < 2 ^ bits := by
  induction fuel generalizing n val ret with
  | zero => exact absurd hfuel (Nat.not_lt_zero n)
  | succ fuel ih =>
      by_cases hzero : val = 0
      · exact ⟨ret, by simp [hashReduceLoop, hzero], hret⟩
      · have hpos : 0 < val.toNat := by
          rw [Nat.pos_iff_ne_zero]
          intro h
          exact hzero (BitVec.eq_of_toNat_eq (by simpa using h))
        cases n with
        | zero =>
            have : val.toNat < 1 := by simpa using hval
            omega
        | succ n =>
            have hshift : (val >>> bits).toNat < 2 ^ n := by
              rw [BitVec.toNat_ushiftRight, Nat.shiftRight_eq_div_pow]
              apply Nat.div_lt_of_lt_mul
              calc val.toNat < 2 ^ (n + 1) := hval
                _ = 2 ^ 1 * 2 ^ n := by rw [pow_succ, pow_one, Nat.mul_comm]
                _ ≤ 2 ^ bits * 2 ^ n :=
                    Nat.mul_le_mul_right _ (Nat.pow_le_pow_right (by decide)
                      (Nat.one_le_iff_ne_zero.mpr hbits))
            have hxor : (ret ^^^ (val &&&
                ~~~(BitVec.allOnes 32 <<< bits))).toNat < 2 ^ bits := by
              rw [BitVec.toNat_xor]
              exact Nat.xor_lt_two_pow hret (mask_and_lt val bits)
            obtain ⟨r, hr, hlt⟩ :=
              ih hshift (Nat.lt_of_succ_lt_succ hfuel) hxor
            refine ⟨r, ?_, hlt⟩
            rw [hashReduceLoop, if_neg hzero, hr]

/-- The chain a hash value belongs to. -/
def reduceIndex (hash : BitVec 32) (bits : ℕ) : ℕ :=
  match hashReduce hash bits with
  | .ok r => r.toNat
  | .error _ => 0

theorem hashReduce_eq {bits : ℕ} (hbits : bits ≤ 30) (val : BitVec 32) :
    ∃ r, hashReduce val bits = .ok r ∧ r.toNat = reduceIndex val bits ∧
      reduceIndex val bits < 2 ^ bits := by
  obtain ⟨r, hr, hlt⟩ : ∃ r, hashReduce val bits = .ok r ∧
      r.toNat < 2 ^ bits := by
    have hwidth : ¬ 32 ≤ bits := by omega
    by_cases hzero : bits = 0
    · refine ⟨0, ?_, by simp⟩
      rw [hashReduce, if_neg hwidth, if_pos hzero]
    · have hend : 32 < 33 := by decide
      obtain ⟨r, hr, hlt⟩ := hashReduceLoop_ok hzero val.isLt hend
        (show (0 : BitVec 32).toNat < 2 ^ bits by simp)
      refine ⟨r, ?_, hlt⟩
      rw [hashReduce, if_neg hwidth, if_neg hzero, hr]
  have hindex : r.toNat = reduceIndex val bits := by
    simp [reduceIndex, hr]
  exact ⟨r, hr, hindex, hindex ▸ hlt⟩

end Reduce

/-- An item without its link. -/
structure Entry where
  addr : Addr
  hash : BitVec 32
  key : Ptr
  val : Ptr
  deriving DecidableEq

def entryOf (a : Addr) (item : AHashItem) : Entry :=
  ⟨a, item.hash, item.key, item.val⟩

def itemLayout : NodeLayout Addr AHashItem Entry where
  link := AHashItem.ptr
  view := entryOf
  addr := Entry.addr
  addr_view := fun _ _ => rfl

abbrev Chains := ℕ → List Entry

/-- The entries of the first `2 ^ bits` chains together. -/
def contents (bits : ℕ) (chains : Chains) : Multiset Entry :=
  ∑ i ∈ Finset.range (2 ^ bits), (chains i : Multiset Entry)

/-- The test of `item_list_find`. -/
def matching (equal : Ptr → Ptr → Bool) (hash : BitVec 32) (key : Ptr)
    (e : Entry) : Bool :=
  decide (e.hash = hash) && equal e.key key

structure TableHolds (items : Addr → Option AHashItem)
    (slots : List (Option Addr)) (bits : ℕ) (chains : Chains) : Prop where
  size : slots.length = 2 ^ bits
  chain : ∀ i slot, slots[i]? = some slot →
    itemLayout.IsChain items slot (chains i)
  placed : ∀ i < 2 ^ bits, ∀ e ∈ chains i, reduceIndex e.hash bits = i

/-- The entries lie at different addresses, and no entry is found under the
hash and key of another one. -/
structure Apart (equal : Ptr → Ptr → Bool) (entries : Multiset Entry) :
    Prop where
  nodup : (entries.map Entry.addr).Nodup
  unequal : ∀ e ∈ entries, ∀ other ∈ entries, e.addr ≠ other.addr →
    matching equal other.hash other.key e = false

section Contents

variable {bits : ℕ} {chains : Chains} {e : Entry}

theorem mem_contents :
    e ∈ contents bits chains ↔ ∃ i < 2 ^ bits, e ∈ chains i := by
  simp [contents, Multiset.mem_sum]

theorem contents_update (chains : Chains) {i : ℕ} (hi : i < 2 ^ bits) (chain : List Entry) :
    contents bits (Function.update chains i chain) + chains i =
      chain + contents bits chains := by
  have hmem : i ∈ Finset.range (2 ^ bits) := Finset.mem_range.mpr hi
  have hrest : ∑ j ∈ (Finset.range (2 ^ bits)).erase i,
        (Function.update chains i chain j : Multiset Entry) =
      ∑ j ∈ (Finset.range (2 ^ bits)).erase i, (chains j : Multiset Entry) := by
    apply Finset.sum_congr rfl
    intro j hj
    rw [Function.update_of_ne (Finset.ne_of_mem_erase hj)]
  unfold contents
  rw [← Finset.add_sum_erase _ _ hmem, hrest, Function.update_self,
    ← Finset.add_sum_erase _ (fun j => (chains j : Multiset Entry)) hmem,
    add_assoc, add_comm (chains i : Multiset Entry)]

theorem contents_cons {i : ℕ} (hi : i < 2 ^ bits) :
    contents bits (Function.update chains i (e :: chains i)) =
      e ::ₘ contents bits chains := by
  have h := contents_update chains hi (e :: chains i)
  rw [← Multiset.cons_coe, Multiset.cons_add,
    add_comm (chains i : Multiset Entry), ← Multiset.cons_add] at h
  exact add_right_cancel h

theorem contents_split {i : ℕ} (hi : i < 2 ^ bits)
    {first second : List Entry} (hchain : chains i = first ++ e :: second) :
    contents bits (Function.update chains i (first ++ second)) =
      (contents bits chains).erase e := by
  have h := contents_update chains hi (first ++ second)
  have hperm : (chains i : Multiset Entry) =
      e ::ₘ ((first ++ second : List Entry) : Multiset Entry) := by
    rw [hchain, Multiset.cons_coe, Multiset.coe_eq_coe]
    exact List.perm_middle
  rw [hperm, Multiset.add_cons, add_comm _ (contents bits chains),
    ← Multiset.cons_add] at h
  rw [← add_right_cancel h, Multiset.erase_cons_head]

theorem contents_replace {i : ℕ} (hi : i < 2 ^ bits) {e' : Entry}
    {first second : List Entry} (hchain : chains i = first ++ e :: second) :
    contents bits (Function.update chains i (first ++ e' :: second)) =
      e' ::ₘ (contents bits chains).erase e := by
  have hlist : Function.update chains i (first ++ e' :: second) =
      Function.update (Function.update chains i (first ++ second)) i
        (first ++ e' :: second) := by
    rw [Function.update_idem]
  have h := contents_update (Function.update chains i (first ++ second)) hi
    (first ++ e' :: second)
  have hperm : ((first ++ e' :: second : List Entry) : Multiset Entry) =
      e' ::ₘ ((first ++ second : List Entry) : Multiset Entry) := by
    rw [Multiset.cons_coe, Multiset.coe_eq_coe]
    exact List.perm_middle
  rw [← hlist, Function.update_self, contents_split hi hchain, hperm,
    Multiset.cons_add, add_comm _ (Multiset.erase _ e),
    ← Multiset.cons_add] at h
  exact add_right_cancel h

theorem contents_empty : contents bits (fun _ => []) = 0 := by
  simp [contents]

end Contents

section Apart

variable {equal : Ptr → Ptr → Bool} {entries : Multiset Entry} {e : Entry}

theorem matching_comm (hsymm : ∀ a b, equal a b = true → equal b a = true)
    (e other : Entry) :
    matching equal other.hash other.key e =
      matching equal e.hash e.key other := by
  have hequal : equal e.key other.key = equal other.key e.key := by
    rw [Bool.eq_iff_iff]
    exact ⟨hsymm _ _, hsymm _ _⟩
  unfold matching
  rw [hequal, Bool.decide_congr eq_comm]

theorem Apart.zero : Apart equal 0 := ⟨by simp, by simp⟩

theorem Apart.of_le {fewer : Multiset Entry} (h : Apart equal entries)
    (hle : fewer ≤ entries) : Apart equal fewer := by
  constructor
  · exact Multiset.nodup_of_le (Multiset.map_le_map hle) h.nodup
  · intro e he other hother
    exact h.unequal e (Multiset.mem_of_le hle he) other
      (Multiset.mem_of_le hle hother)

theorem Apart.cons (hsymm : ∀ a b, equal a b = true → equal b a = true)
    (h : Apart equal entries)
    (haddr : ∀ other ∈ entries, other.addr ≠ e.addr)
    (hnone : ∀ other ∈ entries, matching equal e.hash e.key other = false) :
    Apart equal (e ::ₘ entries) := by
  constructor
  · rw [Multiset.map_cons, Multiset.nodup_cons]
    refine ⟨?_, h.nodup⟩
    intro hmem
    obtain ⟨other, hother, heq⟩ := Multiset.mem_map.mp hmem
    exact haddr other hother heq
  · intro a ha b hb hne
    rcases Multiset.mem_cons.mp ha with rfl | hold
    · rcases Multiset.mem_cons.mp hb with rfl | holdB
      · exact absurd rfl hne
      · rw [matching_comm hsymm]
        exact hnone b holdB
    · rcases Multiset.mem_cons.mp hb with rfl | holdB
      · exact hnone a hold
      · exact h.unequal a hold b holdB hne

theorem addr_ne_of_nodup (h : (entries.map Entry.addr).Nodup)
    (he : e ∈ entries) {other : Entry} (hother : other ∈ entries.erase e) :
    other.addr ≠ e.addr := by
  intro heq
  rw [← Multiset.cons_erase he, Multiset.map_cons, Multiset.nodup_cons] at h
  exact h.1 (Multiset.mem_map.mpr ⟨other, hother, heq⟩)

theorem Apart.addr_ne (h : Apart equal entries) (he : e ∈ entries)
    {other : Entry} (hother : other ∈ entries.erase e) :
    other.addr ≠ e.addr := addr_ne_of_nodup h.nodup he hother

theorem Apart.head (h : Apart equal (e ::ₘ entries)) {other : Entry}
    (hother : other ∈ entries) :
    other.addr ≠ e.addr ∧ matching equal e.hash e.key other = false := by
  have hself := Multiset.mem_cons_self e entries
  have haddr : other.addr ≠ e.addr := by
    apply h.addr_ne hself
    rwa [Multiset.erase_cons_head]
  exact ⟨haddr, h.unequal other (Multiset.mem_cons_of_mem hother) e hself
    haddr⟩

theorem add_addr_ne {more : Multiset Entry}
    (h : ((entries + more).map Entry.addr).Nodup) (he : e ∈ entries)
    {other : Entry} (hother : other ∈ more) : e.addr ≠ other.addr := by
  rw [Multiset.map_add, Multiset.nodup_add] at h
  intro heq
  exact Multiset.disjoint_left.mp h.2.2
    (Multiset.mem_map_of_mem Entry.addr he)
    (heq ▸ Multiset.mem_map_of_mem Entry.addr hother)

theorem Apart.replaceVal (h : Apart equal entries) (he : e ∈ entries)
    (val : Ptr) : Apart equal ({ e with val := val } ::ₘ entries.erase e) := by
  constructor
  · have hnodup := h.nodup
    rw [← Multiset.cons_erase he, Multiset.map_cons] at hnodup
    simpa using hnodup
  · have hold : ∀ a ∈ ({ e with val := val } : Entry) ::ₘ entries.erase e,
        ∃ b ∈ entries, b.addr = a.addr ∧ b.hash = a.hash ∧ b.key = a.key := by
      intro a ha
      rcases Multiset.mem_cons.mp ha with rfl | ha
      · exact ⟨e, he, rfl, rfl, rfl⟩
      · exact ⟨a, Multiset.mem_of_mem_erase ha, rfl, rfl, rfl⟩
    intro a ha b hb hne
    obtain ⟨a', ha', haddr, hhash, hkey⟩ := hold a ha
    obtain ⟨b', hb', haddrB, hhashB, hkeyB⟩ := hold b hb
    have hunequal := h.unequal a' ha' b' hb' (by rwa [haddr, haddrB])
    simpa [matching, hhash, hkey, hhashB, hkeyB] using hunequal

end Apart

section Chains

variable {items items' : Addr → Option AHashItem}
  {slots slots' : List (Option Addr)} {bits : ℕ} {chains : Chains}
  {equal : Ptr → Ptr → Bool}

theorem TableHolds.slot (h : TableHolds items slots bits chains) {i : ℕ}
    (hi : i < 2 ^ bits) :
    ∃ slot, slots[i]? = some slot ∧
      itemLayout.IsChain items slot (chains i) := by
  have hlength : i < slots.length := by rwa [h.size]
  exact ⟨slots[i], List.getElem?_eq_getElem hlength,
    h.chain i _ (List.getElem?_eq_getElem hlength)⟩

theorem TableHolds.update (h : TableHolds items slots bits chains) {i : ℕ}
    {slot : Option Addr} {chain : List Entry}
    (hsize : slots'.length = slots.length)
    (hslot : slots'[i]? = some slot)
    (hslots : ∀ j, j ≠ i → slots'[j]? = slots[j]?)
    (hitems : ∀ j < 2 ^ bits, j ≠ i → ∀ e ∈ chains j,
      items' e.addr = items e.addr)
    (hchain : itemLayout.IsChain items' slot chain)
    (hplaced : ∀ e ∈ chain, reduceIndex e.hash bits = i) :
    TableHolds items' slots' bits (Function.update chains i chain) := by
  constructor
  · rw [hsize, h.size]
  · intro j other hother
    by_cases hj : j = i
    · subst hj
      rw [hslot] at hother
      cases hother
      rw [Function.update_self]
      exact hchain
    · rw [hslots j hj] at hother
      rw [Function.update_of_ne hj]
      have hlt : j < 2 ^ bits := by
        rw [← h.size]
        exact (List.getElem?_eq_some_iff.mp hother).1
      exact (h.chain j other hother).congr (hitems j hlt hj)
  · intro j hj e he
    by_cases hji : j = i
    · subst hji
      rw [Function.update_self] at he
      exact hplaced e he
    · rw [Function.update_of_ne hji] at he
      exact h.placed j hj e he

theorem TableHolds.node (h : TableHolds items slots bits chains) {e : Entry}
    (he : e ∈ contents bits chains) :
    ∃ node, items e.addr = some node ∧
      node.hash = e.hash ∧ node.key = e.key ∧ node.val = e.val := by
  obtain ⟨i, hi, hmem⟩ := mem_contents.mp he
  obtain ⟨slot, _, hchain⟩ := h.slot hi
  obtain ⟨node, hnode, hview⟩ := hchain.node_of_mem hmem
  refine ⟨node, hnode, ?_⟩
  rw [← hview]
  exact ⟨rfl, rfl, rfl⟩

theorem other_chain (h : ((contents bits chains).map Entry.addr).Nodup)
    {i j : ℕ} (hi : i < 2 ^ bits) (hj : j < 2 ^ bits) (hne : j ≠ i)
    {e other : Entry} (he : e ∈ chains i) (hother : other ∈ chains j) :
    other.addr ≠ e.addr := by
  obtain ⟨first, second, hchain⟩ := List.append_of_mem he
  apply addr_ne_of_nodup h (mem_contents.mpr ⟨i, hi, he⟩)
  rw [← contents_split hi hchain]
  apply mem_contents.mpr
  refine ⟨j, hj, ?_⟩
  rwa [Function.update_of_ne hne]

theorem contents_eq_flatten (bits : ℕ) (chains : Chains) :
    contents bits chains =
      (((List.range (2 ^ bits)).map chains).flatten : Multiset Entry) := by
  unfold contents
  induction 2 ^ bits with
  | zero => simp
  | succ n ih =>
      rw [Finset.sum_range_succ, ih, List.range_succ, List.map_append,
        List.flatten_append, ← Multiset.coe_add]
      simp

theorem TableHolds.isChains (h : TableHolds items slots bits chains) :
    List.Forall₂ (itemLayout.IsChain items) slots
      ((List.range (2 ^ bits)).map chains) := by
  rw [List.forall₂_iff_get]
  constructor
  · rw [List.length_map, List.length_range, h.size]
  · intro i hi hrange
    have hchain := h.chain i (slots.get ⟨i, hi⟩) (by simp)
    simpa using hchain

theorem TableHolds.find_cases (h : TableHolds items slots bits chains)
    (hbits : bits ≤ 30) (equal : Ptr → Ptr → Bool) (hash : BitVec 32)
    (key : Ptr) :
    ((chains (reduceIndex hash bits)).find? (matching equal hash key) = none ∧
      ∀ e ∈ contents bits chains, matching equal hash key e = false) ∨
    ∃ e first second,
      chains (reduceIndex hash bits) = first ++ e :: second ∧
        matching equal hash key e = true ∧
        (∀ other ∈ first, matching equal hash key other = false) ∧
        e ∈ contents bits chains := by
  obtain ⟨_, _, _, hlt⟩ := hashReduce_eq hbits hash
  cases hfind : (chains (reduceIndex hash bits)).find?
      (matching equal hash key) with
  | none =>
      left
      refine ⟨rfl, ?_⟩
      intro e he
      obtain ⟨i, hi, hmem⟩ := mem_contents.mp he
      by_contra hmatch
      rw [Bool.not_eq_false] at hmatch
      have hhash : e.hash = hash := by
        simp only [matching, Bool.and_eq_true, decide_eq_true_eq] at hmatch
        exact hmatch.1
      have hindex : reduceIndex hash bits = i := by
        rw [← hhash]
        exact h.placed i hi e hmem
      rw [hindex] at hfind
      exact List.find?_eq_none.mp hfind e hmem hmatch
  | some e =>
      right
      obtain ⟨hmatch, first, second, hchain, hfirst⟩ :=
        List.find?_eq_some_iff_append.mp hfind
      refine ⟨e, first, second, hchain, hmatch, ?_, ?_⟩
      · intro other hother
        simpa using hfirst other hother
      · exact mem_contents.mpr ⟨_, hlt, by simp [hchain]⟩

theorem matching_entryOf (equal : Ptr → Ptr → Bool) (hash : BitVec 32)
    (key : Ptr) (a : Addr) (node : AHashItem) :
    matching equal hash key (entryOf a node) = true ↔
      node.hash = hash ∧ equal node.key key = true := by
  rw [matching, Bool.and_eq_true, decide_eq_true_eq]
  rfl

theorem itemListFind_eq {head : Option Addr} {chain : List Entry} {fuel : ℕ}
    (equal : Ptr → Ptr → Bool) (hash : BitVec 32) (key : Ptr)
    (hchain : itemLayout.IsChain items head chain)
    (hfuel : chain.length < fuel) :
    itemListFind items equal hash key fuel head =
      .ok ((chain.find? (matching equal hash key)).map Entry.addr) := by
  induction chain generalizing head fuel with
  | nil =>
      cases fuel with
      | zero => cases hfuel
      | succ fuel =>
          rw [hchain]
          rfl
  | cons e rest ih =>
      cases fuel with
      | zero => cases hfuel
      | succ fuel =>
          rcases hchain with ⟨hhead, node, hnode, hview, hrest⟩
          rw [hhead, itemListFind, load_of_eq hnode, ok_bind]
          have htest := matching_entryOf equal hash key e.addr node
          rw [show entryOf e.addr node = e from hview] at htest
          by_cases hmatch : matching equal hash key e = true
          · rw [if_pos (htest.mp hmatch), List.find?_cons_of_pos hmatch]
            rfl
          · rw [if_neg (fun h => hmatch (htest.mpr h)),
              List.find?_cons_of_neg hmatch]
            exact ih hrest (Nat.lt_of_succ_lt_succ hfuel)

/-- How a call gets to the chain for a hash value. -/
structure Reaches (st : HashState) (table : PointerArray) (chains : Chains)
    (hash r : BitVec 32) (slot : Option Addr) : Prop where
  reduce : hashReduce hash st.hash.bits = .ok r
  index : r.toNat = reduceIndex hash st.hash.bits
  lt : reduceIndex hash st.hash.bits < 2 ^ st.hash.bits
  allocated : tableOf st.hash = .ok table
  read : readSlot table (reduceIndex hash st.hash.bits) = .ok slot
  stored : table.slots[reduceIndex hash st.hash.bits]? = some slot
  linked : itemLayout.IsChain st.items slot
    (chains (reduceIndex hash st.hash.bits))

theorem TableHolds.reaches {st : HashState} {table : PointerArray}
    (h : TableHolds st.items table.slots st.hash.bits chains)
    (htable : st.hash.table = some table) (hbits : st.hash.bits ≤ 30)
    (hash : BitVec 32) : ∃ r slot, Reaches st table chains hash r slot := by
  obtain ⟨r, hr, hindex, hlt⟩ := hashReduce_eq hbits hash
  obtain ⟨slot, hslot, hchain⟩ := h.slot hlt
  have htableOf : tableOf st.hash = .ok table := by
    simp [tableOf, htable]
  have hread : readSlot table (reduceIndex hash st.hash.bits) = .ok slot := by
    simp [readSlot, hslot]
  exact ⟨r, slot, hr, hindex, hlt, htableOf, hread, hslot, hchain⟩

end Chains

end Hash
end Alib
