import Alib.HashTable
import Alib.Ownership

/-!
# Adding an item and rehashing

What `add_item` does to the entries of a table: a key without an equal one
gets a new entry, an equal key keeps its entry and takes the new value.  Items
of the old table never meet an equal key, so `extend` keeps every entry.
-/

namespace Alib
namespace Hash

open Ownership

variable {st : HashState} {table : PointerArray} {chains : Chains}

/-- The state with other slots and items; nothing else is changed by moving
items. -/
def HashState.withTable (st : HashState) (table : PointerArray)
    (slots : List (Option Addr)) (items : Addr → Option AHashItem) :
    HashState :=
  { st with
    hash := { st.hash with table := some { table with slots := slots } }
    items := items }

/-- The same with another ledger, after items were freed. -/
def HashState.reworked (st : HashState) (table : PointerArray)
    (slots : List (Option Addr)) (items : Addr → Option AHashItem)
    (ledger : Ledger) : HashState :=
  { st.withTable table slots items with ledger := ledger }

theorem writeSlot_eq {hash : AHash} {i : ℕ} {p : Option Addr}
    (htable : hash.table = some table) (hi : i < table.slots.length) :
    writeSlot hash i p =
      .ok { hash with
        table := some { table with slots := table.slots.set i p } } := by
  simp [writeSlot, tableOf, htable, hi]

theorem HashState.withTable_slots (htable : st.hash.table = some table)
    (items : Addr → Option AHashItem) :
    st.withTable table table.slots items = { st with items := items } := by
  rcases st with ⟨hash, old, ledger, world⟩
  rcases hash with ⟨calls, found, bits, count⟩
  have hfound : found = some table := htable
  rw [hfound]
  rfl

theorem TableHolds.length_lt_fuel {slots : List (Option Addr)} {bits : ℕ}
    (h : TableHolds st.items slots bits chains)
    (hlive : ∀ e ∈ contents bits chains, e.addr < st.world.requests) :
    ∀ i < 2 ^ bits, (chains i).length < st.fuel := by
  intro i hi
  obtain ⟨slot, _, hchain⟩ := h.slot hi
  apply Nat.lt_succ_of_le
  apply hchain.length_le
  intro e he
  exact hlive e (mem_contents.mpr ⟨i, hi, he⟩)

section AddItem

variable {item : Addr} {node : AHashItem}

theorem addItem_eq (htable : st.hash.table = some table)
    (hbits : st.hash.bits ≤ 30)
    (hholds : TableHolds st.items table.slots st.hash.bits chains)
    (hfuel : ∀ i < 2 ^ st.hash.bits, (chains i).length < st.fuel)
    (hnode : st.items item = some node) :
    ∃ slot,
      table.slots[reduceIndex node.hash st.hash.bits]? = some slot ∧
      itemLayout.IsChain st.items slot
        (chains (reduceIndex node.hash st.hash.bits)) ∧
      addItem item st =
        match ((chains (reduceIndex node.hash st.hash.bits)).find?
          (matching st.hash.equalFunc node.hash node.key)).map Entry.addr with
        | some dup => replaceItem dup item st
        | none =>
            linkItem item (reduceIndex node.hash st.hash.bits) slot st := by
  obtain ⟨r, slot, hreaches⟩ := hholds.reaches htable hbits node.hash
  have hfind := itemListFind_eq st.hash.equalFunc node.hash node.key
    hreaches.linked (hfuel _ hreaches.lt)
  refine ⟨slot, hreaches.stored, hreaches.linked, ?_⟩
  cases hdup : (chains (reduceIndex node.hash st.hash.bits)).find?
      (matching st.hash.equalFunc node.hash node.key) with
  | none =>
      simp [addItem, load_of_eq hnode, hreaches.reduce, hreaches.allocated,
        hreaches.index, hreaches.read, hfind, hdup]
  | some dup =>
      simp [addItem, load_of_eq hnode, hreaches.reduce, hreaches.allocated,
        hreaches.index, hreaches.read, hfind, hdup]

theorem addItem_new (htable : st.hash.table = some table)
    (hbits : st.hash.bits ≤ 30)
    (hholds : TableHolds st.items table.slots st.hash.bits chains)
    (hfuel : ∀ i < 2 ^ st.hash.bits, (chains i).length < st.fuel)
    (hnode : st.items item = some node)
    (hnotMem : ∀ e ∈ contents st.hash.bits chains, e.addr ≠ item)
    (hnone : ∀ e ∈ contents st.hash.bits chains,
      matching st.hash.equalFunc node.hash node.key e = false) :
    ∃ slots items chains',
      addItem item st = .ok (st.withTable table slots items) ∧
      TableHolds items slots st.hash.bits chains' ∧
      contents st.hash.bits chains' =
        entryOf item node ::ₘ contents st.hash.bits chains ∧
      ∀ a ≠ item, items a = st.items a := by
  obtain ⟨_, _, _, hlt⟩ := hashReduce_eq hbits node.hash
  obtain ⟨slot, hslot, hchain, hadd⟩ :=
    addItem_eq htable hbits hholds hfuel hnode
  have hlength : reduceIndex node.hash st.hash.bits < table.slots.length := by
    rwa [hholds.size]
  generalize hi : reduceIndex node.hash st.hash.bits = i at *
  have hfind : (chains i).find?
      (matching st.hash.equalFunc node.hash node.key) = none := by
    rw [List.find?_eq_none]
    intro e he
    rw [hnone e (mem_contents.mpr ⟨i, hlt, he⟩)]
    exact Bool.false_ne_true
  rw [hfind, Option.map_none] at hadd
  have hframe : ∀ a ≠ item,
      store st.items item { node with ptr := slot } a = st.items a := by
    intro a ha
    exact store_of_ne st.items _ ha
  have hkept : ∀ j < 2 ^ st.hash.bits, ∀ e ∈ chains j,
      store st.items item { node with ptr := slot } e.addr =
        st.items e.addr := by
    intro j hj e he
    exact hframe _ (hnotMem e (mem_contents.mpr ⟨j, hj, he⟩))
  refine ⟨table.slots.set i (some item),
    store st.items item { node with ptr := slot },
    Function.update chains i (entryOf item node :: chains i),
    ?_, ?_, contents_cons hlt, hframe⟩
  · rw [hadd, linkItem, load_of_eq hnode, ok_bind,
      writeSlot_eq htable hlength]
    rfl
  · apply hholds.update List.length_set
    · exact List.getElem?_set_self hlength
    · intro j hj
      exact List.getElem?_set_ne (Ne.symm hj)
    · intro j hj _
      exact hkept j hj
    · exact ⟨rfl, { node with ptr := slot }, by simp [entryOf, itemLayout],
        rfl, hchain.congr (hkept i hlt)⟩
    · intro e he
      rcases List.mem_cons.mp he with rfl | hold
      · exact hi
      · exact hholds.placed i hlt e hold

/-- The exchange by exclusive-or exchanges the values, since the two items
are different. -/
theorem swapVals_eq {dup : Addr} {items : Addr → Option AHashItem}
    {found : AHashItem} (hdup : items dup = some found)
    (hnode : items item = some node) (hne : dup ≠ item) :
    swapVals dup item items =
      .ok (store (store items item { node with val := found.val }) dup
        { found with val := node.val }) := by
  have hne' : item ≠ dup := Ne.symm hne
  unfold swapVals
  rw [load_of_eq hdup, ok_bind, load_of_eq hnode, ok_bind]
  set first := store items dup { found with val := found.val ^^^ node.val }
    with hfirst
  have hitem : first item = some node := by
    rw [hfirst, store_of_ne items _ hne', hnode]
  have hfound : first dup =
      some { found with val := found.val ^^^ node.val } := by
    rw [hfirst, store_same]
  dsimp only
  rw [load_of_eq hitem, ok_bind, load_of_eq hfound, ok_bind]
  dsimp only
  rw [xor_second]
  set second := store first item { node with val := found.val } with hsecond
  have hitem' : second item = some { node with val := found.val } := by
    rw [hsecond, store_same]
  have hfound' : second dup =
      some { found with val := found.val ^^^ node.val } := by
    rw [hsecond, store_of_ne first _ hne, hfound]
  rw [load_of_eq hfound', ok_bind, load_of_eq hitem', ok_bind]
  dsimp only
  rw [xor_first, pure_eq_ok, Except.ok.injEq]
  funext a
  by_cases hdupA : a = dup
  · subst hdupA
    simp
  · by_cases hitemA : a = item
    · subst hitemA
      simp [store_of_ne, hne', hsecond]
    · simp [store_of_ne, hdupA, hitemA, hsecond, hfirst]

theorem replaceItem_eq {dup : Addr} {found : AHashItem}
    (hdup : st.items dup = some found) (hnode : st.items item = some node)
    (hne : dup ≠ item) :
    ∃ items,
      replaceItem dup item st = .ok { st with
        items := items
        ledger := (st.ledger.freeKey st.hash.keyFree node.key).freeVal
          st.hash.valFree found.val } ∧
      ∀ a ≠ item, items a =
        store st.items dup { found with val := node.val } a := by
  have hswap := swapVals_eq hdup hnode hne
  set swapped := store (store st.items item { node with val := found.val })
    dup { found with val := node.val } with hswapped
  have hitem : swapped item = some { node with val := found.val } := by
    rw [hswapped, store_of_ne _ _ (Ne.symm hne), store_same]
  refine ⟨store swapped item ⟨none, node.hash, 0, 0⟩, ?_, ?_⟩
  · rw [replaceItem, hswap, ok_bind, itemFree, load_of_eq hitem, ok_bind]
    rfl
  · intro a ha
    by_cases hdupA : a = dup
    · subst hdupA
      simp [store_of_ne, ha, hswapped]
    · simp [store_of_ne, ha, hdupA, hswapped]

theorem mem_of_mem_replaced {first second : List Entry}
    {old new other : Entry} (h : other ∈ first ++ new :: second) :
    other = new ∨ other ∈ first ++ old :: second := by
  simp only [List.mem_append, List.mem_cons] at h ⊢
  tauto

theorem addItem_duplicate (htable : st.hash.table = some table)
    (hbits : st.hash.bits ≤ 30)
    (hholds : TableHolds st.items table.slots st.hash.bits chains)
    (hnodup : ((contents st.hash.bits chains).map Entry.addr).Nodup)
    (hfuel : ∀ i < 2 ^ st.hash.bits, (chains i).length < st.fuel)
    (hnode : st.items item = some node)
    (hnotMem : ∀ e ∈ contents st.hash.bits chains, e.addr ≠ item)
    {e : Entry} {first second : List Entry}
    (hsplit : chains (reduceIndex node.hash st.hash.bits) =
      first ++ e :: second)
    (hmatch : matching st.hash.equalFunc node.hash node.key e = true)
    (hfirst : ∀ other ∈ first,
      matching st.hash.equalFunc node.hash node.key other = false) :
    ∃ items chains',
      addItem item st = .ok { st with
        items := items
        ledger := (st.ledger.freeKey st.hash.keyFree node.key).freeVal
          st.hash.valFree e.val } ∧
      TableHolds items table.slots st.hash.bits chains' ∧
      contents st.hash.bits chains' = { e with val := node.val } ::ₘ
        (contents st.hash.bits chains).erase e ∧
      ∀ a ≠ item, a ≠ e.addr → items a = st.items a := by
  obtain ⟨_, _, _, hlt⟩ := hashReduce_eq hbits node.hash
  obtain ⟨slot, hslot, hchain, hadd⟩ :=
    addItem_eq htable hbits hholds hfuel hnode
  generalize hi : reduceIndex node.hash st.hash.bits = i at *
  have hmem : e ∈ chains i := by
    rw [hsplit]
    simp
  have hfind : (chains i).find?
      (matching st.hash.equalFunc node.hash node.key) = some e := by
    rw [List.find?_eq_some_iff_append]
    refine ⟨hmatch, first, second, hsplit, ?_⟩
    intro other hother
    simp [hfirst other hother]
  rw [hfind, Option.map_some] at hadd
  obtain ⟨found, hfound, hview⟩ : ∃ found, st.items e.addr = some found ∧
      entryOf e.addr found = e := hchain.node_of_mem hmem
  have hdup : e.addr ≠ item := hnotMem e (mem_contents.mpr ⟨i, hlt, hmem⟩)
  obtain ⟨items, hreplace, hframe⟩ := replaceItem_eq hfound hnode hdup
  have hval : found.val = e.val := by
    rw [← hview]
    rfl
  have hentry : entryOf e.addr { found with val := node.val } =
      { e with val := node.val } := by
    rw [← hview]
    rfl
  rw [hval] at hreplace
  rw [hsplit] at hchain
  have hreplaced : itemLayout.IsChain
      (store st.items e.addr { found with val := node.val }) slot
      (first ++ { e with val := node.val } :: second) :=
    hchain.replace hfound rfl hentry
  refine ⟨items, Function.update chains i
    (first ++ { e with val := node.val } :: second),
    hadd.trans hreplace, ?_, contents_replace hlt hsplit,
    fun a ha hne => (hframe a ha).trans (store_of_ne _ _ hne)⟩
  apply hholds.update rfl hslot (fun j _ => rfl)
  · intro j hj hne other hother
    have haddr := other_chain hnodup hlt hj hne hmem hother
    rw [hframe _ (hnotMem other (mem_contents.mpr ⟨j, hj, hother⟩)),
      store_of_ne _ _ haddr]
  · apply hreplaced.congr
    intro other hother
    apply hframe
    rcases mem_of_mem_replaced hother with rfl | hold
    · exact hdup
    · rw [← hsplit] at hold
      exact hnotMem other (mem_contents.mpr ⟨i, hlt, hold⟩)
  · intro other hother
    rcases mem_of_mem_replaced hother with rfl | hold
    · exact hholds.placed i hlt e hmem
    · rw [← hsplit] at hold
      exact hholds.placed i hlt other hold

end AddItem

section Freed

variable (keyFree valFree : Bool) (key val : Ptr) (ledger : Ledger)

@[simp] theorem freeVal_keyFreed :
    (ledger.freeVal valFree val).keyFreed = ledger.keyFreed := by
  cases valFree <;> rfl

@[simp] theorem freeVal_valFreed :
    (ledger.freeVal valFree val).valFreed =
      ledger.valFreed ++ (if valFree then [val] else []) := by
  cases valFree <;> simp [Ledger.freeVal]

theorem freed_keyFreed :
    ((ledger.freeKey keyFree key).freeVal valFree val).keyFreed =
      ledger.keyFreed ++ (if keyFree then [key] else []) := by
  unfold Ledger.freeKey
  cases keyFree <;> simp

theorem freed_valFreed :
    ((ledger.freeKey keyFree key).freeVal valFree val).valFreed =
      ledger.valFreed ++ (if valFree then [val] else []) := by
  unfold Ledger.freeKey
  cases keyFree <;> simp

end Freed

section Reworked

/-- What moving an item never changes in its entry. -/
def Entry.label (e : Entry) : Addr × BitVec 32 × Ptr := (e.addr, e.hash, e.key)

/-- The keys and values in the table and those the destructors got come from
these. -/
abbrev DrawnFrom (K V : Ptr → Prop) (entries : Multiset Entry)
    (ledger : Ledger) : Prop :=
  Drawn Entry.key Entry.val K V entries ledger.keyFreed ledger.valFreed

/-- Entries may be gone and values may have moved to other entries, but no key
and no value is new. -/
structure Reworked (entries : Multiset Entry) (ledger : Ledger)
    (entries' : Multiset Entry) (ledger' : Ledger) : Prop where
  labels_le : entries'.map Entry.label ≤ entries.map Entry.label
  drawn : ∀ K V, DrawnFrom K V entries ledger → DrawnFrom K V entries' ledger'

variable {entries entries' entries'' more : Multiset Entry}
  {ledger ledger' ledger'' : Ledger} {K V : Ptr → Prop}

theorem Reworked.refl (entries : Multiset Entry) (ledger : Ledger) :
    Reworked entries ledger entries ledger :=
  ⟨le_refl _, fun _ _ h => h⟩

theorem Reworked.trans (h : Reworked entries ledger entries' ledger')
    (h' : Reworked entries' ledger' entries'' ledger'') :
    Reworked entries ledger entries'' ledger'' :=
  ⟨h'.labels_le.trans h.labels_le,
    fun K V hdrawn => h'.drawn K V (h.drawn K V hdrawn)⟩

theorem Reworked.add_right (h : Reworked entries ledger entries' ledger')
    (more : Multiset Entry) :
    Reworked (entries + more) ledger (entries' + more) ledger' := by
  constructor
  · rw [Multiset.map_add, Multiset.map_add]
    exact Multiset.add_le_add_right h.labels_le
  · intro K V hdrawn
    have hleft := hdrawn.of_subset fun e he =>
      Multiset.mem_add.mpr (Or.inl he)
    exact (h.drawn K V hleft).add fun e he =>
      hdrawn.stored e (Multiset.mem_add.mpr (Or.inr he))

theorem Reworked.card_le (h : Reworked entries ledger entries' ledger') :
    entries'.card ≤ entries.card := by
  simpa using Multiset.card_le_card h.labels_le

theorem Reworked.nodup (h : Reworked entries ledger entries' ledger')
    (hnodup : (entries.map Entry.addr).Nodup) :
    (entries'.map Entry.addr).Nodup := by
  have haddr : ∀ s : Multiset Entry,
      s.map Entry.addr = (s.map Entry.label).map Prod.fst := by
    intro s
    rw [Multiset.map_map]
    rfl
  rw [haddr] at hnodup ⊢
  exact Multiset.nodup_of_le (Multiset.map_le_map h.labels_le) hnodup

theorem Reworked.exists_label (h : Reworked entries ledger entries' ledger')
    {e : Entry} (he : e ∈ entries') :
    ∃ old ∈ entries, old.addr = e.addr ∧ old.hash = e.hash ∧
      old.key = e.key := by
  have hmem := Multiset.mem_of_le h.labels_le
    (Multiset.mem_map_of_mem Entry.label he)
  obtain ⟨old, hold, hlabel⟩ := Multiset.mem_map.mp hmem
  simp only [Entry.label, Prod.mk.injEq] at hlabel
  exact ⟨old, hold, hlabel⟩

/-- An entry keeps its place and takes the value of a new one, which is freed
with the old value. -/
theorem reworked_replaced {e new : Entry} (he : e ∈ entries)
    (keyFree valFree : Bool) :
    Reworked (new ::ₘ entries) ledger
      ({ e with val := new.val } ::ₘ entries.erase e)
      ((ledger.freeKey keyFree new.key).freeVal valFree e.val) := by
  constructor
  · have hsame : ({ e with val := new.val } ::ₘ entries.erase e).map
        Entry.label = entries.map Entry.label := by
      conv_rhs => rw [← Multiset.cons_erase he]
      rw [Multiset.map_cons, Multiset.map_cons]
      rfl
    rw [hsame, Multiset.map_cons]
    exact Multiset.le_cons_self _ _
  · intro K V hdrawn
    have hnew := hdrawn.stored new (Multiset.mem_cons_self _ _)
    have hold := hdrawn.stored e (Multiset.mem_cons_of_mem he)
    have hkept : DrawnFrom K V
        ({ e with val := new.val } ::ₘ entries.erase e) ledger := by
      refine ⟨?_, hdrawn.keyFreed, hdrawn.valFreed⟩
      intro other hother
      rcases Multiset.mem_cons.mp hother with heq | hrest
      · subst heq
        exact ⟨hold.1, hnew.2⟩
      · exact hdrawn.stored other
          (Multiset.mem_cons_of_mem (Multiset.mem_of_mem_erase hrest))
    exact hkept.freed (freed_keyFreed keyFree valFree new.key e.val ledger)
      (freed_valFreed keyFree valFree new.key e.val ledger)
      (fun _ => List.forall_mem_singleton.mpr hnew.1)
      (fun _ => List.forall_mem_singleton.mpr hold.2)

end Reworked

section Moved

/-- What moving items into the table of a state does, when the entries in it and
those moved were these: the table holds entries reworked from them, no other
node changes, and if `equal_func` keeps all of them apart none is lost. -/
structure Moved (st : HashState) (entries : Multiset Entry)
    (slots : List (Option Addr)) (items : Addr → Option AHashItem)
    (chains : Chains) (ledger : Ledger) : Prop where
  holds : TableHolds items slots st.hash.bits chains
  reworked : Reworked entries st.ledger (contents st.hash.bits chains) ledger
  frame : ∀ a, (∀ e ∈ entries, e.addr ≠ a) → items a = st.items a
  kept : Apart st.hash.equalFunc entries →
    ledger = st.ledger ∧ contents st.hash.bits chains = entries

variable {entries rest : Multiset Entry} {slots slots' : List (Option Addr)}
  {items items' : Addr → Option AHashItem} {chains' : Chains}
  {ledger ledger' : Ledger}

theorem Moved.refl
    (hholds : TableHolds st.items table.slots st.hash.bits chains) :
    Moved st (contents st.hash.bits chains) table.slots st.items chains
      st.ledger where
  holds := hholds
  reworked := .refl _ _
  frame := fun _ _ => rfl
  kept := fun _ => ⟨rfl, rfl⟩

/-- Entries still to be moved are as far from those in the table as before. -/
theorem Moved.nodup_add (h : Moved st entries slots items chains ledger)
    (hnodup : ((entries + rest).map Entry.addr).Nodup) :
    ((contents st.hash.bits chains + rest).map Entry.addr).Nodup :=
  (h.reworked.add_right rest).nodup hnodup

theorem Moved.forall_add (h : Moved st entries slots items chains ledger)
    {P : Addr → Prop} (hall : ∀ e ∈ entries + rest, P e.addr) :
    ∀ e ∈ contents st.hash.bits chains + rest, P e.addr := by
  intro e he
  obtain ⟨old, hold, haddr, _⟩ :=
    (h.reworked.add_right rest).exists_label he
  rw [← haddr]
  exact hall old hold

theorem Moved.trans (h : Moved st entries slots items chains ledger)
    (h' : Moved (st.reworked table slots items ledger)
      (contents st.hash.bits chains + rest) slots' items' chains' ledger') :
    Moved st (entries + rest) slots' items' chains' ledger' where
  holds := h'.holds
  reworked := (h.reworked.add_right rest).trans h'.reworked
  frame := by
    intro a ha
    have hlater : items' a = items a :=
      h'.frame a (h.forall_add (P := (· ≠ a)) ha)
    have hearlier : items a = st.items a :=
      h.frame a fun e he => ha e (Multiset.mem_add.mpr (Or.inl he))
    exact hlater.trans hearlier
  kept := by
    intro hapart
    obtain ⟨hledger, hcontents⟩ :=
      h.kept (hapart.of_le (Multiset.le_add_right _ _))
    rw [← hcontents] at hapart
    obtain ⟨hledger', hcontents'⟩ := h'.kept hapart
    rw [← hcontents]
    exact ⟨hledger'.trans hledger, hcontents'⟩

end Moved

section Add

variable {item : Addr} {node : AHashItem}

/-- Whatever `equal_func` answers, an added item gets an entry or gives its
value to one; without an equal key it gets one. -/
theorem addItem_spec (htable : st.hash.table = some table)
    (hbits : st.hash.bits ≤ 30)
    (hholds : TableHolds st.items table.slots st.hash.bits chains)
    (hnodup : ((contents st.hash.bits chains).map Entry.addr).Nodup)
    (hfuel : ∀ i < 2 ^ st.hash.bits, (chains i).length < st.fuel)
    (hnode : st.items item = some node)
    (hnotMem : ∀ e ∈ contents st.hash.bits chains, e.addr ≠ item) :
    ∃ slots items chains' ledger,
      addItem item st = .ok (st.reworked table slots items ledger) ∧
      Moved st (entryOf item node ::ₘ contents st.hash.bits chains) slots items
        chains' ledger := by
  rcases hholds.find_cases hbits st.hash.equalFunc node.hash node.key with
    ⟨_, hnone⟩ | ⟨e, first, second, hsplit, hmatch, hfirst, hmem⟩
  · obtain ⟨slots, items, chains', hadd, hholds', hcontents, hframe⟩ :=
      addItem_new htable hbits hholds hfuel hnode hnotMem hnone
    refine ⟨slots, items, chains', st.ledger, hadd, hholds', ?_, ?_,
      fun _ => ⟨rfl, hcontents⟩⟩
    · rw [hcontents]
      exact .refl _ _
    · intro a ha
      exact hframe a (Ne.symm (ha _ (Multiset.mem_cons_self _ _)))
  · obtain ⟨items, chains', hadd, hholds', hcontents, hframe⟩ :=
      addItem_duplicate htable hbits hholds hnodup hfuel hnode hnotMem hsplit
        hmatch hfirst
    let freed := (st.ledger.freeKey st.hash.keyFree node.key).freeVal
      st.hash.valFree e.val
    have hadd' : addItem item st =
        .ok (st.reworked table table.slots items freed) := by
      rw [hadd, HashState.reworked, HashState.withTable_slots htable]
    refine ⟨table.slots, items, chains', freed, hadd', hholds', ?_, ?_, ?_⟩
    · rw [hcontents]
      exact reworked_replaced hmem _ _
    · intro a ha
      exact hframe a (Ne.symm (ha _ (Multiset.mem_cons_self _ _)))
        (Ne.symm (ha e (Multiset.mem_cons_of_mem hmem)))
    · intro hapart
      have hapartFrom : matching st.hash.equalFunc node.hash node.key e =
          false := (hapart.head hmem).2
      rw [hapartFrom] at hmatch
      cases hmatch

end Add

section Rehash

/-- Moving the rest of an old chain: its entries join those already in the
table. -/
theorem rehashChain_spec (hbits : st.hash.bits ≤ 30) {rest : List Entry}
    {head : Option Addr} {fuel : ℕ} (htable : st.hash.table = some table)
    (hholds : TableHolds st.items table.slots st.hash.bits chains)
    (hchain : itemLayout.IsChain st.items head rest)
    (hnodup : ((contents st.hash.bits chains +
      (rest : Multiset Entry)).map Entry.addr).Nodup)
    (hlive : ∀ e ∈ contents st.hash.bits chains + (rest : Multiset Entry),
      e.addr < st.world.requests)
    (hfuel : rest.length < fuel) :
    ∃ slots items chains' ledger,
      rehashChain fuel head st = .ok (st.reworked table slots items ledger) ∧
      Moved st (contents st.hash.bits chains + (rest : Multiset Entry)) slots
        items chains' ledger := by
  induction rest generalizing st table chains head fuel with
  | nil =>
      cases fuel with
      | zero => cases hfuel
      | succ fuel =>
          rw [NodeLayout.isChain_nil] at hchain
          refine ⟨table.slots, st.items, chains, st.ledger, ?_, ?_⟩
          · rw [hchain, rehashChain, HashState.reworked,
              HashState.withTable_slots htable]
          · rw [Multiset.coe_nil, add_zero]
            exact .refl hholds
  | cons e rest ih =>
      cases fuel with
      | zero => cases hfuel
      | succ fuel =>
          have hwhole := hchain.nodup
          obtain ⟨hhead, node, hnode, hview, hrest⟩ :
              head = some e.addr ∧ ∃ node, st.items e.addr = some node ∧
                entryOf e.addr node = e ∧
                itemLayout.IsChain st.items node.ptr rest := hchain
          have hsplit : contents st.hash.bits chains +
                ((e :: rest : List Entry) : Multiset Entry) =
              e ::ₘ contents st.hash.bits chains + (rest : Multiset Entry) := by
            rw [← Multiset.cons_coe, Multiset.add_cons, Multiset.cons_add]
          rw [hsplit] at hnodup hlive ⊢
          have hleft : e ::ₘ contents st.hash.bits chains ≤
              e ::ₘ contents st.hash.bits chains + (rest : Multiset Entry) :=
            Multiset.le_add_right _ _
          have hnodupLeft := Multiset.nodup_of_le
            (Multiset.map_le_map hleft) hnodup
          rw [Multiset.map_cons, Multiset.nodup_cons] at hnodupLeft
          have hnotMem : ∀ other ∈ contents st.hash.bits chains,
              other.addr ≠ e.addr := by
            intro other hother heq
            exact hnodupLeft.1
              (Multiset.mem_map.mpr ⟨other, hother, heq⟩)
          have hlength := hholds.length_lt_fuel (fun other hother =>
            hlive other (Multiset.mem_of_le hleft
              (Multiset.mem_cons_of_mem hother)))
          obtain ⟨slots, items, chains', ledger, hadd, hmoved⟩ :=
            addItem_spec htable hbits hholds hnodupLeft.2 hlength hnode hnotMem
          rw [hview] at hmoved
          have hrest' : itemLayout.IsChain items node.ptr rest := by
            apply hrest.congr
            intro other hother
            apply hmoved.frame
            intro placed hplaced
            exact add_addr_ne hnodup hplaced (Multiset.mem_coe.mpr hother)
          obtain ⟨slots', items', chains'', ledger', hrehash, hmoved'⟩ :=
            @ih (st.reworked table slots items ledger)
              { table with slots := slots } chains' hbits node.ptr fuel rfl
              hmoved.holds hrest' (hmoved.nodup_add hnodup)
              (hmoved.forall_add (P := (· < st.world.requests)) hlive)
              (Nat.lt_of_succ_lt_succ hfuel)
          refine ⟨slots', items', chains'', ledger', ?_,
            hmoved.trans hmoved'⟩
          rw [hhead, rehashChain, load_of_eq hnode, ok_bind, hadd, ok_bind]
          exact hrehash

theorem rehashChains_spec (hbits : st.hash.bits ≤ 30)
    {lists : List (Option Addr)} {old : List (List Entry)}
    (htable : st.hash.table = some table)
    (hholds : TableHolds st.items table.slots st.hash.bits chains)
    (hlists : List.Forall₂ (itemLayout.IsChain st.items) lists old)
    (hnodup : ((contents st.hash.bits chains +
      (old.flatten : Multiset Entry)).map Entry.addr).Nodup)
    (hlive : ∀ e ∈ contents st.hash.bits chains +
      (old.flatten : Multiset Entry), e.addr < st.world.requests) :
    ∃ slots items chains' ledger,
      rehashChains lists st = .ok (st.reworked table slots items ledger) ∧
      Moved st (contents st.hash.bits chains +
        (old.flatten : Multiset Entry)) slots items chains' ledger := by
  induction old generalizing st table chains lists with
  | nil =>
      cases hlists
      refine ⟨table.slots, st.items, chains, st.ledger, ?_, ?_⟩
      · rw [rehashChains, HashState.reworked,
          HashState.withTable_slots htable]
      · rw [List.flatten_nil, Multiset.coe_nil, add_zero]
        exact .refl hholds
  | cons first rest ih =>
      cases hlists with
      | @cons head _ lists _ hfirst hrest =>
      have hsplit : contents st.hash.bits chains +
            ((first :: rest).flatten : Multiset Entry) =
          contents st.hash.bits chains + (first : Multiset Entry) +
            (rest.flatten : Multiset Entry) := by
        rw [List.flatten_cons, ← Multiset.coe_add, add_assoc]
      rw [hsplit] at hnodup hlive ⊢
      have hleft : contents st.hash.bits chains + (first : Multiset Entry) ≤
          contents st.hash.bits chains + (first : Multiset Entry) +
            (rest.flatten : Multiset Entry) := Multiset.le_add_right _ _
      have hlength : first.length < st.fuel := by
        apply Nat.lt_succ_of_le
        apply hfirst.length_le
        intro e he
        exact hlive e (by simp [he])
      obtain ⟨slots, items, chains', ledger, hrehash, hmoved⟩ :=
        rehashChain_spec hbits htable hholds hfirst
          (Multiset.nodup_of_le (Multiset.map_le_map hleft) hnodup)
          (fun e he => hlive e (Multiset.mem_of_le hleft he)) hlength
      have hlists' : List.Forall₂ (itemLayout.IsChain items) lists rest := by
        apply NodeLayout.isChains_congr hrest
        intro other hother
        apply hmoved.frame
        intro e he
        exact add_addr_ne hnodup he hother
      obtain ⟨slots', items', chains'', ledger', hrehash', hmoved'⟩ :=
        @ih (st.reworked table slots items ledger)
          { table with slots := slots } chains' hbits lists rfl hmoved.holds
          hlists' (hmoved.nodup_add hnodup)
          (hmoved.forall_add (P := (· < st.world.requests)) hlive)
      refine ⟨slots', items', chains'', ledger', ?_, hmoved.trans hmoved'⟩
      rw [rehashChains, hrehash, ok_bind]
      exact hrehash'

end Rehash

end Hash
end Alib
