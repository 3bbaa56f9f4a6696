import Alib.HashInvariant

/-!
# Growing and putting

`extend` and `a_hash_put` under every pattern of granted and refused
allocations.  A put adds an entry, replaces the value of an entry, or fails
and leaves the counter alone.  The entries and the destructors are left alone
by growing and by a put that fails only if the entries are apart; otherwise a
rehash may merge entries.
-/

namespace Alib
namespace Hash

variable {E : Env} {calls : Callbacks} {st : HashState}
  {entries : Multiset Entry}

/-- Neither destructor was called in between. -/
structure SameFrees (before after : Ledger) : Prop where
  keyFreed_eq : after.keyFreed = before.keyFreed
  valFreed_eq : after.valFreed = before.valFreed

/-- A state with the same entries and counter, reached without a call of a
destructor. -/
structure Unchanged (calls : Callbacks) (st : HashState)
    (entries : Multiset Entry) (after : HashState) : Prop where
  inv : HashInv calls after entries
  allocated : st.hash.table ≠ none → after.hash.table ≠ none
  count_eq : after.hash.count = st.hash.count
  frees : SameFrees st.ledger after.ledger

/-- The same counter; entries are merged at most, and if they are apart
nothing is done to them. -/
structure Rearranged (calls : Callbacks) (st : HashState)
    (entries : Multiset Entry) (after : HashState)
    (entries' : Multiset Entry) : Prop where
  linked : HashLinked calls after entries'
  allocated : st.hash.table ≠ none → after.hash.table ≠ none
  count_eq : after.hash.count = st.hash.count
  reworked : Reworked entries st.ledger entries' after.ledger
  kept : Apart calls.equalFunc entries →
    entries' = entries ∧ SameFrees st.ledger after.ledger

/-- An allocated table with a slot for one more item. -/
structure HasRoom (st : HashState) : Prop where
  allocated : st.hash.table ≠ none
  room : st.hash.count + 1 ≤ 2 ^ st.hash.bits

theorem bits2size_eq {bits : ℕ} (h : bits ≤ 30) :
    bits2size bits = .ok (2 ^ bits) := by
  rw [bits2size, if_pos h]

theorem sizeMul_two_pow {bits : ℕ} (hbits : bits ≤ 30) :
    sizeMul sizeofPointer (2 ^ bits) = sizeofPointer * 2 ^ bits := by
  apply sizeMul_of_lt
  have hle : 2 ^ bits ≤ 2 ^ 30 := Nat.pow_le_pow_right (by decide) hbits
  unfold sizeofPointer
  omega

theorem Unchanged.trans {middle after : HashState}
    (hfirst : Unchanged calls st entries middle)
    (hsecond : Unchanged calls middle entries after) :
    Unchanged calls st entries after where
  inv := hsecond.inv
  allocated := fun h => hsecond.allocated (hfirst.allocated h)
  count_eq := hsecond.count_eq.trans hfirst.count_eq
  frees := ⟨hsecond.frees.keyFreed_eq.trans hfirst.frees.keyFreed_eq,
    hsecond.frees.valFreed_eq.trans hfirst.frees.valFreed_eq⟩

theorem SameFrees.drawn {K V : Ptr → Prop} {before after : Ledger}
    (hsame : SameFrees before after) (h : DrawnFrom K V entries before) :
    DrawnFrom K V entries after := by
  refine ⟨h.stored, ?_, ?_⟩
  · rw [hsame.keyFreed_eq]
    exact h.keyFreed
  · rw [hsame.valFreed_eq]
    exact h.valFreed

theorem reworked_sameFrees {before after : Ledger}
    (h : SameFrees before after) : Reworked entries before entries after :=
  ⟨le_refl _, fun _ _ hdrawn => h.drawn hdrawn⟩

theorem Rearranged.refl (h : HashLinked calls st entries) :
    Rearranged calls st entries st entries :=
  ⟨h, id, rfl, .refl _ _, fun _ => ⟨rfl, rfl, rfl⟩⟩

theorem Rearranged.unchanged (h : HashInv calls st entries)
    {after : HashState} {entries' : Multiset Entry}
    (hrearranged : Rearranged calls st entries after entries') :
    Unchanged calls st entries after := by
  obtain ⟨hentries, hfrees⟩ := hrearranged.kept h.apart
  subst hentries
  refine ⟨.of_linked hrearranged.linked h.apart ?_, hrearranged.allocated,
    hrearranged.count_eq, hfrees⟩
  rw [hrearranged.count_eq]
  exact h.card_le

theorem HashLinked.withWorld (h : HashLinked calls st entries) {world : World}
    (hrequests : st.world.requests ≤ world.requests) :
    HashLinked calls { st with world := world } entries where
  callbacks := h.callbacks
  unallocated := h.unallocated
  holds := h.holds
  nodup := h.nodup
  live := fun e he => lt_of_lt_of_le (h.live e he) hrequests
  hashed := h.hashed
  bits_le := h.bits_le
  bits_of_zero := h.bits_of_zero
  count_le := h.count_le
  size_le := h.size_le

theorem HashInv.withWorld (h : HashInv calls st entries) {world : World}
    (hrequests : st.world.requests ≤ world.requests) :
    HashInv calls { st with world := world } entries :=
  .of_linked (h.linked.withWorld hrequests) h.apart h.card_le

theorem HashLinked.refused (h : HashLinked calls st entries) {world : World}
    (hrequests : st.world.requests ≤ world.requests) :
    Rearranged calls st entries { st with world := world } entries :=
  ⟨h.withWorld hrequests, id, rfl, .refl _ _, fun _ => ⟨rfl, rfl, rfl⟩⟩

theorem aErrorGetAlibCode_of_refused (E : Env) {before after : World}
    (h : Refused before after) :
    ∃ reported, aErrorGetAlibCode E after = .ok (aErrorOther, reported) ∧
      before.requests ≤ reported.requests := by
  have hreport : ∀ mod, after.globalErrorStack.topMod = some mod →
      mod ≠ .alib →
      ∃ reported, aErrorGetAlibCode E after = .ok (aErrorOther, reported) ∧
        before.requests ≤ reported.requests := by
    intro mod htop hmod
    obtain ⟨reported, hcode, hrequests⟩ :=
      aErrorGetAlibCode_of_topMod E after htop hmod
    have hle := h.requests_le
    exact ⟨reported, hcode, by omega⟩
  rcases h.topMod with htop | htop
  · exact hreport .perror htop (by simp)
  · exact hreport .stackAlloc htop (by simp)

section Extend

theorem tableHolds_empty (items : Addr → Option AHashItem) (bits : ℕ) :
    TableHolds items (List.replicate (2 ^ bits) none) bits
      (fun _ => []) := by
  constructor
  · rw [List.length_replicate]
  · intro i slot hslot
    have hnone := List.eq_of_mem_replicate (List.mem_of_getElem? hslot)
    exact hnone
  · intro i _ e he
    cases he

/-- The table is full when it is extended, and twice as large afterwards. -/
structure Extends (st : HashState) : Prop where
  full : st.hash.count = 0 ∨ st.hash.count = 2 ^ st.hash.bits
  count_lt : st.hash.count < 2 ^ 30

theorem Extends.extendedBits (h : Extends st)
    (hinv : HashLinked calls st entries) :
    extendedBits st.hash ≤ 30 ∧
      (st.hash.count = 0 → extendedBits st.hash = 0) ∧
      (1 ≤ st.hash.count →
        2 ^ extendedBits st.hash = 2 * st.hash.count) ∧
      (if extendedBits st.hash ≠ 0 then extendedBits st.hash - 1
        else extendedBits st.hash) = st.hash.bits := by
  by_cases hzero : st.hash.count = 0
  · have hbits := hinv.bits_of_zero hzero
    have heq : Hash.extendedBits st.hash = 0 := by
      simp [Hash.extendedBits, hzero, hbits]
    rw [heq, hbits]
    exact ⟨by decide, fun _ => rfl, fun hpos => by omega, rfl⟩
  · have hfull : st.hash.count = 2 ^ st.hash.bits :=
      h.full.resolve_left hzero
    have hlt : st.hash.bits < 30 := by
      have hcount := h.count_lt
      rw [hfull] at hcount
      exact (Nat.pow_lt_pow_iff_right (by decide)).mp hcount
    have heq : Hash.extendedBits st.hash = st.hash.bits + 1 := by
      rw [Hash.extendedBits, if_pos hzero]
      exact sizeAdd_of_lt (by omega)
    rw [heq]
    refine ⟨hlt, fun h => absurd h hzero, fun _ => ?_, rfl⟩
    rw [hfull, pow_succ, Nat.mul_comm]

/-- Rehashing the old table into a new and empty one; entries that are apart
are all kept. -/
theorem rehash_spec (h : HashLinked calls st entries) (table : PointerArray)
    (ledger : Ledger) (world : World) {bits : ℕ} (hbits : bits ≤ 30)
    (hslots : table.slots = List.replicate (2 ^ bits) none)
    (hrequests : st.world.requests ≤ world.requests) :
    ∃ slots items ledger' world' chains,
      rehash st.hash.table (2 ^ st.hash.bits) { st with
          hash := { st.hash with table := some table, bits := bits }
          ledger := ledger
          world := world } =
        .ok {
          hash := { st.hash with
            table := some { table with slots := slots }
            bits := bits }
          items := items
          ledger := ledger'
          world := world' } ∧
      world'.requests = world.requests ∧
      TableHolds items slots bits chains ∧
      Reworked entries ledger (contents bits chains) ledger' ∧
      (Apart calls.equalFunc entries →
        ledger' = ledger ∧ contents bits chains = entries) := by
  let fresh : HashState := { st with
    hash := { st.hash with table := some table, bits := bits }
    ledger := ledger
    world := world }
  have hempty : TableHolds fresh.items table.slots bits (fun _ => []) := by
    rw [hslots]
    exact tableHolds_empty st.items bits
  cases hold : st.hash.table with
  | none =>
      have hzero := h.holds.of_none hold
      refine ⟨table.slots, st.items, ledger, world, fun _ => [], rfl, rfl,
        hempty, ?_, fun _ => ⟨rfl, ?_⟩⟩
      · rw [contents_empty, hzero]
        exact .refl _ _
      · rw [contents_empty, hzero]
  | some old =>
      obtain ⟨chains, hholds, hcontents⟩ := h.holds.of_some hold
      have hsum : contents bits (fun _ => []) +
          (((List.range (2 ^ st.hash.bits)).map chains).flatten :
            Multiset Entry) = entries := by
        rw [contents_empty, zero_add, ← contents_eq_flatten, hcontents]
      have hequal : st.hash.equalFunc = calls.equalFunc := by
        rw [← h.callbacks]
      have hnodup : ((contents bits (fun _ => []) +
          (((List.range (2 ^ st.hash.bits)).map chains).flatten :
            Multiset Entry)).map Entry.addr).Nodup := by
        rw [hsum]
        exact h.nodup
      have hlive : ∀ e ∈ contents bits (fun _ => []) +
          (((List.range (2 ^ st.hash.bits)).map chains).flatten :
            Multiset Entry), e.addr < world.requests := by
        rw [hsum]
        intro e he
        exact lt_of_lt_of_le (h.live e he) hrequests
      obtain ⟨slots, items, chains', ledger', hrehash, hmoved⟩ :=
        @rehashChains_spec fresh table _ hbits _ _ rfl hempty
          hholds.isChains hnodup hlive
      have hread : readSlots old (2 ^ st.hash.bits) = .ok old.slots := by
        rw [readSlots, if_pos (le_of_eq hholds.size.symm), ← hholds.size,
          List.take_length]
      refine ⟨slots, items, ledger', freeTable old world, chains', ?_, rfl,
        hmoved.holds, ?_, ?_⟩
      · rw [rehash]
        dsimp only
        rw [hread, ok_bind]
        change (rehashChains old.slots fresh >>= _) = _
        rw [hrehash, ok_bind]
        rfl
      · rw [← hsum]
        exact hmoved.reworked
      · intro hapart
        rw [← hsum]
        apply hmoved.kept
        change Apart st.hash.equalFunc (contents bits (fun _ => []) + _)
        rw [hsum, hequal]
        exact hapart

theorem HashLinked.grown (h : HashLinked calls st entries)
    {after : HashState} {entries' : Multiset Entry} {ledger ledger' : Ledger}
    {table : PointerArray} {chains : Chains} {bits : ℕ}
    (hhash : after.hash = { st.hash with table := some table, bits := bits })
    (hrequests : st.world.requests ≤ after.world.requests)
    (hholds : TableHolds after.items table.slots bits chains)
    (hcontents : contents bits chains = entries')
    (hreworked : Reworked entries ledger entries' ledger') (hbits : bits ≤ 30)
    (hzero : st.hash.count = 0 → bits = 0)
    (hpos : 1 ≤ st.hash.count → 2 ^ bits = 2 * st.hash.count) :
    HashLinked calls after entries' := by
  apply HashLinked.of_chains h.callbacks hhash hholds hcontents
  · exact hreworked.nodup h.nodup
  · intro e he
    obtain ⟨old, hold, haddr, _⟩ := hreworked.exists_label he
    rw [← haddr]
    exact lt_of_lt_of_le (h.live old hold) hrequests
  · intro e he
    obtain ⟨old, hold, _, hhashOld, hkey⟩ := hreworked.exists_label he
    rw [← hhashOld, ← hkey]
    exact h.hashed old hold
  · exact hbits
  · exact hzero
  · by_cases hcountZero : st.hash.count = 0
    · rw [hcountZero]
      exact Nat.zero_le _
    · have hsize := hpos (Nat.one_le_iff_ne_zero.mpr hcountZero)
      omega
  · intro hone
    exact le_of_eq (hpos hone)

theorem extend_granted (h : HashLinked calls st entries)
    (hextends : Extends st)
    (hmalloc : aMallocNULL E
      (sizeofPointer * 2 ^ extendedBits st.hash) st.world =
        .ok (some ⟨st.world.requests,
            List.replicate (2 ^ extendedBits st.hash) none⟩,
          { st.world with requests := st.world.requests + 1 })) :
    ∃ after entries', extend E st = .ok (aErrorSuccess, after) ∧
      Rearranged calls st entries after entries' ∧ HasRoom after := by
  obtain ⟨hbits, hzero, hpos, _⟩ := hextends.extendedBits h
  have hold := bits2size_eq h.bits_le
  have hnew := bits2size_eq hbits
  have hbytes := sizeMul_two_pow hbits
  let listed : Ledger := { st.ledger with
    tables := st.ledger.tables ++ [st.world.requests] }
  have hlisted : SameFrees st.ledger listed := ⟨rfl, rfl⟩
  obtain ⟨slots, items, ledger', world', chains, hrehash, hrequests, hholds,
      hreworked, hexact⟩ :=
    rehash_spec h
      ⟨st.world.requests,
        List.replicate (2 ^ extendedBits st.hash) none⟩
      listed
      { st.world with requests := st.world.requests + 1 }
      hbits rfl (Nat.le_succ _)
  let after : HashState := {
    hash := { st.hash with
      table := some ⟨st.world.requests, slots⟩
      bits := extendedBits st.hash }
    items := items
    ledger := ledger'
    world := world' }
  have hle : st.world.requests ≤ after.world.requests := by
    change st.world.requests ≤ world'.requests
    rw [hrequests]
    exact Nat.le_succ _
  have hlinked : HashLinked calls after
      (contents (extendedBits st.hash) chains) :=
    h.grown rfl hle hholds rfl hreworked hbits hzero hpos
  have hroom : st.hash.count + 1 ≤ 2 ^ extendedBits st.hash := by
    by_cases hcount : st.hash.count = 0
    · rw [hcount]
      exact Nat.one_le_two_pow
    · have hone := Nat.one_le_iff_ne_zero.mpr hcount
      have hsize := hpos hone
      omega
  refine ⟨after, _, ?_, ⟨hlinked, fun _ => Option.some_ne_none _, rfl,
    (reworked_sameFrees hlisted).trans hreworked, ?_⟩,
    Option.some_ne_none _, hroom⟩
  · rw [extend, hold, ok_bind]
    dsimp only
    rw [hnew, ok_bind, hbytes, hmalloc, ok_bind]
    dsimp only
    rw [hrehash]
    rfl
  · intro hapart
    obtain ⟨hledger, hentries⟩ := hexact hapart
    refine ⟨hentries, ?_⟩
    change SameFrees st.ledger ledger'
    rw [hledger]
    exact hlisted

/-- A refused table leaves the old one as it was, with its own `bits`. -/
theorem extend_refused (h : HashLinked calls st entries)
    (hextends : Extends st) {world : World}
    (hmalloc : aMallocNULL E
      (sizeofPointer * 2 ^ extendedBits st.hash) st.world = .ok (none, world))
    (hrefused : Refused st.world world) :
    ∃ after, extend E st = .ok (aErrorOther, after) ∧
      Rearranged calls st entries after entries := by
  obtain ⟨hbits, _, _, hback⟩ := hextends.extendedBits h
  have hold := bits2size_eq h.bits_le
  have hnew := bits2size_eq hbits
  have hbytes := sizeMul_two_pow hbits
  obtain ⟨reported, hcode, hle⟩ := aErrorGetAlibCode_of_refused E hrefused
  refine ⟨{ st with world := reported }, ?_, h.refused hle⟩
  rw [extend, hold, ok_bind]
  dsimp only
  rw [hnew, ok_bind, hbytes, hmalloc, ok_bind]
  dsimp only
  rw [hcode, ok_bind, hback]
  rfl

theorem extend_spec (h : HashLinked calls st entries)
    (hextends : Extends st) :
    (∃ after entries', extend E st = .ok (aErrorSuccess, after) ∧
      Rearranged calls st entries after entries' ∧ HasRoom after) ∨
    (∃ after, extend E st = .ok (aErrorOther, after) ∧
      Rearranged calls st entries after entries ∧ ¬ E.GrantsAll) := by
  rcases aMallocNULL_cases E (Nat.two_pow_pos (extendedBits st.hash))
      st.world with
    ⟨_, hmalloc⟩ | ⟨hgrant, world, hmalloc, hrefused⟩
  · left
    exact extend_granted h hextends hmalloc
  · right
    obtain ⟨after, hextend, hsame⟩ :=
      extend_refused h hextends hmalloc hrefused
    refine ⟨after, hextend, hsame, ?_⟩
    intro hall
    rw [hall] at hgrant
    cases hgrant

end Extend

section Put

inductive PutOutcome (E : Env) (calls : Callbacks) (st : HashState)
    (entries : Multiset Entry) (key val : Ptr) :
    ErrorCode → HashState → Prop where
  | added (a : Addr) (after : HashState)
      (hnone : ∀ e ∈ entries, calls.finds key e = false)
      (hinv : HashInv calls after
        (⟨a, calls.hashFunc key, key, val⟩ ::ₘ entries))
      (hallocated : after.hash.table ≠ none)
      (hcount : after.hash.count = st.hash.count + 1)
      (hfrees : SameFrees st.ledger after.ledger) :
      PutOutcome E calls st entries key val aErrorSuccess after
  | replaced (e : Entry) (after : HashState) (hmem : e ∈ entries)
      (hfinds : calls.finds key e = true)
      (hinv : HashInv calls after
        ({ e with val := val } ::ₘ entries.erase e))
      (hallocated : after.hash.table ≠ none)
      (hcount : after.hash.count = st.hash.count + 1)
      (hfrees : SameFrees (st.ledger.freeItem calls key e.val)
        after.ledger) :
      PutOutcome E calls st entries key val aErrorSuccess after
  | failed (after : HashState)
      (hunchanged : Unchanged calls st entries after)
      (hdenied : ¬ E.GrantsAll) :
      PutOutcome E calls st entries key val aErrorOther after

@[simp] theorem freeItem_keyFreed (calls : Callbacks) (ledger : Ledger)
    (key val : Ptr) :
    (ledger.freeItem calls key val).keyFreed =
      ledger.keyFreed ++ (if calls.keyFree then [key] else []) :=
  freed_keyFreed calls.keyFree calls.valFree key val ledger

@[simp] theorem freeItem_valFreed (calls : Callbacks) (ledger : Ledger)
    (key val : Ptr) :
    (ledger.freeItem calls key val).valFreed =
      ledger.valFreed ++ (if calls.valFree then [val] else []) :=
  freed_valFreed calls.keyFree calls.valFree key val ledger

theorem SameFrees.trans {first second third : Ledger}
    (h : SameFrees first second) (h' : SameFrees second third) :
    SameFrees first third :=
  ⟨h'.keyFreed_eq.trans h.keyFreed_eq, h'.valFreed_eq.trans h.valFreed_eq⟩

theorem SameFrees.freeItem {before after : Ledger}
    (h : SameFrees before after) (key val : Ptr) :
    SameFrees (before.freeItem calls key val)
      (after.freeItem calls key val) := by
  constructor
  · rw [freeItem_keyFreed, freeItem_keyFreed, h.keyFreed_eq]
  · rw [freeItem_valFreed, freeItem_valFreed, h.valFreed_eq]

theorem PutOutcome.of_unchanged {middle after : HashState} {key val : Ptr}
    {code : ErrorCode} (hfirst : Unchanged calls st entries middle)
    (h : PutOutcome E calls middle entries key val code after) :
    PutOutcome E calls st entries key val code after := by
  cases h with
  | added a after hnone hinv hallocated hcount hfrees =>
      exact .added a after hnone hinv hallocated
        (by rw [hcount, hfirst.count_eq]) (hfirst.frees.trans hfrees)
  | replaced e after hmem hfinds hinv hallocated hcount hfrees =>
      exact .replaced e after hmem hfinds hinv hallocated
        (by rw [hcount, hfirst.count_eq])
        ((hfirst.frees.freeItem key e.val).trans hfrees)
  | failed after hunchanged hdenied =>
      exact .failed after (hfirst.trans hunchanged) hdenied

theorem mustExtend_eq (h : HashLinked calls st entries)
    (hcount : st.hash.count < 2 ^ 30) :
    mustExtend st.hash = .ok (decide (st.hash.count = 0 ∨
      2 ^ st.hash.bits < st.hash.count + 1)) := by
  by_cases hzero : st.hash.count = 0
  · simp [mustExtend, hzero]
  · have hadd : sizeAdd st.hash.count 1 = st.hash.count + 1 :=
      sizeAdd_of_lt (by omega)
    simp [mustExtend, hzero, bits2size_eq h.bits_le, hadd]

theorem extendIf_spec (h : HashLinked calls st entries)
    (hcount : st.hash.count < 2 ^ 30) :
    ∃ must, mustExtend st.hash = .ok must ∧
      ((∃ after entries', extendIf E must st = .ok (aErrorSuccess, after) ∧
        Rearranged calls st entries after entries' ∧ HasRoom after) ∨
      (∃ after, extendIf E must st = .ok (aErrorOther, after) ∧
        Rearranged calls st entries after entries ∧ ¬ E.GrantsAll)) := by
  refine ⟨_, mustExtend_eq h hcount, ?_⟩
  by_cases hmust : st.hash.count = 0 ∨ 2 ^ st.hash.bits < st.hash.count + 1
  · have hfull : st.hash.count = 0 ∨ st.hash.count = 2 ^ st.hash.bits := by
      have hle := h.count_le
      omega
    rw [decide_eq_true hmust, extendIf, if_pos rfl]
    exact extend_spec h ⟨hfull, hcount⟩
  · left
    rw [not_or, Nat.not_lt] at hmust
    have hallocated : st.hash.table ≠ none := by
      intro hnone
      exact hmust.1 (h.unallocated hnone)
    have hfalse : decide (st.hash.count = 0 ∨
        2 ^ st.hash.bits < st.hash.count + 1) = false := by
      rw [decide_eq_false_iff_not, not_or, Nat.not_lt]
      exact hmust
    rw [hfalse]
    exact ⟨st, entries, rfl, .refl h, hallocated, hmust.2⟩

theorem HashLinked.counted (h : HashLinked calls st entries)
    {more : Multiset Entry} {after : HashState} {table : PointerArray}
    {chains : Chains} (hroom : st.hash.count + 1 ≤ 2 ^ st.hash.bits)
    (hhash : after.hash = { st.hash with
      table := some table, count := st.hash.count + 1 })
    (hholds : TableHolds after.items table.slots st.hash.bits chains)
    (hcontents : contents st.hash.bits chains = more)
    (hnodup : (more.map Entry.addr).Nodup)
    (hlive : ∀ e ∈ more, e.addr < after.world.requests)
    (hhashed : ∀ e ∈ more, e.hash = calls.hashFunc e.key) :
    HashLinked calls after more := by
  apply HashLinked.of_chains h.callbacks hhash hholds hcontents hnodup hlive
    hhashed h.bits_le
  · intro hzero
    cases hzero
  · exact hroom
  · intro _
    by_cases hzero : st.hash.count = 0
    · rw [h.bits_of_zero hzero]
      omega
    · have hsize := h.size_le (Nat.one_le_iff_ne_zero.mpr hzero)
      omega

/-- A new item which is not in the table yet. -/
def withNewItem (key val : Ptr) (st : HashState) : HashState := { st with
  items := store st.items st.world.requests
    ⟨none, st.hash.hashFunc key, key, val⟩
  ledger := { st.ledger with
    itemNodes := st.ledger.itemNodes ++ [st.world.requests] }
  world := { st.world with requests := st.world.requests + 1 } }

theorem itemNew_cases (E : Env) (st : HashState) (key val : Ptr) :
    itemNew E none key (st.hash.hashFunc key) val st =
        .ok (some st.world.requests, withNewItem key val st) ∨
      ∃ world, itemNew E none key (st.hash.hashFunc key) val st =
          .ok (none, { st with world := world }) ∧
        Refused st.world world ∧ ¬ E.GrantsAll := by
  rcases aMalloc_cases E (show sizeofItem ≠ 0 by decide) st.world with
    ⟨_, hmalloc⟩ | ⟨hgrant, world, hmalloc, hrefused⟩
  · left
    rw [itemNew, hmalloc, ok_bind]
    rfl
  · right
    have hdenied : ¬ E.GrantsAll := by
      intro hall
      rw [hall] at hgrant
      cases hgrant
    refine ⟨world, ?_, hrefused, hdenied⟩
    rw [itemNew, hmalloc, ok_bind]
    rfl

section NewItem

variable {table : PointerArray} {chains : Chains} {key val : Ptr}

theorem newItem_not_mem (h : HashLinked calls st entries)
    (hcontents : contents st.hash.bits chains = entries) :
    ∀ e ∈ contents st.hash.bits chains, e.addr ≠ st.world.requests := by
  rw [hcontents]
  intro e he
  exact Nat.ne_of_lt (h.live e he)

theorem withNewItem_holds (h : HashLinked calls st entries)
    (hholds : TableHolds st.items table.slots st.hash.bits chains)
    (hcontents : contents st.hash.bits chains = entries) :
    TableHolds (withNewItem key val st).items table.slots st.hash.bits
      chains := by
  apply hholds.congr
  intro e he
  exact store_of_ne st.items _ (newItem_not_mem h hcontents e he)

theorem withNewItem_fuel (h : HashLinked calls st entries)
    (hholds : TableHolds st.items table.slots st.hash.bits chains)
    (hcontents : contents st.hash.bits chains = entries) :
    ∀ i < 2 ^ st.hash.bits,
      (chains i).length < (withNewItem key val st).fuel := by
  intro i hi
  have hlength := h.length_lt_fuel hholds hcontents i hi
  exact lt_trans hlength (Nat.lt_succ_self _)

theorem HasRoom.sizeAdd_count (hroom : HasRoom st)
    (h : HashLinked calls st entries) :
    sizeAdd st.hash.count 1 = st.hash.count + 1 := by
  apply sizeAdd_of_lt
  have hle : 2 ^ st.hash.bits ≤ 2 ^ 30 :=
    Nat.pow_le_pow_right (by decide) h.bits_le
  have hlt := hroom.room
  omega

/-- The state after `hash->count++`. -/
def counted (st : HashState) : HashState :=
  { st with hash := { st.hash with count := sizeAdd st.hash.count 1 } }

/-- What `add_item` and `hash->count++` did with the new item. -/
inductive ItemPut (calls : Callbacks) (st : HashState)
    (entries : Multiset Entry) (key val : Ptr) : HashState → Prop where
  | added (a : Addr) (after : HashState)
      (hnone : ∀ e ∈ entries, calls.finds key e = false)
      (hlinked : HashLinked calls after
        (⟨a, calls.hashFunc key, key, val⟩ ::ₘ entries))
      (hallocated : after.hash.table ≠ none)
      (hcount : after.hash.count = st.hash.count + 1)
      (hfrees : SameFrees st.ledger after.ledger) :
      ItemPut calls st entries key val after
  | replaced (e : Entry) (after : HashState) (hmem : e ∈ entries)
      (hfinds : calls.finds key e = true)
      (hlinked : HashLinked calls after
        ({ e with val := val } ::ₘ entries.erase e))
      (hallocated : after.hash.table ≠ none)
      (hcount : after.hash.count = st.hash.count + 1)
      (hfrees : SameFrees (st.ledger.freeItem calls key e.val)
        after.ledger) :
      ItemPut calls st entries key val after

theorem addNewItem_added (h : HashLinked calls st entries)
    (hroom : HasRoom st) (htable : st.hash.table = some table)
    (hholds : TableHolds st.items table.slots st.hash.bits chains)
    (hcontents : contents st.hash.bits chains = entries)
    (hnone : ∀ e ∈ entries, calls.finds key e = false) :
    ∃ added, addItem st.world.requests (withNewItem key val st) = .ok added ∧
      ItemPut calls st entries key val (counted added) := by
  obtain rfl := h.callbacks
  have hnode : (withNewItem key val st).items st.world.requests =
      some ⟨none, st.hash.hashFunc key, key, val⟩ := store_same _ _ _
  have hnotMem := newItem_not_mem h hcontents
  obtain ⟨slots, items, chains', hadd, hholds', hcontents', _⟩ :=
    @addItem_new (withNewItem key val st) _ _ _ _ htable h.bits_le
      (withNewItem_holds h hholds hcontents)
      (withNewItem_fuel h hholds hcontents) hnode hnotMem
      (by rw [← hcontents] at hnone; exact hnone)
  have hentries : contents st.hash.bits chains' =
      ⟨st.world.requests, st.hash.hashFunc key, key, val⟩ ::ₘ entries := by
    rw [← hcontents]
    exact hcontents'
  have hcount := hroom.sizeAdd_count h
  let after := counted ((withNewItem key val st).withTable table slots items)
  have hhash : after.hash = { st.hash with
      table := some { table with slots := slots }
      count := st.hash.count + 1 } := by
    rw [← hcount]
    rfl
  refine ⟨_, hadd, .added st.world.requests after hnone ?_
    (Option.some_ne_none _) hcount ⟨rfl, rfl⟩⟩
  apply h.counted hroom.room hhash hholds' hentries
  · rw [Multiset.map_cons, Multiset.nodup_cons]
    refine ⟨?_, h.nodup⟩
    intro hmem
    obtain ⟨e, he, heq⟩ := Multiset.mem_map.mp hmem
    exact absurd heq (h.live e he).ne
  · intro e he
    rcases Multiset.mem_cons.mp he with rfl | hold
    · exact Nat.lt_succ_self _
    · exact lt_trans (h.live e hold) (Nat.lt_succ_self _)
  · intro e he
    rcases Multiset.mem_cons.mp he with rfl | hold
    · rfl
    · exact h.hashed e hold

theorem addNewItem_replaced (h : HashLinked calls st entries)
    (hroom : HasRoom st) (htable : st.hash.table = some table)
    (hholds : TableHolds st.items table.slots st.hash.bits chains)
    (hcontents : contents st.hash.bits chains = entries)
    {e : Entry} {first second : List Entry}
    (hsplit : chains (reduceIndex (st.hash.hashFunc key) st.hash.bits) =
      first ++ e :: second) (hfinds : calls.finds key e = true)
    (hfirst : ∀ other ∈ first, calls.finds key other = false)
    (hmem : e ∈ entries) :
    ∃ added, addItem st.world.requests (withNewItem key val st) = .ok added ∧
      ItemPut calls st entries key val (counted added) := by
  obtain rfl := h.callbacks
  have hnode : (withNewItem key val st).items st.world.requests =
      some ⟨none, st.hash.hashFunc key, key, val⟩ := store_same _ _ _
  obtain ⟨items, chains', hadd, hholds', hcontents', _⟩ :=
    @addItem_duplicate (withNewItem key val st) _ _ _ _ htable h.bits_le
      (withNewItem_holds h hholds hcontents)
      (by rw [← hcontents] at h; exact h.nodup)
      (withNewItem_fuel h hholds hcontents) hnode
      (newItem_not_mem h hcontents) _ _ _ hsplit hfinds hfirst
  have hentries : contents st.hash.bits chains' =
      { e with val := val } ::ₘ entries.erase e := by
    rw [← hcontents]
    exact hcontents'
  have hcount := hroom.sizeAdd_count h
  let after := counted { withNewItem key val st with
    items := items
    ledger := (withNewItem key val st).ledger.freeItem
      st.hash.toCallbacks key e.val }
  have hhash : after.hash = { st.hash with
      table := some table
      count := st.hash.count + 1 } := by
    rw [← hcount, ← htable]
    rfl
  have hallocated : after.hash.table ≠ none := by
    rw [hhash]
    exact Option.some_ne_none _
  have hsame : SameFrees st.ledger (withNewItem key val st).ledger :=
    ⟨rfl, rfl⟩
  have hfrees : SameFrees (st.ledger.freeItem st.hash.toCallbacks key e.val)
      after.ledger := hsame.freeItem key e.val
  refine ⟨_, hadd, .replaced e after hmem hfinds ?_ hallocated hcount hfrees⟩
  apply h.counted hroom.room hhash hholds' hentries
  · have hnodup := h.nodup
    rw [← Multiset.cons_erase hmem, Multiset.map_cons] at hnodup
    simpa using hnodup
  · intro other hother
    rcases Multiset.mem_cons.mp hother with rfl | hold
    · exact lt_trans (h.live e hmem) (Nat.lt_succ_self _)
    · exact lt_trans (h.live other (Multiset.mem_of_mem_erase hold))
        (Nat.lt_succ_self _)
  · intro other hother
    rcases Multiset.mem_cons.mp hother with rfl | hold
    · exact h.hashed e hmem
    · exact h.hashed other (Multiset.mem_of_mem_erase hold)

end NewItem

theorem putItem_cases (h : HashLinked calls st entries) (hroom : HasRoom st)
    (key val : Ptr) :
    (∃ after, putItem E key val st = .ok (aErrorSuccess, after) ∧
      ItemPut calls st entries key val after) ∨
    (∃ world, putItem E key val st =
        .ok (aErrorOther, { st with world := world }) ∧
      st.world.requests ≤ world.requests ∧ ¬ E.GrantsAll) := by
  rcases itemNew_cases E st key val with
    hnew | ⟨world, hnew, hrefused, hdenied⟩
  · left
    obtain ⟨table, htable⟩ := Option.ne_none_iff_exists'.mp hroom.allocated
    obtain ⟨chains, hholds, hcontents⟩ := h.holds.of_some htable
    have hadded : ∃ added,
        addItem st.world.requests (withNewItem key val st) = .ok added ∧
        ItemPut calls st entries key val (counted added) := by
      have hcalls := h.matching_eq key
      rcases hholds.find_cases h.bits_le st.hash.equalFunc
          (st.hash.hashFunc key) key with
        ⟨_, hall⟩ | ⟨e, first, second, hsplit, hmatch, hfirst, hmem⟩
      · rw [hcalls, hcontents] at hall
        exact addNewItem_added h hroom htable hholds hcontents hall
      · rw [hcalls] at hmatch hfirst
        rw [hcontents] at hmem
        exact addNewItem_replaced h hroom htable hholds hcontents hsplit
          hmatch hfirst hmem
    rcases hadded with ⟨added, hadd, houtcome⟩
    refine ⟨counted added, ?_, houtcome⟩
    rw [putItem, hnew, ok_bind]
    dsimp only
    rw [hadd, ok_bind]
    rfl
  · right
    obtain ⟨reported, hcode, hle⟩ := aErrorGetAlibCode_of_refused E hrefused
    refine ⟨reported, ?_, hle, hdenied⟩
    rw [putItem, hnew, ok_bind]
    dsimp only
    rw [hcode, ok_bind]
    rfl

/-- With a symmetric `equal_func` the entries stay apart. -/
theorem ItemPut.outcome {key val : Ptr} {after : HashState}
    (hsymm : ∀ a b, calls.equalFunc a b = true → calls.equalFunc b a = true)
    (h : HashInv calls st entries)
    (hput : ItemPut calls st entries key val after) :
    PutOutcome E calls st entries key val aErrorSuccess after := by
  have hcard := h.card_le
  cases hput with
  | added a after hnone hlinked hallocated hcount hfrees =>
      have hnodup := hlinked.nodup
      rw [Multiset.map_cons, Multiset.nodup_cons] at hnodup
      have haddr : ∀ other ∈ entries, other.addr ≠ a := by
        intro other hother heq
        exact hnodup.1 (Multiset.mem_map.mpr ⟨other, hother, heq⟩)
      refine .added a after hnone ?_ hallocated hcount hfrees
      refine .of_linked hlinked (h.apart.cons hsymm haddr hnone) ?_
      rw [Multiset.card_cons, hcount]
      exact Nat.succ_le_succ hcard
  | replaced e after hmem hfinds hlinked hallocated hcount hfrees =>
      refine .replaced e after hmem hfinds ?_ hallocated hcount hfrees
      refine .of_linked hlinked (h.apart.replaceVal hmem val) ?_
      rw [Multiset.card_cons, Multiset.card_erase_add_one hmem, hcount]
      exact Nat.le_succ_of_le hcard

theorem aHashPut_spec
    (hsymm : ∀ a b, calls.equalFunc a b = true → calls.equalFunc b a = true)
    (h : HashInv calls st entries) (hcount : st.hash.count < 2 ^ 30)
    (key val : Ptr) :
    ∃ code after, aHashPut E key val st = .ok (code, after) ∧
      PutOutcome E calls st entries key val code after := by
  obtain ⟨must, hmust, hextend⟩ := extendIf_spec (E := E) h.linked hcount
  rcases hextend with
    ⟨middle, entries', hextend, hrearranged, hroom⟩ |
    ⟨middle, hextend, hrearranged, hdenied⟩
  · have hunchanged := hrearranged.unchanged h
    have hput : aHashPut E key val st = putItem E key val middle := by
      rw [aHashPut, hmust, ok_bind, hextend, ok_bind]
      rfl
    rcases putItem_cases (E := E) hunchanged.inv.linked hroom key val with
      ⟨after, hitem, houtcome⟩ | ⟨world, hitem, hrequests, hdenied⟩
    · exact ⟨aErrorSuccess, after, hput.trans hitem,
        (houtcome.outcome hsymm hunchanged.inv).of_unchanged hunchanged⟩
    · exact ⟨aErrorOther, _, hput.trans hitem, .failed _
        (hunchanged.trans ((hunchanged.inv.linked.refused hrequests).unchanged
          hunchanged.inv)) hdenied⟩
  · refine ⟨aErrorOther, middle, ?_,
      .failed middle (hrearranged.unchanged h) hdenied⟩
    rw [aHashPut, hmust, ok_bind, hextend, ok_bind]
    rfl

/-- What a put does to the entries whatever `equal_func` answers: they are
made of the old ones and, if it succeeds, the new one. -/
inductive LinkedPut (E : Env) (calls : Callbacks) (st : HashState)
    (entries : Multiset Entry) (key val : Ptr) :
    ErrorCode → HashState → Multiset Entry → Prop where
  | stored (a : Addr) (after : HashState) (entries' : Multiset Entry)
      (hlinked : HashLinked calls after entries')
      (hallocated : after.hash.table ≠ none)
      (hcount : after.hash.count = st.hash.count + 1)
      (hreworked :
        Reworked (⟨a, calls.hashFunc key, key, val⟩ ::ₘ entries) st.ledger
          entries' after.ledger) :
      LinkedPut E calls st entries key val aErrorSuccess after entries'
  | failed (after : HashState) (entries' : Multiset Entry)
      (hrearranged : Rearranged calls st entries after entries')
      (hdenied : ¬ E.GrantsAll) :
      LinkedPut E calls st entries key val aErrorOther after entries'

theorem ItemPut.linked (E : Env) {key val : Ptr} {middle after : HashState}
    {entries' : Multiset Entry}
    (hrearranged : Rearranged calls st entries middle entries')
    (hput : ItemPut calls middle entries' key val after) :
    ∃ entries'',
      LinkedPut E calls st entries key val aErrorSuccess after entries'' := by
  have hfirst : ∀ e : Entry,
      Reworked (e ::ₘ entries) st.ledger (e ::ₘ entries') middle.ledger := by
    intro e
    have hsame := hrearranged.reworked.add_right {e}
    rwa [add_comm, Multiset.singleton_add, add_comm,
      Multiset.singleton_add] at hsame
  cases hput with
  | added a after hnone hlinked hallocated hcount hfrees =>
      exact ⟨_, .stored a after _ hlinked hallocated
        (by rw [hcount, hrearranged.count_eq])
        ((hfirst _).trans (reworked_sameFrees hfrees))⟩
  | replaced e after hmem hfinds hlinked hallocated hcount hfrees =>
      have hreplaced : Reworked (⟨0, calls.hashFunc key, key, val⟩ ::ₘ entries')
          middle.ledger ({ e with val := val } ::ₘ entries'.erase e)
          (middle.ledger.freeItem calls key e.val) :=
        reworked_replaced hmem calls.keyFree calls.valFree
      exact ⟨_, .stored 0 after _ hlinked hallocated
        (by rw [hcount, hrearranged.count_eq])
        (((hfirst _).trans hreplaced).trans (reworked_sameFrees hfrees))⟩

theorem Rearranged.trans {middle after : HashState}
    {entries' entries'' : Multiset Entry}
    (hfirst : Rearranged calls st entries middle entries')
    (hsecond : Rearranged calls middle entries' after entries'') :
    Rearranged calls st entries after entries'' where
  linked := hsecond.linked
  allocated := fun h => hsecond.allocated (hfirst.allocated h)
  count_eq := hsecond.count_eq.trans hfirst.count_eq
  reworked := hfirst.reworked.trans hsecond.reworked
  kept := by
    intro hapart
    obtain ⟨hentries, hfrees⟩ := hfirst.kept hapart
    subst hentries
    obtain ⟨hentries', hfrees'⟩ := hsecond.kept hapart
    exact ⟨hentries', hfrees.trans hfrees'⟩

theorem aHashPut_linked (h : HashLinked calls st entries)
    (hcount : st.hash.count < 2 ^ 30) (key val : Ptr) :
    ∃ code after entries', aHashPut E key val st = .ok (code, after) ∧
      LinkedPut E calls st entries key val code after entries' := by
  obtain ⟨must, hmust, hextend⟩ := extendIf_spec (E := E) h hcount
  rcases hextend with
    ⟨middle, entries', hextend, hrearranged, hroom⟩ |
    ⟨middle, hextend, hrearranged, hdenied⟩
  · have hput : aHashPut E key val st = putItem E key val middle := by
      rw [aHashPut, hmust, ok_bind, hextend, ok_bind]
      rfl
    rcases putItem_cases (E := E) hrearranged.linked hroom key val with
      ⟨after, hitem, houtcome⟩ | ⟨world, hitem, hrequests, hdenied⟩
    · obtain ⟨entries'', hlinked⟩ := houtcome.linked E hrearranged
      exact ⟨aErrorSuccess, after, entries'', hput.trans hitem, hlinked⟩
    · exact ⟨aErrorOther, _, entries', hput.trans hitem, .failed _ _
        (hrearranged.trans (hrearranged.linked.refused hrequests)) hdenied⟩
  · refine ⟨aErrorOther, middle, entries, ?_,
      .failed middle entries hrearranged hdenied⟩
    rw [aHashPut, hmust, ok_bind, hextend, ok_bind]
    rfl

/-- A put faults in `extend` once the table has `2 ^ 30` full chains. -/
theorem put_overflow (h : HashLinked calls st entries)
    (hcount : 2 ^ 30 ≤ st.hash.count) (key val : Ptr) :
    aHashPut E key val st = .error .shiftOverflow := by
  have hle : 2 ^ st.hash.bits ≤ 2 ^ 30 :=
    Nat.pow_le_pow_right (by decide) h.bits_le
  have hcountLe := h.count_le
  have hbits : st.hash.bits = 30 := by
    apply Nat.le_antisymm h.bits_le
    exact (Nat.pow_le_pow_iff_right (by decide)).mp
      (hcount.trans hcountLe)
  have heq : st.hash.count = 2 ^ 30 := by omega
  have hmust : mustExtend st.hash = .ok true := by
    have hnot : st.hash.count ≠ 0 := by omega
    have hadd : sizeAdd st.hash.count 1 = 2 ^ 30 + 1 := by
      rw [heq]
      rfl
    rw [mustExtend, if_neg hnot, bits2size_eq h.bits_le, ok_bind, hadd, hbits]
    rfl
  have hextended : extendedBits st.hash = 31 := by
    have hnot : st.hash.count ≠ 0 := by omega
    rw [extendedBits, if_pos hnot, hbits]
    rfl
  have hextend : extend E st = .error .shiftOverflow := by
    rw [extend, bits2size_eq h.bits_le, ok_bind]
    dsimp only
    rw [hextended]
    rfl
  rw [aHashPut, hmust, ok_bind, extendIf, if_pos rfl, hextend]
  rfl

theorem aHashPut_of_ok (h : HashLinked calls st entries) {key val : Ptr}
    {code : ErrorCode} {after : HashState}
    (hput : aHashPut E key val st = .ok (code, after)) :
    ∃ entries', LinkedPut E calls st entries key val code after entries' := by
  by_cases hcount : st.hash.count < 2 ^ 30
  · obtain ⟨code', after', entries', hput', houtcome⟩ :=
      aHashPut_linked (E := E) h hcount key val
    rw [hput] at hput'
    cases hput'
    exact ⟨entries', houtcome⟩
  · rw [put_overflow h (Nat.not_lt.mp hcount)] at hput
    cases hput

end Put

end Hash
end Alib
