import Alib.BintreeOwnership
import Alib.HashOwnership
import Alib.HashQuery

/-!
# What the destructors are called with

Whatever the callbacks answer, `key_free` and `val_free` get keys and values of
successful puts, except that both containers blank the value of a removed entry
before they free it: `val_free`, if there is one, is then called with `NULL`.
`a_hash_delete` also passes on the `NULL` it is returned for a key that is not
there, which `a_bintree_delete` tests for.
-/

namespace Alib

open Execution KeyedMap Ownership

/-- The value, if the call is a put, is not `NULL`. -/
def NonNullVal (op : MapOp Ptr Ptr) : Prop :=
  ∀ key val, op = .put key val → val ≠ 0

namespace Hash

variable {E : Env} {calls : Callbacks} {st : HashState}
  {entries : Multiset Entry}

theorem TableHolds.unique {items : Addr → Option AHashItem}
    {slots : List (Option Addr)} {bits : ℕ} {chains chains' : Chains}
    (h : TableHolds items slots bits chains)
    (h' : TableHolds items slots bits chains') :
    contents bits chains = contents bits chains' := by
  apply Finset.sum_congr rfl
  intro i hi
  obtain ⟨slot, hslot, hchain⟩ := h.slot (Finset.mem_range.mp hi)
  rw [hchain.unique (h'.chain i slot hslot)]

theorem HoldsEntries.unique {entries' : Multiset Entry}
    (h : HoldsEntries st entries) (h' : HoldsEntries st entries') :
    entries = entries' := by
  cases htable : st.hash.table with
  | none => rw [h.of_none htable, h'.of_none htable]
  | some table =>
      obtain ⟨chains, hholds, hcontents⟩ := h.of_some htable
      obtain ⟨chains', hholds', hcontents'⟩ := h'.of_some htable
      rw [← hcontents, ← hcontents', hholds.unique hholds']

theorem HoldsEntries.not_stored (h : HoldsEntries st entries) {key : Ptr}
    (hnone : ∀ e ∈ entries, calls.finds key e = false) :
    ¬ Stored calls st key := by
  intro hstored
  rcases hstored with ⟨entries', h', e, he, hfinds⟩
  rw [← h.unique h'] at he
  rw [hnone e he] at hfinds
  cases hfinds

/-- The destructors only see what was put, and removing a stored key and
deleting another one leave them alone as far as they should. -/
def DestroysTaken (calls : Callbacks) : HashConfig → HashOp → HashConfig → Prop :=
  SeesTaken (ownTerms calls) (fun st => st.ledger.keyFreed)
    (fun st => st.ledger.valFreed) (Stored calls)

/-- No entry is removed and no key is deleted by a call which would pass a
`NULL` on. -/
def SparesNull (calls : Callbacks) (config : HashConfig) : HashOp → Prop
  | .remove key => calls.valFree = true → ¬ Stored calls config.state key
  | .delete _ => calls.valFree = false
  | _ => True

/-- The pointers in the table and those freed come from successful puts, which
had no null values. -/
def DrawnInv (calls : Callbacks) (config : HashConfig) : Prop :=
  (∃ entries, HashLinked calls config.state entries ∧
    DrawnFrom ((ownTerms calls).TakenKey config.transcript)
      ((ownTerms calls).TakenVal config.transcript) entries
      config.state.ledger) ∧
  ∀ op ∈ config.history, NonNullVal op

theorem drawnInv_init (calls : Callbacks) (items : Addr → Option AHashItem)
    (itemNodes tables : List Addr) (world : World) :
    DrawnInv calls (Config.initial
      ⟨aHashInit calls, items, ⟨[], [], itemNodes, tables⟩, world⟩) :=
  ⟨⟨0, .init calls items _ world, by simp, by simp, by simp⟩, nofun⟩

section Step

variable {config after : HashConfig} {op : HashOp} {out : HashOut}
  {state : HashState} {entries' : Multiset Entry}

theorem LinkedRemove.drawn {K V : Ptr → Prop} {key val : Ptr}
    (houtcome : LinkedRemove calls st entries key val state entries')
    (hdrawn : DrawnFrom K V entries st.ledger)
    (hspares : calls.valFree = true → ∀ e ∈ entries,
      calls.finds key e = false) :
    DrawnFrom K V entries' state.ledger := by
  cases houtcome with
  | removed e after hmem hfinds hledger =>
      have habsent : calls.valFree = false := by
        by_contra hpresent
        rw [hspares (Bool.eq_true_of_not_eq_false hpresent) e hmem] at hfinds
        cases hfinds
      rw [hledger]
      apply (hdrawn.of_subset fun other hother =>
        Multiset.mem_of_mem_erase hother).freed
        (freeItem_keyFreed calls st.ledger e.key 0)
        (freeItem_valFreed calls st.ledger e.key 0)
      · intro _
        exact List.forall_mem_singleton.mpr (hdrawn.stored e hmem).1
      · intro hpresent
        rw [habsent] at hpresent
        cases hpresent
  | absent _ => exact hdrawn

theorem withFreedVal_of_absent {val : Ptr}
    (hcalls : (withFreedVal val st).hash.toCallbacks = calls)
    (hvalFree : calls.valFree = false) : withFreedVal val st = st := by
  have habsent : st.hash.valFree = false := by
    rw [← hvalFree, ← hcalls]
    rfl
  rw [withFreedVal, habsent]
  rfl

/-- A call which spares the destructors a `NULL` only frees what was put. -/
theorem LinkedOutcome.drawn (h : HashLinked calls config.state entries)
    (hdrawn : DrawnFrom ((ownTerms calls).TakenKey config.transcript)
      ((ownTerms calls).TakenVal config.transcript) entries
      config.state.ledger)
    (h' : HashLinked calls state entries')
    (hspares : SparesNull calls config op)
    (houtcome :
      LinkedOutcome E calls config.state entries op out state entries') :
    DrawnFrom ((ownTerms calls).TakenKey (config.transcript ++ [(op, out)]))
      ((ownTerms calls).TakenVal (config.transcript ++ [(op, out)])) entries'
      state.ledger := by
  have hkept := hdrawn.append [(op, out)]
  cases houtcome with
  | put key val code after entries' houtcome =>
      cases houtcome with
      | stored a after entries' _ _ _ hreworked =>
          apply hreworked.drawn
          rw [← Multiset.singleton_add, add_comm]
          apply hkept.add
          intro e he
          rw [Multiset.mem_singleton.mp he]
          exact taken_key_val rfl
      | failed after entries' hrearranged _ =>
          exact hrearranged.reworked.drawn _ _ hkept
  | get key val => exact hkept
  | remove key val after entries' houtcome =>
      apply houtcome.drawn hkept
      intro hpresent
      exact finds_false_of_not_stored h.holds (hspares hpresent)
  | delete key val removed entries' houtcome =>
      have hvalFree : calls.valFree = false := hspares
      have hremoved : DrawnFrom _ _ entries' removed.ledger :=
        houtcome.drawn hkept fun hpresent => by
          rw [hvalFree] at hpresent
          cases hpresent
      rwa [withFreedVal_of_absent h'.callbacks hvalFree]
  | clear after order horder hhash hledger =>
      obtain ⟨hkeyFreed, hvalFreed⟩ :=
        freeAll_freed calls order config.state.ledger
      rw [hledger]
      exact hkept.cleared
        (fun e he => horder ▸ Multiset.mem_coe.mpr he) hkeyFreed hvalFreed

/-- Such a call leaves the destructors alone where it should. -/
theorem LinkedOutcome.quiet (h : HashLinked calls config.state entries)
    (hcalls : state.hash.toCallbacks = calls)
    (hspares : SparesNull calls config op)
    (houtcome :
      LinkedOutcome E calls config.state entries op out state entries') :
    (∀ key, op = .remove key → Stored calls config.state key →
      state.ledger.valFreed = config.state.ledger.valFreed) ∧
    ∀ key, op = .delete key → ¬ Stored calls config.state key →
      state.ledger.keyFreed = config.state.ledger.keyFreed ∧
        state.ledger.valFreed = config.state.ledger.valFreed := by
  constructor
  · intro key hop hstored
    subst hop
    have hvalFree : calls.valFree = false := by
      by_contra hpresent
      exact hspares (Bool.eq_true_of_not_eq_false hpresent) hstored
    cases houtcome with
    | remove key val after entries' houtcome =>
        cases houtcome with
        | removed e after _ _ hledger =>
            rw [hledger, freeItem_valFreed, hvalFree]
            simp
        | absent _ => rfl
  · intro key hop hnot
    subst hop
    have hvalFree : calls.valFree = false := hspares
    cases houtcome with
    | delete key val removed entries' houtcome =>
        rw [withFreedVal_of_absent hcalls hvalFree]
        cases houtcome with
        | removed e removed hmem hfinds _ =>
            exact absurd ⟨entries, h.holds, e, hmem, hfinds⟩ hnot
        | absent _ => exact ⟨rfl, rfl⟩

/-- Any other call passes a `NULL` to `val_free`. -/
theorem LinkedOutcome.frees_null (h : HashLinked calls config.state entries)
    (hcalls : state.hash.toCallbacks = calls)
    (hspares : ¬ SparesNull calls config op)
    (houtcome :
      LinkedOutcome E calls config.state entries op out state entries') :
    0 ∈ state.ledger.valFreed := by
  cases houtcome with
  | put key val code after entries' _ => exact absurd trivial hspares
  | get key val => exact absurd trivial hspares
  | remove key val after entries' houtcome =>
      cases houtcome with
      | removed e after _ _ hledger =>
          have hvalFree : calls.valFree = true := by
            by_contra habsent
            exact hspares fun hpresent => absurd hpresent habsent
          rw [hledger, freeItem_valFreed, hvalFree]
          simp
      | absent hnone =>
          exact absurd (fun _ => h.holds.not_stored hnone) hspares
  | delete key val removed entries' houtcome =>
      have hvalFree : calls.valFree = true :=
        Bool.eq_true_of_not_eq_false hspares
      have hfreed : (withFreedVal val removed).ledger.valFreed =
          removed.ledger.valFreed ++ [val] := by
        have hpresent : removed.hash.valFree = true := by
          rw [← hvalFree, ← hcalls]
          rfl
        rw [withFreedVal, hpresent]
        rfl
      rw [hfreed]
      cases houtcome with
      | removed e removed _ _ hledger =>
          rw [hledger, freeItem_valFreed, hvalFree]
          simp
      | absent _ => simp
  | clear after order _ _ _ => exact absurd trivial hspares

end Step

/-- The value of a put is not `NULL`, and the call returns. -/
def ReturnsNonNull (E : Env) (config : HashConfig) (op : HashOp) : Prop :=
  NonNullVal op ∧ ∃ after, config.step (hashStep E) op = .ok after

theorem destroysTaken_step (config : HashConfig) (op : HashOp)
    (hinv : DrawnInv calls config) (hreturns : ReturnsNonNull E config op) :
    ∃ after, config.step (hashStep E) op = .ok after ∧
      (DestroysTaken calls config op after → SparesNull calls config op) ∧
      (SparesNull calls config op →
        DestroysTaken calls config op after ∧ DrawnInv calls after) := by
  rcases hinv with ⟨⟨entries, h, hdrawn⟩, hpast⟩
  rcases hreturns with ⟨hval, after, hstep⟩
  have hpast' := Config.forall_history_step hpast hval hstep
  obtain ⟨out, hcall, htranscript⟩ := Config.step_eq_ok_iff.mp hstep
  obtain ⟨entries', h', houtcome⟩ := hashStep_linked h hcall
  refine ⟨after, hstep, ?_, ?_⟩
  · intro hsees
    by_contra hspares
    have hnull := houtcome.frees_null h h'.callbacks hspares
    exact not_takenVal_null hpast' (hsees.vals 0 hnull)
  · intro hspares
    have hafter := houtcome.drawn h hdrawn h' hspares
    rw [← htranscript] at hafter
    obtain ⟨hremove, hdelete⟩ := houtcome.quiet h h'.callbacks hspares
    exact ⟨⟨hafter.keyFreed, hafter.valFreed, hremove, hdelete⟩,
      ⟨entries', h', hafter⟩, hpast'⟩

theorem aHash_destroysTaken (E : Env) (calls : Callbacks)
    (items : Addr → Option AHashItem) (itemNodes tables : List Addr)
    (world : World) {ops : List HashOp} {reached : HashConfig}
    (hvals : ∀ op ∈ ops, NonNullVal op)
    (hrun : run (hashStep E) (Config.initial
      ⟨aHashInit calls, items, ⟨[], [], itemNodes, tables⟩, world⟩) ops =
        .ok reached) :
    Keeps (hashStep E) (DestroysTaken calls) (Config.initial
        ⟨aHashInit calls, items, ⟨[], [], itemNodes, tables⟩, world⟩) ops ↔
      Meets (hashStep E) (SparesNull calls) (Config.initial
        ⟨aHashInit calls, items, ⟨[], [], itemNodes, tables⟩, world⟩) ops :=
  keeps_iff_meets_of_total destroysTaken_step
    (drawnInv_init calls items itemNodes tables world)
    (meets_of_run hvals hrun)

end Hash

namespace Bintree

variable {E : Env} {calls : Callbacks} {st : BintreeState} {t : Tree}

/-- A key is stored if a search for it from the root meets an equal key. -/
def Stored (calls : Callbacks) (st : BintreeState) (key : Ptr) : Prop :=
  ∃ t e, nodeLayout.IsTree st.nodes st.tree.root t ∧
    calls.find key t = some e

theorem HoldsTree.stored_iff (h : HoldsTree calls st t) (key : Ptr) :
    Stored calls st key ↔ calls.find key t ≠ none := by
  constructor
  · intro hstored
    rcases hstored with ⟨t', e, htree, hfind⟩
    rw [h.tree.unique htree, hfind]
    exact Option.some_ne_none e
  · intro hfind
    obtain ⟨e, he⟩ := Option.ne_none_iff_exists'.mp hfind
    exact ⟨t, e, h.tree, he⟩

def DestroysTaken (calls : Callbacks) :
    BintreeConfig → BintreeOp → BintreeConfig → Prop :=
  SeesTaken (ownTerms calls) (fun st => st.ledger.keyFreed)
    (fun st => st.ledger.valFreed) (Stored calls)

def SparesNull (calls : Callbacks) (config : BintreeConfig) :
    BintreeOp → Prop
  | .remove key => calls.valFree = true → ¬ Stored calls config.state key
  | .delete key => calls.valFree = true → ¬ Stored calls config.state key
  | _ => True

/-- The pointers in the tree and those freed come from these. -/
abbrev DrawnFrom (K V : Ptr → Prop) (entries : Multiset Entry)
    (ledger : Ledger) : Prop :=
  Drawn Entry.key Entry.val K V entries ledger.keyFreed ledger.valFreed

def DrawnInv (calls : Callbacks) (config : BintreeConfig) : Prop :=
  (∃ t, HoldsTree calls config.state t ∧
    DrawnFrom ((ownTerms calls).TakenKey config.transcript)
      ((ownTerms calls).TakenVal config.transcript) (contents t)
      config.state.ledger) ∧
  ∀ op ∈ config.history, NonNullVal op

theorem drawnInv_init (calls : Callbacks)
    (nodes : Addr → Option ABintreeNode) (world : World) :
    DrawnInv calls (Config.initial
      ⟨aBintreeInit calls, nodes, ⟨[], [], [], []⟩, world⟩) := by
  refine ⟨⟨.nil, (BintreeInv.init calls nodes _ world).toHoldsTree, ?_, ?_,
    ?_⟩, ?_⟩
  · intro e he
    exact absurd he (Multiset.notMem_zero e)
  · simp
  · simp
  · exact fun op hop => absurd hop List.not_mem_nil

section Ledger

variable {K V : Ptr → Prop} {entries : Multiset Entry} {ledger : Ledger}
  {key : Ptr}

theorem drawn_nodeFree (h : DrawnFrom K V entries ledger) (a : Addr)
    {key val : Ptr} (hkey : K key) (hval : calls.valFree = true → V val) :
    DrawnFrom K V entries (ledger.nodeFree calls a key val) :=
  h.freed rfl rfl (fun _ => List.forall_mem_singleton.mpr hkey)
    fun hpresent => List.forall_mem_singleton.mpr (hval hpresent)

theorem drawn_hangLedger {left right : Tree}
    (h : DrawnFrom K V entries ledger)
    (hstored : ∀ e ∈ SearchTree.inorder left, K e.key ∧ V e.val) :
    DrawnFrom K V entries (calls.hangLedger left right ledger) := by
  cases right with
  | nil => exact h
  | node new sub sub' =>
      rw [Callbacks.hangLedger]
      cases hfind : calls.find new.key left with
      | none => exact h
      | some old =>
          have hold := hstored old (SearchTree.mem_of_find hfind).1
          exact drawn_nodeFree h new.addr hold.1 fun _ => hold.2

theorem drawn_removeLedger {t : Tree} (h : DrawnFrom K V entries ledger)
    (hstored : ∀ e ∈ SearchTree.inorder t, K e.key ∧ V e.val)
    (hspares : calls.valFree = true → calls.find key t = none) :
    DrawnFrom K V entries (calls.removeLedger key t ledger) := by
  induction t with
  | nil => exact h
  | node r left right ihLeft ihRight =>
      rcases lt_trichotomy (calls.keyCmp r.key key) 0 with
        hneg | hzero | hpos
      · rw [removeLedger_neg hneg]
        rw [find_neg hneg] at hspares
        exact ihLeft (fun e he => hstored e (by simp [he])) hspares
      · rw [removeLedger_zero hzero]
        rw [find_zero hzero] at hspares
        have hhang : DrawnFrom K V entries
            (calls.hangLedger left right ledger) :=
          drawn_hangLedger h fun e he => hstored e (by simp [he])
        refine drawn_nodeFree hhang r.addr (hstored r (by simp)).1 ?_
        intro hpresent
        cases hspares hpresent
      · rw [removeLedger_pos hpos]
        rw [find_pos hpos] at hspares
        exact ihRight (fun e he => hstored e (by simp [he])) hspares

theorem nodeFree_valFreed (hvalFree : calls.valFree = false) (a : Addr)
    (key val : Ptr) (ledger : Ledger) :
    (ledger.nodeFree calls a key val).valFreed = ledger.valFreed := by
  simp [Ledger.nodeFree, hvalFree]

theorem hangLedger_valFreed (hvalFree : calls.valFree = false)
    (left right : Tree) (ledger : Ledger) :
    (calls.hangLedger left right ledger).valFreed = ledger.valFreed := by
  cases right with
  | nil => rfl
  | node new sub sub' =>
      rw [Callbacks.hangLedger]
      cases calls.find new.key left with
      | none => rfl
      | some old => exact nodeFree_valFreed hvalFree _ _ _ _

theorem removeLedger_valFreed (hvalFree : calls.valFree = false) (t : Tree)
    (ledger : Ledger) :
    (calls.removeLedger key t ledger).valFreed = ledger.valFreed := by
  induction t with
  | nil => rfl
  | node r left right ihLeft ihRight =>
      rcases lt_trichotomy (calls.keyCmp r.key key) 0 with
        hneg | hzero | hpos
      · rw [removeLedger_neg hneg, ihLeft]
      · rw [removeLedger_zero hzero, nodeFree_valFreed hvalFree,
          hangLedger_valFreed hvalFree]
      · rw [removeLedger_pos hpos, ihRight]

theorem null_mem_removeLedger (hvalFree : calls.valFree = true) {t : Tree}
    {e : Entry} (hfind : calls.find key t = some e) (ledger : Ledger) :
    0 ∈ (calls.removeLedger key t ledger).valFreed := by
  induction t with
  | nil => cases hfind
  | node r left right ihLeft ihRight =>
      rcases lt_trichotomy (calls.keyCmp r.key key) 0 with
        hneg | hzero | hpos
      · rw [find_neg hneg] at hfind
        rw [removeLedger_neg hneg]
        exact ihLeft hfind
      · rw [removeLedger_zero hzero]
        simp [Ledger.nodeFree, hvalFree]
      · rw [find_pos hpos] at hfind
        rw [removeLedger_pos hpos]
        exact ihRight hfind

end Ledger

section Step

variable {config after : BintreeConfig} {op : BintreeOp} {out : BintreeOut}
  {state : BintreeState} {t' : Tree}

theorem freeRemoved_of_absent {val : Ptr}
    (hcalls : st.tree.toCallbacks = calls) (hvalFree : calls.valFree = false) :
    freeRemoved val st = st := by
  subst hcalls
  exact if_neg fun h => Bool.false_ne_true (hvalFree.symm.trans h.2)

theorem drawn_put {K V : Ptr → Prop} {key val : Ptr} {a : Addr}
    (h : DrawnFrom K V (contents t) st.ledger) (hnew : K key ∧ V val)
    (hledger : state.ledger = (calls.find key t).elim (st.ledger.allocate a)
      (fun e => (st.ledger.allocate a).nodeFree calls a e.key e.val)) :
    DrawnFrom K V (contents (calls.put a key val t)) state.ledger := by
  have hallocated : DrawnFrom K V (contents t) (st.ledger.allocate a) :=
    ⟨h.stored, h.keyFreed, h.valFreed⟩
  rw [hledger, Callbacks.put]
  cases hfind : calls.find key t with
  | none =>
      rw [contents_hang_of_find_none ⟨a, key, val⟩ hfind,
        ← Multiset.singleton_add, add_comm]
      apply hallocated.add
      intro e he
      rw [Multiset.mem_singleton.mp he]
      exact hnew
  | some old =>
      have hmem := (mem_of_find_some hfind).1
      have hold := h.stored old hmem
      rw [contents_hang_of_find_some ⟨a, key, val⟩ _ hfind,
        ← Multiset.singleton_add, add_comm]
      apply Drawn.add
      · exact (drawn_nodeFree hallocated a hold.1 fun _ => hold.2).of_subset
          fun e he => Multiset.mem_of_mem_erase he
      · intro e he
        rw [Multiset.mem_singleton.mp he]
        exact hnew

theorem drawn_remove {K V : Ptr → Prop} {key : Ptr}
    (h : DrawnFrom K V (contents t) st.ledger)
    (hspares : calls.valFree = true → calls.find key t = none)
    (hledger : state.ledger = calls.removeLedger key t st.ledger) :
    DrawnFrom K V (contents (calls.remove key t)) state.ledger := by
  rw [hledger]
  exact (drawn_removeLedger h h.stored hspares).of_sources
    fun e he => mem_remove he

theorem HeldOutcome.drawn (h : HoldsTree calls config.state t)
    (hdrawn : DrawnFrom ((ownTerms calls).TakenKey config.transcript)
      ((ownTerms calls).TakenVal config.transcript) (contents t)
      config.state.ledger)
    (hspares : SparesNull calls config op)
    (houtcome : HeldOutcome calls config.state t op out state t') :
    DrawnFrom ((ownTerms calls).TakenKey (config.transcript ++ [(op, out)]))
      ((ownTerms calls).TakenVal (config.transcript ++ [(op, out)]))
      (contents t') state.ledger := by
  have hkept := hdrawn.append [(op, out)]
  have hfinds : ∀ key, (calls.valFree = true →
      ¬ Stored calls config.state key) →
      calls.valFree = true → calls.find key t = none := by
    intro key hnot hpresent
    by_contra hfind
    exact hnot hpresent ((h.stored_iff key).mpr hfind)
  cases houtcome with
  | stored key val after hledger =>
      exact drawn_put hkept (taken_key_val rfl) hledger
  | failed key val world => exact hkept
  | get key => exact hkept
  | removed key e after hfind hledger =>
      exact drawn_remove hkept (hfinds key hspares) hledger
  | missing key _ => exact hkept
  | deleted key e removed hfind hcalls hledger =>
      have hvalFree : calls.valFree = false := by
        by_contra hpresent
        have hnone := hfinds key hspares
          (Bool.eq_true_of_not_eq_false hpresent)
        rw [hfind] at hnone
        cases hnone
      rw [freeRemoved_of_absent hcalls hvalFree]
      exact drawn_remove hkept (hfinds key hspares) hledger
  | unfound key _ => exact hkept
  | clear after hledger =>
      obtain ⟨hkeyFreed, hvalFreed, _, _⟩ :=
        freeAll_ledger calls (axeOrder t) config.state.ledger
      rw [hledger]
      exact hkept.cleared
        (fun e he => (axeOrder_perm t).mem_iff.mp he) hkeyFreed hvalFreed

theorem HeldOutcome.quiet (h : HoldsTree calls config.state t)
    (hspares : SparesNull calls config op)
    (houtcome : HeldOutcome calls config.state t op out state t') :
    (∀ key, op = .remove key → Stored calls config.state key →
      state.ledger.valFreed = config.state.ledger.valFreed) ∧
    ∀ key, op = .delete key → ¬ Stored calls config.state key →
      state.ledger.keyFreed = config.state.ledger.keyFreed ∧
        state.ledger.valFreed = config.state.ledger.valFreed := by
  constructor
  · intro key hop hstored
    subst hop
    have hvalFree : calls.valFree = false := by
      by_contra hpresent
      exact hspares (Bool.eq_true_of_not_eq_false hpresent) hstored
    cases houtcome with
    | removed key e after hfind hledger =>
        rw [hledger, removeLedger_valFreed hvalFree]
    | missing key _ => rfl
  · intro key hop hnot
    subst hop
    cases houtcome with
    | deleted key e removed hfind hcalls hledger =>
        have hsome : calls.find key t ≠ none := by
          rw [hfind]
          exact Option.some_ne_none e
        exact absurd ((h.stored_iff key).mpr hsome) hnot
    | unfound key _ => exact ⟨rfl, rfl⟩

theorem HeldOutcome.frees_null (h : HoldsTree calls config.state t)
    (hspares : ¬ SparesNull calls config op)
    (houtcome : HeldOutcome calls config.state t op out state t') :
    0 ∈ state.ledger.valFreed := by
  have hboth : ∀ key, ¬ (calls.valFree = true →
      ¬ Stored calls config.state key) →
      calls.valFree = true ∧ calls.find key t ≠ none := by
    intro key hnot
    rw [Classical.not_imp, not_not] at hnot
    exact ⟨hnot.1, (h.stored_iff key).mp hnot.2⟩
  cases houtcome with
  | stored key val after _ => exact absurd trivial hspares
  | failed key val world => exact absurd trivial hspares
  | get key => exact absurd trivial hspares
  | removed key e after hfind hledger =>
      rw [hledger]
      exact null_mem_removeLedger (hboth key hspares).1 hfind _
  | missing key hfind => exact absurd hfind (hboth key hspares).2
  | deleted key e removed hfind hcalls hledger =>
      have hnull := null_mem_removeLedger (hboth key hspares).1 hfind
        config.state.ledger
      rw [← hledger] at hnull
      unfold freeRemoved
      split
      · exact List.mem_append_left _ hnull
      · exact hnull
  | unfound key hfind => exact absurd hfind (hboth key hspares).2
  | clear after _ => exact absurd trivial hspares

end Step

theorem destroysTaken_step (config : BintreeConfig) (op : BintreeOp)
    (hinv : DrawnInv calls config) (hval : NonNullVal op) :
    ∃ after, config.step (bintreeStep E) op = .ok after ∧
      (DestroysTaken calls config op after → SparesNull calls config op) ∧
      (SparesNull calls config op →
        DestroysTaken calls config op after ∧ DrawnInv calls after) := by
  rcases hinv with ⟨⟨t, h, hdrawn⟩, hpast⟩
  obtain ⟨out, state, t', hcall, h', houtcome⟩ :=
    bintreeStep_holds (E := E) h op
  have hstep := Config.step_of_ok hcall
  have hpast' := Config.forall_history_step hpast hval hstep
  refine ⟨_, hstep, ?_, ?_⟩
  · intro hsees
    by_contra hspares
    have hnull := houtcome.frees_null h hspares
    exact not_takenVal_null hpast' (hsees.vals 0 hnull)
  · intro hspares
    have hafter := houtcome.drawn h hdrawn hspares
    obtain ⟨hremove, hdelete⟩ := houtcome.quiet h hspares
    exact ⟨⟨hafter.keyFreed, hafter.valFreed, hremove, hdelete⟩,
      ⟨t', h', hafter⟩, hpast'⟩

theorem aBintree_destroysTaken (E : Env) (calls : Callbacks)
    (nodes : Addr → Option ABintreeNode) (world : World)
    {ops : List BintreeOp} (hvals : ∀ op ∈ ops, NonNullVal op) :
    Keeps (bintreeStep E) (DestroysTaken calls) (Config.initial
        ⟨aBintreeInit calls, nodes, ⟨[], [], [], []⟩, world⟩) ops ↔
      Meets (bintreeStep E) (SparesNull calls) (Config.initial
        ⟨aBintreeInit calls, nodes, ⟨[], [], [], []⟩, world⟩) ops := by
  have hmeets : Meets (bintreeStep E) (fun _ op => NonNullVal op)
      (Config.initial
        ⟨aBintreeInit calls, nodes, ⟨[], [], [], []⟩, world⟩) ops :=
    meets_of_forall (fun op hop _ => hvals op hop) _
  exact keeps_iff_meets_of_total destroysTaken_step
    (drawnInv_init calls nodes world) hmeets

end Bintree

/-- In every run of calls that return, with no `NULL` among the values put, the
destructors only see what was put exactly if no call passes the `NULL` of a
blanked or missing value on; the calls on a tree always return. -/
theorem destructors_iff (E : Env) :
    (∀ (calls : Hash.Callbacks) (items : Addr → Option Hash.AHashItem)
      (itemNodes tables : List Addr) (world : World) (ops : List Hash.HashOp)
      (reached : Hash.HashConfig), (∀ op ∈ ops, NonNullVal op) →
      run (Hash.hashStep E) (Config.initial
        ⟨Hash.aHashInit calls, items, ⟨[], [], itemNodes, tables⟩, world⟩)
        ops = .ok reached →
      (Keeps (Hash.hashStep E) (Hash.DestroysTaken calls) (Config.initial
          ⟨Hash.aHashInit calls, items, ⟨[], [], itemNodes, tables⟩, world⟩)
          ops ↔
        Meets (Hash.hashStep E) (Hash.SparesNull calls) (Config.initial
          ⟨Hash.aHashInit calls, items, ⟨[], [], itemNodes, tables⟩, world⟩)
          ops)) ∧
    ∀ (calls : Bintree.Callbacks)
      (nodes : Addr → Option Bintree.ABintreeNode) (world : World)
      (ops : List Bintree.BintreeOp), (∀ op ∈ ops, NonNullVal op) →
      (Keeps (Bintree.bintreeStep E) (Bintree.DestroysTaken calls)
          (Config.initial
            ⟨Bintree.aBintreeInit calls, nodes, ⟨[], [], [], []⟩, world⟩)
          ops ↔
        Meets (Bintree.bintreeStep E) (Bintree.SparesNull calls)
          (Config.initial
            ⟨Bintree.aBintreeInit calls, nodes, ⟨[], [], [], []⟩, world⟩)
          ops) := by
  constructor
  · intro calls items itemNodes tables world ops reached hvals hrun
    exact Hash.aHash_destroysTaken E calls items itemNodes tables world hvals
      hrun
  · intro calls nodes world ops hvals
    exact Bintree.aBintree_destroysTaken E calls nodes world hvals

/-- Putting a key twice and cleaning up. -/
theorem destructors_run :
    Keeps (Hash.hashStep (filledEnv 0)) (Hash.DestroysTaken Hash.wordCalls)
      Hash.emptyConfig [.put 1 10, .put 1 11, .get 1, .clear] ∧
    Keeps (Bintree.bintreeStep (filledEnv 0))
      (Bintree.DestroysTaken Bintree.wordCalls)
      (Config.initial ⟨Bintree.aBintreeInit Bintree.wordCalls, fun _ => none,
        ⟨[], [], [], []⟩, ⟨0, 0, .null, [], false⟩⟩)
      [.put 1 10, .put 1 11, .get 1, .clear] := by
  have hvals : ∀ op ∈ [MapOp.put (1 : Ptr) (10 : Ptr), .put 1 11, .get 1,
      .clear], NonNullVal op := by
    simp [NonNullVal]
  constructor
  · apply ((destructors_iff (filledEnv 0)).1 Hash.wordCalls (fun _ => none) []
      [] Hash.blankWorld _ _ hvals rfl).mpr
    exact ⟨trivial, fun _ _ => ⟨trivial, fun _ _ => ⟨trivial,
      fun _ _ => ⟨trivial, fun _ _ => trivial⟩⟩⟩⟩
  · apply ((destructors_iff (filledEnv 0)).2 Bintree.wordCalls
      (fun _ => none) ⟨0, 0, .null, [], false⟩ _ hvals).mpr
    exact ⟨trivial, fun _ _ => ⟨trivial, fun _ _ => ⟨trivial,
      fun _ _ => ⟨trivial, fun _ _ => trivial⟩⟩⟩⟩

/-- Removing a stored key from either container, or deleting another one from a
hash table, calls `val_free` with `NULL`. -/
theorem destructors_fail :
    ¬ Keeps (Hash.hashStep (filledEnv 0)) (Hash.DestroysTaken Hash.wordCalls)
      Hash.emptyConfig [.put 1 10, .remove 1] ∧
    ¬ Keeps (Hash.hashStep (filledEnv 0)) (Hash.DestroysTaken Hash.wordCalls)
      Hash.emptyConfig [.put 1 10, .delete 2] ∧
    ¬ Keeps (Bintree.bintreeStep (filledEnv 0))
      (Bintree.DestroysTaken Bintree.wordCalls)
      (Config.initial ⟨Bintree.aBintreeInit Bintree.wordCalls, fun _ => none,
        ⟨[], [], [], []⟩, ⟨0, 0, .null, [], false⟩⟩) [.put 1 10, .remove 1] := by
  refine ⟨?_, ?_, ?_⟩
  · intro hkeeps
    rcases hkeeps with ⟨first, hfirst, _, second, hsecond, hsees, _⟩
    cases hfirst
    cases hsecond
    exact absurd (hsees.vals 0 (by decide)) (by decide)
  · intro hkeeps
    rcases hkeeps with ⟨first, hfirst, _, second, hsecond, hsees, _⟩
    cases hfirst
    cases hsecond
    exact absurd (hsees.vals 0 (by decide)) (by decide)
  · intro hkeeps
    rcases hkeeps with ⟨first, hfirst, _, second, hsecond, hsees, _⟩
    cases hfirst
    cases hsecond
    exact absurd (hsees.vals 0 (by decide)) (by decide)

end Alib
