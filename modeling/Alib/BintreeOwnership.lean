import Alib.BintreeMap
import Alib.Ownership

/-!
# Ownership in a binary tree

Keys and values of successful puts are freed, handed back by
`a_bintree_remove` or still in the tree, each exactly once, and every node
obtained is in the tree or was released once, after every call of every run
and whatever the allocator refuses.  After a final `a_bintree_axe` nothing is
left in the tree.
-/

namespace Alib
namespace Bintree

open Execution KeyedMap Ownership SearchTree

variable {E : Env} {calls : Callbacks} {t : Tree}

/-- The terms of a tree with these destructors. -/
def ownTerms (calls : Callbacks) : Terms Ptr Ptr ErrorCode where
  success := ErrorCode.isSuccess
  nullKey := 0
  nullVal := 0
  keyFree := calls.keyFree
  valFree := calls.valFree

/-- One node was obtained for every successful put, none of them twice, and
each of them is in the tree or was released once. -/
structure NodesSettled (calls : Callbacks) (config : BintreeConfig)
    (entries : Multiset Entry) : Prop where
  count : config.state.ledger.allocated.length =
    ((ownTerms calls).taken config.transcript).card
  distinct : config.state.ledger.allocated.Nodup
  obtained : ∀ a ∈ config.state.ledger.allocated,
    a < config.state.world.requests
  balance : (config.state.ledger.allocated : Multiset Addr) =
    config.state.ledger.released + entries.map Entry.addr

/-- Everything handed to the tree is freed, handed back or in the tree. -/
structure Owns (calls : Callbacks) (config : BintreeConfig)
    (entries : Multiset Entry) : Prop where
  pointers : Settled (ownTerms calls) Entry.key Entry.val
    config.state.ledger.keyFreed config.state.ledger.valFreed
    config.transcript entries
  nodes : NodesSettled calls config entries

def NonNullPut : BintreeOp → Prop
  | .put key val => key ≠ 0 ∧ val ≠ 0
  | _ => True

def NonNull (entries : Multiset Entry) : Prop :=
  ∀ e ∈ entries, e.key ≠ 0 ∧ e.val ≠ 0

/-- The tree after a call, its account and that of its nodes. -/
def OwnedTree (calls : Callbacks) (config : BintreeConfig) : Prop :=
  ∃ t, BintreeInv calls config.state t ∧ Owns calls config (contents t) ∧
    NonNull (contents t)

theorem NonNull.erase {entries : Multiset Entry} (h : NonNull entries)
    (e : Entry) : NonNull (entries.erase e) :=
  fun other hother => h other (Multiset.mem_of_mem_erase hother)

theorem NonNull.cons {entries : Multiset Entry} (h : NonNull entries)
    {e : Entry} (hkey : e.key ≠ 0) (hval : e.val ≠ 0) :
    NonNull (e ::ₘ entries) := by
  intro other hother
  rcases Multiset.mem_cons.mp hother with rfl | hold
  · exact ⟨hkey, hval⟩
  · exact h other hold

section Nodes

variable {config : BintreeConfig} {entries entries' : Multiset Entry}
  {after : BintreeState} {op : BintreeOp} {out : BintreeOut}

theorem NodesSettled.step (h : NodesSettled calls config entries)
    (htaken : (ownTerms calls).taken [(op, out)] = 0)
    (hallocated :
      after.ledger.allocated = config.state.ledger.allocated)
    (hrequests : config.state.world.requests ≤ after.world.requests)
    (hbalance : (after.ledger.released : Multiset Addr) +
        entries'.map Entry.addr =
      config.state.ledger.released + entries.map Entry.addr) :
    NodesSettled calls ⟨after, config.transcript ++ [(op, out)]⟩
      entries' where
  count := by
    rw [taken_append, htaken, add_zero]
    change after.ledger.allocated.length = _
    rw [hallocated, h.count]
  distinct := by
    change after.ledger.allocated.Nodup
    rw [hallocated]
    exact h.distinct
  obtained := by
    change ∀ a ∈ after.ledger.allocated, a < after.world.requests
    rw [hallocated]
    exact fun a ha => (h.obtained a ha).trans_le hrequests
  balance := by
    change (after.ledger.allocated : Multiset Addr) = _
    rw [hallocated, h.balance]
    exact hbalance.symm

theorem NodesSettled.put (h : NodesSettled calls config entries)
    {key val : Ptr} {code : ErrorCode} (hcode : code.isSuccess = true)
    (hallocated : after.ledger.allocated =
      config.state.ledger.allocated ++ [config.state.world.requests])
    (hrequests :
      after.world.requests = config.state.world.requests + 1)
    (hbalance : (after.ledger.released : Multiset Addr) +
        entries'.map Entry.addr =
      config.state.world.requests ::ₘ
        (config.state.ledger.released + entries.map Entry.addr)) :
    NodesSettled calls
      ⟨after, config.transcript ++ [(.put key val, .code code)]⟩
      entries' where
  count := by
    have htaken : (ownTerms calls).taken [(.put key val, .code code)] =
        {(key, val)} := taken_put hcode
    rw [taken_append, htaken, Multiset.card_add, Multiset.card_singleton]
    change after.ledger.allocated.length = _
    rw [hallocated, List.length_append, h.count]
    rfl
  distinct := by
    change after.ledger.allocated.Nodup
    rw [hallocated]
    apply h.distinct.append (List.nodup_singleton _)
    intro a ha hnew
    rw [List.mem_singleton.mp hnew] at ha
    exact absurd (h.obtained _ ha) (lt_irrefl _)
  obtained := by
    change ∀ a ∈ after.ledger.allocated, a < after.world.requests
    rw [hallocated, hrequests]
    intro a ha
    rcases List.mem_append.mp ha with hold | hnew
    · exact Nat.lt_succ_of_lt (h.obtained a hold)
    · rw [List.mem_singleton.mp hnew]
      exact Nat.lt_succ_self _
  balance := by
    change (after.ledger.allocated : Multiset Addr) = _
    rw [hallocated, ← Multiset.coe_add, h.balance, add_comm]
    exact hbalance.symm

end Nodes

section Outcomes

variable {config : BintreeConfig} {after : BintreeState} {key val : Ptr}

theorem nodeFree_passed (calls : Callbacks) (ledger : Ledger) (a : Addr) (hkey : key ≠ 0)
    (hval : val ≠ 0) :
    Passed calls.keyFree 0 ledger.keyFreed
        (ledger.nodeFree calls a key val).keyFreed {key} ∧
      Passed calls.valFree 0 ledger.valFreed
        (ledger.nodeFree calls a key val).valFreed {val} :=
  ⟨passed_one rfl hkey, passed_one rfl hval⟩

theorem nodeFree_passed_blank (calls : Callbacks) (ledger : Ledger) (a : Addr)
    (hkey : key ≠ 0) :
    Passed calls.keyFree 0 ledger.keyFreed
        (ledger.nodeFree calls a key 0).keyFreed {key} ∧
      Passed calls.valFree 0 ledger.valFreed
        (ledger.nodeFree calls a key 0).valFreed 0 :=
  ⟨passed_one rfl hkey, passed_null rfl⟩

theorem map_addr_split {entries : Multiset Entry} {e : Entry}
    (he : e ∈ entries) :
    entries.map Entry.addr = e.addr ::ₘ (entries.erase e).map Entry.addr :=
  map_split Entry.addr he

theorem PutOutcome.owns (howns : Owns calls config (contents t))
    (hnonnull : NonNull (contents t)) (hkey : key ≠ 0) (hval : val ≠ 0)
    {code : ErrorCode}
    (houtcome : PutOutcome E calls config.state t key val code after) :
    OwnedTree calls
      ⟨after, config.transcript ++ [(.put key val, .code code)]⟩ := by
  cases houtcome with
  | added t' after _ hinv hcontents hledger hrequests =>
      refine ⟨t', hinv, ⟨?_, ?_⟩, ?_⟩
      · rw [hcontents, hledger]
        exact howns.pointers.added passed_nothing passed_nothing rfl _ rfl
          rfl
      · rw [hcontents]
        apply howns.nodes.put rfl _ hrequests
        · rw [hledger, Multiset.map_cons, Multiset.add_cons]
          rfl
        · rw [hledger]
          rfl
      · rw [hcontents]
        exact hnonnull.cons hkey hval
  | overwritten e t' after hmem _ hinv hcontents hledger hrequests =>
      have hold := hnonnull e hmem
      obtain ⟨hkeys, hvals⟩ := nodeFree_passed calls
        (config.state.ledger.allocate config.state.world.requests)
        config.state.world.requests hold.1 hold.2
      rw [← hledger] at hkeys hvals
      refine ⟨t', hinv, ⟨?_, ?_⟩, ?_⟩
      · rw [hcontents]
        exact howns.pointers.replaced hkeys hvals rfl hmem
          ⟨e.addr, key, val⟩ (add_comm _ _) (add_comm _ _)
      · rw [hcontents]
        apply howns.nodes.put rfl _ hrequests
        · rw [hledger, Multiset.map_cons, map_addr_split hmem]
          change ((config.state.ledger.released ++ [_] : List Addr) :
            Multiset Addr) + _ = _
          rw [← Multiset.coe_add, Multiset.coe_singleton,
            add_comm (config.state.ledger.released : Multiset Addr) {_},
            Multiset.singleton_add, Multiset.cons_add]
        · rw [hledger]
          rfl
      · rw [hcontents]
        exact (hnonnull.erase e).cons hkey hval
  | failed after hinv hledger hrequests _ =>
      refine ⟨t, hinv, ⟨?_, ?_⟩, hnonnull⟩
      · rw [hledger]
        exact howns.pointers.kept passed_nothing passed_nothing
          (taken_put_failed rfl) returned_put
      · apply howns.nodes.step (taken_put_failed rfl) _ hrequests
        · rw [hledger]
        · rw [hledger]

theorem nodes_unlinked {op : BintreeOp} {out : BintreeOut} {e : Entry}
    (howns : Owns calls config (contents t)) (hmem : e ∈ contents t)
    (htaken : (ownTerms calls).taken [(op, out)] = 0)
    (hallocated :
      after.ledger.allocated = config.state.ledger.allocated)
    (hreleased :
      after.ledger.released = config.state.ledger.released ++ [e.addr])
    (hworld : after.world = config.state.world) :
    NodesSettled calls ⟨after, config.transcript ++ [(op, out)]⟩
      ((contents t).erase e) := by
  apply howns.nodes.step htaken hallocated (by rw [hworld])
  rw [hreleased, map_addr_split hmem, ← Multiset.coe_add,
    Multiset.coe_singleton, add_assoc, Multiset.singleton_add]

theorem RemoveOutcome.owns_remove (h : BintreeInv calls config.state t)
    (howns : Owns calls config (contents t))
    (hnonnull : NonNull (contents t))
    (houtcome : RemoveOutcome calls config.state t key val after) :
    OwnedTree calls
      ⟨after, config.transcript ++ [(.remove key, .value val)]⟩ := by
  cases houtcome with
  | removed e t' after hmem _ hinv hcontents hledger hworld =>
      have hold := hnonnull e hmem
      obtain ⟨hkeys, hvals⟩ := nodeFree_passed_blank calls
        config.state.ledger e.addr hold.1
      rw [← hledger] at hkeys hvals
      refine ⟨t', hinv, ⟨?_, ?_⟩, ?_⟩
      · rw [hcontents]
        exact howns.pointers.removed hmem hold.2 hkeys hvals
      · rw [hcontents]
        exact nodes_unlinked howns hmem taken_remove (by rw [hledger]; rfl)
          (by rw [hledger]; rfl) hworld
      · rw [hcontents]
        exact hnonnull.erase e
  | absent _ =>
      refine ⟨t, h, ⟨?_, ?_⟩, hnonnull⟩
      · exact howns.pointers.kept passed_nothing passed_nothing taken_remove
          returned_remove_null
      · exact howns.nodes.step taken_remove rfl le_rfl rfl

theorem freeRemoved_passed {st : BintreeState}
    (hcalls : st.tree.toCallbacks = calls) (hval : val ≠ 0) :
    Passed calls.valFree 0 st.ledger.valFreed
      (freeRemoved val st).ledger.valFreed {val} := by
  subst hcalls
  apply passed_one _ hval
  unfold freeRemoved
  by_cases hpresent : st.tree.valFree = true
  · rw [if_pos ⟨hval, hpresent⟩, if_pos hpresent]
  · rw [if_neg fun h => hpresent h.2, if_neg hpresent, List.append_nil]

@[simp] theorem freeRemoved_keyFreed (val : Ptr) (st : BintreeState) :
    (freeRemoved val st).ledger.keyFreed = st.ledger.keyFreed := by
  unfold freeRemoved
  split <;> rfl

@[simp] theorem freeRemoved_allocated (val : Ptr) (st : BintreeState) :
    (freeRemoved val st).ledger.allocated = st.ledger.allocated := by
  unfold freeRemoved
  split <;> rfl

@[simp] theorem freeRemoved_released (val : Ptr) (st : BintreeState) :
    (freeRemoved val st).ledger.released = st.ledger.released := by
  unfold freeRemoved
  split <;> rfl

@[simp] theorem freeRemoved_world (val : Ptr) (st : BintreeState) :
    (freeRemoved val st).world = st.world := by
  unfold freeRemoved
  split <;> rfl

theorem RemoveOutcome.owns_delete (h : BintreeInv calls config.state t)
    (howns : Owns calls config (contents t))
    (hnonnull : NonNull (contents t))
    (houtcome : RemoveOutcome calls config.state t key val after) :
    OwnedTree calls ⟨freeRemoved val after,
      config.transcript ++ [(.delete key, .unit)]⟩ := by
  cases houtcome with
  | removed e t' after hmem _ hinv hcontents hledger hworld =>
      have hold := hnonnull e hmem
      obtain ⟨hkeys, hvals⟩ := nodeFree_passed_blank calls
        config.state.ledger e.addr hold.1
      rw [← hledger] at hkeys hvals
      rw [← freeRemoved_keyFreed e.val after] at hkeys
      have hboth := hvals.trans (freeRemoved_passed hinv.callbacks hold.2)
      rw [zero_add] at hboth
      refine ⟨t', hinv.freeRemoved e.val, ⟨?_, ?_⟩, ?_⟩
      · rw [hcontents]
        exact howns.pointers.deleted hmem hkeys hboth
      · rw [hcontents]
        apply nodes_unlinked howns hmem taken_delete
        · rw [freeRemoved_allocated, hledger]
          rfl
        · rw [freeRemoved_released, hledger]
          rfl
        · rw [freeRemoved_world, hworld]
      · rw [hcontents]
        exact hnonnull.erase e
  | absent _ =>
      rw [freeRemoved_null]
      refine ⟨t, h, ⟨?_, ?_⟩, hnonnull⟩
      · exact howns.pointers.kept passed_nothing passed_nothing taken_delete
          returned_delete
      · exact howns.nodes.step taken_delete rfl le_rfl rfl

theorem freeAll_ledger (calls : Callbacks) (order : List Entry)
    (ledger : Ledger) :
    (ledger.freeAll calls order).keyFreed = ledger.keyFreed ++
        (if calls.keyFree then order.map Entry.key else []) ∧
      (ledger.freeAll calls order).valFreed = ledger.valFreed ++
        (if calls.valFree then order.map Entry.val else []) ∧
      (ledger.freeAll calls order).allocated = ledger.allocated ∧
      (ledger.freeAll calls order).released =
        ledger.released ++ order.map Entry.addr := by
  induction order generalizing ledger with
  | nil => simp [Ledger.freeAll]
  | cons e rest ih =>
      have hrest := ih (ledger.nodeFree calls e.addr e.key e.val)
      simp only [Ledger.freeAll, List.foldl_cons] at hrest ⊢
      rw [hrest.1, hrest.2.1, hrest.2.2.1, hrest.2.2.2]
      simp only [Ledger.nodeFree, List.map_cons, List.append_assoc]
      cases calls.keyFree <;> cases calls.valFree <;> simp

theorem Axed.owns (howns : Owns calls config (contents t))
    (hnonnull : NonNull (contents t))
    (haxed : Axed calls config.state t after) :
    Owns calls ⟨after, config.transcript ++ [(.clear, .unit)]⟩ 0 := by
  obtain ⟨hkeyFreed, hvalFreed, hallocated, hreleased⟩ :=
    freeAll_ledger calls (axeOrder t) config.state.ledger
  rw [← haxed.ledger_eq] at hkeyFreed hvalFreed hallocated hreleased
  have horder : (axeOrder t : Multiset Entry) = contents t :=
    Multiset.coe_eq_coe.mpr (axeOrder_perm t)
  have hmem : ∀ e ∈ axeOrder t, e.key ≠ 0 ∧ e.val ≠ 0 :=
    fun e he => hnonnull e (horder ▸ Multiset.mem_coe.mpr he)
  constructor
  · apply howns.pointers.cleared
    · rw [← horder]
      exact passed_all hkeyFreed
        (List.forall_mem_map.mpr fun e he => (hmem e he).1)
    · rw [← horder]
      exact passed_all hvalFreed
        (List.forall_mem_map.mpr fun e he => (hmem e he).2)
  · apply howns.nodes.step taken_clear hallocated (by rw [haxed.world_eq])
    rw [hreleased, ← Multiset.coe_add, ← horder]
    exact add_zero _

theorem nonNull_zero : NonNull 0 := by
  intro e he
  cases Multiset.notMem_zero e he

theorem CallOutcome.owns {op : BintreeOp} {out : BintreeOut}
    (h : BintreeInv calls config.state t)
    (howns : Owns calls config (contents t))
    (hnonnull : NonNull (contents t)) (hput : NonNullPut op)
    (houtcome : CallOutcome E calls config.state t op out after) :
    OwnedTree calls ⟨after, config.transcript ++ [(op, out)]⟩ := by
  cases houtcome with
  | put key val code after houtcome =>
      exact houtcome.owns howns hnonnull hput.1 hput.2
  | get key =>
      refine ⟨t, h, ⟨?_, ?_⟩, hnonnull⟩
      · exact howns.pointers.kept passed_nothing passed_nothing taken_get
          returned_get
      · exact howns.nodes.step taken_get rfl le_rfl rfl
  | remove key val after houtcome =>
      exact houtcome.owns_remove h howns hnonnull
  | delete key val removed houtcome =>
      exact houtcome.owns_delete h howns hnonnull
  | clear after haxed =>
      exact ⟨.nil, haxed.inv, haxed.owns howns hnonnull, nonNull_zero⟩

end Outcomes

theorem ownedTree_init (calls : Callbacks)
    (nodes : Addr → Option ABintreeNode) (world : World) :
    OwnedTree calls (Config.initial
      ⟨aBintreeInit calls, nodes, ⟨[], [], [], []⟩, world⟩) := by
  refine ⟨.nil, BintreeInv.init calls nodes _ world, ⟨settled_nil, ?_⟩,
    nonNull_zero⟩
  constructor
  · rfl
  · exact List.nodup_nil
  · intro a ha
    cases ha
  · rfl

theorem ownedTree_step (hlawful : LawfulCmp calls.keyCmp)
    (config : BintreeConfig) (op : BintreeOp)
    (hinv : OwnedTree calls config) (hput : NonNullPut op) :
    ∃ after, config.step (bintreeStep E) op = .ok after ∧
      OwnedTree calls after := by
  rcases hinv with ⟨t, h, howns, hnonnull⟩
  obtain ⟨out, state, hcall, houtcome⟩ :=
    bintreeStep_spec (E := E) hlawful h op
  exact ⟨_, Config.step_of_ok hcall, houtcome.owns h howns hnonnull hput⟩

def KeepsOwned (calls : Callbacks) (_ : BintreeConfig) (_ : BintreeOp)
    (after : BintreeConfig) : Prop :=
  ∃ t, nodeLayout.IsTree after.state.nodes after.state.tree.root t ∧
    Owns calls after (contents t)

/-- The account of a run with nothing left in the tree: one node for every
successful put, released once, no other node released, and the pointers freed
or handed back are those of the successful puts. -/
structure Closed (calls : Callbacks) (final : BintreeConfig) : Prop where
  empty : final.state.tree.root = none
  puts : final.state.ledger.allocated.length =
    ((ownTerms calls).taken final.transcript).card
  once : ∀ a ∈ final.state.ledger.allocated,
    final.state.ledger.released.count a = 1
  only : ∀ a ∈ final.state.ledger.released,
    a ∈ final.state.ledger.allocated
  keys : calls.keyFree = true → nonNull 0 final.state.ledger.keyFreed =
    ((ownTerms calls).taken final.transcript).map Prod.fst
  vals : calls.valFree = true → nonNull 0 final.state.ledger.valFreed +
      (ownTerms calls).returned final.transcript =
    ((ownTerms calls).taken final.transcript).map Prod.snd

theorem Owns.closed {final : BintreeConfig} (howns : Owns calls final 0)
    (hroot : final.state.tree.root = none) : Closed calls final := by
  have hperm : final.state.ledger.allocated.Perm
      final.state.ledger.released := by
    have hbalance := howns.nodes.balance
    rw [Multiset.map_zero, add_zero] at hbalance
    exact Multiset.coe_eq_coe.mp hbalance
  constructor
  · exact hroot
  · exact howns.nodes.count
  · intro a ha
    rw [← hperm.count_eq]
    exact List.count_eq_one_of_mem howns.nodes.distinct ha
  · intro a ha
    exact hperm.mem_iff.mpr ha
  · intro hpresent
    have hkeys := howns.pointers.keys hpresent
    rw [Multiset.map_zero, add_zero] at hkeys
    exact hkeys.symm
  · intro hpresent
    have hvals := howns.pointers.vals hpresent
    rw [Multiset.map_zero, add_zero] at hvals
    exact hvals.symm

theorem OwnedTree.axe {config : BintreeConfig}
    (h : OwnedTree calls config) :
    ∃ final, config.step (bintreeStep E) .clear = .ok final ∧
      Closed calls final := by
  rcases h with ⟨t, hinv, howns, hnonnull⟩
  obtain ⟨state, haxe, haxed⟩ := aBintreeAxe_spec hinv
  have hcall : bintreeStep E config.state .clear = .ok (.unit, state) := by
    rw [bintreeStep, haxe]
    rfl
  refine ⟨_, Config.step_of_ok hcall, ?_⟩
  exact (haxed.owns howns hnonnull).closed
    (TreeLayout.isTree_nil.mp haxed.inv.tree)

/-- After every call what was taken over is freed, handed back or in the tree,
and a final axe closes the account. -/
theorem aBintree_ownership (E : Env) (hlawful : LawfulCmp calls.keyCmp)
    (nodes : Addr → Option ABintreeNode) (world : World)
    (ops : List BintreeOp) (hops : ∀ op ∈ ops, NonNullPut op) :
    Keeps (bintreeStep E) (KeepsOwned calls)
      (Config.initial
        ⟨aBintreeInit calls, nodes, ⟨[], [], [], []⟩, world⟩) ops ∧
    ∃ final, run (bintreeStep E)
        (Config.initial
          ⟨aBintreeInit calls, nodes, ⟨[], [], [], []⟩, world⟩)
        (ops ++ [.clear]) = .ok final ∧ Closed calls final := by
  have hinit := ownedTree_init calls nodes world
  have hmeets : Meets (bintreeStep E) (fun _ op => NonNullPut op)
      (Config.initial
        ⟨aBintreeInit calls, nodes, ⟨[], [], [], []⟩, world⟩) ops :=
    meets_of_forall (fun op hop _ => hops op hop) _
  constructor
  · apply keeps_of_meets _ hinit hmeets
    intro config op hinv hput
    obtain ⟨after, hafter, t, h, howns, hnonnull⟩ :=
      ownedTree_step hlawful config op hinv hput
    exact ⟨after, hafter, ⟨t, h.tree, howns⟩, t, h, howns, hnonnull⟩
  · obtain ⟨reached, hreached, howned⟩ :=
      run_of_meets (ownedTree_step hlawful) hinit hmeets
    obtain ⟨final, hfinal, hclosed⟩ := howned.axe (E := E)
    exact ⟨final, run_concat hreached hfinal, hclosed⟩

/-- An overwritten key, a removed node with two subtrees, a deleted leaf and
two nodes left for the axe. -/
theorem aBintree_ownership_run :
    Keeps (bintreeStep (filledEnv 0)) (KeepsOwned wordCalls)
      (Config.initial ⟨aBintreeInit wordCalls, fun _ => none,
        ⟨[], [], [], []⟩, ⟨0, 0, .null, [], false⟩⟩)
      [.put 4 40, .put 2 20, .put 6 60, .put 5 50, .put 2 21, .remove 4,
        .delete 6] ∧
    ∃ final, run (bintreeStep (filledEnv 0))
        (Config.initial ⟨aBintreeInit wordCalls, fun _ => none,
          ⟨[], [], [], []⟩, ⟨0, 0, .null, [], false⟩⟩)
        ([.put 4 40, .put 2 20, .put 6 60, .put 5 50, .put 2 21, .remove 4,
          .delete 6] ++ [.clear]) = .ok final ∧ Closed wordCalls final := by
  apply aBintree_ownership (filledEnv 0) wordCalls_lawful (fun _ => none)
    ⟨0, 0, .null, [], false⟩
  simp [NonNullPut]

end Bintree
end Alib
