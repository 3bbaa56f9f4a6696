import Alib.BintreeRemoval

/-!
# One call on a binary tree

The invariant of a tree, and what each call does to its entries: a put adds an
entry, overwrites one with an equivalent key or changes nothing, a removal
takes out the one entry with an equivalent key, and `a_bintree_axe` frees every
entry.  The order in the tree is left behind here.
-/

namespace Alib
namespace Bintree

open SearchTree KeyedMap

variable {E : Env} {calls : Callbacks} {st : BintreeState} {t : Tree}

def contents (t : Tree) : Multiset Entry := (inorder t : List Entry)

/-- Keys are equivalent if they compare as zero. -/
def Callbacks.Same (calls : Callbacks) (a b : Ptr) : Prop :=
  calls.keyCmp a b = 0

instance (calls : Callbacks) : DecidableRel calls.Same := fun _ _ =>
  inferInstanceAs (Decidable (_ = _))

/-- The tree in memory is `t`, and its nodes are distinct and were
obtained. -/
structure HoldsTree (calls : Callbacks) (st : BintreeState) (t : Tree) :
    Prop where
  callbacks : st.tree.toCallbacks = calls
  tree : nodeLayout.IsTree st.nodes st.tree.root t
  nodup : ((contents t).map Entry.addr).Nodup
  live : ∀ e ∈ contents t, e.addr < st.world.requests

/-- The keys of the tree in memory descend from left to right. -/
structure BintreeInv (calls : Callbacks) (st : BintreeState) (t : Tree) :
    Prop extends HoldsTree calls st t where
  descending : Descending calls.keyCmp Entry.key (inorder t)

section Contents

theorem contents_split {before after : List Entry} {e : Entry}
    (h : inorder t = before ++ e :: after) :
    contents t = e ::ₘ ((before ++ after : List Entry) : Multiset Entry) := by
  rw [contents, h, Multiset.cons_coe, Multiset.coe_eq_coe]
  exact List.perm_middle

theorem mem_addrs {a : Addr} :
    a ∈ nodeLayout.addrs t ↔ ∃ e ∈ contents t, e.addr = a :=
  List.mem_map

theorem nodup_addrs :
    (nodeLayout.addrs t).Nodup ↔ ((contents t).map Entry.addr).Nodup :=
  Multiset.coe_nodup.symm

theorem not_same_of_find_none (hlawful : LawfulCmp calls.keyCmp)
    (h : BintreeInv calls st t) {key : Ptr}
    (hnone : calls.find key t = none) :
    ∀ e ∈ contents t, ¬ calls.Same e.key key :=
  ne_zero_of_find_none hlawful h.descending hnone

theorem mem_of_find_some {key : Ptr} {e : Entry}
    (hsome : calls.find key t = some e) :
    e ∈ contents t ∧ calls.Same e.key key :=
  mem_of_find hsome

theorem contents_hang_of_find_none (new : Entry)
    (hnone : calls.find new.key t = none) :
    contents (calls.hang new (.node new .nil .nil) t) =
      new ::ₘ contents t :=
  Multiset.coe_eq_coe.mpr (hang_perm_of_find_none overwrite
    (.node new .nil .nil) hnone)

theorem contents_hang_of_find_some (new : Entry) {e : Entry} (sub : Tree)
    (hsome : calls.find new.key t = some e) :
    contents (calls.hang new sub t) =
      overwrite e new ::ₘ (contents t).erase e := by
  obtain ⟨before, after, hsplit, hhang⟩ :=
    hang_of_find_some overwrite sub hsome
  change inorder (calls.hang new sub t) = _ at hhang
  rw [contents_split hhang, contents_split hsplit, Multiset.erase_cons_head]

theorem descending_hang (hlawful : LawfulCmp calls.keyCmp)
    (h : Descending calls.keyCmp Entry.key (inorder t)) (new : Entry) :
    Descending calls.keyCmp Entry.key
      (inorder (calls.hang new (.node new .nil .nil) t)) := by
  cases hfind : calls.find new.key t with
  | none =>
      obtain ⟨before, after, hsplit, hgreater, hless, hhang⟩ :=
        hang_of_find_none overwrite hlawful
          (.node new .nil .nil) h hfind
      rw [show inorder (calls.hang new (.node new .nil .nil) t) =
        before ++ new :: after from hhang.trans (by simp)]
      rw [hsplit] at h
      exact h.insert hlawful hgreater hless
  | some e =>
      obtain ⟨before, after, hsplit, hhang⟩ :=
        hang_of_find_some overwrite (.node new .nil .nil) hfind
      have hzero : calls.keyCmp e.key (overwrite e new).key = 0 :=
        (mem_of_find hfind).2
      change inorder (calls.hang new (.node new .nil .nil) t) = _ at hhang
      rw [hhang]
      rw [hsplit] at h
      exact h.replace hlawful hzero

theorem remove_removed
    (h : Descending calls.keyCmp Entry.key (inorder t)) {key : Ptr}
    {e : Entry} (hsome : calls.find key t = some e) :
    Descending calls.keyCmp Entry.key (inorder (calls.remove key t)) ∧
      contents (calls.remove key t) = (contents t).erase e := by
  obtain ⟨before, after, hsplit, hremove⟩ :=
    remove_of_find_some overwrite h hsome
  change inorder (calls.remove key t) = _ at hremove
  constructor
  · rw [hremove]
    rw [hsplit] at h
    exact h.erase
  · rw [contents_split hsplit, Multiset.erase_cons_head, contents, hremove]

end Contents

theorem HoldsTree.height_lt_fuel (h : HoldsTree calls st t) :
    t.height < st.fuel := by
  apply Nat.lt_succ_of_le
  apply TreeLayout.height_le_of_addrs (nodup_addrs.mpr h.nodup)
  intro a ha
  obtain ⟨e, he, rfl⟩ := mem_addrs.mp ha
  exact h.live e he

theorem BintreeInv.init (calls : Callbacks)
    (nodes : Addr → Option ABintreeNode) (ledger : Ledger) (world : World) :
    BintreeInv calls ⟨aBintreeInit calls, nodes, ledger, world⟩ .nil where
  callbacks := rfl
  tree := rfl
  nodup := Multiset.nodup_zero
  live := fun e he => absurd he (Multiset.notMem_zero e)
  descending := List.Pairwise.nil

theorem BintreeInv.keysApart (hlawful : LawfulCmp calls.keyCmp)
    (h : BintreeInv calls st t) :
    KeysApart calls.Same Entry.key (contents t) := by
  intro e he other hother hsame
  obtain ⟨before, after, hsplit⟩ := List.append_of_mem he
  rw [contents_split hsplit, Multiset.erase_cons_head, Multiset.mem_coe,
    List.mem_append] at hother
  have hdescending := h.descending
  rw [hsplit, Descending, List.pairwise_append, List.pairwise_cons]
    at hdescending
  rcases hdescending with ⟨_, ⟨hafter, _⟩, hbefore⟩
  rcases hother with hmem | hmem
  · exact absurd hsame (hbefore other hmem e (by simp)).ne'
  · exact absurd (hlawful.eq_zero_symm hsame) (hafter other hmem).ne'

theorem aBintreeGet_spec (h : HoldsTree calls st t) (key : Ptr) :
    aBintreeGet key st = .ok ((calls.find key t).elim 0 Entry.val) := by
  rw [aBintreeGet, h.callbacks]
  exact nodeGet_spec h.tree key h.height_lt_fuel

section Put

def Ledger.allocate (a : Addr) (ledger : Ledger) : Ledger :=
  { ledger with allocated := ledger.allocated ++ [a] }

inductive PutOutcome (E : Env) (calls : Callbacks) (st : BintreeState)
    (t : Tree) (key val : Ptr) : ErrorCode → BintreeState → Prop where
  | added (t' : Tree) (after : BintreeState)
      (hnone : ∀ e ∈ contents t, ¬ calls.Same e.key key)
      (hinv : BintreeInv calls after t')
      (hcontents : contents t' =
        ⟨st.world.requests, key, val⟩ ::ₘ contents t)
      (hledger : after.ledger = st.ledger.allocate st.world.requests)
      (hrequests : after.world.requests = st.world.requests + 1) :
      PutOutcome E calls st t key val aErrorSuccess after
  | overwritten (e : Entry) (t' : Tree) (after : BintreeState)
      (hmem : e ∈ contents t) (hsame : calls.Same e.key key)
      (hinv : BintreeInv calls after t')
      (hcontents : contents t' =
        ⟨e.addr, key, val⟩ ::ₘ (contents t).erase e)
      (hledger : after.ledger =
        (st.ledger.allocate st.world.requests).nodeFree calls
          st.world.requests e.key e.val)
      (hrequests : after.world.requests = st.world.requests + 1) :
      PutOutcome E calls st t key val aErrorSuccess after
  | failed (after : BintreeState) (hinv : BintreeInv calls after t)
      (hledger : after.ledger = st.ledger)
      (hrequests : st.world.requests ≤ after.world.requests)
      (hdenied : ¬ E.GrantsAll) :
      PutOutcome E calls st t key val aErrorOther after

/-- The state after a node was obtained for a key and a value. -/
def withNode (key val : Ptr) (st : BintreeState) : BintreeState :=
  { st with
    nodes := store st.nodes st.world.requests (nodeInit key val)
    ledger := st.ledger.allocate st.world.requests
    world := { st.world with requests := st.world.requests + 1 } }

theorem nodeAlloc_cases (E : Env) (key val : Ptr) (st : BintreeState) :
    nodeAlloc E key val st =
      .ok (some st.world.requests, withNode key val st) ∨
    (¬ E.GrantsAll ∧ ∃ world, Refused st.world world ∧
      nodeAlloc E key val st = .ok (none, { st with world := world })) := by
  have hsize : sizeofNode ≠ 0 := by decide
  rcases aMalloc_cases E hsize st.world with
    ⟨_, hmalloc⟩ | ⟨hdenied, world, hmalloc, hrefused⟩
  · left
    simp [nodeAlloc, hmalloc, withNode, Ledger.allocate]
  · right
    refine ⟨?_, world, hrefused, by simp [nodeAlloc, hmalloc]⟩
    intro hgrant
    rw [hgrant] at hdenied
    cases hdenied

theorem HoldsTree.withWorld (h : HoldsTree calls st t) {world : World}
    (hrequests : st.world.requests ≤ world.requests) :
    HoldsTree calls { st with world := world } t where
  callbacks := h.callbacks
  tree := h.tree
  nodup := h.nodup
  live := fun e he => (h.live e he).trans_le hrequests

theorem HoldsTree.withNode (h : HoldsTree calls st t) (key val : Ptr) :
    HoldsTree calls (withNode key val st) t where
  callbacks := h.callbacks
  tree := by
    apply h.tree.update
    intro hmem
    obtain ⟨e, he, haddr⟩ := mem_addrs.mp hmem
    exact absurd haddr (h.live e he).ne
  nodup := h.nodup
  live := fun e he => Nat.lt_succ_of_lt (h.live e he)

theorem withNode_isTree (key val : Ptr) (st : BintreeState) :
    nodeLayout.IsTree (withNode key val st).nodes (some st.world.requests)
      (.node ⟨st.world.requests, key, val⟩ .nil .nil) :=
  ⟨rfl, nodeInit key val, store_same _ _ _, rfl, rfl, rfl⟩

/-- The tree with a new node for a key and a value hung in it. -/
def Callbacks.put (calls : Callbacks) (a : Addr) (key val : Ptr) (t : Tree) :
    Tree :=
  calls.hang ⟨a, key, val⟩ (.node ⟨a, key, val⟩ .nil .nil) t

theorem HoldsTree.put (h : HoldsTree calls st t) {key val : Ptr}
    {after : BintreeState} (hcalls : after.tree.toCallbacks = calls)
    (htree : nodeLayout.IsTree after.nodes after.tree.root
      (calls.put st.world.requests key val t))
    (hrequests : after.world.requests = st.world.requests + 1) :
    HoldsTree calls after (calls.put st.world.requests key val t) := by
  unfold Callbacks.put at htree ⊢
  cases hfind : calls.find key t with
  | none =>
      have hcontents := contents_hang_of_find_none
        ⟨st.world.requests, key, val⟩ hfind
      refine ⟨hcalls, htree, ?_, ?_⟩
      · rw [hcontents, Multiset.map_cons, Multiset.nodup_cons]
        refine ⟨?_, h.nodup⟩
        intro hmem
        obtain ⟨e, he, haddr⟩ := Multiset.mem_map.mp hmem
        exact absurd haddr (h.live e he).ne
      · rw [hcontents, hrequests]
        intro e he
        rcases Multiset.mem_cons.mp he with rfl | hold
        · exact Nat.lt_succ_self _
        · exact Nat.lt_succ_of_lt (h.live e hold)
  | some e =>
      have hmem := (mem_of_find_some hfind).1
      have hcontents := contents_hang_of_find_some
        ⟨st.world.requests, key, val⟩
        (.node ⟨st.world.requests, key, val⟩ .nil .nil) hfind
      have hmap : (overwrite e ⟨st.world.requests, key, val⟩ ::ₘ
          (contents t).erase e).map Entry.addr =
          (contents t).map Entry.addr := by
        rw [← Multiset.cons_erase hmem, Multiset.map_cons,
          Multiset.map_cons, Multiset.erase_cons_head]
        rfl
      refine ⟨hcalls, htree, ?_, ?_⟩
      · rw [hcontents, hmap]
        exact h.nodup
      · rw [hcontents, hrequests]
        intro other hother
        rcases Multiset.mem_cons.mp hother with rfl | hold
        · exact Nat.lt_succ_of_lt (h.live e hmem)
        · exact Nat.lt_succ_of_lt
            (h.live other (Multiset.mem_of_mem_erase hold))

/-- A granted put hangs its node in the tree, whatever the comparison; if a
key compares as zero its old key and value are freed with the new node. -/
theorem putNode_spec (h : HoldsTree calls st t) (key val : Ptr) {root : Addr}
    (hroot : st.tree.root = some root) :
    ∃ after, nodePut st.world.requests (withNode key val st).fuel root
        (withNode key val st) = .ok after ∧
      HoldsTree calls after (calls.put st.world.requests key val t) ∧
      after.world.requests = st.world.requests + 1 ∧
      after.ledger = (calls.find key t).elim
        (st.ledger.allocate st.world.requests)
        (fun e => (st.ledger.allocate st.world.requests).nodeFree calls
          st.world.requests e.key e.val) := by
  have hnew := h.withNode key val
  have htree := hnew.tree
  have hrootNew : (withNode key val st).tree.root = some root := hroot
  rw [hrootNew] at htree
  obtain ⟨after, hafter, houtcome⟩ :=
    nodePut_spec hnew.callbacks htree (withNode_isTree key val st)
      (nodup_addrs.mpr hnew.nodup)
      (fun a ha hmem => by
        obtain ⟨e, he, rfl⟩ := mem_addrs.mp ha
        simp at hmem
        exact absurd hmem (h.live e he).ne)
      hnew.height_lt_fuel.le
  refine ⟨after, hafter, ?_⟩
  cases houtcome with
  | hung nodes hnone htree' _ =>
      rw [← hrootNew] at htree'
      refine ⟨h.put h.callbacks htree' rfl, rfl, ?_⟩
      rw [show calls.find key t = none from hnone]
      rfl
  | overwritten nodes e hsome htree' _ =>
      rw [← hrootNew] at htree'
      refine ⟨h.put h.callbacks htree' rfl, rfl, ?_⟩
      rw [show calls.find key t = some e from hsome]
      rfl

theorem aBintreePut_cases (E : Env) (h : HoldsTree calls st t)
    (key val : Ptr) :
    (∃ after, aBintreePut E key val st = .ok (aErrorSuccess, after) ∧
      HoldsTree calls after (calls.put st.world.requests key val t) ∧
      after.world.requests = st.world.requests + 1 ∧
      after.ledger = (calls.find key t).elim
        (st.ledger.allocate st.world.requests)
        (fun e => (st.ledger.allocate st.world.requests).nodeFree calls
          st.world.requests e.key e.val)) ∨
    (¬ E.GrantsAll ∧
      ∃ world, aBintreePut E key val st =
          .ok (aErrorOther, { st with world := world }) ∧
        st.world.requests ≤ world.requests) := by
  rcases nodeAlloc_cases E key val st with
    halloc | ⟨hdenied, world, hrefused, halloc⟩
  · left
    rw [aBintreePut, halloc]
    simp only [ok_bind]
    cases hroot : st.tree.root with
    | none =>
        have htree := h.tree
        rw [hroot] at htree
        obtain rfl := TreeLayout.isTree_none.mp htree
        have hrootNew : (withNode key val st).tree.root = none := hroot
        simp only [hrootNew]
        let after : BintreeState := { withNode key val st with
          tree := { (withNode key val st).tree with
            root := some st.world.requests } }
        have hleaf : nodeLayout.IsTree after.nodes after.tree.root
            (calls.put st.world.requests key val .nil) :=
          withNode_isTree key val st
        exact ⟨after, rfl, h.put h.callbacks hleaf rfl, rfl, rfl⟩
    | some root =>
        have hrootNew : (withNode key val st).tree.root = some root := hroot
        obtain ⟨after, hafter, hput⟩ := putNode_spec h key val hroot
        simp only [hrootNew, hafter, ok_bind]
        exact ⟨after, rfl, hput⟩
  · right
    obtain ⟨world', hreport, hrequests, _⟩ :=
      aErrorStackMacroHelper_ok E .alib false aErrorOther world (by simp)
    refine ⟨hdenied, world', ?_, ?_⟩
    · rw [aBintreePut, halloc]
      simp [aErrorCode, hreport]
    · rw [hrequests]
      exact Nat.le_succ_of_le hrefused.requests_le

theorem aBintreePut_spec (hlawful : LawfulCmp calls.keyCmp)
    (h : BintreeInv calls st t) (key val : Ptr) :
    ∃ code after, aBintreePut E key val st = .ok (code, after) ∧
      PutOutcome E calls st t key val code after := by
  rcases aBintreePut_cases E h.toHoldsTree key val with
    ⟨after, hput, hholds, hrequests, hledger⟩ |
    ⟨hdenied, world, hput, hrequests⟩
  · refine ⟨aErrorSuccess, after, hput, ?_⟩
    have hinv : BintreeInv calls after
        (calls.put st.world.requests key val t) :=
      ⟨hholds, descending_hang hlawful h.descending _⟩
    cases hfind : calls.find key t with
    | none =>
        rw [hfind] at hledger
        exact .added _ after (not_same_of_find_none hlawful h hfind) hinv
          (contents_hang_of_find_none _ hfind) hledger hrequests
    | some e =>
        rw [hfind] at hledger
        obtain ⟨hmem, hsame⟩ := mem_of_find_some hfind
        exact .overwritten e _ after hmem hsame hinv
          (contents_hang_of_find_some _ _ hfind) hledger hrequests
  · exact ⟨aErrorOther, _, hput, .failed _
      ⟨h.toHoldsTree.withWorld hrequests, h.descending⟩ rfl hrequests
      hdenied⟩

end Put

section Remove

/-- What `node_remove` did when called for the whole tree. -/
inductive RemoveOutcome (calls : Callbacks) (st : BintreeState) (t : Tree)
    (key : Ptr) : Ptr → BintreeState → Prop where
  | removed (e : Entry) (t' : Tree) (after : BintreeState)
      (hmem : e ∈ contents t) (hsame : calls.Same e.key key)
      (hinv : BintreeInv calls after t')
      (hcontents : contents t' = (contents t).erase e)
      (hledger : after.ledger =
        st.ledger.nodeFree calls e.addr e.key 0)
      (hworld : after.world = st.world) :
      RemoveOutcome calls st t key e.val after
  | absent (hnone : ∀ e ∈ contents t, ¬ calls.Same e.key key) :
      RemoveOutcome calls st t key 0 st

theorem aBintreeRemove_cases (h : HoldsTree calls st t) (key : Ptr) :
    (∃ e after, calls.find key t = some e ∧
      aBintreeRemove key st = .ok (e.val, after) ∧
      HoldsTree calls after (calls.remove key t) ∧
      after.ledger = calls.removeLedger key t st.ledger ∧
      after.world = st.world) ∨
    (calls.find key t = none ∧ aBintreeRemove key st = .ok (0, st)) := by
  have hread : readLocation .root st = .ok st.tree.root := rfl
  cases hfind : calls.find key t with
  | none =>
      right
      exact ⟨rfl, nodeRemove_absent h.callbacks hread h.tree
        h.height_lt_fuel hfind⟩
  | some e =>
      left
      obtain ⟨nodes, p, hremove, htree, _⟩ :=
        nodeRemove_unlinks h.callbacks hread h.tree (nodup_addrs.mpr h.nodup)
          (by rintro a ⟨⟩) h.height_lt_fuel.le h.height_lt_fuel.le hfind
      refine ⟨e, _, rfl, hremove, ⟨h.callbacks, htree, ?_, ?_⟩, rfl, rfl⟩
      · apply nodup_addrs.mp
        exact Multiset.coe_nodup.mp (Multiset.nodup_of_le
          (addrs_remove_le calls key t)
          (Multiset.coe_nodup.mpr (nodup_addrs.mpr h.nodup)))
      · intro other hother
        have hmem := addrs_remove_subset calls key t
          (mem_addrs.mpr ⟨other, hother, rfl⟩)
        obtain ⟨old, hold, haddr⟩ := mem_addrs.mp hmem
        change other.addr < st.world.requests
        rw [← haddr]
        exact h.live old hold

theorem aBintreeRemove_spec (hlawful : LawfulCmp calls.keyCmp)
    (h : BintreeInv calls st t) (key : Ptr) :
    ∃ val after, aBintreeRemove key st = .ok (val, after) ∧
      RemoveOutcome calls st t key val after := by
  rcases aBintreeRemove_cases h.toHoldsTree key with
    ⟨e, after, hfind, hremove, hholds, hledger, hworld⟩ | ⟨hfind, hremove⟩
  · obtain ⟨hmem, hsame⟩ := mem_of_find_some hfind
    obtain ⟨hdescending, hcontents⟩ := remove_removed h.descending hfind
    rw [removeLedger_of_descending h.descending hfind] at hledger
    exact ⟨e.val, after, hremove,
      .removed e _ after hmem hsame ⟨hholds, hdescending⟩ hcontents hledger
        hworld⟩
  · exact ⟨0, st, hremove,
      .absent (not_same_of_find_none hlawful h hfind)⟩

theorem HoldsTree.freeRemoved (h : HoldsTree calls st t) (val : Ptr) :
    HoldsTree calls (freeRemoved val st) t := by
  unfold Bintree.freeRemoved
  split
  · exact ⟨h.callbacks, h.tree, h.nodup, h.live⟩
  · exact h

theorem BintreeInv.freeRemoved (h : BintreeInv calls st t) (val : Ptr) :
    BintreeInv calls (freeRemoved val st) t :=
  ⟨h.toHoldsTree.freeRemoved val, h.descending⟩

end Remove

section Axe

structure Axed (calls : Callbacks) (st : BintreeState) (t : Tree)
    (after : BintreeState) : Prop where
  inv : BintreeInv calls after .nil
  ledger_eq : after.ledger = st.ledger.freeAll calls (axeOrder t)
  world_eq : after.world = st.world

theorem aBintreeAxe_eq (h : HoldsTree calls st t) :
    ∃ nodes, aBintreeAxe st = .ok {
      tree := aBintreeInit calls
      nodes := nodes
      ledger := st.ledger.freeAll calls (axeOrder t)
      world := st.world } := by
  obtain ⟨nodes, haxe, _⟩ :=
    nodeAxe_spec h.callbacks h.tree (nodup_addrs.mpr h.nodup)
      h.height_lt_fuel
  refine ⟨nodes, ?_⟩
  have hempty : { st.tree with root := none } = aBintreeInit calls := by
    rw [aBintreeInit, ← h.callbacks]
  rw [aBintreeAxe, haxe, ← hempty]
  rfl

theorem aBintreeAxe_spec (h : BintreeInv calls st t) :
    ∃ after, aBintreeAxe st = .ok after ∧ Axed calls st t after := by
  obtain ⟨nodes, haxe⟩ := aBintreeAxe_eq h.toHoldsTree
  exact ⟨_, haxe, BintreeInv.init calls nodes _ _, rfl, rfl⟩

end Axe

section Calls

inductive CallOutcome (E : Env) (calls : Callbacks) (st : BintreeState)
    (t : Tree) : BintreeOp → BintreeOut → BintreeState → Prop where
  | put (key val : Ptr) (code : ErrorCode) (after : BintreeState)
      (houtcome : PutOutcome E calls st t key val code after) :
      CallOutcome E calls st t (.put key val) (.code code) after
  | get (key : Ptr) :
      CallOutcome E calls st t (.get key)
        (.value ((calls.find key t).elim 0 Entry.val)) st
  | remove (key val : Ptr) (after : BintreeState)
      (houtcome : RemoveOutcome calls st t key val after) :
      CallOutcome E calls st t (.remove key) (.value val) after
  | delete (key val : Ptr) (removed : BintreeState)
      (houtcome : RemoveOutcome calls st t key val removed) :
      CallOutcome E calls st t (.delete key) .unit (freeRemoved val removed)
  | clear (after : BintreeState) (haxed : Axed calls st t after) :
      CallOutcome E calls st t .clear .unit after

theorem bintreeStep_spec (hlawful : LawfulCmp calls.keyCmp)
    (h : BintreeInv calls st t) (op : BintreeOp) :
    ∃ out after, bintreeStep E st op = .ok (out, after) ∧
      CallOutcome E calls st t op out after := by
  cases op with
  | put key val =>
      obtain ⟨code, after, hput, houtcome⟩ :=
        aBintreePut_spec (E := E) hlawful h key val
      refine ⟨.code code, after, ?_, .put key val code after houtcome⟩
      rw [bintreeStep, hput]
      rfl
  | get key =>
      refine ⟨_, st, ?_, .get key⟩
      rw [bintreeStep, aBintreeGet_spec h.toHoldsTree key]
      rfl
  | remove key =>
      obtain ⟨val, after, hremove, houtcome⟩ :=
        aBintreeRemove_spec hlawful h key
      refine ⟨.value val, after, ?_, .remove key val after houtcome⟩
      rw [bintreeStep, hremove]
      rfl
  | delete key =>
      obtain ⟨val, removed, hremove, houtcome⟩ :=
        aBintreeRemove_spec hlawful h key
      refine ⟨.unit, freeRemoved val removed, ?_,
        .delete key val removed houtcome⟩
      rw [aBintreeRemove] at hremove
      rw [bintreeStep, aBintreeDelete, hremove]
      rfl
  | clear =>
      obtain ⟨after, haxe, haxed⟩ := aBintreeAxe_spec h
      refine ⟨.unit, after, ?_, .clear after haxed⟩
      rw [bintreeStep, haxe]
      rfl

end Calls

section Held

/-- What a call does to the tree whatever the comparison answers. -/
inductive HeldOutcome (calls : Callbacks) (st : BintreeState) (t : Tree) :
    BintreeOp → BintreeOut → BintreeState → Tree → Prop where
  | stored (key val : Ptr) (after : BintreeState)
      (hledger : after.ledger = (calls.find key t).elim
        (st.ledger.allocate st.world.requests)
        (fun e => (st.ledger.allocate st.world.requests).nodeFree calls
          st.world.requests e.key e.val)) :
      HeldOutcome calls st t (.put key val) (.code aErrorSuccess) after
        (calls.put st.world.requests key val t)
  | failed (key val : Ptr) (world : World) :
      HeldOutcome calls st t (.put key val) (.code aErrorOther)
        { st with world := world } t
  | get (key : Ptr) :
      HeldOutcome calls st t (.get key)
        (.value ((calls.find key t).elim 0 Entry.val)) st t
  | removed (key : Ptr) (e : Entry) (after : BintreeState)
      (hfind : calls.find key t = some e)
      (hledger : after.ledger = calls.removeLedger key t st.ledger) :
      HeldOutcome calls st t (.remove key) (.value e.val) after
        (calls.remove key t)
  | missing (key : Ptr) (hfind : calls.find key t = none) :
      HeldOutcome calls st t (.remove key) (.value 0) st t
  | deleted (key : Ptr) (e : Entry) (removed : BintreeState)
      (hfind : calls.find key t = some e)
      (hcalls : removed.tree.toCallbacks = calls)
      (hledger : removed.ledger = calls.removeLedger key t st.ledger) :
      HeldOutcome calls st t (.delete key) .unit (freeRemoved e.val removed)
        (calls.remove key t)
  | unfound (key : Ptr) (hfind : calls.find key t = none) :
      HeldOutcome calls st t (.delete key) .unit st t
  | clear (after : BintreeState)
      (hledger : after.ledger = st.ledger.freeAll calls (axeOrder t)) :
      HeldOutcome calls st t .clear .unit after .nil

theorem freeRemoved_null (st : BintreeState) : freeRemoved 0 st = st :=
  if_neg fun h => h.1 rfl

theorem bintreeStep_holds (h : HoldsTree calls st t) (op : BintreeOp) :
    ∃ out after t', bintreeStep E st op = .ok (out, after) ∧
      HoldsTree calls after t' ∧ HeldOutcome calls st t op out after t' := by
  cases op with
  | put key val =>
      rcases aBintreePut_cases E h key val with
        ⟨after, hput, hholds, _, hledger⟩ | ⟨_, world, hput, hrequests⟩
      · refine ⟨_, after, _, ?_, hholds, .stored key val after hledger⟩
        rw [bintreeStep, hput]
        rfl
      · refine ⟨_, _, t, ?_, h.withWorld hrequests, .failed key val world⟩
        rw [bintreeStep, hput]
        rfl
  | get key =>
      refine ⟨_, st, t, ?_, h, .get key⟩
      rw [bintreeStep, aBintreeGet_spec h key]
      rfl
  | remove key =>
      rcases aBintreeRemove_cases h key with
        ⟨e, after, hfind, hremove, hholds, hledger, _⟩ | ⟨hfind, hremove⟩
      · refine ⟨_, after, _, ?_, hholds,
          .removed key e after hfind hledger⟩
        rw [bintreeStep, hremove]
        rfl
      · refine ⟨_, st, t, ?_, h, .missing key hfind⟩
        rw [bintreeStep, hremove]
        rfl
  | delete key =>
      rcases aBintreeRemove_cases h key with
        ⟨e, removed, hfind, hremove, hholds, hledger, _⟩ | ⟨hfind, hremove⟩
      · rw [aBintreeRemove] at hremove
        refine ⟨_, _, _, ?_, hholds.freeRemoved e.val,
          .deleted key e removed hfind hholds.callbacks hledger⟩
        rw [bintreeStep, aBintreeDelete, hremove]
        rfl
      · rw [aBintreeRemove] at hremove
        refine ⟨_, st, t, ?_, h, .unfound key hfind⟩
        rw [bintreeStep, aBintreeDelete, hremove, ok_bind]
        change Except.ok (MapOut.unit, freeRemoved 0 st) = _
        rw [freeRemoved_null]
  | clear =>
      obtain ⟨nodes, haxe⟩ := aBintreeAxe_eq h
      refine ⟨_, _, .nil, ?_,
        (BintreeInv.init calls nodes _ st.world).toHoldsTree,
        .clear _ rfl⟩
      rw [bintreeStep, haxe]
      rfl

end Held

end Bintree
end Alib
