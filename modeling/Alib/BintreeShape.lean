import Alib.Bintree
import Alib.NodeTree

/-!
# The shape of a binary tree in memory

The nodes met from a root form a tree of entries, and each function of
`bintree.c` performs the operation of the same purpose on that tree: it is
described by the tree it leaves, the nodes it may have touched and what it
wrote in the ledger.
-/

namespace Alib
namespace Bintree

open SearchTree

/-- A node without its links, and its address. -/
structure Entry where
  addr : Addr
  key : Ptr
  val : Ptr
  deriving DecidableEq

def entryOf (a : Addr) (node : ABintreeNode) : Entry :=
  ⟨a, node.key, node.val⟩

def nodeLayout : TreeLayout Addr ABintreeNode Entry where
  left := ABintreeNode.left
  right := ABintreeNode.right
  view := entryOf
  addr := Entry.addr
  addr_view := fun _ _ => rfl

abbrev Tree := BinaryTree Entry

/-- The old node keeps its place and takes over the new key and value. -/
def overwrite (old new : Entry) : Entry := { new with addr := old.addr }

def Callbacks.find (calls : Callbacks) (key : Ptr) (t : Tree) :
    Option Entry :=
  SearchTree.find calls.keyCmp Entry.key key t

def Callbacks.hang (calls : Callbacks) (new : Entry) (sub t : Tree) : Tree :=
  SearchTree.hang calls.keyCmp Entry.key overwrite new sub t

def Callbacks.join (calls : Callbacks) (left right : Tree) : Tree :=
  SearchTree.join calls.keyCmp Entry.key overwrite left right

def Callbacks.remove (calls : Callbacks) (key : Ptr) (t : Tree) : Tree :=
  SearchTree.remove calls.keyCmp Entry.key overwrite key t

variable {calls : Callbacks} {st : BintreeState}

@[simp] theorem nodeLayout_addr (e : Entry) : nodeLayout.addr e = e.addr := rfl

theorem not_mem_node {e : Entry} {left right : Tree} {a : Addr} :
    a ∉ nodeLayout.addrs (.node e left right) ↔
      a ∉ nodeLayout.addrs left ∧ a ≠ e.addr ∧
        a ∉ nodeLayout.addrs right :=
  nodeLayout.not_mem_node

theorem root_node {nodes : Addr → Option ABintreeNode} {root : Option Addr}
    {e : Entry} {left right : Tree}
    (h : nodeLayout.IsTree nodes root (.node e left right)) :
    root = some e.addr ∧ ∃ node, nodes e.addr = some node ∧
      node.key = e.key ∧ node.val = e.val ∧
      nodeLayout.IsTree nodes node.left left ∧
      nodeLayout.IsTree nodes node.right right := by
  rcases h with ⟨hroot, node, hnode, hview, hleft, hright⟩
  exact ⟨hroot, node, hnode, congrArg Entry.key hview,
    congrArg Entry.val hview, hleft, hright⟩

theorem isTree_of_node {nodes : Addr → Option ABintreeNode} {e : Entry}
    {node : ABintreeNode} {left right : Tree}
    (hnode : nodes e.addr = some node) (hkey : node.key = e.key)
    (hval : node.val = e.val)
    (hleft : nodeLayout.IsTree nodes node.left left)
    (hright : nodeLayout.IsTree nodes node.right right) :
    nodeLayout.IsTree nodes (some e.addr) (.node e left right) := by
  refine ⟨rfl, node, hnode, ?_, hleft, hright⟩
  change (⟨e.addr, node.key, node.val⟩ : Entry) = e
  rw [hkey, hval]

section Branches

variable {e new : Entry} {left right sub : Tree} {key : Ptr}

theorem find_neg (hneg : calls.keyCmp e.key key < 0) :
    calls.find key (.node e left right) = calls.find key left :=
  if_pos hneg

theorem find_pos (hpos : 0 < calls.keyCmp e.key key) :
    calls.find key (.node e left right) = calls.find key right :=
  (if_neg (not_lt.mpr hpos.le)).trans (if_pos hpos)

theorem find_zero (hzero : calls.keyCmp e.key key = 0) :
    calls.find key (.node e left right) = some e :=
  (if_neg hzero.not_lt).trans (if_neg hzero.not_gt)

theorem hang_neg (hneg : calls.keyCmp e.key new.key < 0) :
    calls.hang new sub (.node e left right) =
      .node e (calls.hang new sub left) right :=
  if_pos hneg

theorem hang_pos (hpos : 0 < calls.keyCmp e.key new.key) :
    calls.hang new sub (.node e left right) =
      .node e left (calls.hang new sub right) :=
  (if_neg (not_lt.mpr hpos.le)).trans (if_pos hpos)

theorem hang_zero (hzero : calls.keyCmp e.key new.key = 0) :
    calls.hang new sub (.node e left right) =
      .node (overwrite e new) left right :=
  (if_neg hzero.not_lt).trans (if_neg hzero.not_gt)

theorem remove_neg (hneg : calls.keyCmp e.key key < 0) :
    calls.remove key (.node e left right) =
      .node e (calls.remove key left) right :=
  if_pos hneg

theorem remove_pos (hpos : 0 < calls.keyCmp e.key key) :
    calls.remove key (.node e left right) =
      .node e left (calls.remove key right) :=
  (if_neg (not_lt.mpr hpos.le)).trans (if_pos hpos)

theorem remove_zero (hzero : calls.keyCmp e.key key = 0) :
    calls.remove key (.node e left right) = calls.join left right :=
  (if_neg hzero.not_lt).trans (if_neg hzero.not_gt)

end Branches

section Put

/-- What `node_put` did: the subtree hangs in the tree, or its root gave key
and value to a node with an equivalent key and was freed with the old ones. -/
inductive NodePutOutcome (calls : Callbacks) (st : BintreeState)
    (root node : Addr) (new : Entry) (sub t : Tree) : BintreeState → Prop where
  | hung (nodes : Addr → Option ABintreeNode)
      (hnone : calls.find new.key t = none)
      (htree : nodeLayout.IsTree nodes (some root) (calls.hang new sub t))
      (hframe : ∀ a ∉ nodeLayout.addrs t, nodes a = st.nodes a) :
      NodePutOutcome calls st root node new sub t { st with nodes := nodes }
  | overwritten (nodes : Addr → Option ABintreeNode) (e : Entry)
      (hsome : calls.find new.key t = some e)
      (htree : nodeLayout.IsTree nodes (some root) (calls.hang new sub t))
      (hframe : ∀ a ∉ nodeLayout.addrs t, a ≠ node → nodes a = st.nodes a) :
      NodePutOutcome calls st root node new sub t
        { st with
          nodes := nodes
          ledger := st.ledger.nodeFree calls node e.key e.val }

variable {e new : Entry} {left right sub : Tree} {node : Addr}
  {after : BintreeState}

theorem NodePutOutcome.of_left {child : Addr} {r : ABintreeNode}
    (hr : st.nodes e.addr = some r) (hkey : r.key = e.key)
    (hval : r.val = e.val) (hchild : r.left = some child)
    (hright : nodeLayout.IsTree st.nodes r.right right)
    (hnodup : (nodeLayout.addrs (.node e left right)).Nodup)
    (hnode : node ∉ nodeLayout.addrs (.node e left right))
    (hneg : calls.keyCmp e.key new.key < 0)
    (houtcome : NodePutOutcome calls st child node new sub left after) :
    NodePutOutcome calls st e.addr node new sub (.node e left right)
      after := by
  obtain ⟨_, _, hroot, _, hacross⟩ := nodeLayout.nodup_node.mp hnodup
  obtain ⟨_, hne, hnotRight⟩ := not_mem_node.mp hnode
  have hright_not : ∀ a ∈ nodeLayout.addrs right,
      a ∉ nodeLayout.addrs left := fun a ha hmem => hacross a hmem ha
  cases houtcome with
  | hung nodes hnone htree hframe =>
      apply NodePutOutcome.hung
      · rw [find_neg hneg, hnone]
      · rw [hang_neg hneg]
        rw [← hchild] at htree
        exact isTree_of_node ((hframe _ hroot).trans hr) hkey hval htree
          (hright.congr fun a ha => hframe a (hright_not a ha))
      · intro a ha
        exact hframe a fun hmem => ha (by simp [hmem])
  | overwritten nodes old hsome htree hframe =>
      apply NodePutOutcome.overwritten
      · rw [find_neg hneg, hsome]
      · rw [hang_neg hneg]
        rw [← hchild] at htree
        refine isTree_of_node ((hframe _ hroot (Ne.symm hne)).trans hr) hkey
          hval htree
          (hright.congr fun a ha => hframe a (hright_not a ha) ?_)
        intro heq
        subst heq
        exact hnotRight ha
      · intro a ha
        exact hframe a fun hmem => ha (by simp [hmem])

theorem NodePutOutcome.of_right {child : Addr} {r : ABintreeNode}
    (hr : st.nodes e.addr = some r) (hkey : r.key = e.key)
    (hval : r.val = e.val) (hchild : r.right = some child)
    (hleft : nodeLayout.IsTree st.nodes r.left left)
    (hnodup : (nodeLayout.addrs (.node e left right)).Nodup)
    (hnode : node ∉ nodeLayout.addrs (.node e left right))
    (hpos : 0 < calls.keyCmp e.key new.key)
    (houtcome : NodePutOutcome calls st child node new sub right after) :
    NodePutOutcome calls st e.addr node new sub (.node e left right)
      after := by
  obtain ⟨_, _, _, hroot, hacross⟩ := nodeLayout.nodup_node.mp hnodup
  obtain ⟨hnotLeft, hne, _⟩ := not_mem_node.mp hnode
  cases houtcome with
  | hung nodes hnone htree hframe =>
      apply NodePutOutcome.hung
      · rw [find_pos hpos, hnone]
      · rw [hang_pos hpos]
        rw [← hchild] at htree
        exact isTree_of_node ((hframe _ hroot).trans hr) hkey hval
          (hleft.congr fun a ha => hframe a (hacross a ha)) htree
      · intro a ha
        exact hframe a fun hmem => ha (by simp [hmem])
  | overwritten nodes old hsome htree hframe =>
      apply NodePutOutcome.overwritten
      · rw [find_pos hpos, hsome]
      · rw [hang_pos hpos]
        rw [← hchild] at htree
        refine isTree_of_node ((hframe _ hroot (Ne.symm hne)).trans hr) hkey
          hval (hleft.congr fun a ha => hframe a (hacross a ha) ?_) htree
        intro heq
        subst heq
        exact hnotLeft ha
      · intro a ha
        exact hframe a fun hmem => ha (by simp [hmem])

theorem NodePutOutcome.attachLeft {r : ABintreeNode} {l l' : Tree}
    (hkey : r.key = e.key) (hval : r.val = e.val)
    (hright : nodeLayout.IsTree st.nodes r.right right)
    (hsub : nodeLayout.IsTree st.nodes (some node) (.node new l l'))
    (hnodup : (nodeLayout.addrs (.node e .nil right)).Nodup)
    (hapart : e.addr ∉ nodeLayout.addrs (.node new l l'))
    (hneg : calls.keyCmp e.key new.key < 0) :
    NodePutOutcome calls st e.addr node new (.node new l l')
      (.node e .nil right)
      { st with nodes := store st.nodes e.addr { r with left := some node } } := by
  obtain ⟨_, _, _, hroot, _⟩ := nodeLayout.nodup_node.mp hnodup
  apply NodePutOutcome.hung
  · exact find_neg hneg
  · rw [hang_neg hneg]
    exact isTree_of_node (store_same _ _ _) hkey hval
      (hsub.update hapart _) (hright.update hroot _)
  · intro a ha
    apply store_of_ne
    intro heq
    subst heq
    exact ha (by simp)

theorem NodePutOutcome.attachRight {r : ABintreeNode} {l l' : Tree}
    (hkey : r.key = e.key) (hval : r.val = e.val)
    (hleft : nodeLayout.IsTree st.nodes r.left left)
    (hsub : nodeLayout.IsTree st.nodes (some node) (.node new l l'))
    (hnodup : (nodeLayout.addrs (.node e left .nil)).Nodup)
    (hapart : e.addr ∉ nodeLayout.addrs (.node new l l'))
    (hpos : 0 < calls.keyCmp e.key new.key) :
    NodePutOutcome calls st e.addr node new (.node new l l')
      (.node e left .nil)
      { st with nodes := store st.nodes e.addr { r with right := some node } } := by
  obtain ⟨_, _, hroot, _, _⟩ := nodeLayout.nodup_node.mp hnodup
  apply NodePutOutcome.hung
  · exact find_pos hpos
  · rw [hang_pos hpos]
    exact isTree_of_node (store_same _ _ _) hkey hval
      (hleft.update hroot _) (hsub.update hapart _)
  · intro a ha
    apply store_of_ne
    intro heq
    subst heq
    exact ha (by simp)

theorem exchange_nodeFree {r n : ABintreeNode}
    (hcalls : st.tree.toCallbacks = calls) (hr : st.nodes e.addr = some r)
    (hn : st.nodes node = some n) :
    (exchange e.addr node st >>= nodeFree node) = .ok { st with
      nodes := Function.update (store st.nodes e.addr
        { r with key := n.key, val := n.val }) node none
      ledger := st.ledger.nodeFree calls node r.key r.val } := by
  subst hcalls
  simp [exchange, nodeFree, load, hr, hn, store]

/-- The root takes over key and value of the freed node. -/
theorem NodePutOutcome.exchanged {r n : ABintreeNode} {l l' : Tree}
    (hkey : r.key = e.key) (hval : r.val = e.val)
    (hnewKey : n.key = new.key) (hnewVal : n.val = new.val)
    (hleft : nodeLayout.IsTree st.nodes r.left left)
    (hright : nodeLayout.IsTree st.nodes r.right right)
    (hnodup : (nodeLayout.addrs (.node e left right)).Nodup)
    (hnode : node ∉ nodeLayout.addrs (.node e left right))
    (hzero : calls.keyCmp e.key new.key = 0) :
    NodePutOutcome calls st e.addr node new (.node new l l')
      (.node e left right)
      { st with
        nodes := Function.update (store st.nodes e.addr
          { r with key := n.key, val := n.val }) node none
        ledger := st.ledger.nodeFree calls node r.key r.val } := by
  obtain ⟨_, _, hrootLeft, hrootRight, _⟩ := nodeLayout.nodup_node.mp hnodup
  obtain ⟨hnotLeft, hne, hnotRight⟩ := not_mem_node.mp hnode
  rw [hkey, hval]
  apply NodePutOutcome.overwritten
  · exact find_zero hzero
  · rw [hang_zero hzero]
    have hroot : Function.update (store st.nodes e.addr
        { r with key := n.key, val := n.val }) node none e.addr =
        some { r with key := n.key, val := n.val } := by
      rw [Function.update_of_ne (Ne.symm hne), store_same]
    exact isTree_of_node (e := overwrite e new) hroot hnewKey hnewVal
      ((hleft.update hrootLeft _).update hnotLeft _)
      ((hright.update hrootRight _).update hnotRight _)
  · intro a ha hane
    rw [Function.update_of_ne hane]
    apply store_of_ne
    intro heq
    subst heq
    exact ha (by simp)

theorem nodePut_spec (hcalls : st.tree.toCallbacks = calls) {t l r : Tree}
    {root : Addr} {fuel : ℕ}
    (ht : nodeLayout.IsTree st.nodes (some root) t)
    (hsub : nodeLayout.IsTree st.nodes (some node) (.node new l r))
    (hnodup : (nodeLayout.addrs t).Nodup)
    (hapart : ∀ a ∈ nodeLayout.addrs t,
      a ∉ nodeLayout.addrs (.node new l r))
    (hfuel : t.height ≤ fuel) :
    ∃ after, nodePut node fuel root st = .ok after ∧
      NodePutOutcome calls st root node new (.node new l r) t after := by
  induction t generalizing root fuel with
  | nil => cases ht
  | node e left right ihLeft ihRight =>
      cases fuel with
      | zero => exact absurd hfuel (Nat.not_succ_le_zero _)
      | succ fuel =>
          have hheight : max left.height right.height ≤ fuel :=
            Nat.le_of_succ_le_succ hfuel
          obtain ⟨hroot, m, hm, hkey, hval, hleft, hright⟩ := root_node ht
          obtain ⟨hnode, n, hn, hnewKey, hnewVal, _, _⟩ := root_node hsub
          cases hroot
          cases hnode
          obtain ⟨hnodupLeft, hnodupRight, _⟩ :=
            nodeLayout.nodup_node.mp hnodup
          have hnotMem :
              new.addr ∉ nodeLayout.addrs (.node e left right) := by
            intro hmem
            exact hapart _ hmem (by simp)
          have hrootSub : e.addr ∉ nodeLayout.addrs (.node new l r) :=
            hapart _ (by simp)
          have hcmp : st.tree.keyCmp m.key n.key =
              calls.keyCmp e.key new.key := by
            rw [hcalls, hkey, hnewKey]
          rw [nodePut, load_of_eq hm, load_of_eq hn]
          simp only [ok_bind, hcmp]
          rcases lt_trichotomy (calls.keyCmp e.key new.key) 0 with
            hneg | hzero | hpos
          · rw [if_pos hneg]
            cases hchild : m.left with
            | none =>
                rw [hchild] at hleft
                obtain rfl := TreeLayout.isTree_none.mp hleft
                exact ⟨_, rfl, .attachLeft hkey hval hright hsub hnodup
                  hrootSub hneg⟩
            | some child =>
                rw [hchild] at hleft
                obtain ⟨after, hafter, houtcome⟩ :=
                  ihLeft hleft hnodupLeft
                    (fun a ha => hapart a (by
                      rw [nodeLayout.addrs_node]
                      exact List.mem_append_left _ ha))
                    ((le_max_left _ _).trans hheight)
                exact ⟨after, hafter, houtcome.of_left hm hkey hval hchild
                  hright hnodup hnotMem hneg⟩
          · rw [if_neg hzero.not_lt, if_neg hzero.not_gt,
              exchange_nodeFree hcalls hm hn]
            exact ⟨_, rfl, .exchanged hkey hval hnewKey hnewVal hleft
              hright hnodup hnotMem hzero⟩
          · rw [if_neg (not_lt.mpr hpos.le), if_pos hpos]
            cases hchild : m.right with
            | none =>
                rw [hchild] at hright
                obtain rfl := TreeLayout.isTree_none.mp hright
                exact ⟨_, rfl, .attachRight hkey hval hleft hsub hnodup
                  hrootSub hpos⟩
            | some child =>
                rw [hchild] at hright
                obtain ⟨after, hafter, houtcome⟩ :=
                  ihRight hright hnodupRight
                    (fun a ha => hapart a (by
                      rw [nodeLayout.addrs_node]
                      exact List.mem_append_right _
                        (List.mem_cons_of_mem _ ha)))
                    ((le_max_right _ _).trans hheight)
                exact ⟨after, hafter, houtcome.of_right hm hkey hval hchild
                  hleft hnodup hnotMem hpos⟩

end Put

theorem nodeGet_spec {nodes : Addr → Option ABintreeNode}
    {root : Option Addr} {t : Tree} (ht : nodeLayout.IsTree nodes root t)
    (key : Ptr) {fuel : ℕ} (hfuel : t.height < fuel) :
    nodeGet calls.keyCmp nodes key fuel root =
      .ok ((calls.find key t).elim 0 Entry.val) := by
  induction t generalizing root fuel with
  | nil =>
      rw [TreeLayout.isTree_nil.mp ht]
      cases fuel with
      | zero => exact absurd hfuel (Nat.not_lt_zero _)
      | succ fuel => rfl
  | node e left right ihLeft ihRight =>
      cases fuel with
      | zero => exact absurd hfuel (Nat.not_lt_zero _)
      | succ fuel =>
          have hheight : max left.height right.height < fuel :=
            Nat.lt_of_succ_lt_succ hfuel
          obtain ⟨hroot, m, hm, hkey, hval, hleft, hright⟩ := root_node ht
          cases hroot
          rw [nodeGet, load_of_eq hm, ok_bind, hkey]
          rcases lt_trichotomy (calls.keyCmp e.key key) 0 with
            hneg | hzero | hpos
          · rw [if_pos hneg, find_neg hneg]
            exact ihLeft hleft ((le_max_left _ _).trans_lt hheight)
          · rw [if_neg hzero.not_lt, if_neg hzero.not_gt, find_zero hzero,
              hval]
            rfl
          · rw [if_neg (not_lt.mpr hpos.le), if_pos hpos, find_pos hpos]
            exact ihRight hright ((le_max_right _ _).trans_lt hheight)

end Bintree
end Alib
