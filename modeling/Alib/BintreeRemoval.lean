import Alib.BintreeShape

/-!
# Taking nodes out of a binary tree

`node_remove` unlinks the node with an equivalent key wherever the pointer to
it is stored, after its right subtree was hung into the left one, and
`node_axe` releases every node.  Where the keys descend, hanging never meets an
equivalent key, since the keys on the left are greater; under a comparison
without laws it may, and then one more key and value are freed.
-/

namespace Alib
namespace Bintree

open SearchTree

variable {calls : Callbacks} {st : BintreeState}

def NodeLocation.addr? : NodeLocation → Option Addr
  | .root => none
  | .leftOf a => some a
  | .rightOf a => some a

def setLocation (rootPtr : NodeLocation) (p : Option Addr)
    (st : BintreeState) : BintreeState :=
  match rootPtr with
  | .root => { st with tree := { st.tree with root := p } }
  | .leftOf a => { st with
      nodes := Function.update st.nodes a
        ((st.nodes a).map fun node => { node with left := p }) }
  | .rightOf a => { st with
      nodes := Function.update st.nodes a
        ((st.nodes a).map fun node => { node with right := p }) }

section Locations

variable {rootPtr : NodeLocation} {p : Option Addr}

theorem load_live {a : Addr} (h : st.nodes a ≠ none) :
    ∃ node, st.nodes a = some node ∧ load st.nodes (some a) = .ok node := by
  obtain ⟨node, hnode⟩ := Option.ne_none_iff_exists'.mp h
  exact ⟨node, hnode, load_of_eq hnode⟩

theorem update_live {a : Addr} {node : ABintreeNode}
    (h : st.nodes a = some node) :
    Function.update st.nodes a (some node) = st.nodes := by
  rw [← h, Function.update_eq_self]

theorem readLocation_leftOf {a : Addr} {node : ABintreeNode}
    (h : st.nodes a = some node) :
    readLocation (.leftOf a) st = .ok node.left := by
  rw [readLocation, load_of_eq h]
  rfl

theorem readLocation_rightOf {a : Addr} {node : ABintreeNode}
    (h : st.nodes a = some node) :
    readLocation (.rightOf a) st = .ok node.right := by
  rw [readLocation, load_of_eq h]
  rfl

theorem ne_of_notMem_some {a b : Addr} (h : a ∉ some b) : a ≠ b :=
  fun heq => h (congrArg some heq.symm)

theorem writeLocation_eq (hlive : ∀ a ∈ rootPtr.addr?, st.nodes a ≠ none) :
    writeLocation rootPtr p st = .ok (setLocation rootPtr p st) := by
  cases rootPtr with
  | root => rfl
  | leftOf a =>
      obtain ⟨node, hnode, hload⟩ := load_live (hlive a rfl)
      simp [writeLocation, setLocation, hload, hnode, store]
  | rightOf a =>
      obtain ⟨node, hnode, hload⟩ := load_live (hlive a rfl)
      simp [writeLocation, setLocation, hload, hnode, store]

theorem live_of_readLocation (hread : readLocation rootPtr st = .ok p) :
    ∀ a ∈ rootPtr.addr?, st.nodes a ≠ none := by
  intro a ha hnone
  cases rootPtr with
  | root => cases ha
  | leftOf b =>
      cases ha
      simp [readLocation, load, hnone] at hread
  | rightOf b =>
      cases ha
      simp [readLocation, load, hnone] at hread

theorem setLocation_self (hread : readLocation rootPtr st = .ok p) :
    setLocation rootPtr p st = st := by
  have hlive := live_of_readLocation hread
  cases rootPtr with
  | root =>
      cases hread
      rfl
  | leftOf a =>
      obtain ⟨node, hnode, _⟩ := load_live (hlive a rfl)
      rw [readLocation_leftOf hnode] at hread
      cases hread
      simp [setLocation, hnode, update_live hnode]
  | rightOf a =>
      obtain ⟨node, hnode, _⟩ := load_live (hlive a rfl)
      rw [readLocation_rightOf hnode] at hread
      cases hread
      simp [setLocation, hnode, update_live hnode]

theorem readLocation_congr {after : BintreeState}
    (htree : after.tree = st.tree)
    (hagree : ∀ a ∈ rootPtr.addr?, after.nodes a = st.nodes a) :
    readLocation rootPtr after = readLocation rootPtr st := by
  cases rootPtr with
  | root => rw [readLocation, readLocation, htree]
  | leftOf a => simp [readLocation, load, hagree a rfl]
  | rightOf a => simp [readLocation, load, hagree a rfl]

theorem setLocation_nodes {a : Addr} (ha : a ∉ rootPtr.addr?) :
    (setLocation rootPtr p st).nodes a = st.nodes a := by
  cases rootPtr with
  | root => rfl
  | leftOf b => exact Function.update_of_ne (ne_of_notMem_some ha) _ _
  | rightOf b => exact Function.update_of_ne (ne_of_notMem_some ha) _ _

theorem setLocation_callbacks :
    (setLocation rootPtr p st).tree.toCallbacks = st.tree.toCallbacks := by
  cases rootPtr <;> rfl

theorem setLocation_ledger :
    (setLocation rootPtr p st).ledger = st.ledger := by
  cases rootPtr <;> rfl

/-- Another node may as well be written before the pointer. -/
theorem setLocation_update {a : Addr} (ha : a ∉ rootPtr.addr?)
    (value : Option ABintreeNode) (ledger : Ledger) :
    { setLocation rootPtr p st with
      nodes := Function.update (setLocation rootPtr p st).nodes a value
      ledger := ledger } =
    setLocation rootPtr p { st with
      nodes := Function.update st.nodes a value
      ledger := ledger } := by
  cases rootPtr with
  | root => rfl
  | leftOf b =>
      have hne := ne_of_notMem_some ha
      simp only [setLocation, Function.update_comm hne,
        Function.update_of_ne hne.symm]
  | rightOf b =>
      have hne := ne_of_notMem_some ha
      simp only [setLocation, Function.update_comm hne,
        Function.update_of_ne hne.symm]

end Locations

section Remove

variable {rootPtr : NodeLocation} {e : Entry} {left right : Tree}

theorem join_nil_right (left : Tree) : calls.join left .nil = left := by
  cases left <;> rfl

theorem join_node {new : Entry} {sub sub' : Tree} (hleft : left ≠ .nil) :
    calls.join left (.node new sub sub') =
      calls.hang new (.node new sub sub') left := by
  cases left with
  | nil => exact absurd rfl hleft
  | node e l l' => rfl

/-- Joining adds the right subtree to the left one, unless an entry with an
equal key is met, which takes over the root of the right one. -/
theorem join_cases (calls : Callbacks) (left right : Tree) :
    (inorder (calls.join left right)).Perm (inorder left ++ inorder right) ∨
    ∃ new sub sub' old before after, right = .node new sub sub' ∧
      calls.find new.key left = some old ∧
      inorder left = before ++ old :: after ∧
      inorder (calls.join left right) =
        before ++ overwrite old new :: after := by
  cases right with
  | nil =>
      left
      rw [join_nil_right, inorder_nil, List.append_nil]
  | node new sub sub' =>
      by_cases hleft : left = .nil
      · left
        subst hleft
        exact List.Perm.refl _
      · rw [join_node hleft]
        cases hfind : calls.find new.key left with
        | none =>
            left
            exact (hang_perm_of_find_none overwrite (.node new sub sub')
              hfind).trans List.perm_append_comm
        | some old =>
            right
            obtain ⟨before, after, hsplit, hhang⟩ :=
              hang_of_find_some overwrite (.node new sub sub') hfind
            exact ⟨new, sub, sub', old, before, after, rfl, hfind, hsplit,
              hhang⟩

theorem addrs_join_le (calls : Callbacks) (left right : Tree) :
    (nodeLayout.addrs (calls.join left right) : Multiset Addr) ≤
      nodeLayout.addrs left + nodeLayout.addrs right := by
  rcases join_cases calls left right with
    hperm | ⟨new, sub, sub', old, before, after, _, _, hsplit, hjoin⟩
  · apply le_of_eq
    rw [Multiset.coe_add, Multiset.coe_eq_coe, TreeLayout.addrs,
      TreeLayout.addrs, TreeLayout.addrs, ← List.map_append]
    exact hperm.map _
  · have hsame : nodeLayout.addrs (calls.join left right) =
        nodeLayout.addrs left := by
      rw [TreeLayout.addrs, TreeLayout.addrs, hsplit, hjoin, List.map_append,
        List.map_append]
      rfl
    rw [hsame]
    exact Multiset.le_add_right _ _

theorem mem_join (hmem : e ∈ inorder (calls.join left right)) :
    ∃ old ∈ inorder left ++ inorder right,
      old.key = e.key ∧ old.val = e.val := by
  rcases join_cases calls left right with
    hperm | ⟨new, sub, sub', old, before, after, hright, _, hsplit, hjoin⟩
  · exact ⟨e, hperm.mem_iff.mp hmem, rfl, rfl⟩
  · rw [hjoin, List.mem_append, List.mem_cons] at hmem
    rcases hmem with hmem | hsame | hmem
    · exact ⟨e, by simp [hsplit, hmem], rfl, rfl⟩
    · subst hsame
      exact ⟨new, by simp [hright], rfl, rfl⟩
    · exact ⟨e, by simp [hsplit, hmem], rfl, rfl⟩

theorem addrs_remove_le (calls : Callbacks) (key : Ptr) (t : Tree) :
    (nodeLayout.addrs (calls.remove key t) : Multiset Addr) ≤
      nodeLayout.addrs t := by
  induction t with
  | nil => exact le_rfl
  | node r left right ihLeft ihRight =>
      rcases lt_trichotomy (calls.keyCmp r.key key) 0 with
        hneg | hzero | hpos
      · rw [remove_neg hneg, nodeLayout.addrs_node, nodeLayout.addrs_node,
          ← Multiset.coe_add, ← Multiset.coe_add]
        exact Multiset.add_le_add_right ihLeft
      · rw [remove_zero hzero, nodeLayout.addrs_node, ← Multiset.coe_add,
          ← Multiset.cons_coe]
        exact (addrs_join_le calls left right).trans
          (Multiset.add_le_add_left (Multiset.le_cons_self _ _))
      · rw [remove_pos hpos, nodeLayout.addrs_node, nodeLayout.addrs_node,
          ← Multiset.coe_add, ← Multiset.coe_add, ← Multiset.cons_coe,
          ← Multiset.cons_coe]
        exact Multiset.add_le_add_left (Multiset.cons_le_cons _ ihRight)

theorem addrs_remove_subset (calls : Callbacks) (key : Ptr) (t : Tree) :
    nodeLayout.addrs (calls.remove key t) ⊆ nodeLayout.addrs t :=
  fun _ ha => Multiset.mem_of_le (addrs_remove_le calls key t) ha

theorem mem_remove {key : Ptr} {t : Tree}
    (hmem : e ∈ inorder (calls.remove key t)) :
    ∃ old ∈ inorder t, old.key = e.key ∧ old.val = e.val := by
  induction t with
  | nil => cases hmem
  | node r left right ihLeft ihRight =>
      rcases lt_trichotomy (calls.keyCmp r.key key) 0 with
        hneg | hzero | hpos
      · rw [remove_neg hneg, inorder_node, List.mem_append] at hmem
        rcases hmem with hmem | hmem
        · obtain ⟨old, hold, hsame⟩ := ihLeft hmem
          exact ⟨old, by simp [hold], hsame⟩
        · exact ⟨e, by simp [List.mem_cons.mp hmem], rfl, rfl⟩
      · rw [remove_zero hzero] at hmem
        obtain ⟨old, hold, hsame⟩ := mem_join hmem
        refine ⟨old, ?_, hsame⟩
        rcases List.mem_append.mp hold with hold | hold
        · simp [hold]
        · simp [hold]
      · rw [remove_pos hpos, inorder_node, List.mem_append,
          List.mem_cons] at hmem
        rcases hmem with hmem | hmem | hmem
        · exact ⟨e, by simp [hmem], rfl, rfl⟩
        · exact ⟨e, by simp [hmem], rfl, rfl⟩
        · obtain ⟨old, hold, hsame⟩ := ihRight hmem
          exact ⟨old, by simp [hold], hsame⟩

/-- What hanging the right subtree of a removed node into its left one writes:
nothing, unless an entry with an equal key is met, whose key and value are
freed with the root of the right subtree. -/
def Callbacks.hangLedger (calls : Callbacks) (left : Tree) :
    Tree → Ledger → Ledger
  | .nil, ledger => ledger
  | .node new _ _, ledger =>
      (calls.find new.key left).elim ledger
        fun old => ledger.nodeFree calls new.addr old.key old.val

/-- What removing the key writes. -/
def Callbacks.removeLedger (calls : Callbacks) (key : Ptr) :
    Tree → Ledger → Ledger
  | .nil, ledger => ledger
  | .node e left right, ledger =>
      if calls.keyCmp e.key key < 0 then calls.removeLedger key left ledger
      else if 0 < calls.keyCmp e.key key then
        calls.removeLedger key right ledger
      else (calls.hangLedger left right ledger).nodeFree calls e.addr e.key 0

theorem hangRight_spec (hcalls : st.tree.toCallbacks = calls)
    {child : Addr} {p : Option Addr}
    (hleft : nodeLayout.IsTree st.nodes (some child) left)
    (hright : nodeLayout.IsTree st.nodes p right)
    (hnodup : (nodeLayout.addrs left).Nodup)
    (hapart : ∀ a ∈ nodeLayout.addrs left, a ∉ nodeLayout.addrs right)
    (hfuel : left.height ≤ st.fuel) :
    ∃ nodes, hangRight child p st = .ok { st with
        nodes := nodes
        ledger := calls.hangLedger left right st.ledger } ∧
      nodeLayout.IsTree nodes (some child) (calls.join left right) ∧
      ∀ a ∉ nodeLayout.addrs left, a ∉ nodeLayout.addrs right →
        nodes a = st.nodes a := by
  cases right with
  | nil =>
      rw [TreeLayout.isTree_nil.mp hright, join_nil_right]
      exact ⟨st.nodes, rfl, hleft, fun _ _ _ => rfl⟩
  | node new sub sub' =>
      have hroot := (root_node hright).1
      rw [hroot] at hright ⊢
      obtain ⟨after, hafter, houtcome⟩ :=
        nodePut_spec hcalls hleft hright hnodup hapart hfuel
      have hne : left ≠ .nil := by
        intro heq
        subst heq
        cases hleft
      rw [join_node hne, Callbacks.hangLedger]
      cases houtcome with
      | hung nodes hnone htree hframe =>
          rw [hnone]
          exact ⟨nodes, hafter, htree, fun a ha _ => hframe a ha⟩
      | overwritten nodes old hsome htree hframe =>
          rw [hsome]
          refine ⟨nodes, hafter, htree, fun a ha hnot => hframe a ha ?_⟩
          intro heq
          subst heq
          exact hnot (by simp)

theorem detach_spec (hcalls : st.tree.toCallbacks = calls)
    {r : ABintreeNode} (hr : st.nodes e.addr = some r)
    (hleft : nodeLayout.IsTree st.nodes r.left left)
    (hright : nodeLayout.IsTree st.nodes r.right right)
    (hnodup : (nodeLayout.addrs (.node e left right)).Nodup)
    (hlive : ∀ a ∈ rootPtr.addr?, st.nodes a ≠ none)
    (hout : ∀ a ∈ rootPtr.addr?,
      a ∉ nodeLayout.addrs (.node e left right))
    (hfuel : left.height ≤ st.fuel) :
    ∃ nodes p, detach rootPtr e.addr st = .ok (setLocation rootPtr p { st with
        nodes := nodes
        ledger := calls.hangLedger left right st.ledger }) ∧
      nodeLayout.IsTree nodes p (calls.join left right) ∧
      ∀ a ∉ nodeLayout.addrs left, a ∉ nodeLayout.addrs right →
        nodes a = st.nodes a := by
  obtain ⟨hnodupLeft, _, hrootLeft, hrootRight, hacross⟩ :=
    nodeLayout.nodup_node.mp hnodup
  rw [detach, load_of_eq hr, ok_bind]
  cases hchild : r.left with
  | none =>
      rw [hchild] at hleft
      obtain rfl := TreeLayout.isTree_none.mp hleft
      have hsame : calls.hangLedger .nil right st.ledger = st.ledger := by
        cases right <;> rfl
      rw [hsame]
      exact ⟨st.nodes, r.right, writeLocation_eq hlive, hright,
        fun _ _ _ => rfl⟩
  | some child =>
      rw [hchild] at hleft
      obtain ⟨nodes, hhang, htree, hframe⟩ :=
        hangRight_spec hcalls hleft hright hnodupLeft hacross hfuel
      have hr' : nodes e.addr = some r :=
        (hframe _ hrootLeft hrootRight).trans hr
      have hlive' : ∀ a ∈ rootPtr.addr?, nodes a ≠ none := by
        intro a ha
        obtain ⟨hnotLeft, _, hnotRight⟩ := not_mem_node.mp (hout a ha)
        rw [hframe a hnotLeft hnotRight]
        exact hlive a ha
      refine ⟨nodes, some child, ?_, htree, hframe⟩
      simp only [hhang, ok_bind, load_of_eq hr', hchild]
      exact writeLocation_eq hlive'

theorem not_mem_join
    (hnodup : (nodeLayout.addrs (.node e left right)).Nodup) :
    e.addr ∉ nodeLayout.addrs (calls.join left right) := by
  obtain ⟨_, _, hrootLeft, hrootRight, _⟩ := nodeLayout.nodup_node.mp hnodup
  intro hmem
  have hsum := Multiset.mem_of_le (addrs_join_le calls left right)
    (Multiset.mem_coe.mpr hmem)
  rcases Multiset.mem_add.mp hsum with hleft | hright
  · exact hrootLeft (Multiset.mem_coe.mp hleft)
  · exact hrootRight (Multiset.mem_coe.mp hright)

theorem removeFound_spec (hcalls : st.tree.toCallbacks = calls)
    (ht : nodeLayout.IsTree st.nodes (some e.addr) (.node e left right))
    (hnodup : (nodeLayout.addrs (.node e left right)).Nodup)
    (hlive : ∀ a ∈ rootPtr.addr?, st.nodes a ≠ none)
    (hout : ∀ a ∈ rootPtr.addr?,
      a ∉ nodeLayout.addrs (.node e left right))
    (hfuel : left.height ≤ st.fuel) :
    ∃ nodes p, removeFound rootPtr e.addr st =
        .ok (e.val, setLocation rootPtr p { st with
          nodes := nodes
          ledger := (calls.hangLedger left right st.ledger).nodeFree calls
            e.addr e.key 0 }) ∧
      nodeLayout.IsTree nodes p (calls.join left right) ∧
      ∀ a ∉ nodeLayout.addrs (.node e left right),
        nodes a = st.nodes a := by
  obtain ⟨_, m, hm, hkey, hval, hleft, hright⟩ := root_node ht
  obtain ⟨_, _, hrootLeft, hrootRight, _⟩ := nodeLayout.nodup_node.mp hnodup
  have hroot_out : e.addr ∉ rootPtr.addr? := by
    intro hmem
    exact hout _ hmem (by simp)
  let blanked : BintreeState := { st with
    nodes := store st.nodes e.addr { m with val := 0 } }
  have hblank : ∀ a, a ≠ e.addr → blanked.nodes a = st.nodes a :=
    fun a ha => store_of_ne _ _ ha
  have hblanked : blanked.nodes e.addr = some { m with val := 0 } :=
    store_same _ _ _
  have hlive' : ∀ a ∈ rootPtr.addr?, blanked.nodes a ≠ none := by
    intro a ha
    rw [hblank a fun h => hroot_out (h ▸ ha)]
    exact hlive a ha
  have hcalls' : blanked.tree.toCallbacks = calls := hcalls
  obtain ⟨nodes, p, hdetach, htree, hframe⟩ :=
    detach_spec hcalls' hblanked (hleft.update hrootLeft _)
      (hright.update hrootRight _) hnodup hlive' hout hfuel
  have hnode : nodes e.addr = some { m with val := 0 } :=
    (hframe _ hrootLeft hrootRight).trans hblanked
  refine ⟨Function.update nodes e.addr none, p, ?_, ?_, ?_⟩
  · rw [removeFound, load_of_eq hm, ok_bind]
    change detach rootPtr e.addr blanked >>= _ = _
    rw [hdetach, ok_bind]
    rw [load_of_eq ((setLocation_nodes hroot_out).trans hnode)]
    simp only [ok_bind, nodeFree]
    rw [load_of_eq (store_same _ _ _)]
    simp only [ok_bind, pure_eq_ok, store, Function.update_idem,
      setLocation_callbacks, setLocation_ledger, hcalls', hkey, hval,
      setLocation_update hroot_out]
    rfl
  · exact htree.update (not_mem_join hnodup) none
  · intro a ha
    obtain ⟨hnotLeft, hne, hnotRight⟩ := not_mem_node.mp ha
    rw [Function.update_of_ne hne]
    exact (hframe a hnotLeft hnotRight).trans (hblank a hne)

/-- A pointer to a node which stays where it is need not be written. -/
theorem setLocation_unchanged {root : Option Addr} {t : Tree}
    {nodes : Addr → Option ABintreeNode} (ledger : Ledger)
    (hread : readLocation rootPtr st = .ok root)
    (hout : ∀ a ∈ rootPtr.addr?, a ∉ nodeLayout.addrs t)
    (hframe : ∀ a ∉ nodeLayout.addrs t, nodes a = st.nodes a) :
    setLocation rootPtr root { st with nodes := nodes, ledger := ledger } =
      { st with nodes := nodes, ledger := ledger } := by
  apply setLocation_self
  rw [← hread]
  exact readLocation_congr rfl fun a ha => hframe a (hout a ha)

/-- The call took the node of `e` out of the tree and left this ledger. -/
def Unlinks (calls : Callbacks) (st : BintreeState)
    (rootPtr : NodeLocation) (key : Ptr) (t : Tree) (e : Entry)
    (ledger : Ledger) (result : Except Fault (Ptr × BintreeState)) : Prop :=
  ∃ nodes p, result = .ok (e.val, setLocation rootPtr p { st with
      nodes := nodes
      ledger := ledger }) ∧
    nodeLayout.IsTree nodes p (calls.remove key t) ∧
    ∀ a ∉ nodeLayout.addrs t, nodes a = st.nodes a

variable {r : Entry} {m : ABintreeNode} {key : Ptr} {ledger : Ledger}
  {result : Except Fault (Ptr × BintreeState)}

theorem Unlinks.of_left (hm : st.nodes r.addr = some m)
    (hkey : m.key = r.key) (hval : m.val = r.val)
    (hright : nodeLayout.IsTree st.nodes m.right right)
    (hnodup : (nodeLayout.addrs (.node r left right)).Nodup)
    (hread : readLocation rootPtr st = .ok (some r.addr))
    (hout : ∀ a ∈ rootPtr.addr?,
      a ∉ nodeLayout.addrs (.node r left right))
    (hneg : calls.keyCmp r.key key < 0)
    (h : Unlinks calls st (.leftOf r.addr) key left e ledger result) :
    Unlinks calls st rootPtr key (.node r left right) e ledger result := by
  obtain ⟨_, _, hrootLeft, hrootRight, hacross⟩ :=
    nodeLayout.nodup_node.mp hnodup
  rcases h with ⟨nodes, p, hresult, htree, hframe⟩
  have hnode : nodes r.addr = some m := (hframe _ hrootLeft).trans hm
  have hframe' : ∀ a ∉ nodeLayout.addrs (.node r left right),
      store nodes r.addr { m with left := p } a = st.nodes a := by
    intro a ha
    obtain ⟨hnotLeft, hne, _⟩ := not_mem_node.mp ha
    rw [store_of_ne _ _ hne]
    exact hframe a hnotLeft
  refine ⟨store nodes r.addr { m with left := p }, some r.addr, ?_, ?_,
    hframe'⟩
  · rw [hresult, setLocation_unchanged _ hread hout hframe']
    simp only [setLocation, hnode, Option.map_some, store]
  · rw [remove_neg hneg]
    have hnotMem : r.addr ∉ nodeLayout.addrs (calls.remove key left) :=
      fun hmem => hrootLeft (addrs_remove_subset calls key left hmem)
    have hright' := (hright.congr fun a ha =>
      hframe a fun hmem => hacross a hmem ha).update hrootRight
        (some { m with left := p })
    exact isTree_of_node (store_same _ _ _) hkey hval
      (htree.update hnotMem _) hright'

theorem Unlinks.of_right (hm : st.nodes r.addr = some m)
    (hkey : m.key = r.key) (hval : m.val = r.val)
    (hleft : nodeLayout.IsTree st.nodes m.left left)
    (hnodup : (nodeLayout.addrs (.node r left right)).Nodup)
    (hread : readLocation rootPtr st = .ok (some r.addr))
    (hout : ∀ a ∈ rootPtr.addr?,
      a ∉ nodeLayout.addrs (.node r left right))
    (hpos : 0 < calls.keyCmp r.key key)
    (h : Unlinks calls st (.rightOf r.addr) key right e ledger result) :
    Unlinks calls st rootPtr key (.node r left right) e ledger result := by
  obtain ⟨_, _, hrootLeft, hrootRight, hacross⟩ :=
    nodeLayout.nodup_node.mp hnodup
  rcases h with ⟨nodes, p, hresult, htree, hframe⟩
  have hnode : nodes r.addr = some m := (hframe _ hrootRight).trans hm
  have hframe' : ∀ a ∉ nodeLayout.addrs (.node r left right),
      store nodes r.addr { m with right := p } a = st.nodes a := by
    intro a ha
    obtain ⟨_, hne, hnotRight⟩ := not_mem_node.mp ha
    rw [store_of_ne _ _ hne]
    exact hframe a hnotRight
  refine ⟨store nodes r.addr { m with right := p }, some r.addr, ?_, ?_,
    hframe'⟩
  · rw [hresult, setLocation_unchanged _ hread hout hframe']
    simp only [setLocation, hnode, Option.map_some, store]
  · rw [remove_pos hpos]
    have hnotMem : r.addr ∉ nodeLayout.addrs (calls.remove key right) :=
      fun hmem => hrootRight (addrs_remove_subset calls key right hmem)
    have hleft' := (hleft.congr fun a ha =>
      hframe a (hacross a ha)).update hrootLeft (some { m with right := p })
    exact isTree_of_node (store_same _ _ _) hkey hval hleft'
      (htree.update hnotMem _)

theorem removeLedger_neg (hneg : calls.keyCmp r.key key < 0) :
    calls.removeLedger key (.node r left right) ledger =
      calls.removeLedger key left ledger :=
  if_pos hneg

theorem removeLedger_pos (hpos : 0 < calls.keyCmp r.key key) :
    calls.removeLedger key (.node r left right) ledger =
      calls.removeLedger key right ledger :=
  (if_neg (not_lt.mpr hpos.le)).trans (if_pos hpos)

theorem removeLedger_zero (hzero : calls.keyCmp r.key key = 0) :
    calls.removeLedger key (.node r left right) ledger =
      (calls.hangLedger left right ledger).nodeFree calls r.addr r.key 0 :=
  (if_neg hzero.not_lt).trans (if_neg hzero.not_gt)

theorem nodeRemove_node (hcalls : st.tree.toCallbacks = calls)
    (hread : readLocation rootPtr st = .ok (some r.addr))
    (hm : st.nodes r.addr = some m) (hkey : m.key = r.key) (fuel : ℕ) :
    nodeRemove key (fuel + 1) rootPtr st =
      if calls.keyCmp r.key key < 0 then
        nodeRemove key fuel (.leftOf r.addr) st
      else if 0 < calls.keyCmp r.key key then
        nodeRemove key fuel (.rightOf r.addr) st
      else removeFound rootPtr r.addr st := by
  subst hcalls
  rw [nodeRemove, hread]
  simp only [ok_bind, load_of_eq hm, hkey]

theorem nodeRemove_unlinks (hcalls : st.tree.toCallbacks = calls) {t : Tree}
    {root : Option Addr} {fuel : ℕ}
    (hread : readLocation rootPtr st = .ok root)
    (ht : nodeLayout.IsTree st.nodes root t)
    (hnodup : (nodeLayout.addrs t).Nodup)
    (hout : ∀ a ∈ rootPtr.addr?, a ∉ nodeLayout.addrs t)
    (hfuel : t.height ≤ fuel) (hheight : t.height ≤ st.fuel)
    (hsome : calls.find key t = some e) :
    Unlinks calls st rootPtr key t e (calls.removeLedger key t st.ledger)
      (nodeRemove key fuel rootPtr st) := by
  induction t generalizing root rootPtr fuel with
  | nil => cases hsome
  | node r left right ihLeft ihRight =>
      cases fuel with
      | zero => exact absurd hfuel (Nat.not_succ_le_zero _)
      | succ fuel =>
          have hchildren : max left.height right.height ≤ fuel :=
            Nat.le_of_succ_le_succ hfuel
          have hchildren' : max left.height right.height ≤ st.fuel :=
            Nat.le_of_succ_le hheight
          obtain ⟨hroot, m, hm, hkey, hval, hleft, hright⟩ := root_node ht
          obtain ⟨hnodupLeft, hnodupRight, hrootLeft, hrootRight, _⟩ :=
            nodeLayout.nodup_node.mp hnodup
          subst hroot
          rw [nodeRemove_node hcalls hread hm hkey]
          rcases lt_trichotomy (calls.keyCmp r.key key) 0 with
            hneg | hzero | hpos
          · rw [find_neg hneg] at hsome
            rw [if_pos hneg, removeLedger_neg hneg]
            exact (ihLeft (readLocation_leftOf hm) hleft hnodupLeft
              (by rintro a ⟨⟩; exact hrootLeft)
              ((le_max_left _ _).trans hchildren)
              ((le_max_left _ _).trans hchildren') hsome).of_left hm hkey
                hval hright hnodup hread hout hneg
          · rw [find_zero hzero] at hsome
            cases hsome
            rw [if_neg hzero.not_lt, if_neg hzero.not_gt,
              removeLedger_zero hzero]
            obtain ⟨nodes, p, hremove, htree, hframe⟩ :=
              removeFound_spec hcalls ht hnodup (live_of_readLocation hread)
                hout ((le_max_left _ _).trans hchildren')
            rw [← remove_zero hzero] at htree
            exact ⟨nodes, p, hremove, htree, hframe⟩
          · rw [find_pos hpos] at hsome
            rw [if_neg (not_lt.mpr hpos.le), if_pos hpos,
              removeLedger_pos hpos]
            exact (ihRight (readLocation_rightOf hm) hright hnodupRight
              (by rintro a ⟨⟩; exact hrootRight)
              ((le_max_right _ _).trans hchildren)
              ((le_max_right _ _).trans hchildren') hsome).of_right hm hkey
                hval hleft hnodup hread hout hpos

theorem removeLedger_of_descending {t : Tree}
    (hdescending : Descending calls.keyCmp Entry.key (inorder t))
    (hsome : calls.find key t = some e) (ledger : Ledger) :
    calls.removeLedger key t ledger =
      ledger.nodeFree calls e.addr e.key 0 := by
  induction t with
  | nil => cases hsome
  | node r left right ihLeft ihRight =>
      obtain ⟨hdescLeft, hdescRight, _, _, hacross⟩ :=
        descending_node.mp hdescending
      rcases lt_trichotomy (calls.keyCmp r.key key) 0 with
        hneg | hzero | hpos
      · rw [find_neg hneg] at hsome
        rw [removeLedger_neg hneg, ihLeft hdescLeft hsome]
      · rw [find_zero hzero] at hsome
        cases hsome
        rw [removeLedger_zero hzero]
        cases right with
        | nil => rfl
        | node new sub sub' =>
            have hnone : calls.find new.key left = none :=
              find_of_forall_pos fun x hx => hacross x hx new (by simp)
            rw [Callbacks.hangLedger, hnone]
            rfl
      · rw [find_pos hpos] at hsome
        rw [removeLedger_pos hpos, ihRight hdescRight hsome]

theorem nodeRemove_absent (hcalls : st.tree.toCallbacks = calls) {t : Tree}
    {root : Option Addr} {fuel : ℕ}
    (hread : readLocation rootPtr st = .ok root)
    (ht : nodeLayout.IsTree st.nodes root t) (hfuel : t.height < fuel)
    (hnone : calls.find key t = none) :
    nodeRemove key fuel rootPtr st = .ok (0, st) := by
  induction t generalizing root rootPtr fuel with
  | nil =>
      rw [TreeLayout.isTree_nil.mp ht] at hread
      cases fuel with
      | zero => exact absurd hfuel (Nat.not_lt_zero _)
      | succ fuel =>
          rw [nodeRemove, hread]
          rfl
  | node r left right ihLeft ihRight =>
      cases fuel with
      | zero => exact absurd hfuel (Nat.not_lt_zero _)
      | succ fuel =>
          have hchildren : max left.height right.height < fuel :=
            Nat.lt_of_succ_lt_succ hfuel
          obtain ⟨hroot, m, hm, hkey, hval, hleft, hright⟩ := root_node ht
          subst hroot
          rw [nodeRemove_node hcalls hread hm hkey]
          rcases lt_trichotomy (calls.keyCmp r.key key) 0 with
            hneg | hzero | hpos
          · rw [if_pos hneg]
            rw [find_neg hneg] at hnone
            exact ihLeft (readLocation_leftOf hm) hleft
              ((le_max_left _ _).trans_lt hchildren) hnone
          · rw [find_zero hzero] at hnone
            cases hnone
          · rw [if_neg (not_lt.mpr hpos.le), if_pos hpos]
            rw [find_pos hpos] at hnone
            exact ihRight (readLocation_rightOf hm) hright
              ((le_max_right _ _).trans_lt hchildren) hnone

end Remove

section Axe

/-- The order in which `node_axe` frees the nodes. -/
def axeOrder : Tree → List Entry
  | .nil => []
  | .node e left right => axeOrder right ++ axeOrder left ++ [e]

theorem axeOrder_perm (t : Tree) : (axeOrder t).Perm (inorder t) := by
  induction t with
  | nil => exact .nil
  | node e left right ihLeft ihRight =>
      rw [axeOrder, inorder_node]
      calc axeOrder right ++ axeOrder left ++ [e]
          |>.Perm (axeOrder left ++ axeOrder right ++ [e]) :=
            List.perm_append_comm.append_right [e]
        _ |>.Perm (inorder left ++ inorder right ++ [e]) :=
            (ihLeft.append ihRight).append_right [e]
        _ |>.Perm (inorder left ++ e :: inorder right) := by
            rw [List.append_assoc]
            exact (List.perm_append_singleton e _).append_left _

def Ledger.freeAll (calls : Callbacks) (order : List Entry)
    (ledger : Ledger) : Ledger :=
  order.foldl (fun ledger e => ledger.nodeFree calls e.addr e.key e.val)
    ledger

@[simp] theorem freeAll_append (first second : List Entry)
    (ledger : Ledger) :
    ledger.freeAll calls (first ++ second) =
      (ledger.freeAll calls first).freeAll calls second :=
  List.foldl_append

theorem nodeAxe_spec (hcalls : st.tree.toCallbacks = calls) {t : Tree}
    {root : Option Addr} {fuel : ℕ}
    (ht : nodeLayout.IsTree st.nodes root t)
    (hnodup : (nodeLayout.addrs t).Nodup) (hfuel : t.height < fuel) :
    ∃ nodes, nodeAxe fuel root st = .ok { st with
        nodes := nodes
        ledger := st.ledger.freeAll calls (axeOrder t) } ∧
      ∀ a ∉ nodeLayout.addrs t, nodes a = st.nodes a := by
  induction t generalizing root fuel st with
  | nil =>
      rw [TreeLayout.isTree_nil.mp ht]
      cases fuel with
      | zero => exact absurd hfuel (Nat.not_lt_zero _)
      | succ fuel => exact ⟨st.nodes, rfl, fun _ _ => rfl⟩
  | node e left right ihLeft ihRight =>
      cases fuel with
      | zero => exact absurd hfuel (Nat.not_lt_zero _)
      | succ fuel =>
          have hchildren : max left.height right.height < fuel :=
            Nat.lt_of_succ_lt_succ hfuel
          obtain ⟨hroot, m, hm, hkey, hval, hleft, hright⟩ := root_node ht
          obtain ⟨hnodupLeft, hnodupRight, hrootLeft, hrootRight, hacross⟩ :=
            nodeLayout.nodup_node.mp hnodup
          subst hroot
          obtain ⟨nodes, haxe, hframe⟩ := ihRight hcalls hright hnodupRight
            ((le_max_right _ _).trans_lt hchildren)
          have hcalls' : ({ st with
              nodes := nodes
              ledger := st.ledger.freeAll calls (axeOrder right) } :
              BintreeState).tree.toCallbacks = calls := hcalls
          have hleft' : nodeLayout.IsTree nodes m.left left :=
            hleft.congr fun a ha => hframe a (hacross a ha)
          obtain ⟨nodes', haxe', hframe'⟩ := ihLeft hcalls' hleft'
            hnodupLeft ((le_max_left _ _).trans_lt hchildren)
          have hm' : nodes e.addr = some m := (hframe _ hrootRight).trans hm
          have hm'' : nodes' e.addr = some m :=
            (hframe' _ hrootLeft).trans hm'
          refine ⟨Function.update nodes' e.addr none, ?_, ?_⟩
          · rw [nodeAxe, load_of_eq hm]
            simp only [ok_bind, haxe, load_of_eq hm', haxe', nodeFree,
              load_of_eq hm'', pure_eq_ok, axeOrder, freeAll_append, hcalls,
              hkey, hval]
            rfl
          · intro a ha
            obtain ⟨hnotLeft, hne, hnotRight⟩ := not_mem_node.mp ha
            rw [Function.update_of_ne hne]
            exact (hframe' a hnotLeft).trans (hframe a hnotRight)

end Axe

end Bintree
end Alib
