import Alib.SearchTree

/-!
# Binary trees in a memory of nodes

A memory maps addresses to nodes, a node links to a left and a right node, and
`IsTree` says that the nodes met from a root pointer are exactly the given
tree of entries.  As with chains, an entry is what a node shows without its
links, together with its address.  That no node is met twice does not follow
and is asked for where it is needed.
-/

namespace Alib

open SearchTree

/-- How a node is read: its two links, and the entry it shows at an
address. -/
structure TreeLayout (A N β : Type*) where
  left : N → Option A
  right : N → Option A
  view : A → N → β
  addr : β → A
  addr_view : ∀ a node, addr (view a node) = a

namespace TreeLayout

variable {A N β : Type*} (L : TreeLayout A N β)

def IsTree (mem : A → Option N) : Option A → BinaryTree β → Prop
  | root, .nil => root = none
  | root, .node entry left right =>
      root = some (L.addr entry) ∧
        ∃ node, mem (L.addr entry) = some node ∧
          L.view (L.addr entry) node = entry ∧
          IsTree mem (L.left node) left ∧ IsTree mem (L.right node) right

def addrs (t : BinaryTree β) : List A := (inorder t).map L.addr

@[simp] theorem addrs_nil : L.addrs .nil = [] := rfl

@[simp] theorem addrs_node (entry : β) (left right : BinaryTree β) :
    L.addrs (.node entry left right) =
      L.addrs left ++ L.addr entry :: L.addrs right := by
  simp [addrs]

theorem not_mem_node {entry : β} {left right : BinaryTree β} {a : A} :
    a ∉ L.addrs (.node entry left right) ↔
      a ∉ L.addrs left ∧ a ≠ L.addr entry ∧ a ∉ L.addrs right := by
  simp [not_or]

theorem nodup_node {entry : β} {left right : BinaryTree β} :
    (L.addrs (.node entry left right)).Nodup ↔
      (L.addrs left).Nodup ∧ (L.addrs right).Nodup ∧
      L.addr entry ∉ L.addrs left ∧ L.addr entry ∉ L.addrs right ∧
      ∀ a ∈ L.addrs left, a ∉ L.addrs right := by
  rw [addrs_node, List.nodup_append, List.nodup_cons]
  constructor
  · rintro ⟨hleft, ⟨hroot, hright⟩, hne⟩
    refine ⟨hleft, hright, ?_, hroot, ?_⟩
    · intro hmem
      exact hne _ hmem _ List.mem_cons_self rfl
    · intro a ha hmem
      exact hne a ha a (List.mem_cons_of_mem _ hmem) rfl
  · rintro ⟨hleft, hright, hrootLeft, hroot, hacross⟩
    refine ⟨hleft, ⟨hroot, hright⟩, ?_⟩
    intro a ha b hb hab
    subst b
    rcases List.mem_cons.mp hb with rfl | hmem
    · exact hrootLeft ha
    · exact hacross a ha hmem

variable {L} {mem mem' : A → Option N} {root : Option A} {t : BinaryTree β}

@[simp] theorem isTree_nil : L.IsTree mem root .nil ↔ root = none := Iff.rfl

theorem isTree_node {entry : β} {left right : BinaryTree β} :
    L.IsTree mem root (.node entry left right) ↔
      root = some (L.addr entry) ∧
        ∃ node, mem (L.addr entry) = some node ∧
          L.view (L.addr entry) node = entry ∧
          L.IsTree mem (L.left node) left ∧
          L.IsTree mem (L.right node) right := Iff.rfl

theorem isTree_none : L.IsTree mem none t ↔ t = .nil := by
  cases t with
  | nil => simp
  | node entry left right => simp [isTree_node]

theorem IsTree.unique {t' : BinaryTree β} (h : L.IsTree mem root t)
    (h' : L.IsTree mem root t') : t = t' := by
  induction t generalizing root t' with
  | nil =>
      rw [isTree_nil.mp h] at h'
      exact (isTree_none.mp h').symm
  | node entry left right ihLeft ihRight =>
      cases t' with
      | nil =>
          rw [isTree_nil.mp h'] at h
          exact isTree_none.mp h
      | node entry' left' right' =>
          rcases h with ⟨hroot, node, hnode, hview, hleft, hright⟩
          rcases h' with ⟨hroot', node', hnode', hview', hleft', hright'⟩
          have haddr : L.addr entry' = L.addr entry := by
            rw [hroot] at hroot'
            exact (Option.some.inj hroot').symm
          rw [haddr, hnode] at hnode'
          cases hnode'
          rw [haddr, hview] at hview'
          rw [hview', ihLeft hleft hleft', ihRight hright hright']

theorem IsTree.congr (h : L.IsTree mem root t)
    (hagree : ∀ a ∈ L.addrs t, mem' a = mem a) : L.IsTree mem' root t := by
  induction t generalizing root with
  | nil => exact h
  | node entry left right ihLeft ihRight =>
      rcases h with ⟨hroot, node, hnode, hview, hleft, hright⟩
      have hsame := hagree (L.addr entry) (by simp)
      refine ⟨hroot, node, hsame.trans hnode, hview, ?_, ?_⟩
      · exact ihLeft hleft fun a ha => hagree a (by simp [ha])
      · exact ihRight hright fun a ha => hagree a (by simp [ha])

theorem IsTree.update [DecidableEq A] (h : L.IsTree mem root t) {a : A}
    (hnotMem : a ∉ L.addrs t) (value : Option N) :
    L.IsTree (Function.update mem a value) root t := by
  apply h.congr
  intro b hb
  have hne : b ≠ a := by
    intro heq
    subst heq
    exact hnotMem hb
  exact Function.update_of_ne hne value mem

/-- The nodes of a tree of distinct names below a bound are at most that
many, so it is at most that high. -/
theorem height_le_of_addrs {N β : Type*} {L : TreeLayout ℕ N β}
    {t : BinaryTree β} {bound : ℕ} (hnodup : (L.addrs t).Nodup)
    (hbound : ∀ a ∈ L.addrs t, a < bound) : t.height ≤ bound := by
  have hsubset : L.addrs t ⊆ List.range bound := by
    intro a ha
    exact List.mem_range.mpr (hbound a ha)
  have hlength := (List.subperm_of_subset hnodup hsubset).length_le
  rw [addrs, List.length_map, length_inorder, List.length_range] at hlength
  exact t.height_le_numNodes.trans hlength

end TreeLayout
end Alib
