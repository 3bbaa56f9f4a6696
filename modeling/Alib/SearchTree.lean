import Mathlib.Data.Tree.Basic
import Mathlib.Tactic

/-!
# Search trees under a three-way comparison

Unbalanced trees which keep greater keys on the left.  Insertion hangs a whole
subtree where its root belongs, unless an entry with an equivalent key is met,
which is overwritten.  Removal joins the subtrees of the removed entry by
hanging the right one into the left one.  The entries from left to right
descend, and each operation is described by what it does to that list,
whatever the shape of the tree.
-/

namespace Alib
namespace SearchTree

variable {K ε : Type*}

/-- The signs of a comparison form a total preorder. -/
structure LawfulCmp (cmp : K → K → ℤ) : Prop where
  antisymm : ∀ a b, cmp a b < 0 ↔ 0 < cmp b a
  trans : ∀ a b c, 0 ≤ cmp a b → 0 ≤ cmp b c → 0 ≤ cmp a c

section Laws

variable {cmp : K → K → ℤ} (h : LawfulCmp cmp) {a b c : K}

include h

theorem LawfulCmp.nonneg_iff : 0 ≤ cmp a b ↔ cmp b a ≤ 0 := by
  rw [← not_lt, h.antisymm a b, not_lt]

theorem LawfulCmp.eq_zero_symm (hab : cmp a b = 0) : cmp b a = 0 := by
  apply le_antisymm
  · exact h.nonneg_iff.mp hab.ge
  · exact h.nonneg_iff.mpr hab.le

theorem LawfulCmp.pos_of_pos_of_nonneg (hab : 0 < cmp a b)
    (hbc : 0 ≤ cmp b c) : 0 < cmp a c := by
  by_contra hac
  have hca : 0 ≤ cmp c a := h.nonneg_iff.mpr (not_lt.mp hac)
  have hba : 0 ≤ cmp b a := h.trans b c a hbc hca
  exact absurd ((h.antisymm b a).mpr hab) (not_lt.mpr hba)

theorem LawfulCmp.pos_of_nonneg_of_pos (hab : 0 ≤ cmp a b)
    (hbc : 0 < cmp b c) : 0 < cmp a c := by
  by_contra hac
  have hca : 0 ≤ cmp c a := h.nonneg_iff.mpr (not_lt.mp hac)
  have hcb : 0 ≤ cmp c b := h.trans c a b hca hab
  exact absurd ((h.antisymm c b).mpr hbc) (not_lt.mpr hcb)

theorem LawfulCmp.neg_of_pos_of_neg (hba : 0 < cmp b a)
    (hbc : cmp b c < 0) : cmp a c < 0 := by
  rw [h.antisymm] at hbc ⊢
  exact h.pos_of_pos_of_nonneg hbc hba.le

theorem LawfulCmp.equivalence : Equivalence fun a b => cmp a b = 0 := by
  constructor
  · intro a
    have hself := h.antisymm a a
    omega
  · intro a b hab
    exact h.eq_zero_symm hab
  · intro a b c hab hbc
    apply le_antisymm
    · have hcb := h.eq_zero_symm hbc
      have hba := h.eq_zero_symm hab
      exact h.nonneg_iff.mp (h.trans c b a hcb.ge hba.ge)
    · exact h.trans a b c hab.ge hbc.ge

end Laws

def inorder : BinaryTree ε → List ε
  | .nil => []
  | .node e left right => inorder left ++ e :: inorder right

@[simp] theorem inorder_nil : inorder (.nil : BinaryTree ε) = [] := rfl

@[simp] theorem inorder_node (e : ε) (left right : BinaryTree ε) :
    inorder (.node e left right) = inorder left ++ e :: inorder right := rfl

theorem length_inorder (t : BinaryTree ε) :
    (inorder t).length = t.numNodes := by
  induction t with
  | nil => rfl
  | node e left right ihLeft ihRight =>
      simp only [inorder_node, List.length_append, List.length_cons,
        BinaryTree.numNodes, ihLeft, ihRight]
      omega

variable (cmp : K → K → ℤ) (keyOf : ε → K) (exchange : ε → ε → ε)

/-- Every entry is greater than those after it. -/
def Descending (entries : List ε) : Prop :=
  entries.Pairwise fun a b => 0 < cmp (keyOf a) (keyOf b)

def find (key : K) : BinaryTree ε → Option ε
  | .nil => none
  | .node e left right =>
      if cmp (keyOf e) key < 0 then find key left
      else if 0 < cmp (keyOf e) key then find key right
      else some e

/-- Hang a subtree with root entry `new`; an entry with an equivalent key is
overwritten instead. -/
def hang (new : ε) (sub : BinaryTree ε) : BinaryTree ε → BinaryTree ε
  | .nil => sub
  | .node e left right =>
      if cmp (keyOf e) (keyOf new) < 0 then
        .node e (hang new sub left) right
      else if 0 < cmp (keyOf e) (keyOf new) then
        .node e left (hang new sub right)
      else .node (exchange e new) left right

def join : BinaryTree ε → BinaryTree ε → BinaryTree ε
  | .nil, right => right
  | left, .nil => left
  | left, .node new sub sub' =>
      hang cmp keyOf exchange new (.node new sub sub') left

def remove (key : K) : BinaryTree ε → BinaryTree ε
  | .nil => .nil
  | .node e left right =>
      if cmp (keyOf e) key < 0 then .node e (remove key left) right
      else if 0 < cmp (keyOf e) key then .node e left (remove key right)
      else join cmp keyOf exchange left right

variable {cmp keyOf exchange}

theorem mem_of_find {t : BinaryTree ε} {key : K} {e : ε}
    (hfind : find cmp keyOf key t = some e) :
    e ∈ inorder t ∧ cmp (keyOf e) key = 0 := by
  induction t with
  | nil => cases hfind
  | node root left right ihLeft ihRight =>
      rw [find] at hfind
      rw [inorder_node]
      split_ifs at hfind with hneg hpos
      · obtain ⟨hmem, hzero⟩ := ihLeft hfind
        exact ⟨List.mem_append_left _ hmem, hzero⟩
      · obtain ⟨hmem, hzero⟩ := ihRight hfind
        exact ⟨by simp [hmem], hzero⟩
      · obtain rfl := Option.some.inj hfind
        exact ⟨by simp, le_antisymm (not_lt.mp hpos) (not_lt.mp hneg)⟩

theorem find_of_forall_pos {t : BinaryTree ε} {key : K}
    (hpos : ∀ x ∈ inorder t, 0 < cmp (keyOf x) key) :
    find cmp keyOf key t = none := by
  induction t with
  | nil => rfl
  | node e left right ihLeft ihRight =>
      have hroot : 0 < cmp (keyOf e) key := hpos e (by simp)
      have hright := ihRight fun x hx => hpos x (by simp [hx])
      simp [find, hroot, not_lt.mpr hroot.le, hright]

section Descending

theorem descending_node {e : ε} {left right : BinaryTree ε} :
    Descending cmp keyOf (inorder (.node e left right)) ↔
      Descending cmp keyOf (inorder left) ∧
      Descending cmp keyOf (inorder right) ∧
      (∀ x ∈ inorder left, 0 < cmp (keyOf x) (keyOf e)) ∧
      (∀ y ∈ inorder right, 0 < cmp (keyOf e) (keyOf y)) ∧
      ∀ x ∈ inorder left, ∀ y ∈ inorder right,
        0 < cmp (keyOf x) (keyOf y) := by
  unfold Descending
  rw [inorder_node, List.pairwise_append, List.pairwise_cons]
  constructor
  · rintro ⟨hleft, ⟨hroot, hright⟩, hacross⟩
    refine ⟨hleft, hright, ?_, hroot, ?_⟩
    · intro x hx
      exact hacross x hx e (by simp)
    · intro x hx y hy
      exact hacross x hx y (by simp [hy])
  · rintro ⟨hleft, hright, hbefore, hroot, hacross⟩
    refine ⟨hleft, ⟨hroot, hright⟩, ?_⟩
    intro x hx y hy
    rcases List.mem_cons.mp hy with rfl | hy
    · exact hbefore x hx
    · exact hacross x hx y hy

variable (hlawful : LawfulCmp cmp) {t : BinaryTree ε}

include hlawful

variable (exchange) in
/-- Where a key that is not in the tree belongs, and that a subtree is hung
there. -/
theorem hang_of_find_none {new : ε} (sub : BinaryTree ε)
    (h : Descending cmp keyOf (inorder t))
    (hnone : find cmp keyOf (keyOf new) t = none) :
    ∃ before after, inorder t = before ++ after ∧
      (∀ x ∈ before, 0 < cmp (keyOf x) (keyOf new)) ∧
      (∀ x ∈ after, cmp (keyOf x) (keyOf new) < 0) ∧
      inorder (hang cmp keyOf exchange new sub t) =
        before ++ inorder sub ++ after := by
  induction t with
  | nil => exact ⟨[], [], by simp [hang]⟩
  | node e left right ihLeft ihRight =>
      obtain ⟨hleft, hright, hbefore, hafter, _⟩ := descending_node.mp h
      rw [find] at hnone
      split_ifs at hnone with hneg hpos
      · obtain ⟨before, after, hsplit, hgreater, hless, hhang⟩ :=
          ihLeft hleft hnone
        refine ⟨before, after ++ e :: inorder right, ?_, hgreater, ?_, ?_⟩
        · simp [hsplit]
        · intro x hx
          rcases List.mem_append.mp hx with hx | hx
          · exact hless x hx
          · rcases List.mem_cons.mp hx with rfl | hx
            · exact hneg
            · exact hlawful.neg_of_pos_of_neg (hafter x hx) hneg
        · simp [hang, hneg, hhang]
      · obtain ⟨before, after, hsplit, hgreater, hless, hhang⟩ :=
          ihRight hright hnone
        refine ⟨inorder left ++ e :: before, after, ?_, ?_, hless, ?_⟩
        · simp [hsplit]
        · intro x hx
          rcases List.mem_append.mp hx with hx | hx
          · exact hlawful.pos_of_pos_of_nonneg (hbefore x hx) hpos.le
          · rcases List.mem_cons.mp hx with rfl | hx
            · exact hpos
            · exact hgreater x hx
        · simp [hang, hneg, hpos, hhang]

theorem ne_zero_of_find_none {key : K}
    (h : Descending cmp keyOf (inorder t))
    (hnone : find cmp keyOf key t = none) :
    ∀ e ∈ inorder t, cmp (keyOf e) key ≠ 0 := by
  induction t with
  | nil => simp
  | node root left right ihLeft ihRight =>
      obtain ⟨hleft, hright, hbefore, hafter, _⟩ := descending_node.mp h
      rw [find] at hnone
      intro e he
      rw [inorder_node, List.mem_append, List.mem_cons] at he
      split_ifs at hnone with hneg hpos
      · rcases he with he | rfl | he
        · exact ihLeft hleft hnone e he
        · exact hneg.ne
        · exact (hlawful.neg_of_pos_of_neg (hafter e he) hneg).ne
      · rcases he with he | rfl | he
        · exact (hlawful.pos_of_pos_of_nonneg (hbefore e he) hpos.le).ne'
        · exact hpos.ne'
        · exact ihRight hright hnone e he

omit hlawful in
theorem hang_of_forall_pos {new : ε} (sub : BinaryTree ε)
    (hpos : ∀ x ∈ inorder t, 0 < cmp (keyOf x) (keyOf new)) :
    inorder (hang cmp keyOf exchange new sub t) = inorder t ++ inorder sub := by
  induction t with
  | nil => simp [hang]
  | node e left right ihLeft ihRight =>
      have hroot : 0 < cmp (keyOf e) (keyOf new) := hpos e (by simp)
      have hright := ihRight fun x hx => hpos x (by simp [hx])
      simp [hang, hroot, not_lt.mpr hroot.le, hright]

omit hlawful in
theorem inorder_join {left right : BinaryTree ε}
    (hpos : ∀ x ∈ inorder left, ∀ y ∈ inorder right,
      0 < cmp (keyOf x) (keyOf y)) :
    inorder (join cmp keyOf exchange left right) =
      inorder left ++ inorder right := by
  cases left with
  | nil => rfl
  | node e l l' =>
      cases right with
      | nil => exact (List.append_nil _).symm
      | node new sub sub' =>
          rw [join]
          · apply hang_of_forall_pos
            intro x hx
            exact hpos x hx new (by simp)
          · intro h
            cases h

variable (exchange) in
omit hlawful in
theorem hang_perm_of_find_none {new : ε} (sub : BinaryTree ε)
    (hnone : find cmp keyOf (keyOf new) t = none) :
    (inorder (hang cmp keyOf exchange new sub t)).Perm
      (inorder sub ++ inorder t) := by
  induction t with
  | nil => simp [hang]
  | node e left right ihLeft ihRight =>
      rw [find] at hnone
      split_ifs at hnone with hneg hpos
      · rw [hang, if_pos hneg, inorder_node, inorder_node,
          ← List.append_assoc]
        exact (ihLeft hnone).append_right _
      · rw [hang, if_neg hneg, if_pos hpos, inorder_node, inorder_node]
        have hmoved : (inorder left ++ e :: (inorder sub ++ inorder right)).Perm
            (inorder sub ++ (inorder left ++ e :: inorder right)) := by
          have hswap := List.perm_append_comm_assoc (inorder left ++ [e])
            (inorder sub) (inorder right)
          simpa using hswap
        exact (((ihRight hnone).cons e).append_left _).trans hmoved

variable (exchange) in
omit hlawful in
/-- The entry with an equivalent key is overwritten where it is. -/
theorem hang_of_find_some {new e : ε} (sub : BinaryTree ε)
    (hsome : find cmp keyOf (keyOf new) t = some e) :
    ∃ before after, inorder t = before ++ e :: after ∧
      inorder (hang cmp keyOf exchange new sub t) =
        before ++ exchange e new :: after := by
  induction t with
  | nil => cases hsome
  | node root left right ihLeft ihRight =>
      rw [find] at hsome
      split_ifs at hsome with hneg hpos
      · obtain ⟨before, after, hsplit, hhang⟩ := ihLeft hsome
        exact ⟨before, after ++ root :: inorder right, by simp [hsplit],
          by simp [hang, hneg, hhang]⟩
      · obtain ⟨before, after, hsplit, hhang⟩ := ihRight hsome
        exact ⟨inorder left ++ root :: before, after, by simp [hsplit],
          by simp [hang, hneg, hpos, hhang]⟩
      · obtain rfl := Option.some.inj hsome
        exact ⟨inorder left, inorder right, rfl,
          by simp [hang, hneg, hpos]⟩

variable (exchange) in
omit hlawful in
theorem remove_of_find_some {key : K} {e : ε}
    (h : Descending cmp keyOf (inorder t))
    (hsome : find cmp keyOf key t = some e) :
    ∃ before after, inorder t = before ++ e :: after ∧
      inorder (remove cmp keyOf exchange key t) = before ++ after := by
  induction t with
  | nil => cases hsome
  | node root left right ihLeft ihRight =>
      obtain ⟨hleft, hright, _, _, hacross⟩ := descending_node.mp h
      rw [find] at hsome
      split_ifs at hsome with hneg hpos
      · obtain ⟨before, after, hsplit, hremove⟩ := ihLeft hleft hsome
        exact ⟨before, after ++ root :: inorder right, by simp [hsplit],
          by simp [remove, hneg, hremove]⟩
      · obtain ⟨before, after, hsplit, hremove⟩ := ihRight hright hsome
        exact ⟨inorder left ++ root :: before, after, by simp [hsplit],
          by simp [remove, hneg, hpos, hremove]⟩
      · obtain rfl := Option.some.inj hsome
        refine ⟨inorder left, inorder right, rfl, ?_⟩
        simp [remove, hneg, hpos, inorder_join hacross]

theorem Descending.insert {before after : List ε} {new : ε}
    (h : Descending cmp keyOf (before ++ after))
    (hgreater : ∀ x ∈ before, 0 < cmp (keyOf x) (keyOf new))
    (hless : ∀ x ∈ after, cmp (keyOf x) (keyOf new) < 0) :
    Descending cmp keyOf (before ++ new :: after) := by
  unfold Descending at h ⊢
  rw [List.pairwise_append] at h ⊢
  rw [List.pairwise_cons]
  rcases h with ⟨hbefore, hafter, hacross⟩
  refine ⟨hbefore, ⟨?_, hafter⟩, ?_⟩
  · intro x hx
    exact (hlawful.antisymm _ _).mp (hless x hx)
  · intro x hx y hy
    rcases List.mem_cons.mp hy with rfl | hy
    · exact hgreater x hx
    · exact hacross x hx y hy

theorem Descending.replace {before after : List ε} {e new : ε}
    (h : Descending cmp keyOf (before ++ e :: after))
    (hzero : cmp (keyOf e) (keyOf new) = 0) :
    Descending cmp keyOf (before ++ new :: after) := by
  unfold Descending at h ⊢
  rw [List.pairwise_append, List.pairwise_cons] at h ⊢
  rcases h with ⟨hbefore, ⟨hroot, hafter⟩, hacross⟩
  refine ⟨hbefore, ⟨?_, hafter⟩, ?_⟩
  · intro x hx
    exact hlawful.pos_of_nonneg_of_pos (hlawful.eq_zero_symm hzero).ge
      (hroot x hx)
  · intro x hx y hy
    rcases List.mem_cons.mp hy with rfl | hy
    · exact hlawful.pos_of_pos_of_nonneg (hacross x hx e (by simp)) hzero.ge
    · exact hacross x hx y (by simp [hy])

omit hlawful in
theorem Descending.erase {before after : List ε} {e : ε}
    (h : Descending cmp keyOf (before ++ e :: after)) :
    Descending cmp keyOf (before ++ after) :=
  List.Pairwise.sublist
    ((List.sublist_cons_self e after).append_left before) h

end Descending

end SearchTree
end Alib
