import Alib.StringOrder
import Alib.BintreeMap
import Alib.HashMap

/-!
# Dictionaries with strings as keys

A binary tree which compares its keys by `a_collect_cmp_str` and a hash table
which compares them by `a_collect_eq_str` see a pointer as the string it
points to.  Both answer as one finite map from strings does, so neither can be
told from the other.
-/

namespace Alib
namespace StringKeys

open Execution KeyedMap SearchTree

instance : DecidableEq CString := fun s t =>
  decidable_of_iff (s.bytes = t.bytes) ⟨CString.ext, fun h => h ▸ rfl⟩

def SameText (text : Ptr → CString) (a b : Ptr) : Prop := text a = text b

instance (text : Ptr → CString) : DecidableRel (SameText text) := fun _ _ =>
  inferInstanceAs (Decidable (_ = _))

/-- Every pointer points to its string, and the callbacks are those of
`collect.c`, with a hash of the string. -/
structure StringCalls (mem : Ptr → List Byte) (text : Ptr → CString)
    (keyCmp : Ptr → Ptr → ℤ) (equalFunc : Ptr → Ptr → Bool)
    (hashFunc : Ptr → BitVec 32) : Prop where
  holds : ∀ p, Holds (mem p) (text p)
  cmp_str : ∀ a b, aCollectCmpStr (mem a) (mem b) = .ok (keyCmp a b)
  eq_str : ∀ a b, aCollectEqStr (mem a) (mem b) = .ok (equalFunc a b)
  hash_text : ∀ a b, text a = text b → hashFunc a = hashFunc b

variable {mem : Ptr → List Byte} {text : Ptr → CString}
  {keyCmp : Ptr → Ptr → ℤ} {equalFunc : Ptr → Ptr → Bool}
  {hashFunc : Ptr → BitVec 32}

section Comparators

variable (h : StringCalls mem text keyCmp equalFunc hashFunc)

include h

theorem StringCalls.keyCmp_eq (a b : Ptr) :
    keyCmp a b = (text a).order (text b) := by
  have hcmp := h.cmp_str a b
  rw [aCollectCmpStr, strcmp_holds (h.holds a) (h.holds b)] at hcmp
  exact (Except.ok.inj hcmp).symm

theorem StringCalls.bintree_same (keyFree valFree : Bool) (a b : Ptr) :
    (⟨keyCmp, keyFree, valFree⟩ : Bintree.Callbacks).Same a b ↔
      SameText text a b := by
  change keyCmp a b = 0 ↔ text a = text b
  rw [h.keyCmp_eq, CString.order_eq_zero_iff]

theorem StringCalls.hash_same (keyFree valFree : Bool) (a b : Ptr) :
    (⟨hashFunc, equalFunc, keyFree, valFree⟩ : Hash.Callbacks).Same a b ↔
      SameText text a b := by
  have heq := h.eq_str a b
  rw [aCollectEqStr, strcmp_holds (h.holds a) (h.holds b)] at heq
  have hdecide : decide ((text a).order (text b) = 0) = equalFunc a b :=
    Except.ok.inj heq
  change equalFunc a b = true ↔ text a = text b
  rw [← hdecide, decide_eq_true_eq, CString.order_eq_zero_iff]

theorem StringCalls.lawfulCmp : LawfulCmp keyCmp where
  antisymm := by
    intro a b
    rw [h.keyCmp_eq, h.keyCmp_eq, CString.order_neg_iff,
      CString.order_pos_iff]
  trans := by
    intro a b c hab hbc
    rw [h.keyCmp_eq, ← not_lt, CString.order_neg_iff, not_lt] at *
    exact hbc.trans hab

theorem StringCalls.lawful (keyFree valFree : Bool) :
    (⟨hashFunc, equalFunc, keyFree, valFree⟩ : Hash.Callbacks).Lawful where
  equiv := by
    have hsame := h.hash_same keyFree valFree
    constructor
    · intro a
      exact (hsame a a).mpr rfl
    · intro a b hab
      exact (hsame b a).mpr ((hsame a b).mp hab).symm
    · intro a b c hab hbc
      exact (hsame a c).mpr
        (((hsame a b).mp hab).trans ((hsame b c).mp hbc))
  hash_eq := by
    intro a b hab
    exact h.hash_text a b ((h.hash_same keyFree valFree a b).mp hab)

end Comparators

section Runs

variable {E : Env}

theorem bintree_replies (hgrant : E.GrantsAll) (calls : Bintree.Callbacks)
    (hlawful : LawfulCmp calls.keyCmp)
    (nodes : Addr → Option Bintree.ABintreeNode) (ledger : Bintree.Ledger)
    (world : World) (ops : List (MapOp Ptr Ptr)) :
    ∃ tree t, run (Bintree.bintreeStep E) (Config.initial
        ⟨Bintree.aBintreeInit calls, nodes, ledger, world⟩) ops = .ok tree ∧
      tree.transcript = replies calls.Same aErrorSuccess 0 [] ops ∧
      Bintree.BintreeInv calls tree.state t := by
  have hinit := Bintree.mapInv_init calls nodes ledger world
  have hmeets : Meets (Bintree.bintreeStep E) (fun _ _ => True)
      (Config.initial ⟨Bintree.aBintreeInit calls, nodes, ledger, world⟩)
      ops := meets_of_forall (fun _ _ _ => trivial) _
  have hkeeps := keeps_of_meets
    (fun config op hinv _ =>
      Bintree.mapStep_spec hgrant hlawful config op hinv) hinit hmeets
  obtain ⟨tree, hrun, htranscript⟩ := run_of_keeps hkeeps
  have hinv : Bintree.MapInv calls tree := by
    refine inv_of_run (fun config op after hinv _ hafter => ?_) hinit hmeets
      hrun
    obtain ⟨reached, hreached, _, hnext⟩ :=
      Bintree.mapStep_spec hgrant hlawful config op hinv
    exact Config.step_unique hreached hafter ▸ hnext
  rcases hinv with ⟨t, htree, _⟩
  exact ⟨tree, t, hrun, htranscript, htree⟩

theorem hash_replies (hgrant : E.GrantsAll) {hashCalls : Hash.Callbacks}
    (hlawful : hashCalls.Lawful) {ops : List (MapOp Ptr Ptr)}
    (items : Addr → Option Hash.AHashItem) (ledger : Hash.Ledger)
    (world : World) (hput : Allowed Hash.PutFirst [] ops) :
    ∃ table, run (Hash.hashStep E) (Config.initial
        ⟨Hash.aHashInit hashCalls, items, ledger, world⟩) ops = .ok table ∧
      table.transcript = replies hashCalls.Same aErrorSuccess 0 [] ops := by
  have hmeets : Meets (Hash.hashStep E)
      (fun config op => Hash.PutFirst config.history op)
      (Config.initial ⟨Hash.aHashInit hashCalls, items, ledger, world⟩)
      ops := by
    apply meets_of_allowed
    exact hput
  exact run_of_keeps (keeps_of_meets (Hash.mapStep_spec hgrant hlawful)
    (Hash.mapInv_init hashCalls items ledger world) hmeets)

end Runs

/-- Over every run which puts before it looks, a tree and a table with strings
as their keys give the replies of one finite map from strings, and the keys of
the tree lie in the order of their bytes, from the last to the first. -/
theorem string_dictionaries_agree {E : Env} (hgrant : E.GrantsAll)
    (h : StringCalls mem text keyCmp equalFunc hashFunc)
    (treeValFree tableValFree : Bool)
    (nodes : Addr → Option Bintree.ABintreeNode)
    (items : Addr → Option Hash.AHashItem) (ledger : Bintree.Ledger)
    (ledger' : Hash.Ledger) (world world' : World) (ops : List (MapOp Ptr Ptr))
    (hput : Allowed Hash.PutFirst [] ops) :
    ∃ tree table t,
      run (Bintree.bintreeStep E) (Config.initial
        ⟨Bintree.aBintreeInit ⟨keyCmp, false, treeValFree⟩, nodes, ledger,
          world⟩) ops = .ok tree ∧
      run (Hash.hashStep E) (Config.initial
        ⟨Hash.aHashInit ⟨hashFunc, equalFunc, false, tableValFree⟩, items,
          ledger', world'⟩) ops = .ok table ∧
      tree.transcript =
        replies (SameText text) aErrorSuccess 0 [] ops ∧
      table.transcript = tree.transcript ∧
      Bintree.HoldsTree ⟨keyCmp, false, treeValFree⟩ tree.state t ∧
      (inorder t).Pairwise fun e other =>
        (text other.key).reading < (text e.key).reading := by
  obtain ⟨tree, t, hrun, htree, hinv⟩ := bintree_replies hgrant
    ⟨keyCmp, false, treeValFree⟩ h.lawfulCmp nodes ledger world ops
  obtain ⟨table, hrun', htable⟩ := hash_replies hgrant
    (h.lawful false tableValFree) items ledger' world' hput
  rw [replies_congr (h.bintree_same false treeValFree)] at htree
  rw [replies_congr (h.hash_same false tableValFree)] at htable
  refine ⟨tree, table, t, hrun, hrun', htree, htable.trans htree.symm,
    hinv.toHoldsTree, ?_⟩
  refine List.Pairwise.imp (fun {e other} horder => ?_) hinv.descending
  have hpos : 0 < keyCmp e.key other.key := horder
  rwa [h.keyCmp_eq, CString.order_pos_iff] at hpos

/-- Memory in which odd pointers point to one string and even ones to
another. -/
def twoTexts (p : Ptr) : CString :=
  if p.getLsbD 0 then ⟨[0x6B#8, 0x31#8], by decide⟩
  else ⟨[0x6B#8], by decide⟩

theorem twoTexts_calls :
    StringCalls (fun p => (twoTexts p).stored) twoTexts
      (fun a b => (twoTexts a).order (twoTexts b))
      (fun a b => decide ((twoTexts a).order (twoTexts b) = 0))
      (fun p => BitVec.ofNat 32 (twoTexts p).length) where
  holds := fun p => holds_stored (twoTexts p)
  cmp_str := fun a b =>
    strcmp_holds (holds_stored (twoTexts a)) (holds_stored (twoTexts b))
  eq_str := by
    intro a b
    rw [aCollectEqStr,
      strcmp_holds (holds_stored (twoTexts a)) (holds_stored (twoTexts b))]
    rfl
  hash_text := fun _ _ h => congrArg (BitVec.ofNat 32 ∘ CString.length) h

/-- A key is found again through another pointer. -/
theorem string_dictionaries_agree_aliased :
    ∃ tree table t,
      run (Bintree.bintreeStep (filledEnv 0#64)) (Config.initial
        ⟨Bintree.aBintreeInit
          ⟨fun a b => (twoTexts a).order (twoTexts b), false, true⟩,
          fun _ => none, ⟨[], [], [], []⟩, ⟨0, 0, .null, [], false⟩⟩)
        [.put 1 10, .put 2 20, .get 3, .put 3 30, .remove 4, .get 2] =
          .ok tree ∧
      run (Hash.hashStep (filledEnv 0#64)) (Config.initial
        ⟨Hash.aHashInit
          ⟨fun p => BitVec.ofNat 32 (twoTexts p).length,
            fun a b => decide ((twoTexts a).order (twoTexts b) = 0), false,
            true⟩,
          fun _ => none, ⟨[], [], [], []⟩, ⟨0, 0, .null, [], false⟩⟩)
        [.put 1 10, .put 2 20, .get 3, .put 3 30, .remove 4, .get 2] =
          .ok table ∧
      tree.transcript =
        [(.put 1 10, .code aErrorSuccess), (.put 2 20, .code aErrorSuccess),
          (.get 3, .value 10), (.put 3 30, .code aErrorSuccess),
          (.remove 4, .value 20), (.get 2, .value 0)] ∧
      table.transcript = tree.transcript ∧
      Bintree.HoldsTree
        ⟨fun a b => (twoTexts a).order (twoTexts b), false, true⟩
        tree.state t ∧
      (SearchTree.inorder t).Pairwise fun e other =>
        (twoTexts other.key).reading < (twoTexts e.key).reading :=
  string_dictionaries_agree (fun _ _ => rfl) twoTexts_calls true true
    (fun _ => none) (fun _ => none) ⟨[], [], [], []⟩ ⟨[], [], [], []⟩
    ⟨0, 0, .null, [], false⟩ ⟨0, 0, .null, [], false⟩
    [.put 1 10, .put 2 20, .get 3, .put 3 30, .remove 4, .get 2] (by decide)

end StringKeys
end Alib
