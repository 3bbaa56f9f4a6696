import Alib.BintreeCalls

/-!
# The binary tree as a finite map

With a `key_cmp` whose signs form a total preorder and an allocator that
grants every request, the entries of a tree represent the map that the calls
should have built, whatever the shape of the tree.
-/

namespace Alib
namespace Bintree

open Execution KeyedMap SearchTree

variable {E : Env} {calls : Callbacks} {st : BintreeState} {t : Tree}
  {m : Ptr → Option Ptr}

abbrev BintreeConfig := Config BintreeState BintreeOp BintreeOut

/-- The entries of the tree represent the map. -/
def Maps (calls : Callbacks) (m : Ptr → Option Ptr) (t : Tree) : Prop :=
  Represents calls.Same Entry.key Entry.val m (contents t)

theorem same_equivalence (hlawful : LawfulCmp calls.keyCmp) :
    Equivalence calls.Same :=
  hlawful.equivalence

theorem find_elim (hlawful : LawfulCmp calls.keyCmp)
    (h : BintreeInv calls st t) (hmaps : Maps calls m t) (key : Ptr) :
    (calls.find key t).elim 0 Entry.val = (m key).getD 0 := by
  cases hfind : calls.find key t with
  | none =>
      rw [hmaps.eq_none (not_same_of_find_none hlawful h hfind)]
      rfl
  | some e =>
      obtain ⟨hmem, hsame⟩ := mem_of_find_some hfind
      rw [hmaps.eq_some hmem hsame]
      rfl

theorem aBintreeGet_eq (hlawful : LawfulCmp calls.keyCmp)
    (h : BintreeInv calls st t) (hmaps : Maps calls m t) (key : Ptr) :
    aBintreeGet key st = .ok ((m key).getD 0) := by
  rw [aBintreeGet_spec h.toHoldsTree key, find_elim hlawful h hmaps key]

section Effects

def HasEffect (calls : Callbacks) (t : Tree) (op : BintreeOp)
    (out : BintreeOut) (after : BintreeState) : Prop :=
  ∃ t', BintreeInv calls after t' ∧
    Effect calls.Same Entry.key Entry.val aErrorSuccess 0 (contents t) op out
      (contents t')

variable {after : BintreeState} {op : BintreeOp} {out : BintreeOut}
  {key val : Ptr}

theorem PutOutcome.effect (hlawful : LawfulCmp calls.keyCmp)
    (hgrant : E.GrantsAll) {code : ErrorCode}
    (houtcome : PutOutcome E calls st t key val code after) :
    HasEffect calls t (.put key val) (.code code) after := by
  cases houtcome with
  | added t' after hnone hinv hcontents _ _ =>
      refine ⟨t', hinv, ?_⟩
      rw [hcontents]
      exact .added (⟨st.world.requests, key, val⟩ : Entry) hnone
  | overwritten e t' after hmem hsame hinv hcontents _ _ =>
      refine ⟨t', hinv, ?_⟩
      rw [hcontents]
      exact .replaced e (⟨e.addr, key, val⟩ : Entry) key hmem hsame
        ((same_equivalence hlawful).refl key)
  | failed after _ _ _ hdenied => exact absurd hgrant hdenied

theorem RemoveOutcome.effect_remove (h : BintreeInv calls st t)
    (houtcome : RemoveOutcome calls st t key val after) :
    HasEffect calls t (.remove key) (.value val) after := by
  cases houtcome with
  | removed e t' after hmem hsame hinv hcontents _ _ =>
      refine ⟨t', hinv, ?_⟩
      rw [hcontents]
      exact .removed e key hmem hsame
  | absent hnone => exact ⟨t, h, .notRemoved key hnone⟩

theorem RemoveOutcome.effect_delete (h : BintreeInv calls st t)
    (houtcome : RemoveOutcome calls st t key val after) :
    HasEffect calls t (.delete key) .unit (freeRemoved val after) := by
  cases houtcome with
  | removed e t' after hmem hsame hinv hcontents _ _ =>
      refine ⟨t', hinv.freeRemoved e.val, ?_⟩
      rw [hcontents]
      exact .deleted e key hmem hsame
  | absent hnone =>
      exact ⟨t, h.freeRemoved 0, .notDeleted key hnone⟩

theorem CallOutcome.effect (hlawful : LawfulCmp calls.keyCmp)
    (hgrant : E.GrantsAll) (h : BintreeInv calls st t)
    (houtcome : CallOutcome E calls st t op out after) :
    HasEffect calls t op out after := by
  cases houtcome with
  | put key val code after houtcome => exact houtcome.effect hlawful hgrant
  | get key =>
      refine ⟨t, h, ?_⟩
      cases hfind : calls.find key t with
      | none => exact .missed key (not_same_of_find_none hlawful h hfind)
      | some e =>
          obtain ⟨hmem, hsame⟩ := mem_of_find_some hfind
          exact .got e key hmem hsame
  | remove key val after houtcome => exact houtcome.effect_remove h
  | delete key val removed houtcome => exact houtcome.effect_delete h
  | clear after haxed => exact ⟨.nil, haxed.inv, .cleared⟩

end Effects

def MapInv (calls : Callbacks) (config : BintreeConfig) : Prop :=
  ∃ t, BintreeInv calls config.state t ∧
    Maps calls (mapAfter calls.Same config.history) t

theorem mapInv_init (calls : Callbacks) (nodes : Addr → Option ABintreeNode)
    (ledger : Ledger) (world : World) :
    MapInv calls
      (Config.initial ⟨aBintreeInit calls, nodes, ledger, world⟩) :=
  ⟨.nil, BintreeInv.init calls nodes ledger world, represents_zero⟩

theorem mapStep_spec (hgrant : E.GrantsAll)
    (hlawful : LawfulCmp calls.keyCmp) (config : BintreeConfig)
    (op : BintreeOp) (hinv : MapInv calls config) :
    ∃ after, config.step (bintreeStep E) op = .ok after ∧
      MapStep calls.Same aErrorSuccess 0 aBintreeGet config op after ∧
      MapInv calls after := by
  rcases hinv with ⟨t, h, hmaps⟩
  obtain ⟨out, state, hcall, houtcome⟩ :=
    bintreeStep_spec (E := E) hlawful h op
  obtain ⟨t', h', heffect⟩ := houtcome.effect hlawful hgrant h
  obtain ⟨hout, hmaps'⟩ :=
    heffect.represents (same_equivalence hlawful) (h.keysApart hlawful) hmaps
  have hstep := Config.step_of_ok hcall
  refine ⟨_, hstep, ⟨?_, ?_⟩, t', h', ?_⟩
  · rw [hout]
  · intro key hkey other hne val hget
    rw [aBintreeGet_eq hlawful h hmaps] at hget
    rw [aBintreeGet_eq hlawful h' hmaps',
      mapStep_other calls.Same hkey hne]
    exact hget
  · rw [Config.history_step hstep, mapAfter_append]
    exact hmaps'

/-- Over every run, a binary tree is the finite map of its calls. -/
theorem aBintree_finiteMap (hgrant : E.GrantsAll)
    (hlawful : LawfulCmp calls.keyCmp)
    (nodes : Addr → Option ABintreeNode) (ledger : Ledger) (world : World)
    (ops : List BintreeOp) :
    Keeps (bintreeStep E) (MapStep calls.Same aErrorSuccess 0 aBintreeGet)
      (Config.initial ⟨aBintreeInit calls, nodes, ledger, world⟩) ops := by
  have hmeets : Meets (bintreeStep E) (fun _ _ => True)
      (Config.initial ⟨aBintreeInit calls, nodes, ledger, world⟩) ops :=
    meets_of_forall (fun _ _ _ => trivial) _
  exact keeps_of_meets
    (fun config op hinv _ => mapStep_spec hgrant hlawful config op hinv)
    (mapInv_init calls nodes ledger world) hmeets

/-- Keys compared by their distance as unsigned words. -/
def wordCalls : Callbacks where
  keyCmp := fun a b => (a.toNat : ℤ) - b.toNat
  keyFree := true
  valFree := true

theorem wordCalls_lawful : LawfulCmp wordCalls.keyCmp where
  antisymm := by
    intro a b
    simp only [wordCalls]
    omega
  trans := by
    intro a b c
    simp only [wordCalls]
    omega

/-- A node with two subtrees is removed. -/
theorem aBintree_finiteMap_run :
    Keeps (bintreeStep (filledEnv 0))
      (MapStep wordCalls.Same aErrorSuccess 0 aBintreeGet)
      (Config.initial ⟨aBintreeInit wordCalls, fun _ => none,
        ⟨[], [], [], []⟩, ⟨0, 0, .null, [], false⟩⟩)
      [.put 4 40, .put 2 20, .put 6 60, .put 5 50, .put 2 21, .remove 4,
        .get 5, .delete 6, .get 2, .clear, .get 5] :=
  aBintree_finiteMap (fun _ _ => rfl) wordCalls_lawful (fun _ => none)
    ⟨[], [], [], []⟩ ⟨0, 0, .null, [], false⟩ _

end Bintree
end Alib
