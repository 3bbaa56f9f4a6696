import Alib.HashRuns

/-!
# The hash table as a finite map

With an `equal_func` that is an equivalence and a `hash_func` that agrees with
it, and an allocator that grants every request, the entries of a table
represent the map that the calls should have built, through every growth and
rehash.
-/

namespace Alib
namespace Hash

open Execution KeyedMap

variable {E : Env} {calls : Callbacks} {st : HashState}
  {entries : Multiset Entry} {m : Ptr → Option Ptr}

def Callbacks.Same (calls : Callbacks) (a b : Ptr) : Prop :=
  calls.equalFunc a b = true

instance (calls : Callbacks) : DecidableRel calls.Same := fun _ _ =>
  inferInstanceAs (Decidable (_ = true))

/-- Equality of keys is an equivalence, and equal keys have equal hashes. -/
structure Callbacks.Lawful (calls : Callbacks) : Prop where
  equiv : Equivalence calls.Same
  hash_eq : ∀ a b, calls.Same a b → calls.hashFunc a = calls.hashFunc b

theorem Callbacks.Lawful.symm (hlawful : calls.Lawful) :
    ∀ a b, calls.equalFunc a b = true → calls.equalFunc b a = true :=
  fun _ _ => hlawful.equiv.symm

theorem matching_iff (hlawful : calls.Lawful) (h : HashInv calls st entries)
    {e : Entry} (he : e ∈ entries) {hash : BitVec 32} {key : Ptr}
    (hhash : hash = calls.hashFunc key) :
    matching calls.equalFunc hash key e = true ↔ calls.Same e.key key := by
  rw [matching, Bool.and_eq_true, decide_eq_true_eq, h.hashed e he, hhash]
  constructor
  · rintro ⟨_, hequal⟩
    exact hequal
  · intro hsame
    exact ⟨hlawful.hash_eq _ _ hsame, hsame⟩

theorem finds_iff (hlawful : calls.Lawful) (h : HashInv calls st entries)
    {e : Entry} (he : e ∈ entries) (key : Ptr) :
    calls.finds key e = true ↔ calls.Same e.key key :=
  matching_iff hlawful h he rfl

theorem HashInv.keysApart (hlawful : calls.Lawful)
    (h : HashInv calls st entries) : KeysApart calls.Same Entry.key entries := by
  intro e he other hother hsame
  have hmem := Multiset.mem_of_mem_erase hother
  have hunequal := h.apart.unequal other hmem e he (h.apart.addr_ne he hother)
  rw [(matching_iff hlawful h hmem (h.hashed e he)).mpr hsame] at hunequal
  cases hunequal

theorem not_same_of_finds_false (hlawful : calls.Lawful)
    (h : HashInv calls st entries) {key : Ptr}
    (hnone : ∀ e ∈ entries, calls.finds key e = false) :
    ∀ e ∈ entries, ¬ calls.Same e.key key := by
  intro e he hsame
  have hfinds := (finds_iff hlawful h he key).mpr hsame
  rw [hnone e he] at hfinds
  cases hfinds

section Outcomes

variable {op : HashOp} {out : HashOut} {after : HashState}

def HasEffect (calls : Callbacks) (entries : Multiset Entry) (op : HashOp)
    (out : HashOut) (after : HashState) : Prop :=
  ∃ entries', HashInv calls after entries' ∧
    Effect calls.Same Entry.key Entry.val aErrorSuccess 0 entries op out
      entries'

theorem PutOutcome.effect (hlawful : calls.Lawful)
    (h : HashInv calls st entries) (hgrant : E.GrantsAll) {key val : Ptr}
    {code : ErrorCode}
    (houtcome : PutOutcome E calls st entries key val code after) :
    HasEffect calls entries (.put key val) (.code code) after := by
  cases houtcome with
  | added a after hnone hinv _ _ _ =>
      have hfresh := not_same_of_finds_false hlawful h hnone
      exact ⟨_, hinv,
        .added (⟨a, calls.hashFunc key, key, val⟩ : Entry) hfresh⟩
  | replaced e after hmem hfinds hinv _ _ _ =>
      have hsame := (finds_iff hlawful h hmem key).mp hfinds
      exact ⟨_, hinv,
        .replaced e { e with val := val } key hmem hsame hsame⟩
  | failed after _ hdenied => exact absurd hgrant hdenied

theorem LooksUp.effect (hlawful : calls.Lawful)
    (h : HashInv calls st entries) {key val : Ptr}
    (hlooksUp : LooksUp calls entries key val) :
    Effect calls.Same Entry.key Entry.val aErrorSuccess 0 entries (.get key)
      (.value val) entries := by
  rcases hlooksUp with ⟨e, he, hfinds, rfl⟩ | ⟨hnone, rfl⟩
  · exact .got e key he ((finds_iff hlawful h he key).mp hfinds)
  · exact .missed key (not_same_of_finds_false hlawful h hnone)

theorem RemoveOutcome.effect_remove (hlawful : calls.Lawful)
    (h : HashInv calls st entries) {key val : Ptr}
    (houtcome : RemoveOutcome calls st entries key val after) :
    HasEffect calls entries (.remove key) (.value val) after := by
  cases houtcome with
  | removed e after hmem hfinds hinv _ _ _ _ =>
      have hsame := (finds_iff hlawful h hmem key).mp hfinds
      exact ⟨_, hinv, .removed e key hmem hsame⟩
  | absent hnone =>
      have hnot := not_same_of_finds_false hlawful h hnone
      exact ⟨entries, h, .notRemoved key hnot⟩

theorem RemoveOutcome.effect_delete (hlawful : calls.Lawful)
    (h : HashInv calls st entries) {key val : Ptr}
    (houtcome : RemoveOutcome calls st entries key val after) :
    HasEffect calls entries (.delete key) .unit (withFreedVal val after) := by
  cases houtcome with
  | removed e after hmem hfinds hinv _ _ _ _ =>
      have hsame := (finds_iff hlawful h hmem key).mp hfinds
      exact ⟨_, hinv.withFreedVal e.val, .deleted e key hmem hsame⟩
  | absent hnone =>
      have hnot := not_same_of_finds_false hlawful h hnone
      exact ⟨entries, h.withFreedVal 0, .notDeleted key hnot⟩

theorem CallOutcome.effect (hlawful : calls.Lawful)
    (h : HashInv calls st entries) (hgrant : E.GrantsAll)
    (houtcome : CallOutcome E calls st entries op out after) :
    HasEffect calls entries op out after := by
  cases houtcome with
  | put key val code after houtcome => exact houtcome.effect hlawful h hgrant
  | get key val hlooksUp => exact ⟨entries, h, hlooksUp.effect hlawful h⟩
  | remove key val after houtcome => exact houtcome.effect_remove hlawful h
  | delete key val removed houtcome => exact houtcome.effect_delete hlawful h
  | clear after hcleaned => exact ⟨0, hcleaned.inv, .cleared⟩

theorem CallOutcome.allocated_of_puts (hgrant : E.GrantsAll)
    (houtcome : CallOutcome E calls st entries op out after)
    {past : List HashOp}
    (hallocated : 0 < recentPuts past → st.hash.table ≠ none)
    (hpos : 0 < recentPuts (past ++ [op])) : after.hash.table ≠ none := by
  rw [recentPuts_append] at hpos
  cases houtcome with
  | put key val code after houtcome =>
      cases houtcome with
      | added a after _ _ hallocatedAfter _ _ => exact hallocatedAfter
      | replaced e after _ _ _ hallocatedAfter _ _ => exact hallocatedAfter
      | failed after _ hdenied => exact absurd hgrant hdenied
  | get key val _ => exact hallocated hpos
  | remove key val after houtcome =>
      exact houtcome.allocated (hallocated hpos)
  | delete key val removed houtcome =>
      exact houtcome.allocated (hallocated hpos)
  | clear after _ => exact absurd hpos (Nat.lt_irrefl 0)

end Outcomes

theorem aHashGet_eq (hlawful : calls.Lawful) (h : HashInv calls st entries)
    (hrep : Represents calls.Same Entry.key Entry.val m entries)
    (hallocated : st.hash.table ≠ none) (key : Ptr) :
    aHashGet key st = .ok ((m key).getD 0) := by
  obtain ⟨val, hget, hlooksUp⟩ := aHashGet_spec h.linked hallocated key
  have hout := (Effect.represents hlawful.equiv (h.keysApart hlawful) hrep
    (hlooksUp.effect hlawful h)).1
  cases hout
  exact hget

/-- Fewer than `2 ^ 30` puts since the last clean, and at least one of them
before a call which looks for a key. -/
def PutFirst (past : List HashOp) (op : HashOp) : Prop :=
  FewPuts past op ∧ (op.looksUp = true → 0 < recentPuts past)

instance (past : List HashOp) (op : HashOp) :
    Decidable (PutFirst past op) :=
  inferInstanceAs (Decidable (_ ∧ _))

structure MapInv (calls : Callbacks) (config : HashConfig) : Prop where
  represents : ∃ entries, HashInv calls config.state entries ∧
    Represents calls.Same Entry.key Entry.val
      (mapAfter calls.Same config.history) entries
  count_le : config.state.hash.count ≤ recentPuts config.history
  allocated : 0 < recentPuts config.history → config.state.hash.table ≠ none

theorem mapInv_init (calls : Callbacks) (items : Addr → Option AHashItem)
    (ledger : Ledger) (world : World) :
    MapInv calls
      (Config.initial ⟨aHashInit calls, items, ledger, world⟩) where
  represents := ⟨0, HashInv.init calls items ledger world, represents_zero⟩
  count_le := Nat.zero_le _
  allocated := fun h => absurd h (Nat.lt_irrefl 0)

theorem mapStep_spec (hgrant : E.GrantsAll) (hlawful : calls.Lawful)
    (config : HashConfig) (op : HashOp) (hinv : MapInv calls config)
    (hput : PutFirst config.history op) :
    ∃ after, config.step (hashStep E) op = .ok after ∧
      MapStep calls.Same aErrorSuccess 0 aHashGet config op after ∧
      MapInv calls after := by
  rcases hinv.represents with ⟨entries, h, hrep⟩
  have hruns := runs_of_fewPuts hinv.count_le hput.1
    (fun hlooks => hinv.allocated (hput.2 hlooks))
  obtain ⟨out, state, hcall, houtcome⟩ :=
    hashStep_spec (E := E) hlawful.symm h op hruns
  obtain ⟨entries', hinv', heffect⟩ := houtcome.effect hlawful h hgrant
  obtain ⟨hout, hrep'⟩ :=
    heffect.represents hlawful.equiv (h.keysApart hlawful) hrep
  have hstep := Config.step_of_ok hcall
  have hhistory := Config.history_step hstep
  refine ⟨_, hstep, ⟨?_, ?_⟩, ?_⟩
  · rw [hout]
  · intro key hkey other hne val hget
    have hclear : op ≠ .clear := by
      intro heq
      subst heq
      cases hkey
    have hallocated := aHashGet_allocated hget
    rw [aHashGet_eq hlawful h hrep hallocated] at hget
    rw [← hget, aHashGet_eq hlawful hinv' hrep'
      (houtcome.allocated hclear hallocated),
      mapStep_other calls.Same hkey hne]
  · constructor
    · rw [hhistory, mapAfter_append]
      exact ⟨entries', hinv', hrep'⟩
    · rw [hhistory]
      exact houtcome.count_le hinv.count_le
    · intro hpos
      rw [hhistory] at hpos
      exact houtcome.allocated_of_puts hgrant hinv.allocated hpos

/-- Over every run, a hash table is the finite map of its calls. -/
theorem aHash_finiteMap (hgrant : E.GrantsAll) (hlawful : calls.Lawful)
    (items : Addr → Option AHashItem) (ledger : Ledger) (world : World)
    (ops : List HashOp)
    (hput : Meets (hashStep E)
      (fun config op => PutFirst config.history op)
      (Config.initial ⟨aHashInit calls, items, ledger, world⟩) ops) :
    Keeps (hashStep E) (MapStep calls.Same aErrorSuccess 0 aHashGet)
      (Config.initial ⟨aHashInit calls, items, ledger, world⟩) ops :=
  keeps_of_meets (mapStep_spec hgrant hlawful)
    (mapInv_init calls items ledger world) hput

/-- Keys compared and hashed as words, with both destructors. -/
def wordCalls : Callbacks := ⟨aHashPtrval, fun a b => decide (a = b), true, true⟩

theorem wordCalls_lawful : wordCalls.Lawful where
  equiv := by
    constructor
    · intro a
      exact decide_eq_true rfl
    · intro a b h
      exact decide_eq_true (of_decide_eq_true h).symm
    · intro a b c h h'
      exact decide_eq_true
        ((of_decide_eq_true h).trans (of_decide_eq_true h'))
  hash_eq := by
    intro a b h
    rw [of_decide_eq_true h]

def blankLedger : Ledger := ⟨[], [], [], []⟩

def blankWorld : World := ⟨0, 0, .null, [], false⟩

theorem aHash_finiteMap_run :
    Keeps (hashStep (filledEnv 0))
      (MapStep wordCalls.Same aErrorSuccess 0 aHashGet)
      (Config.initial
        ⟨aHashInit wordCalls, fun _ => none, blankLedger, blankWorld⟩)
      [.put 1 10, .put 2 20, .put 1 11, .get 1, .remove 2, .get 2] :=
  aHash_finiteMap (fun _ _ => rfl) wordCalls_lawful (fun _ => none)
    blankLedger blankWorld _ (meets_of_allowed (by decide))

end Hash
end Alib
