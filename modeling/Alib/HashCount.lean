import Alib.HashMap

/-!
# What the counter of a hash table counts

`a_hash_put` counts every put, also one that replaces a value, and no call
takes a removed entry off the count.  So the counter is the number of stored
keys exactly along the runs which never put a stored key again and never
remove one.
-/

namespace Alib
namespace Hash

open Execution KeyedMap

variable {E : Env} {calls : Callbacks} {st : HashState}
  {entries : Multiset Entry} {m : Ptr → Option Ptr}

/-- The counter is the number of distinct keys stored, and the table has at
most two chains for each key of any non-empty set that all keys put so far
come from. -/
structure CountsKeys (calls : Callbacks) (_ : HashConfig) (_ : HashOp)
    (after : HashConfig) : Prop where
  count_keys : HasKeys calls.Same (mapAfter calls.Same after.history)
    after.state.hash.count
  chains_le : ∀ keys : List Ptr, keys ≠ [] →
    (∀ key val, MapOp.put key val ∈ after.history →
      ∃ other ∈ keys, calls.Same other key) →
    ∀ table, after.state.hash.table = some table →
      table.slots.length ≤ 2 * keys.length

/-- No stored key is put again or removed, and the counter stays below
`2 ^ 30` before a put. -/
def NewKeysOnly (calls : Callbacks) (config : HashConfig) (op : HashOp) :
    Prop :=
  (∀ key ∈ op.changedKey?, mapAfter calls.Same config.history key = none) ∧
    ∀ key val, op = .put key val → config.state.hash.count < 2 ^ 30

/-- The calls which look for a key have a table to look in. -/
def HasTable (config : HashConfig) (op : HashOp) : Prop :=
  op.looksUp = true → config.state.hash.table ≠ none

structure CountInv (calls : Callbacks) (config : HashConfig) : Prop where
  represents : ∃ entries, HashInv calls config.state entries ∧
    Represents calls.Same Entry.key Entry.val
      (mapAfter calls.Same config.history) entries ∧
    config.state.hash.count = entries.card

theorem countInv_init (calls : Callbacks) (items : Addr → Option AHashItem)
    (ledger : Ledger) (world : World) :
    CountInv calls
      (Config.initial ⟨aHashInit calls, items, ledger, world⟩) :=
  ⟨0, HashInv.init calls items ledger world, represents_zero, rfl⟩

theorem card_le_of_cover (hlawful : calls.Lawful) {past : List HashOp}
    (h : HashInv calls st entries)
    (hrep : Represents calls.Same Entry.key Entry.val
      (mapAfter calls.Same past) entries) {keys : List Ptr}
    (hcover : ∀ key val, MapOp.put key val ∈ past →
      ∃ other ∈ keys, calls.Same other key) : entries.card ≤ keys.length := by
  obtain ⟨stored, hstored, hlength⟩ :=
    (hrep.hasKeys_iff hlawful.equiv (h.keysApart hlawful)).mpr rfl
  rw [← hlength]
  apply length_le_of_cover hlawful.equiv hstored.apart
  intro key hkey
  have hsome := (hstored.stored key).mpr ⟨key, hkey, hlawful.equiv.refl key⟩
  obtain ⟨val, hval⟩ := Option.isSome_iff_exists.mp hsome
  obtain ⟨put, _, hput, hsame⟩ := exists_put_of_mapAfter hval
  obtain ⟨other, hother, hcovers⟩ := hcover put _ hput
  exact ⟨other, hother, hlawful.equiv.trans hcovers hsame⟩

theorem countsKeys_iff (hlawful : calls.Lawful) {config : HashConfig}
    {op : HashOp} {after : HashConfig}
    (h : HashInv calls after.state entries)
    (hrep : Represents calls.Same Entry.key Entry.val
      (mapAfter calls.Same after.history) entries) :
    CountsKeys calls config op after ↔
      after.state.hash.count = entries.card := by
  have hkeys : HasKeys calls.Same (mapAfter calls.Same after.history)
      after.state.hash.count ↔ after.state.hash.count = entries.card :=
    hrep.hasKeys_iff hlawful.equiv (h.keysApart hlawful)
  constructor
  · intro hcounts
    exact hkeys.mp hcounts.count_keys
  · intro hcount
    refine ⟨hkeys.mpr hcount, ?_⟩
    intro keys hne hcover table htable
    obtain ⟨chains, hholds, _⟩ := h.holds table htable
    have hcard := card_le_of_cover hlawful h hrep hcover
    have hpos : 1 ≤ keys.length := List.length_pos_iff.mpr hne
    rw [hholds.size]
    by_cases hzero : after.state.hash.count = 0
    · rw [h.bits_of_zero hzero, pow_zero]
      omega
    · have hsize := h.size_le (Nat.one_le_iff_ne_zero.mpr hzero)
      omega

/-- A call below the size limit, and when it keeps the counter right. -/
theorem countOutcome (hgrant : E.GrantsAll) (hlawful : calls.Lawful)
    {config : HashConfig} {op : HashOp} (hinv : CountInv calls config)
    (htable : HasTable config op)
    (hlt : ∀ key val, op = .put key val →
      config.state.hash.count < 2 ^ 30) :
    ∃ out state entries', hashStep E config.state op = .ok (out, state) ∧
      HashInv calls state entries' ∧
      Represents calls.Same Entry.key Entry.val
        (mapAfter calls.Same (config.history ++ [op])) entries' ∧
      (state.hash.count = entries'.card ↔
        ∀ key ∈ op.changedKey?,
          mapAfter calls.Same config.history key = none) := by
  rcases hinv.represents with ⟨entries, h, hrep, hcount⟩
  have hruns : Runs config.state op := by
    cases op with
    | put key val => exact hlt key val rfl
    | get key => exact htable rfl
    | remove key => exact htable rfl
    | delete key => exact htable rfl
    | clear => trivial
  obtain ⟨out, state, hcall, houtcome⟩ :=
    hashStep_spec (E := E) hlawful.symm h op hruns
  obtain ⟨entries', hinv', heffect⟩ := houtcome.effect hlawful h hgrant
  obtain ⟨_, hrep'⟩ :=
    heffect.represents hlawful.equiv (h.keysApart hlawful) hrep
  have hiff := heffect.count_iff hrep hcount
  rw [← houtcome.count_eq hgrant] at hiff
  rw [← mapAfter_append] at hrep'
  exact ⟨out, state, entries', hcall, hinv', hrep', hiff⟩

theorem countsKeys_step (hgrant : E.GrantsAll) (hlawful : calls.Lawful)
    (config : HashConfig) (op : HashOp) (hinv : CountInv calls config)
    (htable : HasTable config op) :
    NewKeysOnly calls config op ↔
      ∃ after, config.step (hashStep E) op = .ok after ∧
        CountsKeys calls config op after := by
  constructor
  · rintro ⟨hnew, hlt⟩
    obtain ⟨out, state, entries', hcall, hinv', hrep', hiff⟩ :=
      countOutcome hgrant hlawful hinv htable hlt
    have hstep := Config.step_of_ok hcall
    rw [← Config.history_step hstep] at hrep'
    exact ⟨_, hstep, (countsKeys_iff hlawful hinv' hrep').mpr (hiff.mpr hnew)⟩
  · rintro ⟨after, hstep, hcounts⟩
    have hlt : ∀ key val, op = .put key val →
        config.state.hash.count < 2 ^ 30 := by
      rintro key val rfl
      by_contra hle
      rcases hinv.represents with ⟨entries, h, _⟩
      obtain ⟨out, hcall, _⟩ := Config.step_eq_ok_iff.mp hstep
      rw [hashStep, put_overflow h.linked (Nat.le_of_not_lt hle)] at hcall
      cases hcall
    obtain ⟨out, state, entries', hcall, hinv', hrep', hiff⟩ :=
      countOutcome hgrant hlawful hinv htable hlt
    rw [Config.step_of_ok hcall] at hstep
    cases hstep
    rw [← Config.history_step (Config.step_of_ok hcall)] at hrep'
    exact ⟨hiff.mp ((countsKeys_iff hlawful hinv' hrep').mp hcounts), hlt⟩

theorem countInv_step (hgrant : E.GrantsAll) (hlawful : calls.Lawful)
    (config : HashConfig) (op : HashOp) (after : HashConfig)
    (hinv : CountInv calls config) (htable : HasTable config op)
    (hnew : NewKeysOnly calls config op)
    (hstep : config.step (hashStep E) op = .ok after) :
    CountInv calls after := by
  obtain ⟨out, state, entries', hcall, hinv', hrep', hiff⟩ :=
    countOutcome hgrant hlawful hinv htable hnew.2
  rw [Config.step_of_ok hcall] at hstep
  cases hstep
  rw [← Config.history_step (Config.step_of_ok hcall)] at hrep'
  exact ⟨⟨entries', hinv', hrep', hiff.mpr hnew.1⟩⟩

/-- Over every run, the counter is the number of stored keys if and only if no
stored key is ever put again or removed, and no put happens at `2 ^ 30`. -/
theorem aHash_count_iff (hgrant : E.GrantsAll) (hlawful : calls.Lawful)
    (items : Addr → Option AHashItem) (ledger : Ledger) (world : World)
    (ops : List HashOp)
    (htable : Meets (hashStep E) HasTable
      (Config.initial ⟨aHashInit calls, items, ledger, world⟩) ops) :
    Keeps (hashStep E) (CountsKeys calls)
        (Config.initial ⟨aHashInit calls, items, ledger, world⟩) ops ↔
      Meets (hashStep E) (NewKeysOnly calls)
        (Config.initial ⟨aHashInit calls, items, ledger, world⟩) ops :=
  keeps_iff_meets (countsKeys_step hgrant hlawful)
    (countInv_step hgrant hlawful)
    (countInv_init calls items ledger world) htable

def emptyConfig : HashConfig :=
  Config.initial ⟨aHashInit wordCalls, fun _ => none, blankLedger, blankWorld⟩

theorem aHash_count_run :
    Keeps (hashStep (filledEnv 0)) (CountsKeys wordCalls) emptyConfig
      [.put 1 10, .put 2 20, .get 1] := by
  refine (aHash_count_iff (fun _ _ => rfl) wordCalls_lawful (fun _ => none)
    blankLedger blankWorld _ ?_).mpr ?_
  · refine ⟨Bool.noConfusion, fun first hfirst => ?_⟩
    cases hfirst
    refine ⟨Bool.noConfusion, fun second hsecond => ?_⟩
    cases hsecond
    exact ⟨fun _ => Option.some_ne_none _, fun _ _ => trivial⟩
  · refine ⟨⟨?_, fun _ _ _ => by decide⟩, fun first hfirst => ?_⟩
    · intro key hkey
      cases hkey
      decide
    cases hfirst
    refine ⟨⟨?_, fun _ _ _ => by decide⟩, fun second hsecond => ?_⟩
    · intro key hkey
      cases hkey
      decide
    exact ⟨⟨nofun, nofun⟩, fun _ _ => trivial⟩

/-- Putting one key twice counts two. -/
theorem aHash_count_fails :
    ¬ Keeps (hashStep (filledEnv 0)) (CountsKeys wordCalls) emptyConfig
      [.put 1 10, .put 1 11] := by
  rintro ⟨first, hfirst, _, second, hsecond, ⟨hkeys, _⟩, _⟩
  cases hfirst
  cases hsecond
  rcases hkeys with ⟨keys, hlist, hlength⟩
  have hcover : ∀ key ∈ keys, ∃ other ∈ [(1 : Ptr)],
      wordCalls.Same other key := by
    intro key hkey
    have hsome := (hlist.stored key).mpr
      ⟨key, hkey, wordCalls_lawful.equiv.refl key⟩
    obtain ⟨val, hval⟩ := Option.isSome_iff_exists.mp hsome
    obtain ⟨put, v, hput, hsame⟩ := exists_put_of_mapAfter hval
    have hmem : MapOp.put put v ∈ [MapOp.put (1 : Ptr) 10, .put 1 11] := hput
    have hone : put = 1 := by
      simp only [List.mem_cons, MapOp.put.injEq, List.not_mem_nil,
        or_false] at hmem
      rcases hmem with ⟨hkey, _⟩ | ⟨hkey, _⟩ <;> exact hkey
    exact ⟨1, by simp, hone ▸ hsame⟩
  have hle := length_le_of_cover wordCalls_lawful.equiv hlist.apart hcover
  have hcount : keys.length = 2 := hlength
  rw [hcount] at hle
  exact absurd hle (by decide)

end Hash
end Alib
