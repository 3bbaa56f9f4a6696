import Alib.HashMap
import Alib.Ownership

/-!
# Ownership in a hash table

Keys and values of successful puts are freed, handed back by `a_hash_remove`
or still in the table, each exactly once, after every call of every run and
whatever the allocator refuses; a final clean leaves none in the table.
-/

namespace Alib
namespace Hash

open Execution KeyedMap Ownership

variable {E : Env} {calls : Callbacks} {st : HashState}
  {entries : Multiset Entry}

/-- The terms of a table with these destructors. -/
def ownTerms (calls : Callbacks) : Terms Ptr Ptr ErrorCode where
  success := ErrorCode.isSuccess
  nullKey := 0
  nullVal := 0
  keyFree := calls.keyFree
  valFree := calls.valFree

/-- Everything handed to the table is freed, handed back or in the table. -/
def Owns (calls : Callbacks) (config : HashConfig)
    (entries : Multiset Entry) : Prop :=
  Settled (ownTerms calls) Entry.key Entry.val
    config.state.ledger.keyFreed config.state.ledger.valFreed
    config.transcript entries

/-- A put of a key and a value that are not `NULL` below the size limit, or a
call which looks for a key after some put succeeded. -/
def OwnedCall (config : HashConfig) : HashOp → Prop
  | .put key val => key ≠ 0 ∧ val ≠ 0 ∧ recentPuts config.history + 1 < 2 ^ 30
  | .clear => False
  | _ => ∃ key val code, (.put key val, .code code) ∈ config.transcript ∧
      code.isSuccess = true

structure OwnInv (calls : Callbacks) (config : HashConfig) : Prop where
  owns : ∃ entries, HashInv calls config.state entries ∧
    Owns calls config entries ∧ ∀ e ∈ entries, e.key ≠ 0 ∧ e.val ≠ 0
  count_le : config.state.hash.count ≤ recentPuts config.history
  allocated : ∀ key val code,
    (.put key val, .code code) ∈ config.transcript →
      code.isSuccess = true → config.state.hash.table ≠ none

section Outcomes

variable {after : HashState} {config : HashConfig}

theorem SameFrees.passed (calls : Callbacks) {before after : Ledger}
    (h : SameFrees before after) :
    Passed calls.keyFree 0 before.keyFreed after.keyFreed 0 ∧
      Passed calls.valFree 0 before.valFreed after.valFreed 0 := by
  rw [h.keyFreed_eq, h.valFreed_eq]
  exact ⟨passed_nothing, passed_nothing⟩

theorem freeItem_passed (calls : Callbacks) (ledger : Ledger) {key val : Ptr} (hkey : key ≠ 0)
    (hval : val ≠ 0) :
    Passed calls.keyFree 0 ledger.keyFreed
        (ledger.freeItem calls key val).keyFreed {key} ∧
      Passed calls.valFree 0 ledger.valFreed
        (ledger.freeItem calls key val).valFreed {val} :=
  ⟨passed_one (freeItem_keyFreed calls ledger key val) hkey,
    passed_one (freeItem_valFreed calls ledger key val) hval⟩

theorem freeItem_passed_blank (calls : Callbacks) (ledger : Ledger) {key : Ptr}
    (hkey : key ≠ 0) :
    Passed calls.keyFree 0 ledger.keyFreed
        (ledger.freeItem calls key 0).keyFreed {key} ∧
      Passed calls.valFree 0 ledger.valFreed
        (ledger.freeItem calls key 0).valFreed 0 :=
  ⟨passed_one (freeItem_keyFreed calls ledger key 0) hkey,
    passed_null (freeItem_valFreed calls ledger key 0)⟩

theorem PutOutcome.owns (howns : Owns calls config entries)
    (hnonnull : ∀ e ∈ entries, e.key ≠ 0 ∧ e.val ≠ 0) {key val : Ptr}
    (hkey : key ≠ 0) (hval : val ≠ 0) {code : ErrorCode}
    (houtcome :
      PutOutcome E calls config.state entries key val code after) :
    ∃ entries', HashInv calls after entries' ∧
      Owns calls ⟨after, config.transcript ++ [(.put key val, .code code)]⟩
        entries' ∧ ∀ e ∈ entries', e.key ≠ 0 ∧ e.val ≠ 0 := by
  cases houtcome with
  | added a after _ hinv _ _ hfrees =>
      obtain ⟨hkeys, hvals⟩ := hfrees.passed calls
      refine ⟨_, hinv, Settled.added howns hkeys hvals rfl _ rfl rfl, ?_⟩
      intro e he
      rcases Multiset.mem_cons.mp he with rfl | hold
      · exact ⟨hkey, hval⟩
      · exact hnonnull e hold
  | replaced e after hmem _ hinv _ _ hfrees =>
      have hold := hnonnull e hmem
      obtain ⟨hkeys, hvals⟩ := freeItem_passed calls
        config.state.ledger hkey hold.2
      rw [← hfrees.keyFreed_eq] at hkeys
      rw [← hfrees.valFreed_eq] at hvals
      refine ⟨_, hinv, Settled.replaced howns hkeys hvals rfl hmem
        { e with val := val } rfl (add_comm _ _), ?_⟩
      intro other hother
      rcases Multiset.mem_cons.mp hother with rfl | hrest
      · exact ⟨hold.1, hval⟩
      · exact hnonnull other (Multiset.mem_of_mem_erase hrest)
  | failed after hunchanged _ =>
      obtain ⟨hkeys, hvals⟩ := hunchanged.frees.passed calls
      exact ⟨entries, hunchanged.inv, Settled.kept howns hkeys hvals
        (taken_put_failed rfl) returned_put, hnonnull⟩

theorem nonnull_erase (hnonnull : ∀ e ∈ entries, e.key ≠ 0 ∧ e.val ≠ 0)
    (e : Entry) : ∀ other ∈ entries.erase e, other.key ≠ 0 ∧ other.val ≠ 0 :=
  fun other hother => hnonnull other (Multiset.mem_of_mem_erase hother)

theorem RemoveOutcome.owns_remove
    (h : HashInv calls config.state entries)
    (howns : Owns calls config entries)
    (hnonnull : ∀ e ∈ entries, e.key ≠ 0 ∧ e.val ≠ 0) {key val : Ptr}
    (houtcome : RemoveOutcome calls config.state entries key val after) :
    ∃ entries', HashInv calls after entries' ∧
      Owns calls ⟨after, config.transcript ++ [(.remove key, .value val)]⟩
        entries' ∧ ∀ e ∈ entries', e.key ≠ 0 ∧ e.val ≠ 0 := by
  cases houtcome with
  | removed e after hmem _ hinv _ _ hledger _ =>
      have hold := hnonnull e hmem
      obtain ⟨hkeys, hvals⟩ := freeItem_passed_blank calls
        config.state.ledger hold.1
      rw [← hledger] at hkeys hvals
      exact ⟨_, hinv, Settled.removed howns hmem hold.2 hkeys hvals,
        nonnull_erase hnonnull e⟩
  | absent _ =>
      exact ⟨entries, h, Settled.kept howns passed_nothing passed_nothing
        taken_remove returned_remove_null, hnonnull⟩

theorem withFreedVal_passed (hcalls : after.hash.toCallbacks = calls)
    {val : Ptr} (hval : val ≠ 0) :
    Passed calls.valFree 0 after.ledger.valFreed
      (withFreedVal val after).ledger.valFreed {val} := by
  subst hcalls
  exact passed_one (freeVal_valFreed _ _ _) hval

theorem RemoveOutcome.owns_delete
    (h : HashInv calls config.state entries)
    (howns : Owns calls config entries)
    (hnonnull : ∀ e ∈ entries, e.key ≠ 0 ∧ e.val ≠ 0) {key val : Ptr}
    (houtcome : RemoveOutcome calls config.state entries key val after) :
    ∃ entries', HashInv calls (withFreedVal val after) entries' ∧
      Owns calls ⟨withFreedVal val after,
        config.transcript ++ [(.delete key, .unit)]⟩ entries' ∧
      ∀ e ∈ entries', e.key ≠ 0 ∧ e.val ≠ 0 := by
  have hkeyFreed : ∀ (val : Ptr) (st : HashState),
      (withFreedVal val st).ledger.keyFreed = st.ledger.keyFreed :=
    fun val st => freeVal_keyFreed _ _ _
  cases houtcome with
  | removed e after hmem _ hinv _ _ hledger _ =>
      have hold := hnonnull e hmem
      obtain ⟨hkeys, hvals⟩ := freeItem_passed_blank calls
        config.state.ledger hold.1
      rw [← hledger] at hkeys hvals
      rw [← hkeyFreed e.val after] at hkeys
      have hboth := hvals.trans (withFreedVal_passed hinv.callbacks hold.2)
      rw [zero_add] at hboth
      exact ⟨_, hinv.withFreedVal e.val,
        Settled.deleted howns hmem hkeys hboth, nonnull_erase hnonnull e⟩
  | absent _ =>
      have hcalls := h.callbacks
      have hkeys : Passed calls.keyFree 0 config.state.ledger.keyFreed
          (withFreedVal 0 config.state).ledger.keyFreed 0 := by
        rw [hkeyFreed]
        exact passed_nothing
      have hvals : Passed calls.valFree 0 config.state.ledger.valFreed
          (withFreedVal 0 config.state).ledger.valFreed 0 := by
        subst hcalls
        exact passed_null (freeVal_valFreed _ _ _)
      exact ⟨entries, h.withFreedVal 0, Settled.kept howns hkeys hvals
        taken_delete returned_delete, hnonnull⟩

theorem freeAll_freed (calls : Callbacks) (order : List Entry)
    (ledger : Ledger) :
    (ledger.freeAll calls order).keyFreed = ledger.keyFreed ++
        (if calls.keyFree then order.map Entry.key else []) ∧
      (ledger.freeAll calls order).valFreed = ledger.valFreed ++
        (if calls.valFree then order.map Entry.val else []) := by
  induction order generalizing ledger with
  | nil => simp [Ledger.freeAll]
  | cons e rest ih =>
      have hrest := ih (ledger.freeItem calls e.key e.val)
      simp only [Ledger.freeAll, List.foldl_cons] at hrest ⊢
      rw [hrest.1, hrest.2, freeItem_keyFreed, freeItem_valFreed]
      cases calls.keyFree <;> cases calls.valFree <;> simp

theorem Cleaned.owns (howns : Owns calls config entries)
    (hnonnull : ∀ e ∈ entries, e.key ≠ 0 ∧ e.val ≠ 0)
    (hcleaned : Cleaned calls config.state entries after) :
    Owns calls ⟨after, config.transcript ++ [(.clear, .unit)]⟩ 0 := by
  rcases hcleaned.ledger_eq with ⟨order, rfl, hledger⟩
  obtain ⟨hkeyFreed, hvalFreed⟩ :=
    freeAll_freed calls order config.state.ledger
  rw [← hledger] at hkeyFreed hvalFreed
  have hmem : ∀ e ∈ order, e.key ≠ 0 ∧ e.val ≠ 0 :=
    fun e he => hnonnull e (Multiset.mem_coe.mpr he)
  apply Settled.cleared howns
  · exact passed_all hkeyFreed
      (List.forall_mem_map.mpr fun e he => (hmem e he).1)
  · exact passed_all hvalFreed
      (List.forall_mem_map.mpr fun e he => (hmem e he).2)

end Outcomes

def KeepsOwned (calls : Callbacks) (_ : HashConfig) (_ : HashOp)
    (after : HashConfig) : Prop :=
  ∃ entries, HoldsEntries after.state entries ∧ Owns calls after entries

theorem ownInv_init (calls : Callbacks) (items : Addr → Option AHashItem)
    (itemNodes tables : List Addr) (world : World) :
    OwnInv calls (Config.initial
      ⟨aHashInit calls, items, ⟨[], [], itemNodes, tables⟩, world⟩) where
  owns := ⟨0, HashInv.init calls items _ world, settled_nil, by simp⟩
  count_le := Nat.zero_le _
  allocated := by simp

theorem CallOutcome.allocated_of_success {op : HashOp} {out : HashOut}
    {after : HashState}
    (houtcome : CallOutcome E calls st entries op out after)
    {key val : Ptr} {code : ErrorCode} (hop : op = .put key val)
    (hout : out = .code code) (hcode : code.isSuccess = true) :
    after.hash.table ≠ none := by
  subst hop hout
  cases houtcome with
  | put key val code after houtcome =>
      cases houtcome with
      | added a after _ _ hallocated _ _ => exact hallocated
      | replaced e after _ _ _ hallocated _ _ => exact hallocated
      | failed after _ _ => cases hcode

theorem OwnInv.runs {config : HashConfig} (hinv : OwnInv calls config)
    {op : HashOp} (hcall : OwnedCall config op) : Runs config.state op := by
  cases op with
  | put key val =>
      exact lt_of_le_of_lt hinv.count_le (Nat.lt_of_succ_lt hcall.2.2)
  | get key =>
      rcases hcall with ⟨k, val, code, hput, hcode⟩
      exact hinv.allocated k val code hput hcode
  | remove key =>
      rcases hcall with ⟨k, val, code, hput, hcode⟩
      exact hinv.allocated k val code hput hcode
  | delete key =>
      rcases hcall with ⟨k, val, code, hput, hcode⟩
      exact hinv.allocated k val code hput hcode
  | clear => trivial

theorem ownInv_step
    (hsymm : ∀ a b, calls.equalFunc a b = true → calls.equalFunc b a = true)
    (config : HashConfig) (op : HashOp) (hinv : OwnInv calls config)
    (hcall : OwnedCall config op) :
    ∃ after, config.step (hashStep E) op = .ok after ∧
      KeepsOwned calls config op after ∧ OwnInv calls after := by
  rcases hinv.owns with ⟨entries, h, howns, hnonnull⟩
  have hclear : op ≠ .clear := by
    intro heq
    subst heq
    exact hcall
  obtain ⟨out, state, hstate, houtcome⟩ :=
    hashStep_spec (E := E) hsymm h op (hinv.runs hcall)
  have hstep := Config.step_of_ok hstate
  have howned : ∃ entries', HashInv calls state entries' ∧
      Owns calls ⟨state, config.transcript ++ [(op, out)]⟩ entries' ∧
      ∀ e ∈ entries', e.key ≠ 0 ∧ e.val ≠ 0 := by
    cases houtcome with
    | put key val code after houtcome =>
        exact houtcome.owns howns hnonnull hcall.1 hcall.2.1
    | get key val _ =>
        exact ⟨entries, h, Settled.kept howns passed_nothing passed_nothing
          taken_get returned_get, hnonnull⟩
    | remove key val after houtcome =>
        exact houtcome.owns_remove h howns hnonnull
    | delete key val removed houtcome =>
        exact houtcome.owns_delete h howns hnonnull
    | clear after _ => exact hcall.elim
  rcases howned with ⟨entries', hinv', howns', hnonnull'⟩
  refine ⟨_, hstep, ⟨entries', hinv'.holdsEntries, howns'⟩,
    ⟨entries', hinv', howns', hnonnull'⟩, ?_, ?_⟩
  · rw [Config.history_step hstep]
    exact houtcome.count_le hinv.count_le
  · intro key val code hmem hcode
    rcases List.mem_append.mp hmem with hold | hnew
    · exact houtcome.allocated hclear
        (hinv.allocated key val code hold hcode)
    · rw [List.mem_singleton, Prod.mk.injEq] at hnew
      exact houtcome.allocated_of_success hnew.1.symm hnew.2.symm hcode

theorem OwnInv.clean {config : HashConfig} (hinv : OwnInv calls config) :
    ∃ final, config.step (hashStep E) .clear = .ok final ∧
      HoldsEntries final.state 0 ∧ Owns calls final 0 := by
  rcases hinv.owns with ⟨entries, h, howns, hnonnull⟩
  obtain ⟨after, hclean, hcleaned⟩ := aHashClean_spec h
  have hstep : hashStep E config.state .clear = .ok (.unit, after) := by
    rw [hashStep, hclean]
    rfl
  exact ⟨_, Config.step_of_ok hstep, hcleaned.inv.holdsEntries,
    hcleaned.owns howns hnonnull⟩

/-- After every call what was taken over is freed, handed back or in the
table, and after a final clean the keys freed are the keys of the successful
puts, the values freed or handed back their values. -/
theorem aHash_ownership (E : Env) (hlawful : calls.Lawful)
    (items : Addr → Option AHashItem) (itemNodes tables : List Addr)
    (world : World) (ops : List HashOp)
    (hcalls : Meets (hashStep E) OwnedCall
      (Config.initial
        ⟨aHashInit calls, items, ⟨[], [], itemNodes, tables⟩, world⟩) ops) :
    Keeps (hashStep E) (KeepsOwned calls)
      (Config.initial
        ⟨aHashInit calls, items, ⟨[], [], itemNodes, tables⟩, world⟩) ops ∧
    ∃ final, run (hashStep E)
        (Config.initial
          ⟨aHashInit calls, items, ⟨[], [], itemNodes, tables⟩, world⟩)
        (ops ++ [.clear]) = .ok final ∧
      HoldsEntries final.state 0 ∧
      (calls.keyFree = true →
        nonNull 0 final.state.ledger.keyFreed =
          ((ownTerms calls).taken final.transcript).map Prod.fst) ∧
      (calls.valFree = true →
        nonNull 0 final.state.ledger.valFreed +
            (ownTerms calls).returned final.transcript =
          ((ownTerms calls).taken final.transcript).map Prod.snd) := by
  have hinit := ownInv_init calls items itemNodes tables world
  refine ⟨keeps_of_meets (ownInv_step hlawful.symm) hinit hcalls, ?_⟩
  have hstep : ∀ config op, OwnInv calls config → OwnedCall config op →
      ∃ after, config.step (hashStep E) op = .ok after ∧
        OwnInv calls after := by
    intro config op hinv hcall
    obtain ⟨after, hafter, _, hinvAfter⟩ :=
      ownInv_step hlawful.symm config op hinv hcall
    exact ⟨after, hafter, hinvAfter⟩
  obtain ⟨reached, hreached, hinv⟩ := run_of_meets hstep hinit hcalls
  obtain ⟨final, hfinal, hholds, howns⟩ := hinv.clean (E := E)
  refine ⟨final, run_concat hreached hfinal, hholds, ?_, ?_⟩
  · intro hpresent
    have hkeys := howns.keys hpresent
    rw [Multiset.map_zero, add_zero] at hkeys
    exact hkeys.symm
  · intro hpresent
    have hvals := howns.vals hpresent
    rw [Multiset.map_zero, add_zero] at hvals
    exact hvals.symm

/-- Keys overwritten, removed, deleted and left for the final clean. -/
theorem aHash_ownership_run :
    Keeps (hashStep (filledEnv 0)) (KeepsOwned wordCalls)
      (Config.initial
        ⟨aHashInit wordCalls, fun _ => none, blankLedger, blankWorld⟩)
      [.put 1 10, .put 1 11, .put 2 20, .put 3 30, .remove 1, .delete 2] ∧
    ∃ final, run (hashStep (filledEnv 0))
        (Config.initial
          ⟨aHashInit wordCalls, fun _ => none, blankLedger, blankWorld⟩)
        ([.put 1 10, .put 1 11, .put 2 20, .put 3 30, .remove 1,
          .delete 2] ++ [.clear]) = .ok final ∧
      HoldsEntries final.state 0 ∧
      (wordCalls.keyFree = true →
        nonNull 0 final.state.ledger.keyFreed =
          ((ownTerms wordCalls).taken final.transcript).map Prod.fst) ∧
      (wordCalls.valFree = true →
        nonNull 0 final.state.ledger.valFreed +
            (ownTerms wordCalls).returned final.transcript =
          ((ownTerms wordCalls).taken final.transcript).map Prod.snd) := by
  refine aHash_ownership (filledEnv 0) wordCalls_lawful (fun _ => none) [] []
    blankWorld _ ?_
  refine ⟨⟨by decide, by decide, by decide⟩, fun first hfirst => ?_⟩
  cases hfirst
  refine ⟨⟨by decide, by decide, by decide⟩, fun second hsecond => ?_⟩
  cases hsecond
  refine ⟨⟨by decide, by decide, by decide⟩, fun third hthird => ?_⟩
  cases hthird
  refine ⟨⟨by decide, by decide, by decide⟩, fun fourth hfourth => ?_⟩
  cases hfourth
  refine ⟨⟨1, 10, aErrorSuccess, List.mem_cons_self, rfl⟩,
    fun fifth hfifth => ?_⟩
  cases hfifth
  exact ⟨⟨1, 10, aErrorSuccess, List.mem_cons_self, rfl⟩,
    fun _ _ => trivial⟩

end Hash
end Alib
