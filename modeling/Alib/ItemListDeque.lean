import Alib.ItemList
import Alib.NodeChain
import Alib.Execution

/-!
# The intrusive list as a deque

The deque a list should be is computed from the calls alone.  The list agrees
with it, pointers, links, count and results, exactly as long as no item is
prepended to an empty list, which leaves the tail pointer null, and the count
does not wrap.
-/

namespace Alib
namespace ItemList

open Execution

variable {offset : Ptr}

abbrev ListConfig (offset : Ptr) := Config ListState (ListOp offset) ListOut

def dequeStep (items : List Ptr) : ListOp offset → List Ptr
  | .append item => items ++ [item.address]
  | .prepend item => item.address :: items
  | .decap => items.tail

/-- The items that should be in the list, front first. -/
def dequeItems (transcript : List (ListOp offset × ListOut)) : List Ptr :=
  (transcript.map Prod.fst).foldl dequeStep []

@[simp] theorem dequeItems_append
    (transcript : List (ListOp offset × ListOut))
    (entry : ListOp offset × ListOut) :
    dequeItems (transcript ++ [entry]) =
      dequeStep (dequeItems transcript) entry.1 := by
  simp [dequeItems]

/-- An item enters the list only when it is not in it. -/
def Distinct (config : ListConfig offset) : ListOp offset → Prop
  | .append item => item.address ∉ dequeItems config.transcript
  | .prepend item => item.address ∉ dequeItems config.transcript
  | .decap => True

/-- Link fields, each holding a pointer to the next one. -/
def linkLayout : NodeLayout Ptr (Option Ptr) Ptr where
  link := id
  view := fun a _ => a
  addr := id
  addr_view := fun _ _ => rfl

@[simp] theorem linkLayout_addr (a : Ptr) : linkLayout.addr a = a := rfl

/-- The list consists of these items: the links lead through them and end,
and head and tail point to the first and the last of them. -/
structure HoldsItems (offset : Ptr) (st : ListState) (items : List Ptr) :
    Prop where
  chain : linkLayout.IsChain (some ∘ st.links) st.list.head
    (items.map (· + offset))
  head_eq : st.list.head = (items.map (· + offset)).head?
  tail_eq : st.list.tail = (items.map (· + offset)).getLast?

/-- What a call returns, given the items before it. -/
def expectedOut (items : List Ptr) : ListOp offset → ListOut
  | .append _ => .count (items.length + 1)
  | .prepend _ => .count (items.length + 1)
  | .decap => .item (items.head?.getD 0)

/-- The call returns what a deque returns, `NULL` only when empty, and leaves
the list with the items of the deque. -/
def DequeStep (config : ListConfig offset) (op : ListOp offset)
    (after : ListConfig offset) : Prop :=
  after.transcript = config.transcript ++
      [(op, expectedOut (dequeItems config.transcript) op)] ∧
    (expectedOut (dequeItems config.transcript) op = .item 0 →
      dequeItems config.transcript = []) ∧
    HoldsItems offset after.state (dequeItems after.transcript)

/-- No item is prepended to an empty list, and the number of items fits an
`unsigned int`. -/
def NoEmptyPrepend (config : ListConfig offset) : ListOp offset → Prop
  | .append _ => (dequeItems config.transcript).length + 1 < 2 ^ 32
  | .prepend _ =>
      dequeItems config.transcript ≠ [] ∧
        (dequeItems config.transcript).length + 1 < 2 ^ 32
  | .decap => True

structure DequeInv (config : ListConfig offset) : Prop where
  offset_eq : config.state.list.offset = offset
  count_eq : config.state.list.count =
    (dequeItems config.transcript).length
  length_lt : (dequeItems config.transcript).length < 2 ^ 32
  nonnull : ∀ item ∈ dequeItems config.transcript, item ≠ 0
  holds : HoldsItems offset config.state (dequeItems config.transcript)

theorem item2listItem_eq {list : AList} (item : Item offset)
    (h : list.offset = offset) :
    item2listItem list item.address = some (item.address + offset) := by
  rw [item2listItem, pointer, h, if_neg item.link_ne]

theorem listItem2item_eq {list : AList} (item : Ptr)
    (h : list.offset = offset) :
    listItem2item list (some (item + offset)) = item := by
  rw [listItem2item, pointerValue, h, BitVec.add_sub_cancel]

theorem link_not_mem (offset : Ptr) {items : List Ptr} {item : Ptr}
    (h : item ∉ items) :
    item + offset ∉ (items.map (· + offset)).map linkLayout.addr := by
  intro hmem
  simp only [List.map_map, List.mem_map, Function.comp_apply,
    linkLayout_addr, BitVec.add_left_inj] at hmem
  rcases hmem with ⟨other, hother, rfl⟩
  exact h hother

theorem chain_update {links : Ptr → Option Ptr} {head : Option Ptr}
    {items : List Ptr} {item : Ptr} (value : Option Ptr)
    (hnotMem : item ∉ items)
    (h : linkLayout.IsChain (some ∘ links) head (items.map (· + offset))) :
    linkLayout.IsChain
      (some ∘ Function.update links (item + offset) value) head
      (items.map (· + offset)) := by
  rw [Function.comp_update]
  exact h.update (link_not_mem offset hnotMem)

theorem append_spec {config : ListConfig offset} (hinv : DequeInv config)
    (item : Item offset)
    (hdistinct : item.address ∉ dequeItems config.transcript) :
    ∃ st, aListAppend item.address config.state =
        .ok (countSucc (dequeItems config.transcript).length, st) ∧
      st.list.offset = offset ∧
      st.list.count = countSucc (dequeItems config.transcript).length ∧
      HoldsItems offset st
        (dequeItems config.transcript ++ [item.address]) := by
  have hli := item2listItem_eq item hinv.offset_eq
  have hcount := hinv.count_eq
  have hchain := chain_update none hdistinct hinv.holds.chain
  have hhead := hinv.holds.head_eq
  have htail := hinv.holds.tail_eq
  generalize dequeItems config.transcript = items at *
  rcases List.eq_nil_or_concat items with rfl | ⟨front, last, hitems⟩
  · let st : ListState :=
      ⟨{ config.state.list with
          head := some (item.address + offset)
          tail := some (item.address + offset)
          count := countSucc 0 },
        Function.update config.state.links (item.address + offset) none⟩
    have happend : aListAppend item.address config.state =
        .ok (countSucc 0, st) := by
      simp [aListAppend, hli, writePtr, hcount, st]
    refine ⟨st, happend, hinv.offset_eq, rfl, ?_, rfl, rfl⟩
    exact ⟨rfl, none, by simp [st, linkLayout], rfl, rfl⟩
  · rw [List.concat_eq_append] at hitems
    subst hitems
    have htailLast : config.state.list.tail = some (last + offset) := by
      rw [htail]
      simp
    have hne : item.address ≠ last := by
      intro heq
      exact hdistinct (by simp [heq])
    let links := Function.update
      (Function.update config.state.links (item.address + offset) none)
      (last + offset) (some (item.address + offset))
    let st : ListState :=
      ⟨{ config.state.list with
          tail := some (item.address + offset)
          count := countSucc (front ++ [last]).length }, links⟩
    have happend : aListAppend item.address config.state =
        .ok (countSucc (front ++ [last]).length, st) := by
      simp [aListAppend, hli, writePtr, hcount, htailLast, st, links]
    refine ⟨st, happend, hinv.offset_eq, rfl, ?_, ?_, ?_⟩
    · have hextended : linkLayout.IsChain
          (Function.update
            (some ∘ Function.update config.state.links
              (item.address + offset) none)
            (last + offset) (some (some (item.address + offset))))
          config.state.list.head
          (front.map (· + offset) ++ [last + offset, item.address + offset]) :=
        NodeLayout.IsChain.concat (by simpa using hchain) rfl rfl
          (by simp [linkLayout])
          (by simpa using link_not_mem offset hdistinct)
          rfl rfl
      rw [← Function.comp_update] at hextended
      simpa [st, links] using hextended
    · cases front with
      | nil => simpa [st] using hhead
      | cons first rest => simpa [st] using hhead
    · simp [st]

theorem prepend_spec {config : ListConfig offset} (hinv : DequeInv config)
    (item : Item offset)
    (hdistinct : item.address ∉ dequeItems config.transcript)
    (hne : dequeItems config.transcript ≠ []) :
    ∃ st, aListPrepend item.address config.state =
        .ok (countSucc (dequeItems config.transcript).length, st) ∧
      st.list.offset = offset ∧
      st.list.count = countSucc (dequeItems config.transcript).length ∧
      HoldsItems offset st
        (item.address :: dequeItems config.transcript) := by
  have hli := item2listItem_eq item hinv.offset_eq
  let st : ListState :=
    ⟨{ config.state.list with
        head := some (item.address + offset)
        count := countSucc (dequeItems config.transcript).length },
      Function.update config.state.links (item.address + offset)
        config.state.list.head⟩
  have hprepend : aListPrepend item.address config.state =
      .ok (countSucc (dequeItems config.transcript).length, st) := by
    simp [aListPrepend, hli, writePtr, hinv.count_eq, st]
  have hchain := chain_update config.state.list.head hdistinct
    hinv.holds.chain
  refine ⟨st, hprepend, hinv.offset_eq, rfl, ?_, rfl, ?_⟩
  · exact ⟨rfl, config.state.list.head, by simp [st], rfl, hchain⟩
  · obtain ⟨first, rest, hitems⟩ := List.exists_cons_of_ne_nil hne
    have htail := hinv.holds.tail_eq
    rw [hitems] at htail ⊢
    simpa [st] using htail

/-- Prepending to an empty list leaves the tail at `NULL`. -/
theorem prepend_empty {config : ListConfig offset} (hinv : DequeInv config)
    (item : Item offset) (hempty : dequeItems config.transcript = []) :
    ∃ st, aListPrepend item.address config.state = .ok (1, st) ∧
      st.list.tail = none := by
  have hli := item2listItem_eq item hinv.offset_eq
  have hcount : config.state.list.count = 0 := by
    rw [hinv.count_eq, hempty]
    rfl
  have htail : config.state.list.tail = none := by
    rw [hinv.holds.tail_eq, hempty]
    rfl
  let st : ListState :=
    ⟨{ config.state.list with
        head := some (item.address + offset)
        count := 1 },
      Function.update config.state.links (item.address + offset)
        config.state.list.head⟩
  have hprepend : aListPrepend item.address config.state = .ok (1, st) := by
    simp [aListPrepend, hli, writePtr, hcount, countSucc, st]
  exact ⟨st, hprepend, htail⟩

theorem decap_spec {config : ListConfig offset} (hinv : DequeInv config) :
    ∃ st, aListDecap config.state =
        .ok ((dequeItems config.transcript).head?.getD 0, st) ∧
      st.list.offset = offset ∧
      st.list.count = (dequeItems config.transcript).tail.length ∧
      HoldsItems offset st (dequeItems config.transcript).tail := by
  have hcount := hinv.count_eq
  have hholds := hinv.holds
  generalize dequeItems config.transcript = items at *
  cases items with
  | nil =>
      have hdecap : aListDecap config.state = .ok (0, config.state) := by
        simp [aListDecap, hcount]
      exact ⟨config.state, hdecap, hinv.offset_eq, hcount, hholds⟩
  | cons first rest =>
      rcases hholds with ⟨⟨hhead, node, hnode, _, hrest⟩, _, htail⟩
      simp only [linkLayout_addr] at hhead hnode
      have hitem := listItem2item_eq first hinv.offset_eq
      cases rest with
      | nil =>
          let st : ListState := { config.state with
            list := { config.state.list with
              head := none, tail := none, count := 0 } }
          have hdecap : aListDecap config.state = .ok (first, st) := by
            simp [aListDecap, hcount, hhead, hitem, st]
          exact ⟨st, hdecap, hinv.offset_eq, rfl, rfl, rfl, rfl⟩
      | cons second rest =>
          have hlink : node = config.state.links (first + offset) :=
            (Option.some.inj hnode).symm
          let st : ListState := { config.state with
            list := { config.state.list with
              head := config.state.links (first + offset)
              count := rest.length + 1 } }
          have hdecap : aListDecap config.state = .ok (first, st) := by
            simp [aListDecap, hcount, hitem, hhead, readPtr, st]
          have hchain : linkLayout.IsChain (some ∘ st.links) st.list.head
              ((second :: rest).map (· + offset)) := by
            rw [hlink] at hrest
            exact hrest
          refine ⟨st, hdecap, hinv.offset_eq, rfl, hchain, hchain.1, ?_⟩
          simpa [st] using htail

/-- What the code returns, given the items before the call. -/
def returnedOut (items : List Ptr) : ListOp offset → ListOut
  | .append _ => .count (countSucc items.length)
  | .prepend _ => .count (countSucc items.length)
  | .decap => .item (items.head?.getD 0)

theorem listStep_spec {config : ListConfig offset} (hinv : DequeInv config)
    {op : ListOp offset} (hdistinct : Distinct config op)
    (hprepend : ∀ item, op = .prepend item →
      dequeItems config.transcript ≠ []) :
    ∃ st, listStep config.state op =
        .ok (returnedOut (dequeItems config.transcript) op, st) ∧
      st.list.offset = offset ∧
      st.list.count =
        (dequeStep (dequeItems config.transcript) op).length % 2 ^ 32 ∧
      HoldsItems offset st (dequeStep (dequeItems config.transcript) op) := by
  cases op with
  | append item =>
      obtain ⟨st, happend, hoffset, hcount, hholds⟩ :=
        append_spec hinv item hdistinct
      have hlength :
          (dequeStep (dequeItems config.transcript)
            (.append item)).length =
          (dequeItems config.transcript).length + 1 := by
        simp [dequeStep]
      refine ⟨st, ?_, hoffset, ?_, hholds⟩
      · simp [listStep, happend, returnedOut]
      · rw [hcount, hlength, countSucc]
  | prepend item =>
      obtain ⟨st, hcall, hoffset, hcount, hholds⟩ :=
        prepend_spec hinv item hdistinct (hprepend item rfl)
      refine ⟨st, ?_, hoffset, hcount, hholds⟩
      simp [listStep, hcall, returnedOut]
  | decap =>
      obtain ⟨st, hdecap, hoffset, hcount, hholds⟩ := decap_spec hinv
      have hlt : (dequeItems config.transcript).tail.length < 2 ^ 32 := by
        rw [List.length_tail]
        exact lt_of_le_of_lt (Nat.sub_le _ 1) hinv.length_lt
      refine ⟨st, ?_, hoffset, ?_, hholds⟩
      · simp [listStep, hdecap, returnedOut]
      · rw [hcount, dequeStep, Nat.mod_eq_of_lt hlt]

theorem returnedOut_eq_expectedOut_iff {items : List Ptr}
    {op : ListOp offset} (hlength : items.length < 2 ^ 32) :
    returnedOut items op = expectedOut items op ↔
      (dequeStep items op).length < 2 ^ 32 := by
  have hcount : ListOut.count (countSucc items.length) =
      .count (items.length + 1) ↔ items.length + 1 < 2 ^ 32 := by
    rw [ListOut.count.injEq, countSucc]
    exact Nat.mod_eq_iff_lt (by decide)
  cases op with
  | append item => simpa [returnedOut, expectedOut, dequeStep] using hcount
  | prepend item => simpa [returnedOut, expectedOut, dequeStep] using hcount
  | decap =>
      have htail := lt_of_le_of_lt (Nat.sub_le items.length 1) hlength
      simpa [returnedOut, expectedOut, dequeStep] using htail

theorem noEmptyPrepend_iff {config : ListConfig offset}
    (hinv : DequeInv config) {op : ListOp offset} :
    NoEmptyPrepend config op ↔
      (∀ item, op = .prepend item → dequeItems config.transcript ≠ []) ∧
        (dequeStep (dequeItems config.transcript) op).length < 2 ^ 32 := by
  cases op with
  | append item => simp [NoEmptyPrepend, dequeStep]
  | prepend item => simp [NoEmptyPrepend, dequeStep]
  | decap =>
      have htail := lt_of_le_of_lt
        (Nat.sub_le (dequeItems config.transcript).length 1) hinv.length_lt
      simpa [NoEmptyPrepend, dequeStep] using htail

theorem expectedOut_null {items : List Ptr} {op : ListOp offset}
    (hnonnull : ∀ item ∈ items, item ≠ 0)
    (h : expectedOut items op = .item 0) : items = [] := by
  cases op with
  | append item => cases h
  | prepend item => cases h
  | decap =>
      cases items with
      | nil => rfl
      | cons first rest =>
          have hfirst : first = 0 := ListOut.item.inj h
          exact absurd hfirst (hnonnull first (by simp))

theorem dequeStep_nonnull {items : List Ptr} (op : ListOp offset)
    (hnonnull : ∀ item ∈ items, item ≠ 0) :
    ∀ item ∈ dequeStep items op, item ≠ 0 := by
  intro item hitem
  cases op with
  | append new =>
      rcases List.mem_append.mp hitem with hold | hnew
      · exact hnonnull item hold
      · rw [List.mem_singleton.mp hnew]
        exact new.address_ne
  | prepend new =>
      rcases List.mem_cons.mp hitem with rfl | hold
      · exact new.address_ne
      · exact hnonnull item hold
  | decap => exact hnonnull item (List.mem_of_mem_tail hitem)

theorem dequeStep_iff (config : ListConfig offset) (op : ListOp offset)
    (hinv : DequeInv config) (hdistinct : Distinct config op) :
    NoEmptyPrepend config op ↔
      ∃ after, config.step listStep op = .ok after ∧
        DequeStep config op after := by
  rw [noEmptyPrepend_iff hinv]
  constructor
  · rintro ⟨hprepend, hlength⟩
    obtain ⟨st, hcall, _, _, hholds⟩ :=
      listStep_spec hinv hdistinct hprepend
    rw [(returnedOut_eq_expectedOut_iff hinv.length_lt).mpr hlength] at hcall
    refine ⟨_, Config.step_of_ok hcall, rfl,
      expectedOut_null hinv.nonnull, ?_⟩
    simpa using hholds
  · rintro ⟨after, hstep, htranscript, _, hholds⟩
    have hprepend : ∀ item, op = .prepend item →
        dequeItems config.transcript ≠ [] := by
      rintro item rfl hempty
      obtain ⟨st, hcall, htail⟩ := prepend_empty hinv item hempty
      have hcallStep : listStep config.state (.prepend item) =
          .ok (.count 1, st) := by
        simp [listStep, hcall]
      rw [Config.step_of_ok hcallStep] at hstep
      cases hstep
      have hlast := hholds.tail_eq
      simp [htail, dequeStep, hempty] at hlast
    refine ⟨hprepend, ?_⟩
    obtain ⟨st, hcall, _⟩ := listStep_spec hinv hdistinct hprepend
    rw [Config.step_of_ok hcall] at hstep
    cases hstep
    have hout := List.append_cancel_left htranscript
    simp only [List.cons.injEq, Prod.mk.injEq, true_and, and_true] at hout
    exact (returnedOut_eq_expectedOut_iff hinv.length_lt).mp hout

theorem dequeInv_step (config : ListConfig offset) (op : ListOp offset)
    (after : ListConfig offset) (hinv : DequeInv config)
    (hdistinct : Distinct config op) (hcondition : NoEmptyPrepend config op)
    (hstep : config.step listStep op = .ok after) : DequeInv after := by
  obtain ⟨hprepend, hlength⟩ := (noEmptyPrepend_iff hinv).mp hcondition
  obtain ⟨st, hcall, hoffset, hcount, hholds⟩ :=
    listStep_spec hinv hdistinct hprepend
  rw [Config.step_of_ok hcall] at hstep
  cases hstep
  have hitems := dequeItems_append config.transcript
    (op, returnedOut (dequeItems config.transcript) op)
  constructor
  · exact hoffset
  · rw [hitems]
    exact hcount.trans (Nat.mod_eq_of_lt hlength)
  · rw [hitems]
    exact hlength
  · rw [hitems]
    exact dequeStep_nonnull op hinv.nonnull
  · rw [hitems]
    exact hholds

theorem dequeInv_init (offset : Ptr) (links : Ptr → Option Ptr) :
    DequeInv (Config.initial ⟨aListInit offset, links⟩ : ListConfig offset)
    where
  offset_eq := rfl
  count_eq := rfl
  length_lt := by simp [dequeItems]
  nonnull := by simp [dequeItems]
  holds := ⟨rfl, rfl, rfl⟩

/-- Over every run, the list is a deque if and only if no item is ever
prepended to an empty list and the count never wraps. -/
theorem aList_deque_iff (offset : Ptr) (links : Ptr → Option Ptr)
    (ops : List (ListOp offset))
    (hdistinct : Meets listStep Distinct
      (Config.initial ⟨aListInit offset, links⟩) ops) :
    Keeps listStep DequeStep
        (Config.initial ⟨aListInit offset, links⟩) ops ↔
      Meets listStep NoEmptyPrepend
        (Config.initial ⟨aListInit offset, links⟩) ops :=
  keeps_iff_meets dequeStep_iff dequeInv_step
    (dequeInv_init offset links) hdistinct

def firstItem : Item 8 := ⟨16, by decide, by decide⟩

def secondItem : Item 8 := ⟨64, by decide, by decide⟩

theorem aList_deque_run :
    Keeps listStep DequeStep
      (Config.initial ⟨aListInit 8, fun _ => none⟩)
      [.append firstItem, .prepend secondItem, .decap, .decap] := by
  refine (aList_deque_iff 8 (fun _ => none) _ ?_).mpr ?_
  · refine ⟨by simp [Distinct, dequeItems], fun first hfirst => ?_⟩
    cases hfirst
    refine ⟨by simp [Distinct, dequeItems, dequeStep, firstItem, secondItem],
      fun second _ => ?_⟩
    exact meets_of_forall (by simp [Distinct]) second
  · refine ⟨by simp [NoEmptyPrepend, dequeItems], fun first hfirst => ?_⟩
    cases hfirst
    refine ⟨by simp [NoEmptyPrepend, dequeItems, dequeStep],
      fun second _ => ?_⟩
    exact meets_of_forall (by simp [NoEmptyPrepend]) second

/-- A prepend to an empty list leaves the tail at `NULL`, and the append
after it follows it. -/
theorem aList_deque_fails :
    ¬ Keeps listStep DequeStep
      (Config.initial ⟨aListInit 8, fun _ => none⟩)
      [.prepend firstItem, .append secondItem] := by
  rintro ⟨first, hfirst, _, second, hsecond, _⟩
  cases hfirst
  cases hsecond

end ItemList
end Alib
