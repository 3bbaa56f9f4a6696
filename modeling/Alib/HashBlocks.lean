import Alib.BlockAccount
import Alib.HashFailure

/-!
# The blocks of a hash table

Which blocks a table obtained and which of them it gave back.  Every function
that only moves or frees items leaves these alone: `item_free` calls the
destructors and clears the item, and no function releases its node.
-/

namespace Alib
namespace Hash

open Execution KeyedMap

variable {E : Env} {calls : Callbacks} {st after : HashState}

/-- The allocator's side of a table: the world, the blocks obtained for items
and tables, and the block of the current table. -/
structure Blocks where
  world : World
  itemNodes : List Addr
  tables : List Addr
  table : Option Addr

def HashState.blocks (st : HashState) : Blocks where
  world := st.world
  itemNodes := st.ledger.itemNodes
  tables := st.ledger.tables
  table := st.hash.table.map PointerArray.addr

section Moves

theorem freed_itemNodes (keyFree valFree : Bool) (key val : Ptr)
    (ledger : Ledger) :
    ((ledger.freeKey keyFree key).freeVal valFree val).itemNodes =
      ledger.itemNodes := by
  cases keyFree <;> cases valFree <;> rfl

theorem freed_tables (keyFree valFree : Bool) (key val : Ptr)
    (ledger : Ledger) :
    ((ledger.freeKey keyFree key).freeVal valFree val).tables =
      ledger.tables := by
  cases keyFree <;> cases valFree <;> rfl

theorem itemFree_blocks {a : Addr} (h : itemFree a st = .ok after) :
    after.blocks = st.blocks := by
  obtain ⟨item, _, hreturn⟩ := bind_eq_ok_iff.mp h
  cases hreturn
  simp only [HashState.blocks, freed_itemNodes, freed_tables]

theorem writeSlot_blocks {hash : AHash} {i : ℕ} {p : Option Addr}
    (h : writeSlot st.hash i p = .ok hash) :
    HashState.blocks { st with hash := hash } = st.blocks := by
  obtain ⟨table, htable, hwrite⟩ := bind_eq_ok_iff.mp h
  have hsome : st.hash.table = some table := by
    unfold tableOf at htable
    split at htable
    · cases htable
    · cases htable
      assumption
  by_cases hlength : i < table.slots.length
  · rw [if_pos hlength] at hwrite
    cases hwrite
    simp only [HashState.blocks, hsome, Option.map_some]
  · rw [if_neg hlength] at hwrite
    cases hwrite

theorem writeLocation_blocks {list : ItemLocation} {p : Option Addr}
    (h : writeLocation list p st = .ok after) :
    after.blocks = st.blocks := by
  cases list with
  | slot i =>
      obtain ⟨hash, hwrite, hreturn⟩ := bind_eq_ok_iff.mp h
      cases hreturn
      exact writeSlot_blocks hwrite
  | ptrOf a =>
      obtain ⟨item, _, hreturn⟩ := bind_eq_ok_iff.mp h
      cases hreturn
      rfl

theorem itemListRemove_blocks {hash : BitVec 32} {key : Ptr}
    {equal : Ptr → Ptr → Bool} {fuel : ℕ} {list : ItemLocation}
    {head item : Option Addr}
    (h : itemListRemove hash key equal fuel list head st =
      .ok (item, after)) : after.blocks = st.blocks := by
  induction fuel generalizing list head with
  | zero => cases h
  | succ fuel ih =>
      cases head with
      | none =>
          cases h
          rfl
      | some a =>
          obtain ⟨found, _, hrest⟩ := bind_eq_ok_iff.mp h
          split at hrest
          · obtain ⟨written, hwrite, hreturn⟩ := bind_eq_ok_iff.mp hrest
            cases hreturn
            exact writeLocation_blocks hwrite
          · exact ih hrest

theorem replaceItem_blocks {dup item : Addr}
    (h : replaceItem dup item st = .ok after) :
    after.blocks = st.blocks := by
  obtain ⟨items, _, hfree⟩ := bind_eq_ok_iff.mp h
  exact (itemFree_blocks hfree).trans rfl

theorem linkItem_blocks {item : Addr} {i : ℕ} {list : Option Addr}
    (h : linkItem item i list st = .ok after) :
    after.blocks = st.blocks := by
  obtain ⟨node, _, hrest⟩ := bind_eq_ok_iff.mp h
  obtain ⟨hash, hwrite, hreturn⟩ := bind_eq_ok_iff.mp hrest
  cases hreturn
  exact writeSlot_blocks hwrite

theorem addItem_blocks {item : Addr} (h : addItem item st = .ok after) :
    after.blocks = st.blocks := by
  obtain ⟨node, _, h⟩ := bind_eq_ok_iff.mp h
  obtain ⟨reducedHash, _, h⟩ := bind_eq_ok_iff.mp h
  obtain ⟨table, _, h⟩ := bind_eq_ok_iff.mp h
  obtain ⟨list, _, h⟩ := bind_eq_ok_iff.mp h
  obtain ⟨dup, _, h⟩ := bind_eq_ok_iff.mp h
  cases dup with
  | none => exact linkItem_blocks h
  | some dup => exact replaceItem_blocks h

theorem rehashChain_blocks {fuel : ℕ} {head : Option Addr}
    (h : rehashChain fuel head st = .ok after) :
    after.blocks = st.blocks := by
  induction fuel generalizing head st with
  | zero => cases h
  | succ fuel ih =>
      cases head with
      | none =>
          cases h
          rfl
      | some a =>
          obtain ⟨item, _, hrest⟩ := bind_eq_ok_iff.mp h
          obtain ⟨added, hadd, hrest⟩ := bind_eq_ok_iff.mp hrest
          exact (ih hrest).trans (addItem_blocks hadd)

theorem rehashChains_blocks {lists : List (Option Addr)}
    (h : rehashChains lists st = .ok after) : after.blocks = st.blocks := by
  induction lists generalizing st with
  | nil =>
      cases h
      rfl
  | cons list rest ih =>
      obtain ⟨moved, hmove, hrest⟩ := bind_eq_ok_iff.mp h
      exact (ih hrest).trans (rehashChain_blocks hmove)

theorem listFree_blocks {fuel : ℕ} {head : Option Addr}
    (h : listFree fuel head st = .ok after) :
    after.blocks = st.blocks := by
  induction fuel generalizing head st with
  | zero => cases h
  | succ fuel ih =>
      cases head with
      | none =>
          cases h
          rfl
      | some a =>
          obtain ⟨item, _, hrest⟩ := bind_eq_ok_iff.mp h
          obtain ⟨freed, hfree, hrest⟩ := bind_eq_ok_iff.mp hrest
          exact (ih hrest).trans (itemFree_blocks hfree)

theorem listsFree_blocks {lists : List (Option Addr)}
    (h : listsFree lists st = .ok after) : after.blocks = st.blocks := by
  induction lists generalizing st with
  | nil =>
      cases h
      rfl
  | cons list rest ih =>
      obtain ⟨freed, hfree, hrest⟩ := bind_eq_ok_iff.mp h
      exact (ih hrest).trans (listFree_blocks hfree)

theorem aHashRemove_blocks {key val : Ptr}
    (h : aHashRemove key st = .ok (val, after)) :
    after.blocks = st.blocks := by
  obtain ⟨reducedHash, _, h⟩ := bind_eq_ok_iff.mp h
  obtain ⟨table, _, h⟩ := bind_eq_ok_iff.mp h
  obtain ⟨list, _, h⟩ := bind_eq_ok_iff.mp h
  obtain ⟨⟨item, unlinked⟩, hremove, h⟩ := bind_eq_ok_iff.mp h
  rw [← itemListRemove_blocks hremove]
  cases item with
  | none =>
      cases h
      rfl
  | some a =>
      obtain ⟨node, _, h⟩ := bind_eq_ok_iff.mp h
      obtain ⟨freed, hfree, hreturn⟩ := bind_eq_ok_iff.mp h
      cases hreturn
      exact (itemFree_blocks hfree).trans rfl

end Moves

section Steps

/-- `a_free` on this block, if there is one. -/
def releaseBlock (block : Option Addr) (w : World) : World :=
  block.elim w w.release

/-- The block of a new item. -/
def Blocks.addNode (b : Blocks) : Blocks := { b with
  world := { b.world with requests := b.world.requests + 1 }
  itemNodes := b.itemNodes ++ [b.world.requests] }

def Blocks.addTable (b : Blocks) : Blocks := { b with
  world := releaseBlock b.table
    { b.world with requests := b.world.requests + 1 }
  tables := b.tables ++ [b.world.requests]
  table := some b.world.requests }

theorem Blocks.addTable_requests (b : Blocks) :
    b.addTable.world.requests = b.world.requests + 1 := by
  unfold Blocks.addTable
  cases b.table <;> rfl

def Blocks.clean (b : Blocks) : Blocks := { b with
  world := releaseBlock b.table b.world
  table := none }

/-- All that happens to the blocks of a table. -/
inductive Blocks.Step : Blocks → Blocks → Prop where
  | node (b : Blocks) : Step b b.addNode
  | table (b : Blocks) : Step b b.addTable
  | clean (b : Blocks) : Step b b.clean
  | report (b : Blocks) (world : World) (hreports : Reports b.world world) :
      Step b { b with world := world }

theorem rehash_blocks {oldTable : Option PointerArray} {oldSize : ℕ}
    (h : rehash oldTable oldSize st = .ok after) :
    after.blocks = { st.blocks with
      world := releaseBlock (oldTable.map PointerArray.addr) st.world } := by
  cases oldTable with
  | none =>
      cases h
      rfl
  | some old =>
      obtain ⟨lists, _, h⟩ := bind_eq_ok_iff.mp h
      obtain ⟨moved, hmove, hreturn⟩ := bind_eq_ok_iff.mp h
      cases hreturn
      have hblocks := rehashChains_blocks hmove
      have hworld : moved.world = st.world := congrArg Blocks.world hblocks
      calc HashState.blocks { moved with world := freeTable old moved.world }
          = { moved.blocks with world := freeTable old moved.world } := rfl
        _ = { st.blocks with world := freeTable old st.world } := by
            rw [hblocks, hworld]

theorem code_of_refused {before refused world : World} {code : ErrorCode}
    (hrefused : Refused before refused)
    (h : aErrorGetAlibCode E refused = .ok (code, world)) :
    code = aErrorOther := by
  obtain ⟨reported, hother, _⟩ := aErrorGetAlibCode_of_refused E hrefused
  have hsame := Except.ok.inj (hother.symm.trans h)
  exact (congrArg Prod.fst hsame).symm

/-- Extending obtains a table and gives the old one back, or reports that it
was refused. -/
theorem extend_blocks {code : ErrorCode}
    (h : extend E st = .ok (code, after)) :
    (E.grants st.world.requests
        (sizeofPointer * 2 ^ extendedBits st.hash) = true ∧
      code = aErrorSuccess ∧ after.blocks = st.blocks.addTable) ∨
    (E.grants st.world.requests
        (sizeofPointer * 2 ^ extendedBits st.hash) = false ∧
      code = aErrorOther ∧ ∃ world,
        RefusalReported E (sizeofPointer * 2 ^ extendedBits st.hash) st.world
          world ∧
        after.blocks = { st.blocks with world := world }) := by
  obtain ⟨oldSize, _, h⟩ := bind_eq_ok_iff.mp h
  obtain ⟨size, hsize, h⟩ := bind_eq_ok_iff.mp h
  obtain ⟨⟨table, world⟩, hmalloc, h⟩ := bind_eq_ok_iff.mp h
  have hbits : extendedBits st.hash ≤ 30 := by
    by_contra hbits
    rw [bits2size, if_neg hbits] at hsize
    cases hsize
  rw [bits2size_eq hbits] at hsize
  cases hsize
  rw [sizeMul_two_pow hbits] at hmalloc
  rcases aMallocNULL_cases E (Nat.two_pow_pos (extendedBits st.hash))
      st.world with
    ⟨hgrant, hnew⟩ | ⟨hgrant, refused, hnew, hrefused⟩
  · left
    rw [hnew] at hmalloc
    cases hmalloc
    obtain ⟨rehashed, hrehash, hreturn⟩ := bind_eq_ok_iff.mp h
    cases hreturn
    refine ⟨hgrant, rfl, ?_⟩
    rw [rehash_blocks hrehash]
    rfl
  · right
    rw [hnew] at hmalloc
    cases hmalloc
    obtain ⟨⟨code, reported⟩, hcode, hreturn⟩ := bind_eq_ok_iff.mp h
    cases hreturn
    obtain rfl := code_of_refused hrefused hcode
    have hsize : sizeofPointer * 2 ^ extendedBits st.hash ≠ 0 := by
      simp [sizeofPointer]
    exact ⟨hgrant, rfl, reported, ⟨_, aError_of_aMallocNULL hsize
      (Nat.mul_mod_right _ _) hnew, hcode⟩, rfl⟩

theorem putItem_blocks {key val : Ptr} {code : ErrorCode}
    (h : putItem E key val st = .ok (code, after)) :
    (E.grants st.world.requests sizeofItem = true ∧
      code = aErrorSuccess ∧ after.blocks = st.blocks.addNode) ∨
    (E.grants st.world.requests sizeofItem = false ∧
      code = aErrorOther ∧ ∃ world,
        RefusalReported E sizeofItem st.world world ∧
        after.blocks = { st.blocks with world := world }) := by
  obtain ⟨⟨item, made⟩, hnew, h⟩ := bind_eq_ok_iff.mp h
  obtain ⟨⟨out, world⟩, hmalloc, hnew⟩ := bind_eq_ok_iff.mp hnew
  have hsize : sizeofItem ≠ 0 := by decide
  rcases aMalloc_cases E hsize st.world with
    ⟨hgrant, hgranted⟩ | ⟨hgrant, refused, hdenied, hrefused⟩
  · left
    rw [hgranted] at hmalloc
    cases hmalloc
    cases hnew
    obtain ⟨added, hadd, hreturn⟩ := bind_eq_ok_iff.mp h
    cases hreturn
    refine ⟨hgrant, rfl, ?_⟩
    calc HashState.blocks { added with
          hash := { added.hash with count := sizeAdd added.hash.count 1 } }
        = added.blocks := rfl
      _ = st.blocks.addNode := addItem_blocks hadd
  · right
    rw [hdenied] at hmalloc
    cases hmalloc
    cases hnew
    obtain ⟨⟨code, reported⟩, hcode, hreturn⟩ := bind_eq_ok_iff.mp h
    cases hreturn
    obtain rfl := code_of_refused hrefused hcode
    exact ⟨hgrant, rfl, reported,
      ⟨_, aError_of_aMalloc hsize hdenied, hcode⟩, rfl⟩

open Relation

theorem aHashPut_blocks {key val : Ptr} {code : ErrorCode}
    (h : aHashPut E key val st = .ok (code, after)) :
    ReflTransGen Blocks.Step st.blocks after.blocks := by
  obtain ⟨must, _, h⟩ := bind_eq_ok_iff.mp h
  obtain ⟨⟨ret, extended⟩, hextend, h⟩ := bind_eq_ok_iff.mp h
  have hfirst : ReflTransGen Blocks.Step st.blocks extended.blocks := by
    cases must with
    | false =>
        cases hextend
        exact .refl
    | true =>
        rcases extend_blocks hextend with
          ⟨_, _, hblocks⟩ | ⟨_, _, world, hreports, hblocks⟩
        · rw [hblocks]
          exact .single (.table _)
        · rw [hblocks]
          exact .single (.report _ world hreports.reports)
  dsimp only at h
  by_cases hret : ret.isSuccess = false
  · rw [if_pos hret] at h
    cases h
    exact hfirst
  · rw [if_neg hret] at h
    apply hfirst.tail
    rcases putItem_blocks h with
      ⟨_, _, hblocks⟩ | ⟨_, _, world, hreports, hblocks⟩
    · rw [hblocks]
      exact .node _
    · rw [hblocks]
      exact .report _ world hreports.reports

theorem aHashClean_blocks (h : aHashClean st = .ok after) :
    after.blocks = st.blocks.clean := by
  obtain ⟨cleaned, hclean, hreturn⟩ := bind_eq_ok_iff.mp h
  cases hreturn
  unfold cleanTable at hclean
  cases htable : st.hash.table with
  | none =>
      rw [htable] at hclean
      cases hclean
      have hnone : st.blocks.table = none := by
        simp only [HashState.blocks, htable, Option.map_none]
      simp only [Blocks.clean, hnone]
      simp only [HashState.blocks, htable]
      rfl
  | some table =>
      rw [htable] at hclean
      obtain ⟨size, _, hclean⟩ := bind_eq_ok_iff.mp hclean
      obtain ⟨entries, _, hclean⟩ := bind_eq_ok_iff.mp hclean
      obtain ⟨freed, hfree, hreturn⟩ := bind_eq_ok_iff.mp hclean
      cases hreturn
      have hblocks := listsFree_blocks hfree
      have hworld : freed.world = st.world := congrArg Blocks.world hblocks
      have hsome : st.blocks.table = some table.addr := by
        simp only [HashState.blocks, htable, Option.map_some]
      simp only [Blocks.clean, hsome]
      calc HashState.blocks { freed with
            hash := { freed.hash with table := none, bits := 0, count := 0 }
            world := freeTable table freed.world }
          = { freed.blocks with
              world := freeTable table freed.world
              table := none } := rfl
        _ = _ := by
            rw [hblocks, hworld]
            rfl

theorem hashStep_blocks {op : HashOp} {out : HashOut}
    (h : hashStep E st op = .ok (out, after)) :
    ReflTransGen Blocks.Step st.blocks after.blocks := by
  cases op with
  | put key val =>
      obtain ⟨⟨code, state⟩, hput, hreturn⟩ := bind_eq_ok_iff.mp h
      cases hreturn
      exact aHashPut_blocks hput
  | get key =>
      obtain ⟨val, _, hreturn⟩ := bind_eq_ok_iff.mp h
      cases hreturn
      exact .refl
  | remove key =>
      obtain ⟨⟨val, state⟩, hremove, hreturn⟩ := bind_eq_ok_iff.mp h
      cases hreturn
      rw [aHashRemove_blocks hremove]
  | delete key =>
      obtain ⟨state, hdelete, hreturn⟩ := bind_eq_ok_iff.mp h
      cases hreturn
      obtain ⟨⟨val, removed⟩, hremove, hfreed⟩ := bind_eq_ok_iff.mp hdelete
      cases hfreed
      rw [← aHashRemove_blocks hremove]
      unfold Ledger.freeVal
      split <;> exact .refl
  | clear =>
      obtain ⟨state, hclean, hreturn⟩ := bind_eq_ok_iff.mp h
      cases hreturn
      rw [aHashClean_blocks hclean]
      exact .single (.clean _)

theorem run_blocks {ops : List HashOp} {config final : HashConfig}
    (h : run (hashStep E) config ops = .ok final) :
    ReflTransGen Blocks.Step config.state.blocks final.state.blocks := by
  have hstep : ∀ (reached : HashConfig) op after,
      ReflTransGen Blocks.Step config.state.blocks
        reached.state.blocks → True →
      reached.step (hashStep E) op = .ok after →
      ReflTransGen Blocks.Step config.state.blocks after.state.blocks := by
    intro reached op after hreached _ hafter
    obtain ⟨out, hcall, _⟩ := Config.step_eq_ok_iff.mp hafter
    exact hreached.trans (hashStep_blocks hcall)
  exact inv_of_run hstep .refl (meets_of_forall (fun _ _ _ => trivial) _) h

end Steps

section Account

variable {b b' : Blocks} {block : Option Addr} {w : World} {a : Addr}
  {times : ℕ}

/-- The blocks of the items are never released, the current table is not
released and every replaced one was released once. -/
structure Blocks.Inv (b : Blocks) : Prop where
  bounded : b.world.Bounded
  nodes : ∀ a ∈ b.itemNodes, b.world.Owns a 0 ∧ a ∉ b.tables
  current : ∀ a, b.table = some a → b.world.Owns a 0 ∧ a ∈ b.tables
  replaced : ∀ a ∈ b.tables, b.table ≠ some a → b.world.Owns a 1

theorem bounded_releaseBlock (h : w.Bounded)
    (hblock : ∀ a, block = some a → a < w.requests) :
    (releaseBlock block w).Bounded := by
  cases block with
  | none => exact h
  | some a => exact h.release (hblock a rfl)

theorem owns_releaseBlock (h : w.Owns a times) (hne : block ≠ some a) :
    (releaseBlock block w).Owns a times := by
  cases block with
  | none => exact h
  | some old =>
      apply h.release_of_ne
      intro heq
      exact hne (congrArg some heq)

theorem Blocks.Inv.table_obtained (h : b.Inv) (ha : a ∈ b.tables) :
    a < b.world.requests := by
  by_cases hcurrent : b.table = some a
  · exact (h.current a hcurrent).1.obtained
  · exact (h.replaced a ha hcurrent).obtained

theorem Blocks.Inv.addNode (h : b.Inv) : b.addNode.Inv := by
  constructor
  · exact h.bounded.obtain
  · intro a ha
    rcases List.mem_append.mp ha with hold | hnew
    · obtain ⟨howns, htables⟩ := h.nodes a hold
      exact ⟨howns.obtain, htables⟩
    · rw [List.mem_singleton.mp hnew]
      exact ⟨h.bounded.owns_new, fun hmem =>
        lt_irrefl _ (h.table_obtained hmem)⟩
  · intro a ha
    obtain ⟨howns, htables⟩ := h.current a ha
    exact ⟨howns.obtain, htables⟩
  · intro a ha hne
    exact (h.replaced a ha hne).obtain

theorem Blocks.Inv.released (h : b.Inv)
    (hworld : w = b.world ∨
      w = { b.world with requests := b.world.requests + 1 }) :
    (releaseBlock b.table w).Bounded ∧
      (∀ a ∈ b.itemNodes, (releaseBlock b.table w).Owns a 0) ∧
      ∀ a ∈ b.tables, (releaseBlock b.table w).Owns a 1 := by
  have howns : ∀ a times, b.world.Owns a times → w.Owns a times := by
    intro a times ha
    rcases hworld with heq | heq
    · rw [heq]
      exact ha
    · rw [heq]
      exact ha.obtain
  have hbounded : w.Bounded := by
    rcases hworld with heq | heq
    · rw [heq]
      exact h.bounded
    · rw [heq]
      exact h.bounded.obtain
  refine ⟨?_, ?_, ?_⟩
  · apply bounded_releaseBlock hbounded
    intro a ha
    exact (howns a 0 (h.current a ha).1).obtained
  · intro a ha
    obtain ⟨hnode, htables⟩ := h.nodes a ha
    apply owns_releaseBlock (howns a 0 hnode)
    intro heq
    exact htables (h.current a heq).2
  · intro a ha
    by_cases hcurrent : b.table = some a
    · rw [hcurrent]
      exact (howns a 0 (h.current a hcurrent).1).release_self
    · exact owns_releaseBlock (howns a 1 (h.replaced a ha hcurrent)) hcurrent

theorem Blocks.Inv.addTable (h : b.Inv) : b.addTable.Inv := by
  obtain ⟨hbounded, hnodes, htables⟩ := h.released (.inr rfl)
  have hfresh : ∀ a, b.table = some a → a ≠ b.world.requests :=
    fun a ha => (h.current a ha).1.obtained.ne
  constructor
  · exact hbounded
  · intro a ha
    refine ⟨hnodes a ha, ?_⟩
    intro hmem
    obtain ⟨howns, hnot⟩ := h.nodes a ha
    rcases List.mem_append.mp hmem with hold | hnew
    · exact hnot hold
    · exact howns.obtained.ne (List.mem_singleton.mp hnew)
  · intro a ha
    cases ha
    refine ⟨?_, List.mem_append_right _ (List.mem_singleton_self _)⟩
    apply owns_releaseBlock h.bounded.owns_new
    intro heq
    exact hfresh _ heq rfl
  · intro a ha hne
    rcases List.mem_append.mp ha with hold | hnew
    · exact htables a hold
    · rw [List.mem_singleton.mp hnew] at hne
      exact absurd rfl hne

theorem Blocks.Inv.clean (h : b.Inv) : b.clean.Inv := by
  obtain ⟨hbounded, hnodes, htables⟩ := h.released (.inl rfl)
  exact ⟨hbounded, fun a ha => ⟨hnodes a ha, (h.nodes a ha).2⟩, nofun,
    fun a ha _ => htables a ha⟩

theorem Blocks.Inv.report (h : b.Inv) {world : World}
    (hreports : Reports b.world world) :
    Blocks.Inv { b with world := world } where
  bounded := hreports.bounded h.bounded
  nodes := fun a ha => ⟨hreports.owns (h.nodes a ha).1, (h.nodes a ha).2⟩
  current := fun a ha =>
    ⟨hreports.owns (h.current a ha).1, (h.current a ha).2⟩
  replaced := fun a ha hne => hreports.owns (h.replaced a ha hne)

theorem Blocks.Inv.step (h : b.Inv) (hstep : b.Step b') :
    b'.Inv ∧ b.itemNodes <+: b'.itemNodes := by
  cases hstep with
  | node => exact ⟨h.addNode, List.prefix_append _ _⟩
  | table => exact ⟨h.addTable, List.prefix_rfl⟩
  | clean => exact ⟨h.clean, List.prefix_rfl⟩
  | report world hreports => exact ⟨h.report hreports, List.prefix_rfl⟩

theorem Blocks.Inv.steps (h : b.Inv)
    (hsteps : Relation.ReflTransGen Blocks.Step b b') :
    b'.Inv ∧ b.itemNodes <+: b'.itemNodes := by
  induction hsteps with
  | refl => exact ⟨h, List.prefix_rfl⟩
  | tail _ hstep ih =>
      obtain ⟨hinv, hprefix⟩ := ih.1.step hstep
      exact ⟨hinv, ih.2.trans hprefix⟩

end Account

section Release

/-- The blocks of items that were not released. -/
def HashState.unreleasedNodes (st : HashState) : List Addr :=
  st.ledger.itemNodes.filter (· ∉ st.world.released)

/-- There are as many unreleased blocks of items as entries. -/
def NodesMatch (_ : HashConfig) (_ : HashOp) (after : HashConfig) : Prop :=
  ∃ entries, HoldsEntries after.state entries ∧
    after.state.unreleasedNodes.length = entries.card

/-- Every block obtained for an item or a table was released once. -/
def AllReleased (st : HashState) : Prop :=
  ∀ a ∈ st.ledger.itemNodes ++ st.ledger.tables,
    st.world.released.count a = 1

/-- What the calls and a clean after them should do with the blocks. -/
def ReleasesAll (E : Env) (config : HashConfig) (ops : List HashOp) : Prop :=
  Keeps (hashStep E) NodesMatch config (ops ++ [.clear]) ∧
    ∃ final, run (hashStep E) config (ops ++ [.clear]) = .ok final ∧
      AllReleased final.state

/-- A key is looked for after some put succeeded. -/
def LooksAfterPut (config : HashConfig) (op : HashOp) : Prop :=
  op.looksUp = true → ∃ key val code,
    (.put key val, .code code) ∈ config.transcript ∧ code.isSuccess = true

/-- The put does not get its item: a table with a slot, which every put
asks for until one has succeeded, is refused or the item after it is. -/
def NodeRefused (E : Env) (config : HashConfig) : HashOp → Prop
  | .put _ _ => E.grants config.state.world.requests sizeofPointer = true →
      E.grants (config.state.world.requests + 1) sizeofItem = false
  | _ => True

/-- No put has got its item yet. -/
structure Unused (calls : Callbacks) (config : HashConfig) : Prop where
  linked : HashLinked calls config.state 0
  count_eq : config.state.hash.count = 0
  nodes_eq : config.state.ledger.itemNodes = []
  blocks : config.state.blocks.Inv
  failed : ∀ key val code, (.put key val, .code code) ∈ config.transcript →
    code.isSuccess = false

theorem unused_init (calls : Callbacks) (items : Addr → Option AHashItem)
    (keyFreed valFreed : List Ptr) {world : World} (hworld : world.Bounded) :
    Unused calls (Config.initial
      ⟨aHashInit calls, items, ⟨keyFreed, valFreed, [], []⟩, world⟩) where
  linked := .init calls items _ world
  count_eq := rfl
  nodes_eq := rfl
  blocks := ⟨hworld, nofun, nofun, nofun⟩
  failed := nofun

variable {config : HashConfig} {op : HashOp}

/-- The first put to get its item needs a table and the item. -/
theorem aHashPut_unused (hcount : st.hash.count = 0) (hbits : st.hash.bits = 0)
    {key val : Ptr} {code : ErrorCode}
    (h : aHashPut E key val st = .ok (code, after)) :
    (E.grants st.world.requests sizeofPointer = true ∧
      E.grants (st.world.requests + 1) sizeofItem = true ∧
      after.ledger.itemNodes ≠ []) ∨
    ((E.grants st.world.requests sizeofPointer = true →
        E.grants (st.world.requests + 1) sizeofItem = false) ∧
      code = aErrorOther ∧
      after.ledger.itemNodes = st.ledger.itemNodes) := by
  obtain ⟨must, hmust, h⟩ := bind_eq_ok_iff.mp h
  rw [mustExtend, if_pos hcount] at hmust
  cases hmust
  obtain ⟨⟨ret, extended⟩, hextend, h⟩ := bind_eq_ok_iff.mp h
  dsimp only at h
  have hsize : sizeofPointer * 2 ^ extendedBits st.hash = sizeofPointer := by
    simp [extendedBits, hcount, hbits]
  have hextended := extend_blocks hextend
  rw [hsize] at hextended
  rcases hextended with
    ⟨hgrant, hret, hblocks⟩ | ⟨hgrant, hret, world, _, hblocks⟩
  · subst hret
    rw [isSuccess_aErrorSuccess, if_neg (by decide)] at h
    have hrequests : extended.world.requests = st.world.requests + 1 := by
      calc extended.world.requests
          = st.blocks.addTable.world.requests :=
            congrArg (fun b => b.world.requests) hblocks
        _ = st.world.requests + 1 := Blocks.addTable_requests _
    have hnodes : extended.ledger.itemNodes = st.ledger.itemNodes :=
      congrArg Blocks.itemNodes hblocks
    have hitem := putItem_blocks h
    rw [hrequests] at hitem
    rcases hitem with
      ⟨hgrantItem, _, hblocks'⟩ | ⟨hgrantItem, hcode, world, _, hblocks'⟩
    · left
      have hadded : after.ledger.itemNodes =
          extended.ledger.itemNodes ++ [extended.world.requests] :=
        congrArg Blocks.itemNodes hblocks'
      refine ⟨hgrant, hgrantItem, ?_⟩
      rw [hadded]
      simp
    · right
      have hsame : after.ledger.itemNodes = extended.ledger.itemNodes :=
        congrArg Blocks.itemNodes hblocks'
      exact ⟨fun _ => hgrantItem, hcode, hsame.trans hnodes⟩
  · right
    subst hret
    rw [isSuccess_aErrorOther, if_pos rfl] at h
    cases h
    refine ⟨?_, rfl, congrArg Blocks.itemNodes hblocks⟩
    intro hgranted
    rw [hgrant] at hgranted
    cases hgranted

theorem Unused.kept (h : Unused calls config) {out : HashOut}
    {state : HashState} (hcall : hashStep E config.state op = .ok (out, state))
    (hlinked : HashLinked calls state 0) (hcount : state.hash.count = 0)
    (hnodes : state.ledger.itemNodes = [])
    (hfailed : ∀ key val code, op = .put key val → out = .code code →
      code.isSuccess = false) :
    Unused calls ⟨state, config.transcript ++ [(op, out)]⟩ := by
  refine ⟨hlinked, hcount, hnodes, (h.blocks.steps (hashStep_blocks hcall)).1,
    ?_⟩
  intro key val code hmem
  rcases List.mem_append.mp hmem with hold | hnew
  · exact h.failed key val code hold
  · have hsame := List.mem_singleton.mp hnew
    rw [Prod.mk.injEq] at hsame
    exact hfailed key val code hsame.1.symm hsame.2.symm

theorem Unused.put (h : Unused calls config) (key val : Ptr) :
    ∃ after, config.step (hashStep E) (.put key val) = .ok after ∧
      (NodeRefused E config (.put key val) → Unused calls after) ∧
      (¬ NodeRefused E config (.put key val) →
        after.state.ledger.itemNodes ≠ []) := by
  have hbits := h.linked.bits_of_zero h.count_eq
  have hlt : config.state.hash.count < 2 ^ 30 := by
    rw [h.count_eq]
    decide
  obtain ⟨code, state, entries', hput, houtcome⟩ :=
    aHashPut_linked (E := E) h.linked hlt key val
  have hcall : hashStep E config.state (.put key val) =
      .ok (.code code, state) := by
    rw [hashStep, hput]
    rfl
  refine ⟨_, Config.step_of_ok hcall, ?_⟩
  rcases aHashPut_unused h.count_eq hbits hput with
    ⟨hgrant, hgrantItem, hnodes⟩ | ⟨hrefused, hcode, hnodes⟩
  · refine ⟨?_, fun _ => hnodes⟩
    intro hrefused
    rw [hrefused hgrant] at hgrantItem
    cases hgrantItem
  · refine ⟨fun _ => ?_, fun hnot => absurd hrefused hnot⟩
    rw [h.nodes_eq] at hnodes
    subst hcode
    cases houtcome with
    | failed _ _ hrearranged _ =>
        have hcard := hrearranged.reworked.card_le
        rw [Multiset.card_zero, Nat.le_zero, Multiset.card_eq_zero] at hcard
        have hlinked := hrearranged.linked
        rw [hcard] at hlinked
        apply h.kept hcall hlinked _ hnodes
        · intro _ _ code _ hout
          cases hout
          rfl
        · rw [hrearranged.count_eq, h.count_eq]

theorem Unused.clear (h : Unused calls config) :
    ∃ after, config.step (hashStep E) .clear = .ok after ∧
      Unused calls after ∧ AllReleased after.state := by
  obtain ⟨order, items, horder, hclean⟩ := aHashClean_eq h.linked
  rw [Multiset.coe_eq_zero] at horder
  subst horder
  have hcall : hashStep E config.state .clear = .ok (.unit, {
      hash := aHashInit calls
      items := items
      ledger := config.state.ledger
      world := releaseTable config.state.hash.table config.state.world }) := by
    rw [hashStep, hclean]
    rfl
  have hunused := h.kept hcall (.init calls items _ _) rfl h.nodes_eq
    (fun _ _ _ hop => by cases hop)
  refine ⟨_, Config.step_of_ok hcall, hunused, ?_⟩
  intro a ha
  change a ∈ config.state.ledger.itemNodes ++ config.state.ledger.tables at ha
  rw [h.nodes_eq] at ha
  exact (hunused.blocks.replaced a ha (Option.some_ne_none a).symm).count

theorem Unused.step (h : Unused calls config)
    (hlooks : LooksAfterPut config op) :
    ∃ after, config.step (hashStep E) op = .ok after ∧
      (NodeRefused E config op → Unused calls after) ∧
      (¬ NodeRefused E config op → after.state.ledger.itemNodes ≠ []) := by
  have hnone : ¬ op.looksUp = true := by
    intro hlooksUp
    rcases hlooks hlooksUp with ⟨key, val, code, hmem, hcode⟩
    rw [h.failed key val code hmem] at hcode
    cases hcode
  cases op with
  | put key val => exact h.put key val
  | get key => exact absurd rfl hnone
  | remove key => exact absurd rfl hnone
  | delete key => exact absurd rfl hnone
  | clear =>
      obtain ⟨after, hstep, hunused, _⟩ := h.clear (E := E)
      exact ⟨after, hstep, fun _ => hunused, fun hnot => absurd trivial hnot⟩

theorem Unused.nodesMatch (h : Unused calls config) (before : HashConfig) :
    NodesMatch before op config := by
  refine ⟨0, h.linked.holds, ?_⟩
  rw [HashState.unreleasedNodes, h.nodes_eq]
  rfl

/-- Once a put has got its item its block is never released. -/
theorem not_allReleased {final : HashConfig} {ops : List HashOp}
    (h : config.state.blocks.Inv) (hnodes : config.state.ledger.itemNodes ≠ [])
    (hrun : run (hashStep E) config ops = .ok final) :
    ¬ AllReleased final.state := by
  intro hall
  obtain ⟨hinv, hprefix⟩ := h.steps (run_blocks hrun)
  obtain ⟨a, ha⟩ := List.exists_mem_of_ne_nil _ hnodes
  have hmem : a ∈ final.state.ledger.itemNodes := hprefix.subset ha
  have hzero : final.state.world.released.count a = 0 :=
    (hinv.nodes a hmem).1.count
  have hone := hall a (List.mem_append_left _ hmem)
  omega

theorem Unused.releasesAll_iff (h : Unused calls config) {ops : List HashOp}
    (hlooks : Meets (hashStep E) LooksAfterPut config ops) :
    ReleasesAll E config ops ↔ Meets (hashStep E) (NodeRefused E) config ops := by
  induction ops generalizing config with
  | nil =>
      obtain ⟨after, hstep, hunused, hall⟩ := h.clear (E := E)
      refine ⟨fun _ => trivial, fun _ => ⟨⟨after, hstep,
        hunused.nodesMatch config, trivial⟩, after, ?_, hall⟩⟩
      simp only [List.nil_append, run, hstep]
  | cons op rest ih =>
      rcases hlooks with ⟨hop, hrest⟩
      obtain ⟨after, hstep, hrefused, hgranted⟩ := h.step (E := E) hop
      have hrun : ∀ final, run (hashStep E) config ((op :: rest) ++ [.clear]) =
          .ok final ↔ run (hashStep E) after (rest ++ [.clear]) =
            .ok final := by
        intro final
        rw [List.cons_append, run_cons_eq_ok_iff, hstep]
        simp only [Except.ok.injEq, exists_eq_left']
      constructor
      · intro hreleases
        rcases hreleases with ⟨⟨other, hother, _, hkeeps⟩, final, hfinal,
          hall⟩
        have hsame := Config.step_unique hstep hother
        subst hsame
        rw [hrun] at hfinal
        have hcondition : NodeRefused E config op := by
          by_contra hnot
          obtain ⟨out, hcall, _⟩ := Config.step_eq_ok_iff.mp hstep
          exact not_allReleased (h.blocks.steps (hashStep_blocks hcall)).1
            (hgranted hnot) hfinal hall
        refine ⟨hcondition, fun other hother => ?_⟩
        have hsame := Config.step_unique hstep hother
        subst hsame
        exact (ih (hrefused hcondition) (hrest after hstep)).mp
          ⟨hkeeps, final, hfinal, hall⟩
      · intro hmeets
        rcases hmeets with ⟨hcondition, hmeets⟩
        have hunused := hrefused hcondition
        obtain ⟨hkeeps, final, hfinal, hall⟩ :=
          (ih hunused (hrest after hstep)).mpr (hmeets after hstep)
        exact ⟨⟨after, hstep, hunused.nodesMatch config, hkeeps⟩, final,
          (hrun final).mpr hfinal, hall⟩

end Release

/-- A table releases all it obtained, and its items when they are gone, exactly
in the runs in which no put gets its item: no function releases the block of
one. -/
theorem aHash_releasesAll_iff (E : Env) (calls : Callbacks)
    (items : Addr → Option AHashItem) (keyFreed valFreed : List Ptr)
    (world : World) (hworld : world.Bounded) (ops : List HashOp)
    (hlooks : Meets (hashStep E) LooksAfterPut (Config.initial
      ⟨aHashInit calls, items, ⟨keyFreed, valFreed, [], []⟩, world⟩) ops) :
    ReleasesAll E (Config.initial
        ⟨aHashInit calls, items, ⟨keyFreed, valFreed, [], []⟩, world⟩) ops ↔
      Meets (hashStep E) (NodeRefused E) (Config.initial
        ⟨aHashInit calls, items, ⟨keyFreed, valFreed, [], []⟩, world⟩) ops :=
  (unused_init calls items keyFreed valFreed hworld).releasesAll_iff hlooks

/-- One put, whose table is granted and whose item is refused. -/
theorem aHash_releasesAll_run :
    ReleasesAll (refusingEnv 1) (Config.initial
      ⟨aHashInit wordCalls, fun _ => none, blankLedger, blankWorld⟩)
      [.put 1 10] := by
  apply (aHash_releasesAll_iff (refusingEnv 1) wordCalls (fun _ => none) [] []
    blankWorld ⟨nofun, nofun⟩ [.put 1 10] ?_).mpr
  · exact ⟨fun _ => rfl, fun _ _ => trivial⟩
  · exact ⟨Bool.noConfusion, fun _ _ => trivial⟩

/-- The block of a stored item is still there after the clean. -/
theorem aHash_releasesAll_fails :
    ¬ ReleasesAll (filledEnv 0) (Config.initial
      ⟨aHashInit wordCalls, fun _ => none, blankLedger, blankWorld⟩)
      [.put 1 10] := by
  intro hreleases
  rcases hreleases with ⟨_, final, hrun, hall⟩
  cases hrun
  exact absurd (hall 1 (by decide)) (by decide)

/-- What a table gives back in any run that ends in a clean. -/
theorem aHash_blocks_released (E : Env) (calls : Callbacks)
    (items : Addr → Option AHashItem) (keyFreed valFreed : List Ptr)
    (world : World) (hworld : world.Bounded) (ops : List HashOp)
    (final : HashConfig)
    (hrun : run (hashStep E) (Config.initial
      ⟨aHashInit calls, items, ⟨keyFreed, valFreed, [], []⟩, world⟩)
      (ops ++ [.clear]) = .ok final) :
    (∀ a ∈ final.state.ledger.tables,
      final.state.world.released.count a = 1) ∧
    ∀ a ∈ final.state.ledger.itemNodes,
      final.state.world.released.count a = 0 := by
  have hinit := (unused_init calls items keyFreed valFreed hworld).blocks
  have hinv := (hinit.steps (run_blocks hrun)).1
  have hnone : final.state.blocks.table = none := by
    obtain ⟨reached, _, hclear⟩ := run_append_eq_ok_iff.mp hrun
    obtain ⟨after, hstep, hend⟩ := run_cons_eq_ok_iff.mp hclear
    cases hend
    obtain ⟨out, hcall, _⟩ := Config.step_eq_ok_iff.mp hstep
    obtain ⟨state, hclean, hreturn⟩ := bind_eq_ok_iff.mp hcall
    cases hreturn
    rw [aHashClean_blocks hclean]
    rfl
  constructor
  · intro a ha
    exact (hinv.replaced a ha (hnone ▸ (Option.some_ne_none a).symm)).count
  · intro a ha
    exact (hinv.nodes a ha).1.count

end Hash
end Alib
