import Alib.ErrorRelease
import Alib.HashBlocks

/-!
# A failing put and the error stack

A put that is refused its table or its item reports `ENOMEM`, and asking for
the code of the library reports once more.  Each report requests a node, and
where one is refused the whole error stack is released.  Whether that uses a
node which is not live depends on what other code has pushed before: after
`a_error(stack)` on a stack that is not empty, two paths lead to its nodes.
-/

namespace Alib

open ErrorLog ErrorRelease

section Reports

variable {E : Env} {size : ℕ} {w after : World}

theorem World.Bounded.reaches_lt (h : w.Bounded) {a : Addr}
    (ha : w.globalErrorStack.Reaches a) : a < w.requests :=
  h.stack a ((ErrorStack.mem_freeOrder _ a).mpr ha)

/-- More requests do not change which of the nodes are live. -/
theorem World.Bounded.live_iff (h : w.Bounded)
    (hle : w.requests ≤ after.requests)
    (hreleased : ∀ a, w.globalErrorStack.Reaches a →
      (a ∈ after.released ↔ a ∈ w.released)) :
    w.globalErrorStack.Live after ↔ w.globalErrorStack.Live w := by
  constructor
  · intro hlive a ha
    exact ⟨h.reaches_lt ha, fun hmem =>
      (hlive a ha).2 ((hreleased a ha).mpr hmem)⟩
  · intro hlive a ha
    exact ⟨(hlive a ha).1.trans_le hle, fun hmem =>
      (hlive a ha).2 ((hreleased a ha).mp hmem)⟩

theorem refusedWorld_misused_iff :
    (refusedWorld w).misused = false ↔
      w.misused = false ∧ w.globalErrorStack.Separate ∧
        w.globalErrorStack.Live { w with requests := w.requests + 1 } :=
  aErrorStackFree_misused_iff

/-- The second report releases the node of the first and the old stack. -/
theorem World.Bounded.pushed_live_iff (h : w.Bounded) (code : ErrorCode)
    (mod : ErrorMod) (hmod : mod ≠ .stack) :
    ((pushedWorld mod code w.globalErrorStack w).globalErrorStack.Separate ∧
      (pushedWorld mod code w.globalErrorStack w).globalErrorStack.Live
        { pushedWorld mod code w.globalErrorStack w with
          requests := w.requests + 2 }) ↔
      ReleasedOnce w := by
  have hfresh : ¬ w.globalErrorStack.Reaches w.requests :=
    fun hreach => lt_irrefl _ (h.reaches_lt hreach)
  rw [releasedOnce_iff]
  constructor
  · rintro ⟨⟨hseparate, _⟩, hlive⟩
    refine ⟨hseparate, fun a ha => ⟨h.reaches_lt ha, ?_⟩⟩
    exact (hlive a (Or.inr (Or.inl ha))).2
  · rintro ⟨hseparate, hlive⟩
    refine ⟨⟨hseparate, hfresh, fun heq => absurd heq hmod⟩, ?_⟩
    intro a ha
    rcases ha with heq | hreach | ⟨heq, _⟩
    · subst heq
      refine ⟨Nat.lt_add_of_pos_right (by decide), fun hmem => ?_⟩
      exact lt_irrefl _ (h.released _ hmem)
    · exact ⟨(hlive a hreach).1.trans_le (Nat.le_add_right _ _),
        (hlive a hreach).2⟩
    · exact absurd heq hmod

theorem malloc_of_refused (hrefused : E.grants w.requests size = false) :
    malloc E size w =
      (none, { w with requests := w.requests + 1, errno := enomem }) := by
  simp [malloc, hrefused]

/-- Both nodes that the reports of a refused request ask for are granted. -/
def ReportsGranted (E : Env) (request : ℕ) : Prop :=
  E.grants (request + 1) sizeofErrorStack = true ∧
    E.grants (request + 2) sizeofErrorStack = true

/-- Asking for the code makes a report where another module is on top. -/
theorem world_of_aErrorGetAlibCode {mod : ErrorMod} {code : ErrorCode}
    (htop : w.globalErrorStack.topMod = some mod) (hmod : mod ≠ .alib)
    (h : aErrorGetAlibCode E w = .ok (code, after)) :
    after = if E.grants w.requests sizeofErrorStack then
        pushedWorld .alib aErrorOther w.globalErrorStack w
      else refusedWorld w := by
  have hpush : aErrorCode E .alib aErrorOther w = _ :=
    push_cases (fun hget => by cases hget)
  have hreport : ∀ {code : ErrorCode},
      (aErrorCode E .alib aErrorOther w >>= fun w =>
        (pure (aErrorOther, w) : Except Fault _)) = .ok (code, after) →
      after = if E.grants w.requests sizeofErrorStack then
          pushedWorld .alib aErrorOther w.globalErrorStack w
        else refusedWorld w := by
    intro code hcall
    rw [hpush] at hcall
    exact (congrArg Prod.snd (Except.ok.inj hcall)).symm
  unfold aErrorGetAlibCode at h
  cases hstack : w.globalErrorStack with
  | null => simp [hstack, ErrorStack.topMod] at htop
  | stackAllocError =>
      rw [hstack] at h
      exact hstack ▸ hreport h
  | node addr top recorded ptr =>
      have htopMod : top = mod := by
        simpa [hstack, ErrorStack.topMod] using htop
      subst top
      rw [hstack] at h
      cases mod with
      | alib => exact absurd rfl hmod
      | none => exact hstack ▸ hreport h
      | perror => exact hstack ▸ hreport h
      | stackAlloc => exact hstack ▸ hreport h
      | stack => exact hstack ▸ hreport h
      | user id => exact hstack ▸ hreport h

/-- Reporting a refused request misuses a node exactly if one of its two nodes
is refused and the stack it then releases cannot be released. -/
theorem RefusalReported.misused_iff (hbounded : w.Bounded)
    (hmisused : w.misused = false)
    (hrefused : E.grants w.requests size = false)
    (h : RefusalReported E size w after) :
    after.misused = false ↔
      ReportsGranted E w.requests ∨ ReleasedOnce w := by
  obtain ⟨reported, hreport, hcode⟩ := h
  rw [malloc_of_refused hrefused] at hreport
  let asked : World :=
    { w with requests := w.requests + 1, errno := enomem }
  have hasked : asked.Bounded := ⟨hbounded.obtain.1, hbounded.obtain.2⟩
  have hsame : ReleasedOnce asked ↔ ReleasedOnce w := by
    rw [releasedOnce_iff, releasedOnce_iff]
    exact and_congr_right fun _ =>
      hbounded.live_iff (Nat.le_succ _) fun _ _ => Iff.rfl
  have hreported := Except.ok.inj (hreport.symm.trans
    (@push_cases E .perror true (.value 0) _ fun _ => rfl))
  by_cases hnode : E.grants (w.requests + 1) sizeofErrorStack = true
  · rw [if_pos hnode] at hreported
    subst hreported
    have htop : (pushedWorld .perror (.value enomem) asked.globalErrorStack
        asked).globalErrorStack.topMod = some .perror := rfl
    have hafter := world_of_aErrorGetAlibCode htop (by decide) hcode
    by_cases hlast : E.grants (w.requests + 2) sizeofErrorStack = true
    · have hgranted : ReportsGranted E w.requests := ⟨hnode, hlast⟩
      rw [hafter, pushedWorld, if_pos hlast]
      exact iff_of_true hmisused (Or.inl hgranted)
    · have hnot : ¬ ReportsGranted E w.requests := fun h => hlast h.2
      rw [hafter, pushedWorld, if_neg hlast, refusedWorld_misused_iff, ← hsame,
        or_iff_right hnot, ← hasked.pushed_live_iff _ .perror (by decide)]
      exact and_iff_right hmisused
  · have hnot : ¬ ReportsGranted E w.requests := fun h => hnode h.1
    rw [if_neg hnode] at hreported
    subst hreported
    have htop : (refusedWorld asked).globalErrorStack.topMod =
        some .stackAlloc := rfl
    have hafter := world_of_aErrorGetAlibCode htop (by decide) hcode
    have hfreed : (refusedWorld asked).misused = false ↔ ReleasedOnce w := by
      rw [refusedWorld_misused_iff, ← hsame, releasedOnce_iff]
      exact (and_iff_right hmisused).trans (and_congr_right fun _ =>
        hasked.live_iff (Nat.le_succ _) fun _ _ => Iff.rfl)
    rw [or_iff_right hnot, ← hfreed, hafter]
    split
    · exact Iff.rfl
    · rw [refusedWorld_misused_iff]
      exact and_iff_left ⟨trivial, fun _ ha => ha.elim⟩

end Reports

namespace Hash

open Execution KeyedMap

variable {E : Env} {calls : Callbacks} {st after : HashState}
  {entries : Multiset Entry}

/-- What other code may have done before the call: it made requests and
reports, and it did not put the blocks of the table on the error stack. -/
structure Prior (st : HashState) (w : World) : Prop where
  requests_le : st.world.requests ≤ w.requests
  bounded : w.Bounded
  table : ∀ table, st.hash.table = some table →
    table.addr < w.requests ∧ ¬ w.globalErrorStack.Reaches table.addr
  misused : w.misused = false

/-- The same table in another world. -/
def withWorld (w : World) (st : HashState) : HashState :=
  { st with world := w }

/-- The request of a put that is refused, if one is: that of a table, where the
table is full, or that of the item. -/
def refusedRequest (E : Env) (st : HashState) : Option ℕ :=
  let next := st.world.requests
  if st.hash.count = 0 ∨ 2 ^ st.hash.bits < st.hash.count + 1 then
    if E.grants next (sizeofPointer * 2 ^ extendedBits st.hash) = false then
      some next
    else if E.grants (next + 1) sizeofItem = false then some (next + 1)
    else none
  else if E.grants next sizeofItem = false then some next
  else none

theorem forall_refused_iff {granted : Bool} {next : ℕ} {P : ℕ → Prop} :
    (∀ request, (if granted = false then some next else none) = some request →
      P request) ↔ (granted = false → P next) := by
  cases granted <;> simp

/-- Where a request of the put is refused, both reports get their nodes or the
error stack can be released. -/
def ReportsSafely (E : Env) (st : HashState) : Prop :=
  ∀ request, refusedRequest E st = some request →
    ReportsGranted E request ∨ ReleasedOnce st.world

/-- The put is all or nothing, and no node of an error stack is used that is
not live. -/
def PutAllOrNothing (E : Env) (calls : Callbacks) (st : HashState)
    (key val : Ptr) : Prop :=
  ∃ entries code after, HoldsEntries st entries ∧
    aHashPut E key val st = .ok (code, after) ∧
    AllOrNothing calls st entries key val code after ∧
    after.world.misused = false

/-- Obtaining a larger table and giving the old one back leaves the error
stack as it was. -/
theorem addTable_world (hprior : Prior st st.world) :
    st.blocks.addTable.world.Bounded ∧
      st.blocks.addTable.world.misused = false ∧
      (ReleasedOnce st.blocks.addTable.world ↔ ReleasedOnce st.world) := by
  have hobtained := hprior.bounded.obtain
  rw [releasedOnce_iff, releasedOnce_iff]
  cases htable : st.hash.table with
  | none =>
      have hworld : st.blocks.addTable.world =
          { st.world with requests := st.world.requests + 1 } := by
        simp [Blocks.addTable, HashState.blocks, releaseBlock, htable]
      rw [hworld]
      refine ⟨hobtained, hprior.misused, and_congr_right fun _ => ?_⟩
      exact hprior.bounded.live_iff (Nat.le_succ _) fun _ _ => Iff.rfl
  | some table =>
      have hworld : st.blocks.addTable.world = World.release
          { st.world with requests := st.world.requests + 1 } table.addr := by
        simp [Blocks.addTable, HashState.blocks, releaseBlock, htable]
      obtain ⟨hlt, hnode⟩ := hprior.table table htable
      rw [hworld]
      refine ⟨hobtained.release (Nat.lt_succ_of_lt hlt), hprior.misused,
        and_congr_right fun _ => ?_⟩
      refine hprior.bounded.live_iff (Nat.le_succ _) fun a ha => ?_
      have hne : a ≠ table.addr := fun heq => hnode (heq ▸ ha)
      simp [World.release, hne]

theorem putItem_misused_iff (hbounded : st.world.Bounded)
    (hmisused : st.world.misused = false) {key val : Ptr} {code : ErrorCode}
    (h : putItem E key val st = .ok (code, after)) :
    after.world.misused = false ↔
      (E.grants st.world.requests sizeofItem = false →
        ReportsGranted E st.world.requests ∨ ReleasedOnce st.world) := by
  rcases putItem_blocks h with
    ⟨hgrant, _, hblocks⟩ | ⟨hrefused, _, world, hreported, hblocks⟩
  · have hworld : after.world.misused = st.world.misused :=
      congrArg (fun b => b.world.misused) hblocks
    rw [hworld]
    refine iff_of_true hmisused fun hrefused => ?_
    rw [hgrant] at hrefused
    cases hrefused
  · have hworld : after.world = world := congrArg Blocks.world hblocks
    rw [hworld, hreported.misused_iff hbounded hmisused hrefused]
    exact ⟨fun h _ => h, fun h => h hrefused⟩

theorem aHashPut_misused_iff (h : HashLinked calls st entries)
    (hcount : st.hash.count < 2 ^ 30) (hprior : Prior st st.world)
    {key val : Ptr} {code : ErrorCode}
    (hput : aHashPut E key val st = .ok (code, after)) :
    after.world.misused = false ↔ ReportsSafely E st := by
  obtain ⟨must, hmust, hrest⟩ := bind_eq_ok_iff.mp hput
  obtain ⟨⟨ret, extended⟩, hextend, hrest⟩ := bind_eq_ok_iff.mp hrest
  rw [mustExtend_eq h hcount] at hmust
  cases hmust
  by_cases hfull : st.hash.count = 0 ∨ 2 ^ st.hash.bits < st.hash.count + 1
  · rw [decide_eq_true hfull, extendIf, if_pos rfl] at hextend
    rcases extend_blocks hextend with
      ⟨hgrant, hret, hblocks⟩ | ⟨hrefused, hret, world, hreported, hblocks⟩
    · subst hret
      dsimp only at hrest
      rw [isSuccess_aErrorSuccess, if_neg (by decide)] at hrest
      have hworld : extended.world = st.blocks.addTable.world :=
        congrArg Blocks.world hblocks
      have hrequests : extended.world.requests = st.world.requests + 1 := by
        rw [hworld, Blocks.addTable_requests]
        rfl
      obtain ⟨hbounded, hmisused, hreleased⟩ := addTable_world hprior
      rw [← hworld] at hbounded hmisused hreleased
      rw [putItem_misused_iff hbounded hmisused hrest, hreleased, hrequests]
      simp only [ReportsSafely, refusedRequest, if_pos hfull, hgrant,
        Bool.true_eq_false, if_false]
      exact (forall_refused_iff (P := fun request =>
        ReportsGranted E request ∨ ReleasedOnce st.world)).symm
    · subst hret
      dsimp only at hrest
      rw [isSuccess_aErrorOther, if_pos rfl] at hrest
      cases hrest
      have hworld : after.world = world := congrArg Blocks.world hblocks
      rw [hworld, hreported.misused_iff hprior.bounded hprior.misused hrefused]
      simp only [ReportsSafely, refusedRequest, if_pos hfull, hrefused,
        if_true, Option.some.injEq, forall_eq']
  · rw [decide_eq_false hfull, extendIf, if_neg Bool.false_ne_true] at hextend
    cases hextend
    dsimp only at hrest
    rw [isSuccess_aErrorSuccess, if_neg (by decide)] at hrest
    rw [putItem_misused_iff hprior.bounded hprior.misused hrest]
    simp only [ReportsSafely, refusedRequest, if_neg hfull]
    exact (forall_refused_iff (P := fun request =>
      ReportsGranted E request ∨ ReleasedOnce st.world)).symm

/-- From every state that a run of calls reaches, whatever was pushed before and
whatever the allocator grants, a put is all or nothing without misusing a node
exactly if, where it is refused its table or its item, both reports get their
nodes or the error stack can be released. -/
theorem aHashPut_allOrNothing_iff (E : Env)
    (hsymm : ∀ a b, calls.equalFunc a b = true → calls.equalFunc b a = true)
    (items : Addr → Option AHashItem) (ledger : Ledger) (world : World)
    (ops : List HashOp) (reached : HashConfig)
    (hfew : Meets (hashStep E) (fun config op => FewPuts config.history op)
      (Config.initial ⟨aHashInit calls, items, ledger, world⟩) ops)
    (hrun : run (hashStep E)
      (Config.initial ⟨aHashInit calls, items, ledger, world⟩) ops =
        .ok reached) (hputs : recentPuts reached.history < 2 ^ 30)
    (w : World) (hprior : Prior reached.state w) (key val : Ptr) :
    PutAllOrNothing E calls (withWorld w reached.state) key val ↔
      ReportsSafely E (withWorld w reached.state) := by
  have hinv := inv_of_run (runInv_step hsymm)
    (runInv_init calls items ledger world) hfew hrun
  rcases hinv.exists_inv with ⟨entries, hreached⟩
  have h : HashInv calls (withWorld w reached.state) entries :=
    hreached.withWorld hprior.requests_le
  have hcount : reached.state.hash.count < 2 ^ 30 :=
    lt_of_le_of_lt hinv.count_le hputs
  have hsame : Prior (withWorld w reached.state) w :=
    ⟨le_rfl, hprior.bounded, hprior.table, hprior.misused⟩
  obtain ⟨code, after, hput, houtcome⟩ :=
    aHashPut_spec (E := E) hsymm h hcount key val
  rw [← aHashPut_misused_iff h.linked hcount hsame hput]
  constructor
  · rintro ⟨_, _, other, _, hother, _, hmisused⟩
    obtain rfl : after = other :=
      congrArg Prod.snd (Except.ok.inj (hput.symm.trans hother))
    exact hmisused
  · intro hmisused
    exact ⟨entries, code, after, h.holdsEntries, hput,
      houtcome.allOrNothing h, hmisused⟩

/-- An allocator which refuses every request from one on. -/
def refusingFrom (first : ℕ) : Env where
  grants := fun request _ => decide (request < first)
  garbage := fun _ _ => 0
  userGetcode := fun _ => none

/-- What is left of the world after two puts and `a_error_code(alib, 3)`. -/
def reportedWorld : World where
  requests := 5
  errno := 0
  globalErrorStack := .node 4 .alib (.value 3) .null
  released := [0]
  misused := false

/-- A third put whose item and first report are refused after the table has
grown. -/
theorem aHashPut_allOrNothing_run :
    ∃ reached, run (hashStep (refusingFrom 6))
        (Config.initial
          ⟨aHashInit wordCalls, fun _ => none, blankLedger, blankWorld⟩)
        [.put 1 10, .put 2 20] = .ok reached ∧
      aErrorCode (refusingFrom 6) .alib (.value 3) reached.state.world =
        .ok reportedWorld ∧
      PutAllOrNothing (refusingFrom 6) wordCalls
        (withWorld reportedWorld reached.state) 3 30 := by
  refine ⟨_, rfl, rfl, (aHashPut_allOrNothing_iff (refusingFrom 6)
    wordCalls_lawful.symm (fun _ => none) blankLedger blankWorld
    [.put 1 10, .put 2 20] _ (meets_of_allowed (by decide)) rfl (by decide)
    reportedWorld ?_ 3 30).mpr ?_⟩
  · refine ⟨by decide, ⟨by decide, by decide⟩, ?_, rfl⟩
    intro table htable
    cases htable
    simp [reportedWorld, blankWorld, ErrorStack.Reaches]
  · intro request _
    refine Or.inr (releasedOnce_iff.mpr ⟨?_, ?_⟩)
    · simp [withWorld, reportedWorld, ErrorStack.Separate, ErrorStack.Reaches]
    · intro a ha
      have heq : a = 4 := by
        simpa [withWorld, reportedWorld, ErrorStack.Reaches] using ha
      subst heq
      exact ⟨by decide, by decide⟩

/-- With `a_error_code(alib, 3); a_error(stack)` before the first put, which is
refused its table and the report, the report is released twice. -/
theorem aHashPut_allOrNothing_fails :
    ¬ ∀ w, (aErrorCode (refusingFrom 2) .alib (.value 3) blankWorld >>=
          aError (refusingFrom 2) .stack) = .ok w →
        PutAllOrNothing (refusingFrom 2) wordCalls
          ⟨aHashInit wordCalls, fun _ => none, blankLedger, w⟩ 1 10 := by
  intro h
  obtain ⟨_, _, after, _, hput, _, hmisused⟩ := h _ rfl
  cases hput
  cases hmisused

end Hash
end Alib
