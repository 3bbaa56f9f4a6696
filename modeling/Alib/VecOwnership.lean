import Alib.VecDeque

/-!
# What a vector frees and what it sums up

Freeing a vector releases every item it obtained once and calls `free` with
the buffers whose flag is set, in the order of the chain.  These are buffers
handed in, all of them when no call was refused.  The sizes of the array which
`a_vec_to_iovec` fills add up to the size the vector keeps.
-/

namespace Alib
namespace Vec

open Execution

/-- The buffers whose flag is set. -/
def flagged (buffers : List Buffer) : List Ptr :=
  (buffers.filter Buffer.freePtr).map Buffer.ptr

def handedIn (history : List VecOp) : List Buffer :=
  history.flatMap VecOp.buffers

section Free

variable {E : Env} {before : World} {st : VecState} {d : Deque}

@[simp] theorem flagged_nil : flagged [] = [] := rfl

theorem flagged_append (first second : List Buffer) :
    flagged (first ++ second) = flagged first ++ flagged second := by
  simp [flagged]

/-- What walking along these items frees. -/
structure Frees (entries : List (Addr × Buffer)) (st after : VecState) :
    Prop where
  vec : after.vec = st.vec
  freedPtrs : after.ledger.freedPtrs =
    st.ledger.freedPtrs ++ flagged (entries.map Prod.snd)
  itemNodes : after.ledger.itemNodes = st.ledger.itemNodes
  released : after.world.released =
    st.world.released ++ entries.map Prod.fst
  requests : after.world.requests = st.world.requests
  gone : ∀ entry ∈ entries, after.items entry.1 = none

theorem aVecItemFree_spec {a : Addr} {item : AVecItem}
    (hitem : st.items a = some item) :
    ∃ after, aVecItemFree a st = .ok after ∧
      Frees [(a, ⟨item.ptr, item.size, item.freePtr⟩)] st after ∧
      after.items = Function.update st.items a none := by
  let ledger : Ledger :=
    if item.freePtr then
      { st.ledger with freedPtrs := st.ledger.freedPtrs ++ [item.ptr] }
    else st.ledger
  let after : VecState := { st with
    items := Function.update st.items a none
    ledger := ledger
    world := { st.world with released := st.world.released ++ [a] } }
  have hcall : aVecItemFree a st = .ok after := by
    simp only [aVecItemFree, load_of_eq hitem, ok_bind, pure_eq_ok]
    rfl
  refine ⟨after, hcall, ⟨rfl, ?_, ?_, rfl, rfl, ?_⟩, rfl⟩
  · cases hfree : item.freePtr with
    | true => simp [after, ledger, hfree, flagged]
    | false => simp [after, ledger, hfree, flagged]
  · cases hfree : item.freePtr with
    | true => simp [after, ledger, hfree]
    | false => simp [after, ledger, hfree]
  · intro entry hentry
    rw [List.mem_singleton.mp hentry]
    exact Function.update_self a none st.items

theorem aVecFreeLoop_spec (entries : List (Addr × Buffer)) {fuel : ℕ}
    {head : Option Addr} (hchain : vecLayout.IsChain st.items head entries)
    (hfuel : entries.length < fuel) :
    ∃ after, aVecFreeLoop fuel head st = .ok after ∧
      Frees entries st after ∧
      ∀ a, a ∉ entries.map Prod.fst → after.items a = st.items a := by
  induction entries generalizing st head fuel with
  | nil =>
      obtain ⟨fuel, rfl⟩ : ∃ n, fuel = n + 1 :=
        Nat.exists_eq_succ_of_ne_zero (by omega)
      rw [NodeLayout.isChain_nil] at hchain
      subst hchain
      refine ⟨st, rfl, ⟨rfl, ?_, rfl, ?_, rfl, ?_⟩, fun _ _ => rfl⟩
      · simp
      · simp
      · intro entry hentry
        cases hentry
  | cons entry rest ih =>
      rw [List.length_cons] at hfuel
      obtain ⟨fuel, rfl⟩ : ∃ n, fuel = n + 1 :=
        Nat.exists_eq_succ_of_ne_zero (by omega)
      have hnodup := hchain.nodup
      rw [List.map_cons, List.nodup_cons] at hnodup
      rcases hchain with ⟨hhead, item, hitem, hview, hrest⟩
      subst hhead
      obtain ⟨st₁, hfreed, hfrees, hitems⟩ := aVecItemFree_spec hitem
      have hentry : (entry.1, (⟨item.ptr, item.size, item.freePtr⟩ : Buffer)) =
          entry := hview
      rw [show (vecLayout.addr entry,
        (⟨item.ptr, item.size, item.freePtr⟩ : Buffer)) = entry from hentry]
        at hfrees
      have hchain₁ : vecLayout.IsChain st₁.items item.next rest := by
        rw [hitems]
        exact hrest.update hnodup.1
      obtain ⟨after, hloop, hafter, hothers⟩ :=
        ih hchain₁ (by omega : rest.length < fuel)
      have hload := load_of_eq hitem
      refine ⟨after, by simp only [aVecFreeLoop, hload, ok_bind, hfreed,
        hloop], ⟨?_, ?_, ?_, ?_, ?_, ?_⟩, ?_⟩
      · rw [hafter.vec, hfrees.vec]
      · rw [hafter.freedPtrs, hfrees.freedPtrs, List.append_assoc,
          ← flagged_append, ← List.map_append, List.singleton_append]
      · rw [hafter.itemNodes, hfrees.itemNodes]
      · rw [hafter.released, hfrees.released]
        simp
      · rw [hafter.requests, hfrees.requests]
      · intro other hother
        rcases List.mem_cons.mp hother with rfl | hrestMem
        · rw [hothers other.1 hnodup.1, hitems]
          simp
        · exact hafter.gone other hrestMem
      · intro a ha
        rw [List.map_cons, List.mem_cons, not_or] at ha
        rw [hothers a ha.2, hitems]
        exact Function.update_of_ne ha.1 _ _

theorem aVecFree_spec (h : Represents before st d) :
    ∃ entries after, Consists before st entries ∧
      entries.map Prod.snd = d.buffers ∧
      aVecFree st = .ok after ∧ Frees entries st after := by
  rcases h with ⟨entries, hconsists, hbuffers, _⟩
  have hfuel : entries.length < st.fuel :=
    Nat.lt_succ_of_le (hconsists.chain.length_le hconsists.bound)
  obtain ⟨after, hfree, hfrees, _⟩ :=
    aVecFreeLoop_spec entries hconsists.chain hfuel
  exact ⟨entries, after, hconsists, hbuffers, hfree, hfrees⟩

/-- The head is left pointing to a released item. -/
theorem aVecFree_again {after : VecState} {entries : List (Addr × Buffer)}
    (hchain : vecLayout.IsChain st.items st.vec.head entries)
    (hne : entries ≠ []) (hfrees : Frees entries st after) :
    aVecFree after = .error .danglingPointer := by
  obtain ⟨entry, rest, rfl⟩ := List.exists_cons_of_ne_nil hne
  have hhead : after.vec.head = some entry.1 := by
    rw [hfrees.vec, hchain.1]
    rfl
  have hgone := hfrees.gone entry (by simp)
  have hload : load after.items (some entry.1) = .error .danglingPointer := by
    simp [load, hgone]
  simp only [aVecFree, VecState.fuel, hhead, aVecFreeLoop, hload, error_bind]

end Free

section Handed

variable {E : Env} {d : Deque} {buffers : List Buffer}

theorem addBack_subperm (buffers : List Buffer) (d : Deque) :
    ((addBack E buffers d).2.buffers).Subperm (d.buffers ++ buffers) := by
  apply List.Sublist.subperm
  exact (List.Sublist.refl _).append (List.take_sublist _ _)

theorem addFront_subperm (buffers : List Buffer) (d : Deque) :
    ((addFront E buffers d).2.buffers).Subperm (d.buffers ++ buffers) := by
  have hperm : (buffers ++ d.buffers).Perm (d.buffers ++ buffers) :=
    List.perm_append_comm
  have hkept : (addFront E buffers d).2.buffers.Sublist
      (buffers ++ d.buffers) :=
    (List.drop_sublist _ _).append (List.Sublist.refl _)
  exact hkept.subperm.trans hperm.subperm

theorem addBack_perm (h : (addBack E buffers d).1 = true) :
    ((addBack E buffers d).2.buffers).Perm (d.buffers ++ buffers) := by
  have hkept : granted E d.requests buffers.length = buffers.length := by
    simpa [addBack] using h
  simp [addBack, hkept]

theorem addFront_perm (h : (addFront E buffers d).1 = true) :
    ((addFront E buffers d).2.buffers).Perm (d.buffers ++ buffers) := by
  have hkept : granted E d.requests buffers.length = buffers.length := by
    simpa [addFront] using h
  simp only [addFront, hkept, Nat.sub_self, List.drop_zero]
  exact List.perm_append_comm

theorem dequeStep_subperm (op : VecOp) :
    ((dequeStep E d op).2.buffers).Subperm (d.buffers ++ op.buffers) := by
  cases op with
  | prepend | prependIovec | prependIovecs => exact addFront_subperm _ d
  | append | appendIovec | appendIovecs => exact addBack_subperm _ d
  | size | len | toIovec | toIovecAlloc | writev =>
      simp [dequeStep, VecOp.buffers, List.Subperm.refl]

theorem dequeStep_perm (op : VecOp)
    (h : (dequeStep E d op).1 ≠ .vec false) :
    ((dequeStep E d op).2.buffers).Perm (d.buffers ++ op.buffers) := by
  have hreturned : ∀ returned, VecOut.vec returned ≠ .vec false →
      returned = true := by
    intro returned hne
    cases returned with
    | true => rfl
    | false => exact absurd rfl hne
  cases op with
  | prepend | prependIovec | prependIovecs =>
      exact addFront_perm (hreturned _ h)
  | append | appendIovec | appendIovecs =>
      exact addBack_perm (hreturned _ h)
  | size | len | toIovec | toIovecAlloc | writev =>
      simp [dequeStep, VecOp.buffers]

end Handed

section Runs

variable {E : Env} {w : World} {items : Addr → Option AVecItem}
  {ops : List VecOp} {final : VecConfig}

/-- The buffers of the deque were handed in, and all those handed in are there
when no call was refused. -/
structure KeepsHanded (E : Env) (w : World) (config : VecConfig) : Prop where
  represents : Represents w config.state
    (dequeOf E w.requests config.history)
  subperm : (dequeOf E w.requests config.history).buffers.Subperm
    (handedIn config.history)
  perm : (∀ entry ∈ config.transcript, entry.2 ≠ .vec false) →
    (dequeOf E w.requests config.history).buffers.Perm
      (handedIn config.history)

theorem keepsHanded_step {config after : VecConfig} {op : VecOp}
    (h : KeepsHanded E w config)
    (hfits : Fits (dequeOf E w.requests config.history) op)
    (hstep : config.step (vecStep E) op = .ok after) :
    KeepsHanded E w after := by
  obtain ⟨other, hother, ⟨htranscript, hrepresents⟩, _⟩ :=
    dequeCall_step h.represents hfits
  obtain rfl : other = after := Config.step_unique hother hstep
  have hhistory := Config.history_step hstep
  have hhanded : handedIn other.history =
      handedIn config.history ++ op.buffers := by
    rw [hhistory, handedIn, List.flatMap_append, List.flatMap_singleton]
    rfl
  refine ⟨hrepresents, ?_, ?_⟩
  · rw [hhanded, hhistory, dequeOf_append]
    have hgrown := (List.subperm_append_right op.buffers).mpr h.subperm
    exact (dequeStep_subperm op).trans hgrown
  · intro hall
    rw [htranscript] at hall
    have hpast := h.perm fun entry hentry =>
      hall entry (List.mem_append_left _ hentry)
    have hlast := hall _ (List.mem_append_right _ (List.mem_singleton_self _))
    rw [hhanded, hhistory, dequeOf_append]
    exact (dequeStep_perm op hlast).trans (hpast.append_right op.buffers)

theorem keepsHanded_of_run (hfit : AllFit E w ops)
    (hrun : run (vecStep E) (initialConfig items w) ops = .ok final) :
    KeepsHanded E w final := by
  have hstart : KeepsHanded E w (initialConfig items w) :=
    ⟨newVec_represents items w, List.Subperm.refl _,
      fun _ => List.Perm.refl _⟩
  exact inv_of_run (fun _ _ _ => keepsHanded_step) hstart hfit.meets hrun

/-- The vector was freed: every item it obtained was released once and
nothing else was, `free` was called with the flagged buffers in their order,
and freeing the vector again would use a released item. -/
structure Settled (w : World) (before after : VecState)
    (buffers handed : List Buffer) : Prop where
  released : ∃ nodes, after.world.released = w.released ++ nodes ∧
    nodes.Perm before.ledger.itemNodes ∧ nodes.Nodup ∧
    ∀ a ∈ nodes, w.requests ≤ a ∧ after.items a = none
  freedPtrs : after.ledger.freedPtrs = flagged buffers
  handed : after.ledger.freedPtrs.Subperm (flagged handed)
  again : buffers ≠ [] → aVecFree after = .error .danglingPointer

theorem flagged_subperm {first second : List Buffer}
    (h : first.Subperm second) : (flagged first).Subperm (flagged second) := by
  rcases h with ⟨middle, hperm, hsublist⟩
  refine ⟨flagged middle, ?_, ?_⟩
  · exact (hperm.filter _).map _
  · exact (hsublist.filter _).map _

theorem vec_free_settles (E : Env) (items : Addr → Option AVecItem)
    (w : World) (ops : List VecOp) (final : VecConfig)
    (hfit : AllFit E w ops)
    (hrun : run (vecStep E) (initialConfig items w) ops = .ok final) :
    ∃ after, aVecFree final.state = .ok after ∧
      Settled w final.state after (dequeOf E w.requests ops).buffers
        (handedIn ops) ∧
      ((∀ entry ∈ final.transcript, entry.2 ≠ .vec false) →
        after.ledger.freedPtrs.Perm (flagged (handedIn ops))) := by
  have hkeeps := keepsHanded_of_run hfit hrun
  have hhistory : final.history = ops := by
    simpa [initialConfig, Config.history] using history_of_run hrun
  obtain ⟨entries, after, hconsists, hbuffers, hfree, hfrees⟩ :=
    aVecFree_spec hkeeps.represents
  have hfreed : after.ledger.freedPtrs =
      flagged (dequeOf E w.requests ops).buffers := by
    rw [hfrees.freedPtrs, hconsists.freedPtrs, List.nil_append, hbuffers,
      hhistory]
  have hsubperm := hkeeps.subperm
  have hperm := hkeeps.perm
  rw [hhistory] at hsubperm hperm hbuffers
  refine ⟨after, hfree, ⟨⟨entries.map Prod.fst, ?_, hconsists.nodes.symm,
    hconsists.chain.nodup, ?_⟩, hfreed, ?_, ?_⟩, ?_⟩
  · rw [hfrees.released, hconsists.released]
  · intro a ha
    obtain ⟨entry, hentry, rfl⟩ := List.mem_map.mp ha
    exact ⟨hconsists.later entry hentry, hfrees.gone entry hentry⟩
  · rw [hfreed]
    exact flagged_subperm hsubperm
  · intro hne
    apply aVecFree_again hconsists.chain _ hfrees
    intro hempty
    subst hempty
    exact hne hbuffers.symm
  · intro hall
    rw [hfreed]
    exact ((hperm hall).filter _).map _

theorem vec_free_settles_some :
    ∃ final, run (vecStep (firstGranted 3))
        (initialConfig (fun _ => none) emptyWorld) someCalls = .ok final ∧
      ∃ after, aVecFree final.state = .ok after ∧
        Settled emptyWorld final.state after
          (dequeOf (firstGranted 3) emptyWorld.requests someCalls).buffers
          (handedIn someCalls) ∧
        ((∀ entry ∈ final.transcript, entry.2 ≠ .vec false) →
          after.ledger.freedPtrs.Perm (flagged (handedIn someCalls))) :=
  ⟨_, rfl, vec_free_settles (firstGranted 3) (fun _ => none) emptyWorld
    someCalls _ (by decide) rfl⟩

end Runs

section Sizes

variable {E : Env} {w : World} {items : Addr → Option AVecItem}
  {ops : List VecOp} {final : VecConfig}

theorem aIovecSizeEnd_eq (buffers : List Buffer) :
    aIovecSizeEnd (buffers.map Buffer.iovec) = totalSize buffers := by
  induction buffers using List.reverseRecOn with
  | nil => rfl
  | append_singleton buffers buffer ih =>
      rw [totalSize_concat, ← ih]
      simp [aIovecSizeEnd, Buffer.iovec]

/-- After any run, the array that `a_vec_to_iovec` fills has the size the
vector keeps, modulo the width of a `size_t`, and the rest of the caller's
array is left as it was. -/
theorem vec_iovec_size (E : Env) (items : Addr → Option AVecItem)
    (w : World) (ops : List VecOp) (final : VecConfig)
    (hfit : AllFit E w ops)
    (hrun : run (vecStep E) (initialConfig items w) ops = .ok final)
    (iovecs : List Iovec) (hroom : aVecLen final.state ≤ iovecs.length) :
    ∃ written, aVecToIovec final.state iovecs = .ok written ∧
      aIovecSize written (aVecLen final.state) =
        .ok (aVecSize final.state) ∧
      written.length = iovecs.length ∧
      written.drop (aVecLen final.state) =
        iovecs.drop (aVecLen final.state) := by
  have hrepresents := represents_of_run hfit hrun
  have hconsists := hrepresents
  rcases hconsists with ⟨entries, hconsists, hbuffers, _⟩
  generalize dequeOf E w.requests final.history = d at *
  have hlen : aVecLen final.state = d.buffers.length := by
    rw [aVecLen, hconsists.num_eq, ← hbuffers, List.length_map]
  have hsize : aVecSize final.state = totalSize d.buffers := by
    rw [aVecSize, hconsists.size_eq, hbuffers]
  rw [hlen] at hroom ⊢
  refine ⟨_, aVecToIovec_spec hrepresents hroom, ?_, ?_, ?_⟩
  · have htake : (d.buffers.map Buffer.iovec ++
        iovecs.drop d.buffers.length).take d.buffers.length =
        d.buffers.map Buffer.iovec :=
      List.take_left' (List.length_map _)
    rw [aIovecSize, if_pos (by simp), htake, aIovecSizeEnd_eq, hsize]
  · simp
    omega
  · exact List.drop_left' (List.length_map _)

theorem vec_iovec_size_some :
    ∃ final, run (vecStep (firstGranted 3))
        (initialConfig (fun _ => none) emptyWorld) someCalls = .ok final ∧
      ∃ written, aVecToIovec final.state (List.replicate 4 ⟨0, 0⟩) =
          .ok written ∧
        aIovecSize written (aVecLen final.state) =
          .ok (aVecSize final.state) ∧
        written.length = (List.replicate 4 (⟨0, 0⟩ : Iovec)).length ∧
        written.drop (aVecLen final.state) =
          (List.replicate 4 ⟨0, 0⟩).drop (aVecLen final.state) := by
  refine ⟨_, rfl, ?_⟩
  exact vec_iovec_size (firstGranted 3) (fun _ => none) emptyWorld someCalls _
    (by decide) rfl (List.replicate 4 ⟨0, 0⟩) (by decide)

end Sizes

end Vec
end Alib
