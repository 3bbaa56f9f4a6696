import Mathlib.Tactic

/-!
# Singly linked chains in a memory of nodes

A memory maps addresses to nodes, a node links to at most one other node, and
`IsChain` says that the nodes met from a head pointer up to the end are
exactly the given entries.  An entry is what a node shows without its link,
together with its address, so that relinking and changing a payload are told
apart.  A chain is determined by its head, never meets an address twice, and
survives every write elsewhere.
-/

namespace Alib

/-- How a node is read: its link, and the entry it shows at an address. -/
structure NodeLayout (A N β : Type*) where
  link : N → Option A
  view : A → N → β
  addr : β → A
  addr_view : ∀ a node, addr (view a node) = a

namespace NodeLayout

variable {A N β : Type*} (L : NodeLayout A N β)

def IsChain (mem : A → Option N) : Option A → List β → Prop
  | head, [] => head = none
  | head, entry :: rest =>
      head = some (L.addr entry) ∧
        ∃ node, mem (L.addr entry) = some node ∧
          L.view (L.addr entry) node = entry ∧
          IsChain mem (L.link node) rest

variable {L} {mem mem' : A → Option N} {head : Option A} {entries : List β}

@[simp] theorem isChain_nil : L.IsChain mem head [] ↔ head = none := Iff.rfl

theorem isChain_cons {entry : β} {rest : List β} :
    L.IsChain mem head (entry :: rest) ↔
      head = some (L.addr entry) ∧
        ∃ node, mem (L.addr entry) = some node ∧
          L.view (L.addr entry) node = entry ∧
          L.IsChain mem (L.link node) rest := Iff.rfl

theorem isChain_none : L.IsChain mem none entries ↔ entries = [] := by
  cases entries with
  | nil => simp
  | cons entry rest => simp [isChain_cons]

theorem IsChain.unique {entries' : List β}
    (h : L.IsChain mem head entries) (h' : L.IsChain mem head entries') :
    entries = entries' := by
  induction entries generalizing head entries' with
  | nil =>
      rw [isChain_nil] at h
      subst h
      exact (isChain_none.mp h').symm
  | cons entry rest ih =>
      rcases h with ⟨hhead, node, hnode, hview, hrest⟩
      cases entries' with
      | nil =>
          rw [isChain_nil, hhead] at h'
          cases h'
      | cons entry' rest' =>
          rcases h' with ⟨hhead', node', hnode', hview', hrest'⟩
          have haddr : L.addr entry = L.addr entry' := by
            rw [hhead] at hhead'
            exact Option.some.inj hhead'
          rw [← haddr] at hnode' hview'
          have hsame : node = node' := by
            rw [hnode] at hnode'
            exact Option.some.inj hnode'
          subst hsame
          rw [ih hrest hrest', ← hview, hview']

theorem IsChain.congr
    (hagree : ∀ entry ∈ entries, mem' (L.addr entry) = mem (L.addr entry))
    (h : L.IsChain mem head entries) : L.IsChain mem' head entries := by
  induction entries generalizing head with
  | nil => exact h
  | cons entry rest ih =>
      rcases h with ⟨hhead, node, hnode, hview, hrest⟩
      refine ⟨hhead, node, ?_, hview, ih ?_ hrest⟩
      · rw [hagree entry (by simp), hnode]
      · intro other hother
        exact hagree other (by simp [hother])

theorem isChains_congr {heads : List (Option A)} {lists : List (List β)}
    (h : List.Forall₂ (L.IsChain mem) heads lists)
    (hagree : ∀ entry ∈ lists.flatten,
      mem' (L.addr entry) = mem (L.addr entry)) :
    List.Forall₂ (L.IsChain mem') heads lists := by
  induction h with
  | nil => exact .nil
  | cons hfirst _ ih =>
      rw [List.flatten_cons] at hagree
      exact .cons
        (hfirst.congr fun entry hentry =>
          hagree entry (List.mem_append_left _ hentry))
        (ih fun entry hentry =>
          hagree entry (List.mem_append_right _ hentry))

theorem IsChain.update [DecidableEq A] {a : A} {value : Option N}
    (hnotMem : a ∉ entries.map L.addr)
    (h : L.IsChain mem head entries) :
    L.IsChain (Function.update mem a value) head entries := by
  apply h.congr
  intro entry hentry
  have hne : L.addr entry ≠ a := by
    intro heq
    subst heq
    exact hnotMem (List.mem_map_of_mem hentry)
  simp [hne]

theorem IsChain.node_of_mem (h : L.IsChain mem head entries)
    {entry : β} (hentry : entry ∈ entries) :
    ∃ node, mem (L.addr entry) = some node ∧
      L.view (L.addr entry) node = entry := by
  induction entries generalizing head with
  | nil => cases hentry
  | cons first rest ih =>
      rcases h with ⟨_, node, hnode, hview, hrest⟩
      rcases List.mem_cons.mp hentry with rfl | hmem
      · exact ⟨node, hnode, hview⟩
      · exact ih hrest hmem

theorem IsChain.suffix {first second : List β} {entry : β}
    (h : L.IsChain mem head (first ++ entry :: second)) :
    L.IsChain mem (some (L.addr entry)) (entry :: second) := by
  induction first generalizing head with
  | nil =>
      rcases h with ⟨hhead, hrest⟩
      exact ⟨rfl, hrest⟩
  | cons other rest ih =>
      rcases h with ⟨_, node, _, _, hrest⟩
      exact ih hrest

/-- A chain ends, so it cannot come back to an address. -/
theorem IsChain.nodup (h : L.IsChain mem head entries) :
    (entries.map L.addr).Nodup := by
  induction entries generalizing head with
  | nil => simp
  | cons entry rest ih =>
      have hwhole := h
      rcases h with ⟨hhead, node, _, _, hrest⟩
      rw [List.map_cons, List.nodup_cons]
      refine ⟨fun hmem => ?_, ih hrest⟩
      obtain ⟨other, hother, haddr⟩ := List.mem_map.mp hmem
      obtain ⟨first, second, rfl⟩ := List.append_of_mem hother
      have hsuffix := hrest.suffix
      rw [haddr, ← hhead] at hsuffix
      have hlength := congrArg List.length (hwhole.unique hsuffix)
      simp at hlength
      omega

theorem IsChain.length_le {N β : Type*} {L : NodeLayout ℕ N β}
    {mem : ℕ → Option N} {head : Option ℕ} {entries : List β} {bound : ℕ}
    (h : L.IsChain mem head entries)
    (hbound : ∀ entry ∈ entries, L.addr entry < bound) :
    entries.length ≤ bound := by
  have hsubset : entries.map L.addr ⊆ List.range bound := by
    intro a ha
    obtain ⟨entry, hentry, rfl⟩ := List.mem_map.mp ha
    exact List.mem_range.mpr (hbound entry hentry)
  have hlength := (List.subperm_of_subset h.nodup hsubset).length_le
  simpa using hlength

theorem IsChain.rest {first second : List β} {entry : β} {node : N}
    (h : L.IsChain mem head (first ++ entry :: second))
    (hnode : mem (L.addr entry) = some node) :
    L.IsChain mem (L.link node) second := by
  rcases h.suffix with ⟨_, found, hfound, _, hchain⟩
  rw [hnode] at hfound
  cases hfound
  exact hchain

/-- The entries from one on may be exchanged for any chain which starts at
the same address, if the nodes before them are left as they are. -/
theorem IsChain.replace_suffix {first second rest : List β} {entry : β}
    (h : L.IsChain mem head (first ++ entry :: second))
    (hagree : ∀ other ∈ first, mem' (L.addr other) = mem (L.addr other))
    (hrest : L.IsChain mem' (some (L.addr entry)) rest) :
    L.IsChain mem' head (first ++ rest) := by
  induction first generalizing head with
  | nil =>
      rw [List.nil_append] at h ⊢
      rw [h.1]
      exact hrest
  | cons other before ih =>
      rcases h with ⟨hhead, node, hnode, hview, hchain⟩
      have hsame := hagree other (by simp)
      have hbefore : ∀ e ∈ before, mem' (L.addr e) = mem (L.addr e) := by
        intro e he
        exact hagree e (by simp [he])
      exact ⟨hhead, node, hsame.trans hnode, hview, ih hchain hbefore⟩

theorem IsChain.not_mem_split {first second : List β} {entry : β}
    (h : L.IsChain mem head (first ++ entry :: second)) :
    (∀ other ∈ first, L.addr other ≠ L.addr entry) ∧
      L.addr entry ∉ second.map L.addr := by
  have hnodup := h.nodup
  rw [List.map_append, List.map_cons, List.nodup_append] at hnodup
  constructor
  · intro other hother
    exact hnodup.2.2 _ (List.mem_map_of_mem hother) _ (by simp)
  · exact (List.nodup_cons.mp hnodup.2.1).1

section Update

variable [DecidableEq A] {first second : List β} {entry : β} {next : N}

/-- Writing one node of a chain without moving its link changes one entry. -/
theorem IsChain.replace {node : N} {entry' : β}
    (h : L.IsChain mem head (first ++ entry :: second))
    (hnode : mem (L.addr entry) = some node)
    (hlink : L.link next = L.link node)
    (hview : L.view (L.addr entry) next = entry') :
    L.IsChain (Function.update mem (L.addr entry) (some next)) head
      (first ++ entry' :: second) := by
  rcases h.not_mem_split with ⟨hfirst, hsecond⟩
  have hchain := h.rest hnode
  have haddr : L.addr entry' = L.addr entry := by
    rw [← hview, L.addr_view]
  have hentry : L.IsChain (Function.update mem (L.addr entry) (some next))
      (some (L.addr entry)) (entry' :: second) := by
    rw [← hlink] at hchain
    rw [isChain_cons, haddr]
    exact ⟨rfl, next, by simp, hview, hchain.update hsecond⟩
  exact h.replace_suffix (fun other hother => by simp [hfirst other hother])
    hentry

/-- Writing the link of the node before an entry over it takes the entry out
of the chain. -/
theorem IsChain.unlink {node : N} {prev : β}
    (h : L.IsChain mem head (first ++ prev :: entry :: second))
    (hnode : mem (L.addr entry) = some node)
    (hlink : L.link next = L.link node)
    (hview : L.view (L.addr prev) next = prev) :
    L.IsChain (Function.update mem (L.addr prev) (some next)) head
      (first ++ prev :: second) := by
  rcases h.not_mem_split with ⟨hfirst, hrest⟩
  have hsplit : first ++ prev :: entry :: second =
      (first ++ [prev]) ++ entry :: second := by simp
  have hchain : L.IsChain mem (L.link node) second :=
    (hsplit ▸ h).rest hnode
  have hsecond : L.addr prev ∉ second.map L.addr := by
    intro hmem
    exact hrest (by simp [hmem])
  have hprev : L.IsChain (Function.update mem (L.addr prev) (some next))
      (some (L.addr prev)) (prev :: second) := by
    rw [← hlink] at hchain
    exact ⟨rfl, next, by simp, hview, hchain.update hsecond⟩
  exact h.replace_suffix (fun other hother => by simp [hfirst other hother])
    hprev

/-- Writing a last node at a new address and linking it behind the old last
node, whose view does not change, extends the chain by one entry. -/
theorem IsChain.concat {last : β} {node : N}
    (h : L.IsChain mem head (first ++ [last]))
    (hnode : mem (L.addr entry) = some node)
    (hview : L.view (L.addr entry) node = entry)
    (hend : L.link node = none)
    (hnotMem : L.addr entry ∉ (first ++ [last]).map L.addr)
    (hnext : L.link next = some (L.addr entry))
    (hlast : L.view (L.addr last) next = last) :
    L.IsChain (Function.update mem (L.addr last) (some next)) head
      (first ++ [last, entry]) := by
  have hne : L.addr entry ≠ L.addr last := by
    intro heq
    exact hnotMem (by simp [heq])
  have hentry : Function.update mem (L.addr last) (some next) (L.addr entry) =
      some node := by
    rw [Function.update_of_ne hne, hnode]
  have hsuffix : L.IsChain (Function.update mem (L.addr last) (some next))
      (some (L.addr last)) [last, entry] :=
    ⟨rfl, next, by simp, hlast, hnext, node, hentry, hview, hend⟩
  exact h.replace_suffix
    (fun other hother => by simp [h.not_mem_split.1 other hother]) hsuffix

end Update

end NodeLayout
end Alib
