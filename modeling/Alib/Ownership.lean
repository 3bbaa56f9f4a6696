import Alib.KeyedMap

/-!
# Accounts of what a collection owns

A collection takes over the keys and values of successful puts; it hands
values back when a key is removed and gives the rest to destructors.  The
account of a run is settled when everything taken over is freed, handed back
or still stored, each with its multiplicity.  One rule carries the account
over a call, given the balance of that call alone; the others are its cases
for each kind of call.
-/

namespace Alib
namespace Ownership

open Execution KeyedMap

variable {K V C : Type*} [DecidableEq K] [DecidableEq V]

/-- The destructors and pointers of a collection: which codes are successes,
which pointers are null and which destructors are there. -/
structure Terms (K V C : Type*) where
  success : C → Bool
  nullKey : K
  nullVal : V
  keyFree : Bool
  valFree : Bool

variable (T : Terms K V C)

/-- The pair a call hands over, if it succeeds. -/
def Terms.takenBy : MapOp K V × MapOut C V → Option (K × V)
  | (.put key val, .code code) =>
      if T.success code then some (key, val) else none
  | _ => none

/-- The value a call hands back, unless it is null. -/
def Terms.returnedBy : MapOp K V × MapOut C V → Option V
  | (.remove _, .value val) => if val = T.nullVal then none else some val
  | _ => none

def Terms.taken (transcript : List (MapOp K V × MapOut C V)) :
    Multiset (K × V) :=
  (transcript.filterMap T.takenBy : List (K × V))

def Terms.returned (transcript : List (MapOp K V × MapOut C V)) :
    Multiset V :=
  (transcript.filterMap T.returnedBy : List V)

def nonNull {α : Type*} [DecidableEq α] (null : α) (pointers : List α) :
    Multiset α :=
  (pointers.filter (· ≠ null) : List α)

@[simp] theorem nonNull_append {α : Type*} [DecidableEq α] (null : α)
    (first second : List α) :
    nonNull null (first ++ second) =
      nonNull null first + nonNull null second := by
  simp [nonNull]

@[simp] theorem nonNull_cons_null {α : Type*} [DecidableEq α] (null : α)
    (pointers : List α) :
    nonNull null (null :: pointers) = nonNull null pointers := by
  simp [nonNull]

@[simp] theorem nonNull_nil {α : Type*} [DecidableEq α] (null : α) :
    nonNull null [] = 0 := rfl

theorem nonNull_of_forall {α : Type*} [DecidableEq α] {null : α}
    {pointers : List α} (h : ∀ pointer ∈ pointers, pointer ≠ null) :
    nonNull null pointers = pointers := by
  rw [nonNull, List.filter_eq_self.mpr]
  simpa using h

omit [DecidableEq K] [DecidableEq V] in
@[simp] theorem taken_append
    (transcript more : List (MapOp K V × MapOut C V)) :
    T.taken (transcript ++ more) = T.taken transcript + T.taken more := by
  simp [Terms.taken]

omit [DecidableEq K] in
@[simp] theorem returned_append
    (transcript more : List (MapOp K V × MapOut C V)) :
    T.returned (transcript ++ more) =
      T.returned transcript + T.returned more := by
  simp [Terms.returned]

/-- Between these two lists of its arguments a destructor, if it is there, was
called with these pointers and possibly with null. -/
def Passed {α : Type*} [DecidableEq α] (present : Bool) (null : α)
    (before after : List α) (pointers : Multiset α) : Prop :=
  present = true → nonNull null after = nonNull null before + pointers

section Passed

variable {α : Type*} [DecidableEq α] {present : Bool} {null : α}
  {before middle after : List α} {first second : Multiset α}

theorem passed_nothing : Passed present null before before 0 := by
  intro _
  rw [add_zero]

theorem Passed.trans (h : Passed present null before middle first)
    (h' : Passed present null middle after second) :
    Passed present null before after (first + second) := by
  intro hpresent
  rw [h' hpresent, h hpresent, add_assoc]

theorem passed_all {pointers : List α}
    (hafter : after = before ++ if present then pointers else [])
    (hne : ∀ pointer ∈ pointers, pointer ≠ null) :
    Passed present null before after pointers := by
  intro hpresent
  rw [hafter, if_pos hpresent, nonNull_append, nonNull_of_forall hne]

theorem passed_one {pointer : α}
    (hafter : after = before ++ if present then [pointer] else [])
    (hne : pointer ≠ null) :
    Passed present null before after {pointer} := by
  apply passed_all hafter
  intro other hother
  rw [List.mem_singleton.mp hother]
  exact hne

theorem passed_null
    (hafter : after = before ++ if present then [null] else []) :
    Passed present null before after 0 := by
  intro hpresent
  rw [hafter, if_pos hpresent, nonNull_append, nonNull_cons_null,
    nonNull_nil]

end Passed

section Drawn

variable {K V ε : Type*} {keyOf : ε → K} {valOf : ε → V} {Key : K → Prop}
  {Val : V → Prop} {stored stored' more : Multiset ε}
  {keyFreed keyFreed' : List K} {valFreed valFreed' : List V}

/-- The keys and values which are stored, and those the destructors were
called with, are of these kinds. -/
structure Drawn (keyOf : ε → K) (valOf : ε → V) (Key : K → Prop)
    (Val : V → Prop) (stored : Multiset ε) (keyFreed : List K)
    (valFreed : List V) : Prop where
  stored : ∀ e ∈ stored, Key (keyOf e) ∧ Val (valOf e)
  keyFreed : ∀ key ∈ keyFreed, Key key
  valFreed : ∀ val ∈ valFreed, Val val

theorem Drawn.add
    (h : Drawn keyOf valOf Key Val stored keyFreed valFreed)
    (hmore : ∀ e ∈ more, Key (keyOf e) ∧ Val (valOf e)) :
    Drawn keyOf valOf Key Val (stored + more) keyFreed valFreed := by
  refine ⟨?_, h.keyFreed, h.valFreed⟩
  intro e he
  rcases Multiset.mem_add.mp he with hleft | hright
  · exact h.stored e hleft
  · exact hmore e hright

/-- What is stored afterwards has keys and values that were stored before. -/
theorem Drawn.of_sources
    (h : Drawn keyOf valOf Key Val stored keyFreed valFreed)
    (hsources : ∀ e ∈ stored', ∃ old ∈ stored,
      keyOf old = keyOf e ∧ valOf old = valOf e) :
    Drawn keyOf valOf Key Val stored' keyFreed valFreed := by
  refine ⟨?_, h.keyFreed, h.valFreed⟩
  intro e he
  obtain ⟨old, hold, hkey, hval⟩ := hsources e he
  rw [← hkey, ← hval]
  exact h.stored old hold

theorem Drawn.of_subset
    (h : Drawn keyOf valOf Key Val stored keyFreed valFreed)
    (hsubset : ∀ e ∈ stored', e ∈ stored) :
    Drawn keyOf valOf Key Val stored' keyFreed valFreed :=
  h.of_sources fun e he => ⟨e, hsubset e he, rfl, rfl⟩

theorem forall_mem_passed {α : Type*} {P : α → Prop}
    {before pointers : List α} (h : ∀ pointer ∈ before, P pointer)
    {present : Bool} (hpointers : present = true → ∀ pointer ∈ pointers, P pointer) :
    ∀ pointer ∈ before ++ (if present then pointers else []), P pointer := by
  intro pointer hmem
  rcases List.mem_append.mp hmem with hold | hnew
  · exact h pointer hold
  · cases present with
    | false => cases hnew
    | true => exact hpointers rfl pointer hnew

theorem Drawn.freed
    (h : Drawn keyOf valOf Key Val stored keyFreed valFreed)
    {keyFree valFree : Bool} {keys : List K} {vals : List V}
    (hkeyFreed : keyFreed' = keyFreed ++ if keyFree then keys else [])
    (hvalFreed : valFreed' = valFreed ++ if valFree then vals else [])
    (hkeys : keyFree = true → ∀ key ∈ keys, Key key)
    (hvals : valFree = true → ∀ val ∈ vals, Val val) :
    Drawn keyOf valOf Key Val stored keyFreed' valFreed' := by
  rw [hkeyFreed, hvalFreed]
  exact ⟨h.stored, forall_mem_passed h.keyFreed hkeys,
    forall_mem_passed h.valFreed hvals⟩

theorem Drawn.cleared
    (h : Drawn keyOf valOf Key Val stored keyFreed valFreed)
    {keyFree valFree : Bool} {order : List ε}
    (horder : ∀ e ∈ order, e ∈ stored)
    (hkeyFreed : keyFreed' =
      keyFreed ++ if keyFree then order.map keyOf else [])
    (hvalFreed : valFreed' =
      valFreed ++ if valFree then order.map valOf else []) :
    Drawn keyOf valOf Key Val 0 keyFreed' valFreed' := by
  have hempty : Drawn keyOf valOf Key Val 0 keyFreed valFreed :=
    h.of_subset fun e he => absurd he (Multiset.notMem_zero e)
  apply hempty.freed hkeyFreed hvalFreed
  · intro _
    exact List.forall_mem_map.mpr fun e he => (h.stored e (horder e he)).1
  · intro _
    exact List.forall_mem_map.mpr fun e he => (h.stored e (horder e he)).2

theorem Drawn.mono {Key' : K → Prop} {Val' : V → Prop}
    (h : Drawn keyOf valOf Key Val stored keyFreed valFreed)
    (hkey : ∀ key, Key key → Key' key) (hval : ∀ val, Val val → Val' val) :
    Drawn keyOf valOf Key' Val' stored keyFreed valFreed where
  stored := fun e he =>
    ⟨hkey _ (h.stored e he).1, hval _ (h.stored e he).2⟩
  keyFreed := fun key hmem => hkey key (h.keyFreed key hmem)
  valFreed := fun val hmem => hval val (h.valFreed val hmem)

end Drawn

variable {ε : Type*} (keyOf : ε → K) (valOf : ε → V)

/-- Everything taken over is freed, handed back or stored. -/
structure Settled (keyFreed : List K) (valFreed : List V)
    (transcript : List (MapOp K V × MapOut C V)) (stored : Multiset ε) :
    Prop where
  keys : T.keyFree = true →
    (T.taken transcript).map Prod.fst =
      nonNull T.nullKey keyFreed + stored.map keyOf
  vals : T.valFree = true →
    (T.taken transcript).map Prod.snd =
      nonNull T.nullVal valFreed + T.returned transcript +
        stored.map valOf

variable {T}

section Entries

omit [DecidableEq K] [DecidableEq V]

variable {key : K} {val : V} {code : C} {out : MapOut C V}

theorem taken_put (hcode : T.success code = true) :
    T.taken [(.put key val, .code code)] = {(key, val)} := by
  simp [Terms.taken, Terms.takenBy, hcode]

theorem taken_put_failed (hcode : T.success code = false) :
    T.taken [(.put key val, .code code)] = 0 := by
  simp [Terms.taken, Terms.takenBy, hcode]

theorem taken_get : T.taken [(.get key, out)] = 0 := rfl

theorem taken_remove : T.taken [(.remove key, out)] = 0 := rfl

theorem taken_delete : T.taken [(.delete key, out)] = 0 := rfl

theorem taken_clear : T.taken [(.clear, out)] = 0 := rfl

end Entries

section Returned

omit [DecidableEq K]

variable {key : K} {val : V} {out : MapOut C V}

theorem returned_remove (hval : val ≠ T.nullVal) :
    T.returned [(.remove key, (.value val : MapOut C V))] = {val} := by
  simp [Terms.returned, Terms.returnedBy, hval]

theorem returned_remove_null :
    T.returned [(.remove key, (.value T.nullVal : MapOut C V))] = 0 := by
  simp [Terms.returned, Terms.returnedBy]

theorem returned_put : T.returned [(.put key val, out)] = 0 := rfl

theorem returned_get : T.returned [(.get key, out)] = 0 := rfl

theorem returned_delete : T.returned [(.delete key, out)] = 0 := rfl

theorem returned_clear : T.returned [(.clear, out)] = 0 := rfl

end Returned

variable {keyOf valOf}

theorem settled_nil : Settled T keyOf valOf [] [] [] 0 := by
  constructor <;> intro _ <;> rfl

section Rules

variable {keyFreed keyFreed' : List K} {valFreed valFreed' : List V}
  {transcript : List (MapOp K V × MapOut C V)} {stored stored' : Multiset ε}
  {freedKeys : Multiset K} {freedVals : Multiset V}

/-- One call keeps the account settled if its own part of it is. -/
theorem Settled.step {entry : MapOp K V × MapOut C V}
    (h : Settled T keyOf valOf keyFreed valFreed transcript stored)
    (hkeyFreed : Passed T.keyFree T.nullKey keyFreed keyFreed' freedKeys)
    (hvalFreed : Passed T.valFree T.nullVal valFreed valFreed' freedVals)
    (hkeys : (T.taken [entry]).map Prod.fst + stored.map keyOf =
      freedKeys + stored'.map keyOf)
    (hvals : (T.taken [entry]).map Prod.snd + stored.map valOf =
      freedVals + T.returned [entry] + stored'.map valOf) :
    Settled T keyOf valOf keyFreed' valFreed' (transcript ++ [entry])
      stored' := by
  constructor
  · intro hpresent
    rw [taken_append, Multiset.map_add, h.keys hpresent,
      hkeyFreed hpresent, add_assoc, add_comm (stored.map keyOf), hkeys,
      add_assoc]
  · intro hpresent
    rw [taken_append, Multiset.map_add, h.vals hpresent,
      hvalFreed hpresent, returned_append, add_assoc,
      add_comm (stored.map valOf), hvals]
    abel

theorem Settled.kept {entry : MapOp K V × MapOut C V}
    (h : Settled T keyOf valOf keyFreed valFreed transcript stored)
    (hkeyFreed : Passed T.keyFree T.nullKey keyFreed keyFreed' 0)
    (hvalFreed : Passed T.valFree T.nullVal valFreed valFreed' 0)
    (htaken : T.taken [entry] = 0) (hreturned : T.returned [entry] = 0) :
    Settled T keyOf valOf keyFreed' valFreed' (transcript ++ [entry])
      stored := by
  apply h.step hkeyFreed hvalFreed
  · rw [htaken, Multiset.map_zero]
  · rw [htaken, hreturned, Multiset.map_zero, add_zero]

theorem Settled.added {key : K} {val : V} {code : C}
    (h : Settled T keyOf valOf keyFreed valFreed transcript stored)
    (hkeyFreed : Passed T.keyFree T.nullKey keyFreed keyFreed' 0)
    (hvalFreed : Passed T.valFree T.nullVal valFreed valFreed' 0)
    (hcode : T.success code = true) (new : ε) (hkey : keyOf new = key)
    (hval : valOf new = val) :
    Settled T keyOf valOf keyFreed' valFreed'
      (transcript ++ [(.put key val, .code code)]) (new ::ₘ stored) := by
  apply h.step hkeyFreed hvalFreed
  · rw [taken_put hcode, Multiset.map_cons, hkey, zero_add]
    rfl
  · rw [taken_put hcode, Multiset.map_cons, hval, returned_put, zero_add,
      zero_add]
    rfl

variable [DecidableEq ε]

theorem map_split {β : Type*} (f : ε → β) {e : ε} (he : e ∈ stored) :
    stored.map f = f e ::ₘ (stored.erase e).map f := by
  rw [← Multiset.map_cons, Multiset.cons_erase he]

/-- Of the two keys and of the two values one is freed and one is kept. -/
theorem Settled.replaced {key freedKey : K} {val freedVal : V} {code : C}
    (h : Settled T keyOf valOf keyFreed valFreed transcript stored)
    (hkeyFreed :
      Passed T.keyFree T.nullKey keyFreed keyFreed' {freedKey})
    (hvalFreed :
      Passed T.valFree T.nullVal valFreed valFreed' {freedVal})
    (hcode : T.success code = true) {e : ε} (hmem : e ∈ stored) (new : ε)
    (hkeys : ({key} : Multiset K) + {keyOf e} = {freedKey} + {keyOf new})
    (hvals : ({val} : Multiset V) + {valOf e} = {freedVal} + {valOf new}) :
    Settled T keyOf valOf keyFreed' valFreed'
      (transcript ++ [(.put key val, .code code)])
      (new ::ₘ stored.erase e) := by
  apply h.step hkeyFreed hvalFreed
  · rw [taken_put hcode, map_split keyOf hmem, Multiset.map_cons,
      Multiset.map_singleton, ← Multiset.singleton_add (keyOf e),
      ← add_assoc, hkeys, add_assoc, Multiset.singleton_add (keyOf new)]
  · rw [taken_put hcode, map_split valOf hmem, Multiset.map_cons,
      Multiset.map_singleton, returned_put, add_zero,
      ← Multiset.singleton_add (valOf e), ← add_assoc, hvals, add_assoc,
      Multiset.singleton_add (valOf new)]

theorem Settled.removed {key : K}
    (h : Settled T keyOf valOf keyFreed valFreed transcript stored) {e : ε}
    (hmem : e ∈ stored) (hval : valOf e ≠ T.nullVal)
    (hkeyFreed :
      Passed T.keyFree T.nullKey keyFreed keyFreed' {keyOf e})
    (hvalFreed : Passed T.valFree T.nullVal valFreed valFreed' 0) :
    Settled T keyOf valOf keyFreed' valFreed'
      (transcript ++ [(.remove key, .value (valOf e))])
      (stored.erase e) := by
  apply h.step hkeyFreed hvalFreed
  · rw [taken_remove, map_split keyOf hmem]
    simp
  · rw [taken_remove, returned_remove hval, map_split valOf hmem]
    simp

theorem Settled.deleted {key : K}
    (h : Settled T keyOf valOf keyFreed valFreed transcript stored) {e : ε}
    (hmem : e ∈ stored)
    (hkeyFreed :
      Passed T.keyFree T.nullKey keyFreed keyFreed' {keyOf e})
    (hvalFreed :
      Passed T.valFree T.nullVal valFreed valFreed' {valOf e}) :
    Settled T keyOf valOf keyFreed' valFreed'
      (transcript ++ [(.delete key, .unit)]) (stored.erase e) := by
  apply h.step hkeyFreed hvalFreed
  · rw [taken_delete, map_split keyOf hmem]
    simp
  · rw [taken_delete, returned_delete, map_split valOf hmem]
    simp

omit [DecidableEq ε] in
theorem Settled.cleared
    (h : Settled T keyOf valOf keyFreed valFreed transcript stored)
    (hkeyFreed :
      Passed T.keyFree T.nullKey keyFreed keyFreed' (stored.map keyOf))
    (hvalFreed :
      Passed T.valFree T.nullVal valFreed valFreed' (stored.map valOf)) :
    Settled T keyOf valOf keyFreed' valFreed'
      (transcript ++ [(.clear, .unit)]) 0 := by
  apply h.step hkeyFreed hvalFreed
  · rw [taken_clear]
    simp
  · rw [taken_clear, returned_clear]
    simp

end Rules

section Destructors

variable {σ : Type*} {T : Terms K V C}
  {transcript : List (MapOp K V × MapOut C V)}
  {entry : MapOp K V × MapOut C V}

/-- The key of a successful put so far. -/
def Terms.TakenKey (T : Terms K V C)
    (transcript : List (MapOp K V × MapOut C V)) (key : K) : Prop :=
  key ∈ (T.taken transcript).map Prod.fst

/-- The value of a successful put so far. -/
def Terms.TakenVal (T : Terms K V C)
    (transcript : List (MapOp K V × MapOut C V)) (val : V) : Prop :=
  val ∈ (T.taken transcript).map Prod.snd

instance (T : Terms K V C) (transcript : List (MapOp K V × MapOut C V)) :
    DecidablePred (T.TakenKey transcript) := fun _ =>
  inferInstanceAs (Decidable (_ ∈ _))

instance (T : Terms K V C) (transcript : List (MapOp K V × MapOut C V)) :
    DecidablePred (T.TakenVal transcript) := fun _ =>
  inferInstanceAs (Decidable (_ ∈ _))

/-- The destructors have only been called with keys and values of successful
puts.  A removal of a stored key did not call `val_free`, and a deletion of
another key called nothing. -/
structure SeesTaken (T : Terms K V C) (keyFreed : σ → List K)
    (valFreed : σ → List V) (Stored : σ → K → Prop)
    (config : Config σ (MapOp K V) (MapOut C V)) (op : MapOp K V)
    (after : Config σ (MapOp K V) (MapOut C V)) : Prop where
  keys : ∀ key ∈ keyFreed after.state, T.TakenKey after.transcript key
  vals : ∀ val ∈ valFreed after.state, T.TakenVal after.transcript val
  remove_quiet : ∀ key, op = .remove key → Stored config.state key →
    valFreed after.state = valFreed config.state
  delete_quiet : ∀ key, op = .delete key → ¬ Stored config.state key →
    keyFreed after.state = keyFreed config.state ∧
      valFreed after.state = valFreed config.state

omit [DecidableEq K] [DecidableEq V]

theorem Terms.TakenKey.append {key : K} (h : T.TakenKey transcript key)
    (more : List (MapOp K V × MapOut C V)) :
    T.TakenKey (transcript ++ more) key := by
  rw [Terms.TakenKey, taken_append, Multiset.map_add]
  exact Multiset.mem_add.mpr (.inl h)

theorem Terms.TakenVal.append {val : V} (h : T.TakenVal transcript val)
    (more : List (MapOp K V × MapOut C V)) :
    T.TakenVal (transcript ++ more) val := by
  rw [Terms.TakenVal, taken_append, Multiset.map_add]
  exact Multiset.mem_add.mpr (.inl h)

theorem taken_key_val {key : K} {val : V} {code : C}
    (hcode : T.success code = true) :
    T.TakenKey (transcript ++ [(.put key val, .code code)]) key ∧
      T.TakenVal (transcript ++ [(.put key val, .code code)]) val := by
  rw [Terms.TakenKey, Terms.TakenVal, taken_append, taken_put hcode]
  simp

theorem put_of_takenBy {pair : K × V} (h : T.takenBy entry = some pair) :
    entry.1 = .put pair.1 pair.2 := by
  rcases entry with ⟨op, out⟩
  cases op with
  | put key val =>
      cases out with
      | code code =>
          rw [Terms.takenBy] at h
          split at h
          · cases h
            rfl
          · cases h
      | value val => cases h
      | unit => cases h
  | get key => cases h
  | remove key => cases h
  | delete key => cases h
  | clear => cases h

theorem not_takenVal_null
    (h : ∀ op ∈ transcript.map Prod.fst, ∀ key val,
      op = .put key val → val ≠ T.nullVal) :
    ¬ T.TakenVal transcript T.nullVal := by
  intro htaken
  obtain ⟨pair, hpair, hnull⟩ := Multiset.mem_map.mp htaken
  obtain ⟨entry, hentry, hby⟩ :=
    List.mem_filterMap.mp (Multiset.mem_coe.mp hpair)
  exact h entry.1 (List.mem_map_of_mem hentry) pair.1 pair.2
    (put_of_takenBy hby) hnull

theorem Drawn.append {ε : Type*} {keyOf : ε → K} {valOf : ε → V}
    {stored : Multiset ε} {keyFreed : List K} {valFreed : List V}
    (h : Drawn keyOf valOf (T.TakenKey transcript) (T.TakenVal transcript)
      stored keyFreed valFreed)
    (more : List (MapOp K V × MapOut C V)) :
    Drawn keyOf valOf (T.TakenKey (transcript ++ more))
      (T.TakenVal (transcript ++ more)) stored keyFreed valFreed :=
  h.mono (fun _ hkey => hkey.append more) (fun _ hval => hval.append more)

end Destructors

end Ownership
end Alib
