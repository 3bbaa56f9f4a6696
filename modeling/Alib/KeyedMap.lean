import Alib.Execution

/-!
# Finite maps up to an equivalence of keys

The calls on a collection that maps keys to values, the map a sequence of
calls should have built, and when a multiset of entries represents a map.
Keys are told apart only up to an equivalence.  The representation rules say
how inserting, replacing and erasing one entry changes the map.
-/

namespace Alib
namespace KeyedMap

open Execution

inductive MapOp (K V : Type*) where
  | put (key : K) (val : V)
  | get (key : K)
  | remove (key : K)
  | delete (key : K)
  | clear
  deriving DecidableEq, Repr

inductive MapOut (C V : Type*) where
  | code (code : C)
  | value (val : V)
  | unit

variable {K V C : Type*} (same : K → K → Prop)

def MapOp.key? : MapOp K V → Option K
  | .put key _ => some key
  | .get key => some key
  | .remove key => some key
  | .delete key => some key
  | .clear => none

/-- The key whose entry the call may change. -/
def MapOp.changedKey? : MapOp K V → Option K
  | .put key _ => some key
  | .get _ => none
  | .remove key => some key
  | .delete key => some key
  | .clear => none

/-- The call looks for its key among the entries and puts none. -/
def MapOp.looksUp : MapOp K V → Bool
  | .put _ _ => false
  | .clear => false
  | _ => true

section Represents

variable {ε : Type*} (keyOf : ε → K) (valOf : ε → V)

/-- The entries assign to each key what the map says. -/
def Represents (m : K → Option V) (entries : Multiset ε) : Prop :=
  ∀ key val, m key = some val ↔
    ∃ e ∈ entries, same (keyOf e) key ∧ valOf e = val

/-- No two entries have equivalent keys. -/
def KeysApart [DecidableEq ε] (entries : Multiset ε) : Prop :=
  ∀ e ∈ entries, ∀ other ∈ entries.erase e, ¬ same (keyOf other) (keyOf e)

variable {same keyOf valOf} {m : K → Option V} {entries : Multiset ε}

theorem represents_zero : Represents same keyOf valOf (fun _ => none) 0 := by
  intro key val
  simp

theorem Represents.eq_none (h : Represents same keyOf valOf m entries)
    {key : K} (hnone : ∀ e ∈ entries, ¬ same (keyOf e) key) :
    m key = none := by
  rw [Option.eq_none_iff_forall_ne_some]
  intro val hval
  obtain ⟨e, he, hsame, _⟩ := (h key val).mp hval
  exact hnone e he hsame

theorem Represents.eq_some (h : Represents same keyOf valOf m entries)
    {e : ε} (he : e ∈ entries) {key : K} (hsame : same (keyOf e) key) :
    m key = some (valOf e) :=
  (h key (valOf e)).mpr ⟨e, he, hsame, rfl⟩

end Represents

variable [DecidableRel same]

def insertKey (m : K → Option V) (key : K) (val : V) : K → Option V :=
  fun other => if same key other then some val else m other

def eraseKey (m : K → Option V) (key : K) : K → Option V :=
  fun other => if same key other then none else m other

/-- The map after one call. -/
def mapStep (m : K → Option V) : MapOp K V → K → Option V
  | .put key val => insertKey same m key val
  | .get _ => m
  | .remove key => eraseKey same m key
  | .delete key => eraseKey same m key
  | .clear => fun _ => none

/-- The map after these calls: the value of the latest put on an equivalent
key since it was last removed, deleted or cleared. -/
def mapAfter (ops : List (MapOp K V)) : K → Option V :=
  ops.foldl (mapStep same) fun _ => none

@[simp] theorem mapAfter_append (ops : List (MapOp K V)) (op : MapOp K V) :
    mapAfter same (ops ++ [op]) = mapStep same (mapAfter same ops) op := by
  simp [mapAfter]

/-- A counter after a call, when only puts and clears change it. -/
def countPuts (count : ℕ) : MapOp K V → ℕ
  | .put _ _ => count + 1
  | .clear => 0
  | _ => count

/-- Puts since the last clear. -/
def recentPuts (ops : List (MapOp K V)) : ℕ :=
  ops.foldl (fun count op =>
    match op with
    | .put _ _ => count + 1
    | .clear => 0
    | _ => count) 0

theorem recentPuts_append (ops : List (MapOp K V)) (op : MapOp K V) :
    recentPuts (ops ++ [op]) = countPuts (recentPuts ops) op := by
  simp only [recentPuts, List.foldl_append, List.foldl_cons, List.foldl_nil]
  cases op <;> rfl

/-- What a call returns when the map before it is `m`: a put the code
`success`, a key without a value `null`. -/
def expectedOut (success : C) (null : V) (m : K → Option V) :
    MapOp K V → MapOut C V
  | .put _ _ => .code success
  | .get key => .value ((m key).getD null)
  | .remove key => .value ((m key).getD null)
  | .delete _ => .unit
  | .clear => .unit

/-- A step of a finite map: it returns what the map of the calls before it
says, and what is looked up for keys not equivalent to its own stays. -/
structure MapStep {σ Err : Type*} (success : C) (null : V)
    (lookup : K → σ → Except Err V)
    (config : Config σ (MapOp K V) (MapOut C V)) (op : MapOp K V)
    (after : Config σ (MapOp K V) (MapOut C V)) : Prop where
  returns : after.transcript = config.transcript ++
    [(op, expectedOut success null (mapAfter same config.history) op)]
  others : ∀ key ∈ op.key?, ∀ other, ¬ same key other → ∀ val,
    lookup other config.state = .ok val → lookup other after.state = .ok val

theorem mapStep_other {m : K → Option V} {op : MapOp K V} {key other : K}
    (hkey : key ∈ op.key?) (hne : ¬ same key other) :
    mapStep same m op other = m other := by
  cases op with
  | put k val =>
      obtain rfl : k = key := Option.some.inj hkey
      exact if_neg hne
  | get k => rfl
  | remove k =>
      obtain rfl : k = key := Option.some.inj hkey
      exact if_neg hne
  | delete k =>
      obtain rfl : k = key := Option.some.inj hkey
      exact if_neg hne
  | clear => cases hkey

section Equivalence

variable {ε : Type*} {keyOf : ε → K} {valOf : ε → V} {same}
  {m : K → Option V} {entries : Multiset ε}

theorem Represents.insert (h : Represents same keyOf valOf m entries)
    (hequiv : Equivalence same) (new : ε)
    (hfresh : ∀ e ∈ entries, ¬ same (keyOf e) (keyOf new)) :
    Represents same keyOf valOf (insertKey same m (keyOf new) (valOf new))
      (new ::ₘ entries) := by
  intro key val
  unfold insertKey
  by_cases hkey : same (keyOf new) key
  · rw [if_pos hkey, Option.some.injEq]
    constructor
    · intro hval
      exact ⟨new, Multiset.mem_cons_self new entries, hkey, hval⟩
    · rintro ⟨e, he, hsame, hval⟩
      rcases Multiset.mem_cons.mp he with rfl | hold
      · exact hval
      · have hboth : same (keyOf e) (keyOf new) :=
          hequiv.trans hsame (hequiv.symm hkey)
        exact absurd hboth (hfresh e hold)
  · rw [if_neg hkey, h key val]
    constructor
    · rintro ⟨e, he, hsame, hval⟩
      exact ⟨e, Multiset.mem_cons_of_mem he, hsame, hval⟩
    · rintro ⟨e, he, hsame, hval⟩
      rcases Multiset.mem_cons.mp he with rfl | hold
      · exact absurd hsame hkey
      · exact ⟨e, hold, hsame, hval⟩

theorem Represents.erase [DecidableEq ε]
    (h : Represents same keyOf valOf m entries)
    (hequiv : Equivalence same) (hapart : KeysApart same keyOf entries)
    {e : ε} (he : e ∈ entries) {key : K} (hsame : same (keyOf e) key) :
    Represents same keyOf valOf (eraseKey same m key)
      (entries.erase e) := by
  have hrest : ∀ other ∈ entries.erase e, ¬ same (keyOf other) key := by
    intro other hother hboth
    exact hapart e he other hother
      (hequiv.trans hboth (hequiv.symm hsame))
  intro k val
  unfold eraseKey
  by_cases hkey : same key k
  · rw [if_pos hkey]
    constructor
    · intro hval
      cases hval
    · rintro ⟨other, hother, hsameOther, _⟩
      exact absurd (hequiv.trans hsameOther (hequiv.symm hkey))
        (hrest other hother)
  · rw [if_neg hkey, h k val]
    constructor
    · rintro ⟨other, hother, hsameOther, hval⟩
      refine ⟨other, ?_, hsameOther, hval⟩
      apply (Multiset.mem_erase_of_ne _).mpr hother
      intro heq
      subst heq
      exact hkey (hequiv.trans (hequiv.symm hsame) hsameOther)
    · rintro ⟨other, hother, hsameOther, hval⟩
      exact ⟨other, Multiset.mem_of_mem_erase hother, hsameOther, hval⟩

theorem Represents.replace [DecidableEq ε]
    (h : Represents same keyOf valOf m entries)
    (hequiv : Equivalence same) (hapart : KeysApart same keyOf entries)
    {e : ε} (he : e ∈ entries) {key : K} (hsame : same (keyOf e) key)
    (new : ε) (hnew : same (keyOf new) key) :
    Represents same keyOf valOf (insertKey same m key (valOf new))
      (new ::ₘ entries.erase e) := by
  have hfresh : ∀ other ∈ entries.erase e,
      ¬ same (keyOf other) (keyOf new) := by
    intro other hother hboth
    exact hapart e he other hother
      (hequiv.trans (hequiv.trans hboth hnew) (hequiv.symm hsame))
  have hinsert := (h.erase hequiv hapart he hsame).insert hequiv new hfresh
  have hmap : insertKey same (eraseKey same m key) (keyOf new) (valOf new) =
      insertKey same m key (valOf new) := by
    funext k
    unfold insertKey eraseKey
    by_cases hkey : same key k
    · have hnewKey : same (keyOf new) k := hequiv.trans hnew hkey
      rw [if_pos hnewKey, if_pos hkey]
    · have hnewKey : ¬ same (keyOf new) k := by
        intro hboth
        exact hkey (hequiv.trans (hequiv.symm hnew) hboth)
      rw [if_neg hnewKey, if_neg hkey, if_neg hkey]
  rwa [hmap] at hinsert

theorem Represents.erase_absent
    (h : Represents same keyOf valOf m entries)
    (hequiv : Equivalence same) {key : K}
    (hnone : ∀ e ∈ entries, ¬ same (keyOf e) key) :
    Represents same keyOf valOf (eraseKey same m key) entries := by
  have hmap : eraseKey same m key = m := by
    funext k
    unfold eraseKey
    by_cases hkey : same key k
    · rw [if_pos hkey]
      apply (h.eq_none _).symm
      intro e he hboth
      exact hnone e he (hequiv.trans hboth (hequiv.symm hkey))
    · rw [if_neg hkey]
  rwa [hmap]

end Equivalence

section Effects

variable {ε : Type*} [DecidableEq ε] (keyOf : ε → K) (valOf : ε → V)
  (success : C) (null : V)

omit [DecidableRel same] in
/-- What a call returns and does to the entries of a collection. -/
inductive Effect (entries : Multiset ε) :
    MapOp K V → MapOut C V → Multiset ε → Prop where
  | added (new : ε) (hfresh : ∀ e ∈ entries, ¬ same (keyOf e) (keyOf new)) :
      Effect entries (.put (keyOf new) (valOf new)) (.code success)
        (new ::ₘ entries)
  | replaced (e new : ε) (key : K) (hmem : e ∈ entries)
      (hold : same (keyOf e) key) (hnew : same (keyOf new) key) :
      Effect entries (.put key (valOf new)) (.code success)
        (new ::ₘ entries.erase e)
  | got (e : ε) (key : K) (hmem : e ∈ entries) (hsame : same (keyOf e) key) :
      Effect entries (.get key) (.value (valOf e)) entries
  | missed (key : K) (hnone : ∀ e ∈ entries, ¬ same (keyOf e) key) :
      Effect entries (.get key) (.value null) entries
  | removed (e : ε) (key : K) (hmem : e ∈ entries)
      (hsame : same (keyOf e) key) :
      Effect entries (.remove key) (.value (valOf e)) (entries.erase e)
  | notRemoved (key : K) (hnone : ∀ e ∈ entries, ¬ same (keyOf e) key) :
      Effect entries (.remove key) (.value null) entries
  | deleted (e : ε) (key : K) (hmem : e ∈ entries)
      (hsame : same (keyOf e) key) :
      Effect entries (.delete key) .unit (entries.erase e)
  | notDeleted (key : K) (hnone : ∀ e ∈ entries, ¬ same (keyOf e) key) :
      Effect entries (.delete key) .unit entries
  | cleared : Effect entries .clear .unit 0

variable {keyOf valOf success null} {same} {m : K → Option V}
  {entries entries' : Multiset ε} {op : MapOp K V} {out : MapOut C V}

/-- A call with an effect of this kind returns what the map says and leaves
entries which represent the map after it. -/
theorem Effect.represents (hequiv : Equivalence same)
    (hapart : KeysApart same keyOf entries)
    (hrep : Represents same keyOf valOf m entries)
    (heffect : Effect same keyOf valOf success null entries op out entries') :
    out = expectedOut success null m op ∧
      Represents same keyOf valOf (mapStep same m op) entries' := by
  cases heffect with
  | added new hfresh => exact ⟨rfl, hrep.insert hequiv new hfresh⟩
  | replaced e new key hmem hold hnew =>
      exact ⟨rfl, hrep.replace hequiv hapart hmem hold new hnew⟩
  | got e key hmem hsame =>
      rw [expectedOut, hrep.eq_some hmem hsame]
      exact ⟨rfl, hrep⟩
  | missed key hnone =>
      rw [expectedOut, hrep.eq_none hnone]
      exact ⟨rfl, hrep⟩
  | removed e key hmem hsame =>
      rw [expectedOut, hrep.eq_some hmem hsame]
      exact ⟨rfl, hrep.erase hequiv hapart hmem hsame⟩
  | notRemoved key hnone =>
      rw [expectedOut, hrep.eq_none hnone]
      exact ⟨rfl, hrep.erase_absent hequiv hnone⟩
  | deleted e key hmem hsame =>
      exact ⟨rfl, hrep.erase hequiv hapart hmem hsame⟩
  | notDeleted key hnone => exact ⟨rfl, hrep.erase_absent hequiv hnone⟩
  | cleared => exact ⟨rfl, represents_zero⟩

omit [DecidableRel same] in
/-- A counter of entries which counts every put and misses every removal stays
right exactly if the call changes a key without a value. -/
theorem Effect.count_iff (hrep : Represents same keyOf valOf m entries)
    (heffect : Effect same keyOf valOf success null entries op out entries')
    {count : ℕ} (hcount : count = entries.card) :
    countPuts count op = entries'.card ↔
      ∀ key ∈ op.changedKey?, m key = none := by
  subst hcount
  cases heffect with
  | added new hfresh =>
      simpa [countPuts, MapOp.changedKey?] using hrep.eq_none hfresh
  | replaced e new key hmem hold hnew =>
      have hcard := Multiset.card_erase_add_one hmem
      simp only [countPuts, MapOp.changedKey?, Multiset.card_cons, hcard,
        Option.mem_some_iff, forall_eq', hrep.eq_some hmem hold]
      simp
  | got e key hmem hsame => simp [countPuts, MapOp.changedKey?]
  | missed key hnone => simp [countPuts, MapOp.changedKey?]
  | removed e key hmem hsame =>
      have hcard := Multiset.card_erase_add_one hmem
      simp only [countPuts, MapOp.changedKey?, ← hcard, Option.mem_some_iff,
        forall_eq', hrep.eq_some hmem hsame]
      simp
  | notRemoved key hnone =>
      simpa [countPuts, MapOp.changedKey?] using hrep.eq_none hnone
  | deleted e key hmem hsame =>
      have hcard := Multiset.card_erase_add_one hmem
      simp only [countPuts, MapOp.changedKey?, ← hcard, Option.mem_some_iff,
        forall_eq', hrep.eq_some hmem hsame]
      simp
  | notDeleted key hnone =>
      simpa [countPuts, MapOp.changedKey?] using hrep.eq_none hnone
  | cleared => simp [countPuts, MapOp.changedKey?]

end Effects

section Keys

variable {ε : Type*} {keyOf : ε → K} {valOf : ε → V} {same}
  {m : K → Option V} {entries : Multiset ε}

/-- One key for each class of keys that has a value. -/
structure KeyList (same : K → K → Prop) (m : K → Option V)
    (keys : List K) : Prop where
  apart : keys.Pairwise fun a b => ¬ same a b
  stored : ∀ key, (m key).isSome ↔ ∃ other ∈ keys, same other key

/-- The map has values for this many keys, equivalent keys counted once. -/
def HasKeys (same : K → K → Prop) (m : K → Option V) (count : ℕ) : Prop :=
  ∃ keys, KeyList same m keys ∧ keys.length = count

omit [DecidableRel same] in
theorem length_le_of_cover (hequiv : Equivalence same) {keys cover : List K}
    (hapart : keys.Pairwise fun a b => ¬ same a b)
    (hcover : ∀ key ∈ keys, ∃ other ∈ cover, same other key) :
    keys.length ≤ cover.length := by
  induction keys generalizing cover with
  | nil => exact Nat.zero_le _
  | cons key rest ih =>
      rw [List.pairwise_cons] at hapart
      obtain ⟨other, hother, hsame⟩ := hcover key (by simp)
      obtain ⟨before, after, rfl⟩ := List.append_of_mem hother
      have hrest : ∀ next ∈ rest, ∃ o ∈ before ++ after, same o next := by
        intro next hnext
        obtain ⟨o, ho, hsameNext⟩ := hcover next (by simp [hnext])
        have hne : o ≠ other := by
          intro heq
          subst heq
          exact hapart.1 next hnext
            (hequiv.trans (hequiv.symm hsame) hsameNext)
        refine ⟨o, ?_, hsameNext⟩
        simpa [hne] using ho
      have hlength := ih hapart.2 hrest
      simp only [List.length_append, List.length_cons] at hlength ⊢
      omega

omit [DecidableRel same] in
theorem KeysApart.pairwise [DecidableEq ε] (hequiv : Equivalence same)
    {l : List ε} (h : KeysApart same keyOf (l : Multiset ε)) :
    (l.map keyOf).Pairwise fun a b => ¬ same a b := by
  induction l with
  | nil => exact .nil
  | cons e rest ih =>
      rw [List.map_cons, List.pairwise_cons]
      constructor
      · intro key hkey hsame
        obtain ⟨other, hother, rfl⟩ := List.mem_map.mp hkey
        exact h e (by simp) other (by simpa using hother)
          (hequiv.symm hsame)
      · apply ih
        intro a ha other hother
        apply h a (Multiset.mem_coe.mpr (List.mem_cons_of_mem e ha)) other
        have hle : (rest : Multiset ε).erase a ≤
            ((e :: rest : List ε) : Multiset ε).erase a :=
          Multiset.erase_le_erase a (by
            rw [← Multiset.cons_coe]
            exact Multiset.le_cons_self _ e)
        exact Multiset.mem_of_le hle hother

omit [DecidableRel same] in
/-- A representation has one entry for each key. -/
theorem Represents.hasKeys_iff [DecidableEq ε]
    (h : Represents same keyOf valOf m entries) (hequiv : Equivalence same)
    (hapart : KeysApart same keyOf entries) {count : ℕ} :
    HasKeys same m count ↔ count = entries.card := by
  obtain ⟨l, rfl⟩ := Quot.exists_rep entries
  change Represents same keyOf valOf m (l : Multiset ε) at h
  change KeysApart same keyOf (l : Multiset ε) at hapart
  have hpairwise := hapart.pairwise hequiv
  have hstored : ∀ key, (m key).isSome ↔
      ∃ other ∈ l.map keyOf, same other key := by
    intro key
    rw [Option.isSome_iff_exists]
    constructor
    · rintro ⟨val, hval⟩
      obtain ⟨e, he, hsame, _⟩ := (h key val).mp hval
      exact ⟨keyOf e, List.mem_map_of_mem he, hsame⟩
    · rintro ⟨other, hother, hsame⟩
      obtain ⟨e, he, rfl⟩ := List.mem_map.mp hother
      exact ⟨valOf e, h.eq_some (Multiset.mem_coe.mpr he) hsame⟩
  have hself : ∀ {keys : List K}, KeyList same m keys → ∀ key ∈ keys,
      (m key).isSome := by
    intro keys hkeys key hkey
    exact (hkeys.stored key).mpr ⟨key, hkey, hequiv.refl key⟩
  have hlist : KeyList same m (l.map keyOf) := ⟨hpairwise, hstored⟩
  have hlength : (l.map keyOf).length = l.length := List.length_map keyOf
  change HasKeys same m count ↔ count = l.length
  rw [← hlength]
  constructor
  · rintro ⟨keys, hkeys, rfl⟩
    apply Nat.le_antisymm
    · exact length_le_of_cover hequiv hkeys.apart fun key hkey =>
        (hstored key).mp (hself hkeys key hkey)
    · exact length_le_of_cover hequiv hpairwise fun key hkey =>
        (hkeys.stored key).mp (hself hlist key hkey)
  · intro heq
    subst heq
    exact ⟨l.map keyOf, hlist, rfl⟩

theorem eq_some_of_eraseKey {m : K → Option V} {erased key : K} {val : V}
    (h : eraseKey same m erased key = some val) : m key = some val := by
  by_cases hsame : same erased key
  · rw [eraseKey, if_pos hsame] at h
    cases h
  · rwa [eraseKey, if_neg hsame] at h

/-- A key has a value only if an equivalent key was put. -/
theorem exists_put_of_mapAfter {ops : List (MapOp K V)} {key : K} {val : V}
    (h : mapAfter same ops key = some val) :
    ∃ k v, .put k v ∈ ops ∧ same k key := by
  induction ops using List.reverseRecOn generalizing val with
  | nil => cases h
  | append_singleton ops op ih =>
      have hold : ∀ w, mapAfter same ops key = some w →
          ∃ k v, .put k v ∈ ops ++ [op] ∧ same k key := by
        intro w hw
        obtain ⟨k, v, hmem, hsame⟩ := ih hw
        exact ⟨k, v, List.mem_append_left _ hmem, hsame⟩
      rw [mapAfter_append] at h
      cases op with
      | put k v =>
          by_cases hsame : same k key
          · exact ⟨k, v, by simp, hsame⟩
          · rw [mapStep, insertKey, if_neg hsame] at h
            exact hold val h
      | get k => exact hold val h
      | remove k => exact hold val (eq_some_of_eraseKey h)
      | delete k => exact hold val (eq_some_of_eraseKey h)
      | clear => cases h

end Keys

section Replies

/-- What a finite map answers to these calls, when those in `past` were made
before them. -/
def replies (success : C) (null : V) :
    List (MapOp K V) → List (MapOp K V) → List (MapOp K V × MapOut C V)
  | _, [] => []
  | past, op :: rest =>
      (op, expectedOut success null (mapAfter same past) op) ::
        replies success null (past ++ [op]) rest

variable {same} {success : C} {null : V}

theorem replies_congr {same' : K → K → Prop} [DecidableRel same']
    (h : ∀ a b, same a b ↔ same' a b) (past ops : List (MapOp K V)) :
    replies same success null past ops =
      replies same' success null past ops := by
  have hsame : same = same' := funext fun a => funext fun b =>
    propext (h a b)
  subst hsame
  congr!

/-- Steps of a finite map complete the run and give its replies. -/
theorem run_of_keeps {σ Err : Type*}
    {next : σ → MapOp K V → Except Err (MapOut C V × σ)}
    {lookup : K → σ → Except Err V}
    {config : Config σ (MapOp K V) (MapOut C V)} {ops : List (MapOp K V)}
    (h : Keeps next (MapStep same success null lookup) config ops) :
    ∃ final, run next config ops = .ok final ∧
      final.transcript = config.transcript ++
        replies same success null config.history ops := by
  induction ops generalizing config with
  | nil => exact ⟨config, rfl, (List.append_nil _).symm⟩
  | cons op rest ih =>
      obtain ⟨after, hafter, hmap, hrest⟩ := h
      obtain ⟨final, hfinal, htranscript⟩ := ih hrest
      refine ⟨final, run_cons_eq_ok_iff.mpr ⟨after, hafter, hfinal⟩, ?_⟩
      rw [htranscript, hmap.returns, Config.history_step hafter,
        List.append_assoc, List.singleton_append]
      rfl

end Replies

end KeyedMap
end Alib
