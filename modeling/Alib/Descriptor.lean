import Mathlib.Tactic

/-!
# Descriptors that transfer in pieces

A call on a descriptor transfers at most what it is asked for, often less, or
it fails and transfers nothing.  A script says, by the number of the call, how
the calls go.  Whatever the script, a sink has accepted an initial part of what
was offered and a source has delivered an initial part of what was pending.
-/

namespace Alib
namespace Descriptor

variable {β : Type*}

/-- The most a call transfers, or `none` when it fails. -/
abbrev Script := ℕ → Option ℕ

structure Sink (β : Type*) where
  script : Script
  calls : ℕ
  accepted : List β

structure Source (β : Type*) where
  script : Script
  calls : ℕ
  pending : List β

/-- How much of the data the sink accepted, or `none`. -/
def Sink.write (sink : Sink β) (data : List β) : Option ℕ × Sink β :=
  match sink.script sink.calls with
  | none => (none, { sink with calls := sink.calls + 1 })
  | some most =>
      (some (min most data.length), { sink with
        calls := sink.calls + 1
        accepted := sink.accepted ++ data.take most })

/-- What the source delivered, at most `count`, or `none`. -/
def Source.read (source : Source β) (count : ℕ) :
    Option (List β) × Source β :=
  match source.script source.calls with
  | none => (none, { source with calls := source.calls + 1 })
  | some most =>
      (some (source.pending.take (min most count)), { source with
        calls := source.calls + 1
        pending := source.pending.drop (min most count) })

/-- No call fails, and every call transfers something. -/
def Steady (script : Script) : Prop :=
  ∀ call, ∃ most, script call = some (most + 1)

def Fails (script : Script) (call : ℕ) : Prop := script call = none

instance (script : Script) : DecidablePred (Fails script) :=
  fun call => inferInstanceAs (Decidable (script call = none))

/-- The number of failed calls from one call up to another. -/
def failures (script : Script) (first last : ℕ) : ℕ :=
  Nat.count (Fails script) last - Nat.count (Fails script) first

/-- What a reader gets who asks for `count` until he gets nothing or a call
fails: the pieces, whether the last call failed, and the source afterwards. -/
def Source.pieces (count : ℕ) :
    ℕ → Source β → List (List β) × Bool × Source β
  | 0, source => ([], false, source)
  | fuel + 1, source =>
      match source.read count with
      | (none, source) => ([], true, source)
      | (some [], source) => ([], false, source)
      | (some (first :: rest), source) =>
          let (pieces, failed, source) := Source.pieces count fuel source
          ((first :: rest) :: pieces, failed, source)

/-- Every piece is taken from what is pending, so this is enough. -/
def Source.drain (count : ℕ) (source : Source β) :
    List (List β) × Bool × Source β :=
  Source.pieces count (source.pending.length + 1) source

section Failures

variable {script : Script} {first middle last : ℕ}

@[simp] theorem failures_self : failures script first first = 0 :=
  Nat.sub_self _

theorem failures_trans (h : first ≤ middle) (h' : middle ≤ last) :
    failures script first last =
      failures script first middle + failures script middle last := by
  have hle := Nat.count_monotone (Fails script) h
  have hle' := Nat.count_monotone (Fails script) h'
  simp only [failures]
  omega

theorem failures_succ_of_fails (h : script first = none) :
    failures script first (first + 1) = 1 := by
  rw [failures, Nat.count_succ, if_pos (show Fails script first from h)]
  omega

theorem failures_succ_of_some {most : ℕ} (h : script first = some most) :
    failures script first (first + 1) = 0 := by
  have hnot : ¬ Fails script first := by
    rw [Fails, h]
    simp
  rw [failures, Nat.count_succ, if_neg hnot]
  omega

theorem Steady.ne_none {script : Script} (h : Steady script) (call : ℕ) :
    script call ≠ none := by
  obtain ⟨most, hmost⟩ := h call
  rw [hmost]
  exact Option.some_ne_none _

theorem failures_of_steady (h : Steady script) :
    failures script first last = 0 := by
  have hnever : ∀ n, Nat.count (Fails script) n = 0 := by
    intro n
    induction n with
    | zero => rfl
    | succ n ih =>
        obtain ⟨most, hmost⟩ := h n
        have hnot : ¬ Fails script n := by
          rw [Fails, hmost]
          simp
        rw [Nat.count_succ, if_neg hnot, ih]
  simp [failures, hnever]

end Failures

section Source

variable {source : Source β} {count fuel most : ℕ}

theorem Source.read_of_some (count : ℕ)
    (h : source.script source.calls = some most) :
    source.read count =
      (some (source.pending.take (min most count)), { source with
        calls := source.calls + 1
        pending := source.pending.drop (min most count) }) := by
  simp [Source.read, h]

theorem Source.read_of_none (count : ℕ)
    (h : source.script source.calls = none) :
    source.read count = (none, { source with calls := source.calls + 1 }) := by
  simp [Source.read, h]

/-- The pieces, put together, are the start of what was pending. -/
theorem Source.pieces_append (count fuel : ℕ) (source : Source β) :
    (Source.pieces count fuel source).1.flatten ++
        (Source.pieces count fuel source).2.2.pending = source.pending := by
  induction fuel generalizing source with
  | zero => rfl
  | succ fuel ih =>
      cases hscript : source.script source.calls with
      | none => simp [Source.pieces, Source.read_of_none count hscript]
      | some most =>
          have hread := Source.read_of_some count hscript
          have hsplit := List.take_append_drop (min most count)
            source.pending
          simp only [Source.pieces, hread]
          cases htake : source.pending.take (min most count) with
          | nil =>
              rw [htake] at hsplit
              exact hsplit
          | cons first rest =>
              rw [htake] at hsplit
              simp only [List.flatten_cons, List.append_assoc]
              rw [ih]
              exact hsplit

/-- A steady source delivers everything. -/
theorem Source.pieces_of_steady (hsteady : Steady source.script)
    (hcount : 0 < count) (hfuel : source.pending.length < fuel) :
    (Source.pieces count fuel source).1.flatten = source.pending ∧
      (Source.pieces count fuel source).2.1 = false := by
  obtain ⟨fuel, rfl⟩ : ∃ n, fuel = n + 1 :=
    Nat.exists_eq_succ_of_ne_zero (by omega)
  induction fuel generalizing source with
  | zero =>
      have hempty : source.pending = [] :=
        List.length_eq_zero_iff.mp (by omega)
      obtain ⟨most, hmost⟩ := hsteady source.calls
      have hread := Source.read_of_some count hmost
      simp [Source.pieces, hread, hempty]
  | succ fuel ih =>
      obtain ⟨most, hmost⟩ := hsteady source.calls
      have hread := Source.read_of_some count hmost
      have hsplit := List.take_append_drop (min (most + 1) count)
        source.pending
      rw [Source.pieces, hread]
      cases htake : source.pending.take (min (most + 1) count) with
      | nil =>
          have hempty : source.pending = [] := by
            rcases List.take_eq_nil_iff.mp htake with hzero | hnil
            · omega
            · exact hnil
          simp [hempty]
      | cons first rest =>
          rw [htake] at hsplit
          have hshort : (source.pending.drop (min (most + 1) count)).length <
              fuel + 1 := by
            have hlength := congrArg List.length hsplit
            simp only [List.length_append, List.length_cons] at hlength
            omega
          obtain ⟨hflat, hfailed⟩ := @ih { source with
            calls := source.calls + 1
            pending := source.pending.drop (min (most + 1) count) }
            hsteady hshort
          constructor
          · simp only [List.flatten_cons]
            rw [hflat]
            exact hsplit
          · exact hfailed

end Source

end Descriptor
end Alib
