import Alib.Allocation

/-!
# Blocks obtained from the allocator

The account of one block: whether it was obtained and how often it was
released.  Reporting a refused request may release the nodes of the error
stack and build new ones, but a block which is not a node of that stack keeps
its account, and so it does when other blocks are obtained or released.
-/

namespace Alib

variable {E : Env} {before middle after w : World} {a b : Addr} {times : ℕ}

/-- Blocks that were released and nodes of the error stack were obtained
before. -/
structure World.Bounded (w : World) : Prop where
  released : ∀ a ∈ w.released, a < w.requests
  stack : ∀ a ∈ w.globalErrorStack.freeOrder, a < w.requests

/-- The block was obtained and then released this often, and it is not a node
of the error stack. -/
structure World.Owns (w : World) (a : Addr) (times : ℕ) : Prop where
  obtained : a < w.requests
  count : w.released.count a = times
  unlinked : a ∉ w.globalErrorStack.freeOrder

/-- A node of the error stack, or a block obtained in between. -/
def Reported (before after : World) (a : Addr) : Prop :=
  a ∈ before.globalErrorStack.freeOrder ∨
    before.requests ≤ a ∧ a < after.requests

/-- Only reports were made in between. -/
structure Reports (before after : World) : Prop where
  requests_le : before.requests ≤ after.requests
  released : ∃ more, after.released = before.released ++ more ∧
    ∀ a ∈ more, Reported before after a
  stack : ∀ a ∈ after.globalErrorStack.freeOrder, Reported before after a

section Reports

theorem Reports.refl (w : World) : Reports w w :=
  ⟨le_rfl, ⟨[], by simp, by simp⟩, fun _ ha => .inl ha⟩

theorem Reported.trans (h : Reports before middle)
    (h' : Reports middle after) (ha : Reported middle after a) :
    Reported before after a := by
  rcases ha with hstack | ⟨hle, hlt⟩
  · rcases h.stack a hstack with hold | ⟨hle, hlt⟩
    · exact .inl hold
    · exact .inr ⟨hle, hlt.trans_le h'.requests_le⟩
  · exact .inr ⟨h.requests_le.trans hle, hlt⟩

theorem Reports.trans (h : Reports before middle)
    (h' : Reports middle after) : Reports before after := by
  rcases h.released with ⟨first, hfirst, hfirstOnly⟩
  rcases h'.released with ⟨second, hsecond, hsecondOnly⟩
  refine ⟨h.requests_le.trans h'.requests_le, ⟨first ++ second, ?_, ?_⟩, ?_⟩
  · rw [hsecond, hfirst, List.append_assoc]
  · intro a ha
    rcases List.mem_append.mp ha with hleft | hright
    · rcases hfirstOnly a hleft with hold | ⟨hle, hlt⟩
      · exact .inl hold
      · exact .inr ⟨hle, hlt.trans_le h'.requests_le⟩
    · exact (hsecondOnly a hright).trans h h'
  · intro a ha
    exact (h'.stack a ha).trans h h'

theorem Reports.bounded (h : Reports before after)
    (hbounded : before.Bounded) : after.Bounded := by
  have hreported : ∀ a, Reported before after a → a < after.requests := by
    intro a ha
    rcases ha with hstack | ⟨_, hlt⟩
    · exact (hbounded.stack a hstack).trans_le h.requests_le
    · exact hlt
  constructor
  · rcases h.released with ⟨more, hreleased, honly⟩
    rw [hreleased]
    intro a ha
    rcases List.mem_append.mp ha with hold | hnew
    · exact (hbounded.released a hold).trans_le h.requests_le
    · exact hreported a (honly a hnew)
  · intro a ha
    exact hreported a (h.stack a ha)

theorem Reports.owns (h : Reports before after)
    (howns : before.Owns a times) : after.Owns a times := by
  have hnot : ¬ Reported before after a := by
    intro ha
    rcases ha with hstack | ⟨hle, _⟩
    · exact howns.unlinked hstack
    · exact absurd howns.obtained (not_lt.mpr hle)
  refine ⟨howns.obtained.trans_le h.requests_le, ?_, fun ha =>
    hnot (h.stack a ha)⟩
  rcases h.released with ⟨more, hreleased, honly⟩
  have hmore : more.count a = 0 :=
    List.count_eq_zero.mpr fun ha => hnot (honly a ha)
  rw [hreleased, List.count_append, hmore, howns.count, add_zero]

theorem malloc_reports (E : Env) (size : ℕ) (w : World) :
    Reports w (malloc E size w).2 := by
  have hstack : (malloc E size w).2.globalErrorStack = w.globalErrorStack := by
    unfold malloc
    split <;> rfl
  have hreleased : (malloc E size w).2.released = w.released := by
    unfold malloc
    split <;> rfl
  constructor
  · rw [malloc_requests]
    exact Nat.le_succ _
  · exact ⟨[], by rw [hreleased, List.append_nil], by simp⟩
  · rw [hstack]
    exact fun a ha => .inl ha

/-- Only the stack module hands the nodes of a code over to the new node. -/
theorem aErrorStackMacroHelper_reports {mod : ErrorMod} (hmod : mod ≠ .stack)
    {useGetcode : Bool} {code : ErrorCode}
    (h : aErrorStackMacroHelper E mod useGetcode code false w = .ok after) :
    Reports w after := by
  obtain ⟨actual, hactual, _⟩ := bind_eq_ok_iff.mp h
  simp only [Bool.false_eq_true, if_false] at hactual
  cases hgrant : E.grants w.requests sizeofErrorStack with
  | true =>
      have hstack : aErrorStack E mod actual w.globalErrorStack w =
          (.node w.requests mod actual w.globalErrorStack,
            { w with requests := w.requests + 1 }) := by
        simp [aErrorStack, malloc, hgrant]
      simp only [aErrorStackMacroHelper, Bool.false_eq_true, if_false, hactual,
        ok_bind, hstack, pure_eq_ok, Except.ok.injEq] at h
      subst h
      refine ⟨Nat.le_succ _, ⟨[], by simp, by simp⟩, ?_⟩
      intro a ha
      simp only [ErrorStack.freeOrder, hmod, if_false, List.append_nil,
        List.mem_append, List.mem_singleton] at ha
      rcases ha with hold | hnew
      · exact .inl hold
      · exact .inr ⟨hnew.ge, hnew.trans_lt (Nat.lt_succ_self _)⟩
  | false =>
      have hstack : aErrorStack E mod actual w.globalErrorStack w =
          (.stackAllocError, aErrorStackFree w.globalErrorStack
            { w with requests := w.requests + 1, errno := enomem }) := by
        simp [aErrorStack, malloc, hgrant]
      simp only [aErrorStackMacroHelper, Bool.false_eq_true, if_false, hactual,
        ok_bind, hstack, pure_eq_ok, Except.ok.injEq] at h
      subst h
      refine ⟨Nat.le_succ _,
        ⟨w.globalErrorStack.freeOrder, rfl, fun a ha => .inl ha⟩, ?_⟩
      intro a ha
      cases ha

/-- `a_malloc` returns `NULL` for nothing, or once it reported `ENOMEM`. -/
theorem aError_of_aMalloc {size : ℕ} (hsize : size ≠ 0)
    (h : aMalloc E size w = .ok (none, after)) :
    aError E .perror (malloc E size w).2 = .ok after := by
  unfold aMalloc at h
  rw [if_neg hsize] at h
  cases hresult : malloc E size w with
  | mk out made =>
      rw [hresult] at h
      cases out with
      | some addr => cases h
      | none =>
          obtain ⟨reported, hreport, hreturn⟩ := bind_eq_ok_iff.mp h
          cases hreturn
          exact hreport

theorem aError_of_aMallocNULL {size : ℕ} (hsize : size ≠ 0)
    (hslots : size % sizeofPointer = 0)
    (h : aMallocNULL E size w = .ok (none, after)) :
    aError E .perror (malloc E size w).2 = .ok after := by
  unfold aMallocNULL at h
  rw [if_neg (not_not.mpr hslots)] at h
  obtain ⟨⟨out, made⟩, hmalloc, hreturn⟩ := bind_eq_ok_iff.mp h
  cases out with
  | none =>
      cases hreturn
      exact aError_of_aMalloc hsize hmalloc
  | some addr => cases hreturn

theorem aErrorGetAlibCode_reports {code : ErrorCode}
    (h : aErrorGetAlibCode E w = .ok (code, after)) : Reports w after := by
  have hreport : ∀ {code : ErrorCode},
      (aErrorCode E .alib aErrorOther w >>= fun w =>
        (pure (aErrorOther, w) : Except Fault _)) = .ok (code, after) →
      Reports w after := by
    intro code hcall
    obtain ⟨reported, hreport, hreturn⟩ := bind_eq_ok_iff.mp hcall
    cases hreturn
    exact aErrorStackMacroHelper_reports (by decide) hreport
  unfold aErrorGetAlibCode at h
  split at h
  · cases h
    exact .refl _
  · cases h
    exact .refl _
  · exact hreport h

/-- A refused request was reported, and then the code of the library was asked
for. -/
def RefusalReported (E : Env) (size : ℕ) (before after : World) : Prop :=
  ∃ reported, aError E .perror (malloc E size before).2 = .ok reported ∧
    aErrorGetAlibCode E reported = .ok (aErrorOther, after)

theorem RefusalReported.reports {size : ℕ}
    (h : RefusalReported E size before after) : Reports before after := by
  obtain ⟨reported, hreport, hcode⟩ := h
  exact (malloc_reports E size before).trans
    ((aErrorStackMacroHelper_reports (by decide) hreport).trans
      (aErrorGetAlibCode_reports hcode))

end Reports

section Owns

theorem World.Bounded.owns_new (h : w.Bounded) :
    World.Owns { w with requests := w.requests + 1 } w.requests 0 where
  obtained := Nat.lt_succ_self _
  count := List.count_eq_zero.mpr fun ha =>
    lt_irrefl _ (h.released w.requests ha)
  unlinked := fun ha => lt_irrefl _ (h.stack w.requests ha)

theorem World.Bounded.obtain (h : w.Bounded) :
    World.Bounded { w with requests := w.requests + 1 } :=
  ⟨fun a ha => Nat.lt_succ_of_lt (h.released a ha),
    fun a ha => Nat.lt_succ_of_lt (h.stack a ha)⟩

theorem World.Owns.obtain (h : w.Owns a times) :
    World.Owns { w with requests := w.requests + 1 } a times :=
  ⟨Nat.lt_succ_of_lt h.obtained, h.count, h.unlinked⟩

/-- `a_free` on the block at this address. -/
def World.release (w : World) (a : Addr) : World :=
  { w with released := w.released ++ [a] }

theorem World.Bounded.release (h : w.Bounded) (ha : a < w.requests) :
    (w.release a).Bounded := by
  refine ⟨?_, h.stack⟩
  intro b hb
  rcases List.mem_append.mp hb with hold | hnew
  · exact h.released b hold
  · rw [List.mem_singleton.mp hnew]
    exact ha

theorem World.Owns.release_self (h : w.Owns a times) :
    (w.release a).Owns a (times + 1) := by
  refine ⟨h.obtained, ?_, h.unlinked⟩
  rw [World.release, List.count_append, h.count, List.count_singleton_self]

theorem World.Owns.release_of_ne (h : w.Owns a times) (hne : b ≠ a) :
    (w.release b).Owns a times := by
  refine ⟨h.obtained, ?_, h.unlinked⟩
  rw [World.release, List.count_append, h.count,
    List.count_singleton, if_neg (by simpa using hne), add_zero]

end Owns

end Alib
