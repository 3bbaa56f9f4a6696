import Mathlib.Tactic

/-!
# Runs of a partial step function

A system is given by one step function which performs an operation on a
state and either returns a result and the next state or reports a fault.  A
configuration pairs the state with the public transcript of the operations
performed so far and their results.  `Meets` says that every step taken from
a reached configuration satisfies a condition; `Keeps` says that every step
completes and satisfies a guarantee.  The invariant rules below pass from one
step to whole runs.
-/

namespace Alib
namespace Execution

variable {σ Op Out Err : Type*}

structure Config (σ Op Out : Type*) where
  state : σ
  transcript : List (Op × Out)

def Config.initial (state : σ) : Config σ Op Out where
  state := state
  transcript := []

def Config.step (next : σ → Op → Except Err (Out × σ))
    (config : Config σ Op Out) (op : Op) :
    Except Err (Config σ Op Out) :=
  match next config.state op with
  | .error fault => .error fault
  | .ok (out, state) => .ok ⟨state, config.transcript ++ [(op, out)]⟩

def run (next : σ → Op → Except Err (Out × σ)) :
    Config σ Op Out → List Op → Except Err (Config σ Op Out)
  | config, [] => .ok config
  | config, op :: rest =>
      match config.step next op with
      | .error fault => .error fault
      | .ok after => run next after rest

/-- Every operation performed at a reached configuration satisfies
`condition`; nothing is asked after a fault. -/
def Meets (next : σ → Op → Except Err (Out × σ))
    (condition : Config σ Op Out → Op → Prop) :
    Config σ Op Out → List Op → Prop
  | _, [] => True
  | config, op :: rest =>
      condition config op ∧
        ∀ after, config.step next op = .ok after →
          Meets next condition after rest

/-- Every operation completes, and the configurations around it satisfy
`guarantee`. -/
def Keeps (next : σ → Op → Except Err (Out × σ))
    (guarantee : Config σ Op Out → Op → Config σ Op Out → Prop) :
    Config σ Op Out → List Op → Prop
  | _, [] => True
  | config, op :: rest =>
      ∃ after, config.step next op = .ok after ∧
        guarantee config op after ∧ Keeps next guarantee after rest

/-- The operations performed so far. -/
def Config.history (config : Config σ Op Out) : List Op :=
  config.transcript.map Prod.fst

/-- The condition holds at every operation, given those before it. -/
def Allowed (condition : List Op → Op → Prop) : List Op → List Op → Prop
  | _, [] => True
  | past, op :: rest =>
      condition past op ∧ Allowed condition (past ++ [op]) rest

instance (condition : List Op → Op → Prop)
    [∀ past op, Decidable (condition past op)] (past ops : List Op) :
    Decidable (Allowed condition past ops) := by
  induction ops generalizing past with
  | nil => exact isTrue trivial
  | cons op rest ih => exact instDecidableAnd

@[simp] theorem Config.initial_state (state : σ) :
    (Config.initial state : Config σ Op Out).state = state := rfl

@[simp] theorem Config.initial_transcript (state : σ) :
    (Config.initial state : Config σ Op Out).transcript = [] := rfl

variable {next : σ → Op → Except Err (Out × σ)}

theorem Config.step_eq_ok_iff
    {config after : Config σ Op Out} {op : Op} :
    config.step next op = .ok after ↔
      ∃ out, next config.state op = .ok (out, after.state) ∧
        after.transcript = config.transcript ++ [(op, out)] := by
  unfold Config.step
  cases hnext : next config.state op with
  | error fault => simp
  | ok result =>
      rcases result with ⟨out, state⟩
      cases after with
      | mk afterState afterTranscript =>
          simp only [Except.ok.injEq, Config.mk.injEq, Prod.mk.injEq]
          constructor
          · rintro ⟨rfl, rfl⟩
            exact ⟨out, ⟨rfl, rfl⟩, rfl⟩
          · rintro ⟨_, ⟨rfl, rfl⟩, rfl⟩
            exact ⟨rfl, rfl⟩

theorem Config.step_of_ok
    {config : Config σ Op Out} {op : Op} {out : Out} {state : σ}
    (hnext : next config.state op = .ok (out, state)) :
    config.step next op =
      .ok ⟨state, config.transcript ++ [(op, out)]⟩ := by
  simp [Config.step, hnext]

theorem Config.step_unique
    {config after other : Config σ Op Out} {op : Op}
    (hafter : config.step next op = .ok after)
    (hother : config.step next op = .ok other) : after = other := by
  rw [hafter] at hother
  exact Except.ok.inj hother

theorem Config.history_step
    {config after : Config σ Op Out} {op : Op}
    (hstep : config.step next op = .ok after) :
    after.history = config.history ++ [op] := by
  obtain ⟨out, _, htranscript⟩ := Config.step_eq_ok_iff.mp hstep
  simp [Config.history, htranscript]

theorem Config.forall_history_step {P : Op → Prop}
    {config after : Config σ Op Out} {op : Op}
    (hpast : ∀ other ∈ config.history, P other) (hop : P op)
    (hstep : config.step next op = .ok after) :
    ∀ other ∈ after.history, P other := by
  rw [Config.history_step hstep]
  intro other hother
  rcases List.mem_append.mp hother with hold | hnew
  · exact hpast other hold
  · rw [List.mem_singleton.mp hnew]
    exact hop

/-- A condition on the operations so far can be decided without running. -/
theorem meets_of_allowed {condition : List Op → Op → Prop}
    {config : Config σ Op Out} {ops : List Op}
    (h : Allowed condition config.history ops) :
    Meets next (fun config op => condition config.history op) config ops := by
  induction ops generalizing config with
  | nil => trivial
  | cons op rest ih =>
      refine ⟨h.1, fun after hafter => ih ?_⟩
      rw [Config.history_step hafter]
      exact h.2

theorem run_cons_eq_ok_iff
    {config final : Config σ Op Out} {op : Op} {ops : List Op} :
    run next config (op :: ops) = .ok final ↔
      ∃ after, config.step next op = .ok after ∧
        run next after ops = .ok final := by
  simp only [run]
  cases config.step next op with
  | error fault => simp
  | ok after => simp

theorem run_append_eq_ok_iff
    {config final : Config σ Op Out} {first second : List Op} :
    run next config (first ++ second) = .ok final ↔
      ∃ middle, run next config first = .ok middle ∧
        run next middle second = .ok final := by
  induction first generalizing config with
  | nil => simp [run]
  | cons op rest ih =>
      rw [List.cons_append, run_cons_eq_ok_iff]
      constructor
      · intro hrun
        rcases hrun with ⟨after, hafter, hrest⟩
        obtain ⟨middle, hmiddle, hsecond⟩ := ih.mp hrest
        exact ⟨middle, run_cons_eq_ok_iff.mpr ⟨after, hafter, hmiddle⟩,
          hsecond⟩
      · intro hrun
        rcases hrun with ⟨middle, hfirst, hsecond⟩
        obtain ⟨after, hafter, hmiddle⟩ := run_cons_eq_ok_iff.mp hfirst
        exact ⟨after, hafter, ih.mpr ⟨middle, hmiddle, hsecond⟩⟩

theorem history_of_run {config final : Config σ Op Out} {ops : List Op}
    (hrun : run next config ops = .ok final) :
    final.history = config.history ++ ops := by
  induction ops generalizing config with
  | nil =>
      cases hrun
      rw [List.append_nil]
  | cons op rest ih =>
      obtain ⟨after, hafter, hrest⟩ := run_cons_eq_ok_iff.mp hrun
      rw [ih hrest, Config.history_step hafter, List.append_assoc,
        List.singleton_append]

theorem run_concat {config reached final : Config σ Op Out} {ops : List Op}
    {op : Op} (hreached : run next config ops = .ok reached)
    (hstep : reached.step next op = .ok final) :
    run next config (ops ++ [op]) = .ok final :=
  run_append_eq_ok_iff.mpr
    ⟨reached, hreached, run_cons_eq_ok_iff.mpr ⟨final, hstep, rfl⟩⟩

theorem meets_of_forall
    {condition : Config σ Op Out → Op → Prop} {ops : List Op}
    (h : ∀ op ∈ ops, ∀ config, condition config op)
    (config : Config σ Op Out) : Meets next condition config ops := by
  induction ops generalizing config with
  | nil => trivial
  | cons op rest ih =>
      exact ⟨h op (by simp) config, fun after _ =>
        ih (fun other hother => h other (by simp [hother])) after⟩

theorem meets_of_run {admissible : Op → Prop} {ops : List Op}
    (hops : ∀ op ∈ ops, admissible op) {config final : Config σ Op Out}
    (hrun : run next config ops = .ok final) :
    Meets next (fun config op =>
      admissible op ∧ ∃ after, config.step next op = .ok after)
      config ops := by
  induction ops generalizing config with
  | nil => trivial
  | cons op rest ih =>
      obtain ⟨after, hafter, hrest⟩ := run_cons_eq_ok_iff.mp hrun
      refine ⟨⟨hops op (by simp), after, hafter⟩, fun other hother => ?_⟩
      obtain rfl : after = other := Config.step_unique hafter hother
      exact ih (fun next hnext => hops next (by simp [hnext])) hrest

section Rules

variable {Inv : Config σ Op Out → Prop}
  {condition admissible : Config σ Op Out → Op → Prop}
  {guarantee : Config σ Op Out → Op → Config σ Op Out → Prop}

/-- A step lemma which keeps an invariant and delivers a guarantee gives the
guarantee along every run that meets the condition. -/
theorem keeps_of_meets
    (hstep : ∀ config op, Inv config → condition config op →
      ∃ after, config.step next op = .ok after ∧
        guarantee config op after ∧ Inv after)
    {config : Config σ Op Out} (hinv : Inv config) {ops : List Op}
    (hmeets : Meets next condition config ops) :
    Keeps next guarantee config ops := by
  induction ops generalizing config with
  | nil => trivial
  | cons op rest ih =>
      rcases hmeets with ⟨hcondition, hrest⟩
      obtain ⟨after, hafter, hguarantee, hinvAfter⟩ :=
        hstep config op hinv hcondition
      exact ⟨after, hafter, hguarantee,
        ih hinvAfter (hrest after hafter)⟩

/-- The final configuration of a run that meets the condition exists and
satisfies the invariant. -/
theorem run_of_meets
    (hstep : ∀ config op, Inv config → condition config op →
      ∃ after, config.step next op = .ok after ∧ Inv after)
    {config : Config σ Op Out} (hinv : Inv config) {ops : List Op}
    (hmeets : Meets next condition config ops) :
    ∃ final, run next config ops = .ok final ∧ Inv final := by
  induction ops generalizing config with
  | nil => exact ⟨config, rfl, hinv⟩
  | cons op rest ih =>
      rcases hmeets with ⟨hcondition, hrest⟩
      obtain ⟨after, hafter, hinvAfter⟩ := hstep config op hinv hcondition
      obtain ⟨final, hfinal, hinvFinal⟩ :=
        ih hinvAfter (hrest after hafter)
      exact ⟨final, by simp [run, hafter, hfinal], hinvFinal⟩

theorem inv_of_run
    (hstep : ∀ config op after, Inv config → condition config op →
      config.step next op = .ok after → Inv after)
    {config final : Config σ Op Out} (hinv : Inv config) {ops : List Op}
    (hmeets : Meets next condition config ops)
    (hrun : run next config ops = .ok final) : Inv final := by
  induction ops generalizing config with
  | nil =>
      cases hrun
      exact hinv
  | cons op rest ih =>
      rcases hmeets with ⟨hop, hrest⟩
      obtain ⟨after, hafter, hrun⟩ := run_cons_eq_ok_iff.mp hrun
      exact ih (hstep config op after hinv hop hafter)
        (hrest after hafter) hrun

/-- When one step meets the condition exactly if it completes with the
guarantee, the same holds of whole runs: the first step which violates the
condition already breaks the guarantee. -/
theorem keeps_iff_meets
    (hiff : ∀ config op, Inv config → admissible config op →
      (condition config op ↔
        ∃ after, config.step next op = .ok after ∧
          guarantee config op after))
    (hinv : ∀ config op after, Inv config → admissible config op →
      condition config op → config.step next op = .ok after → Inv after)
    {config : Config σ Op Out} (hstart : Inv config) {ops : List Op}
    (hadmissible : Meets next admissible config ops) :
    Keeps next guarantee config ops ↔ Meets next condition config ops := by
  induction ops generalizing config with
  | nil => exact ⟨fun _ => trivial, fun _ => trivial⟩
  | cons op rest ih =>
      rcases hadmissible with ⟨hop, hrest⟩
      constructor
      · rintro ⟨after, hafter, hguarantee, hkeeps⟩
        have hcondition : condition config op :=
          (hiff config op hstart hop).mpr ⟨after, hafter, hguarantee⟩
        refine ⟨hcondition, fun other hother => ?_⟩
        obtain rfl : after = other := Config.step_unique hafter hother
        exact (ih (hinv config op after hstart hop hcondition hafter)
          (hrest after hafter)).mp hkeeps
      · rintro ⟨hcondition, hmeets⟩
        obtain ⟨after, hafter, hguarantee⟩ :=
          (hiff config op hstart hop).mp hcondition
        exact ⟨after, hafter, hguarantee,
          (ih (hinv config op after hstart hop hcondition hafter)
            (hrest after hafter)).mpr (hmeets after hafter)⟩

section Total

variable
  (htotal : ∀ config op, Inv config → admissible config op →
    ∃ after, config.step next op = .ok after ∧
      (guarantee config op after → condition config op) ∧
      (condition config op → guarantee config op after ∧ Inv after))
include htotal

/-- What a step that always completes has to satisfy for the rules on runs. -/
theorem condition_iff_of_total (config : Config σ Op Out) (op : Op)
    (hinv : Inv config) (hop : admissible config op) :
    condition config op ↔
      ∃ after, config.step next op = .ok after ∧
        guarantee config op after := by
  obtain ⟨after, hafter, hneeds, hkeeps⟩ := htotal config op hinv hop
  constructor
  · intro hcondition
    exact ⟨after, hafter, (hkeeps hcondition).1⟩
  · intro h
    rcases h with ⟨other, hother, hguarantee⟩
    obtain rfl : after = other := Config.step_unique hafter hother
    exact hneeds hguarantee

theorem inv_of_total (config : Config σ Op Out) (op : Op)
    (after : Config σ Op Out) (hinv : Inv config)
    (hop : admissible config op) (hcondition : condition config op)
    (hafter : config.step next op = .ok after) : Inv after := by
  obtain ⟨other, hother, _, hkeeps⟩ := htotal config op hinv hop
  obtain rfl : other = after := Config.step_unique hother hafter
  exact (hkeeps hcondition).2

theorem keeps_iff_meets_of_total {config : Config σ Op Out}
    (hstart : Inv config) {ops : List Op}
    (hadmissible : Meets next admissible config ops) :
    Keeps next guarantee config ops ↔ Meets next condition config ops :=
  keeps_iff_meets (condition_iff_of_total htotal) (inv_of_total htotal) hstart
    hadmissible

end Total

/-- The same for a run whose first step establishes the invariant. -/
theorem keeps_iff_meets_cons
    (hiff : ∀ config op, Inv config → admissible config op →
      (condition config op ↔
        ∃ after, config.step next op = .ok after ∧
          guarantee config op after))
    (hinv : ∀ config op after, Inv config → admissible config op →
      condition config op → config.step next op = .ok after → Inv after)
    {config : Config σ Op Out} {op : Op} {ops : List Op}
    (hfirst : condition config op ↔
      ∃ after, config.step next op = .ok after ∧ guarantee config op after)
    (hstart : ∀ after, condition config op →
      config.step next op = .ok after → Inv after)
    (hadmissible : ∀ after, config.step next op = .ok after →
      Meets next admissible after ops) :
    Keeps next guarantee config (op :: ops) ↔
      Meets next condition config (op :: ops) := by
  constructor
  · intro hkeeps
    rcases hkeeps with ⟨after, hafter, hguarantee, hrest⟩
    have hcondition := hfirst.mpr ⟨after, hafter, hguarantee⟩
    refine ⟨hcondition, fun other hother => ?_⟩
    obtain rfl : after = other := Config.step_unique hafter hother
    exact (keeps_iff_meets hiff hinv (hstart after hcondition hafter)
      (hadmissible after hafter)).mp hrest
  · intro hmeets
    rcases hmeets with ⟨hcondition, hrest⟩
    obtain ⟨after, hafter, hguarantee⟩ := hfirst.mp hcondition
    exact ⟨after, hafter, hguarantee,
      (keeps_iff_meets hiff hinv (hstart after hcondition hafter)
        (hadmissible after hafter)).mpr (hrest after hafter)⟩

end Rules

end Execution
end Alib
