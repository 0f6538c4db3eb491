import DistBuild.Machinery.Run

/-!
# Machinery/History — what a run has logged

    s₀ ──a₁──▸ s₁ ──a₂──▸ s₂ ──▸ …        history   log a₁ s₀ ++ log a₂ s₁ ++ …

A log is written before the step is taken, and only if it is.  Statements that say what a state owes
to the steps before it are invariants of the history and the state together.
-/

namespace DistBuild

variable {State Label Out : Type*}

/-- What the steps of a run log, in order, where `a`, taken from `s`, logs `log a s`. -/
def history (step : Label → State → Option State) (log : Label → State → List Out) :
    List Label → State → List Out
  | [], _ => []
  | a :: as, s => (step a s).elim [] fun t => log a s ++ history step log as t

theorem history_cons_of_step {step : Label → State → Option State}
    {log : Label → State → List Out} {a : Label} {as : List Label} {s t : State}
    (hs : step a s = some t) : history step log (a :: as) s = log a s ++ history step log as t := by
  simp [history, hs]

/-- The rule for the history of a guarded run. -/
theorem Meets.history {step : Label → State → Option State} {guard : Label → State → Prop}
    {log : Label → State → List Out} {I : List Out → State → Prop}
    (hstep : ∀ a s t h, guard a s → step a s = some t → I h s → I (h ++ log a s) t)
    {as : List Label} {s t : State} (hm : Meets step guard as s) (hr : runFrom step as s = some t)
    (hs : I [] s) : I (DistBuild.history step log as s) t := by
  suffices hgen : ∀ h s, Meets step guard as s → runFrom step as s = some t → I h s →
      I (h ++ DistBuild.history step log as s) t from hgen [] s hm hr hs
  clear hm hr hs
  induction as with
  | nil =>
    intro h s _ hr hs
    obtain rfl : s = t := Option.some.inj hr
    simpa [DistBuild.history] using hs
  | cons a as ih =>
    intro h s hm hr hs
    obtain ⟨u, hu, hr⟩ := runFrom_cons.mp hr
    obtain ⟨hg, hm⟩ := hm.cons_of_step hu
    rw [history_cons_of_step hu, ← List.append_assoc]
    exact ih _ u hm hr (hstep a s u h hg hu hs)

/-- **The rule for the history of a run.** -/
theorem history_invariant {step : Label → State → Option State} {log : Label → State → List Out}
    {I : List Out → State → Prop}
    (hstep : ∀ a s t h, step a s = some t → I h s → I (h ++ log a s) t)
    {as : List Label} {s t : State} (hr : runFrom step as s = some t) (hs : I [] s) :
    I (history step log as s) t := by
  have hm : Meets step (fun _ _ => True) as s := .of_labels (fun _ _ => trivial) s
  exact hm.history (fun a s t h _ => hstep a s t h) hr hs

/-- What is logged is logged by one of the steps. -/
theorem exists_of_mem_history {step : Label → State → Option State}
    {log : Label → State → List Out} {as : List Label} {s : State} {o : Out}
    (h : o ∈ history step log as s) : ∃ a ∈ as, ∃ t, o ∈ log a t := by
  induction as generalizing s with
  | nil => exact absurd h List.not_mem_nil
  | cons a as ih =>
    rw [history] at h
    cases hs : step a s with
    | none =>
      rw [hs] at h
      exact absurd h List.not_mem_nil
    | some t =>
      rw [hs] at h
      rcases List.mem_append.mp h with h | h
      · exact ⟨a, List.mem_cons_self, s, h⟩
      · obtain ⟨b, hb, hlog⟩ := ih h
        exact ⟨b, List.mem_cons_of_mem a hb, hlog⟩

/-- A run that logs its labels logs all of them. -/
theorem history_labels {step : Label → State → Option State} {as : List Label} {s t : State}
    (hr : runFrom step as s = some t) : history step (fun a _ => [a]) as s = as := by
  induction as generalizing s with
  | nil => rfl
  | cons a as ih =>
    obtain ⟨u, hu, hr⟩ := runFrom_cons.mp hr
    rw [history_cons_of_step hu, ih hr, List.singleton_append]

/-- The rule for a run and its labels. -/
theorem labels_invariant {step : Label → State → Option State} {I : List Label → State → Prop}
    (hstep : ∀ a s t h, step a s = some t → I h s → I (h ++ [a]) t)
    {as : List Label} {s t : State} (hr : runFrom step as s = some t) (hs : I [] s) : I as t := by
  rw [← history_labels hr]
  exact history_invariant hstep hr hs

end DistBuild
