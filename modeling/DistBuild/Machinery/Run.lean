import Mathlib

/-!
# Machinery/Run — runs of a labelled partial step, and the invariant rule

A system is a partial step `step : Label → State → Option State`; `none` says the label is not
enabled.  A **guarded** run takes every one of its steps in a state where a condition `guard` holds
of the label, so a statement "in every run whose steps all meet the condition" is a statement about
`Meets`.  Everything about a run goes through one induction (`Meets.invariant`); where what the
steps emit matters too, through `emitted_invariant`.
-/

namespace DistBuild

variable {State Label : Type*}

/-- The state a run ends in, if each of its labels is enabled when it is reached. -/
def runFrom (step : Label → State → Option State) : List Label → State → Option State
  | [], s => some s
  | a :: as, s => (step a s).bind (runFrom step as)

@[simp] theorem runFrom_nil (step : Label → State → Option State) (s : State) :
    runFrom step [] s = some s := rfl

theorem runFrom_cons {step : Label → State → Option State} {a : Label} {as : List Label}
    {s u : State} :
    runFrom step (a :: as) s = some u ↔ ∃ t, step a s = some t ∧ runFrom step as t = some u := by
  simp [runFrom, Option.bind_eq_some_iff]

theorem runFrom_append {step : Label → State → Option State} {as bs : List Label} {s u : State} :
    runFrom step (as ++ bs) s = some u
      ↔ ∃ t, runFrom step as s = some t ∧ runFrom step bs t = some u := by
  induction as generalizing s with
  | nil => simp
  | cons a as ih =>
    simp only [List.cons_append, runFrom_cons, ih]
    constructor
    · rintro ⟨t, ht, v, hv, hu⟩
      exact ⟨v, ⟨t, ht, hv⟩, hu⟩
    · rintro ⟨v, ⟨t, ht, hv⟩, hu⟩
      exact ⟨t, ht, v, hv, hu⟩

theorem runFrom_map {Label' : Type*} (step : Label' → State → Option State) (f : Label → Label')
    (as : List Label) (s : State) :
    runFrom step (as.map f) s = runFrom (fun a => step (f a)) as s := by
  induction as generalizing s with
  | nil => rfl
  | cons a as ih => exact congrArg _ (funext ih)

/-- Every step of the run is taken where the guard holds. -/
def Meets (step : Label → State → Option State) (guard : Label → State → Prop) :
    List Label → State → Prop
  | [], _ => True
  | a :: as, s => guard a s ∧ (step a s).elim True (Meets step guard as)

instance Meets.decidable (step : Label → State → Option State) (guard : Label → State → Prop)
    [∀ a s, Decidable (guard a s)] : ∀ as s, Decidable (Meets step guard as s)
  | [], _ => inferInstanceAs (Decidable True)
  | a :: as, s =>
    match h : step a s with
    | none => decidable_of_iff (guard a s) (by simp [Meets, h])
    | some t =>
      letI := Meets.decidable step guard as t
      decidable_of_iff (guard a s ∧ Meets step guard as t) (by simp [Meets, h])

theorem Meets.cons_of_step {step : Label → State → Option State} {guard : Label → State → Prop}
    {a : Label} {as : List Label} {s t : State} (h : Meets step guard (a :: as) s)
    (hs : step a s = some t) : guard a s ∧ Meets step guard as t := by
  simpa [Meets, hs] using h

/-- A condition on the labels alone is met by a run whose labels meet it. -/
theorem Meets.of_labels {step : Label → State → Option State} {guard : Label → Prop}
    {as : List Label} (h : ∀ a ∈ as, guard a) (s : State) :
    Meets step (fun a _ => guard a) as s := by
  induction as generalizing s with
  | nil => trivial
  | cons a as ih =>
    obtain ⟨ha, has⟩ := List.forall_mem_cons.mp h
    refine ⟨ha, ?_⟩
    cases step a s with
    | none => trivial
    | some t => exact ih has t

/-- **The invariant rule**: what the start satisfies and every guarded step preserves holds where
the run ends. -/
theorem Meets.invariant {step : Label → State → Option State} {guard : Label → State → Prop}
    {I : State → Prop}
    (hstep : ∀ a s t, guard a s → step a s = some t → I s → I t)
    {as : List Label} {s t : State} (hm : Meets step guard as s)
    (hr : runFrom step as s = some t) (hs : I s) : I t := by
  induction as generalizing s with
  | nil =>
    cases hr
    exact hs
  | cons a as ih =>
    obtain ⟨u, hu, hr⟩ := runFrom_cons.mp hr
    obtain ⟨hg, hm⟩ := hm.cons_of_step hu
    exact ih hm hr (hstep a s u hg hu hs)

/-- A run splits where one of its steps is taken: the prefix meets the guard, and so does the
step. -/
theorem Meets.split {step : Label → State → Option State} {guard : Label → State → Prop}
    {as : List Label} {a : Label} {s t : State} (hm : Meets step guard (as ++ [a]) s)
    (hr : runFrom step as s = some t) : Meets step guard as s ∧ guard a t := by
  induction as generalizing s with
  | nil =>
    cases hr
    exact ⟨trivial, hm.1⟩
  | cons b as ih =>
    obtain ⟨u, hu, hr⟩ := runFrom_cons.mp hr
    obtain ⟨hg, hm⟩ := (show Meets step guard (b :: (as ++ [a])) s from hm).cons_of_step hu
    obtain ⟨hm, ha⟩ := ih hm hr
    exact ⟨⟨hg, by simpa [hu] using hm⟩, ha⟩

/-- The rule for runs under no condition. -/
theorem runFrom_invariant {step : Label → State → Option State} {I : State → Prop}
    (hstep : ∀ a s t, step a s = some t → I s → I t)
    {as : List Label} {s t : State} (hr : runFrom step as s = some t) (hs : I s) : I t := by
  have hm : Meets step (fun _ _ => True) as s := .of_labels (fun _ _ => trivial) s
  exact hm.invariant (fun a s t _ => hstep a s t) hr hs

/-! ## What a run emits -/

variable {Out : Type*}

/-- What the steps of a run emit, in order, where a step from `s` to `t` emits `emit s t`. -/
def emitted (step : Label → State → Option State) (emit : State → State → List Out) :
    List Label → State → List Out
  | [], _ => []
  | a :: as, s => (step a s).elim [] fun t => emit s t ++ emitted step emit as t

theorem emitted_cons_of_step {step : Label → State → Option State}
    {emit : State → State → List Out} {a : Label} {as : List Label} {s t : State}
    (hs : step a s = some t) :
    emitted step emit (a :: as) s = emit s t ++ emitted step emit as t := by
  simp [emitted, hs]

/-- **The rule for what a run has emitted so far.** -/
theorem emitted_invariant {step : Label → State → Option State} {emit : State → State → List Out}
    {I : List Out → State → Prop}
    (hstep : ∀ a s t h, step a s = some t → I h s → I (h ++ emit s t) t)
    {as : List Label} {s t : State} (hr : runFrom step as s = some t) (hs : I [] s) :
    I (emitted step emit as s) t := by
  suffices hgen : ∀ h s, runFrom step as s = some t → I h s → I (h ++ emitted step emit as s) t from
    hgen [] s hr hs
  clear hr hs
  induction as with
  | nil =>
    intro h s hr hs
    cases hr
    simpa [emitted] using hs
  | cons a as ih =>
    intro h s hr hs
    obtain ⟨u, hu, hr⟩ := runFrom_cons.mp hr
    rw [emitted_cons_of_step hu, ← List.append_assoc]
    exact ih _ u hr (hstep a s u h hu hs)

end DistBuild
