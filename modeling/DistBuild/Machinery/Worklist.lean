import DistBuild.Machinery.Run

/-!
# Machinery/Worklist — a recursive visit, as a worklist

    visit a s     step a s = ([b, c], s₁);  visit b from s₁, visit c from there
    worklist      a :: l, s  ──▸  b :: c :: l, s₁  ──▸  …  ──▸  [], s'

A function that handles an item, and then calls itself on the items it has found, one after the
other, does what a worklist does that puts these items in front.  The recursion carries a fuel; with
enough of it the visit ends exactly where the worklist runs empty (`exists_visit_iff`).  What holds
of a worklist goes through one induction (`ComesTo.invariant`); that it runs empty, through a
measure of the state that falls whenever items are added (`exists_finishes`), which bounds the fuel
too (`runFrom_visit_returns`).  Two worklists that add the same items run in lockstep
(`ComesTo.lockstep`).
-/

namespace DistBuild

variable {α σ : Type*}

/-- Handle an item, then visit the items this gives, in turn. -/
def visit (step : α → σ → List α × σ) : ℕ → α → σ → Option σ
  | 0, _, _ => none
  | fuel + 1, a, s => runFrom (visit step fuel) (step a s).1 (step a s).2

/-- The worklist, started with these items in this state, runs empty in that state. -/
inductive Finishes (step : α → σ → List α × σ) : List α → σ → σ → Prop
  | nil (s : σ) : Finishes step [] s s
  | cons {a : α} {l : List α} {s u : σ} (h : Finishes step ((step a s).1 ++ l) (step a s).2 u) :
    Finishes step (a :: l) s u

/-- The worklist, started with these items in this state, comes to those in that state. -/
inductive ComesTo (step : α → σ → List α × σ) (l₀ : List α) (s₀ : σ) : List α → σ → Prop
  | start : ComesTo step l₀ s₀ l₀ s₀
  | next {a : α} {l : List α} {s : σ} (h : ComesTo step l₀ s₀ (a :: l) s) :
    ComesTo step l₀ s₀ ((step a s).1 ++ l) (step a s).2

section

variable {step : α → σ → List α × σ} {l₀ l : List α} {s₀ s u : σ}

/-- **The invariant rule**: what the start satisfies, and every step that the worklist comes to
preserves, holds wherever it comes to. -/
theorem ComesTo.invariant {I : List α → σ → Prop} (hs : I l₀ s₀)
    (hstep : ∀ a l s, ComesTo step l₀ s₀ (a :: l) s → I (a :: l) s →
      I ((step a s).1 ++ l) (step a s).2)
    (h : ComesTo step l₀ s₀ l s) : I l s := by
  induction h with
  | start => exact hs
  | next h ih => exact hstep _ _ _ h ih

theorem ComesTo.trans {l' : List α} {s' : σ} (h : ComesTo step l₀ s₀ l s)
    (h' : ComesTo step l s l' s') : ComesTo step l₀ s₀ l' s' :=
  h'.invariant h fun _ _ _ _ h => h.next

/-- A worklist that runs empty comes to its end. -/
theorem Finishes.comesTo (h : Finishes step l s u) : ComesTo step l s [] u := by
  induction h with
  | nil s => exact .start
  | cons _ ih => exact ComesTo.start.next.trans ih

/-- Wherever it comes to before, it runs empty from there. -/
theorem ComesTo.finishes (h : ComesTo step l₀ s₀ l s) (hu : Finishes step l₀ s₀ u) :
    Finishes step l s u := by
  induction h with
  | start => exact hu
  | next _ ih =>
    cases ih with
    | cons ih => exact ih

/-- It runs empty in one state. -/
theorem Finishes.unique {v : σ} (h : Finishes step l s u) (h' : Finishes step l s v) : u = v := by
  induction h with
  | nil s =>
    cases h'
    rfl
  | cons _ ih =>
    cases h' with
    | cons h' => exact ih h'

/-- What every step preserves holds at the end. -/
theorem Finishes.invariant {I : List α → σ → Prop}
    (hstep : ∀ a l s, I (a :: l) s → I ((step a s).1 ++ l) (step a s).2)
    (h : Finishes step l s u) (hs : I l s) : I [] u :=
  h.comesTo.invariant hs fun a l s _ => hstep a l s

/-- **The lockstep rule**: where two steps add the same items and keep their states related, the
second worklist comes to where the first does. -/
theorem ComesTo.lockstep {τ : Type*} {step' : α → τ → List α × τ} {R : σ → τ → Prop} {t₀ : τ}
    (hstep : ∀ a l s t, ComesTo step l₀ s₀ (a :: l) s → R s t →
      (step' a t).1 = (step a s).1 ∧ R (step a s).2 (step' a t).2)
    (hR : R s₀ t₀) (h : ComesTo step l₀ s₀ l s) : ∃ t, ComesTo step' l₀ t₀ l t ∧ R s t := by
  induction h with
  | start => exact ⟨t₀, .start, hR⟩
  | @next a l s h ih =>
    obtain ⟨t, ht, hst⟩ := ih
    obtain ⟨hitems, hR'⟩ := hstep a l s t h hst
    exact ⟨(step' a t).2, hitems ▸ ht.next, hR'⟩

/-- So it runs empty where the first does. -/
theorem Finishes.lockstep {τ : Type*} {step' : α → τ → List α × τ} {R : σ → τ → Prop} {t : τ}
    (hstep : ∀ a l' s' t, ComesTo step l s (a :: l') s' → R s' t →
      (step' a t).1 = (step a s').1 ∧ R (step a s').2 (step' a t).2)
    (hR : R s t) (h : Finishes step l s u) : ∃ v, Finishes step' l t v ∧ R u v := by
  induction h generalizing t with
  | nil s => exact ⟨t, .nil t, hR⟩
  | @cons a l s u _ ih =>
    obtain ⟨hitems, hR'⟩ := hstep a l s t .start hR
    obtain ⟨v, hv, huv⟩ := ih (fun b l' s' t h => hstep b l' s' t (ComesTo.start.next.trans h)) hR'
    exact ⟨v, .cons (hitems ▸ hv), huv⟩

/-! ### Checks along a run -/

/-- The check holds of every item, when it is handled, and the worklist runs empty with this
fuel. -/
def checkAlong (step : α → σ → List α × σ) (check : α → σ → Bool) : ℕ → List α → σ → Bool
  | _, [], _ => true
  | 0, _ :: _, _ => false
  | fuel + 1, a :: l, s => check a s && checkAlong step check fuel ((step a s).1 ++ l) (step a s).2

theorem ComesTo.of_checkAlong {check : α → σ → Bool} {fuel : ℕ}
    (hcheck : checkAlong step check fuel l₀ s₀ = true) {a : α} (h : ComesTo step l₀ s₀ (a :: l) s) :
    check a s = true := by
  have hleft : ∃ fuel, checkAlong step check fuel (a :: l) s = true := by
    refine h.invariant (I := fun l s => ∃ fuel, checkAlong step check fuel l s = true)
      ⟨fuel, hcheck⟩ fun a l s _ hs => ?_
    obtain ⟨fuel, hc⟩ := hs
    cases fuel with
    | zero => cases hc
    | succ fuel => exact ⟨fuel, (Bool.and_eq_true_iff.mp hc).2⟩
  obtain ⟨fuel, hc⟩ := hleft
  cases fuel with
  | zero => cases hc
  | succ fuel => exact (Bool.and_eq_true_iff.mp hc).1

end

variable {step : α → σ → List α × σ}

/-! ## The visit and the worklist -/

/-- More fuel makes no difference to visits that end. -/
theorem runFrom_visit_mono {fuel fuel' : ℕ} (hf : fuel ≤ fuel') {l : List α} {s u : σ}
    (h : runFrom (visit step fuel) l s = some u) : runFrom (visit step fuel') l s = some u := by
  induction fuel generalizing fuel' l s u with
  | zero =>
    cases l with
    | nil => exact h
    | cons a l =>
      obtain ⟨t, ht, -⟩ := runFrom_cons.mp h
      cases ht
  | succ fuel ih =>
    obtain ⟨fuel', rfl⟩ : ∃ k, fuel' = k + 1 := ⟨fuel' - 1, by omega⟩
    induction l generalizing s with
    | nil => exact h
    | cons a l ihl =>
      obtain ⟨t, ht, hl⟩ := runFrom_cons.mp h
      exact runFrom_cons.mpr ⟨t, ih (by omega) ht, ihl hl⟩

/-- A visit of the first items leaves the worklist with the others. -/
theorem Finishes.of_visit {fuel : ℕ} {l rest : List α} {s t u : σ}
    (h : runFrom (visit step fuel) l s = some t) (hrest : Finishes step rest t u) :
    Finishes step (l ++ rest) s u := by
  induction fuel generalizing l rest s t u with
  | zero =>
    cases l with
    | nil =>
      cases h
      exact hrest
    | cons a l =>
      obtain ⟨t', ht', -⟩ := runFrom_cons.mp h
      cases ht'
  | succ fuel ih =>
    induction l generalizing s with
    | nil =>
      cases h
      exact hrest
    | cons a l ihl =>
      obtain ⟨t', ht', hl⟩ := runFrom_cons.mp h
      exact .cons (ih ht' (ihl hl))

/-- **With enough fuel the visit ends where the worklist runs empty.** -/
theorem exists_visit_iff {l : List α} {s u : σ} :
    (∃ fuel, runFrom (visit step fuel) l s = some u) ↔ Finishes step l s u := by
  constructor
  · rintro ⟨fuel, h⟩
    have := Finishes.of_visit h (.nil u)
    rwa [List.append_nil] at this
  · intro h
    induction h with
    | nil s => exact ⟨0, rfl⟩
    | @cons a l s u _ ih =>
      obtain ⟨fuel, hfuel⟩ := ih
      obtain ⟨t, ht, hl⟩ := runFrom_append.mp hfuel
      exact ⟨fuel + 1, runFrom_cons.mpr ⟨t, ht, runFrom_visit_mono (Nat.le_succ fuel) hl⟩⟩

/-! ## Running empty -/

/-- **Visits return** if a measure never rises, and falls whenever items are added: the measure of
the state they start in bounds the fuel. -/
theorem runFrom_visit_returns {m : σ → ℕ}
    (hm : ∀ a s, (step a s).1 = [] ∧ m (step a s).2 ≤ m s ∨ m (step a s).2 < m s) {fuel : ℕ}
    {l : List α} {s : σ} (hf : m s < fuel) :
    ∃ u, runFrom (visit step fuel) l s = some u ∧ m u ≤ m s := by
  induction fuel generalizing l s with
  | zero => exact absurd hf (Nat.not_lt_zero _)
  | succ fuel ih =>
    induction l generalizing s with
    | nil => exact ⟨s, rfl, le_rfl⟩
    | cons a l ihl =>
      have hvisit : ∃ t, visit step (fuel + 1) a s = some t ∧ m t ≤ m s := by
        rcases hm a s with ⟨hnone, hle⟩ | hlt
        · exact ⟨(step a s).2, by rw [visit, hnone]; rfl, hle⟩
        · obtain ⟨t, ht, hle⟩ := ih (l := (step a s).1) (s := (step a s).2) (by omega)
          exact ⟨t, ht, hle.trans hlt.le⟩
      obtain ⟨t, ht, hle⟩ := hvisit
      obtain ⟨u, hu, hle'⟩ := ihl (s := t) (by omega)
      exact ⟨u, runFrom_cons.mpr ⟨t, ht, hu⟩, hle'.trans hle⟩

/-- **A worklist runs empty** if a measure never rises, and falls whenever items are added, in the
states its invariant allows.  The induction is on the measure, and inside one value of it on the
length of the list. -/
theorem exists_finishes {I : List α → σ → Prop}
    (hstep : ∀ a l s, I (a :: l) s → I ((step a s).1 ++ l) (step a s).2) {m : σ → ℕ}
    (hm : ∀ a l s, I (a :: l) s → (step a s).1 = [] ∧ m (step a s).2 ≤ m s ∨ m (step a s).2 < m s)
    {l : List α} {s : σ} (hs : I l s) : ∃ u, Finishes step l s u := by
  induction hn : m s using Nat.strong_induction_on generalizing l s with
  | _ n ih =>
    induction l generalizing s with
    | nil => exact ⟨s, .nil s⟩
    | cons a l ihl =>
      have hnext := hstep a l s hs
      rcases hm a l s hs with ⟨hnone, hle⟩ | hlt
      · rw [hnone, List.nil_append] at hnext
        rcases Nat.lt_or_eq_of_le hle with hlt | heq
        · obtain ⟨u, hu⟩ := ih _ (hn ▸ hlt) hnext rfl
          exact ⟨u, .cons (by rwa [hnone])⟩
        · obtain ⟨u, hu⟩ := ihl hnext (heq.trans hn)
          exact ⟨u, .cons (by rwa [hnone])⟩
      · obtain ⟨u, hu⟩ := ih _ (hn ▸ hlt) hnext rfl
        exact ⟨u, .cons hu⟩

end DistBuild
