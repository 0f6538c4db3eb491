import Mathlib

/-!
# Machinery/Tables — a keyed table, and the writes that made it

    put k v                 the entry of k is v, whatever it was
    act f                   every entry goes through f, which changes or erases it

What a key holds is what was put there last, gone through every `act` since (`run_eq_some_iff`):
earlier puts, and the puts of other keys, leave no trace.
-/

namespace DistBuild

namespace Tables

variable {K V : Type*}

inductive Event (K V : Type*)
  | put (k : K) (v : V)
  | act (f : K → V → Option V)

/-- What becomes of `v` at `k` through the events that put nothing there. -/
def survives (k : K) : List (Event K V) → V → Option V
  | [], v => some v
  | .put _ _ :: es, v => survives k es v
  | .act f :: es, v => (f k v).bind (survives k es)

theorem survives_append (k : K) (es es' : List (Event K V)) (v : V) :
    survives k (es ++ es') v = (survives k es v).bind (survives k es') := by
  induction es generalizing v with
  | nil => rfl
  | cons e es ih =>
    cases e with
    | put k' v' => exact ih v
    | act f =>
      refine (Option.bind_congr fun u _ => ih u).trans ?_
      exact (Option.bind_assoc ..).symm

/-- The events put nothing at `k`. -/
def Spares (k : K) (es : List (Event K V)) : Prop := ∀ v, Event.put k v ∉ es

variable [DecidableEq K]

def Event.apply (T : K → Option V) : Event K V → K → Option V
  | put k v => Function.update T k (some v)
  | act f => fun k => (T k).bind (f k)

/-- The table after the events, from an empty one. -/
def run (es : List (Event K V)) : K → Option V := es.foldl Event.apply fun _ => none

theorem run_concat (es : List (Event K V)) (e : Event K V) :
    run (es ++ [e]) = Event.apply (run es) e := by
  rw [run, List.foldl_append]
  rfl

/-- **What a key holds is what was put there last**, gone through the events since. -/
theorem run_eq_some_iff {es : List (Event K V)} {k : K} {v : V} :
    run es k = some v ↔ ∃ before v₀ after, es = before ++ .put k v₀ :: after ∧ Spares k after
      ∧ survives k after v₀ = some v := by
  induction es using List.reverseRecOn generalizing v with
  | nil =>
    refine iff_of_false nofun ?_
    rintro ⟨before, v₀, after, h, -⟩
    simp at h
  | append_singleton es e ih =>
    have hlast : (∃ before v₀ after, es ++ [e] = before ++ .put k v₀ :: after ∧ Spares k after
          ∧ survives k after v₀ = some v)
        ↔ e = .put k v ∨ (∀ v', e ≠ .put k v') ∧ ∃ u, run es k = some u
          ∧ survives k [e] u = some v := by
      constructor
      · rintro ⟨before, v₀, after, heq, hspares, hv⟩
        rcases List.eq_nil_or_concat after with rfl | ⟨after, e', rfl⟩
        · obtain ⟨-, he⟩ := List.append_inj' heq rfl
          obtain rfl := List.singleton_inj.mp he
          exact Or.inl (congrArg _ (Option.some.inj hv))
        · rw [List.concat_eq_append] at heq hspares hv
          have hcut : es ++ [e] = (before ++ .put k v₀ :: after) ++ [e'] := heq.trans (by simp)
          obtain ⟨rfl, he⟩ := List.append_inj' hcut rfl
          obtain rfl := List.singleton_inj.mp he
          rw [survives_append] at hv
          obtain ⟨u, hu, hv⟩ := Option.bind_eq_some_iff.mp hv
          refine Or.inr ⟨fun v' he => hspares v' (by simp [he]), u, ih.mpr ?_, hv⟩
          exact ⟨before, v₀, after, rfl, fun v' hv' => hspares v' (List.mem_append_left _ hv'), hu⟩
      · rintro (rfl | ⟨hne, u, hu, hv⟩)
        · exact ⟨es, v, [], rfl, fun _ => List.not_mem_nil, rfl⟩
        · obtain ⟨before, v₀, after, rfl, hspares, hu⟩ := ih.mp hu
          refine ⟨before, v₀, after ++ [e], by simp, fun v' hv' => ?_, ?_⟩
          · rcases List.mem_append.mp hv' with hv' | hv'
            · exact hspares v' hv'
            · exact hne v' (List.mem_singleton.mp hv').symm
          · rw [survives_append, hu]
            exact hv
    rw [hlast, run_concat]
    cases e with
    | put k' v' =>
      rw [Event.apply]
      by_cases hk : k' = k
      · subst hk
        simp
      · rw [Function.update_of_ne (Ne.symm hk)]
        simp [hk, survives]
    | act f =>
      simp [Event.apply, survives, Option.bind_eq_some_iff]

end Tables

end DistBuild
