import Mathlib

/-!
# Machinery/Registry — get or create, as one call

    getOrCreate k      the entry of k, if there is one
                       else a new entry under the next number, if one can be made for k

The entries are numbered in the order in which they are made, so that the number tells them apart
as an address does.  `Serves calls R`: the calls, one after the other, had these results and left
`R`.  An implementation that looks and makes in separate steps is right if its calls are served in
some order.
-/

namespace DistBuild

structure Registry (K A : Type*) where
  entries : K → Option (ℕ × A)
  next : ℕ

namespace Registry

variable {K A : Type*} [DecidableEq K] {make : K → Option A}

def empty : Registry K A := ⟨fun _ => none, 0⟩

def insert (R : Registry K A) (k : K) (a : A) : Registry K A :=
  ⟨Function.update R.entries k (some (R.next, a)), R.next + 1⟩

def getOrCreate (make : K → Option A) (k : K) (R : Registry K A) :
    Option (ℕ × A) × Registry K A :=
  match R.entries k, make k with
  | some e, _ => (some e, R)
  | none, some a => (some (R.next, a), R.insert k a)
  | none, none => (none, R)

/-- The calls and their results, from an empty registry to `R`. -/
inductive Serves (make : K → Option A) : List (K × Option (ℕ × A)) → Registry K A → Prop
  | nil : Serves make [] empty
  | concat {calls R} (h : Serves make calls R) (k : K) :
    Serves make (calls ++ [(k, (getOrCreate make k R).1)]) (getOrCreate make k R).2

theorem getOrCreate_found {R : Registry K A} {k : K} {e : ℕ × A} (h : R.entries k = some e) :
    getOrCreate make k R = (some e, R) := by
  rw [getOrCreate, h]

theorem getOrCreate_made {R : Registry K A} {k : K} {a : A} (h : R.entries k = none)
    (ha : make k = some a) : getOrCreate make k R = (some (R.next, a), R.insert k a) := by
  rw [getOrCreate, h, ha]

theorem getOrCreate_refused {R : Registry K A} {k : K} (h : R.entries k = none)
    (ha : make k = none) : getOrCreate make k R = (none, R) := by
  rw [getOrCreate, h, ha]

/-- What a call does to the registry: nothing, or one entry more. -/
theorem getOrCreate_cases (make : K → Option A) (k : K) (R : Registry K A) :
    (getOrCreate make k R).2 = R
      ∨ R.entries k = none ∧ ∃ a, make k = some a ∧ (getOrCreate make k R).2 = R.insert k a := by
  cases hk : R.entries k with
  | some e => exact Or.inl (congrArg Prod.snd (getOrCreate_found hk))
  | none =>
    cases ha : make k with
    | some a => exact Or.inr ⟨rfl, a, rfl, congrArg Prod.snd (getOrCreate_made hk ha)⟩
    | none => exact Or.inl (congrArg Prod.snd (getOrCreate_refused hk ha))

theorem entries_insert {R : Registry K A} {k k' : K} {a : A} {e : ℕ × A}
    (h : (R.insert k a).entries k' = some e) :
    k' = k ∧ e = (R.next, a) ∨ k' ≠ k ∧ R.entries k' = some e := by
  by_cases hk : k' = k
  · subst hk
    have hself : (R.insert k' a).entries k' = some (R.next, a) := Function.update_self ..
    exact Or.inl ⟨rfl, Option.some.inj (h.symm.trans hself)⟩
  · exact Or.inr ⟨hk, (Function.update_of_ne hk ..).symm.trans h⟩

namespace Serves

variable {calls : List (K × Option (ℕ × A))} {R : Registry K A}

/-- Entries were made, under numbers that are used up. -/
theorem made (h : Serves make calls R) {k : K} {e : ℕ × A} (hk : R.entries k = some e) :
    make k = some e.2 ∧ e.1 < R.next := by
  induction h generalizing k e with
  | nil => exact absurd hk nofun
  | @concat calls R h k' ih =>
    rcases getOrCreate_cases make k' R with heq | ⟨-, a, ha, heq⟩
    · rw [heq] at hk ⊢
      exact ih hk
    · rw [heq] at hk ⊢
      rcases entries_insert hk with ⟨rfl, rfl⟩ | ⟨-, hk⟩
      · exact ⟨ha, Nat.lt_succ_self _⟩
      · exact ⟨(ih hk).1, (ih hk).2.trans (Nat.lt_succ_self _)⟩

/-- **Numbers tell entries apart**: a new entry has one that no other has. -/
theorem eq_of_number_eq (h : Serves make calls R) {k k' : K} {e e' : ℕ × A}
    (hk : R.entries k = some e) (hk' : R.entries k' = some e') (he : e.1 = e'.1) : k = k' := by
  induction h generalizing k k' e e' with
  | nil => exact absurd hk nofun
  | @concat calls R h k₀ ih =>
    rcases getOrCreate_cases make k₀ R with heq | ⟨-, a, -, heq⟩
    · rw [heq] at hk hk'
      exact ih hk hk' he
    · rw [heq] at hk hk'
      rcases entries_insert hk with ⟨rfl, rfl⟩ | ⟨-, hold⟩
      · rcases entries_insert hk' with ⟨rfl, -⟩ | ⟨-, hold'⟩
        · rfl
        · exact absurd he (h.made hold').2.ne'
      · rcases entries_insert hk' with ⟨rfl, rfl⟩ | ⟨-, hold'⟩
        · exact absurd he (h.made hold).2.ne
        · exact ih hold hold' he

/-- An entry stays as it is. -/
theorem entry_getOrCreate {k k₀ : K} {e : ℕ × A} (hk : R.entries k = some e) :
    (getOrCreate make k₀ R).2.entries k = some e := by
  rcases getOrCreate_cases make k₀ R with heq | ⟨hnone, a, -, heq⟩
  · rwa [heq]
  · rw [heq]
    refine (Function.update_of_ne ?_ ..).trans hk
    rintro rfl
    exact absurd (hnone.symm.trans hk) nofun

/-- **What a call returned is the entry** from then on. -/
theorem found (h : Serves make calls R) {k : K} {e : ℕ × A} (hmem : (k, some e) ∈ calls) :
    R.entries k = some e := by
  induction h with
  | nil => exact absurd hmem List.not_mem_nil
  | @concat calls R h k' ih =>
    rcases List.mem_append.mp hmem with hmem | hmem
    · exact entry_getOrCreate (ih hmem)
    · obtain ⟨rfl, he⟩ := Prod.mk.inj (List.mem_singleton.mp hmem)
      cases hk : R.entries k with
      | some e' =>
        rw [getOrCreate_found hk] at he ⊢
        rw [hk, he]
      | none =>
        cases ha : make k with
        | some a =>
          rw [getOrCreate_made hk ha] at he ⊢
          rw [he]
          exact Function.update_self ..
        | none =>
          rw [getOrCreate_refused hk ha] at he
          exact absurd he nofun

end Serves

end Registry

end DistBuild
