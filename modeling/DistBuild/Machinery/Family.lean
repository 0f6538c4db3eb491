import DistBuild.Machinery.History

/-!
# Machinery/Family — components that act on their own

    x₀  x₁  x₂  …        a change adds a component, or one of them takes a step of its own

A component logs how it was made and what it does, under its number (`Change.log`).  What holds of a
new component, and is kept by a component's step given what it has logged before, holds of each
component after any changes (`Family.Each`).
-/

namespace DistBuild

variable {C A Out : Type*}

inductive Change (C A : Type*)
  | create (x : C)
  | act (c : ℕ) (a : A)

namespace Change

def apply (step : A → C → Option C) : Change C A → List C → Option (List C)
  | .create x, xs => some (xs ++ [x])
  | .act c a, xs => do
    let x ← xs[c]?
    let y ← step a x
    return xs.set c y

/-- What a change logs, with the number of the component. -/
def log (born : C → List Out) (does : A → C → List Out) : Change C A → List C → List (ℕ × Out)
  | .create x, xs => (born x).map (xs.length, ·)
  | .act c a, xs => (xs[c]?.elim [] (does a)).map (c, ·)

variable {step : A → C → Option C} {xs ys : List C} {c : ℕ} {a : A}

theorem apply_act_eq_some :
    (act c a).apply step xs = some ys
      ↔ ∃ x y, xs[c]? = some x ∧ step a x = some y ∧ ys = xs.set c y := by
  simp only [apply, Option.bind_eq_bind, Option.bind_eq_some_iff, Option.pure_def,
    Option.some.injEq, eq_comm (a := ys)]
  constructor
  · rintro ⟨x, hx, y, hy, rfl⟩
    exact ⟨x, y, hx, hy, rfl⟩
  · rintro ⟨x, y, hx, hy, rfl⟩
    exact ⟨x, hx, y, hy, rfl⟩

theorem log_act {born : C → List Out} {does : A → C → List Out} {x : C} (hx : xs[c]? = some x) :
    (act c a).log born does xs = (does a x).map (c, ·) := by
  rw [log, hx]
  rfl

end Change

namespace Family

/-! ## Counting and finding components after a change -/

section

variable {xs : List C} {c : ℕ} {x : C}

theorem countP_set {p : C → Bool} (hx : xs[c]? = some x) (y : C) :
    (xs.set c y).countP p + (p x).toNat = xs.countP p + (p y).toNat := by
  obtain ⟨hc, hget⟩ := List.getElem?_eq_some_iff.mp hx
  have hpos : p x = true → 0 < xs.countP p := fun hp =>
    List.countP_pos_iff.mpr ⟨x, hget ▸ List.getElem_mem hc, hp⟩
  rw [List.countP_set hc, hget]
  cases hp : p x
  · cases p y <;> simp
  · have := hpos hp
    cases p y <;> simp <;> omega

/-- There is a component at `c` that satisfies `P`. -/
def Has (P : C → Prop) (xs : List C) (c : ℕ) : Prop := ∃ x, xs[c]? = some x ∧ P x

theorem has_set {P : C → Prop} (hx : xs[c]? = some x) {y : C} {c' : ℕ} :
    Has P (xs.set c y) c' ↔ c' = c ∧ P y ∨ c' ≠ c ∧ Has P xs c' := by
  have hc : c < xs.length := (List.getElem?_eq_some_iff.mp hx).1
  by_cases h : c' = c
  · subst h
    simp [Has, List.getElem?_set_self hc]
  · simp [Has, List.getElem?_set_ne (Ne.symm h), h]

theorem has_concat {P : C → Prop} {y : C} {c' : ℕ} :
    Has P (xs ++ [y]) c' ↔ Has P xs c' ∨ c' = xs.length ∧ P y := by
  constructor
  · rintro ⟨z, hz, hP⟩
    rcases Nat.lt_or_ge c' xs.length with hc | hc
    · exact Or.inl ⟨z, (List.getElem?_append_left hc).symm.trans hz, hP⟩
    · have hlen : c' = xs.length := by
        have := (List.getElem?_eq_some_iff.mp hz).1
        rw [List.length_append, List.length_singleton] at this
        omega
      subst hlen
      rw [List.getElem?_concat_length] at hz
      exact Or.inr ⟨rfl, Option.some.inj hz ▸ hP⟩
  · rintro (⟨z, hz, hP⟩ | ⟨rfl, hP⟩)
    · have hc : c' < xs.length := (List.getElem?_eq_some_iff.mp hz).1
      exact ⟨z, (List.getElem?_append_left hc).trans hz, hP⟩
    · exact ⟨y, List.getElem?_concat_length, hP⟩

end

/-! ## Logs -/

/-- What the component at `c` has logged. -/
def logOf (c : ℕ) (l : List (ℕ × Out)) : List Out := (l.filter (·.1 = c)).map Prod.snd

@[simp] theorem logOf_append (c : ℕ) (l l' : List (ℕ × Out)) :
    logOf c (l ++ l') = logOf c l ++ logOf c l' := by
  simp [logOf]

@[simp] theorem logOf_map_self (c : ℕ) (out : List Out) : logOf c (out.map (c, ·)) = out := by
  simp [logOf, List.filter_map, Function.comp_def]

theorem logOf_map_of_ne {c c' : ℕ} (h : c' ≠ c) (out : List Out) :
    logOf c (out.map (c', ·)) = [] := by
  simp [logOf, List.filter_map, Function.comp_def, h]

theorem mem_logOf {c : ℕ} {l : List (ℕ × Out)} {o : Out} : o ∈ logOf c l ↔ (c, o) ∈ l := by
  simp [logOf]

/-- Of each component, with what it has logged. -/
structure Each (I : List Out → C → Prop) (l : List (ℕ × Out)) (xs : List C) : Prop where
  known : ∀ e ∈ l, e.1 < xs.length
  each : ∀ c x, xs[c]? = some x → I (logOf c l) x

variable {step : A → C → Option C} {xs ys : List C} {I : List Out → C → Prop}
  {l : List (ℕ × Out)}

theorem each_nil : Each I [] [] where
  known _ h := absurd h List.not_mem_nil
  each c _ h := absurd h (by simp)

/-- Nobody has logged under a number that is not taken. -/
theorem Each.logOf_length (h : Each I l xs) : logOf xs.length l = [] := by
  refine List.eq_nil_iff_forall_not_mem.mpr fun o ho => ?_
  exact absurd (h.known _ (mem_logOf.mp ho)) (Nat.lt_irrefl _)

/-- **The rule for families.** -/
theorem Each.apply {born : C → List Out} {does : A → C → List Out} {ch : Change C A}
    (hnew : ∀ x, ch = .create x → I (born x) x)
    (hstep : ∀ a x y h, step a x = some y → I h x → I (h ++ does a x) y)
    (h : Each I l xs) (happly : ch.apply step xs = some ys) :
    Each I (l ++ ch.log born does xs) ys := by
  cases ch with
  | create x =>
    obtain rfl := Option.some.inj happly
    constructor
    · intro e he
      rw [List.length_append]
      rcases List.mem_append.mp he with he | he
      · exact Nat.lt_add_right _ (h.known e he)
      · obtain ⟨o, -, rfl⟩ := List.mem_map.mp he
        exact Nat.lt_succ_self _
    · intro c y hy
      rw [logOf_append, Change.log]
      rcases Nat.lt_or_ge c xs.length with hc | hc
      · rw [List.getElem?_append_left hc] at hy
        rw [logOf_map_of_ne hc.ne', List.append_nil]
        exact h.each c y hy
      · have hlen : c = xs.length := by
          have := (List.getElem?_eq_some_iff.mp hy).1
          rw [List.length_append, List.length_singleton] at this
          omega
        subst hlen
        rw [List.getElem?_concat_length] at hy
        obtain rfl := Option.some.inj hy
        rw [logOf_map_self, h.logOf_length]
        exact hnew x rfl
  | act c₀ a =>
    obtain ⟨x, x', hx, hx', rfl⟩ := Change.apply_act_eq_some.mp happly
    have hc₀ : c₀ < xs.length := (List.getElem?_eq_some_iff.mp hx).1
    rw [Change.log_act hx]
    constructor
    · intro e he
      rw [List.length_set]
      rcases List.mem_append.mp he with he | he
      · exact h.known e he
      · obtain ⟨o, -, rfl⟩ := List.mem_map.mp he
        exact hc₀
    · intro c y hy
      rw [logOf_append]
      by_cases hc : c₀ = c
      · subst hc
        rw [List.getElem?_set_self hc₀] at hy
        obtain rfl := Option.some.inj hy
        rw [logOf_map_self]
        exact hstep a x x' _ hx' (h.each c₀ x hx)
      · rw [List.getElem?_set_ne hc] at hy
        rw [logOf_map_of_ne hc, List.append_nil]
        exact h.each c y hy

end Family

end DistBuild
