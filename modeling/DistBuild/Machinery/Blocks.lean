import Mathlib

/-!
# Machinery/Blocks — a list read in blocks of a fixed size

The read loop of a buffered transfer: take `n` elements while there are any.  All blocks but the
last are full, and the last one is full exactly when `n` divides the length (`blocks_eq_append`) —
the fact a receiver needs that takes a short block for the end.
-/

namespace DistBuild

variable {α : Type*}

/-- The blocks a read loop with a buffer of `n` elements delivers. -/
def blocks (n : ℕ) (l : List α) : List (List α) :=
  if _h : l = [] ∨ n = 0 then [] else l.take n :: blocks n (l.drop n)
termination_by l.length
decreasing_by
  have : l.length ≠ 0 := fun h0 => _h (Or.inl (List.length_eq_zero_iff.mp h0))
  simp only [List.length_drop]
  omega

@[simp] theorem blocks_nil (n : ℕ) : blocks n ([] : List α) = [] := by
  rw [blocks]
  simp

theorem blocks_of_ne_nil {n : ℕ} (hn : 0 < n) {l : List α} (hl : l ≠ []) :
    blocks n l = l.take n :: blocks n (l.drop n) := by
  rw [blocks, dif_neg (by simp [hl]; omega)]

/-- The blocks, joined, are the list. -/
theorem flatten_blocks {n : ℕ} (hn : 0 < n) (l : List α) : (blocks n l).flatten = l := by
  induction l using blocks.induct (n := n) with
  | case1 l h =>
    obtain rfl | h0 := h
    · simp
    · omega
  | case2 l h ih =>
    rw [blocks_of_ne_nil hn fun h0 => h (Or.inl h0), List.flatten_cons, ih,
      List.take_append_drop]

theorem length_le_of_mem_blocks {n : ℕ} (hn : 0 < n) {l b : List α} (hb : b ∈ blocks n l) :
    b.length ≤ n := by
  induction l using blocks.induct (n := n) with
  | case1 l h =>
    obtain rfl | h0 := h
    · simp at hb
    · omega
  | case2 l h ih =>
    rw [blocks_of_ne_nil hn fun h0 => h (Or.inl h0), List.mem_cons] at hb
    rcases hb with rfl | hb
    · rw [List.length_take]
      exact min_le_left _ _
    · exact ih hb

/-- **All blocks but the last are full, and the last is short unless `n` divides the length.** -/
theorem blocks_eq_append {n : ℕ} (hn : 0 < n) {l : List α} (hl : l ≠ []) :
    ∃ init last, blocks n l = init ++ [last] ∧ (∀ b ∈ init, b.length = n)
      ∧ (last.length < n ↔ ¬ n ∣ l.length) := by
  induction l using blocks.induct (n := n) with
  | case1 l h =>
    obtain h0 | h0 := h
    · exact absurd h0 hl
    · omega
  | case2 l h ih =>
    by_cases hd : l.drop n = []
    · have hle : l.length ≤ n := List.drop_eq_nil_iff.mp hd
      have hpos : 0 < l.length := List.length_pos_iff.mpr hl
      refine ⟨[], l.take n, by rw [blocks_of_ne_nil hn hl, hd]; simp, by simp, ?_⟩
      rw [List.length_take, min_eq_right hle]
      refine ⟨fun hlt hdvd => absurd (Nat.le_of_dvd hpos hdvd) (by omega), fun hnd => ?_⟩
      exact lt_of_le_of_ne hle fun he => hnd (he ▸ dvd_rfl)
    · obtain ⟨init, last, heq, hfull, hlast⟩ := ih hd
      have hlt : n < l.length := by
        by_contra hc
        exact hd (List.drop_eq_nil_iff.mpr (by omega))
      refine ⟨l.take n :: init, last, by rw [blocks_of_ne_nil hn hl, heq]; rfl, ?_, ?_⟩
      · intro b hb
        rcases List.mem_cons.mp hb with rfl | hb
        · rw [List.length_take, min_eq_left hlt.le]
        · exact hfull b hb
      · rw [hlast, List.length_drop, Nat.dvd_sub_iff_left hlt.le dvd_rfl]

end DistBuild
