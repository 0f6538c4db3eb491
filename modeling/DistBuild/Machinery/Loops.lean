import DistBuild.Machinery.Run

/-!
# Machinery/Loops — a loop that ends at its first success

    [a, b, c, d]    a and b fail, c succeeds    ──▸    d is never tried

Such a loop is `firstOf` over its list.  Where an element that satisfies `p` always succeeds, it
tries those of `upTo p` only, and the last of these is the first that satisfies `p`
(`find?_of_mem_upTo`).
-/

namespace DistBuild

variable {α σ : Type*}

/-- Run `f` on the elements in turn, until one succeeds. -/
def firstOf (f : α → σ → Option (Bool × σ)) : List α → σ → Option (Bool × σ)
  | [], s => some (false, s)
  | a :: as, s => (f a s).bind fun r => if r.1 then some r else firstOf f as r.2

/-- The elements up to the first one that satisfies `p`, with that one. -/
def upTo (p : α → Bool) : List α → List α
  | [] => []
  | a :: as => if p a then [a] else a :: upTo p as

theorem mem_upTo_cons_self (p : α → Bool) (a : α) (l : List α) : a ∈ upTo p (a :: l) := by
  unfold upTo
  split <;> exact List.mem_cons_self

/-- The elements before one of these do not satisfy `p`. -/
theorem mem_upTo_append {p : α → Bool} {front back : List α} {a : α}
    (h : ∀ b ∈ front, p b = false) : a ∈ upTo p (front ++ a :: back) := by
  induction front with
  | nil => exact mem_upTo_cons_self p a back
  | cons b front ih =>
    rw [List.cons_append, upTo, h b List.mem_cons_self, if_neg Bool.false_ne_true]
    exact List.mem_cons_of_mem _ (ih fun c hc => h c (List.mem_cons_of_mem _ hc))

/-- Only the last of these elements satisfies `p`. -/
theorem find?_of_mem_upTo {p : α → Bool} {l : List α} {a : α} (h : a ∈ upTo p l) (ha : p a = true) :
    l.find? p = some a := by
  induction l with
  | nil => cases h
  | cons b bs ih =>
    unfold upTo at h
    split at h
    · rename_i hb
      rw [List.mem_singleton.mp h, List.find?_cons_of_pos hb]
    · rename_i hb
      rw [List.find?_cons_of_neg hb]
      rcases List.mem_cons.mp h with rfl | h
      · exact absurd ha hb
      · exact ih h

end DistBuild
