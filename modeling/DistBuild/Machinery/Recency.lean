import Mathlib

/-!
# Machinery/Recency — entries in the order of their last use, within a capacity

    touch c      a b c d  ─▸  c a b d          an entry comes to the front
    store e      a b c d  ─▸  e a b │ c d      a new entry comes to the front, and the last ones go

A store drops the shortest suffix that makes room: what stays is the longest prefix within what is
left of the capacity (`trim`).  A loop that drops one entry after the other from the back ends
there, because no longer prefix has room (`trim_concat_of_lt`, `trim_of_le`).
-/

namespace DistBuild

variable {K V : Type*}

/-- What the values of some entries take. -/
def totalSize (size : V → ℕ) (entries : List (K × V)) : ℕ := (entries.map fun e => size e.2).sum

/-- The longest prefix of the entries within `room`. -/
def trim (size : V → ℕ) (room : ℕ) : List (K × V) → List (K × V)
  | [] => []
  | e :: es => if size e.2 ≤ room then e :: trim size (room - size e.2) es else []

section

variable {size : V → ℕ} {room : ℕ} {e : K × V} {entries es : List (K × V)}

@[simp] theorem totalSize_nil : totalSize size ([] : List (K × V)) = 0 := rfl

@[simp] theorem totalSize_cons : totalSize size (e :: es) = size e.2 + totalSize size es := by
  simp [totalSize]

theorem totalSize_append :
    totalSize size (entries ++ es) = totalSize size entries + totalSize size es := by
  simp [totalSize]

theorem totalSize_perm (h : entries.Perm es) : totalSize size entries = totalSize size es :=
  (h.map _).sum_eq

theorem trim_isPrefix : trim size room es <+: es := by
  induction es generalizing room with
  | nil => exact List.prefix_rfl
  | cons e es ih =>
    rw [trim]
    split_ifs
    · exact List.cons_prefix_cons.mpr ⟨rfl, ih⟩
    · exact List.nil_prefix

theorem totalSize_trim_le : totalSize size (trim size room es) ≤ room := by
  induction es generalizing room with
  | nil => exact Nat.zero_le _
  | cons e es ih =>
    rw [trim]
    split_ifs with he
    · have hes := @ih (room - size e.2)
      rw [totalSize_cons]
      omega
    · exact Nat.zero_le _

/-- **No longer prefix has room**: the entries that go are the shortest suffix that makes it. -/
theorem prefix_trim (h : entries <+: es) (hroom : totalSize size entries ≤ room) :
    entries <+: trim size room es := by
  induction es generalizing entries room with
  | nil => exact h
  | cons e es ih =>
    cases entries with
    | nil => exact List.nil_prefix
    | cons d ds =>
      obtain ⟨rfl, hds⟩ := List.cons_prefix_cons.mp h
      rw [totalSize_cons] at hroom
      rw [trim, if_pos (Nat.le_of_add_right_le hroom)]
      exact List.cons_prefix_cons.mpr ⟨rfl, ih hds (by omega)⟩

/-- With room for all, all stay. -/
theorem trim_of_le (h : totalSize size es ≤ room) : trim size room es = es :=
  trim_isPrefix.eq_of_length_le (prefix_trim List.prefix_rfl h).length_le

/-- Without, the last one goes. -/
theorem trim_concat_of_lt (h : room < totalSize size (es ++ [e])) :
    trim size room (es ++ [e]) = trim size room es := by
  have hprefix : trim size room (es ++ [e]) <+: es := by
    rcases List.prefix_concat_iff.mp trim_isPrefix with heq | hprefix
    · have hle := @totalSize_trim_le K V size room (es ++ [e])
      rw [heq] at hle
      exact absurd hle (Nat.not_le.mpr h)
    · exact hprefix
  exact (prefix_trim hprefix totalSize_trim_le).eq_of_length_le
    (prefix_trim (trim_isPrefix.trans (List.prefix_append ..)) totalSize_trim_le).length_le

end

/-! ## Within a capacity -/

/-- Entries with distinct keys, the most recently used first, that take no more than the
capacity. -/
structure Recency (K V : Type*) (size : V → ℕ) (capacity : ℕ) where
  entries : List (K × V)
  distinct : (entries.map Prod.fst).Nodup
  fits : totalSize size entries ≤ capacity

namespace Recency

variable {size : V → ℕ} {capacity : ℕ}

def empty : Recency K V size capacity := ⟨[], List.nodup_nil, Nat.zero_le _⟩

/-- The first entries only. -/
def front (r : Recency K V size capacity) {es : List (K × V)} (h : es <+: r.entries) :
    Recency K V size capacity where
  entries := es
  distinct := (h.sublist.map Prod.fst).nodup r.distinct
  fits := by
    obtain ⟨rest, hrest⟩ := h
    have hfits := r.fits
    rw [← hrest, totalSize_append] at hfits
    exact Nat.le_of_add_right_le hfits

/-- The entries that stay where `room` is left. -/
def shrink (room : ℕ) (r : Recency K V size capacity) : Recency K V size capacity :=
  r.front (@trim_isPrefix K V size room r.entries)

variable [DecidableEq K] (k : K) (v : V) (r : Recency K V size capacity)

def lookup : Option V := (r.entries.find? fun e => e.1 = k).map Prod.snd

/-- The entries of `k` to the front, and the others behind them, in their order. -/
def toFront (entries : List (K × V)) : List (K × V) :=
  entries.filter (fun e => e.1 = k) ++ entries.filter (fun e => ¬ e.1 = k)

theorem toFront_perm (entries : List (K × V)) : (toFront k entries).Perm entries := by
  simpa only [toFront, decide_not]
    using List.filter_append_perm (fun e : K × V => decide (e.1 = k)) entries

/-- `k` is used. -/
def touch : Recency K V size capacity where
  entries := toFront k r.entries
  distinct := ((toFront_perm k r.entries).map Prod.fst).nodup_iff.mpr r.distinct
  fits := (totalSize_perm (toFront_perm k r.entries)).trans_le r.fits

/-- A new entry to the front, and from the back only what has to go; nothing for a key that is
there, or a value that cannot fit. -/
def store : Bool × Recency K V size capacity :=
  if h : (∃ e ∈ r.entries, e.1 = k) ∨ capacity < size v then (false, r)
  else
    (true,
      { entries := (k, v) :: (r.shrink (capacity - size v)).entries
        distinct := by
          obtain ⟨hnew, -⟩ := not_or.mp h
          refine List.nodup_cons.mpr ⟨fun hmem => hnew ?_, (r.shrink _).distinct⟩
          obtain ⟨e, he, hk⟩ := List.mem_map.mp hmem
          exact ⟨e, trim_isPrefix.subset he, hk⟩
        fits := by
          have htrim := @totalSize_trim_le K V size (capacity - size v) r.entries
          rw [totalSize_cons]
          show size v + _ ≤ capacity
          exact (Nat.add_le_add_left htrim _).trans (by omega) })

variable {k v r}

/-- The entries with a key, of which there is one. -/
theorem filter_key {entries : List (K × V)} (h : (entries.map Prod.fst).Nodup)
    (hmem : (k, v) ∈ entries) : entries.filter (fun e => e.1 = k) = [(k, v)] := by
  induction entries with
  | nil => cases hmem
  | cons e es ih =>
    obtain ⟨hnew, hes⟩ := List.nodup_cons.mp h
    rcases List.mem_cons.mp hmem with rfl | hmem
    · have hnone : es.filter (fun e => e.1 = k) = [] := by
        refine List.filter_eq_nil_iff.mpr fun e he hk => hnew ?_
        exact List.mem_map.mpr ⟨e, he, of_decide_eq_true hk⟩
      rw [List.filter_cons_of_pos (by simp), hnone]
    · have hne : ¬ e.1 = k := fun hk => hnew (hk ▸ List.mem_map_of_mem hmem)
      rw [List.filter_cons_of_neg (by simpa using hne), ih hes hmem]

theorem lookup_of_mem (h : (k, v) ∈ r.entries) : r.lookup k = some v := by
  rw [lookup, ← List.head?_filter, filter_key r.distinct h]
  rfl

theorem lookup_of_not_mem (h : ¬ ∃ e ∈ r.entries, e.1 = k) : r.lookup k = none := by
  rw [lookup, List.find?_eq_none.mpr fun e he hk => h ⟨e, he, of_decide_eq_true hk⟩]
  rfl

/-- Without an entry nothing moves. -/
theorem touch_of_not_mem (h : ¬ ∃ e ∈ r.entries, e.1 = k) : (r.touch k).entries = r.entries := by
  have hnone : r.entries.filter (fun e => e.1 = k) = [] :=
    List.filter_eq_nil_iff.mpr fun e he hk => h ⟨e, he, of_decide_eq_true hk⟩
  have hall : r.entries.filter (fun e => ¬ e.1 = k) = r.entries :=
    List.filter_eq_self.mpr fun e he => decide_eq_true fun hk => h ⟨e, he, hk⟩
  show toFront k r.entries = _
  rw [toFront, hnone, hall, List.nil_append]

theorem store_of_mem (h : ∃ e ∈ r.entries, e.1 = k) : r.store k v = (false, r) :=
  dif_pos (Or.inl h)

theorem store_of_new (h : ¬ ∃ e ∈ r.entries, e.1 = k) (hfit : size v ≤ capacity) :
    (r.store k v).1 = true
      ∧ (r.store k v).2.entries = (k, v) :: (r.shrink (capacity - size v)).entries := by
  have hstore : ¬ ((∃ e ∈ r.entries, e.1 = k) ∨ capacity < size v) :=
    not_or.mpr ⟨h, Nat.not_lt.mpr hfit⟩
  rw [store, dif_neg hstore]
  exact ⟨rfl, rfl⟩

end Recency

end DistBuild
