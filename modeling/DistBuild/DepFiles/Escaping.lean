import DistBuild.DepFiles.Format

/-!
# DepFiles/Escaping — a name through both escapers, and back

    a#b     ─▸  a\#b      ─▸  a#b
    a b     ─▸  a\\ b     ─▸  a\  and  b
    a$b     ─▸  a$$b      ─▸  a$$b
    a\b     ─▸  a\b       ─▸  ab

A name is escaped as a target of a makefile and then again as a dep; reading takes one backslash
off.  Both escapers only add backslashes and dollars (`escape_eq`), so what comes back is decided by
the runs of backslashes: reading halves a run, and the name is kept if every run was doubled
(`Kept`).
-/

namespace DistBuild

open CmdLine.DepFilesState (processMakefileTarget escapeMakefileTarget)

abbrev backslashes (k : ℕ) : Str := List.replicate k 92

theorem backslashes_add (a b : ℕ) : backslashes (a + b) = backslashes a ++ backslashes b :=
  List.replicate_add ..

/-- The backslashes the two escapers put before `c`, after `pending` of them. -/
def added (pending : ℕ) (c : UInt8) : ℕ :=
  if c = 32 then pending + 2
  else if c = 9 then pending + 1
  else if c = 35 ∨ c = 58 ∨ c = 10 then 1
  else 0

/-- Both escapers on what follows `pending` backslashes. -/
def escapeFrom (pending : ℕ) : Str → Str
  | [] => []
  | c :: cs =>
    backslashes (added pending c) ++ (if c = 36 then [36, 36] else [c])
      ++ escapeFrom (if c = 92 then pending + 1 else 0) cs

theorem escapeGnuMakeSpaces_append (s t : Str) :
    escapeGnuMakeSpaces (s ++ t) = escapeGnuMakeSpaces s ++ escapeGnuMakeSpaces t := by
  simp [escapeGnuMakeSpaces, replaceAll]

theorem escapeGnuMakeSpaces_backslashes (k : ℕ) :
    escapeGnuMakeSpaces (backslashes k) = backslashes k := by
  induction k with
  | zero => rfl
  | succ k ih =>
    rw [backslashes, List.replicate_succ, ← List.singleton_append, escapeGnuMakeSpaces_append, ih]
    rfl

theorem escapeGnuMakeSpaces_singleton {c : UInt8} (h10 : c ≠ 10) (h32 : c ≠ 32) (h58 : c ≠ 58) :
    escapeGnuMakeSpaces [c] = [c] := by
  simp [escapeGnuMakeSpaces, replaceAll, h10, h32, h58]

theorem takeWhile_backslash (s : Str) :
    s.takeWhile (· == 92) = backslashes (s.takeWhile (· == 92)).length :=
  List.eq_replicate_of_mem fun c hc => by simpa using List.mem_takeWhile_imp hc

/-- One character through both escapers. -/
theorem escape_char (done : Str) (c : UInt8) :
    escapeGnuMakeSpaces ((if c = 32 ∨ c = 9 then done.takeWhile (· == 92) ++ str "\\"
        else if c = 36 then str "$" else if c = 35 then str "\\" else []) ++ [c])
      = backslashes (added (done.takeWhile (· == 92)).length c)
        ++ (if c = 36 then [36, 36] else [c]) := by
  have hrun := escapeGnuMakeSpaces_backslashes (done.takeWhile (· == 92)).length
  rw [← takeWhile_backslash] at hrun
  by_cases h32 : c = 32
  · subst h32
    rw [if_pos (Or.inl rfl), escapeGnuMakeSpaces_append, escapeGnuMakeSpaces_append, hrun,
      takeWhile_backslash, List.length_replicate]
    show _ = backslashes (_ + 2) ++ [32]
    rw [backslashes_add, List.append_assoc, List.append_assoc]
    rfl
  by_cases h9 : c = 9
  · subst h9
    rw [if_pos (Or.inr rfl), escapeGnuMakeSpaces_append, escapeGnuMakeSpaces_append, hrun,
      takeWhile_backslash, List.length_replicate]
    show _ = backslashes (_ + 1) ++ [9]
    rw [backslashes_add, List.append_assoc, List.append_assoc]
    rfl
  rw [if_neg (by simp [h32, h9])]
  by_cases h36 : c = 36
  · subst h36
    rfl
  by_cases h35 : c = 35
  · subst h35
    rfl
  rw [if_neg h36, if_neg h35, if_neg h36, List.nil_append]
  by_cases hesc : c = 58 ∨ c = 10
  · rcases hesc with rfl | rfl <;> rfl
  · obtain ⟨h58, h10⟩ := not_or.mp hesc
    rw [escapeGnuMakeSpaces_singleton h10 h32 h58, added, if_neg h32, if_neg h9,
      if_neg (by simp [h35, h58, h10])]
    rfl

/-- **The two escapers, as one.** -/
theorem escape_eq (done name : Str) :
    escapeGnuMakeSpaces (escapeMakefileTarget done name)
      = escapeFrom (done.takeWhile (· == 92)).length name := by
  induction name generalizing done with
  | nil => rfl
  | cons c cs ih =>
    have hdone : ((c :: done).takeWhile (· == 92)).length
        = if c = 92 then (done.takeWhile (· == 92)).length + 1 else 0 := by
      by_cases hc : c = 92 <;> simp [hc]
    rw [escapeMakefileTarget, List.append_cons, escapeGnuMakeSpaces_append, escape_char, ih, hdone]
    rfl

/-! ## Runs of backslashes -/

theorem backslashes_cons_inj {a b : ℕ} {c d : UInt8} {s t : Str} (hc : c ≠ 92) (hd : d ≠ 92)
    (h : backslashes a ++ c :: s = backslashes b ++ d :: t) : a = b ∧ c = d ∧ s = t := by
  induction a generalizing b with
  | zero =>
    cases b with
    | zero => exact ⟨rfl, List.cons.inj h⟩
    | succ b => exact absurd (List.cons.inj h).1 hc
  | succ a ih =>
    cases b with
    | zero => exact absurd (List.cons.inj h).1.symm hd
    | succ b =>
      obtain ⟨hab, hrest⟩ := ih (List.cons.inj h).2
      exact ⟨congrArg (· + 1) hab, hrest⟩

theorem backslashes_append_cons (k : ℕ) (s : Str) :
    backslashes k ++ 92 :: s = backslashes (k + 1) ++ s := by
  rw [List.append_cons, backslashes, backslashes, List.replicate_succ']

theorem depItemName_backslashes (j : ℕ) (s : Str) :
    depItemName (backslashes (2 * j) ++ s)
      = (backslashes j ++ (depItemName s).1, (depItemName s).2) := by
  induction j with
  | zero => rfl
  | succ j ih =>
    show depItemName (92 :: 92 :: (backslashes (2 * j) ++ s)) = _
    rw [depItemName_pair, ih]
    rfl

theorem depItemName_even_run (j : ℕ) {c : UInt8} (h : c = 32 ∨ c = 10) (s : Str) :
    depItemName (backslashes (2 * j) ++ c :: s) = (backslashes j, c :: s) := by
  rw [depItemName_backslashes, depItemName_stop h, List.append_nil]

theorem depItemName_odd_run (j : ℕ) (c : UInt8) (s : Str) :
    depItemName (backslashes (2 * j + 1) ++ c :: s)
      = (backslashes j ++ c :: (depItemName s).1, (depItemName s).2) := by
  rw [← backslashes_append_cons, depItemName_backslashes, depItemName_pair]

/-- **Reading halves a run of backslashes**, and a backslash left over is taken off what follows. -/
theorem depItemName_run (m : ℕ) {c : UInt8} (h32 : c ≠ 32) (h10 : c ≠ 10) (h92 : c ≠ 92) (s : Str) :
    depItemName (backslashes m ++ c :: s)
      = (backslashes (m / 2) ++ c :: (depItemName s).1, (depItemName s).2) := by
  obtain ⟨j, rfl | rfl⟩ := Nat.even_or_odd' m
  · rw [depItemName_backslashes, depItemName_char h32 h10 h92, Nat.mul_div_cancel_left j two_pos]
  · have hj : (2 * j + 1) / 2 = j := by omega
    rw [depItemName_odd_run, hj]

/-! ## The names that come back -/

/-- Every run of backslashes that `name` has after `pending` of them is doubled: there is no space
and no dollar, and a run of backslashes comes before a tab only, or is one backslash before `#` or
`:`. -/
def Kept (pending : ℕ) : Str → Prop
  | [] => pending = 0
  | c :: cs =>
    if c = 92 then Kept (pending + 1) cs
    else c ≠ 32 ∧ c ≠ 36 ∧ (c = 9 ∨ (c = 35 ∨ c = 58) ∧ pending ≤ 1 ∨ pending = 0) ∧ Kept 0 cs

instance Kept.decidable (pending : ℕ) : ∀ name : Str, Decidable (Kept pending name)
  | [] => inferInstanceAs (Decidable (pending = 0))
  | c :: cs =>
    have := Kept.decidable (pending + 1) cs
    have := Kept.decidable 0 cs
    inferInstanceAs (Decidable (if c = 92 then _ else _))

theorem kept_backslash {pending : ℕ} {cs : Str} :
    Kept pending (92 :: cs) ↔ Kept (pending + 1) cs := by
  rw [Kept, if_pos rfl]

theorem kept_char {pending : ℕ} {c : UInt8} {cs : Str} (h : c ≠ 92) :
    Kept pending (c :: cs)
      ↔ c ≠ 32 ∧ c ≠ 36 ∧ (c = 9 ∨ (c = 35 ∨ c = 58) ∧ pending ≤ 1 ∨ pending = 0) ∧ Kept 0 cs := by
  rw [Kept, if_neg h]

/-- Which run is doubled. -/
theorem half_added {pending : ℕ} {c : UInt8} (h32 : c ≠ 32) :
    (pending + added pending c) / 2 = pending
      ↔ c = 9 ∨ (c = 35 ∨ c = 58 ∨ c = 10) ∧ pending ≤ 1 ∨ pending = 0 := by
  unfold added
  rw [if_neg h32]
  split_ifs with h9 hesc
  · simp only [h9, true_or, iff_true]
    omega
  · simp only [h9, hesc, false_or, true_and]
    omega
  · simp only [h9, hesc, false_or, false_and]
    omega

section

variable {pending : ℕ} {c d : UInt8} {name s : Str}

theorem escapeFrom_backslash :
    backslashes pending ++ escapeFrom pending (92 :: name)
      = backslashes (pending + 1) ++ escapeFrom (pending + 1) name := by
  rw [← backslashes_append_cons]
  rfl

theorem escapeFrom_char (h : c ≠ 92) (h36 : c ≠ 36) :
    backslashes pending ++ escapeFrom pending (c :: name)
      = backslashes (pending + added pending c) ++ c :: escapeFrom 0 name := by
  rw [escapeFrom, if_neg h, if_neg h36, backslashes_add]
  simp only [List.append_assoc, List.singleton_append]

theorem escapeFrom_dollar :
    escapeFrom pending (36 :: name) = 36 :: 36 :: escapeFrom 0 name := rfl

end

/-- **A kept name is read back**, up to the space or newline after it. -/
theorem depItemName_of_kept {pending : ℕ} {name : Str} (h : Kept pending name) {d : UInt8}
    (hd : d = 32 ∨ d = 10) (s : Str) :
    depItemName (backslashes pending ++ escapeFrom pending name ++ d :: s)
      = (backslashes pending ++ name, d :: s) := by
  induction name generalizing pending with
  | nil =>
    obtain rfl : pending = 0 := h
    exact depItemName_stop hd s
  | cons c cs ih =>
    by_cases h92 : c = 92
    · subst h92
      rw [escapeFrom_backslash, ih (kept_backslash.mp h), backslashes_append_cons]
    · obtain ⟨h32, h36, hrun, hcs⟩ := (kept_char h92).mp h
      have hhalf : (pending + added pending c) / 2 = pending :=
        (half_added h32).mpr (hrun.imp_right (Or.imp_left (And.imp_left (Or.imp_right Or.inl))))
      have hrest : depItemName (escapeFrom 0 cs ++ d :: s) = (cs, d :: s) := ih hcs
      rw [escapeFrom_char h92 h36, List.append_assoc, List.cons_append]
      by_cases h10 : c = 10
      · subst h10
        obtain rfl : pending = 0 := by simpa using hrun
        exact (depItemName_odd_run 0 10 _).trans (by rw [hrest])
      · rw [depItemName_run _ h32 h10 h92, hhalf, hrest]

/-- What is read of a name has no dollar less: dollars before it cannot make up the name. -/
theorem ne_dollars_append {j : ℕ} (hj : j ≠ 0) (name : Str) (d : UInt8) (s : Str) :
    name ≠ List.replicate j 36 ++ (depItemName (escapeFrom 0 name ++ d :: s)).1 := by
  obtain ⟨j, rfl⟩ := Nat.exists_eq_succ_of_ne_zero hj
  induction name generalizing j with
  | nil => simp [List.replicate_succ]
  | cons c cs ih =>
    intro h
    obtain rfl : c = 36 := (List.cons.inj h).1
    rw [escapeFrom_dollar, List.cons_append, List.cons_append,
      depItemName_char (by decide) (by decide) (by decide),
      depItemName_char (by decide) (by decide) (by decide), List.append_cons,
      ← List.replicate_succ', List.append_cons, ← List.replicate_succ'] at h
    exact ih (j + 1) (Nat.succ_ne_zero _) (List.cons.inj h).2

/-- A run of backslashes is no name with another character in it. -/
theorem backslashes_ne_append {a b : ℕ} {c : UInt8} (hc : c ≠ 92) (s : Str) :
    backslashes a ≠ backslashes b ++ c :: s := by
  intro h
  have hmem : c ∈ backslashes a := by
    rw [h]
    simp
  exact hc (List.eq_of_mem_replicate hmem)

/-- At the end of the name no backslash may be left: half of an even run is lost, and after an odd
one the name goes on with what ends it. -/
theorem eq_zero_of_depItemName {pending : ℕ} {d : UInt8} (hd : d = 32 ∨ d = 10) (s : Str)
    (h : (depItemName (backslashes pending ++ d :: s)).1 = backslashes pending) : pending = 0 := by
  obtain ⟨j, rfl | rfl⟩ := Nat.even_or_odd' pending
  · rw [depItemName_even_run j hd] at h
    have hj : j = 2 * j := by simpa using h
    omega
  · rw [depItemName_odd_run] at h
    refine absurd h.symm (backslashes_ne_append ?_ _)
    rcases hd with rfl | rfl <;> decide

/-- Before a newline no backslash may be left. -/
theorem newline_of_depItemName {pending : ℕ} {cs s : Str}
    (h : (depItemName (backslashes (pending + 1) ++ 10 :: s)).1 = backslashes pending ++ 10 :: cs) :
    pending = 0 ∧ (depItemName s).1 = cs := by
  obtain ⟨j, hj | hj⟩ := Nat.even_or_odd' (pending + 1)
  · rw [hj, depItemName_even_run j (Or.inr rfl)] at h
    exact absurd h (backslashes_ne_append (by decide) cs)
  · rw [hj, depItemName_odd_run] at h
    obtain ⟨rfl, -, hcs⟩ := backslashes_cons_inj (by decide) (by decide) h
    exact ⟨by omega, hcs⟩

/-- **Only a kept name is read back**, whatever is read after it. -/
theorem kept_of_depItemName {pending : ℕ} {name : Str} {d : UInt8} (hd : d = 32 ∨ d = 10) (s : Str)
    (h : (depItemName (backslashes pending ++ escapeFrom pending name ++ d :: s)).1
      = backslashes pending ++ name) : Kept pending name := by
  induction name generalizing pending with
  | nil =>
    simp only [escapeFrom, List.append_nil] at h
    exact eq_zero_of_depItemName hd s h
  | cons c cs ih =>
    by_cases h92 : c = 92
    · subst h92
      rw [escapeFrom_backslash, backslashes_append_cons] at h
      exact kept_backslash.mpr (ih h)
    by_cases h36 : c = 36
    · subst h36
      rw [escapeFrom_dollar, List.append_assoc, List.cons_append, List.cons_append,
        depItemName_run _ (by decide) (by decide) (by decide),
        depItemName_char (by decide) (by decide) (by decide)] at h
      obtain ⟨-, -, hcs⟩ := backslashes_cons_inj (by decide) (by decide) h
      exact absurd hcs.symm (ne_dollars_append one_ne_zero cs d s)
    rw [escapeFrom_char h92 h36, List.append_assoc, List.cons_append] at h
    by_cases h32 : c = 32
    · subst h32
      have hrun : pending + added pending 32 = 2 * (pending + 1) := by
        show pending + (pending + 2) = _
        omega
      rw [hrun, depItemName_even_run (pending + 1) (Or.inl rfl)] at h
      exact absurd h (backslashes_ne_append (by decide) cs)
    by_cases h10 : c = 10
    · subst h10
      obtain ⟨hpending, hcs⟩ := newline_of_depItemName h
      exact (kept_char h92).mpr ⟨h32, h36, Or.inr (Or.inr hpending), ih hcs⟩
    · rw [depItemName_run _ h32 h10 h92] at h
      obtain ⟨hhalf, -, hcs⟩ := backslashes_cons_inj h92 h92 h
      refine (kept_char h92).mpr ⟨h32, h36, ?_, ih hcs⟩
      simpa only [h10, or_false] using (half_added h32).mp hhalf

/-- The escapers add backslashes and dollars, and nothing else. -/
theorem count_escapeFrom {a : UInt8} (h92 : a ≠ 92) (h36 : a ≠ 36) (pending : ℕ) (name : Str) :
    (escapeFrom pending name).count a = name.count a := by
  induction name generalizing pending with
  | nil => rfl
  | cons c cs ih =>
    have hrun : (backslashes (added pending c)).count a = 0 :=
      List.count_eq_zero.mpr fun hmem => h92 (List.eq_of_mem_replicate hmem)
    have hchar : (if c = 36 then [36, 36] else [c]).count a = [c].count a := by
      split_ifs with hc
      · subst hc
        simp [h36.symm]
      · rfl
    rw [escapeFrom, List.count_append, List.count_append, hrun, hchar, ih, Nat.zero_add,
      ← List.count_append, List.singleton_append]

/-! ### Where a dep starts -/

theorem skipToItem_backslashes (j : ℕ) (s : Str) :
    skipToItem (backslashes (2 * j) ++ s) = skipToItem s := by
  induction j with
  | zero => rfl
  | succ j ih => exact (skipToItem_pair 92 _).trans ih

theorem skipToItem_odd_run (j : ℕ) (c : UInt8) (s : Str) :
    skipToItem (backslashes (2 * j + 1) ++ c :: s) = skipToItem s := by
  rw [← backslashes_append_cons, skipToItem_backslashes, skipToItem_pair]

/-- The first character of a name is passed over with the backslash before it. -/
theorem skipToItem_escaped_head {c : UInt8} (h : c = 9 ∨ c = 35 ∨ c = 58) (cs s : Str) :
    skipToItem (escapeFrom 0 (c :: cs) ++ s) = skipToItem (escapeFrom 0 cs ++ s) := by
  rcases h with rfl | rfl | rfl <;> exact skipToItem_pair _ _

/-- A name that starts with another character still does when it is escaped. -/
theorem escapeFrom_plain_head {c : UInt8} (h : c ∉ [9, 10, 32, 35, 58, 92]) (cs : Str) :
    ∃ t, escapeFrom 0 (c :: cs) = c :: t := by
  simp only [List.mem_cons, List.not_mem_nil, or_false, not_or] at h
  obtain ⟨h9, h10, h32, h35, h58, h92⟩ := h
  by_cases h36 : c = 36
  · subst h36
    exact ⟨_, escapeFrom_dollar⟩
  · exact ⟨escapeFrom 0 cs, by simp [escapeFrom, added, h9, h10, h32, h35, h36, h58, h92]⟩

/-- **A name that comes back as a dep**: it is kept, and its first character is not passed over with
a backslash before it. -/
def Legible (name : Str) : Prop :=
  (∃ c ∈ name.head?, c ∉ [9, 10, 35, 58, 92]) ∧ Kept 0 name

instance (name : Str) : Decidable (Legible name) := by
  unfold Legible
  infer_instance

theorem Legible.head {name : Str} (h : Legible name) :
    ∃ c t, c ∉ [10, 32, 92] ∧ escapeFrom 0 name = c :: t := by
  obtain ⟨⟨c, hc, hmem⟩, hkept⟩ := h
  cases name with
  | nil => cases hc
  | cons c' cs =>
    obtain rfl : c' = c := Option.some.inj hc
    simp only [List.mem_cons, List.not_mem_nil, or_false, not_or] at hmem
    obtain ⟨h9, h10, h35, h58, h92⟩ := hmem
    obtain ⟨h32, -⟩ := (kept_char h92).mp hkept
    have hplain : c' ∉ [9, 10, 32, 35, 58, 92] := by simp [h9, h10, h32, h35, h58, h92]
    obtain ⟨t, ht⟩ := escapeFrom_plain_head hplain cs
    exact ⟨c', t, by simp [h10, h32, h92], ht⟩

/-! ## A name as a target -/

theorem parseTargetName_backslashes (name : Str) (j : ℕ) (s : Str) :
    parseTargetName name (backslashes (2 * j) ++ s)
      = parseTargetName (name ++ backslashes j) s := by
  induction j generalizing name with
  | zero => simp
  | succ j ih =>
    show parseTargetName name (92 :: 92 :: (backslashes (2 * j) ++ s)) = _
    rw [parseTargetName_pair, if_neg (by decide), ih, ← List.append_cons]
    rfl

/-- In a target too a run is halved, and a newline lost. -/
theorem parseTargetName_run (name : Str) {m : ℕ} {c : UInt8}
    (h : m % 2 = 1 ∨ c ∉ [10, 32, 58, 92]) (s : Str) :
    parseTargetName name (backslashes m ++ c :: s)
      = parseTargetName (name ++ (backslashes (m / 2) ++ [c].filter (· ≠ 10))) s := by
  obtain ⟨j, rfl | rfl⟩ := Nat.even_or_odd' m
  · have hc : c ∉ [10, 32, 58, 92] := h.resolve_left (by omega)
    simp only [List.mem_cons, List.not_mem_nil, or_false, not_or] at hc
    obtain ⟨h10, h32, h58, h92⟩ := hc
    rw [parseTargetName_backslashes, parseTargetName_char _ _ h58 h10 h92 h32,
      Nat.mul_div_cancel_left j two_pos]
    simp [h10]
  · have hj : (2 * j + 1) / 2 = j := by omega
    rw [← backslashes_append_cons, parseTargetName_backslashes, parseTargetName_pair, hj]
    by_cases hc : c = 10 <;> simp [hc]

/-- After its run of backslashes a kept character ends no target, but for an escaped colon. -/
theorem run_plain {pending : ℕ} {c : UInt8} {cs : Str} (h92 : c ≠ 92) (h : Kept pending (c :: cs))
    (hcolon : ¬ (pending ≠ 0 ∧ c = 58)) :
    (pending + added pending c) % 2 = 1 ∨ c ∉ [10, 32, 58, 92] := by
  obtain ⟨h32, -, hrun, -⟩ := (kept_char h92).mp h
  by_cases hc : c = 10 ∨ c = 58
  · obtain rfl : pending = 0 := by
      rcases hc with rfl | rfl
      · simpa using hrun
      · simpa using hcolon
    refine Or.inl ?_
    rcases hc with rfl | rfl <;> rfl
  · refine Or.inr ?_
    simp only [List.mem_cons, List.not_mem_nil, or_false]
    grind

theorem colon_infix_iff {pending : ℕ} {c : UInt8} {cs : Str} (h : c ≠ 92) :
    [92, 58] <:+: backslashes pending ++ c :: cs
      ↔ (pending ≠ 0 ∧ c = 58) ∨ [92, 58] <:+: cs := by
  induction pending with
  | zero =>
    rw [backslashes, List.replicate_zero, List.nil_append, List.infix_cons_iff,
      List.cons_prefix_cons]
    simp [h.symm]
  | succ k ih =>
    rw [backslashes, List.replicate_succ, List.cons_append, List.infix_cons_iff, ih,
      List.cons_prefix_cons]
    cases k with
    | zero => simp [eq_comm]
    | succ k => simp [List.replicate_succ]

/-- **A kept name without an escaped colon is a target**, less its newlines. -/
theorem parseTargetName_of_kept {pending : ℕ} {name : Str} (h : Kept pending name)
    (hcolon : ¬ [92, 58] <:+: backslashes pending ++ name) (before s : Str) :
    parseTargetName before (backslashes pending ++ escapeFrom pending name ++ 58 :: s)
      = some (escapeGnuMakeSpaces
        (before ++ (backslashes pending ++ name).filter (· ≠ 10)), s) := by
  induction name generalizing pending before with
  | nil =>
    obtain rfl : pending = 0 := h
    exact (parseTargetName_colon before s).trans (by simp)
  | cons c cs ih =>
    by_cases h92 : c = 92
    · subst h92
      rw [backslashes_append_cons] at hcolon
      rw [escapeFrom_backslash, ih (kept_backslash.mp h) hcolon, backslashes_append_cons]
    · obtain ⟨h32, h36, hrun, hcs⟩ := (kept_char h92).mp h
      obtain ⟨h58, hno⟩ := not_or.mp ((colon_infix_iff h92).not.mp hcolon)
      have hhalf : (pending + added pending c) / 2 = pending :=
        (half_added h32).mpr (hrun.imp_right (Or.imp_left (And.imp_left (Or.imp_right Or.inl))))
      have hrest := ih hcs hno (before ++ (backslashes pending ++ [c].filter (· ≠ 10)))
      rw [escapeFrom_char h92 h36, List.append_assoc, List.cons_append,
        parseTargetName_run before (run_plain h92 h h58), hhalf]
      refine hrest.trans ?_
      have hfilter : (backslashes pending).filter (· ≠ 10) = backslashes pending :=
        List.filter_eq_self.mpr fun c hc => by simp [List.eq_of_mem_replicate hc]
      have hsplit : (backslashes pending ++ c :: cs).filter (· ≠ 10)
          = backslashes pending ++ [c].filter (· ≠ 10) ++ cs.filter (· ≠ 10) := by
        rw [List.append_cons, List.filter_append, List.filter_append, hfilter]
      rw [hsplit, List.append_assoc before]
      rfl

/-- **An escaped colon ends the target**: what is left of the name is the start of its deps. -/
theorem parseTargetName_of_colon {pending : ℕ} {name : Str} (h : Kept pending name)
    (hcolon : [92, 58] <:+: backslashes pending ++ name) (before : Str) :
    ∃ target rest, Kept 0 rest ∧ ∀ s,
      parseTargetName before (backslashes pending ++ escapeFrom pending name ++ s)
        = some (target, escapeFrom 0 rest ++ s) := by
  induction name generalizing pending before with
  | nil =>
    obtain rfl : pending = 0 := h
    simp at hcolon
  | cons c cs ih =>
    by_cases h92 : c = 92
    · subst h92
      rw [backslashes_append_cons] at hcolon
      rw [escapeFrom_backslash]
      exact ih (kept_backslash.mp h) hcolon before
    obtain ⟨h32, h36, hrun, hcs⟩ := (kept_char h92).mp h
    rw [escapeFrom_char h92 h36]
    by_cases hend : pending ≠ 0 ∧ c = 58
    · obtain ⟨hpending, rfl⟩ := hend
      obtain rfl : pending = 1 := by
        have hle : pending ≤ 1 := by simpa [hpending] using hrun
        omega
      refine ⟨escapeGnuMakeSpaces (before ++ backslashes 1), cs, hcs, fun s => ?_⟩
      rw [List.append_assoc, List.cons_append]
      exact (parseTargetName_backslashes before 1 _).trans (parseTargetName_colon _ _)
    · have hinfix : [92, 58] <:+: cs := ((colon_infix_iff h92).mp hcolon).resolve_left hend
      obtain ⟨target, rest, hrest, htarget⟩ :=
        ih hcs hinfix (before ++ (backslashes ((pending + added pending c) / 2)
          ++ [c].filter (· ≠ 10)))
      refine ⟨target, rest, hrest, fun s => ?_⟩
      rw [List.append_assoc, List.cons_append, parseTargetName_run before (run_plain h92 h hend)]
      exact htarget s

/-- A kept name and a colon start a dep. -/
theorem skipToItem_of_kept {pending : ℕ} {name : Str} (h : Kept pending name) (s : Str) :
    ∃ c t, c ≠ 10
      ∧ skipToItem (backslashes pending ++ escapeFrom pending name ++ 58 :: s) = c :: t := by
  induction name generalizing pending with
  | nil =>
    obtain rfl : pending = 0 := h
    exact ⟨58, s, by decide, skipToItem_char (by decide) (by decide) s⟩
  | cons c cs ih =>
    by_cases h92 : c = 92
    · subst h92
      rw [escapeFrom_backslash]
      exact ih (kept_backslash.mp h)
    obtain ⟨h32, h36, hrun, hcs⟩ := (kept_char h92).mp h
    rw [escapeFrom_char h92 h36, List.append_assoc, List.cons_append]
    obtain ⟨j, hj | hj⟩ := Nat.even_or_odd' (pending + added pending c)
    · refine ⟨c, escapeFrom 0 cs ++ 58 :: s, ?_, ?_⟩
      · rintro rfl
        obtain rfl : pending = 0 := by simpa using hrun
        exact absurd hj (by
          show ¬ 1 = 2 * j
          omega)
      · rw [hj, skipToItem_backslashes, skipToItem_char h32 h92]
    · rw [hj, skipToItem_odd_run]
      exact ih hcs

/-! ### The blanks a target loses -/

/-- The blanks that neither escaper touches: a target is read without those at its head. -/
def isRawBlank (c : UInt8) : Bool := c == 11 || c == 12 || c == 13

theorem isSpace_iff {c : UInt8} :
    isSpace c = true ↔ c = 32 ∨ c = 9 ∨ c = 10 ∨ isRawBlank c = true := by
  simp only [isSpace, isRawBlank, Bool.or_eq_true, Bool.and_eq_true, decide_eq_true_eq, beq_iff_eq,
    UInt8.le_iff_toNat_le, ← UInt8.toNat_inj, UInt8.reduceToNat]
  omega

/-- The escaped name starts with a blank only if that is the first character of the name. -/
theorem escapeFrom_head (c : UInt8) (cs : Str) :
    (isRawBlank c = true ∧ escapeFrom 0 (c :: cs) = c :: escapeFrom 0 cs)
      ∨ isRawBlank c = false ∧ ∃ d t, escapeFrom 0 (c :: cs) = d :: t ∧ isSpace d = false := by
  by_cases hesc : c ∈ [9, 10, 32, 35, 36, 58, 92]
  · simp only [List.mem_cons, List.not_mem_nil, or_false] at hesc
    rcases hesc with rfl | rfl | rfl | rfl | rfl | rfl | rfl <;>
      exact Or.inr ⟨rfl, _, _, rfl, rfl⟩
  · simp only [List.mem_cons, List.not_mem_nil, or_false, not_or] at hesc
    obtain ⟨h9, h10, h32, h35, h36, h58, h92⟩ := hesc
    have heq : escapeFrom 0 (c :: cs) = c :: escapeFrom 0 cs := by
      simp [escapeFrom, added, h9, h10, h32, h35, h36, h58, h92]
    cases hc : isRawBlank c with
    | true => exact Or.inl ⟨rfl, heq⟩
    | false =>
      refine Or.inr ⟨rfl, c, _, heq, Bool.eq_false_iff.mpr fun hspace => ?_⟩
      have hblank := isSpace_iff.mp hspace
      simp [h9, h10, h32, hc] at hblank

theorem parseSkipSpaces_escapeFrom (name s : Str) :
    parseSkipSpaces (escapeFrom 0 name ++ 58 :: s)
      = escapeFrom 0 (name.dropWhile isRawBlank) ++ 58 :: s := by
  induction name with
  | nil => rfl
  | cons c cs ih =>
    rcases escapeFrom_head c cs with ⟨hc, heq⟩ | ⟨hc, d, t, heq, hd⟩
    · have hspace : isSpace c = true := isSpace_iff.mpr (by simp [hc])
      rw [List.dropWhile_cons_of_pos hc, heq, List.cons_append, ← ih]
      exact List.dropWhile_cons_of_pos hspace
    · rw [List.dropWhile_cons_of_neg (Bool.eq_false_iff.mp hc), heq, List.cons_append]
      exact List.dropWhile_cons_of_neg (Bool.eq_false_iff.mp hd)

theorem Kept.dropWhile {name : Str} (h : Kept 0 name) : Kept 0 (name.dropWhile isRawBlank) := by
  induction name with
  | nil => exact h
  | cons c cs ih =>
    rw [List.dropWhile_cons]
    split_ifs with hc
    · have h92 : c ≠ 92 := by
        rintro rfl
        exact absurd hc (by decide)
      exact ih ((kept_char h92).mp h).2.2.2
    · exact h

theorem colon_infix_dropWhile (name : Str) :
    [92, 58] <:+: name.dropWhile isRawBlank ↔ [92, 58] <:+: name := by
  induction name with
  | nil => exact Iff.rfl
  | cons c cs ih =>
    rw [List.dropWhile_cons]
    split_ifs with hc
    · have h92 : c ≠ 92 := by
        rintro rfl
        exact absurd hc (by decide)
      rw [ih]
      exact ((@colon_infix_iff 0 c cs h92).trans (by simp)).symm
    · exact Iff.rfl

end DistBuild
