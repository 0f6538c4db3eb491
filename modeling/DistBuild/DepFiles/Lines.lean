import DistBuild.DepFiles.Format

/-!
# DepFiles/Lines — the text of a dep file, line by line

    target: dep \⏎  dep⏎  ⏎  target:⏎
    ╰──────╯╰─▸ depRest ─╯ ╰─▸ following

The deps of a target are on one line each, and the reader is at the next one when it has read a dep.
A reader that has missed a character before the end of the lines cannot read all names: no character
is read twice, and a bare newline is not passed.
-/

namespace DistBuild

/-! ## The deps of a target -/

/-- The lines of the deps after the first, and what follows them. -/
def depRest : List Str → Str → Str
  | [], after => 10 :: after
  | dep :: deps, after => str " \\\n  " ++ escapeGnuMakeSpaces dep ++ depRest deps after

theorem depLines_cons (dep : Str) (deps : List Str) (after : Str) :
    depLines (dep :: deps) ++ 10 :: after
      = 32 :: (escapeGnuMakeSpaces dep ++ depRest deps after) := by
  have hrest : (deps.flatMap fun d => str " \\\n  " ++ escapeGnuMakeSpaces d) ++ 10 :: after
      = depRest deps after := by
    induction deps with
    | nil => rfl
    | cons d deps ih => rw [List.flatMap_cons, depRest, ← ih, List.append_assoc]
  rw [depLines, ← hrest]
  simp only [List.cons_append, List.append_assoc]

/-- The deps of a target are listed one on a line; the lead of a line is skipped. -/
theorem depItems_depRest_cons (dep : Str) (deps : List Str) (after : Str) :
    depItems (depRest (dep :: deps) after)
      = depItems (escapeGnuMakeSpaces dep ++ depRest deps after) := by
  refine depItems_congr ?_
  rw [depRest, List.append_assoc]
  exact (skipToItem_space _).trans ((skipToItem_pair ..).trans
    ((skipToItem_space _).trans (skipToItem_space _)))

theorem depItems_depRest_nil (after : Str) : depItems (depRest [] after) = ([], after) :=
  depItems_newline (skipToItem_char (by decide) (by decide) after)

/-- The first line is read as the others are. -/
theorem depItems_depLines (deps : List Str) (after : Str) :
    depItems (depLines deps ++ 10 :: after) = depItems (depRest deps after) := by
  cases deps with
  | nil => rfl
  | cons dep deps =>
    rw [depLines_cons, depItems_depRest_cons]
    exact depItems_congr (skipToItem_space _)

theorem depRest_head (deps : List Str) (after : Str) :
    ∃ d rest, (d = 32 ∨ d = 10) ∧ depRest deps after = d :: rest := by
  cases deps with
  | nil => exact ⟨10, after, Or.inr rfl, rfl⟩
  | cons dep deps => exact ⟨32, _, Or.inl rfl, rfl⟩

/-- A text that starts a dep: the dep and what is read after it. -/
theorem depItems_cons {c : UInt8} (h : c ∉ [10, 32, 92]) (s : Str) :
    depItems (c :: s) = ((depItemName (c :: s)).1 :: (depItems (depItemName (c :: s)).2).1,
      (depItems (depItemName (c :: s)).2).2) := by
  simp only [List.mem_cons, List.not_mem_nil, or_false, not_or] at h
  exact depItems_item (skipToItem_char h.2.1 h.2.2 s) h.1

/-- The first dep that is read starts with the character that ended the first loop. -/
theorem head_of_depItems {s name : Str} {names : List Str} (h : (depItems s).1 = name :: names) :
    ∃ c cs, name = c :: cs ∧ c ∉ [10, 32, 92] := by
  cases hs : skipToItem s with
  | nil =>
    rw [depItems_nil hs] at h
    cases h
  | cons c t =>
    obtain ⟨h32, h92⟩ := skipToItem_head hs
    by_cases h10 : c = 10
    · subst h10
      rw [depItems_newline hs] at h
      cases h
    · rw [depItems_item hs h10, depItemName_head hs h10] at h
      exact ⟨c, _, (List.cons.inj h).1.symm, by simp [h10, h32, h92]⟩

/-! ## What is missed stays missed -/

/-- What follows the line of deps: nothing, or a blank line. -/
def AfterLine (after s : Str) : Prop := after = [] ∨ ∃ t, after = 10 :: t ∧ BareBefore t s

/-- **A reader that has missed one of the characters cannot read all names.** -/
theorem depItems_ne_of_count_lt {a : UInt8} (h : a ≠ 10) {names : List Str} {after s : Str}
    (hafter : AfterLine after s) (hlt : s.count a < names.flatten.count a + after.count a) :
    (depItems s).1 ≠ names := by
  rintro rfl
  have hle := count_depItems_le a s
  have hrest : after.count a ≤ (depItems s).2.count a := by
    rcases hafter with rfl | ⟨t, rfl, hbare⟩
    · exact Nat.zero_le _
    · rw [List.count_cons_of_ne h.symm]
      exact (suffix_depItems hbare).sublist.count_le a
  omega

theorem AfterLine.passes {after s s' : Str} (h : AfterLine after s) (hp : Passes s s') :
    AfterLine after s' :=
  h.imp_right fun ⟨t, ht, hbare⟩ => ⟨t, ht, hbare.passes hp⟩

/-- The last line of the deps ends before what follows. -/
theorem afterLine_depRest (before : Str) (deps : List Str) {after : Str}
    (h : after = [] ∨ ∃ t, after = 10 :: t) : AfterLine after (before ++ depRest deps after) := by
  refine h.imp_right fun ⟨t, ht⟩ => ⟨t, ht, ?_⟩
  have hrest : ∃ x, depRest deps after = x ++ 10 :: after := by
    induction deps with
    | nil => exact ⟨[], rfl⟩
    | cons dep deps ih =>
      obtain ⟨x, hx⟩ := ih
      refine ⟨str " \\\n  " ++ escapeGnuMakeSpaces dep ++ x, ?_⟩
      rw [depRest, hx]
      simp only [List.append_assoc]
  obtain ⟨x, hx⟩ := hrest
  refine ⟨before ++ x ++ [10], ?_, ?_⟩
  · rw [hx, ht]
    simp
  · rw [List.getLast?_concat]
    decide

/-! ## The targets -/

/-- What follows the first target: a blank line before each of the others. -/
def following (targets : List DepTarget) : Str :=
  if targets = [] then [] else 10 :: (DepFile.mk targets).writeToBytes

theorem writeToBytes_cons (t : DepTarget) (targets : List DepTarget) :
    (DepFile.mk (t :: targets)).writeToBytes
      = t.target ++ 58 :: (depLines t.depFiles ++ 10 :: following targets) := by
  cases targets with
  | nil => simp [DepFile.writeToBytes, DepTarget.text, following]
  | cons u targets =>
    have hsep : (DepFile.mk (t :: u :: targets)).writeToBytes
        = t.text ++ 10 :: (DepFile.mk (u :: targets)).writeToBytes := by
      simp [DepFile.writeToBytes, List.intercalate]
    rw [hsep, following, if_neg (List.cons_ne_nil u targets), DepTarget.text]
    simp

theorem following_head (targets : List DepTarget) :
    following targets = [] ∨ ∃ t, following targets = 10 :: t := by
  rw [following]
  split_ifs
  · exact Or.inl rfl
  · exact Or.inr ⟨_, rfl⟩

/-- The blank line is skipped. -/
theorem parseDepFileContents_after (targets : List DepTarget) :
    parseDepFileContents (following targets)
      = parseDepFileContents (DepFile.mk targets).writeToBytes := by
  rw [following]
  split_ifs with h
  · subst h
    rfl
  · exact parseDepFileContents_newline _

end DistBuild
