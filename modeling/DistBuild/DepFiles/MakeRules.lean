import DistBuild.DepFiles.Escaping

/-!
# DepFiles/MakeRules — a dependency name, as make reads it

    a\ b    ─▸  a\\\ b    ─▸  a\ b        the run before a blank is doubled, and one added
    a$b     ─▸  a$$b      ─▸  a$b
    a\#b    ─▸  a\\#b     ─▸  a\#b        before a number sign only one is added

`process_makefile_target` looks back at the backslashes that it has copied already; make counts them
as they come.  At every position both are at the same run of backslashes, which is what the
induction carries (`makeName_escape`).
-/

namespace DistBuild

open CmdLine.DepFilesState (processMakefileTarget escapeMakefileTarget)

/-- What make reads after `run` backslashes, or behind the first of two dollars: `2k + 1`
backslashes before a blank stand for `k` and the blank, one before a number sign is removed, two
dollars stand for one, all else is literal. -/
def makeName (run : ℕ) (dollar : Bool) : Str → Str
  | [] => backslashes run
  | c :: cs =>
    if c = 92 then makeName (run + 1) false cs
    else if c = 32 ∨ c = 9 then
      backslashes (if run % 2 = 1 then run / 2 else run) ++ c :: makeName 0 false cs
    else if c = 35 then backslashes (run - 1) ++ c :: makeName 0 false cs
    else if c = 36 then
      if dollar then makeName 0 false cs else backslashes run ++ c :: makeName 0 true cs
    else backslashes run ++ c :: makeName 0 false cs

/-- A dependency name, read with make's rules. -/
def readMakeName (name : Str) : Str := makeName 0 false name

section

variable (run : ℕ) (s : Str)

@[simp] theorem makeName_backslash :
    makeName run false (92 :: s) = makeName (run + 1) false s := rfl

theorem makeName_backslashes (k : ℕ) :
    makeName run false (backslashes k ++ s) = makeName (run + k) false s := by
  induction k generalizing run with
  | zero => rfl
  | succ k ih =>
    rw [backslashes, List.replicate_succ, List.cons_append, makeName_backslash, ih,
      Nat.add_right_comm, Nat.add_assoc]

theorem makeName_blank {c : UInt8} (h : c = 32 ∨ c = 9) :
    makeName run false (c :: s)
      = backslashes (if run % 2 = 1 then run / 2 else run) ++ c :: makeName 0 false s := by
  rcases h with rfl | rfl <;> rfl

theorem makeName_number :
    makeName run false (35 :: s) = backslashes (run - 1) ++ 35 :: makeName 0 false s := rfl

theorem makeName_dollars :
    makeName run false (36 :: 36 :: s) = backslashes run ++ 36 :: makeName 0 false s := rfl

theorem makeName_literal {c : UInt8} (h : c ∉ [9, 32, 35, 36, 92]) :
    makeName run false (c :: s) = backslashes run ++ c :: makeName 0 false s := by
  simp only [List.mem_cons, List.not_mem_nil, or_false, not_or] at h
  simp [makeName, h]

end

/-- **Make undoes the escapes**, from any position on: `run` is what both have counted. -/
theorem makeName_escape (done s : Str) :
    makeName (done.takeWhile (· == 92)).length false (escapeMakefileTarget done s)
      = backslashes (done.takeWhile (· == 92)).length ++ s := by
  induction s generalizing done with
  | nil => exact (List.append_nil _).symm
  | cons c cs ih =>
    generalize hrun : (done.takeWhile (· == 92)).length = run
    by_cases h92 : c = 92
    · subst h92
      have hlength : ((92 :: done : Str).takeWhile (· == 92)).length = run + 1 := by simp [hrun]
      have hrest := ih (92 :: done)
      rw [hlength] at hrest
      rw [escapeMakefileTarget]
      exact (makeName_backslash run _).trans
        (hrest.trans (by simp [backslashes, List.replicate_succ']))
    have hlength : ((c :: done).takeWhile (· == 92)).length = 0 := by simp [h92]
    have hrest : makeName 0 false (escapeMakefileTarget (c :: done) cs) = cs := by
      have h := ih (c :: done)
      rwa [hlength] at h
    by_cases hblank : c = 32 ∨ c = 9
    · have hadded : done.takeWhile (· == 92) ++ str "\\" = backslashes (run + 1) := by
        rw [takeWhile_backslash, hrun, backslashes_add]
        rfl
      rw [escapeMakefileTarget, if_pos hblank, hadded, makeName_backslashes,
        makeName_blank _ _ hblank, if_pos (by omega), hrest,
        show (run + (run + 1)) / 2 = run by omega]
    by_cases h36 : c = 36
    · subst h36
      exact (makeName_dollars run _).trans (by rw [hrest])
    by_cases h35 : c = 35
    · subst h35
      refine (makeName_backslash run _).trans ((makeName_number (run + 1) _).trans ?_)
      rw [hrest, Nat.add_sub_cancel]
    have hliteral : c ∉ [9, 32, 35, 36, 92] := by
      simp only [List.mem_cons, List.not_mem_nil, or_false, not_or]
      exact ⟨fun h => hblank (Or.inr h), fun h => hblank (Or.inl h), h35, h36, h92⟩
    rw [escapeMakefileTarget, if_neg hblank, if_neg h36, if_neg h35]
    exact (makeName_literal run _ hliteral).trans (by rw [hrest])

/-- **Make's reading of a dependency name is the path it was made of**, so no two paths have one
name. -/
theorem make_reads_path :
    (∀ s, readMakeName (processMakefileTarget s) = s)
      ∧ ∀ s t, s ≠ t → processMakefileTarget s ≠ processMakefileTarget t := by
  have hread : Function.LeftInverse readMakeName processMakefileTarget := makeName_escape []
  exact ⟨hread, fun s t hne heq => hne (hread.injective heq)⟩

example : processMakefileTarget (str "a\\ b#$") = str "a\\\\\\ b\\#$$" := by decide

end DistBuild
