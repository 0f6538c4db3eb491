import DistBuild.DepFiles.Escaping

/-!
# DepFiles/ReplaceAll — escaping in three passes is escaping in one

    str    done ∣ before c after   ─▸   done before \ c ∣ after
                ╰ pos                                   ╰ pos

`replaceAllLoop` edits the string while it searches it, and what it puts in contains what it looks
for.  It goes on behind what it has put in, so the part before `pos` is done (`replaceAllLoop_eq`):
a pass changes each character by itself, and the backslashes of one pass are no matter to the next.
-/

namespace DistBuild

/-- `str.find(pattern, pos)`. -/
def findPattern (s pattern : Str) (pos : ℕ) : Option ℕ :=
  (List.range' pos (s.length + 1 - pos)).find? fun i => Str.startsWith (s.drop i) pattern

/-- The loop of `replace_all`, with at most `fuel` searches. -/
def replaceAllLoop (pattern replacement : Str) : ℕ → Str → ℕ → Option Str
  | 0, _, _ => none
  | fuel + 1, s, pos =>
    match findPattern s pattern pos with
    | none => some s
    | some i =>
      replaceAllLoop pattern replacement fuel
        (s.take i ++ replacement ++ s.drop (i + pattern.length)) (i + replacement.length)

/-- `escape_gnu_make_spaces`, each of its loops with at most `fuel` searches. -/
def escapeGnuMakeSpacesLoop (fuel : ℕ) (depItem : Str) : Option Str := do
  let s ← replaceAllLoop [10] [92, 10] fuel depItem 0
  let s ← replaceAllLoop [32] [92, 32] fuel s 0
  replaceAllLoop [58] [92, 58] fuel s 0

/-! ## One pass -/

theorem startsWith_singleton_iff {s : Str} {c : UInt8} :
    s.startsWith [c] = true ↔ s.head? = some c := by
  rw [Str.startsWith_iff]
  cases s <;> simp [eq_comm]

/-- A character is found where it first stands behind `pos`. -/
theorem findPattern_eq_some {done before after : Str} {c : UInt8} (h : c ∉ before) :
    findPattern (done ++ (before ++ c :: after)) [c] done.length
      = some (done.length + before.length) := by
  rw [findPattern, List.find?_range'_eq_some]
  refine ⟨?_, ?_, fun j hj hlt => ?_⟩
  · rw [startsWith_singleton_iff, ← List.drop_drop, List.drop_left, List.drop_left]
    rfl
  · simp only [List.mem_range'_1, List.length_append, List.length_cons]
    omega
  · obtain ⟨k, rfl⟩ := Nat.exists_eq_add_of_le hj
    have hk : k < before.length := by omega
    rw [Bool.not_eq_true', ← Bool.not_eq_true, startsWith_singleton_iff, ← List.drop_drop,
      List.drop_left, List.drop_append_of_le_length hk.le, List.drop_eq_getElem_cons hk]
    rintro ⟨⟩
    exact h (List.getElem_mem hk)

theorem findPattern_eq_none {done rest : Str} {c : UInt8} (h : c ∉ rest) :
    findPattern (done ++ rest) [c] done.length = none := by
  rw [findPattern, List.find?_eq_none]
  intro j hj
  obtain ⟨k, rfl⟩ := Nat.exists_eq_add_of_le (List.mem_range'_1.mp hj).1
  rw [startsWith_singleton_iff, ← List.drop_drop, List.drop_left]
  exact fun hhead => h ((List.drop_suffix k rest).subset (List.mem_of_mem_head? hhead))

theorem replaceAll_append (s t : Str) (char : UInt8) (replacement : Str) :
    replaceAll (s ++ t) char replacement
      = replaceAll s char replacement ++ replaceAll t char replacement :=
  List.flatMap_append

theorem replaceAll_cons (c char : UInt8) (s replacement : Str) :
    replaceAll (c :: s) char replacement
      = (if c = char then replacement else [c]) ++ replaceAll s char replacement :=
  List.flatMap_cons

theorem replaceAll_of_not_mem {s : Str} {char : UInt8} (h : char ∉ s) (replacement : Str) :
    replaceAll s char replacement = s := by
  induction s with
  | nil => rfl
  | cons c s ih =>
    obtain ⟨hc, hs⟩ := not_or.mp (List.mem_cons.not.mp h)
    rw [replaceAll_cons, if_neg (Ne.symm hc), ih hs]
    rfl

/-- **A pass ends, and changes each character by itself**, however often the replacement contains
the character: what stands before `pos` is not searched again. -/
theorem replaceAllLoop_eq (char : UInt8) (replacement : Str) {fuel : ℕ} (done rest : Str)
    (h : rest.count char < fuel) :
    replaceAllLoop [char] replacement fuel (done ++ rest) done.length
      = some (done ++ replaceAll rest char replacement) := by
  induction fuel generalizing done rest with
  | zero => exact absurd h (Nat.not_lt_zero _)
  | succ fuel ih =>
    by_cases hmem : char ∈ rest
    · obtain ⟨before, after, rfl, hbefore⟩ := List.eq_append_cons_of_mem hmem
      have hedit : (done ++ (before ++ char :: after)).take (done.length + before.length)
            ++ replacement ++ (done ++ (before ++ char :: after)).drop
              (done.length + before.length + [char].length)
          = (done ++ before ++ replacement) ++ after := by
        rw [← List.append_assoc, ← List.length_append, List.take_left, List.append_cons,
          ← List.length_append, List.drop_left, List.append_assoc (done ++ before)]
      have hpos : done.length + before.length + replacement.length
          = (done ++ before ++ replacement).length := by simp only [List.length_append]
      have hcount : after.count char < fuel := by
        rw [List.count_append, List.count_cons_self] at h
        omega
      rw [replaceAllLoop, findPattern_eq_some hbefore]
      dsimp only
      rw [hedit, hpos, ih _ after hcount, replaceAll_append, replaceAll_cons, if_pos rfl,
        replaceAll_of_not_mem hbefore]
      simp only [List.append_assoc]
    · rw [replaceAllLoop, findPattern_eq_none hmem, replaceAll_of_not_mem hmem]

/-! ## Three passes -/

/-- What the three passes make of a character. -/
def escapeChar (c : UInt8) : Str := if c = 10 ∨ c = 32 ∨ c = 58 then [92, c] else [c]

/-- **The passes do not meet**: none of them touches a backslash or a character of another. -/
theorem escapeGnuMakeSpaces_eq (s : Str) : escapeGnuMakeSpaces s = s.flatMap escapeChar := by
  induction s with
  | nil => rfl
  | cons c s ih =>
    have hchar : escapeGnuMakeSpaces [c] = escapeChar c := by
      by_cases hc : c = 10 ∨ c = 32 ∨ c = 58
      · rcases hc with rfl | rfl | rfl <;> rfl
      · obtain ⟨h10, h32, h58⟩ : c ≠ 10 ∧ c ≠ 32 ∧ c ≠ 58 := by simpa using hc
        rw [escapeGnuMakeSpaces_singleton h10 h32 h58, escapeChar, if_neg hc]
    rw [← List.singleton_append, escapeGnuMakeSpaces_append, hchar, ih]
    rfl

/-- A pass adds no character that a later one looks for. -/
theorem count_replaceAll {char other : UInt8} (hne : other ≠ char) (h92 : other ≠ 92) (s : Str) :
    (replaceAll s char [92, char]).count other = s.count other := by
  induction s with
  | nil => rfl
  | cons c s ih =>
    have hchar : (if c = char then [92, char] else [c]).count other = [c].count other := by
      split_ifs with hc
      · subst hc
        rw [List.count_cons_of_ne h92.symm]
      · rfl
    rw [replaceAll_cons, List.count_append, hchar, ih, ← List.count_append, List.singleton_append]

/-- **The three loops end, and escape each newline, space and colon once**: no pass needs more
searches than the name has characters, and one more. -/
theorem escape_three_passes (s : Str) (k : ℕ) :
    escapeGnuMakeSpacesLoop (s.length + 1 + k) s = some (s.flatMap escapeChar)
      ∧ ∀ t : Str, escapeGnuMakeSpacesLoop ((s ++ t).length + 1 + k) (s ++ t)
          = some (s.flatMap escapeChar ++ t.flatMap escapeChar) := by
  have hone : ∀ s : Str,
      escapeGnuMakeSpacesLoop (s.length + 1 + k) s = some (s.flatMap escapeChar) := by
    intro s
    have hfuel : ∀ char, s.count char < s.length + 1 + k := fun char => by
      have := List.count_le_length (a := char) (l := s)
      omega
    have hnewline := replaceAllLoop_eq 10 [92, 10] [] s (hfuel 10)
    have hspace := replaceAllLoop_eq 32 [92, 32] [] (replaceAll s 10 [92, 10])
      ((count_replaceAll (by decide) (by decide) s).trans_lt (hfuel 32))
    have hcolon :=
      replaceAllLoop_eq 58 [92, 58] [] (replaceAll (replaceAll s 10 [92, 10]) 32 [92, 32])
      (((count_replaceAll (by decide) (by decide) _).trans
        (count_replaceAll (by decide) (by decide) s)).trans_lt (hfuel 58))
    simp only [List.nil_append, List.length_nil] at hnewline hspace hcolon
    simp only [escapeGnuMakeSpacesLoop, hnewline, hspace, hcolon, Option.bind_eq_bind,
      Option.bind_some]
    exact congrArg some (escapeGnuMakeSpaces_eq s)
  refine ⟨hone s, fun t => ?_⟩
  rw [hone, List.flatMap_append]

end DistBuild
