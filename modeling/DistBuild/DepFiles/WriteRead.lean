import DistBuild.DepFiles.Lines
import DistBuild.DepFiles.ReplaceAll
import DistBuild.Machinery.Escapes

/-!
# DepFiles/WriteRead — a dep file that is written, and read back

    writtenFile    escaped target: dep \⏎  dep⏎  ⏎  escaped target:⏎      ─▸      the same, or not

The writer puts a backslash before newlines, spaces and colons, and none before backslashes; the
reader takes a backslash off whatever follows it.  So a dep comes back if its backslashes stand
before colons, and a target if they stand before spaces: there the two backslashes read as one, and
the second character as itself (`ReadableDep`, `ReadableTarget`).
-/

namespace DistBuild

/-- The characters the writer escapes. -/
def isSeparator (c : UInt8) : Bool := c == 10 || c == 32 || c == 58

/-- A dep file as `generate_dep_file` builds it: the targets are escaped, the deps are not. -/
def writtenFile (targets : List (Str × List Str)) : DepFile :=
  ⟨targets.map fun t => ⟨escapeGnuMakeSpaces t.1, t.2⟩⟩

/-- The blanks that the writer leaves bare, and the reader skips before a target. -/
def isBareBlank (c : UInt8) : Bool := c == 9 || c == 11 || c == 12 || c == 13

/-- No bare blank at the head, no newline, and backslashes before spaces only. -/
def ReadableTarget (name : Str) : Prop :=
  (∀ c ∈ name.head?, isBareBlank c = false) ∧ 10 ∉ name ∧ MarksBefore 92 (· = 32) name

instance (name : Str) : Decidable (ReadableTarget name) := by
  unfold ReadableTarget
  infer_instance

/-- A head that the loop before a dep does not pass, and backslashes before colons only. -/
def ReadableDep (dep : Str) : Prop :=
  (∃ c ∈ dep.head?, c ∉ [10, 32, 58, 92]) ∧ MarksBefore 92 (· = 58) dep

theorem isSeparator_iff {c : UInt8} : isSeparator c = true ↔ c = 10 ∨ c = 32 ∨ c = 58 := by
  simp [isSeparator, or_assoc]

theorem escapeGnuMakeSpaces_eq_escape (s : Str) :
    escapeGnuMakeSpaces s = escape 92 isSeparator s := by
  rw [escapeGnuMakeSpaces_eq, escape]
  refine congrArg (s.flatMap ·) (funext fun c => ?_)
  rw [escapeChar]
  exact if_congr isSeparator_iff.symm rfl rfl

theorem not_separator {c : UInt8} (h : isSeparator c = false) : c ≠ 10 ∧ c ≠ 32 ∧ c ≠ 58 := by
  simpa [isSeparator, and_assoc] using h

/-! ## A target -/

/-- What the reader makes of a target: the text before a colon, read with losses. -/
theorem parseTargetName_takes {before s : Str} {r : Str × Str}
    (h : parseTargetName before s = some r) :
    ∃ word, r.1 = escapeGnuMakeSpaces (before ++ word) ∧ 10 ∉ word
      ∧ Takes 92 (· == 58) s word (58 :: r.2) := by
  induction before, s using parseTargetName.induct with
  | case1 before => cases h
  | case2 before cs =>
    rw [parseTargetName_colon] at h
    obtain rfl := Option.some.inj h
    exact ⟨[], by rw [List.append_nil], List.not_mem_nil, .done _⟩
  | case3 before cs _ =>
    rw [parseTargetName_newline] at h
    cases h
  | case4 before _ _ => cases h
  | case5 before d cs _ _ ih =>
    rw [parseTargetName_pair] at h
    obtain ⟨word, hr, hnl, htakes⟩ := ih h
    split_ifs at hr with hd
    · subst hd
      exact ⟨word, hr, hnl, .lostPair (by decide) htakes⟩
    · refine ⟨d :: word, by simp [hr], ?_, .pair htakes⟩
      exact List.not_mem_cons_of_ne_of_not_mem (Ne.symm hd) hnl
  | case6 before cs _ _ _ ih =>
    rw [parseTargetName_space] at h
    obtain ⟨word, hr, hnl, htakes⟩ := ih h
    split_ifs at hr with hlast
    · exact ⟨word, hr, hnl, .lost (by decide) (by decide) htakes⟩
    · refine ⟨32 :: word, by simp [hr], ?_, .char (by decide) (by decide) htakes⟩
      exact List.not_mem_cons_of_ne_of_not_mem (by decide) hnl
  | case7 before c cs h58 h10 h92 h32 ih =>
    rw [parseTargetName_char before cs h58 h10 h92 h32] at h
    obtain ⟨word, hr, hnl, htakes⟩ := ih h
    refine ⟨c :: word, by simp [hr], ?_, .char h92 (by simpa using h58) htakes⟩
    exact List.not_mem_cons_of_ne_of_not_mem (Ne.symm h10) hnl

/-- A target whose backslashes stand before spaces is read as it is: the two backslashes are read as
one, and the space behind them is bare. -/
theorem parseTargetName_readable {name : Str} (hnl : 10 ∉ name)
    (h : MarksBefore 92 (· = 32) name) (before s : Str) :
    parseTargetName before (escape 92 isSeparator name ++ 58 :: s)
      = some (escapeGnuMakeSpaces (before ++ name), s) := by
  revert hnl before
  refine MarksBefore.induction (P := fun name => 10 ∉ name → ∀ before,
    parseTargetName before (escape 92 isSeparator name ++ 58 :: s)
      = some (escapeGnuMakeSpaces (before ++ name), s)) ?nil ?plain ?marked h
  case nil =>
    intro _ before
    rw [escape_nil, List.nil_append, parseTargetName_colon, List.append_nil]
  case plain =>
    intro c cs hc ih hnl before
    obtain ⟨h10, hcs⟩ := List.ne_and_not_mem_of_not_mem_cons hnl
    rw [List.append_cons before c cs, ← ih hcs]
    cases hsep : isSeparator c with
    | true =>
      rw [escape_special hsep, List.cons_append, List.cons_append, parseTargetName_pair,
        if_neg (Ne.symm h10)]
    | false =>
      obtain ⟨-, h32, h58⟩ := not_separator hsep
      rw [escape_plain hsep, List.cons_append, parseTargetName_char _ _ h58 (Ne.symm h10) hc h32]
  case marked =>
    rintro d cs rfl ih hnl before
    have hcs : 10 ∉ cs := fun h => hnl (List.mem_cons_of_mem _ (List.mem_cons_of_mem _ h))
    rw [escape_plain (by decide), escape_special (by decide), List.cons_append, List.cons_append,
      List.cons_append, parseTargetName_pair, if_neg (by decide), parseTargetName_space,
      if_neg (by simp), ih hcs, List.append_assoc, List.append_assoc]
    rfl

/-! ### The blanks before it -/

theorem isSpace_eq (c : UInt8) : isSpace c = (isBareBlank c || c == 10 || c == 32) := by
  rw [Bool.eq_iff_iff]
  simp only [isSpace, isBareBlank, Bool.or_eq_true, Bool.and_eq_true, decide_eq_true_eq, beq_iff_eq,
    UInt8.le_iff_toNat_le, ← UInt8.toNat_inj, UInt8.reduceToNat]
  omega

theorem parseSkipSpaces_escape (name s : Str) :
    parseSkipSpaces (escape 92 isSeparator name ++ 58 :: s)
      = escape 92 isSeparator (name.dropWhile isBareBlank) ++ 58 :: s := by
  induction name with
  | nil => rfl
  | cons c cs ih =>
    cases hsep : isSeparator c with
    | true =>
      have hbare : isBareBlank c = false := by
        rcases isSeparator_iff.mp hsep with rfl | rfl | rfl <;> rfl
      rw [List.dropWhile_cons_of_neg (by simp [hbare]), escape_special hsep]
      exact List.dropWhile_cons_of_neg (by decide)
    | false =>
      obtain ⟨h10, h32, -⟩ := not_separator hsep
      have hspace : isSpace c = isBareBlank c := by
        rw [isSpace_eq, beq_eq_false_iff_ne.mpr h10, beq_eq_false_iff_ne.mpr h32, Bool.or_false,
          Bool.or_false]
      cases hbare : isBareBlank c with
      | true =>
        rw [List.dropWhile_cons_of_pos hbare, ← ih, escape_plain hsep]
        exact List.dropWhile_cons_of_pos (hspace.trans hbare)
      | false =>
        rw [List.dropWhile_cons_of_neg (by simp [hbare]), escape_plain hsep]
        exact List.dropWhile_cons_of_neg (by simp [hspace, hbare])

/-- **Which targets are read back**, and that the reader is then behind their colon; a blank at the
head is not made up for. -/
theorem readableTarget_of_parse {name s : Str} {r : Str × Str}
    (h : parseTargetName [] (parseSkipSpaces (escapeGnuMakeSpaces name ++ 58 :: s)) = some r)
    (hr : r.1 = escapeGnuMakeSpaces name) : ReadableTarget name ∧ r.2 = s := by
  rw [escapeGnuMakeSpaces_eq_escape, parseSkipSpaces_escape] at h
  obtain ⟨word, hword, hnl, htakes⟩ := parseTargetName_takes h
  rw [hr, escapeGnuMakeSpaces_eq_escape, escapeGnuMakeSpaces_eq_escape, List.nil_append] at hword
  obtain rfl := escape_injective (by decide) hword
  have hstops : Stops (· == 58) (58 :: r.2) := by simp [Stops]
  have hsep : ∀ c : UInt8, (c == 58) = true → isSeparator c = true := by simp [isSeparator]
  have hblank : name.takeWhile isBareBlank = [] := by
    by_contra hpre
    have hends := htakes.ends (by decide) hsep (by decide) hstops
    nth_rewrite 2 [← List.takeWhile_append_dropWhile (p := isBareBlank) (l := name)] at hends
    refine hends.false_of_append hpre ?_
    intro c hc
    have hbare := List.mem_takeWhile_imp hc
    exact beq_eq_false_iff_ne.mpr fun h58 => absurd (h58 ▸ hbare) (by decide)
  have hdrop : name.dropWhile isBareBlank = name := by
    simpa [hblank] using List.takeWhile_append_dropWhile (p := isBareBlank) (l := name)
  rw [hdrop] at htakes
  refine ⟨⟨fun c hc => ?_, hnl, ?_⟩, ?_⟩
  · cases name with
    | nil => cases hc
    | cons d ds =>
      obtain rfl := Option.some.inj hc
      by_contra hbare
      rw [List.takeWhile_cons_of_pos (by simpa using hbare)] at hblank
      cases hblank
  · refine (htakes.marked (by decide) hsep (by decide) hstops).imp fun d hd hp => ?_
    rcases isSeparator_iff.mp hp.1 with rfl | rfl | rfl
    · exact absurd hd hnl
    · rfl
    · exact absurd hp.2 (by decide)
  · have hends := htakes.ends (by decide) hsep (by decide) hstops
    simpa [Ends] using hends

theorem parseTargetName_of_readable {name : Str} (h : ReadableTarget name) (s : Str) :
    parseTargetName [] (parseSkipSpaces (escapeGnuMakeSpaces name ++ 58 :: s))
      = some (escapeGnuMakeSpaces name, s) := by
  obtain ⟨hhead, hnl, hmarks⟩ := h
  have hdrop : name.dropWhile isBareBlank = name := by
    cases name with
    | nil => rfl
    | cons c cs => exact List.dropWhile_cons_of_neg (by simp [hhead c rfl])
  rw [escapeGnuMakeSpaces_eq_escape, parseSkipSpaces_escape, hdrop,
    parseTargetName_readable hnl hmarks, List.nil_append, escapeGnuMakeSpaces_eq_escape]

/-! ## The deps -/

/-- What the reader makes of a dep: the text before a bare space or newline. -/
theorem depItemName_takes (s : Str) :
    Takes 92 (fun c => c == 32 || c == 10) s (depItemName s).1 (depItemName s).2
      ∧ Stops (fun c => c == 32 || c == 10) (depItemName s).2 := by
  induction s using depItemName.induct with
  | case1 => exact ⟨.done _, by simp [depItemName, Stops]⟩
  | case2 c cs h =>
    rw [depItemName_stop h]
    exact ⟨.done _, by simpa [Stops] using h⟩
  | case3 h => exact ⟨.dangling, by simp [depItemName, Stops]⟩
  | case4 d cs h ih =>
    rw [depItemName_pair]
    exact ⟨.pair ih.1, ih.2⟩
  | case5 c cs h h' ih =>
    rw [depItemName_char (fun h32 => h (Or.inl h32)) (fun h10 => h (Or.inr h10)) h']
    exact ⟨.char h' (by simpa using h) ih.1, ih.2⟩

/-- A dep whose backslashes stand before colons is read as it is: the two backslashes are read as
one, and the colon behind them is bare. -/
theorem depItemName_readable {dep : Str} (h : MarksBefore 92 (· = 58) dep) {d : UInt8}
    (hd : d = 32 ∨ d = 10) (s : Str) :
    depItemName (escape 92 isSeparator dep ++ d :: s) = (dep, d :: s) := by
  refine MarksBefore.induction (P := fun dep =>
    depItemName (escape 92 isSeparator dep ++ d :: s) = (dep, d :: s)) ?nil ?plain ?marked h
  case nil => exact depItemName_stop hd s
  case plain =>
    intro c cs hc ih
    cases hsep : isSeparator c with
    | true => rw [escape_special hsep, List.cons_append, List.cons_append, depItemName_pair, ih]
    | false =>
      obtain ⟨h10, h32, -⟩ := not_separator hsep
      rw [escape_plain hsep, List.cons_append, depItemName_char h32 h10 hc, ih]
  case marked =>
    rintro e cs rfl ih
    rw [escape_plain (by decide), escape_special (by decide), List.cons_append, List.cons_append,
      List.cons_append, depItemName_pair, depItemName_char (by decide) (by decide) (by decide), ih]

/-- **A readable dep is read back**, and the reader is at the next line. -/
theorem depItems_readable {dep : Str} (h : ReadableDep dep) (deps : List Str) (after : Str) :
    depItems (depRest (dep :: deps) after)
      = (dep :: (depItems (depRest deps after)).1, (depItems (depRest deps after)).2) := by
  obtain ⟨⟨c, hc, hhead⟩, hmarks⟩ := h
  obtain ⟨d, rest, hd, hrest⟩ := depRest_head deps after
  have hname := depItemName_readable hmarks hd rest
  obtain ⟨cs, rfl⟩ := List.head?_eq_some_iff.mp hc
  have hsep : isSeparator c = false := by simp_all [isSeparator]
  rw [depItems_depRest_cons, hrest, escapeGnuMakeSpaces_eq_escape]
  rw [escape_plain hsep, List.cons_append] at hname ⊢
  rw [depItems_cons (by simp_all), hname]

theorem count_colon_depRest (deps : List Str) (after : Str) :
    (depRest deps after).count 58 = deps.flatten.count 58 + after.count 58 := by
  induction deps with
  | nil =>
    rw [depRest, List.count_cons_of_ne (by decide)]
    simp
  | cons dep deps ih =>
    have hlead : (str " \\\n  ").count 58 = 0 := by decide
    rw [depRest, List.count_append, List.count_append, hlead, escapeGnuMakeSpaces_eq_escape,
      count_escape (by decide), ih, List.flatten_cons, List.count_append]
    omega

/-- **A dep that is read back is readable**: it starts with the character that ended the first loop,
so no backslash was passed over before it. -/
theorem readableDep_of_depItems {dep : Str} {deps : List Str} {after : Str}
    (hafter : after = [] ∨ ∃ t, after = 10 :: t)
    (h : (depItems (depRest (dep :: deps) after)).1 = dep :: deps) : ReadableDep dep := by
  rw [depItems_depRest_cons, escapeGnuMakeSpaces_eq_escape] at h
  obtain ⟨c, cs, rfl, hc⟩ := head_of_depItems h
  by_cases h58 : c = 58
  · subst h58
    rw [escape_special (by decide), List.cons_append, List.cons_append,
      depItems_congr (skipToItem_pair ..)] at h
    refine absurd h
      (depItems_ne_of_count_lt (a := 58) (by decide) (afterLine_depRest _ deps hafter) ?_)
    rw [List.count_append, count_escape (by decide), count_colon_depRest, List.flatten_cons,
      List.count_append, List.count_cons_self]
    omega
  · have hsep : isSeparator c = false := by simp_all [isSeparator]
    obtain ⟨d, rest, hd, hrest⟩ := depRest_head deps after
    obtain ⟨htakes, hstops⟩ := depItemName_takes (escape 92 isSeparator (c :: cs) ++ d :: rest)
    have hname : (depItemName (escape 92 isSeparator (c :: cs) ++ d :: rest)).1 = c :: cs := by
      rw [hrest] at h
      rw [escape_plain hsep, List.cons_append] at h ⊢
      rw [depItems_cons hc] at h
      exact (List.cons.inj h).1
    rw [hname] at htakes
    refine ⟨⟨c, rfl, by simp_all⟩, ?_⟩
    refine (htakes.marked (by decide) ?_ ?_ hstops).imp fun e _ he => ?_
    · intro e he
      exact isSeparator_iff.mpr (by simp_all; tauto)
    · simpa using hd
    · rcases isSeparator_iff.mp he.1 with rfl | rfl | rfl
      · exact absurd he.2 (by decide)
      · exact absurd he.2 (by decide)
      · rfl

/-- **All deps are read back if all are readable**, up to what follows their lines. -/
theorem depItems_of_readable {deps : List Str} (h : ∀ dep ∈ deps, ReadableDep dep) (after : Str) :
    depItems (depRest deps after) = (deps, after) := by
  induction deps with
  | nil => exact depItems_depRest_nil after
  | cons dep deps ih =>
    rw [depItems_readable (h dep (by simp)), ih fun d hd => h d (List.mem_cons_of_mem _ hd)]

/-- **Only then.** -/
theorem readable_of_depItems {deps : List Str} {after : Str}
    (hafter : after = [] ∨ ∃ t, after = 10 :: t) (h : (depItems (depRest deps after)).1 = deps) :
    ∀ dep ∈ deps, ReadableDep dep := by
  induction deps with
  | nil => simp
  | cons dep deps ih =>
    have hdep := readableDep_of_depItems hafter h
    rw [depItems_readable hdep] at h
    exact List.forall_mem_cons.mpr ⟨hdep, ih (List.cons.inj h).2⟩

/-! ## The file -/

theorem parseDepFileContents_written (name : Str) (deps : List Str)
    (targets : List (Str × List Str)) :
    parseDepFileContents (writtenFile ((name, deps) :: targets)).writeToBytes
      = (parseTargetName [] (parseSkipSpaces (escapeGnuMakeSpaces name ++ 58 ::
          (depLines deps ++ 10 :: following (writtenFile targets).depTargets)))).bind fun r =>
          (parseDepFileContents (depItems r.2).2).map (⟨r.1, (depItems r.2).1⟩ :: ·) := by
  have hne : parseSkipSpaces (escapeGnuMakeSpaces name ++ 58 ::
      (depLines deps ++ 10 :: following (writtenFile targets).depTargets)) ≠ [] := by
    rw [escapeGnuMakeSpaces_eq_escape, parseSkipSpaces_escape]
    simp
  rw [writtenFile, List.map_cons, writeToBytes_cons, parseDepFileContents_eq]
  exact if_neg hne

/-- The text of a file is read as its targets: target by target, and what follows each. -/
theorem parse_written_iff (targets : List (Str × List Str)) :
    parseDepFileContents (writtenFile targets).writeToBytes = some (writtenFile targets).depTargets
      ↔ ∀ t ∈ targets, ReadableTarget t.1 ∧ ∀ dep ∈ t.2, ReadableDep dep := by
  induction targets with
  | nil =>
    have hnil : parseDepFileContents (writtenFile []).writeToBytes = some [] := by decide
    exact iff_of_true hnil (by simp)
  | cons t targets ih =>
    obtain ⟨name, deps⟩ := t
    have hafter := following_head (writtenFile targets).depTargets
    rw [parseDepFileContents_written, List.forall_mem_cons]
    constructor
    · intro h
      obtain ⟨r, hr, h⟩ := Option.bind_eq_some_iff.mp h
      obtain ⟨ts, hts, heq⟩ := Option.map_eq_some_iff.mp h
      obtain ⟨hfirst, rfl⟩ := List.cons.inj heq
      obtain ⟨hname, hdeps⟩ := DepTarget.mk.inj hfirst
      obtain ⟨htarget, hrest⟩ := readableTarget_of_parse hr hname
      rw [hrest, depItems_depLines] at hdeps hts
      have hreadable := readable_of_depItems hafter hdeps
      rw [depItems_of_readable hreadable, parseDepFileContents_after] at hts
      exact ⟨⟨htarget, hreadable⟩, ih.mp hts⟩
    · rintro ⟨⟨htarget, hreadable⟩, hrest⟩
      have htargets := ih.mpr hrest
      rw [parseTargetName_of_readable htarget, Option.bind_some, depItems_depLines,
        depItems_of_readable hreadable, parseDepFileContents_after]
      exact (congrArg (Option.map _) htargets).trans rfl

/-- **A dep file comes back if its names are readable, and only then.** -/
theorem written_file_read_back (targets : List (Str × List Str)) :
    makeDepFileFromBytes (writtenFile targets).writeToBytes = some (writtenFile targets)
      ↔ ∀ t ∈ targets, ReadableTarget t.1 ∧ ∀ dep ∈ t.2, ReadableDep dep := by
  rw [← parse_written_iff, makeDepFileFromBytes, Option.map_eq_some_iff]
  exact ⟨fun ⟨ts, hts, heq⟩ => hts.trans (congrArg (some ·.depTargets) heq), fun h => ⟨_, h, rfl⟩⟩

/-- A dep with a backslash before a letter comes back without it. -/
theorem backslash_lost :
    makeDepFileFromBytes (writtenFile [(str "t", [str "/i/a\\b.h"])]).writeToBytes
        = some ⟨[⟨str "t", [str "/i/ab.h"]⟩]⟩
      ∧ ¬ ∀ targets : List (Str × List Str),
        (∀ t ∈ targets, t.1 ≠ [] ∧ ∀ dep ∈ t.2, dep ≠ []) →
          makeDepFileFromBytes (writtenFile targets).writeToBytes = some (writtenFile targets) := by
  have hread : makeDepFileFromBytes (writtenFile [(str "t", [str "/i/a\\b.h"])]).writeToBytes
      = some ⟨[⟨str "t", [str "/i/ab.h"]⟩]⟩ := by decide +kernel
  refine ⟨hread, fun h => ?_⟩
  have hback := h [(str "t", [str "/i/a\\b.h"])] (by decide)
  rw [hread] at hback
  exact absurd hback (by decide)

end DistBuild
