import DistBuild.Compiler.CallArguments

/-!
# DepFiles/Format — the dep file of a compiler call: how it is written, and how it is read

    writeToBytes            target: dep \⏎  dep \⏎  dep⏎        a blank line between targets
    makeDepFileFromBytes    the targets with their deps, or the exception for a missing colon

The writer leaves the target as it is and puts a backslash before a newline, a space and a colon of
a dep.  The reader takes a backslash off whatever follows it, and passes over backslashes with the
spaces before a dep.  A reader that meets no bare newline only passes characters (`Passes`), which
is what is known of the rest it leaves.
-/

namespace DistBuild

structure DepTarget where
  target : Str
  depFiles : List Str
deriving DecidableEq, Repr

/-- `replace_all` of a one-character string, as in every call of it. -/
def replaceAll (s : Str) (char : UInt8) (replacement : Str) : Str :=
  s.flatMap fun c => if c = char then replacement else [c]

/-- A backslash before every newline, space and colon. -/
def escapeGnuMakeSpaces (depItem : Str) : Str :=
  replaceAll (replaceAll (replaceAll depItem 10 [92, 10]) 32 [92, 32]) 58 [92, 58]

structure DepFile where
  depTargets : List DepTarget
deriving DecidableEq, Repr

/-! ## Writing -/

/-- The deps of a target, one on a line. -/
def depLines : List Str → Str
  | [] => []
  | dep :: deps =>
    32 :: escapeGnuMakeSpaces dep ++ deps.flatMap fun d => str " \\\n  " ++ escapeGnuMakeSpaces d

def DepTarget.text (t : DepTarget) : Str := t.target ++ 58 :: depLines t.depFiles ++ [10]

def DepFile.writeToBytes (f : DepFile) : Str := [10].intercalate (f.depTargets.map DepTarget.text)

/-! ## Reading -/

def parseSkipSpaces (c : Str) : Str := c.dropWhile isSpace

/-- `parse_target_name` after the characters `name`: the name, and what follows its colon.  A
backslash at the end of a line joins it to the next one.  `none` is the exception `':' expected
after target name`. -/
def parseTargetName (name : Str) : Str → Option (Str × Str)
  | [] => none
  | c :: cs =>
    if c = 58 then some (escapeGnuMakeSpaces name, cs)
    else if c = 10 then none
    else if c = 92 then
      match cs with
      | [] => none
      | d :: cs => parseTargetName (if d = 10 then name else name ++ [d]) cs
    else if c = 32 then parseTargetName (if name.getLast? = some 32 then name else name ++ [32]) cs
    else parseTargetName (name ++ [c]) cs

/-- The first loop of `parse_next_dep_item`. -/
def skipToItem : Str → Str
  | [] => []
  | c :: cs =>
    if c = 32 then skipToItem cs
    else if c = 92 then
      match cs with
      | [] => []
      | _ :: cs => skipToItem cs
    else c :: cs

/-- The second loop of `parse_next_dep_item`. -/
def depItemName : Str → Str × Str
  | [] => ([], [])
  | c :: cs =>
    if c = 32 ∨ c = 10 then ([], c :: cs)
    else if c = 92 then
      match cs with
      | [] => ([], [])
      | d :: cs => (depItemName cs).map (d :: ·) id
    else (depItemName cs).map (c :: ·) id

def parseNextDepItem (c : Str) : Str × Str :=
  match skipToItem c with
  | [] => ([], [])
  | d :: rest => if d = 10 then ([], rest) else depItemName (d :: rest)

/-- The loop over the deps of a target, with at most `fuel` rounds. -/
def parseDepItems : ℕ → Str → List Str × Str
  | 0, c => ([], c)
  | fuel + 1, c =>
    let (name, rest) := parseNextDepItem c
    if name = [] then ([], rest) else (parseDepItems fuel rest).map (name :: ·) id

/-- The deps that follow the colon of a target, and what follows them. -/
def depItems (c : Str) : List Str × Str := parseDepItems (c.length + 1) c

/-- The loop of `parse_dep_file_contents`, with at most `fuel` rounds. -/
def parseTargets : ℕ → Str → Option (List DepTarget)
  | 0, _ => none
  | fuel + 1, c =>
    match parseSkipSpaces c with
    | [] => some []
    | d :: rest => do
      let (targetName, rest) ← parseTargetName [] (d :: rest)
      let (items, rest) := depItems rest
      let targets ← parseTargets fuel rest
      return ⟨targetName, items⟩ :: targets

def parseDepFileContents (c : Str) : Option (List DepTarget) := parseTargets (c.length + 1) c

def makeDepFileFromBytes (contents : Str) : Option DepFile :=
  (parseDepFileContents contents).map DepFile.mk

example : makeDepFileFromBytes (str "a.o: a\\ b.c \\\n  /i/x.h\n\n/i/x.h:\n")
    = some ⟨[⟨str "a.o", [str "a b.c", str "/i/x.h"]⟩, ⟨str "/i/x.h", []⟩]⟩ := by decide +kernel

/-! ## What a reader passes -/

/-- `t` is what is left of `s` after characters and backslash pairs, and no bare newline. -/
inductive Passes : Str → Str → Prop
  | refl (s : Str) : Passes s s
  | char {c : UInt8} {s t : Str} (hc : c ≠ 92) (hn : c ≠ 10) (h : Passes s t) : Passes (c :: s) t
  | pair {d : UInt8} {s t : Str} (h : Passes s t) : Passes (92 :: d :: s) t
  | dangling : Passes [92] []

theorem Passes.suffix {s t : Str} (h : Passes s t) : t <:+ s := by
  induction h with
  | refl s => exact List.suffix_rfl
  | char _ _ _ ih => exact ih.trans (List.suffix_cons ..)
  | pair _ ih => exact ih.trans ((List.suffix_cons ..).trans (List.suffix_cons ..))
  | dangling => exact List.nil_suffix

theorem Passes.trans {s t u : Str} (h : Passes s t) (h' : Passes t u) : Passes s u := by
  induction h with
  | refl s => exact h'
  | char hc hn _ ih => exact .char hc hn (ih h')
  | pair _ ih => exact .pair (ih h')
  | dangling =>
    cases h'
    exact .dangling

/-- A bare newline stands before `t`: none that a backslash takes away. -/
def BareBefore (t s : Str) : Prop := ∃ x : Str, s = x ++ 10 :: t ∧ x.getLast? ≠ some 92

/-- **A reader stops before a bare newline.** -/
theorem BareBefore.passes {t s s' : Str} (hb : BareBefore t s) (h : Passes s s') :
    BareBefore t s' := by
  induction h with
  | refl s => exact hb
  | char hc hn _ ih =>
    obtain ⟨x, hx, hlast⟩ := hb
    cases x with
    | nil => exact absurd (List.cons.inj hx).1 hn
    | cons c x =>
      refine ih ⟨x, (List.cons.inj hx).2, fun h => hlast ?_⟩
      simp [List.getLast?_cons, h]
  | pair _ ih =>
    obtain ⟨x, hx, hlast⟩ := hb
    match x, hx, hlast with
    | [], hx, _ => exact absurd (List.cons.inj hx).1 (by decide)
    | [c], hx, hlast =>
      obtain ⟨rfl, -⟩ := List.cons.inj hx
      exact absurd rfl hlast
    | c :: d :: x, hx, hlast =>
      refine ih ⟨x, (List.cons.inj (List.cons.inj hx).2).2, fun h => hlast ?_⟩
      simp [List.getLast?_cons, h]
  | dangling =>
    obtain ⟨x, hx, -⟩ := hb
    match x, hx with
    | [], hx => exact absurd (List.cons.inj hx).1 (by decide)
    | c :: x, hx => simp at hx

/-! ### Where the two loops over a dep stop -/

@[simp] theorem skipToItem_space (s : Str) : skipToItem (32 :: s) = skipToItem s := by
  cases s <;> simp [skipToItem]

@[simp] theorem skipToItem_pair (d : UInt8) (s : Str) :
    skipToItem (92 :: d :: s) = skipToItem s := by
  simp [skipToItem]

theorem skipToItem_char {c : UInt8} (h : c ≠ 32) (h' : c ≠ 92) (s : Str) :
    skipToItem (c :: s) = c :: s := by
  cases s <;> simp [skipToItem, h, h']

theorem skipToItem_passes (s : Str) : Passes s (skipToItem s) := by
  induction s using skipToItem.induct with
  | case1 => exact .refl []
  | case2 cs ih =>
    rw [skipToItem_space]
    exact .char (by decide) (by decide) ih
  | case3 h => exact .dangling
  | case4 d cs h ih =>
    rw [skipToItem_pair]
    exact .pair ih
  | case5 c cs h h' =>
    rw [skipToItem_char h h']
    exact .refl _

theorem skipToItem_head {c : UInt8} {s t : Str} (h : skipToItem s = c :: t) : c ≠ 32 ∧ c ≠ 92 := by
  induction s using skipToItem.induct with
  | case1 => cases h
  | case2 cs ih => exact ih ((skipToItem_space cs).symm.trans h)
  | case3 _ => cases h
  | case4 d cs _ ih => exact ih ((skipToItem_pair d cs).symm.trans h)
  | case5 c cs h32 h92 =>
    rw [skipToItem_char h32 h92] at h
    obtain ⟨rfl, -⟩ := List.cons.inj h
    exact ⟨h32, h92⟩

theorem depItemName_stop {c : UInt8} (h : c = 32 ∨ c = 10) (s : Str) :
    depItemName (c :: s) = ([], c :: s) := by
  rcases h with rfl | rfl <;> cases s <;> simp [depItemName]

@[simp] theorem depItemName_pair (d : UInt8) (s : Str) :
    depItemName (92 :: d :: s) = (d :: (depItemName s).1, (depItemName s).2) := by
  simp [depItemName, Prod.map]

theorem depItemName_char {c : UInt8} (h : c ≠ 32) (h' : c ≠ 10) (h'' : c ≠ 92) (s : Str) :
    depItemName (c :: s) = (c :: (depItemName s).1, (depItemName s).2) := by
  cases s <;> simp [depItemName, Prod.map, h, h', h'']

theorem depItemName_passes (s : Str) : Passes s (depItemName s).2 := by
  induction s using depItemName.induct with
  | case1 => exact .refl []
  | case2 c cs h =>
    rw [depItemName_stop h]
    exact .refl _
  | case3 h => exact .dangling
  | case4 d cs h ih =>
    rw [depItemName_pair]
    exact .pair ih
  | case5 c cs h h' ih =>
    rw [depItemName_char (fun h32 => h (Or.inl h32)) (fun h10 => h (Or.inr h10)) h']
    exact .char h' (fun h10 => h (Or.inr h10)) ih

/-- No character is read twice. -/
theorem count_depItemName_le (a : UInt8) (s : Str) :
    (depItemName s).1.count a + (depItemName s).2.count a ≤ s.count a := by
  induction s using depItemName.induct with
  | case1 => rfl
  | case2 c cs h =>
    rw [depItemName_stop h]
    simp
  | case3 h => simp [depItemName]
  | case4 d cs h ih =>
    rw [depItemName_pair]
    simp only [List.count_cons]
    omega
  | case5 c cs h h' ih =>
    rw [depItemName_char (fun h32 => h (Or.inl h32)) (fun h10 => h (Or.inr h10)) h']
    simp only [List.count_cons]
    omega

/-- **The next dep** starts with the character that ended the first loop. -/
theorem parseNextDepItem_item {s t : Str} {c : UInt8} (h : skipToItem s = c :: t) (h10 : c ≠ 10) :
    parseNextDepItem s = depItemName (c :: t) := by
  rw [parseNextDepItem, h]
  exact if_neg h10

theorem parseNextDepItem_newline {s t : Str} (h : skipToItem s = 10 :: t) :
    parseNextDepItem s = ([], t) := by
  rw [parseNextDepItem, h]
  exact if_pos rfl

theorem depItemName_head {s t : Str} {c : UInt8} (h : skipToItem s = c :: t) (h10 : c ≠ 10) :
    depItemName (c :: t) = (c :: (depItemName t).1, (depItemName t).2) := by
  obtain ⟨h32, h92⟩ := skipToItem_head h
  exact depItemName_char h32 h10 h92 t

/-- A dep takes at least one character. -/
theorem length_depItemName_lt {s t : Str} {c : UInt8} (h : skipToItem s = c :: t) (h10 : c ≠ 10) :
    (depItemName (c :: t)).2.length < s.length := by
  have hname := (depItemName_passes t).suffix.length_le
  have hskip := (skipToItem_passes s).suffix.length_le
  rw [h, List.length_cons] at hskip
  rw [depItemName_head h h10]
  exact Nat.lt_of_le_of_lt hname hskip

/-! ### The deps of a target -/

theorem parseDepItems_succ (fuel : ℕ) (s : Str) :
    parseDepItems (fuel + 1) s
      = if (parseNextDepItem s).1 = [] then ([], (parseNextDepItem s).2)
        else ((parseNextDepItem s).1 :: (parseDepItems fuel (parseNextDepItem s).2).1,
          (parseDepItems fuel (parseNextDepItem s).2).2) := rfl

theorem length_parseNextDepItem_lt {s : Str} (h : (parseNextDepItem s).1 ≠ []) :
    (parseNextDepItem s).2.length < s.length := by
  cases hs : skipToItem s with
  | nil => exact absurd (by rw [parseNextDepItem, hs]) h
  | cons c t =>
    by_cases h10 : c = 10
    · subst h10
      exact absurd (by rw [parseNextDepItem_newline hs]) h
    · rw [parseNextDepItem_item hs h10]
      exact length_depItemName_lt hs h10

/-- More rounds than characters are enough. -/
theorem parseDepItems_of_lt {n m : ℕ} {s : Str} (hn : s.length < n) (hm : s.length < m) :
    parseDepItems n s = parseDepItems m s := by
  induction n generalizing m s with
  | zero => exact absurd hn (Nat.not_lt_zero _)
  | succ n ih =>
    cases m with
    | zero => exact absurd hm (Nat.not_lt_zero _)
    | succ m =>
      rw [parseDepItems_succ, parseDepItems_succ]
      split_ifs with hname
      · rfl
      · have hlt := length_parseNextDepItem_lt hname
        rw [ih (by omega : _ < n) (by omega : _ < m)]

/-- **The loop over the deps**, without its bound. -/
theorem depItems_eq (s : Str) :
    depItems s = if (parseNextDepItem s).1 = [] then ([], (parseNextDepItem s).2)
      else ((parseNextDepItem s).1 :: (depItems (parseNextDepItem s).2).1,
        (depItems (parseNextDepItem s).2).2) := by
  rw [depItems, parseDepItems_succ]
  split_ifs with hname
  · rfl
  · rw [parseDepItems_of_lt (length_parseNextDepItem_lt hname) (Nat.lt_succ_self _), depItems]

theorem depItems_nil {s : Str} (h : skipToItem s = []) : depItems s = ([], []) := by
  have hp : parseNextDepItem s = ([], []) := by rw [parseNextDepItem, h]
  rw [depItems_eq, hp, if_pos rfl]

theorem depItems_newline {s rest : Str} (h : skipToItem s = 10 :: rest) :
    depItems s = ([], rest) := by
  rw [depItems_eq, parseNextDepItem_newline h, if_pos rfl]

theorem depItems_item {s t : Str} {c : UInt8} (h : skipToItem s = c :: t) (h10 : c ≠ 10) :
    depItems s = ((depItemName (c :: t)).1 :: (depItems (depItemName (c :: t)).2).1,
      (depItems (depItemName (c :: t)).2).2) := by
  have hne : (depItemName (c :: t)).1 ≠ [] := by
    rw [depItemName_head h h10]
    exact List.cons_ne_nil _ _
  rw [depItems_eq, parseNextDepItem_item h h10, if_neg hne]

/-- Only what the first loop leaves matters. -/
theorem depItems_congr {s s' : Str} (h : skipToItem s = skipToItem s') :
    depItems s = depItems s' := by
  have hp : parseNextDepItem s = parseNextDepItem s' := by
    rw [parseNextDepItem, h, parseNextDepItem]
  rw [depItems_eq, depItems_eq s', hp]

/-- **Induction along the deps of a target.** -/
theorem depItems_induction {P : Str → Prop} (none : ∀ s, skipToItem s = [] → P s)
    (newline : ∀ s rest, skipToItem s = 10 :: rest → P s)
    (item : ∀ s c t, skipToItem s = c :: t → c ≠ 10 → P (depItemName (c :: t)).2 → P s) (s : Str) :
    P s := by
  induction hn : s.length using Nat.strong_induction_on generalizing s with
  | _ n ih =>
    cases hs : skipToItem s with
    | nil => exact none s hs
    | cons c t =>
      by_cases h10 : c = 10
      · subst h10
        exact newline s t hs
      · exact item s c t hs h10 (ih _ (hn ▸ length_depItemName_lt hs h10) _ rfl)

/-- **No character is read twice** over the deps of a target. -/
theorem count_depItems_le (a : UInt8) (s : Str) :
    (depItems s).1.flatten.count a + (depItems s).2.count a ≤ s.count a := by
  induction s using depItems_induction with
  | none s hs => simp [depItems_nil hs]
  | newline s rest hs =>
    have hskip := (skipToItem_passes s).suffix.sublist.count_le a
    rw [hs, List.count_cons] at hskip
    rw [depItems_newline hs]
    simp only [List.flatten_nil, List.count_nil]
    omega
  | item s c t hs h10 ih =>
    have hskip := (skipToItem_passes s).suffix.sublist.count_le a
    have hname := count_depItemName_le a (c :: t)
    rw [hs] at hskip
    rw [depItems_item hs h10]
    simp only [List.flatten_cons, List.count_append]
    omega

theorem suffix_of_depItems (s : Str) : (depItems s).2 <:+ s := by
  induction s using depItems_induction with
  | none s hs =>
    rw [depItems_nil hs]
    exact List.nil_suffix
  | newline s rest hs =>
    rw [depItems_newline hs]
    exact (List.suffix_cons ..).trans (hs ▸ (skipToItem_passes s).suffix)
  | item s c t hs h10 ih =>
    rw [depItems_item hs h10]
    exact (ih.trans (depItemName_passes _).suffix).trans (hs ▸ (skipToItem_passes s).suffix)

/-- **The deps end with the line**, at the latest before a bare newline. -/
theorem suffix_depItems {t s : Str} (h : BareBefore t s) : t <:+ (depItems s).2 := by
  induction s using depItems_induction with
  | none s hs =>
    obtain ⟨x, hx, -⟩ := h.passes (skipToItem_passes s)
    rw [hs] at hx
    simp at hx
  | newline s rest hs =>
    obtain ⟨x, hx, -⟩ := h.passes (skipToItem_passes s)
    rw [depItems_newline hs]
    rw [hs] at hx
    cases x with
    | nil => rw [(List.cons.inj hx).2]
    | cons c x => exact ⟨x ++ [10], by rw [(List.cons.inj hx).2]; simp⟩
  | item s c u hs h10 ih =>
    rw [depItems_item hs h10]
    exact ih (h.passes ((skipToItem_passes s).trans (hs ▸ depItemName_passes _)))

/-! ### Targets -/

section

variable (name s : Str)

@[simp] theorem parseTargetName_colon :
    parseTargetName name (58 :: s) = some (escapeGnuMakeSpaces name, s) := by
  cases s <;> simp [parseTargetName]

@[simp] theorem parseTargetName_newline : parseTargetName name (10 :: s) = none := by
  cases s <;> simp [parseTargetName]

theorem parseTargetName_pair (d : UInt8) :
    parseTargetName name (92 :: d :: s)
      = parseTargetName (if d = 10 then name else name ++ [d]) s := by
  simp [parseTargetName]

theorem parseTargetName_space :
    parseTargetName name (32 :: s)
      = parseTargetName (if name.getLast? = some 32 then name else name ++ [32]) s := by
  cases s <;> simp [parseTargetName]

theorem parseTargetName_char {c : UInt8} (h58 : c ≠ 58) (h10 : c ≠ 10) (h92 : c ≠ 92)
    (h32 : c ≠ 32) : parseTargetName name (c :: s) = parseTargetName (name ++ [c]) s := by
  cases s <;> simp [parseTargetName, h58, h10, h92, h32]

end

/-- A target passes nothing but its own characters, up to its colon. -/
theorem parseTargetName_passes {name s : Str} {r : Str × Str}
    (h : parseTargetName name s = some r) : Passes s (58 :: r.2) := by
  induction name, s using parseTargetName.induct with
  | case1 name => cases h
  | case2 name cs =>
    rw [parseTargetName_colon] at h
    obtain rfl := Option.some.inj h
    exact .refl _
  | case3 name cs _ =>
    rw [parseTargetName_newline] at h
    cases h
  | case4 name _ _ => cases h
  | case5 name _ _ d cs ih =>
    rw [parseTargetName_pair] at h
    exact .pair (ih h)
  | case6 name cs _ _ _ ih =>
    rw [parseTargetName_space] at h
    exact .char (by decide) (by decide) (ih h)
  | case7 name c cs h58 h10 h92 h32 ih =>
    rw [parseTargetName_char name cs h58 h10 h92 h32] at h
    exact .char h92 h10 (ih h)

theorem parseTargets_succ (fuel : ℕ) (s : Str) :
    parseTargets (fuel + 1) s
      = if parseSkipSpaces s = [] then some []
        else (parseTargetName [] (parseSkipSpaces s)).bind fun r =>
          (parseTargets fuel (depItems r.2).2).map (⟨r.1, (depItems r.2).1⟩ :: ·) := by
  rw [parseTargets]
  cases parseSkipSpaces s with
  | nil => rfl
  | cons c t =>
    rw [if_neg (List.cons_ne_nil c t)]
    refine Option.bind_congr fun r _ => ?_
    show (parseTargets fuel (depItems r.2).2).bind _ = _
    cases parseTargets fuel (depItems r.2).2 <;> rfl

theorem length_after_target_lt {s : Str} {r : Str × Str}
    (h : parseTargetName [] (parseSkipSpaces s) = some r) :
    (depItems r.2).2.length < s.length := by
  have hdeps := (suffix_of_depItems r.2).length_le
  have htarget := (parseTargetName_passes h).suffix.length_le
  have hspaces := (List.dropWhile_suffix isSpace (l := s)).length_le
  rw [List.length_cons] at htarget
  exact Nat.lt_of_le_of_lt hdeps (Nat.lt_of_succ_le (htarget.trans hspaces))

/-- More rounds than characters are enough. -/
theorem parseTargets_of_lt {n m : ℕ} {s : Str} (hn : s.length < n) (hm : s.length < m) :
    parseTargets n s = parseTargets m s := by
  induction n generalizing m s with
  | zero => exact absurd hn (Nat.not_lt_zero _)
  | succ n ih =>
    cases m with
    | zero => exact absurd hm (Nat.not_lt_zero _)
    | succ m =>
      rw [parseTargets_succ, parseTargets_succ]
      split_ifs with hs
      · rfl
      · refine Option.bind_congr fun r hr => ?_
        have hlt := length_after_target_lt hr
        rw [ih (by omega : _ < n) (by omega : _ < m)]

/-- **The loop over the targets**, without its bound. -/
theorem parseDepFileContents_eq (s : Str) :
    parseDepFileContents s
      = if parseSkipSpaces s = [] then some []
        else (parseTargetName [] (parseSkipSpaces s)).bind fun r =>
          (parseDepFileContents (depItems r.2).2).map (⟨r.1, (depItems r.2).1⟩ :: ·) := by
  rw [parseDepFileContents, parseTargets_succ]
  split_ifs with hs
  · rfl
  · refine Option.bind_congr fun r hr => ?_
    rw [parseTargets_of_lt (length_after_target_lt hr) (Nat.lt_succ_self _), parseDepFileContents]

/-- Blank lines before a target are skipped. -/
theorem parseDepFileContents_newline (s : Str) :
    parseDepFileContents (10 :: s) = parseDepFileContents s := by
  have hs : parseSkipSpaces (10 :: s) = parseSkipSpaces s := List.dropWhile_cons_of_pos (by decide)
  rw [parseDepFileContents_eq, hs, ← parseDepFileContents_eq]

end DistBuild
