import DistBuild.DepFiles.Escaping
import DistBuild.DepFiles.Lines

/-!
# DepFiles/RoundTrip — the dep file of a compiler call, read back

    target: src \⏎  h₁ \⏎  h₂⏎  ⏎  h₁:⏎  ⏎  h₂:⏎     ─▸     src, h₁, h₂    and with -MP two targets

Names go through two escapers and come back through a reader that undoes one of them, so they come
back if they are `Legible`, and only then (`dep_file_names_prerequisites`).  The converse follows
the text dep by dep; a name whose first character is passed over is missed by counting that
character, which no later dep can make up.
-/

namespace DistBuild

open CmdLine (CompilerCall DepFilesState)
open CmdLine.DepFilesState (processMakefileTarget)

/-! ## Generating -/

/-- `std::filesystem::path::filename`. -/
def fileName (p : Str) : Str := (p.reverse.takeWhile (· != slash)).reverse

/-- `std::filesystem::path::extension`. -/
def extension (p : Str) : Str :=
  let name := fileName p
  if name = str ".." ∨ 46 ∉ name.drop 1 then []
  else 46 :: (name.reverse.takeWhile (· != 46)).reverse

/-- `std::filesystem::path::replace_extension`, with an extension that starts with a dot. -/
def replaceExtension (p ext : Str) : Str := p.take (p.length - (extension p).length) ++ ext

namespace CmdLine.DepFilesState

/-- `_create_depfile_name`. -/
def createDepfileName (state : DepFilesState) (call : CompilerCall) : Str :=
  if state.mfFlagPath ≠ [] then state.mfFlagPath
  else if call.outputObjFile ≠ [] then replaceExtension call.outputObjFile (str ".o.d")
  else replaceExtension (fileName call.inputSrcFile) (str ".o.d")

/-- `_ignore_system_headers`. -/
def ignoreSystemHeaders (systemIncludeDirs : CmdLineIncludeDirs) (headers : List IncludeInfo) :
    List IncludeInfo :=
  headers.filter fun h => !systemIncludeDirs.dashIsystem.any h.filePath.startsWith

/-- `_calculate_deps_for_headers`; the system directories are those of the call's includes cache. -/
def calculateDepsForHeaders (state : DepFilesState) (call : CompilerCall)
    (systemIncludeDirs : CmdLineIncludeDirs) (headers : List IncludeInfo) : List Str :=
  let filtered :=
    if state.mmdFlagPresent then ignoreSystemHeaders systemIncludeDirs headers else headers
  processMakefileTarget call.inputSrcFile :: filtered.map fun h => processMakefileTarget h.filePath

/-- The first target of the dep file. -/
def targetName (state : DepFilesState) (call : CompilerCall) : Str :=
  if state.mtFlagPaths = [] then call.outputObjFile else state.mtFlagPaths

/-- `generate_dep_file`: the path of the dep file, and what is written there. -/
def generateDepFile (state : DepFilesState) (call : CompilerCall)
    (systemIncludeDirs : CmdLineIncludeDirs) (headers : List IncludeInfo) : Str × Str :=
  let deps := state.calculateDepsForHeaders call systemIncludeDirs headers
  let extra : List DepTarget :=
    if state.mpFlagPresent then deps.tail.map fun dep => ⟨escapeGnuMakeSpaces dep, []⟩ else []
  (state.createDepfileName call,
    (DepFile.mk (⟨state.targetName call, deps⟩ :: extra)).writeToBytes)

end CmdLine.DepFilesState

/-! ## The text -/

/-- The extra target of a header. -/
def phonyTarget (header : Str) : DepTarget := ⟨escapeFrom 0 header, []⟩

/-- The lines of the deps after the first, and what follows them. -/
def moreDeps : List Str → Str → Str
  | [], after => 10 :: after
  | name :: names, after => str " \\\n  " ++ escapeFrom 0 name ++ moreDeps names after

theorem moreDeps_eq (names : List Str) (after : Str) :
    moreDeps names after = depRest (names.map processMakefileTarget) after := by
  induction names with
  | nil => rfl
  | cons name names ih =>
    rw [moreDeps, ih, List.map_cons, depRest]
    exact congrArg (str " \\\n  " ++ · ++ _) (escape_eq [] name).symm

theorem depLines_eq (name : Str) (names : List Str) (after : Str) :
    depLines ((name :: names).map processMakefileTarget) ++ 10 :: after
      = 32 :: (escapeFrom 0 name ++ moreDeps names after) := by
  rw [List.map_cons, depLines_cons, moreDeps_eq]
  exact congrArg (32 :: · ++ _) (escape_eq [] name)

theorem depItems_moreDeps_cons (name : Str) (names : List Str) (after : Str) :
    depItems (moreDeps (name :: names) after)
      = depItems (escapeFrom 0 name ++ moreDeps names after) := by
  rw [moreDeps_eq, List.map_cons, depItems_depRest_cons, moreDeps_eq]
  exact congrArg (fun text => depItems (text ++ _)) (escape_eq [] name)

theorem moreDeps_head (names : List Str) (after : Str) :
    ∃ d rest, (d = 32 ∨ d = 10) ∧ moreDeps names after = d :: rest :=
  moreDeps_eq names after ▸ depRest_head _ after

/-- **A legible dep is read back**, and the reader is at the next line. -/
theorem depItems_legible {name : Str} (h : Legible name) (names : List Str) (after : Str) :
    depItems (escapeFrom 0 name ++ moreDeps names after)
      = (name :: (depItems (moreDeps names after)).1, (depItems (moreDeps names after)).2) := by
  obtain ⟨c, t, hc, hesc⟩ := h.head
  obtain ⟨d, rest, hd, hmore⟩ := moreDeps_head names after
  have hname : depItemName (escapeFrom 0 name ++ d :: rest) = (name, d :: rest) :=
    depItemName_of_kept h.2 hd rest
  rw [hmore]
  rw [hesc, List.cons_append] at hname ⊢
  rw [depItems_cons hc, hname]

/-- **Legible deps are read back**, up to what follows their line. -/
theorem depItems_of_legible {name : Str} {names : List Str} (h : ∀ n ∈ name :: names, Legible n)
    (after : Str) :
    depItems (escapeFrom 0 name ++ moreDeps names after) = (name :: names, after) := by
  induction names generalizing name with
  | nil =>
    rw [depItems_legible (h name (by simp)), moreDeps_eq, List.map_nil, depItems_depRest_nil]
  | cons name' names ih =>
    rw [depItems_legible (h name (by simp)), depItems_moreDeps_cons,
      ih fun n hn => h n (List.mem_cons_of_mem _ hn)]

/-! ### What is missed stays missed -/

/-- The characters whose only escape is one backslash. -/
def IsEscaped (a : UInt8) : Prop := a = 9 ∨ a = 35 ∨ a = 58

theorem IsEscaped.ne_newline {a : UInt8} (h : IsEscaped a) : a ≠ 10 := by
  rcases h with rfl | rfl | rfl <;> decide

theorem count_moreDeps {a : UInt8} (h : IsEscaped a) (names : List Str) (after : Str) :
    (moreDeps names after).count a = names.flatten.count a + after.count a := by
  have h92 : a ≠ 92 := by rcases h with rfl | rfl | rfl <;> decide
  have h36 : a ≠ 36 := by rcases h with rfl | rfl | rfl <;> decide
  have hlead : (str " \\\n  ").count a = 0 := by rcases h with rfl | rfl | rfl <;> decide
  induction names with
  | nil =>
    simp [moreDeps, List.count_cons_of_ne h.ne_newline.symm]
  | cons name names ih =>
    rw [moreDeps, List.count_append, List.count_append, hlead, count_escapeFrom h92 h36, ih,
      List.flatten_cons, List.count_append]
    omega

/-- The last line of the deps ends before what follows. -/
theorem afterLine_moreDeps (before : Str) (names : List Str) {after : Str}
    (h : after = [] ∨ ∃ t, after = 10 :: t) : AfterLine after (before ++ moreDeps names after) :=
  moreDeps_eq names after ▸ afterLine_depRest before _ h

/-- **A target that ends among the deps** has taken a colon from them, so they are not all read. -/
theorem depItems_ne_past_colon {name before : Str} {names : List Str} {after : Str} {r : Str × Str}
    (hafter : after = [] ∨ ∃ t, after = 10 :: t)
    (h : parseTargetName before (32 :: (escapeFrom 0 name ++ moreDeps names after)) = some r) :
    (depItems r.2).1 ≠ name :: names := by
  have hcolon : IsEscaped 58 := Or.inr (Or.inr rfl)
  have hpass := parseTargetName_passes h
  have hline : AfterLine after r.2 := by
    refine ((afterLine_moreDeps (32 :: escapeFrom 0 name) names hafter).passes hpass).passes ?_
    exact .char (by decide) (by decide) (.refl _)
  refine depItems_ne_of_count_lt hcolon.ne_newline hline ?_
  have hcount := hpass.suffix.sublist.count_le 58
  rw [List.count_cons_self, List.count_cons_of_ne (by decide), List.count_append,
    count_escapeFrom (by decide) (by decide), count_moreDeps hcolon] at hcount
  rw [List.flatten_cons, List.count_append]
  omega

/-- **A dep that is read back is legible**, and the others are read from the next line: it starts
with the character that ended the first loop, so no backslash was passed over before it. -/
theorem legible_of_depItems_cons {name : Str} {names : List Str} {after : Str}
    (hafter : after = [] ∨ ∃ t, after = 10 :: t)
    (h : (depItems (escapeFrom 0 name ++ moreDeps names after)).1 = name :: names) :
    Legible name ∧ (depItems (moreDeps names after)).1 = names := by
  obtain ⟨c, cs, hname, hc⟩ := head_of_depItems h
  subst hname
  by_cases hesc : IsEscaped c
  · rw [depItems_congr (skipToItem_escaped_head hesc cs _)] at h
    refine absurd h (depItems_ne_of_count_lt hesc.ne_newline (afterLine_moreDeps _ names hafter) ?_)
    have h92 : c ≠ 92 := fun h => hc (by simp [h])
    have h36 : c ≠ 36 := by rcases hesc with rfl | rfl | rfl <;> decide
    rw [List.count_append, count_escapeFrom h92 h36, count_moreDeps hesc, List.flatten_cons,
      List.count_append, List.count_cons_self]
    omega
  · have hplain : c ∉ [9, 10, 35, 58, 92] := by
      simp only [IsEscaped, List.mem_cons, List.not_mem_nil, or_false] at hesc hc ⊢
      grind
    have hhead : c ∉ [9, 10, 32, 35, 58, 92] := by
      simp only [List.mem_cons, List.not_mem_nil, or_false] at hplain hc ⊢
      grind
    obtain ⟨t, ht⟩ := escapeFrom_plain_head hhead cs
    obtain ⟨d, rest, hd, hmore⟩ := moreDeps_head names after
    have hfirst : (depItemName (escapeFrom 0 (c :: cs) ++ d :: rest)).1 = c :: cs := by
      rw [ht, List.cons_append, hmore, depItems_cons hc] at h
      rw [ht, List.cons_append]
      exact (List.cons.inj h).1
    have hlegible : Legible (c :: cs) := ⟨⟨c, rfl, hplain⟩, kept_of_depItemName hd rest hfirst⟩
    rw [depItems_legible hlegible] at h
    exact ⟨hlegible, (List.cons.inj h).2⟩

/-- **Only legible deps are read back.** -/
theorem legible_of_depItems {name : Str} {names : List Str} {after : Str}
    (hafter : after = [] ∨ ∃ t, after = 10 :: t)
    (h : (depItems (escapeFrom 0 name ++ moreDeps names after)).1 = name :: names) :
    ∀ n ∈ name :: names, Legible n := by
  induction names generalizing name with
  | nil =>
    obtain ⟨hname, -⟩ := legible_of_depItems_cons hafter h
    simpa using hname
  | cons name' names ih =>
    obtain ⟨hname, hnames⟩ := legible_of_depItems_cons hafter h
    rw [depItems_moreDeps_cons] at hnames
    exact List.forall_mem_cons.mpr ⟨hname, ih hnames⟩

/-! ## The extra targets -/

/-- The extra target of a header as it is read: without the blanks at its head and its newlines. -/
def readPhony (header : Str) : DepTarget :=
  ⟨escapeGnuMakeSpaces ((header.dropWhile isRawBlank).filter (· ≠ 10)), []⟩

theorem following_cons (header : Str) (headers : List Str) :
    following ((header :: headers).map phonyTarget)
      = 10 :: (escapeFrom 0 header ++ 58 :: 10 :: following (headers.map phonyTarget)) := by
  rw [List.map_cons, following, if_neg (List.cons_ne_nil _ _), writeToBytes_cons]
  rfl

/-- How the extra target of a header is read. -/
theorem parseDepFileContents_phony (header s : Str) :
    parseDepFileContents (10 :: (escapeFrom 0 header ++ 58 :: s))
      = (parseTargetName [] (escapeFrom 0 (header.dropWhile isRawBlank) ++ 58 :: s)).bind fun r =>
          (parseDepFileContents (depItems r.2).2).map (⟨r.1, (depItems r.2).1⟩ :: ·) := by
  rw [parseDepFileContents_newline, parseDepFileContents_eq, parseSkipSpaces_escapeFrom]
  exact if_neg (by simp)

/-- A header without an escaped colon: its extra target is read, with no deps. -/
theorem parseDepFileContents_phony_of_kept {header : Str} (h : Kept 0 header)
    (hcolon : ¬ [92, 58] <:+: header) (s : Str) :
    parseDepFileContents (10 :: (escapeFrom 0 header ++ 58 :: 10 :: s))
      = (parseDepFileContents s).map (readPhony header :: ·) := by
  have htarget : parseTargetName [] (escapeFrom 0 (header.dropWhile isRawBlank) ++ 58 :: 10 :: s)
      = some ((readPhony header).target, 10 :: s) :=
    parseTargetName_of_kept h.dropWhile (mt (colon_infix_dropWhile header).mp hcolon) [] (10 :: s)
  have hdeps : depItems (10 :: s) = ([], s) :=
    depItems_newline (skipToItem_char (by decide) (by decide) s)
  rw [parseDepFileContents_phony, htarget, Option.bind_some, hdeps]
  rfl

theorem parseDepFileContents_following {headers : List Str} (h : ∀ n ∈ headers, Kept 0 n)
    (hcolon : ∀ n ∈ headers, ¬ [92, 58] <:+: n) :
    parseDepFileContents (following (headers.map phonyTarget)) = some (headers.map readPhony) := by
  induction headers with
  | nil => rfl
  | cons header headers ih =>
    rw [following_cons,
      parseDepFileContents_phony_of_kept (h header (by simp)) (hcolon header (by simp)),
      ih (fun n hn => h n (by simp [hn])) (fun n hn => hcolon n (by simp [hn]))]
    rfl

/-- **A header with an escaped colon has no empty target**: the colon ends the target, and the rest
of the header is read as its first dep. -/
theorem not_colon_of_following {headers : List Str} (h : ∀ n ∈ headers, Kept 0 n)
    {targets : List DepTarget}
    (hread : parseDepFileContents (following (headers.map phonyTarget)) = some targets)
    (hempty : targets.map DepTarget.depFiles = headers.map fun _ => []) :
    ∀ n ∈ headers, ¬ [92, 58] <:+: n := by
  induction headers generalizing targets with
  | nil => simp
  | cons header headers ih =>
    rw [following_cons] at hread
    have hkept := h header (by simp)
    by_cases hcolon : [92, 58] <:+: header
    · obtain ⟨target, rest, hrest, htarget⟩ := parseTargetName_of_colon hkept.dropWhile
        ((colon_infix_dropWhile header).mpr hcolon) []
      set after : Str := 10 :: following (headers.map phonyTarget)
      obtain ⟨c, t, h10, hitem⟩ := skipToItem_of_kept hrest after
      have hdrop : parseTargetName [] (escapeFrom 0 (header.dropWhile isRawBlank) ++ 58 :: after)
          = some (target, escapeFrom 0 rest ++ 58 :: after) := htarget (58 :: after)
      rw [parseDepFileContents_phony, hdrop, Option.bind_some] at hread
      obtain ⟨targets', -, rfl⟩ := Option.map_eq_some_iff.mp hread
      have hnone : (depItems (escapeFrom 0 rest ++ 58 :: after)).1 = [] := (List.cons.inj hempty).1
      have hsome := congrArg Prod.fst (depItems_item hitem h10)
      rw [depItemName_head hitem h10] at hsome
      cases hnone.symm.trans hsome
    · rw [parseDepFileContents_phony_of_kept hkept hcolon] at hread
      obtain ⟨targets', htargets, rfl⟩ := Option.map_eq_some_iff.mp hread
      exact List.forall_mem_cons.mpr
        ⟨hcolon, ih (fun n hn => h n (by simp [hn])) htargets (List.cons.inj hempty).2⟩

/-! ## The first target -/

/-- How a target ends where it is read: a colon or a newline without a backslash ends it too early,
and a backslash at its end takes away the colon after it. -/
inductive TargetEnd
  | clean
  | colon
  | newline
  | backslash
deriving DecidableEq, Repr

def targetEnd : Str → TargetEnd
  | [] => .clean
  | c :: cs =>
    if c = 58 then .colon
    else if c = 10 then .newline
    else if c = 92 then
      match cs with
      | [] => .backslash
      | _ :: cs => targetEnd cs
    else targetEnd cs

theorem targetEnd_pair (d : UInt8) (s : Str) : targetEnd (92 :: d :: s) = targetEnd s := by
  simp [targetEnd]

theorem targetEnd_char {c : UInt8} (h58 : c ≠ 58) (h10 : c ≠ 10) (h92 : c ≠ 92) (s : Str) :
    targetEnd (c :: s) = targetEnd s := by
  cases s <;> simp [targetEnd, h58, h10, h92]

/-- **The end of a target decides how it is read**: up to the colon after it, not at all, or past
that colon. -/
theorem parseTargetName_of_end (before s after : Str) (h : targetEnd s ≠ .colon) :
    match targetEnd s with
    | .clean => ∃ name, parseTargetName before (s ++ 58 :: after) = some (name, after)
    | .newline => parseTargetName before (s ++ 58 :: after) = none
    | _ => ∃ name, parseTargetName before (s ++ 58 :: after) = parseTargetName name after := by
  induction s using targetEnd.induct generalizing before with
  | case1 => exact ⟨_, parseTargetName_colon before after⟩
  | case2 cs => exact absurd (by cases cs <;> simp [targetEnd]) h
  | case3 cs _ =>
    have hend : targetEnd (10 :: cs) = .newline := by cases cs <;> simp [targetEnd]
    rw [hend]
    exact parseTargetName_newline before _
  | case4 _ _ => exact ⟨_, parseTargetName_pair before after 58⟩
  | case5 d cs _ _ ih =>
    rw [targetEnd_pair] at h ⊢
    rw [List.cons_append, List.cons_append, parseTargetName_pair]
    exact ih _ h
  | case6 c cs h58 h10 h92 ih =>
    rw [targetEnd_char h58 h10 h92] at h ⊢
    rw [List.cons_append]
    by_cases h32 : c = 32
    · subst h32
      rw [parseTargetName_space]
      exact ih _ h
    · rw [parseTargetName_char _ _ h58 h10 h92 h32]
      exact ih _ h

theorem parseSkipSpaces_append_colon (target s : Str) :
    parseSkipSpaces (target ++ 58 :: s) = parseSkipSpaces target ++ 58 :: s := by
  induction target with
  | nil => rfl
  | cons c cs ih =>
    rw [parseSkipSpaces, parseSkipSpaces, List.cons_append, List.dropWhile_cons,
      List.dropWhile_cons]
    split_ifs
    · exact ih
    · rfl

/-! ## Reading the file back -/

namespace CmdLine.DepFilesState

/-- The paths of the headers, those of the system left out under `-MMD`. -/
def keptHeaders (state : DepFilesState) (systemIncludeDirs : CmdLineIncludeDirs)
    (headers : List IncludeInfo) : List Str :=
  (if state.mmdFlagPresent then ignoreSystemHeaders systemIncludeDirs headers else headers).map
    IncludeInfo.filePath

section

variable (state : DepFilesState) (call : CompilerCall) (systemIncludeDirs : CmdLineIncludeDirs)
  (headers : List IncludeInfo)

/-- The dep file that is generated names the source file and the headers, in their order, and with
`-MP` it has one more target for each header, with no deps. -/
def NamesPrerequisites : Prop :=
  ∃ first extra,
    makeDepFileFromBytes (state.generateDepFile call systemIncludeDirs headers).2
        = some ⟨first :: extra⟩
      ∧ first.depFiles = call.inputSrcFile :: state.keptHeaders systemIncludeDirs headers
      ∧ extra.map DepTarget.depFiles
          = if state.mpFlagPresent then
              (state.keptHeaders systemIncludeDirs headers).map fun _ => []
            else []

/-- The extra targets as they are written. -/
def phonyTargets : List DepTarget :=
  if state.mpFlagPresent then (state.keptHeaders systemIncludeDirs headers).map phonyTarget else []

theorem generateDepFile_text :
    (state.generateDepFile call systemIncludeDirs headers).2
      = state.targetName call ++ 58 :: 32 :: (escapeFrom 0 call.inputSrcFile
          ++ moreDeps (state.keptHeaders systemIncludeDirs headers)
            (following (state.phonyTargets systemIncludeDirs headers))) := by
  have hdeps : state.calculateDepsForHeaders call systemIncludeDirs headers
      = (call.inputSrcFile :: state.keptHeaders systemIncludeDirs headers).map
          processMakefileTarget := by
    rw [calculateDepsForHeaders, keptHeaders, List.map_cons, List.map_map]
    rfl
  have hphony : ∀ names : List Str,
      (names.map processMakefileTarget).map (fun dep => (⟨escapeGnuMakeSpaces dep, []⟩ : DepTarget))
        = names.map phonyTarget := by
    intro names
    rw [List.map_map]
    exact List.map_congr_left fun name _ => congrArg (DepTarget.mk · []) (escape_eq [] name)
  rw [generateDepFile, hdeps]
  dsimp only
  rw [writeToBytes_cons, depLines_eq, phonyTargets, List.map_cons, List.tail_cons, hphony]

/-- **Reading the file** is reading its first target, then the deps, then the rest. -/
theorem parse_generated :
    parseDepFileContents (state.generateDepFile call systemIncludeDirs headers).2
      = (parseTargetName [] (parseSkipSpaces (state.targetName call) ++ 58 :: 32 ::
          (escapeFrom 0 call.inputSrcFile
            ++ moreDeps (state.keptHeaders systemIncludeDirs headers)
              (following (state.phonyTargets systemIncludeDirs headers))))).bind fun r =>
          (parseDepFileContents (depItems r.2).2).map (⟨r.1, (depItems r.2).1⟩ :: ·) := by
  rw [generateDepFile_text, parseDepFileContents_eq, parseSkipSpaces_append_colon]
  exact if_neg (by simp)

/-- A generated dep file that can be read back: the target has no bare newline and does not end in a
backslash, every name is legible, and with `-MP` no header has a backslash before a colon. -/
structure ReadableNames : Prop where
  target : targetEnd (parseSkipSpaces (state.targetName call)) = .clean
  source : Legible call.inputSrcFile
  header : ∀ h ∈ state.keptHeaders systemIncludeDirs headers, Legible h
  phony : state.mpFlagPresent = true →
    ∀ h ∈ state.keptHeaders systemIncludeDirs headers, ¬ str "\\:" <:+: h

/-- **What is read back** of such a file. -/
theorem makeDepFile_of_readable (h : state.ReadableNames call systemIncludeDirs headers) :
    ∃ name, makeDepFileFromBytes (state.generateDepFile call systemIncludeDirs headers).2
      = some ⟨⟨name, call.inputSrcFile :: state.keptHeaders systemIncludeDirs headers⟩
          :: if state.mpFlagPresent then
              (state.keptHeaders systemIncludeDirs headers).map readPhony
            else []⟩ := by
  have hfollowing : parseDepFileContents (following (state.phonyTargets systemIncludeDirs headers))
      = some (if state.mpFlagPresent then
          (state.keptHeaders systemIncludeDirs headers).map readPhony else []) := by
    rw [phonyTargets]
    split_ifs with hmp
    · exact parseDepFileContents_following (fun n hn => (h.header n hn).2) (h.phony hmp)
    · rfl
  have hdeps := depItems_of_legible (List.forall_mem_cons.mpr ⟨h.source, h.header⟩)
    (following (state.phonyTargets systemIncludeDirs headers))
  have hend := parseTargetName_of_end [] (parseSkipSpaces (state.targetName call))
    (32 :: (escapeFrom 0 call.inputSrcFile ++ moreDeps (state.keptHeaders systemIncludeDirs headers)
      (following (state.phonyTargets systemIncludeDirs headers)))) (by simp [h.target])
  rw [h.target] at hend
  obtain ⟨name, hname⟩ := hend
  refine ⟨name, ?_⟩
  rw [makeDepFileFromBytes, parse_generated, hname, Option.bind_some,
    depItems_congr (skipToItem_space _), hdeps]
  dsimp only
  rw [hfollowing]
  rfl

theorem readable_of_namesPrerequisites
    (hcolon : targetEnd (parseSkipSpaces (state.targetName call)) ≠ .colon)
    (h : state.NamesPrerequisites call systemIncludeDirs headers) :
    state.ReadableNames call systemIncludeDirs headers := by
  obtain ⟨first, extra, hread, hfirst, hextra⟩ := h
  have hparse : parseDepFileContents (state.generateDepFile call systemIncludeDirs headers).2
      = some (first :: extra) := by
    obtain ⟨targets, htargets, heq⟩ := Option.map_eq_some_iff.mp hread
    rw [htargets, DepFile.mk.inj heq]
  rw [parse_generated] at hparse
  obtain ⟨r, hr, hmap⟩ := Option.bind_eq_some_iff.mp hparse
  obtain ⟨targets, htargets, heq⟩ := Option.map_eq_some_iff.mp hmap
  obtain ⟨rfl, rfl⟩ := List.cons.inj heq
  set after : Str := following (state.phonyTargets systemIncludeDirs headers) with hafter
  set names : List Str := state.keptHeaders systemIncludeDirs headers
  have hend := parseTargetName_of_end [] (parseSkipSpaces (state.targetName call))
    (32 :: (escapeFrom 0 call.inputSrcFile ++ moreDeps names after)) hcolon
  cases htarget : targetEnd (parseSkipSpaces (state.targetName call)) with
  | clean =>
    rw [htarget] at hend
    obtain ⟨name, hname⟩ := hend
    obtain rfl := Option.some.inj (hr.symm.trans hname)
    have hskip : depItems (32 :: (escapeFrom 0 call.inputSrcFile ++ moreDeps names after))
        = depItems (escapeFrom 0 call.inputSrcFile ++ moreDeps names after) :=
      depItems_congr (skipToItem_space _)
    rw [hskip] at hfirst htargets
    have hlegible := legible_of_depItems (following_head _) hfirst
    rw [depItems_of_legible hlegible] at htargets
    obtain ⟨hsource, hheader⟩ := List.forall_mem_cons.mp hlegible
    refine ⟨htarget, hsource, hheader, fun hmp => ?_⟩
    rw [if_pos hmp] at hextra
    rw [hafter, phonyTargets, if_pos hmp] at htargets
    exact not_colon_of_following (fun n hn => (hheader n hn).2) htargets hextra
  | colon => exact absurd htarget hcolon
  | newline =>
    rw [htarget] at hend
    cases hr.symm.trans hend
  | backslash =>
    rw [htarget] at hend
    obtain ⟨before, hbefore⟩ := hend
    refine absurd hfirst (depItems_ne_past_colon ?_ (hbefore.symm.trans hr))
    exact following_head _

/-- **A generated dep file names its prerequisites if its names are readable**, and if its target
has no bare colon, only then. -/
theorem dep_file_names_prerequisites :
    (state.ReadableNames call systemIncludeDirs headers →
        state.NamesPrerequisites call systemIncludeDirs headers)
      ∧ (targetEnd (parseSkipSpaces (state.targetName call)) ≠ .colon →
        state.NamesPrerequisites call systemIncludeDirs headers →
          state.ReadableNames call systemIncludeDirs headers) := by
  refine ⟨fun h => ?_, readable_of_namesPrerequisites state call systemIncludeDirs headers⟩
  obtain ⟨name, hread⟩ := state.makeDepFile_of_readable call systemIncludeDirs headers h
  refine ⟨_, _, hread, rfl, ?_⟩
  split_ifs with hmp
  · rw [List.map_map]
    rfl
  · rfl

end

/-- Two headers, one with a `#` in its path, can be read back, each with a phony target of its
own. -/
example :
    let state : DepFilesState := ⟨true, false, true, [], []⟩
    let call : CompilerCall := { CompilerCall.new state with
      inputSrcFile := str "/w/m.cpp", outputObjFile := str "/w/m.o" }
    state.ReadableNames call ⟨[], [], [], []⟩
      [⟨str "/i/a.h", [], 0, []⟩, ⟨str "/i/b#1.h", [], 0, []⟩] :=
  ⟨by decide, by decide, by decide, by decide⟩

/-- A header with a space in its path: both escapers escape the space, and it ends the dep. -/
theorem spaced_header_split :
    let state : DepFilesState := ⟨true, false, false, [], []⟩
    let call : CompilerCall := { CompilerCall.new state with
      inputSrcFile := str "/w/m.cpp", outputObjFile := str "/w/m.o" }
    let header : IncludeInfo := ⟨str "/i/a b.h", [], 0, []⟩
    (header.filePath ≠ [] ∧ 0 ∉ header.filePath ∧ 10 ∉ header.filePath)
      ∧ ¬ state.NamesPrerequisites call ⟨[], [], [], []⟩ [header] := by
  refine ⟨by decide, ?_⟩
  rintro ⟨first, extra, hread, hfirst, -⟩
  have hsplit : makeDepFileFromBytes (generateDepFile ⟨true, false, false, [], []⟩
        { CompilerCall.new ⟨true, false, false, [], []⟩ with
          inputSrcFile := str "/w/m.cpp", outputObjFile := str "/w/m.o" }
        ⟨[], [], [], []⟩ [⟨str "/i/a b.h", [], 0, []⟩]).2
      = some ⟨[⟨str "/w/m.o", [str "/w/m.cpp", str "/i/a\\", str "b.h"]⟩]⟩ := by
    decide +kernel
  obtain ⟨rfl, -⟩ := List.cons.inj (DepFile.mk.inj (Option.some.inj (hsplit.symm.trans hread)))
  exact absurd hfirst (by decide)

end CmdLine.DepFilesState

end DistBuild
