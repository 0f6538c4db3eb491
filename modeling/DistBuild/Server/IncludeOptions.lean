import DistBuild.Machinery.Reads
import DistBuild.Server.CommandLine

/-!
# Server/IncludeOptions — the include options, read off a flat list

    options     -I d │ -iquote q │ -isystem s          one element, or two
    idirs       -Id    -iquote  q  -isystem  s
    idirIdx     0      1           3            5      the starts of the options, and the end

The server tells an option of one element by its prefix, and takes any other element with the next
one.  An operand may look like an option of one element, but no round starts at an operand: a round
that starts at an option ends at the next one (`idirsLoop_rounds`).
-/

namespace DistBuild.CmdLine

/-! ## Options -/

/-- An include option, with its directory or file. -/
inductive IncludeOption
  | dashI (dir : Str)
  | operand (opt : OperandOption) (path : Str)
deriving DecidableEq, Repr

namespace IncludeOption

/-- The elements an option is sent as. -/
def args : IncludeOption → List Str
  | dashI dir => [str "-I" ++ dir]
  | operand opt path => [opt.text, path]

/-- The same option, of another directory or file. -/
def map (f : Str → Str) : IncludeOption → IncludeOption
  | dashI dir => dashI (f dir)
  | operand opt path => operand opt (f path)

end IncludeOption

/-- The options of the four lists, in the order in which they are sent. -/
def includeOptions (dirs : CmdLineIncludeDirs) : List IncludeOption :=
  dirs.dashI.map .dashI ++ dirs.dashIquote.map (.operand .iquote)
    ++ dirs.dashIsystem.map (.operand .isystem) ++ dirs.dashInclude.map (.operand .includeFile)

theorem cnvtToCmdLineArgs_eq (dirs : CmdLineIncludeDirs) :
    dirs.cnvtToCmdLineArgs = (includeOptions dirs).flatMap IncludeOption.args := by
  have hdashI : dirs.dashI.map (str "-I" ++ ·)
      = (dirs.dashI.map IncludeOption.dashI).flatMap IncludeOption.args := by
    rw [List.flatMap_map, List.map_eq_flatMap]
    rfl
  rw [CmdLineIncludeDirs.cnvtToCmdLineArgs, includeOptions, hdashI]
  simp only [List.flatMap_append, List.flatMap_map]
  rfl

/-- The same lists, of other directories and files. -/
def mapDirs (f : Str → Str) (dirs : CmdLineIncludeDirs) : CmdLineIncludeDirs where
  dashI := dirs.dashI.map f
  dashIsystem := dirs.dashIsystem.map f
  dashIquote := dirs.dashIquote.map f
  dashInclude := dirs.dashInclude.map f

theorem includeOptions_mapDirs (f : Str → Str) (dirs : CmdLineIncludeDirs) :
    includeOptions (mapDirs f dirs) = (includeOptions dirs).map (IncludeOption.map f) := by
  simp only [includeOptions, mapDirs, List.map_append, List.map_map]
  rfl

/-! ## The loop -/

/-- `compiler_idirs[i]`. -/
def idirAt (compilerIdirs : List Str) (i : ℕ) : Reads Str := ⟨compilerIdirs.getD i [], [i]⟩

/-- The loop over `compiler_idirs` from `idirIdx` on: where each round starts, and what it puts into
`_cmd_line_args`. -/
def idirsLoop (idirsDir : Str) (compilerIdirs : List Str) (idirIdx : ℕ) :
    Reads (List (ℕ × List Str)) :=
  if idirIdx < compilerIdirs.length then do
    let arg ← idirAt compilerIdirs idirIdx
    if arg.startsWith (str "-I") then do
      let rounds ← idirsLoop idirsDir compilerIdirs (idirIdx + 1)
      return (idirIdx, [str "-I" ++ cnvtClientToServerPath idirsDir (arg.drop 2)]) :: rounds
    else do
      let next ← idirAt compilerIdirs (idirIdx + 1)
      let rounds ← idirsLoop idirsDir compilerIdirs (idirIdx + 2)
      return (idirIdx, [arg, cnvtClientToServerPath idirsDir next]) :: rounds
  else return []
termination_by compilerIdirs.length - idirIdx

/-- A round for each option: it starts where the option does, and gives the option under the
workspace. -/
def optionRounds (idirsDir : Str) : ℕ → List IncludeOption → List (ℕ × List Str)
  | _, [] => []
  | start, option :: options =>
    (start, (option.map (cnvtClientToServerPath idirsDir)).args)
      :: optionRounds idirsDir (start + option.args.length) options

theorem flatMap_optionRounds (idirsDir : Str) (start : ℕ) (options : List IncludeOption) :
    (optionRounds idirsDir start options).flatMap Prod.snd
      = (options.map (IncludeOption.map (cnvtClientToServerPath idirsDir))).flatMap
          IncludeOption.args := by
  induction options generalizing start with
  | nil => rfl
  | cons option options ih =>
    rw [optionRounds, List.flatMap_cons, ih, List.map_cons, List.flatMap_cons]

theorem OperandOption.text_not_dashI (opt : OperandOption) :
    opt.text.startsWith (str "-I") = false := by
  cases opt <;> decide

/-! ### A round -/

section

variable (idirsDir : Str) {idirs : List Str} {i : ℕ} {arg : Str}

theorem idirAt_value (h : idirs[i]? = some arg) : (idirAt idirs i).value = arg := by
  rw [idirAt, List.getD, h, Option.getD_some]

/-- A round at an element with the prefix. -/
theorem idirsLoop_dashI (h : idirs[i]? = some arg) (hI : arg.startsWith (str "-I") = true) :
    (idirsLoop idirsDir idirs i).value
        = (i, [str "-I" ++ cnvtClientToServerPath idirsDir (arg.drop 2)])
          :: (idirsLoop idirsDir idirs (i + 1)).value
      ∧ (idirsLoop idirsDir idirs i).indices = i :: (idirsLoop idirsDir idirs (i + 1)).indices := by
  obtain ⟨hin, -⟩ := List.getElem?_eq_some_iff.mp h
  rw [idirsLoop, if_pos hin]
  simp only [Reads.value_bind, Reads.indices_bind, idirAt_value h, if_pos hI, Reads.value_pure,
    Reads.indices_pure, List.append_nil]
  exact ⟨trivial, rfl⟩

/-- A round at any other element. -/
theorem idirsLoop_operand (h : idirs[i]? = some arg) (hI : arg.startsWith (str "-I") = false) :
    (idirsLoop idirsDir idirs i).value
        = (i, [arg, cnvtClientToServerPath idirsDir (idirs.getD (i + 1) [])])
          :: (idirsLoop idirsDir idirs (i + 2)).value
      ∧ (idirsLoop idirsDir idirs i).indices
        = i :: (i + 1) :: (idirsLoop idirsDir idirs (i + 2)).indices := by
  obtain ⟨hin, -⟩ := List.getElem?_eq_some_iff.mp h
  rw [idirsLoop, if_pos hin]
  simp only [Reads.value_bind, Reads.indices_bind, idirAt_value h, hI, Bool.false_eq_true, if_false,
    Reads.value_pure, Reads.indices_pure, List.append_nil]
  exact ⟨rfl, rfl⟩

theorem idirsLoop_end (h : idirs.length ≤ i) : idirsLoop idirsDir idirs i = ⟨[], []⟩ := by
  rw [idirsLoop, if_neg (Nat.not_lt.mpr h)]
  rfl

end

/-! ### All rounds -/

/-- **From the start of an option on**, each option has its round, and each element is read once. -/
theorem idirsLoop_options (idirsDir : Str) (before : List Str) (options : List IncludeOption) :
    let idirs := before ++ options.flatMap IncludeOption.args
    (idirsLoop idirsDir idirs before.length).value = optionRounds idirsDir before.length options
      ∧ (idirsLoop idirsDir idirs before.length).indices
        = List.range' before.length (options.flatMap IncludeOption.args).length := by
  induction options generalizing before with
  | nil =>
    intro idirs
    rw [idirsLoop_end idirsDir (by simp [idirs])]
    exact ⟨rfl, rfl⟩
  | cons option options ih =>
    intro idirs
    have hidirs : idirs = (before ++ option.args) ++ options.flatMap IncludeOption.args := by
      simp [idirs]
    obtain ⟨hvalue, hindices⟩ := ih (before ++ option.args)
    rw [← hidirs, List.length_append] at hvalue hindices
    rw [List.flatMap_cons, List.length_append, ← List.range'_append_1, optionRounds, ← hvalue,
      ← hindices]
    cases option with
    | dashI dir =>
      have harg : idirs[before.length]? = some (str "-I" ++ dir) := by
        simp [idirs, IncludeOption.args]
      obtain ⟨hv, hi⟩ := idirsLoop_dashI idirsDir harg
        (Str.startsWith_iff.mpr (List.prefix_append ..))
      exact ⟨hv, hi⟩
    | operand opt path =>
      have harg : idirs[before.length]? = some opt.text := by
        simp [idirs, IncludeOption.args]
      have hpath : idirs.getD (before.length + 1) [] = path := by
        simp [idirs, IncludeOption.args, List.getD]
      obtain ⟨hv, hi⟩ := idirsLoop_operand idirsDir harg opt.text_not_dashI
      rw [hpath] at hv
      exact ⟨hv, hi⟩

/-- **The loop is the one over the list**, which gives `none` where it reads past the end. -/
theorem inside_idirsLoop (idirsDir : Str) (before rest : List Str) :
    ((idirsLoop idirsDir (before ++ rest) before.length).inside (before ++ rest).length).map
        (·.flatMap Prod.snd)
      = serverIdirs idirsDir rest := by
  induction hn : rest.length using Nat.strong_induction_on generalizing before rest with
  | _ n ih =>
    cases rest with
    | nil =>
      rw [idirsLoop_end idirsDir (by simp)]
      simp [Reads.inside, serverIdirs]
    | cons arg rest =>
      have harg : (before ++ arg :: rest)[before.length]? = some arg := by simp
      cases hI : arg.startsWith (str "-I") with
      | true =>
        obtain ⟨hvalue, hindices⟩ := idirsLoop_dashI idirsDir harg hI
        have hrest := ih rest.length (by simp [← hn]) (before ++ [arg]) rest rfl
        have hbehind : (before ++ [arg]).length = before.length + 1 := by simp
        rw [List.append_assoc, List.singleton_append, hbehind] at hrest
        rw [serverIdirs_cons_dashI hI, ← hrest, Reads.inside_of_eq (k := [before.length]) hvalue
          hindices, if_pos (by simp), Option.map_map, Option.map_map]
        rfl
      | false =>
        obtain ⟨hvalue, hindices⟩ := idirsLoop_operand idirsDir harg hI
        cases rest with
        | nil =>
          rw [Reads.inside_of_eq (k := [before.length, before.length + 1]) hvalue hindices,
            if_neg (by simp), serverIdirs.eq_def]
          simp [hI]
        | cons next rest =>
          have hnext : (before ++ arg :: next :: rest).getD (before.length + 1) [] = next := by
            simp [List.getD]
          have hrest := ih rest.length (by simp [← hn]) (before ++ [arg, next]) rest rfl
          have hbehind : (before ++ [arg, next]).length = before.length + 2 := by simp
          rw [List.append_assoc, List.cons_append, List.singleton_append, hbehind] at hrest
          rw [hnext] at hvalue
          rw [serverIdirs_cons_operand hI, ← hrest,
            Reads.inside_of_eq (k := [before.length, before.length + 1]) hvalue hindices,
            if_pos (by simp), Option.map_map, Option.map_map]
          rfl

/-- **Include options survive the wire**: the server reads each element it is sent once and no
other, has one round for each option, at its start, and ends with the options of the directories and
files under its workspace. -/
theorem include_options_survive (idirsDir : Str) (dirs : CmdLineIncludeDirs) :
    let idirs := dirs.cnvtToCmdLineArgs
    let loop := idirsLoop idirsDir idirs 0
    loop.indices = List.range idirs.length
      ∧ loop.value = optionRounds idirsDir 0 (includeOptions dirs)
      ∧ loop.value.flatMap Prod.snd
        = (mapDirs (cnvtClientToServerPath idirsDir) dirs).cnvtToCmdLineArgs
      ∧ serverIdirs idirsDir idirs = some (loop.value.flatMap Prod.snd) := by
  obtain ⟨hvalue, hindices⟩ := idirsLoop_options idirsDir [] (includeOptions dirs)
  rw [List.nil_append, ← cnvtToCmdLineArgs_eq, List.length_nil] at hvalue hindices
  rw [← List.range_eq_range'] at hindices
  refine ⟨hindices, hvalue, ?_, ?_⟩
  · rw [hvalue, flatMap_optionRounds, ← includeOptions_mapDirs, ← cnvtToCmdLineArgs_eq]
  · have hinside := inside_idirsLoop idirsDir [] dirs.cnvtToCmdLineArgs
    rw [List.nil_append, List.length_nil, Reads.inside, if_pos (by simp [hindices])] at hinside
    exact hinside.symm

example : (idirsLoop (str "/w") [str "-I-I", str "-iquote", str "-Ix"] 0).value
    = [(0, [str "-I/w/-I"]), (1, [str "-iquote", str "/w/-Ix"])] := by decide +kernel

end DistBuild.CmdLine
