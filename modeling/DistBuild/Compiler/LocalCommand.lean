import DistBuild.Compiler.CallArguments

/-!
# Compiler/LocalCommand — the command line of the local fallback

    the arguments  ─initialize─▸  what is kept  ─▸  the local compiler

The local compiler is run on the kept arguments.  They are the original ones, the paths of some
options made absolute, except that no `-I` option is kept: what the fallback compiles is what was
asked for exactly if there is none (`local_command_iff`).
-/

namespace DistBuild

namespace CmdLine

/-- A process the client starts. -/
structure ProcessCall where
  program : Str
  args : List Str
  startDir : Str
deriving DecidableEq, Repr

/-- The compiler process of `ClientSession::perform_local_compilation`. -/
def CompilerCall.performLocalCompilation (call : CompilerCall) : ProcessCall where
  program := call.compilerType
  args := call.cmdLineArgs
  startDir := call.currentWorkingDir

/-- The original arguments, the path operands of `-I`, `-isystem`, `-iquote`, `-include` and `-MF`
made absolute.  The directory of an `-I` option may be an argument of its own. -/
def absolutised (dir : Str) : List Str → List Str
  | [] => []
  | arg :: rest =>
    if arg = str "-I" then
      match rest with
      | [] => [arg]
      | next :: rest => arg :: getAbsPath dir next :: absolutised dir rest
    else if arg.startsWith (str "-I") then
      (str "-I" ++ getAbsPath dir (arg.drop 2)) :: absolutised dir rest
    else
      match OperandOption.ofArg arg with
      | none => arg :: absolutised dir rest
      | some opt =>
        match rest with
        | [] => [arg]
        | next :: rest => arg :: opt.kept dir next :: absolutised dir rest

/-- The command line has no `-I` option. -/
def NoDashI (toks : List CallArg) : Prop := ∀ tok ∈ toks, tok.dashIPath [] = none

instance (toks : List CallArg) : Decidable (NoDashI toks) :=
  inferInstanceAs (Decidable (∀ tok ∈ toks, tok.dashIPath [] = none))

theorem length_absolutised (dir : Str) (args : List Str) :
    (absolutised dir args).length = args.length := by
  fun_induction absolutised dir args with
  | case1 => rfl
  | case2 => rfl
  | case3 next rest ih => simp only [List.length_cons, ih]
  | case4 arg rest hne hI ih => simp only [List.length_cons, ih]
  | case5 arg rest hne hI hopt ih => simp only [List.length_cons, ih]
  | case6 arg hne hI opt hopt => rfl
  | case7 arg hne hI opt hopt next rest ih => simp only [List.length_cons, ih]

section

variable {arg next : Str} {rest : List Str} {opt : OperandOption}

/-- `-I` is an `-I` option. -/
theorem ne_dashI (hI : ¬ arg.startsWith (str "-I") = true) : arg ≠ str "-I" := by
  rintro rfl
  exact hI (by decide)

theorem absolutised_word (dir : Str) (hI : ¬ arg.startsWith (str "-I") = true)
    (hopt : OperandOption.ofArg arg = none) :
    absolutised dir (arg :: rest) = arg :: absolutised dir rest := by
  rw [absolutised.eq_def]
  simp only [if_neg (ne_dashI hI), if_neg hI, hopt]

theorem absolutised_operand (dir : Str) (hI : ¬ arg.startsWith (str "-I") = true)
    (hopt : OperandOption.ofArg arg = some opt) :
    absolutised dir (arg :: next :: rest) = arg :: opt.kept dir next :: absolutised dir rest := by
  rw [absolutised.eq_def]
  simp only [if_neg (ne_dashI hI), if_neg hI, hopt]

end

/-- Each `-I` option is an argument that is not kept. -/
theorem length_kept (dir : Str) (toks : List CallArg) :
    (toks.flatMap CallArg.words).length
      = (toks.flatMap (CallArg.kept dir)).length
        + (toks.filterMap (CallArg.dashIPath dir)).length := by
  induction toks with
  | nil => rfl
  | cons tok toks ih =>
    simp only [List.flatMap_cons, List.length_append, ih, List.filterMap_cons]
    cases tok with
    | dashI path =>
      simp only [CallArg.words, CallArg.kept, CallArg.dashIPath, List.length_cons, List.length_nil]
      omega
    | operand opt next =>
      simp only [CallArg.words, CallArg.kept, CallArg.dashIPath, List.length_cons]
      omega
    | word arg h =>
      simp only [CallArg.words, CallArg.kept, CallArg.dashIPath]
      omega

/-- Without an `-I` option the kept arguments are those that were asked for. -/
theorem kept_of_noDashI {dir : Str} {args : List Str} {toks : List CallArg}
    (h : parseArgs args = some toks) (hno : NoDashI toks) :
    toks.flatMap (CallArg.kept dir) = absolutised dir args := by
  induction args using parseArgs.induct generalizing toks with
  | case1 =>
    cases h
    rfl
  | case2 arg rest hI ih =>
    rw [parseArgs_dashI hI] at h
    obtain ⟨toks', -, rfl⟩ := Option.map_eq_some_iff.mp h
    cases hno _ List.mem_cons_self
  | case3 arg rest hI hopt ih =>
    rw [parseArgs_word (Bool.eq_false_iff.mpr hI) hopt] at h
    obtain ⟨toks', htoks, rfl⟩ := Option.map_eq_some_iff.mp h
    rw [absolutised_word dir hI hopt, List.flatMap_cons,
      ih htoks fun tok hmem => hno tok (List.mem_cons_of_mem _ hmem)]
    rfl
  | case4 arg hI opt hopt =>
    rw [parseArgs_missing (Bool.eq_false_iff.mpr hI) hopt] at h
    cases h
  | case5 arg hI opt hopt next rest ih =>
    rw [parseArgs_operand (Bool.eq_false_iff.mpr hI) hopt] at h
    obtain ⟨toks', htoks, rfl⟩ := Option.map_eq_some_iff.mp h
    rw [absolutised_operand dir hI hopt, List.flatMap_cons,
      ih htoks fun tok hmem => hno tok (List.mem_cons_of_mem _ hmem),
      OperandOption.text_of_ofArg hopt]
    rfl

/-- **The local fallback compiles what was asked for exactly if there was no `-I` option.** -/
theorem local_command_iff (memory : DepFilesState) (dir : Str) (cmdLine : List Str)
    (h : ((CompilerCall.new memory).initializeCompilerCall dir cmdLine).1 = true) :
    ((CompilerCall.new memory).initializeCompilerCall dir cmdLine).2.performLocalCompilation.args
        = absolutised dir cmdLine.tail
      ↔ NoDashI (options cmdLine) := by
  obtain ⟨hparse, hread⟩ := CompilerCall.initialize_read (Or.inl h)
  have hargs : ((CompilerCall.new memory).initializeCompilerCall dir
      cmdLine).2.performLocalCompilation.args = (options cmdLine).flatMap (CallArg.kept dir) :=
    hread.cmdLineArgs
  rw [hargs]
  refine ⟨fun heq tok hmem => ?_, kept_of_noDashI hparse⟩
  have hlen := length_kept dir (options cmdLine)
  rw [parseArgs_words hparse, heq, length_absolutised] at hlen
  have hnone : (options cmdLine).filterMap (CallArg.dashIPath dir) = [] :=
    List.length_eq_zero_iff.mp (by omega)
  have htok := List.filterMap_eq_nil_iff.mp hnone _ hmem
  cases tok with
  | dashI path => cases htok
  | operand opt next => rfl
  | word arg h => rfl

/-! ## A directory is lost -/

/-- A call without include options. -/
def plainCall : List Str :=
  [str "/usr/bin/g++", str "-MF", str "a.d", str "-c", str "a.cpp", str "-o", str "a.o"]

/-- Its dependency file is written where it was asked for. -/
theorem local_command_plain :
    ((CompilerCall.new ⟨false, false, false, [], []⟩).initializeCompilerCall (str "/w")
      plainCall).2.performLocalCompilation.args = absolutised (str "/w") plainCall.tail :=
  (local_command_iff ⟨false, false, false, [], []⟩ (str "/w") plainCall (by decide)).mpr (by decide)

/-- The fallback searches the include directory no more. -/
theorem local_command_drops_dir :
    ¬ ∀ (memory : DepFilesState) (dir : Str) (cmdLine : List Str),
      ((CompilerCall.new memory).initializeCompilerCall dir cmdLine).1 = true →
        ((CompilerCall.new memory).initializeCompilerCall dir
          cmdLine).2.performLocalCompilation.args
          = absolutised dir cmdLine.tail := by
  intro h
  have := h ⟨false, false, false, [], []⟩ (str "/w")
    [str "/usr/bin/g++", str "-Iinc", str "-c", str "a.cpp", str "-o", str "a.o"] (by decide)
  exact absurd this (by decide)

end CmdLine

end DistBuild
