import DistBuild.Compiler.CallArguments

/-!
# Compiler/DashISpelling — the directory of an `-I` option as an argument of its own

    -Idir     ─▸ the directory `dir`
    -I dir    ─▸ the directory ``,  and `dir` among the kept arguments

`-I` is told by a prefix test, and what follows the prefix is taken for its operand, so a separate
directory stays behind as an argument.  Wherever the option stands, one argument more is kept
(`length_keptArgs_split`): the two spellings agree exactly if nothing is read at all
(`dashI_spellings_agree_iff`).
-/

namespace DistBuild

namespace CmdLine

/-- The arguments that are kept of those after the compiler. -/
def keptArgs (cwd : Str) (args : List Str) : List Str :=
  (readOptions args).1.flatMap (CallArg.kept cwd) ++ (readOptions args).2.toList

/-- What `initialize_compiler_call` makes of two command lines is the same: the include directories,
the remaining arguments, the source and the object file, the type of the call, and the result. -/
def SameOutcome (r r' : Bool × CompilerCall) : Prop :=
  r.1 = r'.1 ∧ r.2.cmdLineIncludeDirs = r'.2.cmdLineIncludeDirs
    ∧ r.2.cmdLineArgs = r'.2.cmdLineArgs ∧ r.2.inputSrcFile = r'.2.inputSrcFile
    ∧ r.2.outputObjFile = r'.2.outputObjFile ∧ r.2.compilerCallType = r'.2.compilerCallType

instance (r r' : Bool × CompilerCall) : Decidable (SameOutcome r r') := by
  unfold SameOutcome
  infer_instance

section

variable {cwd arg next : Str} {rest : List Str}

theorem keptArgs_dashI (hI : arg.startsWith (str "-I") = true) :
    keptArgs cwd (arg :: rest) = keptArgs cwd rest := by
  rw [keptArgs, readOptions_dashI hI]
  rfl

theorem keptArgs_word (hI : arg.startsWith (str "-I") = false)
    (hopt : OperandOption.ofArg arg = none) :
    keptArgs cwd (arg :: rest) = arg :: keptArgs cwd rest := by
  rw [keptArgs, readOptions_word hI hopt]
  rfl

theorem keptArgs_operand {opt : OperandOption} (hI : arg.startsWith (str "-I") = false)
    (hopt : OperandOption.ofArg arg = some opt) :
    keptArgs cwd (arg :: next :: rest) = opt.text :: opt.kept cwd next :: keptArgs cwd rest := by
  rw [keptArgs, readOptions_operand hI hopt]
  rfl

end

/-- **The loop keeps these arguments**, whether or not an operand is missing. -/
theorem readArgs_cmdLineArgs (cwd : Str) (args : List Str) (call : CompilerCall) :
    (CompilerCall.readArgs cwd args call).2.cmdLineArgs
      = call.cmdLineArgs ++ keptArgs cwd args := by
  rw [CompilerCall.readArgs_eq, keptArgs, ← List.append_assoc,
    ← CompilerCall.foldl_take_cmdLineArgs]
  cases (readOptions args).2 with
  | none => exact (List.append_nil _).symm
  | some arg => rfl

/-- An argument that does not start with a dash is no option. -/
theorem ofArg_of_no_dash {arg : Str} (h : arg.startsWith (str "-") = false) :
    OperandOption.ofArg arg = none := by
  rw [Option.eq_none_iff_forall_ne_some]
  intro opt hopt
  rw [OperandOption.text_of_ofArg hopt] at h
  cases opt <;> exact absurd h (by decide)

theorem not_dashI_of_no_dash {arg : Str} (h : arg.startsWith (str "-") = false) :
    arg.startsWith (str "-I") = false := by
  refine Bool.eq_false_of_not_eq_true fun hI => Bool.eq_false_iff.mp h ?_
  have hpre : str "-" <+: str "-I" := by decide
  exact Str.startsWith_iff.mpr (hpre.trans (Str.startsWith_iff.mp hI))

/-- **A separate directory is one kept argument more**, wherever the option stands: as an option,
and as the operand of the option before it. -/
theorem length_keptArgs_split (cwd : Str) {dir : Str} (hdir : dir.startsWith (str "-") = false)
    (pre post : List Str) :
    (keptArgs cwd (pre ++ str "-I" :: dir :: post)).length
      = (keptArgs cwd (pre ++ (str "-I" ++ dir) :: post)).length + 1 := by
  have hword : keptArgs cwd (dir :: post) = dir :: keptArgs cwd post :=
    keptArgs_word (not_dashI_of_no_dash hdir) (ofArg_of_no_dash hdir)
  induction pre using readOptions.induct with
  | case1 =>
    rw [List.nil_append, List.nil_append, keptArgs_dashI (by decide), hword,
      keptArgs_dashI (Str.startsWith_iff.mpr (List.prefix_append ..)), List.length_cons]
  | case2 arg rest hI ih =>
    rw [List.cons_append, List.cons_append, keptArgs_dashI hI, keptArgs_dashI hI, ih]
  | case3 arg rest hI hopt ih =>
    rw [List.cons_append, List.cons_append, keptArgs_word (Bool.eq_false_iff.mpr hI) hopt,
      keptArgs_word (Bool.eq_false_iff.mpr hI) hopt, List.length_cons, List.length_cons, ih]
  | case4 arg hI opt hopt =>
    rw [List.singleton_append, List.singleton_append,
      keptArgs_operand (Bool.eq_false_iff.mpr hI) hopt,
      keptArgs_operand (Bool.eq_false_iff.mpr hI) hopt, hword]
    simp only [List.length_cons]
  | case5 arg hI opt hopt next rest ih =>
    rw [List.cons_append, List.cons_append, List.cons_append, List.cons_append,
      keptArgs_operand (Bool.eq_false_iff.mpr hI) hopt,
      keptArgs_operand (Bool.eq_false_iff.mpr hI) hopt]
    simp only [List.length_cons, ih]

/-- The arguments kept of a command line whose compiler is supported. -/
theorem initialize_cmdLineArgs (memory : DepFilesState) (cwd compiler : Str) (args : List Str)
    (hc : compiler ∈ supportedCompilers) :
    ((CompilerCall.new memory).initializeCompilerCall cwd (compiler :: args)).2.cmdLineArgs
      = keptArgs cwd args := by
  have hkept := readArgs_cmdLineArgs cwd args
    { CompilerCall.new memory with currentWorkingDir := cwd, compilerType := compiler }
  rw [CompilerCall.initializeCompilerCall]
  simp only [if_pos hc]
  cases hr : CompilerCall.readArgs cwd args
    { CompilerCall.new memory with currentWorkingDir := cwd, compilerType := compiler } with
  | mk ok call =>
    rw [hr] at hkept
    cases ok with
    | false => exact hkept
    | true => exact (CompilerCall.classify_frame call).1.trans hkept

/-- Nothing is read after a compiler that is not supported. -/
theorem initialize_unsupported (memory : DepFilesState) (cwd : Str) {compiler : Str}
    (args : List Str) (hc : compiler ∉ supportedCompilers) :
    (CompilerCall.new memory).initializeCompilerCall cwd (compiler :: args)
      = (false, { CompilerCall.new memory with currentWorkingDir := cwd }) := by
  rw [CompilerCall.initializeCompilerCall]
  exact if_neg hc

/-- No supported compiler starts with a dash. -/
theorem unsupported_of_dashI {arg : Str} (h : str "-I" <+: arg) : arg ∉ supportedCompilers := by
  intro hmem
  have hno : ∀ compiler ∈ supportedCompilers, ¬ str "-I" <+: compiler := by decide
  exact hno arg hmem h

/-- **The two spellings of an `-I` option agree exactly if the compiler is not supported.** -/
theorem dashI_spellings_agree_iff (memory : DepFilesState) (cwd dir : Str) (pre post : List Str)
    (hdir : dir.startsWith (str "-") = false) :
    SameOutcome
        ((CompilerCall.new memory).initializeCompilerCall cwd (pre ++ str "-I" :: dir :: post))
        ((CompilerCall.new memory).initializeCompilerCall cwd (pre ++ (str "-I" ++ dir) :: post))
      ↔ ∀ compiler ∈ pre.head?, compiler ∉ supportedCompilers := by
  cases pre with
  | nil =>
    refine iff_of_true ?_ nofun
    rw [List.nil_append, List.nil_append,
      initialize_unsupported _ _ _ (unsupported_of_dashI List.prefix_rfl),
      initialize_unsupported _ _ _ (unsupported_of_dashI (List.prefix_append ..))]
    exact ⟨rfl, rfl, rfl, rfl, rfl, rfl⟩
  | cons compiler pre =>
    rw [List.cons_append, List.cons_append]
    by_cases hc : compiler ∈ supportedCompilers
    · refine iff_of_false (fun hsame => ?_) (fun hall => hall compiler rfl hc)
      have hlen := congrArg List.length hsame.2.2.1
      rw [initialize_cmdLineArgs _ _ _ _ hc, initialize_cmdLineArgs _ _ _ _ hc,
        length_keptArgs_split cwd hdir] at hlen
      exact absurd hlen (Nat.succ_ne_self _)
    · refine iff_of_true ?_ fun c hmem => by
        obtain rfl := Option.some.inj hmem
        exact hc
      rw [initialize_unsupported _ _ _ hc, initialize_unsupported _ _ _ hc]
      exact ⟨rfl, rfl, rfl, rfl, rfl, rfl⟩

/-- A command line for a compiler that is not supported, in both spellings. -/
theorem dashI_spellings_agree_tcc :
    SameOutcome
        ((CompilerCall.new ⟨false, false, false, [], []⟩).initializeCompilerCall (str "/w")
          ([str "/usr/bin/tcc"] ++ str "-I" :: str "inc" :: [str "a.c"]))
        ((CompilerCall.new ⟨false, false, false, [], []⟩).initializeCompilerCall (str "/w")
          ([str "/usr/bin/tcc"] ++ (str "-I" ++ str "inc") :: [str "a.c"])) :=
  (dashI_spellings_agree_iff ⟨false, false, false, [], []⟩ (str "/w") (str "inc")
    [str "/usr/bin/tcc"] [str "a.c"] (by decide)).mpr (by decide)

/-- With a separate directory, the working directory is searched and `inc` is an argument. -/
theorem separate_dashI_differs :
    ¬ ∀ (memory : DepFilesState) (cwd dir : Str) (pre post : List Str),
      dir.startsWith (str "-") = false →
        SameOutcome
          ((CompilerCall.new memory).initializeCompilerCall cwd (pre ++ str "-I" :: dir :: post))
          ((CompilerCall.new memory).initializeCompilerCall cwd
            (pre ++ (str "-I" ++ dir) :: post)) := by
  intro h
  have := h ⟨false, false, false, [], []⟩ (str "/w") (str "inc") [str "/usr/bin/g++"]
    [str "-c", str "a.cpp", str "-o", str "a.o"] (by decide)
  exact absurd this (by decide)

end CmdLine

end DistBuild
