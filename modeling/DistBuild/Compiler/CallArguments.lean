import DistBuild.Includes.Directives

/-!
# Compiler/CallArguments — reading the command line of a compiler call

    -Idir                 ─▸ include directories
    -isystem dir, …       ─▸ include directories, and the kept arguments
    -o file, -MF file, …  ─▸ the kept arguments
    everything else       ─▸ the kept arguments

`initializeCompilerCall` is the loop of the source; `parseArgs` is what it reads: a list of options
with their operands.  The loop does to the call what its options do one after the other
(`readArgs_eq`), and the options are the arguments again (`parseArgs_words`).
-/

namespace DistBuild

namespace CmdLine

/-- `CompilerCall::CallType`. -/
inductive CallType
  | compile
  | link
  | count
deriving DecidableEq, Repr

/-- The part of `DepFilesState` a command line sets. -/
structure DepFilesState where
  mdFlagPresent : Bool
  mmdFlagPresent : Bool
  mpFlagPresent : Bool
  mfFlagPath : Str
  mtFlagPaths : Str
deriving DecidableEq, Repr

namespace DepFilesState

/-- A default-initialised state: the flags are what the memory held. -/
def onMemory (memory : DepFilesState) :
    DepFilesState := { memory with mfFlagPath := [], mtFlagPaths := [] }

/-- The loop of `_process_makefile_target`, after the characters `done`, last one first. -/
def escapeMakefileTarget (done : Str) : Str → Str
  | [] => []
  | c :: cs =>
    let added : Str :=
      if c = 32 ∨ c = 9 then done.takeWhile (· == 92) ++ str "\\"
      else if c = 36 then str "$"
      else if c = 35 then str "\\"
      else []
    added ++ c :: escapeMakefileTarget (c :: done) cs

def processMakefileTarget (target : Str) : Str := escapeMakefileTarget [] target

def addMfFlagPath (s : DepFilesState) (path : Str) : DepFilesState :=
  { s with mfFlagPath := s.mfFlagPath ++ path }

def addMtFlagPath (s : DepFilesState) (path : Str) : DepFilesState :=
  { s with
    mtFlagPaths := (if s.mtFlagPaths = [] then [] else s.mtFlagPaths ++ str " \\\n") ++ path }

def addMqFlagPath (s : DepFilesState) (path : Str) : DepFilesState :=
  s.addMtFlagPath (processMakefileTarget path)

end DepFilesState

structure CompilerCall where
  cmdLineIncludeDirs : CmdLineIncludeDirs
  depCmdState : DepFilesState
  compilerCallType : CallType
  currentWorkingDir : Str
  inputSrcFile : Str
  outputObjFile : Str
  compilerType : Str
  cmdLineArgs : List Str
deriving DecidableEq, Repr

/-- `SUPPORTED_COMPILERS`. -/
def supportedCompilers : List Str :=
  [str "/usr/bin/c++", str "/usr/bin/clang", str "/usr/bin/clang++", str "/usr/bin/gcc",
    str "/usr/bin/g++"]

def isHeaderFile (fileName : Str) : Bool :=
  fileName.endsWith (str ".h") || fileName.endsWith (str ".hpp") || fileName.endsWith (str ".hh")
    || fileName.endsWith (str ".inc") || fileName.endsWith (str ".hxx")

def isSrcFile (fileName : Str) : Bool :=
  fileName.endsWith (str ".c") || fileName.endsWith (str ".cc") || fileName.endsWith (str ".cpp")
    || fileName.endsWith (str ".cxx")

def isForLinking (fileName : Str) : Bool :=
  fileName.endsWith (str ".o") || fileName.endsWith (str ".a") || fileName.endsWith (str ".so")
    || fileName.endsWith (str ".dll")

def getAbsPath (currentDir path : Str) : Str :=
  if path.startsWith (str "/") then path else currentDir ++ str "/" ++ path

/-- The options whose operand is the next argument. -/
inductive OperandOption
  | isystem
  | iquote
  | includeFile
  | output
  | mf
  | mt
  | mq
deriving DecidableEq, Repr

namespace OperandOption

def text : OperandOption → Str
  | isystem => str "-isystem"
  | iquote => str "-iquote"
  | includeFile => str "-include"
  | output => str "-o"
  | mf => str "-MF"
  | mt => str "-MT"
  | mq => str "-MQ"

/-- The option an argument is, tested in the order of the source. -/
def ofArg (arg : Str) : Option OperandOption :=
  [isystem, iquote, includeFile, output, mf, mt, mq].find? fun opt => arg == opt.text

/-- The form in which the operand is kept. -/
def kept (dir : Str) : OperandOption → Str → Str
  | isystem, next | iquote, next | includeFile, next | mf, next => getAbsPath dir next
  | output, next | mt, next | mq, next => next

theorem text_of_ofArg {arg : Str} {opt : OperandOption} (h : ofArg arg = some opt) :
    arg = opt.text := by
  simpa using List.find?_some h

end OperandOption

namespace CompilerCall

/-- The constructor, over memory with arbitrary contents. -/
def new (memory : DepFilesState) : CompilerCall where
  cmdLineIncludeDirs := ⟨[], [], [], []⟩
  depCmdState := .onMemory memory
  compilerCallType := .count
  currentWorkingDir := []
  inputSrcFile := []
  outputObjFile := []
  compilerType := []
  cmdLineArgs := []

/-- `_cmd_line_args.emplace_back`. -/
def keep (call : CompilerCall) (arg : Str) : CompilerCall :=
  { call with cmdLineArgs := call.cmdLineArgs ++ [arg] }

/-- An `-I` option: its directory is recorded, the argument is not kept. -/
def takeDashI (dir : Str) (path : Str) (call : CompilerCall) : CompilerCall :=
  { call with
    cmdLineIncludeDirs.dashI := call.cmdLineIncludeDirs.dashI ++ [getAbsPath dir path] }

/-- The branch of an option with an operand: where the operand is recorded. -/
def recordOperand (path : Str) (call : CompilerCall) : OperandOption → CompilerCall
  | .isystem => { call with
      cmdLineIncludeDirs.dashIsystem := call.cmdLineIncludeDirs.dashIsystem ++ [path] }
  | .iquote => { call with
      cmdLineIncludeDirs.dashIquote := call.cmdLineIncludeDirs.dashIquote ++ [path] }
  | .includeFile => { call with
      cmdLineIncludeDirs.dashInclude := call.cmdLineIncludeDirs.dashInclude ++ [path] }
  | .output => { call with outputObjFile := path }
  | .mf => { call with depCmdState := call.depCmdState.addMfFlagPath path }
  | .mt => { call with depCmdState := call.depCmdState.addMtFlagPath path }
  | .mq => { call with depCmdState := call.depCmdState.addMqFlagPath path }

/-- An option with an operand, both of which are kept. -/
def takeOperand (dir : Str) (opt : OperandOption) (next : Str) (call : CompilerCall) :
    CompilerCall :=
  (((call.keep opt.text).recordOperand (opt.kept dir next) opt)).keep (opt.kept dir next)

/-- An argument that takes no operand and is not an `-I` option. -/
def takeWord (arg : Str) (call : CompilerCall) : CompilerCall :=
  if arg.startsWith (str "-") then
    let call := call.keep arg
    if arg = str "-MD" then { call with depCmdState.mdFlagPresent := true }
    else if arg = str "-MMD" then { call with depCmdState.mmdFlagPresent := true }
    else if arg = str "-MP" then { call with depCmdState.mpFlagPresent := true }
    else call
  else if isSrcFile arg || isHeaderFile arg then { call with inputSrcFile := arg }.keep arg
  else if isForLinking arg then { call with compilerCallType := .link }.keep arg
  else call.keep arg

/-- The loop over the arguments after the compiler; `false` is a missing operand. -/
def readArgs (dir : Str) : List Str → CompilerCall → Bool × CompilerCall
  | [], call => (true, call)
  | arg :: rest, call =>
    if arg.startsWith (str "-I") then readArgs dir rest (call.takeDashI dir (arg.drop 2))
    else
      match OperandOption.ofArg arg with
      | none => readArgs dir rest (call.takeWord arg)
      | some opt =>
        match rest with
        | [] => (false, { call.keep arg with compilerCallType := .count })
        | next :: rest => readArgs dir rest (call.takeOperand dir opt next)

/-- What follows the loop. -/
def classify (call : CompilerCall) : Bool × CompilerCall :=
  let call :=
    if call.outputObjFile.endsWith (str ".o") then { call with compilerCallType := .compile }
    else call
  (decide (call.inputSrcFile ≠ [] ∧ call.compilerCallType ≠ .count), call)

def initializeCompilerCall (call : CompilerCall) (dir : Str) (cmdLine : List Str) :
    Bool × CompilerCall :=
  let call := { call with currentWorkingDir := dir }
  match cmdLine with
  | [] => call.classify
  | compiler :: args =>
    if compiler ∈ supportedCompilers then
      match readArgs dir args { call with compilerType := compiler } with
      | (false, call) => (false, call)
      | (true, call) => call.classify
    else (false, call)

end CompilerCall

/-! ## What the loop reads -/

/-- An option with its operand, or another word. -/
inductive CallArg
  | dashI (path : Str)
  | operand (opt : OperandOption) (next : Str)
  | word (arg : Str) (h : arg.startsWith (str "-I") = false ∧ OperandOption.ofArg arg = none)
deriving DecidableEq

namespace CallArg

/-- The arguments it is read from. -/
def words : CallArg → List Str
  | dashI path => [str "-I" ++ path]
  | operand opt next => [opt.text, next]
  | word arg _ => [arg]

/-- The arguments it leaves in `_cmd_line_args`. -/
def kept (dir : Str) : CallArg → List Str
  | dashI _ => []
  | operand opt next => [opt.text, opt.kept dir next]
  | word arg _ => [arg]

/-- The directory of an `-I` option. -/
def dashIPath (dir : Str) : CallArg → Option Str
  | dashI path => some (getAbsPath dir path)
  | _ => none

/-- The operand of the option `opt`. -/
def operandOf (dir : Str) (opt : OperandOption) : CallArg → Option Str
  | operand opt' next => if opt' = opt then some (opt.kept dir next) else none
  | _ => none

end CallArg

/-- The arguments after the compiler, if no operand is missing. -/
def parseArgs : List Str → Option (List CallArg)
  | [] => some []
  | arg :: rest =>
    if hI : arg.startsWith (str "-I") = true then (parseArgs rest).map (.dashI (arg.drop 2) :: ·)
    else
      match hopt : OperandOption.ofArg arg with
      | none =>
        (parseArgs rest).map (.word arg ⟨Bool.eq_false_iff.mpr hI, hopt⟩ :: ·)
      | some opt =>
        match rest with
        | [] => none
        | next :: rest => (parseArgs rest).map (.operand opt next :: ·)

/-- The options and words of a whole command line. -/
def options (cmdLine : List Str) : List CallArg := (parseArgs cmdLine.tail).getD []

section

variable {arg next : Str} {rest : List Str} {opt : OperandOption}

theorem parseArgs_dashI (hI : arg.startsWith (str "-I") = true) :
    parseArgs (arg :: rest) = (parseArgs rest).map (.dashI (arg.drop 2) :: ·) := by
  rw [parseArgs, dif_pos hI]

theorem parseArgs_word (hI : arg.startsWith (str "-I") = false)
    (hopt : OperandOption.ofArg arg = none) :
    parseArgs (arg :: rest) = (parseArgs rest).map (.word arg ⟨hI, hopt⟩ :: ·) := by
  rw [parseArgs, dif_neg (Bool.eq_false_iff.mp hI)]
  split
  · rfl
  · rename_i hsome
    exact absurd (hopt.symm.trans hsome) nofun

theorem parseArgs_missing (hI : arg.startsWith (str "-I") = false)
    (hopt : OperandOption.ofArg arg = some opt) : parseArgs [arg] = none := by
  rw [parseArgs, dif_neg (Bool.eq_false_iff.mp hI)]
  split
  · rename_i hnone
    exact absurd (hopt.symm.trans hnone) nofun
  · rfl

theorem parseArgs_operand (hI : arg.startsWith (str "-I") = false)
    (hopt : OperandOption.ofArg arg = some opt) :
    parseArgs (arg :: next :: rest) = (parseArgs rest).map (.operand opt next :: ·) := by
  rw [parseArgs, dif_neg (Bool.eq_false_iff.mp hI)]
  split
  · rename_i hnone
    exact absurd (hopt.symm.trans hnone) nofun
  · rename_i opt' hsome
    obtain rfl := Option.some.inj (hopt.symm.trans hsome)
    rfl

end

/-- **Reading loses nothing**: the options, written out, are the arguments. -/
theorem parseArgs_words {args : List Str} {toks : List CallArg} (h : parseArgs args = some toks) :
    toks.flatMap CallArg.words = args := by
  induction args using parseArgs.induct generalizing toks with
  | case1 =>
    cases h
    rfl
  | case2 arg rest hI ih =>
    rw [parseArgs_dashI hI] at h
    obtain ⟨toks', htoks, rfl⟩ := Option.map_eq_some_iff.mp h
    obtain ⟨path, rfl⟩ := Str.startsWith_iff.mp hI
    rw [List.flatMap_cons, ih htoks]
    rfl
  | case3 arg rest hI hopt ih =>
    rw [parseArgs_word (Bool.eq_false_iff.mpr hI) hopt] at h
    obtain ⟨toks', htoks, rfl⟩ := Option.map_eq_some_iff.mp h
    rw [List.flatMap_cons, ih htoks]
    rfl
  | case4 arg hI opt hopt =>
    rw [parseArgs_missing (Bool.eq_false_iff.mpr hI) hopt] at h
    cases h
  | case5 arg hI opt hopt next rest ih =>
    rw [parseArgs_operand (Bool.eq_false_iff.mpr hI) hopt] at h
    obtain ⟨toks', htoks, rfl⟩ := Option.map_eq_some_iff.mp h
    rw [List.flatMap_cons, ih htoks, OperandOption.text_of_ofArg hopt]
    rfl

/-- What is read of any arguments: the options up to a missing operand, and the option that misses
it. -/
def readOptions : List Str → List CallArg × Option Str
  | [] => ([], none)
  | arg :: rest =>
    if hI : arg.startsWith (str "-I") = true then
      (readOptions rest).map (.dashI (arg.drop 2) :: ·) id
    else
      match hopt : OperandOption.ofArg arg with
      | none => (readOptions rest).map (.word arg ⟨Bool.eq_false_iff.mpr hI, hopt⟩ :: ·) id
      | some opt =>
        match rest with
        | [] => ([], some arg)
        | next :: rest => (readOptions rest).map (.operand opt next :: ·) id

section

variable {arg next : Str} {rest : List Str} {opt : OperandOption}

theorem readOptions_dashI (hI : arg.startsWith (str "-I") = true) :
    readOptions (arg :: rest) = (readOptions rest).map (.dashI (arg.drop 2) :: ·) id := by
  rw [readOptions, dif_pos hI]

theorem readOptions_word (hI : arg.startsWith (str "-I") = false)
    (hopt : OperandOption.ofArg arg = none) :
    readOptions (arg :: rest) = (readOptions rest).map (.word arg ⟨hI, hopt⟩ :: ·) id := by
  rw [readOptions, dif_neg (Bool.eq_false_iff.mp hI)]
  split
  · rfl
  · rename_i hsome
    exact absurd (hopt.symm.trans hsome) nofun

theorem readOptions_missing (hI : arg.startsWith (str "-I") = false)
    (hopt : OperandOption.ofArg arg = some opt) : readOptions [arg] = ([], some arg) := by
  rw [readOptions, dif_neg (Bool.eq_false_iff.mp hI)]
  split
  · rename_i hnone
    exact absurd (hopt.symm.trans hnone) nofun
  · rfl

theorem readOptions_operand (hI : arg.startsWith (str "-I") = false)
    (hopt : OperandOption.ofArg arg = some opt) :
    readOptions (arg :: next :: rest) = (readOptions rest).map (.operand opt next :: ·) id := by
  rw [readOptions, dif_neg (Bool.eq_false_iff.mp hI)]
  split
  · rename_i hnone
    exact absurd (hopt.symm.trans hnone) nofun
  · rename_i opt' hsome
    obtain rfl := Option.some.inj (hopt.symm.trans hsome)
    rfl

end

/-- The arguments can be read if no operand is missing. -/
theorem parseArgs_eq (args : List Str) :
    parseArgs args = if (readOptions args).2 = none then some (readOptions args).1 else none := by
  induction args using readOptions.induct with
  | case1 => rfl
  | case2 arg rest hI ih =>
    rw [parseArgs_dashI hI, readOptions_dashI hI, ih]
    exact apply_ite ..
  | case3 arg rest hI hopt ih =>
    rw [parseArgs_word (Bool.eq_false_iff.mpr hI) hopt,
      readOptions_word (Bool.eq_false_iff.mpr hI) hopt, ih]
    exact apply_ite ..
  | case4 arg hI opt hopt =>
    rw [parseArgs_missing (Bool.eq_false_iff.mpr hI) hopt,
      readOptions_missing (Bool.eq_false_iff.mpr hI) hopt]
    rfl
  | case5 arg hI opt hopt next rest ih =>
    rw [parseArgs_operand (Bool.eq_false_iff.mpr hI) hopt,
      readOptions_operand (Bool.eq_false_iff.mpr hI) hopt, ih]
    exact apply_ite ..

/-- The directories of the include options, in their order. -/
def dirsOf (dir : Str) (toks : List CallArg) : CmdLineIncludeDirs where
  dashI := toks.filterMap (CallArg.dashIPath dir)
  dashIsystem := toks.filterMap (CallArg.operandOf dir .isystem)
  dashIquote := toks.filterMap (CallArg.operandOf dir .iquote)
  dashInclude := toks.filterMap (CallArg.operandOf dir .includeFile)

namespace CompilerCall

/-- What one option does. -/
def take (dir : Str) (call : CompilerCall) : CallArg → CompilerCall
  | .dashI path => call.takeDashI dir path
  | .operand opt next => call.takeOperand dir opt next
  | .word arg _ => call.takeWord arg

/-- **The loop on any arguments**: it takes what is read of them, and fails at a missing operand. -/
theorem readArgs_eq (dir : Str) (args : List Str) (call : CompilerCall) :
    readArgs dir args call
      = match (readOptions args).2 with
        | none => (true, (readOptions args).1.foldl (take dir) call)
        | some arg => (false, { ((readOptions args).1.foldl (take dir) call).keep arg with
            compilerCallType := .count }) := by
  induction args using readOptions.induct generalizing call with
  | case1 => rfl
  | case2 arg rest hI ih =>
    rw [readOptions_dashI hI, readArgs, if_pos hI]
    exact ih _
  | case3 arg rest hI hopt ih =>
    have hstep : readArgs dir (arg :: rest) call = readArgs dir rest (call.takeWord arg) := by
      rw [readArgs, if_neg hI, hopt]
    rw [readOptions_word (Bool.eq_false_iff.mpr hI) hopt, hstep]
    exact ih _
  | case4 arg hI opt hopt =>
    rw [readOptions_missing (Bool.eq_false_iff.mpr hI) hopt, readArgs, if_neg hI, hopt]
    rfl
  | case5 arg hI opt hopt next rest ih =>
    rw [readOptions_operand (Bool.eq_false_iff.mpr hI) hopt, readArgs, if_neg hI, hopt]
    exact ih _

/-- **The loop takes the options one after the other.** -/
theorem readArgs_of_parse {dir : Str} {args : List Str} {toks : List CallArg}
    (h : parseArgs args = some toks) (call : CompilerCall) :
    readArgs dir args call = (true, toks.foldl (take dir) call) := by
  rw [parseArgs_eq] at h
  split_ifs at h with hnone
  obtain rfl := Option.some.inj h
  rw [readArgs_eq, hnone]

/-- The loop fails only if an operand is missing, and leaves the call unclassified. -/
theorem readArgs_of_missing (dir : Str) {args : List Str} (h : parseArgs args = none)
    (call : CompilerCall) :
    (readArgs dir args call).1 = false ∧ (readArgs dir args call).2.compilerCallType = .count := by
  rw [parseArgs_eq] at h
  split_ifs at h with hsome
  obtain ⟨arg, harg⟩ := Option.ne_none_iff_exists'.mp hsome
  rw [readArgs_eq, harg]
  exact ⟨rfl, rfl⟩

/-! ## What the options leave -/

section

variable (dir : Str) (toks : List CallArg) (call : CompilerCall)

theorem takeWord_frame (arg : Str) :
    (call.takeWord arg).cmdLineArgs = call.cmdLineArgs ++ [arg]
      ∧ (call.takeWord arg).cmdLineIncludeDirs = call.cmdLineIncludeDirs
      ∧ (call.takeWord arg).currentWorkingDir = call.currentWorkingDir := by
  unfold takeWord
  split_ifs <;> exact ⟨rfl, rfl, rfl⟩

theorem takeOperand_frame (opt : OperandOption) (next : Str) :
    (call.takeOperand dir opt next).cmdLineArgs
        = call.cmdLineArgs ++ [opt.text, opt.kept dir next]
      ∧ (call.takeOperand dir opt next).currentWorkingDir = call.currentWorkingDir := by
  cases opt <;> simp [takeOperand, recordOperand, keep]

/-- **The arguments that are kept**, in their order. -/
theorem foldl_take_cmdLineArgs :
    (toks.foldl (take dir) call).cmdLineArgs
      = call.cmdLineArgs ++ toks.flatMap (CallArg.kept dir) := by
  induction toks generalizing call with
  | nil => simp
  | cons tok toks ih =>
    rw [List.foldl_cons, ih, List.flatMap_cons, ← List.append_assoc]
    congr 1
    cases tok with
    | dashI path => simp [take, takeDashI, CallArg.kept]
    | operand opt next => exact (takeOperand_frame dir call opt next).1
    | word arg h => exact (takeWord_frame call arg).1

/-- **The directories that are recorded**, in their order. -/
theorem foldl_take_cmdLineIncludeDirs :
    (toks.foldl (take dir) call).cmdLineIncludeDirs
      = call.cmdLineIncludeDirs.appendIncludeDirs (dirsOf dir toks) := by
  induction toks generalizing call with
  | nil => simp [dirsOf, CmdLineIncludeDirs.appendIncludeDirs]
  | cons tok toks ih =>
    rw [List.foldl_cons, ih]
    cases tok with
    | dashI path =>
      simp [take, takeDashI, dirsOf, CmdLineIncludeDirs.appendIncludeDirs, CallArg.dashIPath,
        CallArg.operandOf, List.filterMap_cons]
    | operand opt next =>
      cases opt <;>
        simp [take, takeOperand, recordOperand, keep, dirsOf, CmdLineIncludeDirs.appendIncludeDirs,
          CallArg.dashIPath, CallArg.operandOf, List.filterMap_cons]
    | word arg h =>
      rw [take, (takeWord_frame call arg).2.1]
      simp [dirsOf, CmdLineIncludeDirs.appendIncludeDirs, CallArg.dashIPath, CallArg.operandOf,
        List.filterMap_cons]

theorem foldl_take_currentWorkingDir :
    (toks.foldl (take dir) call).currentWorkingDir = call.currentWorkingDir := by
  induction toks generalizing call with
  | nil => rfl
  | cons tok toks ih =>
    rw [List.foldl_cons, ih]
    cases tok with
    | dashI path => rfl
    | operand opt next => exact (takeOperand_frame dir call opt next).2
    | word arg h => exact (takeWord_frame call arg).2.2

end

/-- A recorded source file has the suffix of one. -/
def HasSource (call : CompilerCall) : Prop :=
  call.inputSrcFile = [] ∨ isSrcFile call.inputSrcFile = true
    ∨ isHeaderFile call.inputSrcFile = true

theorem HasSource.take {dir : Str} {call : CompilerCall} (h : call.HasSource) (tok : CallArg) :
    (call.take dir tok).HasSource := by
  cases tok with
  | dashI path => exact h
  | operand opt next => cases opt <;> exact h
  | word arg _ =>
    show (call.takeWord arg).HasSource
    unfold takeWord
    split_ifs with hopt hmd hmmd hmp hsrc hlink
    · exact h
    · exact h
    · exact h
    · exact h
    · exact Or.inr ((Bool.or_eq_true ..).mp hsrc)
    · exact h
    · exact h

theorem HasSource.foldl {dir : Str} (toks : List CallArg) {call : CompilerCall}
    (h : call.HasSource) : (toks.foldl (CompilerCall.take dir) call).HasSource := by
  induction toks generalizing call with
  | nil => exact h
  | cons tok toks ih => exact ih (h.take tok)

/-- The call after a command line whose options could be read. -/
structure Read (dir : Str) (toks : List CallArg) (call : CompilerCall) : Prop where
  cmdLineArgs : call.cmdLineArgs = toks.flatMap (CallArg.kept dir)
  cmdLineIncludeDirs : call.cmdLineIncludeDirs = dirsOf dir toks
  currentWorkingDir : call.currentWorkingDir = dir
  source : call.HasSource

theorem classify_frame (call : CompilerCall) :
    call.classify.2.cmdLineArgs = call.cmdLineArgs
      ∧ call.classify.2.cmdLineIncludeDirs = call.cmdLineIncludeDirs
      ∧ call.classify.2.currentWorkingDir = call.currentWorkingDir
      ∧ call.classify.2.inputSrcFile = call.inputSrcFile := by
  unfold classify
  split_ifs <;> exact ⟨rfl, rfl, rfl, rfl⟩

/-- **A call that is accepted, or classified as a compilation, has read its whole command line.** -/
theorem initialize_read {memory : DepFilesState} {dir : Str} {cmdLine : List Str}
    (h : ((new memory).initializeCompilerCall dir cmdLine).1 = true
      ∨ ((new memory).initializeCompilerCall dir cmdLine).2.compilerCallType = .compile) :
    parseArgs cmdLine.tail = some (options cmdLine)
      ∧ Read dir (options cmdLine) ((new memory).initializeCompilerCall dir cmdLine).2 := by
  unfold initializeCompilerCall at h ⊢
  cases cmdLine with
  | nil =>
    refine absurd h ?_
    simp [classify, new, Str.endsWith, str]
  | cons compiler args =>
    by_cases hc : compiler ∈ supportedCompilers
    · simp only [if_pos hc] at h ⊢
      set start : CompilerCall :=
        { new memory with currentWorkingDir := dir, compilerType := compiler }
      cases hp : parseArgs args with
      | none =>
        obtain ⟨hfalse, hcount⟩ := readArgs_of_missing dir hp start
        cases hr : readArgs dir args start with
        | mk ok call =>
          rw [hr] at hfalse hcount
          dsimp only at hfalse hcount
          subst hfalse
          rw [hr] at h
          rcases h with h | h
          · cases h
          · cases hcount.symm.trans h
      | some toks =>
        have htoks : options (compiler :: args) = toks := by simp [options, hp]
        obtain ⟨hargs, hdirs, hdir, hsrc⟩ := classify_frame (toks.foldl (take dir) start)
        rw [readArgs_of_parse hp start, htoks]
        refine ⟨hp, ?_, ?_, ?_, ?_⟩
        · rw [hargs, foldl_take_cmdLineArgs]
          rfl
        · rw [hdirs, foldl_take_cmdLineIncludeDirs]
          rfl
        · rw [hdir, foldl_take_currentWorkingDir]
        · rw [HasSource, hsrc]
          exact HasSource.foldl toks (Or.inl rfl)
    · simp only [if_neg hc] at h
      rcases h with h | h <;> cases h

end CompilerCall

end CmdLine

end DistBuild
