import DistBuild.Compiler.CallArguments

/-!
# Client/Dispatch — which command lines are compiled on a server

    cmdLine ─initializeCompilerCall─▸ (flag, call) ─▸ call.compilerCallType = compile?  ─▸ a server
                                        ignored         otherwise                       ─▸ here

`_handle_ipc_request` looks at the type of the call only.  The type is `compile` exactly if the
compiler is supported, no operand is missing and the last `-o` names an object file
(`dispatchedToServer_iff`); whether there is anything to compile decides the flag alone.  So a
command line that only combines object files into one is sent to a server as well
(`dispatched_compiles_iff`).
-/

namespace DistBuild

namespace CmdLine

namespace CallArg

/-- The operand of `-o`. -/
def output : CallArg → Option Str
  | operand .output next => some next
  | _ => none

/-- An argument that is neither an option nor an operand. -/
def positional : CallArg → Option Str
  | word arg _ => if arg.startsWith (str "-") then none else some arg
  | _ => none

/-- A positional argument that is recorded as the source file. -/
def source (tok : CallArg) : Option Str :=
  tok.positional.filter fun arg => isSrcFile arg || isHeaderFile arg

end CallArg

/-- The operands of `-o`, in their order. -/
def outputs (cmdLine : List Str) : List Str := (options cmdLine).filterMap CallArg.output

/-- The positional arguments, in their order. -/
def positionals (cmdLine : List Str) : List Str := (options cmdLine).filterMap CallArg.positional

/-- The source and header files among the positional arguments. -/
def sources (cmdLine : List Str) : List Str := (options cmdLine).filterMap CallArg.source

namespace CompilerCall

variable (dir : Str) (toks : List CallArg) (call : CompilerCall)

/-! ## What the options leave -/

theorem takeWord_outputObjFile (arg : Str) :
    (call.takeWord arg).outputObjFile = call.outputObjFile
      ∧ (call.takeWord arg).compilerType = call.compilerType := by
  unfold takeWord
  split_ifs <;> exact ⟨rfl, rfl⟩

theorem takeWord_inputSrcFile (arg : Str) (h) :
    (call.takeWord arg).inputSrcFile = (CallArg.word arg h).source.getD call.inputSrcFile := by
  rw [CallArg.source, CallArg.positional, takeWord]
  split_ifs with hopt hmd hmmd hmp hsrc hlink
  · rfl
  · rfl
  · rfl
  · rfl
  · rw [Option.filter_some, if_pos hsrc]
    rfl
  · rw [Option.filter_some, if_neg hsrc]
    rfl
  · rw [Option.filter_some, if_neg hsrc]
    rfl

theorem take_outputObjFile (tok : CallArg) :
    (call.take dir tok).outputObjFile = tok.output.getD call.outputObjFile := by
  cases tok with
  | dashI path => rfl
  | operand opt next => cases opt <;> rfl
  | word arg h => exact (takeWord_outputObjFile call arg).1

theorem take_inputSrcFile (tok : CallArg) :
    (call.take dir tok).inputSrcFile = tok.source.getD call.inputSrcFile := by
  cases tok with
  | dashI path => rfl
  | operand opt next => cases opt <;> rfl
  | word arg h => exact takeWord_inputSrcFile call arg h

/-- The loop classifies nothing as a compilation. -/
theorem take_not_compile (tok : CallArg) (h : call.compilerCallType ≠ .compile) :
    (call.take dir tok).compilerCallType ≠ .compile := by
  cases tok with
  | dashI path => exact h
  | operand opt next => cases opt <;> exact h
  | word arg _ =>
    show (call.takeWord arg).compilerCallType ≠ .compile
    unfold takeWord
    split_ifs
    all_goals first | exact h | exact fun hlink => by cases hlink

theorem new_not_compile (memory : DepFilesState) :
    (new memory).compilerCallType ≠ .compile :=
  fun h => by cases h

theorem foldl_take_not_compile (h : call.compilerCallType ≠ .compile) :
    (toks.foldl (take dir) call).compilerCallType ≠ .compile := by
  induction toks generalizing call with
  | nil => exact h
  | cons tok toks ih => exact ih _ (take_not_compile dir call tok h)

/-- What follows the loop makes a call a compilation if it writes an object file. -/
theorem classify_compile_iff (h : call.compilerCallType ≠ .compile) :
    call.classify.2.compilerCallType = .compile
      ↔ call.outputObjFile.endsWith (str ".o") = true := by
  unfold classify
  split_ifs with hout
  · exact iff_of_true rfl hout
  · exact iff_of_false h hout

/-- A compilation is accepted if it has a source file. -/
theorem classify_accepts_iff (h : call.classify.2.compilerCallType = .compile) :
    call.classify.1 = true ↔ call.inputSrcFile ≠ [] := by
  have hflag : call.classify.1 = true ↔ call.classify.2.inputSrcFile ≠ []
      ∧ call.classify.2.compilerCallType ≠ .count := decide_eq_true_iff
  rw [hflag, h, (classify_frame call).2.2.2]
  exact and_iff_left (by decide)

theorem classify_outputObjFile :
    call.classify.2.outputObjFile = call.outputObjFile
      ∧ call.classify.2.compilerType = call.compilerType := by
  unfold classify
  split_ifs <;> exact ⟨rfl, rfl⟩

theorem take_compilerType (tok : CallArg) :
    (call.take dir tok).compilerType = call.compilerType := by
  cases tok with
  | dashI path => rfl
  | operand opt next => cases opt <;> rfl
  | word arg h => exact (takeWord_outputObjFile call arg).2

/-- A field that every option either sets or leaves holds the last value set. -/
theorem foldl_take_last {α : Type*} (field : CompilerCall → α) (set : CallArg → Option α)
    (hset : ∀ call tok, field (call.take dir tok) = (set tok).getD (field call)) :
    field (toks.foldl (take dir) call) = (toks.filterMap set).getLast?.getD (field call) := by
  induction toks generalizing call with
  | nil => rfl
  | cons tok toks ih =>
    rw [List.foldl_cons, ih, hset]
    cases htok : set tok with
    | none => rw [List.filterMap_cons_none htok, Option.getD_none]
    | some a =>
      rw [List.filterMap_cons_some htok, List.getLast?_cons, Option.getD_some, Option.getD_some]

end CompilerCall

/-! ## The dispatch -/

/-- The condition on which `_handle_ipc_request` looks for a server. -/
def dispatchedToServer (memory : DepFilesState) (dir : Str) (cmdLine : List Str) : Bool :=
  ((CompilerCall.new memory).initializeCompilerCall dir cmdLine).2.compilerCallType == .compile

/-- The command line names a supported compiler, misses no operand and writes an object file. -/
def WritesObject (cmdLine : List Str) : Prop :=
  (∃ compiler ∈ supportedCompilers, cmdLine.head? = some compiler)
    ∧ (parseArgs cmdLine.tail).isSome = true
    ∧ ∃ out, (outputs cmdLine).getLast? = some out ∧ out.endsWith (str ".o") = true

/-- The call after the loop, if no operand is missing. -/
def callAfter (memory : DepFilesState) (dir compiler : Str) (toks : List CallArg) : CompilerCall :=
  toks.foldl (CompilerCall.take dir)
    { CompilerCall.new memory with currentWorkingDir := dir, compilerType := compiler }

section

variable (memory : DepFilesState) (dir : Str) {compiler : Str} {args : List Str}

theorem initialize_of_parse (hc : compiler ∈ supportedCompilers) {toks : List CallArg}
    (hp : parseArgs args = some toks) :
    (CompilerCall.new memory).initializeCompilerCall dir (compiler :: args)
      = (callAfter memory dir compiler toks).classify := by
  rw [CompilerCall.initializeCompilerCall]
  simp only [if_pos hc, CompilerCall.readArgs_of_parse hp]
  rfl

/-- **What the loop leaves**: the last operand of `-o`, the last source file, the compiler. -/
theorem callAfter_fields (compiler : Str) (toks : List CallArg) :
    (callAfter memory dir compiler toks).outputObjFile
        = (toks.filterMap CallArg.output).getLast?.getD []
      ∧ (callAfter memory dir compiler toks).inputSrcFile
        = (toks.filterMap CallArg.source).getLast?.getD []
      ∧ (callAfter memory dir compiler toks).compilerType = compiler
      ∧ (callAfter memory dir compiler toks).compilerCallType ≠ .compile := by
  refine ⟨?_, ?_, ?_, ?_⟩
  · exact CompilerCall.foldl_take_last dir toks _ CompilerCall.outputObjFile _
      (CompilerCall.take_outputObjFile dir)
  · exact CompilerCall.foldl_take_last dir toks _ CompilerCall.inputSrcFile _
      (CompilerCall.take_inputSrcFile dir)
  · have := CompilerCall.foldl_take_last dir toks
      { CompilerCall.new memory with currentWorkingDir := dir, compilerType := compiler }
      CompilerCall.compilerType (fun _ => none) (CompilerCall.take_compilerType dir)
    rw [callAfter, this, List.filterMap_none]
    rfl
  · exact CompilerCall.foldl_take_not_compile dir toks _ (CompilerCall.new_not_compile memory)

end

/-- The options of a command line that writes an object file could be read. -/
theorem WritesObject.parse {cmdLine : List Str} (h : WritesObject cmdLine) :
    ∃ compiler args, cmdLine = compiler :: args ∧ compiler ∈ supportedCompilers
      ∧ parseArgs args = some (options cmdLine) := by
  obtain ⟨⟨compiler, hc, hhead⟩, hparse, -⟩ := h
  obtain ⟨args, rfl⟩ := List.head?_eq_some_iff.mp hhead
  obtain ⟨toks, htoks⟩ := Option.isSome_iff_exists.mp hparse
  refine ⟨compiler, args, rfl, hc, ?_⟩
  rw [options, htoks, Option.getD_some]
  exact htoks

/-- **A command line is sent to a server exactly if it writes an object file.** -/
theorem dispatchedToServer_iff (memory : DepFilesState) (dir : Str) (cmdLine : List Str) :
    dispatchedToServer memory dir cmdLine = true ↔ WritesObject cmdLine := by
  rw [dispatchedToServer, beq_iff_eq]
  constructor
  · intro h
    obtain ⟨hparse, -⟩ := CompilerCall.initialize_read (Or.inr h)
    cases cmdLine with
    | nil => cases h
    | cons compiler args =>
      by_cases hc : compiler ∈ supportedCompilers
      · have hargs : parseArgs args = some (options (compiler :: args)) := hparse
        obtain ⟨hout, -, -, htype⟩ :=
          callAfter_fields memory dir compiler (options (compiler :: args))
        rw [initialize_of_parse memory dir hc hargs, CompilerCall.classify_compile_iff _ htype,
          hout] at h
        change ((outputs (compiler :: args)).getLast?.getD []).endsWith (str ".o") = true at h
        refine ⟨⟨compiler, hc, rfl⟩, Option.isSome_iff_exists.mpr ⟨_, hparse⟩, ?_⟩
        cases hlast : (outputs (compiler :: args)).getLast? with
        | none =>
          rw [hlast] at h
          cases h
        | some out =>
          rw [hlast] at h
          exact ⟨out, rfl, h⟩
      · simp only [CompilerCall.initializeCompilerCall, if_neg hc] at h
        cases h
  · intro h
    obtain ⟨compiler, args, rfl, hc, hargs⟩ := h.parse
    obtain ⟨-, -, out, hlast, hout⟩ := h
    obtain ⟨hcall, -, -, htype⟩ :=
      callAfter_fields memory dir compiler (options (compiler :: args))
    rw [initialize_of_parse memory dir hc hargs, CompilerCall.classify_compile_iff _ htype, hcall]
    change ((outputs (compiler :: args)).getLast?.getD []).endsWith (str ".o") = true
    rwa [hlast]

/-- A call that was accepted, of a supported compiler, to write an object file from a source file of
the command line. -/
structure IsCompilation (cmdLine : List Str) (r : Bool × CompilerCall) : Prop where
  accepted : r.1 = true
  compiler : r.2.compilerType ∈ supportedCompilers ∧ cmdLine.head? = some r.2.compilerType
  output : (outputs cmdLine).getLast? = some r.2.outputObjFile
    ∧ r.2.outputObjFile.endsWith (str ".o") = true
  source : r.2.inputSrcFile ≠ [] ∧ r.2.inputSrcFile ∈ positionals cmdLine

/-- A source file is a positional argument with something in it. -/
theorem positional_of_source {cmdLine : List Str} {arg : Str} (h : arg ∈ sources cmdLine) :
    arg ≠ [] ∧ arg ∈ positionals cmdLine := by
  obtain ⟨tok, htok, hsrc⟩ := List.mem_filterMap.mp h
  obtain ⟨hpos, hsuf⟩ := Option.filter_eq_some_iff.mp hsrc
  refine ⟨?_, List.mem_filterMap.mpr ⟨tok, htok, hpos⟩⟩
  rintro rfl
  cases hsuf

/-- **A command line that is sent to a server is a compilation exactly if it names a source
file.** -/
theorem dispatched_compiles_iff (memory : DepFilesState) (dir : Str) (cmdLine : List Str) :
    (dispatchedToServer memory dir cmdLine = true →
        IsCompilation cmdLine ((CompilerCall.new memory).initializeCompilerCall dir cmdLine))
      ↔ (WritesObject cmdLine → sources cmdLine ≠ []) := by
  rw [dispatchedToServer_iff]
  refine forall_congr' fun hwrites => ?_
  obtain ⟨compiler, args, rfl, hc, hargs⟩ := hwrites.parse
  obtain ⟨-, -, out, hlast, hout⟩ := id hwrites
  have hcompile : ((CompilerCall.new memory).initializeCompilerCall dir
      (compiler :: args)).2.compilerCallType = .compile :=
    beq_iff_eq.mp ((dispatchedToServer_iff memory dir _).mpr hwrites)
  obtain ⟨hcallOut, hcallSrc, hcallType, -⟩ :=
    callAfter_fields memory dir compiler (options (compiler :: args))
  rw [initialize_of_parse memory dir hc hargs] at hcompile ⊢
  set call := callAfter memory dir compiler (options (compiler :: args))
  have hsources : call.inputSrcFile = (sources (compiler :: args)).getLast?.getD [] := hcallSrc
  have houtputs : call.outputObjFile = out := by
    rw [hcallOut]
    exact congrArg (Option.getD · []) hlast
  obtain ⟨hframeOut, hframeType⟩ := CompilerCall.classify_outputObjFile call
  have hframeSrc := (CompilerCall.classify_frame call).2.2.2
  constructor
  · intro h hnone
    apply h.source.1
    rw [hframeSrc, hsources, hnone]
    rfl
  · intro hne
    have hmem : call.inputSrcFile ∈ sources (compiler :: args) := by
      rw [hsources, List.getLast?_eq_some_getLast hne, Option.getD_some]
      exact List.getLast_mem hne
    have hsource := positional_of_source hmem
    refine ⟨(CompilerCall.classify_accepts_iff call hcompile).mpr hsource.1, ?_, ?_, ?_⟩
    · rw [hframeType, hcallType]
      exact ⟨hc, rfl⟩
    · rw [hframeOut, houtputs]
      exact ⟨hlast, hout⟩
    · rw [hframeSrc]
      exact hsource

/-- An object file made from another, without a source, is sent to a server and not accepted. -/
theorem relocatableLink_dispatched :
    ¬ ∀ (memory : DepFilesState) (dir : Str) (cmdLine : List Str),
      dispatchedToServer memory dir cmdLine = true →
        IsCompilation cmdLine ((CompilerCall.new memory).initializeCompilerCall dir cmdLine) := by
  intro h
  have hcompiles := h ⟨false, false, false, [], []⟩ (str "/w")
    [str "/usr/bin/gcc", str "-r", str "a.o", str "-o", str "b.o"] (by decide +kernel)
  exact absurd hcompiles.accepted (by decide +kernel)

end CmdLine

end DistBuild
