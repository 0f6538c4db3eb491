import DistBuild.DepFiles.RoundTrip

/-!
# Compiler/DepFlags — the dep flags of two compiler calls

    memory₁ ─▸ new ─▸ initialize ─▸ call₁  ┐
                                            ├─ the same, if the memory says nothing
    memory₂ ─▸ new ─▸ initialize ─▸ call₂  ┘

The constructor does not write the three flags, and the option loop writes `true` only.  So the
flags of a call are those of a call on clean memory, and the memory's (`initialize_overlay`): what
the command line says is lost under a flag that the memory had set.
-/

namespace DistBuild.CmdLine

/-- The flags of a command line that are read off the memory otherwise. -/
inductive DepFlag
  | md
  | mmd
  | mp
deriving DecidableEq, Repr

namespace DepFlag

def text : DepFlag → Str
  | md => str "-MD"
  | mmd => str "-MMD"
  | mp => str "-MP"

theorem text_inj {flag other : DepFlag} : flag.text = other.text ↔ flag = other := by
  cases flag <;> cases other <;> decide

theorem text_dash (flag : DepFlag) : flag.text.startsWith (str "-") = true := by
  cases flag <;> decide

/-- `get_md_flag_present`, and its siblings. -/
def present (state : DepFilesState) : DepFlag → Bool
  | md => state.mdFlagPresent
  | mmd => state.mmdFlagPresent
  | mp => state.mpFlagPresent

end DepFlag

/-- `is_depfile_needed`. -/
def DepFilesState.isDepfileNeeded (state : DepFilesState) : Bool :=
  state.mfFlagPath ≠ [] || state.mdFlagPresent

/-- The options that the loop of `initialize_compiler_call` gets to. -/
def processed : List Str → List CallArg
  | [] => []
  | compiler :: args => if compiler ∈ supportedCompilers then (readOptions args).1 else []

/-- The flag is one of the options that the loop gets to. -/
def DepFlag.Occurs (flag : DepFlag) (cmdLine : List Str) : Prop :=
  ∃ h, CallArg.word flag.text h ∈ processed cmdLine

/-! ## Memory, laid over a state -/

namespace DepFilesState

/-- The flags of the memory, and those of the state. -/
def overlay (memory state : DepFilesState) : DepFilesState :=
  { state with
    mdFlagPresent := memory.mdFlagPresent || state.mdFlagPresent
    mmdFlagPresent := memory.mmdFlagPresent || state.mmdFlagPresent
    mpFlagPresent := memory.mpFlagPresent || state.mpFlagPresent }

/-- Memory without flags. -/
def clean : DepFilesState := ⟨false, false, false, [], []⟩

theorem present_overlay (memory state : DepFilesState) (flag : DepFlag) :
    flag.present (memory.overlay state) = (flag.present memory || flag.present state) := by
  cases flag <;> rfl

/-- Only the flags of the memory matter, and only as they come out. -/
theorem overlay_congr {memory₁ memory₂ state : DepFilesState}
    (h : ∀ flag : DepFlag,
      flag.present (memory₁.overlay state) = flag.present (memory₂.overlay state)) :
    memory₁.overlay state = memory₂.overlay state := by
  have hmd := h .md
  have hmmd := h .mmd
  have hmp := h .mp
  simp only [DepFlag.present, overlay] at hmd hmmd hmp
  simp only [overlay, hmd, hmmd, hmp]

end DepFilesState

namespace CompilerCall

variable (memory : DepFilesState)

/-- The same call, on other memory. -/
def overlay (call : CompilerCall) : CompilerCall :=
  { call with depCmdState := memory.overlay call.depCmdState }

theorem new_eq : new memory = (new .clean).overlay memory := by
  simp [new, overlay, DepFilesState.overlay, DepFilesState.onMemory, DepFilesState.clean]

/-- **No option looks at the flags.** -/
theorem take_overlay (dir : Str) (call : CompilerCall) (tok : CallArg) :
    (call.overlay memory).take dir tok = (call.take dir tok).overlay memory := by
  cases tok with
  | dashI path => rfl
  | operand opt next => cases opt <;> rfl
  | word arg h =>
    show (call.overlay memory).takeWord arg = (call.takeWord arg).overlay memory
    unfold takeWord
    split_ifs <;> simp [overlay, keep, DepFilesState.overlay]

theorem foldl_take_overlay (dir : Str) (toks : List CallArg) (call : CompilerCall) :
    toks.foldl (take dir) (call.overlay memory) = (toks.foldl (take dir) call).overlay memory := by
  induction toks generalizing call with
  | nil => rfl
  | cons tok toks ih => rw [List.foldl_cons, List.foldl_cons, take_overlay, ih]

theorem classify_overlay (call : CompilerCall) :
    (call.overlay memory).classify = (call.classify.1, call.classify.2.overlay memory) := by
  unfold classify overlay
  split_ifs <;> rfl

/-- With a supported compiler the options are read, and then the call is classified. -/
theorem initialize_of_supported {compiler : Str} (hc : compiler ∈ supportedCompilers) (dir : Str)
    (args : List Str) (call : CompilerCall) :
    call.initializeCompilerCall dir (compiler :: args)
      = if (readArgs dir args
            { call with currentWorkingDir := dir, compilerType := compiler }).1 = true then
          (readArgs dir args
            { call with currentWorkingDir := dir, compilerType := compiler }).2.classify
        else readArgs dir args
          { call with currentWorkingDir := dir, compilerType := compiler } := by
  unfold initializeCompilerCall
  simp only [if_pos hc]
  generalize readArgs dir args _ = r
  obtain ⟨ok, call'⟩ := r
  cases ok <;> rfl

/-- **Initialising a call on some memory** is initialising it on clean memory, and the flags of the
memory on top. -/
theorem initialize_overlay (dir : Str) (cmdLine : List Str) :
    (new memory).initializeCompilerCall dir cmdLine
      = (((new .clean).initializeCompilerCall dir cmdLine).1,
        ((new .clean).initializeCompilerCall dir cmdLine).2.overlay memory) := by
  rw [new_eq]
  cases cmdLine with
  | nil => exact classify_overlay memory { new .clean with currentWorkingDir := dir }
  | cons compiler args =>
    by_cases hc : compiler ∈ supportedCompilers
    · rw [initialize_of_supported hc, initialize_of_supported hc]
      set start : CompilerCall :=
        { new .clean with currentWorkingDir := dir, compilerType := compiler } with hstart
      have hread : readArgs dir args
            { (new .clean).overlay memory with currentWorkingDir := dir, compilerType := compiler }
          = ((readArgs dir args start).1, (readArgs dir args start).2.overlay memory) := by
        show readArgs dir args (start.overlay memory) = _
        rw [readArgs_eq, readArgs_eq, foldl_take_overlay]
        cases (readOptions args).2 <;> rfl
      rw [hread]
      dsimp only
      split_ifs
      · exact classify_overlay memory _
      · rfl
    · simp only [initializeCompilerCall, if_neg hc]
      rfl

/-! ## What the command line says -/

/-- An option sets the flag that it is, and no other. -/
theorem present_take (flag : DepFlag) (dir : Str) (call : CompilerCall) (tok : CallArg) :
    flag.present (call.take dir tok).depCmdState = true
      ↔ flag.present call.depCmdState = true ∨ ∃ h, tok = .word flag.text h := by
  cases tok with
  | dashI path => simp [take, takeDashI]
  | operand opt next => cases opt <;> cases flag <;> simp [take, takeOperand, recordOperand, keep,
      DepFlag.present, DepFilesState.addMfFlagPath, DepFilesState.addMtFlagPath,
      DepFilesState.addMqFlagPath]
  | word arg h =>
    have hword : (∃ h', CallArg.word arg h = .word flag.text h') ↔ arg = flag.text := by
      constructor
      · rintro ⟨_, heq⟩
        exact CallArg.word.inj heq
      · rintro rfl
        exact ⟨h, rfl⟩
    rw [hword]
    show flag.present (call.takeWord arg).depCmdState = true ↔ _
    by_cases hdash : arg.startsWith (str "-") = true
    · rw [takeWord, if_pos hdash]
      dsimp only
      split_ifs with hmd hmmd hmp
      · rw [hmd, ← DepFlag.text, DepFlag.text_inj]
        cases flag <;> simp [DepFlag.present, keep]
      · rw [hmmd, ← DepFlag.text, DepFlag.text_inj]
        cases flag <;> simp [DepFlag.present, keep]
      · rw [hmp, ← DepFlag.text, DepFlag.text_inj]
        cases flag <;> simp [DepFlag.present, keep]
      · have hne : arg ≠ flag.text := by cases flag <;> assumption
        simp [keep, hne]
    · have hne : arg ≠ flag.text := fun heq => hdash (heq ▸ flag.text_dash)
      rw [takeWord, if_neg hdash]
      split_ifs <;> simp [keep, hne]

theorem present_foldl_take (flag : DepFlag) (dir : Str) (toks : List CallArg)
    (call : CompilerCall) :
    flag.present (toks.foldl (take dir) call).depCmdState = true
      ↔ flag.present call.depCmdState = true ∨ ∃ h, .word flag.text h ∈ toks := by
  induction toks generalizing call with
  | nil => simp
  | cons tok toks ih =>
    rw [List.foldl_cons, ih, present_take, or_assoc]
    refine or_congr_right ⟨?_, ?_⟩
    · rintro (⟨h, rfl⟩ | ⟨h, hmem⟩)
      · exact ⟨h, List.mem_cons_self⟩
      · exact ⟨h, List.mem_cons_of_mem _ hmem⟩
    · rintro ⟨h, hmem⟩
      rcases List.mem_cons.mp hmem with heq | hmem
      · exact Or.inl ⟨h, heq.symm⟩
      · exact Or.inr ⟨h, hmem⟩

/-- What follows the loop looks at no flag. -/
theorem classify_depCmdState (call : CompilerCall) :
    call.classify.2.depCmdState = call.depCmdState := by
  unfold classify
  split_ifs <;> rfl

/-- **The flags on clean memory** are the options that the loop gets to. -/
theorem present_initialize (flag : DepFlag) (dir : Str) (cmdLine : List Str) :
    flag.present ((new .clean).initializeCompilerCall dir cmdLine).2.depCmdState = true
      ↔ flag.Occurs cmdLine := by
  have hclean : flag.present (new .clean).depCmdState = false := by cases flag <;> rfl
  cases cmdLine with
  | nil =>
    simp only [initializeCompilerCall, classify_depCmdState, DepFlag.Occurs, processed,
      List.not_mem_nil, exists_false]
    simp [hclean]
  | cons compiler args =>
    by_cases hc : compiler ∈ supportedCompilers
    · rw [initialize_of_supported hc]
      set start : CompilerCall :=
        { new .clean with currentWorkingDir := dir, compilerType := compiler } with hstart
      have hread : flag.present (readArgs dir args start).2.depCmdState = true
          ↔ flag.Occurs (compiler :: args) := by
        have hflag := present_foldl_take flag dir (readOptions args).1 start
        rw [show start.depCmdState = (new .clean).depCmdState from rfl, hclean] at hflag
        rw [DepFlag.Occurs, processed, if_pos hc, readArgs_eq]
        cases (readOptions args).2 with
        | none => simpa using hflag
        | some arg => simpa [keep] using hflag
      rw [← hread]
      split_ifs
      · rw [classify_depCmdState]
      · rfl
    · simp only [initializeCompilerCall, DepFlag.Occurs, processed, if_neg hc, List.not_mem_nil,
        exists_false]
      simp [hclean]

end CompilerCall

/-! ## Two calls -/

open CompilerCall

/-- Both calls have the flags of the command line, and so need a dep file, keep headers and write
targets alike. -/
def FlagsFromCommandLine (memory₁ memory₂ : DepFilesState) (dir : Str)
    (cmdLine : List Str) : Prop :=
  let call₁ := ((new memory₁).initializeCompilerCall dir cmdLine).2
  let call₂ := ((new memory₂).initializeCompilerCall dir cmdLine).2
  (∀ flag : DepFlag, (flag.present call₁.depCmdState = true ↔ flag.Occurs cmdLine)
      ∧ (flag.present call₂.depCmdState = true ↔ flag.Occurs cmdLine))
    ∧ call₁.depCmdState.isDepfileNeeded = call₂.depCmdState.isDepfileNeeded
    ∧ ∀ systemIncludeDirs headers,
      call₁.depCmdState.calculateDepsForHeaders call₁ systemIncludeDirs headers
          = call₂.depCmdState.calculateDepsForHeaders call₂ systemIncludeDirs headers
        ∧ call₁.depCmdState.generateDepFile call₁ systemIncludeDirs headers
          = call₂.depCmdState.generateDepFile call₂ systemIncludeDirs headers

/-- A flag of a call: the memory's, or the command line's. -/
theorem present_iff (memory : DepFilesState) (dir : Str) (cmdLine : List Str) (flag : DepFlag) :
    flag.present ((new memory).initializeCompilerCall dir cmdLine).2.depCmdState = true
      ↔ flag.present memory = true ∨ flag.Occurs cmdLine := by
  rw [initialize_overlay, ← present_initialize flag dir cmdLine]
  show flag.present (memory.overlay _) = true ↔ _
  rw [DepFilesState.present_overlay, Bool.or_eq_true]

/-- Calls of one command line with the same flags are the same. -/
theorem initialize_eq_of_flags {memory₁ memory₂ : DepFilesState} {dir : Str} {cmdLine : List Str}
    (h : ∀ flag : DepFlag,
      flag.present ((new memory₁).initializeCompilerCall dir cmdLine).2.depCmdState
        = flag.present ((new memory₂).initializeCompilerCall dir cmdLine).2.depCmdState) :
    ((new memory₁).initializeCompilerCall dir cmdLine).2
      = ((new memory₂).initializeCompilerCall dir cmdLine).2 := by
  rw [initialize_overlay memory₁, initialize_overlay memory₂] at h ⊢
  simp only [overlay] at h ⊢
  rw [DepFilesState.overlay_congr h]

/-- **The flags come from the command line exactly if neither memory has set one that it does not
give.** -/
theorem flags_from_command_line_iff (memory₁ memory₂ : DepFilesState) (dir : Str)
    (cmdLine : List Str) :
    FlagsFromCommandLine memory₁ memory₂ dir cmdLine
      ↔ ∀ flag : DepFlag, flag.Occurs cmdLine
        ∨ flag.present memory₁ = false ∧ flag.present memory₂ = false := by
  constructor
  · rintro ⟨hflags, -⟩ flag
    by_cases hoccurs : flag.Occurs cmdLine
    · exact Or.inl hoccurs
    · obtain ⟨h₁, h₂⟩ := hflags flag
      rw [present_iff] at h₁ h₂
      exact Or.inr ⟨Bool.eq_false_iff.mpr fun h => hoccurs (h₁.mp (Or.inl h)),
        Bool.eq_false_iff.mpr fun h => hoccurs (h₂.mp (Or.inl h))⟩
  · intro h
    have hflags : ∀ flag : DepFlag,
        (flag.present ((new memory₁).initializeCompilerCall dir cmdLine).2.depCmdState = true
            ↔ flag.Occurs cmdLine)
          ∧ (flag.present ((new memory₂).initializeCompilerCall dir cmdLine).2.depCmdState = true
            ↔ flag.Occurs cmdLine) := by
      intro flag
      rw [present_iff, present_iff]
      rcases h flag with hoccurs | ⟨h₁, h₂⟩
      · simp [hoccurs]
      · simp [h₁, h₂]
    have hcalls := initialize_eq_of_flags fun flag =>
      Bool.eq_iff_iff.mpr ((hflags flag).1.trans (hflags flag).2.symm)
    refine ⟨hflags, ?_, fun systemIncludeDirs headers => ⟨?_, ?_⟩⟩ <;> rw [hcalls]

/-- Without `-MP`, a call on memory that has the flag set gets extra targets, and one on clean
memory does not. -/
theorem phony_targets_from_memory :
    ¬ FlagsFromCommandLine ⟨false, false, true, [], []⟩ .clean (str "/w")
        [str "/usr/bin/g++", str "-MD", str "-c", str "a.c", str "-o", str "a.o"] := by
  rintro ⟨-, -, h⟩
  have hfiles := (h ⟨[], [], [], []⟩ [⟨str "/w/x.h", [], 0, []⟩]).2
  exact absurd hfiles (by decide +kernel)

end DistBuild.CmdLine
