import DistBuild.Compiler.CallArguments
import DistBuild.Machinery.Lexical
import DistBuild.Server.FileState

/-!
# Server/CommandLine — the compiler's command line, rebuilt on the server

    kept arguments  ─▸ without source files and `-o` pairs ─┐
    include options ─▸ under the workspace ─────────────────┴─▸ … source -o object

The server tells source files and `-o` by the ends of the arguments, whatever they are arguments of,
and the client sends the operands of `-isystem`, `-iquote` and `-include` twice, among the include
options and among the kept arguments.  The command line is preserved exactly if none of this is met
(`server_command_iff`).
-/

namespace DistBuild

/-- `CmdLineIncludeDirs::cnvt_to_cmd_line_args`. -/
def CmdLineIncludeDirs.cnvtToCmdLineArgs (dirs : CmdLineIncludeDirs) : List Str :=
  dirs.dashI.map (str "-I" ++ ·)
    ++ dirs.dashIquote.flatMap (fun d => [str "-iquote", d])
    ++ dirs.dashIsystem.flatMap (fun d => [str "-isystem", d])
    ++ dirs.dashInclude.flatMap (fun d => [str "-include", d])

namespace CmdLine

/-! ## The client sends -/

/-- What a `ClientSessionStartRequest` says of the compiler call. -/
structure CallRequest where
  clientWorkingDir : Str
  clientCompiler : Str
  clientCmdLineArgs : List Str
  clientIdirs : List Str
  clientSourceFile : Str
deriving DecidableEq, Repr

/-- The request of `Client::connect_to_server`. -/
def CompilerCall.callRequest (call : CompilerCall) : CallRequest where
  clientWorkingDir := call.currentWorkingDir
  clientCompiler := call.compilerType
  clientCmdLineArgs := call.cmdLineArgs
  clientIdirs := call.cmdLineIncludeDirs.cnvtToCmdLineArgs
  clientSourceFile := call.inputSrcFile

/-! ## The server rebuilds -/

/-- `ObjectStorage::OBJ_STORE_PATH`. -/
def objStorePath : Str := str "/tmp/distbuild/obj_store"

def generateObjFilePath (outObjDir clientId sessionId : Str) : Str :=
  outObjDir ++ str "/" ++ clientId ++ str "_" ++ sessionId ++ str ".o"

/-- The loop over `compiler_idirs`; `none` reads past its end. -/
def serverIdirs (idirsDir : Str) : List Str → Option (List Str)
  | [] => some []
  | arg :: rest =>
    if arg.startsWith (str "-I") then
      (serverIdirs idirsDir rest).map
        ((str "-I" ++ cnvtClientToServerPath idirsDir (arg.drop 2)) :: ·)
    else
      match rest with
      | [] => none
      | next :: rest =>
        (serverIdirs idirsDir rest).map (arg :: cnvtClientToServerPath idirsDir next :: ·)

/-- The loop over `compiler_cmd_line_args`. -/
def serverArgs (idirsDir : Str) : List Str → List Str
  | [] => []
  | arg :: rest =>
    if isSrcFile arg then serverArgs idirsDir rest
    else if arg.endsWith (str "-o") then
      match rest with
      | [] => []
      | _ :: rest => serverArgs idirsDir rest
    else if arg.startsWith (str "/") then
      cnvtClientToServerPath idirsDir arg :: serverArgs idirsDir rest
    else arg :: serverArgs idirsDir rest

/-- What the session keeps of its call. -/
structure ServerCall where
  currentWorkingDir : Str
  cmdLineArgs : List Str
deriving DecidableEq, Repr

/-- A path argument is put under the workspace. -/
def mapPath (workspace arg : Str) : Str :=
  if arg.startsWith (str "/") then cnvtClientToServerPath workspace arg else arg

/-- `ServerSession::preprocess_compiler_call`. -/
def preprocessCompilerCall (workspace clientId sessionId : Str) (rqst : CallRequest) :
    Option ServerCall :=
  let fixedInSrcFile := mapPath workspace rqst.clientSourceFile
  let outObjFile := generateObjFilePath objStorePath clientId sessionId
  (serverIdirs workspace rqst.clientIdirs).map fun idirs =>
    { currentWorkingDir := cnvtClientToServerPath workspace rqst.clientWorkingDir
      cmdLineArgs := idirs ++ serverArgs workspace rqst.clientCmdLineArgs
        ++ [fixedInSrcFile, str "-o", outObjFile] }

/-! ## What should be preserved -/

namespace CallArg

/-- What the server should make of an option: nothing of the source file and the `-o` pair, and of
everything else the same, its paths under the workspace. -/
def expected (workspace dir source : Str) : CallArg → List Str
  | dashI [] => [str "-I"]
  | dashI path => [str "-I" ++ cnvtClientToServerPath workspace (getAbsPath dir path)]
  | operand opt next =>
    match opt with
    | .output => []
    | .isystem | .iquote | .includeFile =>
      [opt.text, cnvtClientToServerPath workspace (opt.kept dir next)]
    | .mf | .mt | .mq => [opt.text, mapPath workspace (opt.kept dir next)]
  | word arg _ => if arg = source then [] else [mapPath workspace arg]

/-- The option is an include option of the kind of `opt`, or of `-I` if there is none. -/
def isInclude (kind : Option OperandOption) : CallArg → Bool
  | dashI _ => kind == none
  | operand opt _ => kind == some opt && [.isystem, .iquote, .includeFile].contains opt
  | word _ _ => false

/-- Nothing about the option misleads the server. -/
def Plain (dir source : Str) : CallArg → Prop
  | dashI path => path ≠ []
  | operand opt next =>
    match opt with
    | .output => True
    | .isystem | .iquote | .includeFile => False
    | .mf | .mt | .mq =>
      (opt.kept dir next).endsWith (str "-o") = false ∧ isSrcFile (opt.kept dir next) = false
  | word arg _ => arg.endsWith (str "-o") = false ∧ (isSrcFile arg = true ↔ arg = source)

instance (dir source : Str) (tok : CallArg) : Decidable (tok.Plain dir source) := by
  unfold Plain
  cases tok with
  | dashI path => infer_instance
  | operand opt next => cases opt <;> infer_instance
  | word arg h => infer_instance

end CallArg

/-- **The server's arguments are the client's**: each of them once, then the source and the object
file, and the include options of each kind in their order. -/
structure PreservesCommandLine (workspace dir source objFile : Str) (toks : List CallArg)
    (args : List Str) : Prop where
  once : args.Perm (toks.flatMap (CallArg.expected workspace dir source)
    ++ [mapPath workspace source, str "-o", objFile])
  order : ∀ kind, ((toks.filter (CallArg.isInclude kind)).flatMap
    (CallArg.expected workspace dir source)).Sublist args

/-! ## The include options -/

variable {workspace dir source : Str}

theorem serverIdirs_cons_dashI {arg : Str} (hI : arg.startsWith (str "-I") = true)
    (rest : List Str) :
    serverIdirs workspace (arg :: rest) = (serverIdirs workspace rest).map
      ((str "-I" ++ cnvtClientToServerPath workspace (arg.drop 2)) :: ·) := by
  rw [serverIdirs.eq_def]
  simp only [if_pos hI]

theorem serverIdirs_cons_operand {arg : Str} (hI : arg.startsWith (str "-I") = false) (next : Str)
    (rest : List Str) :
    serverIdirs workspace (arg :: next :: rest) = (serverIdirs workspace rest).map
      (arg :: cnvtClientToServerPath workspace next :: ·) := by
  rw [serverIdirs.eq_def]
  simp only [if_neg (Bool.eq_false_iff.mp hI)]

theorem serverIdirs_dashI (ds rest : List Str) :
    serverIdirs workspace (ds.map (str "-I" ++ ·) ++ rest)
      = (serverIdirs workspace rest).map
          (ds.map (fun d => str "-I" ++ cnvtClientToServerPath workspace d) ++ ·) := by
  induction ds with
  | nil => simp
  | cons d ds ih =>
    rw [List.map_cons, List.cons_append,
      serverIdirs_cons_dashI (Str.startsWith_iff.mpr (List.prefix_append ..)), ih, Option.map_map]
    rfl

theorem serverIdirs_operand {opt : Str} (hopt : opt.startsWith (str "-I") = false)
    (ds rest : List Str) :
    serverIdirs workspace (ds.flatMap (fun d => [opt, d]) ++ rest)
      = (serverIdirs workspace rest).map
          (ds.flatMap (fun d => [opt, cnvtClientToServerPath workspace d]) ++ ·) := by
  induction ds with
  | nil => simp
  | cons d ds ih =>
    rw [List.flatMap_cons, List.append_assoc]
    show serverIdirs workspace (opt :: d :: (_ ++ rest)) = _
    rw [serverIdirs_cons_operand hopt, ih, Option.map_map]
    rfl

/-- What the server makes of the include options of a kind. -/
def CallArg.sent (workspace dir : Str) (kind : Option OperandOption) (tok : CallArg) : List Str :=
  if tok.isInclude kind then
    match tok with
    | dashI path => [str "-I" ++ cnvtClientToServerPath workspace (getAbsPath dir path)]
    | operand opt next => [opt.text, cnvtClientToServerPath workspace (opt.kept dir next)]
    | word _ _ => []
  else []

/-- The options of the command line after the include options. -/
def CallArg.others (workspace dir source : Str) : CallArg → List Str
  | dashI _ => []
  | operand opt next =>
    match opt with
    | .mf | .mt | .mq => [opt.text, mapPath workspace (opt.kept dir next)]
    | _ => []
  | word arg _ => if arg = source then [] else [mapPath workspace arg]

theorem CallArg.others_dep {opt : OperandOption} (h : opt ∈ [OperandOption.mf, .mt, .mq])
    (next : Str) :
    CallArg.others workspace dir source (.operand opt next)
      = [opt.text, mapPath workspace (opt.kept dir next)] := by
  cases opt <;> first | rfl | exact absurd h (by decide)

theorem CallArg.others_of_not_dep {opt : OperandOption}
    (h : opt ∉ [OperandOption.mf, .mt, .mq]) (next : Str) :
    CallArg.others workspace dir source (.operand opt next) = [] := by
  cases opt <;> first | rfl | exact absurd (by decide) h

theorem flatMap_sent_dashI (toks : List CallArg) :
    toks.flatMap (CallArg.sent workspace dir none)
      = (toks.filterMap (CallArg.dashIPath dir)).map
          fun d => str "-I" ++ cnvtClientToServerPath workspace d := by
  induction toks with
  | nil => rfl
  | cons tok toks ih =>
    cases tok <;>
      simp [ih, CallArg.sent, CallArg.isInclude, CallArg.dashIPath, List.filterMap_cons]

theorem flatMap_sent_operand {opt : OperandOption}
    (hopt : [OperandOption.isystem, .iquote, .includeFile].contains opt = true)
    (toks : List CallArg) :
    toks.flatMap (CallArg.sent workspace dir (some opt))
      = (toks.filterMap (CallArg.operandOf dir opt)).flatMap
          fun d => [opt.text, cnvtClientToServerPath workspace d] := by
  induction toks with
  | nil => rfl
  | cons tok toks ih =>
    rw [List.flatMap_cons, ih]
    cases tok with
    | dashI path => rfl
    | operand opt' next =>
      by_cases h : opt' = opt
      · subst h
        simp [CallArg.sent, CallArg.isInclude, CallArg.operandOf, hopt, -List.contains_eq_mem]
      · have h' : (some opt == some opt') = false := by simpa using Ne.symm h
        simp [CallArg.sent, CallArg.isInclude, CallArg.operandOf, h, h']
    | word arg h => rfl

/-- **The include options arrive**, kind by kind. -/
theorem serverIdirs_cnvt (toks : List CallArg) :
    serverIdirs workspace (dirsOf dir toks).cnvtToCmdLineArgs
      = some (toks.flatMap (CallArg.sent workspace dir none)
        ++ (toks.flatMap (CallArg.sent workspace dir (some .iquote))
        ++ (toks.flatMap (CallArg.sent workspace dir (some .isystem))
        ++ toks.flatMap (CallArg.sent workspace dir (some .includeFile))))) := by
  have hlast : serverIdirs workspace
      ((dirsOf dir toks).dashInclude.flatMap fun d => [str "-include", d]) = _ :=
    List.append_nil ((dirsOf dir toks).dashInclude.flatMap _) ▸
      serverIdirs_operand (by decide) (dirsOf dir toks).dashInclude []
  rw [CmdLineIncludeDirs.cnvtToCmdLineArgs, List.append_assoc, List.append_assoc,
    serverIdirs_dashI, serverIdirs_operand (by decide), serverIdirs_operand (by decide), hlast,
    flatMap_sent_dashI, flatMap_sent_operand (by decide), flatMap_sent_operand (by decide),
    flatMap_sent_operand (by decide)]
  simp only [serverIdirs, Option.map_some, List.append_nil]
  rfl

/-- What should be made of the include options of a kind. -/
def CallArg.expectedInclude (workspace dir source : Str) (kind : Option OperandOption)
    (tok : CallArg) : List Str :=
  if tok.isInclude kind then tok.expected workspace dir source else []

theorem flatMap_filter_isInclude (kind : Option OperandOption) (toks : List CallArg) :
    (toks.filter (CallArg.isInclude kind)).flatMap (CallArg.expected workspace dir source)
      = toks.flatMap (CallArg.expectedInclude workspace dir source kind) := by
  induction toks with
  | nil => rfl
  | cons tok toks ih =>
    by_cases h : tok.isInclude kind = true
    · simp [h, ih, CallArg.expectedInclude]
    · simp [h, ih, CallArg.expectedInclude]

/-- An option is an include option of one of the four kinds, or another one. -/
theorem CallArg.expected_eq (workspace dir source : Str) (tok : CallArg) :
    tok.expected workspace dir source
      = tok.expectedInclude workspace dir source none
        ++ (tok.expectedInclude workspace dir source (some .iquote)
        ++ (tok.expectedInclude workspace dir source (some .isystem)
        ++ (tok.expectedInclude workspace dir source (some .includeFile)
        ++ tok.others workspace dir source))) := by
  cases tok with
  | dashI path => simp [CallArg.expectedInclude, CallArg.isInclude, CallArg.others]
  | operand opt next =>
    cases opt <;>
      simp [CallArg.expectedInclude, CallArg.isInclude, CallArg.others, CallArg.expected]
  | word arg h =>
    simp [CallArg.expectedInclude, CallArg.isInclude, CallArg.others, CallArg.expected]

/-- What should be preserved, sorted by kind. -/
theorem perm_expected (toks : List CallArg) :
    (toks.flatMap (CallArg.expected workspace dir source)).Perm
      (toks.flatMap (CallArg.expectedInclude workspace dir source none)
        ++ (toks.flatMap (CallArg.expectedInclude workspace dir source (some .iquote))
        ++ (toks.flatMap (CallArg.expectedInclude workspace dir source (some .isystem))
        ++ (toks.flatMap (CallArg.expectedInclude workspace dir source (some .includeFile))
        ++ toks.flatMap (CallArg.others workspace dir source))))) := by
  rw [funext (CallArg.expected_eq workspace dir source)]
  refine ((List.flatMap_append_perm ..).symm).trans (List.Perm.append_left _ ?_)
  refine ((List.flatMap_append_perm ..).symm).trans (List.Perm.append_left _ ?_)
  refine ((List.flatMap_append_perm ..).symm).trans (List.Perm.append_left _ ?_)
  exact (List.flatMap_append_perm ..).symm

/-- Only an `-I` option without its directory arrives as something else. -/
theorem CallArg.sent_operand (source : Str) (opt : OperandOption) (tok : CallArg) :
    tok.sent workspace dir (some opt) = tok.expectedInclude workspace dir source (some opt) := by
  cases tok with
  | dashI path => rfl
  | operand opt' next =>
    cases opt' <;> cases opt <;> rfl
  | word arg h => rfl

theorem CallArg.sent_dashI (source : Str) {tok : CallArg} (h : tok ≠ .dashI []) :
    tok.sent workspace dir none = tok.expectedInclude workspace dir source none := by
  cases tok with
  | dashI path =>
    cases path with
    | nil => exact absurd rfl h
    | cons c path => rfl
  | operand opt next => rfl
  | word arg h => rfl

/-! ## The loop over the arguments -/

theorem serverArgs_src {arg : Str} (h : isSrcFile arg = true) (rest : List Str) :
    serverArgs workspace (arg :: rest) = serverArgs workspace rest := by
  rw [serverArgs.eq_def]
  simp only [h, if_true]

theorem serverArgs_dashO {arg : Str} (h : isSrcFile arg = false)
    (ho : arg.endsWith (str "-o") = true) (rest : List Str) :
    serverArgs workspace (arg :: rest) = serverArgs workspace rest.tail := by
  rw [serverArgs.eq_def]
  simp only [h, ho, Bool.false_eq_true, if_false, if_true]
  cases rest <;> rfl

theorem serverArgs_other {arg : Str} (h : isSrcFile arg = false)
    (ho : arg.endsWith (str "-o") = false) (rest : List Str) :
    serverArgs workspace (arg :: rest) = mapPath workspace arg :: serverArgs workspace rest := by
  rw [serverArgs.eq_def]
  simp only [h, ho, Bool.false_eq_true, if_false, mapPath]
  split_ifs <;> rfl

/-- Whatever an argument is, at most its follower is lost with it. -/
theorem serverArgs_cons (workspace arg : Str) (rest : List Str) :
    serverArgs workspace (arg :: rest) = serverArgs workspace rest
      ∨ serverArgs workspace (arg :: rest) = serverArgs workspace rest.tail
      ∨ serverArgs workspace (arg :: rest)
        = mapPath workspace arg :: serverArgs workspace rest := by
  cases h : isSrcFile arg with
  | true => exact Or.inl (serverArgs_src h rest)
  | false =>
    cases ho : arg.endsWith (str "-o") with
    | true => exact Or.inr (Or.inl (serverArgs_dashO h ho rest))
    | false => exact Or.inr (Or.inr (serverArgs_other h ho rest))

theorem serverArgs_text {opt : OperandOption} (h : opt ≠ .output) (rest : List Str) :
    serverArgs workspace (opt.text :: rest) = opt.text :: serverArgs workspace rest := by
  have htext : isSrcFile opt.text = false ∧ opt.text.endsWith (str "-o") = false
      ∧ opt.text.startsWith (str "/") = false := by
    cases opt <;> first | exact absurd rfl h | decide
  rw [serverArgs_other htext.1 htext.2.1, mapPath, htext.2.2, if_neg Bool.false_ne_true]

theorem serverArgs_output (next : Str) (rest : List Str) :
    serverArgs workspace (OperandOption.output.text :: next :: rest) = serverArgs workspace rest :=
  serverArgs_dashO (by decide) (by decide) _

/-- The server tells the argument by its end. -/
def Misleads (arg : Str) : Bool := isSrcFile arg || arg.endsWith (str "-o")

theorem misleads_eq_false {arg : Str} :
    Misleads arg = false ↔ isSrcFile arg = false ∧ arg.endsWith (str "-o") = false := by
  simp [Misleads]

/-- Mapping a path keeps its end. -/
theorem endsWith_cnvtClientToServerPath {suf : Str} (hsuf : slash ∉ suf) (path : Str) :
    (cnvtClientToServerPath workspace path).endsWith suf = path.endsWith suf := by
  unfold cnvtClientToServerPath
  split_ifs
  · rfl
  · rw [Bool.eq_iff_iff, Str.endsWith_iff, Str.endsWith_iff,
      suffix_join_iff hsuf (isAbsolute_relativePath path), suffix_relativePath_iff hsuf]

theorem misleads_mapPath (arg : Str) : Misleads (mapPath workspace arg) = Misleads arg := by
  unfold mapPath
  split_ifs
  · simp only [Misleads, isSrcFile]
    rw [endsWith_cnvtClientToServerPath (by decide), endsWith_cnvtClientToServerPath (by decide),
      endsWith_cnvtClientToServerPath (by decide), endsWith_cnvtClientToServerPath (by decide),
      endsWith_cnvtClientToServerPath (by decide)]
  · rfl

/-- No argument the server keeps ends like a source file or `-o`. -/
theorem misleads_of_mem_serverArgs {args : List Str} {x : Str}
    (h : x ∈ serverArgs workspace args) : Misleads x = false := by
  induction args using serverArgs.induct with
  | case1 => cases h
  | case2 arg rest hsrc ih =>
    rw [serverArgs_src hsrc] at h
    exact ih h
  | case3 arg hsrc ho =>
    rw [serverArgs_dashO (Bool.eq_false_iff.mpr hsrc) ho] at h
    cases h
  | case4 arg hsrc ho next rest ih =>
    rw [serverArgs_dashO (Bool.eq_false_iff.mpr hsrc) ho] at h
    exact ih h
  | case5 arg rest hsrc ho habs ih =>
    rw [serverArgs_other (Bool.eq_false_iff.mpr hsrc) (Bool.eq_false_iff.mpr ho)] at h
    rcases List.mem_cons.mp h with rfl | h
    · rw [misleads_mapPath, misleads_eq_false]
      exact ⟨Bool.eq_false_iff.mpr hsrc, Bool.eq_false_iff.mpr ho⟩
    · exact ih h
  | case6 arg rest hsrc ho habs ih =>
    rw [serverArgs_other (Bool.eq_false_iff.mpr hsrc) (Bool.eq_false_iff.mpr ho)] at h
    rcases List.mem_cons.mp h with rfl | h
    · rw [misleads_mapPath, misleads_eq_false]
      exact ⟨Bool.eq_false_iff.mpr hsrc, Bool.eq_false_iff.mpr ho⟩
    · exact ih h

/-! ## Counting -/

section

variable {q : Str → Bool}

/-- Some arguments are met as operands of `-MF`, `-MT` and `-MQ` only, and such ones are not
lost. -/
structure OnlyOperands (workspace : Str) (q : Str → Bool) : Prop where
  kept : ∀ x, q x = true → Misleads x = false
  word : ∀ arg : Str, arg.startsWith (str "-I") = false → OperandOption.ofArg arg = none →
    q (mapPath workspace arg) = false
  text : ∀ opt ∈ [OperandOption.mf, .mt, .mq], q opt.text = false

/-- What is counted in the rest, and in the rest after a follower, is counted in all. -/
theorem countP_serverArgs_cons (arg : Str) {rest : List Str} {n : ℕ}
    (h : n ≤ (serverArgs workspace rest).countP q)
    (htail : n ≤ (serverArgs workspace rest.tail).countP q) :
    n ≤ (serverArgs workspace (arg :: rest)).countP q := by
  rcases serverArgs_cons workspace arg rest with he | he | he
  · rw [he]
    exact h
  · rw [he]
    exact htail
  · rw [he, List.countP_cons]
    omega

/-- The operand of `-MF`, `-MT` or `-MQ` is kept, or is not counted. -/
theorem OnlyOperands.countP_operand (hq : OnlyOperands workspace q) (arg : Str) {rest : List Str}
    {n : ℕ} (h : n ≤ (serverArgs workspace rest).countP q)
    (htail : n ≤ (serverArgs workspace rest.tail).countP q) :
    [mapPath workspace arg].countP q + n ≤ (serverArgs workspace (arg :: rest)).countP q := by
  cases hm : Misleads arg with
  | true =>
    have hqa : q (mapPath workspace arg) = false := by
      by_contra hne
      have := hq.kept _ (Bool.not_eq_false _ ▸ hne)
      rw [misleads_mapPath, hm] at this
      cases this
    simpa [hqa] using countP_serverArgs_cons arg h htail
  | false =>
    obtain ⟨hsrc, ho⟩ := misleads_eq_false.mp hm
    rw [serverArgs_other hsrc ho]
    simp only [List.countP_cons, List.countP_nil]
    omega

theorem OnlyOperands.others_word (hq : OnlyOperands workspace q) (dir source : Str) {arg : Str}
    (h : arg.startsWith (str "-I") = false ∧ OperandOption.ofArg arg = none) :
    (CallArg.others workspace dir source (.word arg h)).countP q = 0 := by
  show (if arg = source then [] else [mapPath workspace arg]).countP q = 0
  split_ifs
  · rfl
  · simp [hq.word arg h.1 h.2]

/-- **What is met as an operand only is not lost**, whether the loop is in step or one ahead. -/
theorem OnlyOperands.countP_others_le (hq : OnlyOperands workspace q) (dir source : Str)
    (toks : List CallArg) :
    (toks.flatMap (CallArg.others workspace dir source)).countP q
        ≤ (serverArgs workspace (toks.flatMap (CallArg.kept dir))).countP q
      ∧ (toks.flatMap (CallArg.others workspace dir source)).countP q
        ≤ (serverArgs workspace (toks.flatMap (CallArg.kept dir)).tail).countP q := by
  induction toks with
  | nil => exact ⟨Nat.zero_le _, Nat.zero_le _⟩
  | cons tok toks ih =>
    simp only [List.flatMap_cons, List.countP_append]
    cases tok with
    | dashI path => simpa [CallArg.others, CallArg.kept] using ih
    | word arg h =>
      rw [hq.others_word dir source h, Nat.zero_add]
      exact ⟨countP_serverArgs_cons _ ih.1 ih.2, ih.1⟩
    | operand opt next =>
      show _ ≤ (serverArgs workspace
          (opt.text :: opt.kept dir next :: toks.flatMap (CallArg.kept dir))).countP q
        ∧ _ ≤ (serverArgs workspace
          (opt.kept dir next :: toks.flatMap (CallArg.kept dir))).countP q
      by_cases hopt : opt ∈ [OperandOption.mf, .mt, .mq]
      · have hnext := hq.countP_operand (opt.kept dir next) ih.1 ih.2
        rw [CallArg.others_dep hopt, serverArgs_text (by rintro rfl; exact absurd hopt (by decide))]
        have hqtext := hq.text opt hopt
        simp only [List.countP_cons, List.countP_nil, hqtext, Bool.false_eq_true, if_false]
          at hnext ⊢
        omega
      · rw [CallArg.others_of_not_dep hopt, List.countP_nil, Nat.zero_add]
        have hnext := countP_serverArgs_cons (opt.kept dir next) ih.1 ih.2
        exact ⟨countP_serverArgs_cons _ hnext ih.1, hnext⟩

end

/-! ## An `-I` option without its directory -/

theorem isAbsolute_of_startsWith {p : Str} (h : p.startsWith (str "/") = true) :
    isAbsolute p = true := by
  obtain ⟨p', rfl⟩ := Str.startsWith_iff.mp h
  rfl

theorem isAbsolute_workspaceOf (client : ClientId) : isAbsolute (workspaceOf client) = true :=
  isAbsolute_join (by decide)

theorem isAbsolute_cnvtClientToServerPath {path : Str} (hw : isAbsolute workspace = true)
    (hp : isAbsolute path = true) : isAbsolute (cnvtClientToServerPath workspace path) = true := by
  unfold cnvtClientToServerPath
  split_ifs
  · exact hp
  · exact isAbsolute_join hw

/-- A directory given with a final separator keeps it. -/
theorem getLast?_cnvtClientToServerPath {path : Str} (hw : workspace ≠ [])
    (hp : path.getLast? = some slash) :
    (cnvtClientToServerPath workspace path).getLast? = some slash := by
  have hrel : relativePath path = [] ∨ (relativePath path).getLast? = some slash := by
    by_cases hnil : relativePath path = []
    · exact Or.inl hnil
    · obtain ⟨root, hroot⟩ : relativePath path <:+ path := List.dropWhile_suffix _
      rw [← hroot, List.getLast?_append_of_ne_nil root hnil] at hp
      exact Or.inr hp
  unfold cnvtClientToServerPath
  split_ifs
  · exact hp
  · rw [join, isAbsolute_relativePath, if_neg Bool.false_ne_true]
    rcases hrel with hnil | hlast
    · rw [hnil]
      split_ifs with hdir
      · simpa [hw] using hdir
      · exact List.getLast?_concat ..
    · have hne : relativePath path ≠ [] := by
        rintro hnil
        rw [hnil] at hlast
        cases hlast
      split_ifs
      · rw [List.getLast?_append_of_ne_nil workspace hne, hlast]
      · rw [← List.singleton_append, ← List.append_assoc,
          List.getLast?_append_of_ne_nil _ hne, hlast]

theorem endsWith_of_getLast? {arg suf : Str} (h : arg.getLast? = some slash) (hne : suf ≠ [])
    (hsuf : suf.getLast? ≠ some slash) : arg.endsWith suf = false := by
  refine Bool.eq_false_iff.mpr fun hends => ?_
  obtain ⟨pre, rfl⟩ := Str.endsWith_iff.mp hends
  rw [List.getLast?_append_of_ne_nil pre hne] at h
  exact hsuf h

/-- What ends with a separator does not mislead. -/
theorem misleads_of_getLast? {arg : Str} (h : arg.getLast? = some slash) :
    Misleads arg = false := by
  unfold Misleads isSrcFile
  rw [endsWith_of_getLast? h (by decide) (by decide),
    endsWith_of_getLast? h (by decide) (by decide),
    endsWith_of_getLast? h (by decide) (by decide), endsWith_of_getLast? h (by decide) (by decide),
    endsWith_of_getLast? h (by decide) (by decide)]
  rfl

/-- The argument the server is sent for an `-I` option without its directory. -/
def bareDashI (workspace dir : Str) : Str :=
  str "-I" ++ cnvtClientToServerPath workspace (getAbsPath dir [])

theorem count_bareDashI (source : Str) (toks : List CallArg)
    (hne : bareDashI workspace dir ≠ str "-I") :
    (toks.flatMap (CallArg.sent workspace dir none)).count (bareDashI workspace dir)
      = (toks.flatMap (CallArg.expectedInclude workspace dir source none)).count
          (bareDashI workspace dir) + toks.count (.dashI []) := by
  induction toks with
  | nil => rfl
  | cons tok toks ih =>
    simp only [List.flatMap_cons, List.count_append, ih, List.count_cons]
    by_cases h : tok = .dashI []
    · subst h
      have hsent : CallArg.sent workspace dir none (.dashI []) = [bareDashI workspace dir] := rfl
      have hexp : CallArg.expectedInclude workspace dir source none (.dashI []) = [str "-I"] := rfl
      rw [hsent, hexp, List.count_singleton_self, List.count_singleton]
      simp [Ne.symm hne]
      omega
    · rw [CallArg.sent_dashI source h]
      simp [h]
      omega

/-- A mapped argument is absolute, or as it was. -/
theorem mapPath_cases (hw : isAbsolute workspace = true) (arg : Str) :
    isAbsolute (mapPath workspace arg) = true ∨ mapPath workspace arg = arg := by
  unfold mapPath
  split_ifs with h
  · exact Or.inl (isAbsolute_cnvtClientToServerPath hw (isAbsolute_of_startsWith h))
  · exact Or.inr rfl

theorem bareDashI_startsWith : (bareDashI workspace dir).startsWith (str "-I") = true :=
  Str.startsWith_iff.mpr (List.prefix_append ..)

theorem bareDashI_getLast? (dir : Str) (hw : workspace ≠ []) :
    (bareDashI workspace dir).getLast? = some slash := by
  have hpath : (getAbsPath dir []).getLast? = some slash := by
    simp [getAbsPath, Str.startsWith, str]
  have hlast := getLast?_cnvtClientToServerPath hw hpath
  have hne : cnvtClientToServerPath workspace (getAbsPath dir []) ≠ [] := by
    intro hnil
    rw [hnil] at hlast
    cases hlast
  rw [bareDashI, List.getLast?_append_of_ne_nil _ hne, hlast]

theorem onlyOperands_bareDashI (dir : Str) (hw : isAbsolute workspace = true) :
    OnlyOperands workspace (· == bareDashI workspace dir) where
  kept x hx := by
    obtain rfl := beq_iff_eq.mp hx
    exact misleads_of_getLast? (bareDashI_getLast? dir (ne_nil_of_isAbsolute hw))
  word arg hI hopt := by
    refine beq_eq_false_iff_ne.mpr fun heq => ?_
    rcases mapPath_cases hw arg with h | h
    · rw [heq] at h
      cases h
    · rw [← h, heq, bareDashI_startsWith] at hI
      cases hI
  text opt hopt := by
    refine beq_eq_false_iff_ne.mpr fun heq => ?_
    have hI : opt.text.startsWith (str "-I") = true := heq ▸ bareDashI_startsWith
    fin_cases hopt <;> exact absurd hI (by decide)

/-- The names of the include options with an operand. -/
def includeNames : List Str := [str "-isystem", str "-iquote", str "-include"]

theorem onlyOperands_includeNames (hw : isAbsolute workspace = true) :
    OnlyOperands workspace includeNames.contains where
  kept x hx := by
    have hx : x ∈ includeNames := by simpa using hx
    fin_cases hx <;> decide
  word arg hI hopt := by
    refine Bool.eq_false_iff.mpr fun hmem => ?_
    have hmem : mapPath workspace arg ∈ includeNames := by simpa using hmem
    rcases mapPath_cases hw arg with h | h
    · generalize mapPath workspace arg = x at h hmem
      fin_cases hmem <;> exact absurd h (by decide)
    · rw [h] at hmem
      fin_cases hmem <;> exact absurd hopt (by decide)
  text opt hopt := by
    fin_cases hopt <;> decide

/-- An argument that does not end like `-o` keeps the loop in step. -/
theorem countP_le_serverArgs_cons {q : Str → Bool} {arg : Str} (rest : List Str)
    (ho : arg.endsWith (str "-o") = false) :
    (serverArgs workspace rest).countP q ≤ (serverArgs workspace (arg :: rest)).countP q := by
  cases h : isSrcFile arg with
  | true => rw [serverArgs_src h]
  | false =>
    rw [serverArgs_other h ho, List.countP_cons]
    exact Nat.le_add_right ..

/-- **An include option with an operand is met once too often.** -/
theorem countP_includeNames_lt (hw : isAbsolute workspace = true) {toks : List CallArg}
    (hothers : ∀ x ∈ toks.flatMap (CallArg.others workspace dir source), Misleads x = false)
    (hsource : source.endsWith (str "-o") = false)
    (hex : ∃ opt next, CallArg.operand opt next ∈ toks
      ∧ opt ∈ [OperandOption.isystem, .iquote, .includeFile]) :
    (toks.flatMap (CallArg.others workspace dir source)).countP includeNames.contains
      < (serverArgs workspace (toks.flatMap (CallArg.kept dir))).countP includeNames.contains := by
  induction toks with
  | nil =>
    obtain ⟨opt, next, hmem, -⟩ := hex
    cases hmem
  | cons tok toks ih =>
    have hq := onlyOperands_includeNames hw
    obtain ⟨opt, next, hmem, hopt⟩ := hex
    simp only [List.flatMap_cons, List.mem_append] at hothers
    simp only [List.flatMap_cons, List.countP_append]
    have ih := ih fun x hx => hothers x (Or.inr hx)
    cases tok with
    | dashI path =>
      have hmem : CallArg.operand opt next ∈ toks := by simpa using hmem
      simpa [CallArg.others, CallArg.kept] using ih ⟨opt, next, hmem, hopt⟩
    | word arg h =>
      have hmem : CallArg.operand opt next ∈ toks := by simpa using hmem
      have ho : arg.endsWith (str "-o") = false := by
        by_cases harg : arg = source
        · rw [harg, hsource]
        · have hx := hothers (mapPath workspace arg) (Or.inl (by simp [CallArg.others, harg]))
          rw [misleads_mapPath] at hx
          exact (misleads_eq_false.mp hx).2
      have hzero := hq.others_word dir source h
      calc _ = (toks.flatMap
              (CallArg.others workspace dir source)).countP includeNames.contains := by
            rw [hzero, Nat.zero_add]
        _ < _ := ih ⟨opt, next, hmem, hopt⟩
        _ ≤ _ := countP_le_serverArgs_cons _ ho
    | operand opt' next' =>
      show _ < (serverArgs workspace
        (opt'.text :: opt'.kept dir next' :: toks.flatMap (CallArg.kept dir))).countP _
      have hle := hq.countP_others_le dir source toks
      by_cases hincl : opt' ∈ [OperandOption.isystem, .iquote, .includeFile]
      · have hrest := countP_serverArgs_cons (opt'.kept dir next') hle.1 hle.2
        have hname : includeNames.contains opt'.text = true := by
          fin_cases hincl <;> decide
        rw [serverArgs_text (by rintro rfl; exact absurd hincl (by decide)),
          CallArg.others_of_not_dep (by fin_cases hincl <;> decide), List.countP_cons, if_pos hname]
        simp only [List.countP_nil]
        omega
      · have hmem : CallArg.operand opt next ∈ toks := by
          rcases List.mem_cons.mp hmem with heq | hmem
          · cases heq
            exact absurd hopt hincl
          · exact hmem
        have ih := ih ⟨opt, next, hmem, hopt⟩
        by_cases hout : opt' = .output
        · subst hout
          rw [serverArgs_output]
          simpa [CallArg.others] using ih
        · have hdep : opt' ∈ [OperandOption.mf, .mt, .mq] := by
            cases opt' <;> first | exact absurd rfl hout | exact absurd (by decide) hincl | decide
          rw [CallArg.others_dep hdep] at hothers ⊢
          have hx := hothers (mapPath workspace (opt'.kept dir next')) (Or.inl (by simp))
          rw [misleads_mapPath, misleads_eq_false] at hx
          rw [serverArgs_text hout, serverArgs_other hx.1 hx.2]
          simp only [List.countP_cons, List.countP_nil]
          omega

/-! ## In step -/

/-- The arguments of an option that the loop keeps when it is in step. -/
def CallArg.met (workspace dir source : Str) : CallArg → List Str
  | word arg _ => if arg = source ∧ isSrcFile arg = true then [] else [mapPath workspace arg]
  | tok => tok.others workspace dir source

/-- The options leave the loop in step: no include option with an operand, and nothing that ends
like `-o`. -/
structure InStep (workspace dir source : Str) (toks : List CallArg) : Prop where
  others : ∀ tok ∈ toks, ∀ x ∈ tok.others workspace dir source, Misleads x = false
  source : source.endsWith (str "-o") = false
  noIncludes : ∀ opt next, CallArg.operand opt next ∈ toks →
    opt ∉ [OperandOption.isystem, .iquote, .includeFile]

theorem InStep.tail {tok : CallArg} {toks : List CallArg}
    (h : InStep workspace dir source (tok :: toks)) : InStep workspace dir source toks where
  others tok htok := h.others tok (List.mem_cons_of_mem _ htok)
  source := h.source
  noIncludes opt next hmem := h.noIncludes opt next (List.mem_cons_of_mem _ hmem)

/-- **In step the loop drops the source file and the `-o` pair**, if the source file has its
suffix. -/
theorem InStep.serverArgs_eq {toks : List CallArg} (h : InStep workspace dir source toks) :
    serverArgs workspace (toks.flatMap (CallArg.kept dir))
      = toks.flatMap (CallArg.met workspace dir source) := by
  induction toks with
  | nil => rfl
  | cons tok toks ih =>
    have hfirst := h.others tok List.mem_cons_self
    rw [List.flatMap_cons, List.flatMap_cons, ← ih h.tail]
    cases tok with
    | dashI path => rfl
    | word arg hw =>
      show serverArgs workspace (arg :: _)
        = (if arg = source ∧ isSrcFile arg = true then [] else [mapPath workspace arg]) ++ _
      cases hsrc : isSrcFile arg with
      | true =>
        have harg : arg = source := by
          by_contra hne
          have hx := hfirst (mapPath workspace arg) (by simp [CallArg.others, hne])
          rw [misleads_mapPath, misleads_eq_false, hsrc] at hx
          cases hx.1
        rw [serverArgs_src hsrc, if_pos ⟨harg, rfl⟩]
        rfl
      | false =>
        have ho : arg.endsWith (str "-o") = false := by
          by_cases harg : arg = source
          · rw [harg, h.source]
          · have hx := hfirst (mapPath workspace arg) (by simp [CallArg.others, harg])
            rw [misleads_mapPath] at hx
            exact (misleads_eq_false.mp hx).2
        rw [serverArgs_other hsrc ho, if_neg (by simp)]
        rfl
    | operand opt next =>
      have hincl := h.noIncludes opt next List.mem_cons_self
      show serverArgs workspace (opt.text :: opt.kept dir next :: _)
        = CallArg.others workspace dir source (.operand opt next) ++ _
      by_cases hout : opt = .output
      · subst hout
        rw [serverArgs_output]
        rfl
      · have hdep : opt ∈ [OperandOption.mf, .mt, .mq] := by
          cases opt <;> first | exact absurd rfl hout | exact absurd (by decide) hincl | decide
        rw [CallArg.others_dep hdep] at hfirst ⊢
        have hx := hfirst (mapPath workspace (opt.kept dir next)) (by simp)
        rw [misleads_mapPath, misleads_eq_false] at hx
        rw [serverArgs_text hout, serverArgs_other hx.1 hx.2]
        rfl

theorem CallArg.length_others_le (tok : CallArg) :
    (tok.others workspace dir source).length ≤ (tok.met workspace dir source).length := by
  cases tok with
  | dashI path => exact le_rfl
  | operand opt next => exact le_rfl
  | word arg h =>
    show (if arg = source then [] else [mapPath workspace arg]).length
      ≤ (if arg = source ∧ isSrcFile arg = true then [] else [mapPath workspace arg]).length
    by_cases harg : arg = source
    · rw [if_pos harg]
      exact Nat.zero_le _
    · rw [if_neg harg, if_neg fun hand => harg hand.1]

/-- A source file without its suffix is met once too often. -/
theorem length_others_lt (workspace dir : Str) {toks : List CallArg} {arg : Str} {h}
    (hmem : CallArg.word arg h ∈ toks) (harg : arg = source) (hsrc : isSrcFile arg = false) :
    (toks.flatMap (CallArg.others workspace dir source)).length
      < (toks.flatMap (CallArg.met workspace dir source)).length := by
  rw [List.length_flatMap, List.length_flatMap]
  refine List.sum_lt_sum _ _ (fun tok _ => tok.length_others_le) ⟨_, hmem, ?_⟩
  show (if arg = source then [] else [mapPath workspace arg]).length
    < (if arg = source ∧ isSrcFile arg = true then [] else [mapPath workspace arg]).length
  rw [if_pos harg, if_neg (by simp [hsrc])]
  exact Nat.one_pos

theorem CallArg.plain_dep (workspace : Str) {opt : OperandOption}
    (h : opt ∈ [OperandOption.mf, .mt, .mq]) (next : Str) :
    (CallArg.operand opt next).Plain dir source
      ↔ Misleads (mapPath workspace (opt.kept dir next)) = false := by
  rw [misleads_mapPath, misleads_eq_false, and_comm]
  cases opt <;> first | rfl | exact absurd h (by decide)

theorem CallArg.plain_word {arg : Str} {h} : (CallArg.word arg h).Plain dir source
    ↔ arg.endsWith (str "-o") = false ∧ (isSrcFile arg = true ↔ arg = source) := Iff.rfl

/-- Every option is plain, as the loops see it. -/
theorem plain_iff (workspace : Str) {toks : List CallArg}
    (hsource : source.endsWith (str "-o") = false) :
    (∀ tok ∈ toks, tok.Plain dir source)
      ↔ CallArg.dashI [] ∉ toks ∧ InStep workspace dir source toks
        ∧ ∀ arg h, CallArg.word arg h ∈ toks → arg = source → isSrcFile arg = true := by
  constructor
  · intro hplain
    refine ⟨fun hmem => hplain _ hmem rfl, ⟨fun tok htok x hx => ?_, hsource, ?_⟩,
      fun arg h hmem harg => (CallArg.plain_word.mp (hplain _ hmem)).2.mpr harg⟩
    · have htok := hplain tok htok
      cases tok with
      | dashI path => cases hx
      | operand opt next =>
        by_cases hdep : opt ∈ [OperandOption.mf, .mt, .mq]
        · rw [CallArg.others_dep hdep] at hx
          rcases List.mem_pair.mp hx with rfl | rfl
          · fin_cases hdep <;> decide
          · exact (CallArg.plain_dep workspace hdep next).mp htok
        · rw [CallArg.others_of_not_dep hdep] at hx
          cases hx
      | word arg h =>
        obtain ⟨ho, hsrc⟩ := CallArg.plain_word.mp htok
        have hx : x ∈ if arg = source then [] else [mapPath workspace arg] := hx
        split_ifs at hx with harg
        · cases hx
        · obtain rfl := List.mem_singleton.mp hx
          rw [misleads_mapPath, misleads_eq_false]
          exact ⟨Bool.eq_false_iff.mpr fun h => harg (hsrc.mp h), ho⟩
    · intro opt next hmem hopt
      have := hplain _ hmem
      fin_cases hopt <;> exact this
  · rintro ⟨hbare, hstep, hsrc⟩ tok htok
    have hothers := hstep.others tok htok
    cases tok with
    | dashI path =>
      rintro rfl
      exact hbare htok
    | operand opt next =>
      by_cases hdep : opt ∈ [OperandOption.mf, .mt, .mq]
      · rw [CallArg.others_dep hdep] at hothers
        exact (CallArg.plain_dep workspace hdep next).mpr (hothers _ (by simp))
      · have hincl := hstep.noIncludes opt next htok
        cases opt <;>
          first | exact trivial | exact absurd (by decide) hincl | exact absurd (by decide) hdep
    | word arg h =>
      by_cases harg : arg = source
      · exact ⟨harg ▸ hsource, iff_of_true (hsrc arg h htok harg) harg⟩
      · have hx := hothers (mapPath workspace arg) (by simp [CallArg.others, harg])
        rw [misleads_mapPath, misleads_eq_false] at hx
        exact ⟨hx.2, iff_of_false (by simp [hx.1]) harg⟩

/-- **The server's arguments are preserved exactly if nothing misleads it.** -/
theorem perm_iff_plain (hw : isAbsolute workspace = true)
    (hsource : source.endsWith (str "-o") = false) (toks : List CallArg) :
    (toks.flatMap (CallArg.sent workspace dir none)
        ++ serverArgs workspace (toks.flatMap (CallArg.kept dir))).Perm
      (toks.flatMap (CallArg.expectedInclude workspace dir source none)
        ++ toks.flatMap (CallArg.others workspace dir source))
      ↔ ∀ tok ∈ toks, tok.Plain dir source := by
  rw [plain_iff workspace hsource]
  have hsent : CallArg.dashI [] ∉ toks → toks.flatMap (CallArg.sent workspace dir none)
      = toks.flatMap (CallArg.expectedInclude workspace dir source none) := fun hbare =>
    List.flatMap_congr fun tok htok => CallArg.sent_dashI source (by rintro rfl; exact hbare htok)
  constructor
  · intro hperm
    have hbare : CallArg.dashI [] ∉ toks := by
      have hle := ((onlyOperands_bareDashI dir hw).countP_others_le dir source toks).1
      have hne : bareDashI workspace dir ≠ str "-I" := by
        intro heq
        have hlast := bareDashI_getLast? dir (ne_nil_of_isAbsolute hw)
        rw [heq] at hlast
        exact absurd hlast (by decide)
      have hcount := hperm.count_eq (bareDashI workspace dir)
      rw [List.count_append, List.count_append, count_bareDashI source toks hne] at hcount
      refine List.count_eq_zero.mp ?_
      simp only [List.count] at hcount ⊢
      omega
    rw [hsent hbare, List.perm_append_left_iff] at hperm
    have hmem' : ∀ x ∈ toks.flatMap (CallArg.others workspace dir source), Misleads x = false :=
      fun x hx => misleads_of_mem_serverArgs (hperm.mem_iff.mpr hx)
    have hothers : ∀ tok ∈ toks, ∀ x ∈ tok.others workspace dir source, Misleads x = false :=
      fun tok htok x hx => hmem' x (List.mem_flatMap.mpr ⟨tok, htok, hx⟩)
    have hstep : InStep workspace dir source toks :=
      { others := hothers
        source := hsource
        noIncludes := fun opt next hmem hopt => by
          have hlt := countP_includeNames_lt hw hmem' hsource ⟨opt, next, hmem, hopt⟩
          rw [hperm.countP_eq] at hlt
          exact lt_irrefl _ hlt }
    refine ⟨hbare, hstep, fun arg h hmem harg => ?_⟩
    by_contra hsrc
    have hlt := length_others_lt workspace dir hmem harg (Bool.eq_false_iff.mpr hsrc)
    rw [← hstep.serverArgs_eq, hperm.length_eq] at hlt
    exact lt_irrefl _ hlt
  · rintro ⟨hbare, hstep, hsrc⟩
    rw [hsent hbare, hstep.serverArgs_eq]
    refine List.Perm.of_eq ?_
    congr 1
    refine List.flatMap_congr fun tok htok => ?_
    cases tok with
    | dashI path => rfl
    | operand opt next => rfl
    | word arg h =>
      show (if arg = source ∧ isSrcFile arg = true then [] else [mapPath workspace arg])
        = if arg = source then [] else [mapPath workspace arg]
      by_cases harg : arg = source
      · rw [if_pos harg, if_pos ⟨harg, hsrc arg h htok harg⟩]
      · rw [if_neg harg, if_neg fun hand => harg hand.1]

/-! ## Which command lines are preserved -/

theorem getLast?_of_endsWith {x suf : Str} (hne : suf ≠ []) (h : x.endsWith suf = true) :
    x.getLast? = suf.getLast? := by
  obtain ⟨pre, rfl⟩ := Str.endsWith_iff.mp h
  exact List.getLast?_append_of_ne_nil pre hne

/-- A source or header file does not end like `-o`. -/
theorem not_dashO_of_hasSource {call : CompilerCall} (h : call.HasSource) :
    call.inputSrcFile.endsWith (str "-o") = false := by
  refine Bool.eq_false_iff.mpr fun ho => ?_
  have hlast := getLast?_of_endsWith (by decide) ho
  have hother : ∀ suf ∈ [str ".c", str ".cc", str ".cpp", str ".cxx", str ".h", str ".hpp",
      str ".hh", str ".inc", str ".hxx"], suf ≠ [] ∧ suf.getLast? ≠ (str "-o").getLast? := by
    decide
  have hsuf : ∀ suf ∈ [str ".c", str ".cc", str ".cpp", str ".cxx", str ".h", str ".hpp", str ".hh",
      str ".inc", str ".hxx"], call.inputSrcFile.endsWith suf = true → False :=
    fun suf hmem hends => (hother suf hmem).2
      ((getLast?_of_endsWith (hother suf hmem).1 hends).symm.trans hlast)
  rcases h with h | h | h
  · rw [h] at hlast
    cases hlast
  · simp only [isSrcFile, Bool.or_eq_true] at h
    rcases h with ((h | h) | h) | h
    all_goals exact hsuf _ (by decide) h
  · simp only [isHeaderFile, Bool.or_eq_true] at h
    rcases h with (((h | h) | h) | h) | h
    all_goals exact hsuf _ (by decide) h

/-- The server's arguments against what they should be: all but `-I` options and the other arguments
is the same on both sides. -/
theorem once_iff (toks : List CallArg) (rest tail : List Str) :
    (toks.flatMap (CallArg.sent workspace dir none)
        ++ (toks.flatMap (CallArg.sent workspace dir (some .iquote))
        ++ (toks.flatMap (CallArg.sent workspace dir (some .isystem))
        ++ toks.flatMap (CallArg.sent workspace dir (some .includeFile)))) ++ rest ++ tail).Perm
      (toks.flatMap (CallArg.expected workspace dir source) ++ tail)
      ↔ (toks.flatMap (CallArg.sent workspace dir none) ++ rest).Perm
        (toks.flatMap (CallArg.expectedInclude workspace dir source none)
          ++ toks.flatMap (CallArg.others workspace dir source)) := by
  rw [List.perm_append_right_iff, (perm_expected toks).congr_right]
  simp only [funext (CallArg.sent_operand source _), List.perm_iff_count, List.count_append]
  refine forall_congr' fun x => ?_
  omega

/-- Plain options keep the order of the include options. -/
theorem order_of_plain {toks : List CallArg} {rest : List Str}
    (hplain : ∀ tok ∈ toks, tok.Plain dir source) (kind : Option OperandOption) :
    ((toks.filter (CallArg.isInclude kind)).flatMap (CallArg.expected workspace dir source)).Sublist
      (toks.flatMap (CallArg.sent workspace dir none) ++ rest) := by
  rw [flatMap_filter_isInclude]
  cases kind with
  | none =>
    have hsent : toks.flatMap (CallArg.expectedInclude workspace dir source none)
        = toks.flatMap (CallArg.sent workspace dir none) :=
      List.flatMap_congr fun tok htok => (CallArg.sent_dashI source (by
        rintro rfl
        exact hplain _ htok rfl)).symm
    rw [hsent]
    exact List.sublist_append_left ..
  | some opt =>
    have hnil : toks.flatMap (CallArg.expectedInclude workspace dir source (some opt)) = [] := by
      refine List.flatMap_eq_nil_iff.mpr fun tok htok => ?_
      have htok := hplain tok htok
      cases tok with
      | dashI path => rfl
      | operand opt' next => cases opt' <;> first | exact htok.elim | cases opt <;> rfl
      | word arg h => rfl
    rw [hnil]
    exact List.nil_sublist _

/-- **The server's command line is the client's exactly if every option is plain.** -/
theorem server_command_iff (memory : DepFilesState) (dir : Str) (cmdLine : List Str)
    (client : ClientId) (clientId : Str) (sessionId : SessionId)
    (h : ((CompilerCall.new memory).initializeCompilerCall dir cmdLine).2.compilerCallType
      = .compile) :
    let call := ((CompilerCall.new memory).initializeCompilerCall dir cmdLine).2
    (∃ server, preprocessCompilerCall (workspaceOf client) clientId sessionId call.callRequest
          = some server
        ∧ PreservesCommandLine (workspaceOf client) dir call.inputSrcFile
          (generateObjFilePath objStorePath clientId sessionId) (options cmdLine)
          server.cmdLineArgs)
      ↔ ∀ tok ∈ options cmdLine, tok.Plain dir call.inputSrcFile := by
  intro call
  obtain ⟨-, hread⟩ := CompilerCall.initialize_read (Or.inr h)
  have hw := isAbsolute_workspaceOf client
  have hsource : call.inputSrcFile.endsWith (str "-o") = false :=
    not_dashO_of_hasSource hread.source
  have hidirs : serverIdirs (workspaceOf client) call.callRequest.clientIdirs = some _ :=
    (congrArg (fun dirs => serverIdirs _ (CmdLineIncludeDirs.cnvtToCmdLineArgs dirs))
      hread.cmdLineIncludeDirs).trans (serverIdirs_cnvt (options cmdLine))
  have hargs : call.callRequest.clientCmdLineArgs
      = (options cmdLine).flatMap (CallArg.kept dir) := hread.cmdLineArgs
  rw [preprocessCompilerCall, hidirs, hargs, Option.map_some]
  constructor
  · rintro ⟨server, heq, hpres⟩
    obtain rfl := Option.some.inj heq
    exact (perm_iff_plain hw hsource _).mp ((once_iff _ _ _).mp hpres.once)
  · intro hplain
    refine ⟨_, rfl, (once_iff _ _ _).mpr ((perm_iff_plain hw hsource _).mpr hplain), fun kind => ?_⟩
    simp only [List.append_assoc]
    exact order_of_plain hplain kind

/-! ## An include directory is met twice -/

/-- A compilation with nothing to mislead the server. -/
def plainCompile : List Str :=
  [str "/usr/bin/g++", str "-Iinc", str "-O2", str "-MF", str "a.d", str "-c", str "/s/a.cpp",
    str "-o", str "a.o"]

/-- Its command line arrives. -/
theorem server_command_plain :
    ∃ server, preprocessCompilerCall (workspaceOf (str "c")) (str "c") (str "s")
        ((CompilerCall.new ⟨false, false, false, [], []⟩).initializeCompilerCall (str "/w")
          plainCompile).2.callRequest = some server
      ∧ PreservesCommandLine (workspaceOf (str "c")) (str "/w")
        ((CompilerCall.new ⟨false, false, false, [], []⟩).initializeCompilerCall (str "/w")
          plainCompile).2.inputSrcFile
        (generateObjFilePath objStorePath (str "c") (str "s")) (options plainCompile)
        server.cmdLineArgs :=
  (server_command_iff ⟨false, false, false, [], []⟩ (str "/w") plainCompile (str "c") (str "c")
    (str "s") (by decide)).mpr (by decide)

/-- A directory of `-isystem` is given to the server's compiler twice. -/
theorem server_command_repeats_isystem :
    ¬ ∀ (memory : DepFilesState) (dir : Str) (cmdLine : List Str) (client : ClientId)
      (clientId : Str) (sessionId : SessionId),
      ((CompilerCall.new memory).initializeCompilerCall dir cmdLine).2.compilerCallType = .compile →
        ∃ server, preprocessCompilerCall (workspaceOf client) clientId sessionId
            ((CompilerCall.new memory).initializeCompilerCall dir cmdLine).2.callRequest
              = some server
          ∧ PreservesCommandLine (workspaceOf client) dir
            ((CompilerCall.new memory).initializeCompilerCall dir cmdLine).2.inputSrcFile
            (generateObjFilePath objStorePath clientId sessionId) (options cmdLine)
            server.cmdLineArgs := by
  intro h
  obtain ⟨server, heq, hpres⟩ := h ⟨false, false, false, [], []⟩ (str "/w")
    [str "/usr/bin/g++", str "-isystem", str "/s", str "-c", str "a.cpp", str "-o", str "a.o"]
    (str "c") (str "c") (str "s") (by decide)
  have hlen := hpres.once.length_eq
  have hserver : (preprocessCompilerCall (workspaceOf (str "c")) (str "c") (str "s")
      ((CompilerCall.new ⟨false, false, false, [], []⟩).initializeCompilerCall (str "/w")
        [str "/usr/bin/g++", str "-isystem", str "/s", str "-c", str "a.cpp", str "-o",
          str "a.o"]).2.callRequest).map (fun server => server.cmdLineArgs.length) = some 8 := by
    decide +kernel
  rw [heq, Option.map_some, Option.some.injEq] at hserver
  rw [hserver] at hlen
  exact absurd hlen (by decide +kernel)

end CmdLine

end DistBuild
