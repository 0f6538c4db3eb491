import DistBuild.Client.Dispatch
import DistBuild.Server.CommandLine
import DistBuild.Server.IncludeLookup

/-!
# Server/SourceSpelling — a relative source path, and the same path made absolute

    request (d, … p …)    hashed: daemon/p  uploaded: /p   compiled: map d / p  stored: W/p
    request (d, … d/p …)  hashed: d/p       uploaded: d/p  compiled: map (d/p)  stored: map (d/p)

Nobody makes the source path absolute, so four places read it from four directories.  Where a
relative path leads depends on the directory only above the levels it leads up (`AgreeAbove`), and
that decides whether the two spellings agree (`spellings_agree_iff`).
-/

namespace DistBuild

namespace CmdLine

/-- The argument, with the relative source path `p` made absolute. -/
def respell (dir p arg : Str) : Str := if arg = p then dir ++ str "/" ++ p else arg

/-- The request a command line leads to. -/
def requestFor (memory : DepFilesState) (dir : Str) (cmdLine : List Str) : CallRequest :=
  ((CompilerCall.new memory).initializeCompilerCall dir cmdLine).2.callRequest

/-- The file `connect_to_server` hashes as the source, for a daemon in `daemonDir`. -/
def CallRequest.hashedFile (daemonDir : Str) (rqst : CallRequest) : Str :=
  join daemonDir rqst.clientSourceFile

/-- The file `_send_required_file` sends as the source: the name the server asks for. -/
def CallRequest.uploadedFile (daemonDir workspace : Str) (rqst : CallRequest) : Str :=
  join daemonDir (cnvtServerToClientPath workspace
    (cnvtClientToServerPath workspace rqst.clientSourceFile))

/-- The source operand the server gives to the compiler denotes the file where the upload of the
source is stored. -/
def CallRequest.CompilesUpload (workspace clientId sessionId : Str) (rqst : CallRequest) : Prop :=
  ∃ call args operand objFile,
    preprocessCompilerCall workspace clientId sessionId rqst = some call
      ∧ call.cmdLineArgs = args ++ [operand, str "-o", objFile]
      ∧ SameFile (join call.currentWorkingDir operand)
        (cnvtClientToServerPath workspace rqst.clientSourceFile)

/-- Two requests lead to one source file. -/
structure OneSource (daemonDir clientId sessionId : Str) (rqst rqst' : CallRequest) : Prop where
  hashed : SameFile (rqst.hashedFile daemonDir) (rqst'.hashedFile daemonDir)
  uploaded : SameFile (rqst.uploadedFile daemonDir (workspaceOf clientId))
    (rqst'.uploadedFile daemonDir (workspaceOf clientId))
  same : SameFile (rqst'.hashedFile daemonDir)
    (rqst'.uploadedFile daemonDir (workspaceOf clientId))
  compiled : rqst.CompilesUpload (workspaceOf clientId) clientId sessionId
  compiled' : rqst'.CompilesUpload (workspaceOf clientId) clientId sessionId

/-- Above as many levels as `p` leads up, the two directories are the same. -/
def AgreeAbove (dir dir' p : Str) : Prop :=
  (normalized dir).take ((normalized dir).length - (lexicallyNormal (components p)).up)
    = (normalized dir').take ((normalized dir').length - (lexicallyNormal (components p)).up)

instance (dir dir' p : Str) : Decidable (AgreeAbove dir dir' p) :=
  inferInstanceAs (Decidable (_ = _))

/-! ## The source of a command line -/

/-- The arguments that are recorded as the source file, in their order. -/
def sourcesRead (args : List Str) : List Str :=
  ((readOptions args).1.filterMap CallArg.source)

/-- **The source is the last argument that names one**, whether or not an operand is missing. -/
theorem readArgs_source (dir : Str) (args : List Str) (call : CompilerCall) :
    (CompilerCall.readArgs dir args call).2.inputSrcFile
        = (sourcesRead args).getLast?.getD call.inputSrcFile
      ∧ (CompilerCall.readArgs dir args call).2.currentWorkingDir = call.currentWorkingDir := by
  have hsource := CompilerCall.foldl_take_last dir (readOptions args).1 call
    CompilerCall.inputSrcFile CallArg.source fun call tok =>
      CompilerCall.take_inputSrcFile dir call tok
  have hdir := CompilerCall.foldl_take_currentWorkingDir dir (readOptions args).1 call
  rw [CompilerCall.readArgs_eq]
  cases (readOptions args).2 with
  | none => exact ⟨hsource, hdir⟩
  | some arg => exact ⟨hsource, hdir⟩

/-- The source of a request, and its working directory. -/
theorem requestFor_fields (memory : DepFilesState) (dir compiler : Str) (args : List Str) :
    (requestFor memory dir (compiler :: args)).clientSourceFile
        = (if compiler ∈ supportedCompilers then (sourcesRead args).getLast?.getD [] else [])
      ∧ (requestFor memory dir (compiler :: args)).clientWorkingDir = dir := by
  rw [requestFor, CompilerCall.initializeCompilerCall]
  split_ifs with hc
  · obtain ⟨hsource, hdir⟩ := readArgs_source dir args
      { CompilerCall.new memory with currentWorkingDir := dir, compilerType := compiler }
    dsimp only
    cases hr : CompilerCall.readArgs dir args
      { CompilerCall.new memory with currentWorkingDir := dir, compilerType := compiler } with
    | mk ok call =>
      rw [hr] at hsource hdir
      cases ok with
      | false => exact ⟨hsource, hdir⟩
      | true =>
        obtain ⟨-, -, hframe, hframe'⟩ := CompilerCall.classify_frame call
        exact ⟨hframe'.trans hsource, hframe.trans hdir⟩
  · exact ⟨rfl, rfl⟩

section

/-- A path that is recorded as the source file. -/
def IsSource (p : Str) : Prop :=
  p.startsWith (str "-") = false ∧ (isSrcFile p || isHeaderFile p) = true

theorem source_word_of_isSource {arg : Str} (harg : IsSource arg) (h) :
    (CallArg.word arg h).source = some arg := by
  rw [CallArg.source, CallArg.positional, harg.1, if_neg Bool.false_ne_true, Option.filter_some,
    if_pos harg.2]

theorem eq_of_source_word {arg p : Str} {h} (hp : (CallArg.word arg h).source = some p) :
    p = arg ∧ IsSource arg := by
  obtain ⟨hpos, hsuf⟩ := Option.filter_eq_some_iff.mp hp
  rw [CallArg.positional] at hpos
  split_ifs at hpos with hdash
  obtain rfl := Option.some.inj hpos
  exact ⟨rfl, Bool.eq_false_of_not_eq_true hdash, hsuf⟩

theorem isSource_of_mem {args : List Str} {p : Str} (h : p ∈ sourcesRead args) : IsSource p := by
  obtain ⟨tok, -, htok⟩ := List.mem_filterMap.mp h
  cases tok with
  | dashI path => cases htok
  | operand opt next => cases htok
  | word arg _ =>
    obtain ⟨rfl, hsource⟩ := eq_of_source_word htok
    exact hsource

variable {dir p : Str}

/-- The absolute spelling names a source file too. -/
theorem IsSource.respelt (h : IsSource p) (hd : isAbsolute dir = true) :
    IsSource (dir ++ str "/" ++ p) := by
  obtain ⟨dir', rfl⟩ := isAbsolute_iff.mp hd
  refine ⟨rfl, ?_⟩
  have hsuf : ∀ suf, p.endsWith suf = true →
      Str.endsWith (slash :: dir' ++ str "/" ++ p) suf = true := fun suf hsuf =>
    Str.endsWith_iff.mpr ((Str.endsWith_iff.mp hsuf).trans (List.suffix_append ..))
  have h := h.2
  simp only [isSrcFile, isHeaderFile, Bool.or_eq_true] at h ⊢
  exact h.imp (Or.imp (Or.imp (Or.imp (hsuf _) (hsuf _)) (hsuf _)) (hsuf _))
    (Or.imp (Or.imp (Or.imp (Or.imp (hsuf _) (hsuf _)) (hsuf _)) (hsuf _)) (hsuf _))

/-- An option is not the source path. -/
theorem respell_of_dash {arg : Str} (h : IsSource p) (harg : arg.startsWith (str "-") = true) :
    respell dir p arg = arg := by
  refine if_neg ?_
  rintro rfl
  exact Bool.eq_false_iff.mp h.1 harg

theorem startsWith_dash_of_dashI {arg : Str} (hI : arg.startsWith (str "-I") = true) :
    arg.startsWith (str "-") = true := by
  have hpre : str "-" <+: str "-I" := by decide
  exact Str.startsWith_iff.mpr (hpre.trans (Str.startsWith_iff.mp hI))

theorem startsWith_dash_of_ofArg {arg : Str} {opt : OperandOption}
    (hopt : OperandOption.ofArg arg = some opt) : arg.startsWith (str "-") = true := by
  rw [OperandOption.text_of_ofArg hopt]
  cases opt <;> decide

/-- A path that is recorded as the source file is no option. -/
theorem IsSource.not_option (h : IsSource p) :
    p.startsWith (str "-I") = false ∧ OperandOption.ofArg p = none := by
  constructor
  · exact Bool.eq_false_of_not_eq_true fun hI =>
      Bool.eq_false_iff.mp h.1 (startsWith_dash_of_dashI hI)
  · exact Option.eq_none_iff_forall_ne_some.mpr fun opt hopt =>
      Bool.eq_false_iff.mp h.1 (startsWith_dash_of_ofArg hopt)

/-- **Respelling a command line respells its sources.** -/
theorem sourcesRead_respell (h : IsSource p) (hd : isAbsolute dir = true) (args : List Str) :
    sourcesRead (args.map (respell dir p)) = (sourcesRead args).map (respell dir p) := by
  induction args using readOptions.induct with
  | case1 => rfl
  | case2 arg rest hI ih =>
    rw [List.map_cons, respell_of_dash h (startsWith_dash_of_dashI hI), sourcesRead,
      readOptions_dashI hI, sourcesRead, readOptions_dashI hI]
    exact ih
  | case3 arg rest hI hopt ih =>
    rw [sourcesRead, sourcesRead, List.map_cons,
      readOptions_word (Bool.eq_false_iff.mpr hI) hopt]
    by_cases harg : arg = p
    · subst harg
      have hq := h.respelt hd
      rw [respell, if_pos rfl, readOptions_word hq.not_option.1 hq.not_option.2]
      show List.filterMap CallArg.source (_ :: _) = (List.filterMap CallArg.source (_ :: _)).map _
      rw [List.filterMap_cons_some (source_word_of_isSource hq _),
        List.filterMap_cons_some (source_word_of_isSource h _), List.map_cons, respell, if_pos rfl]
      exact congrArg _ ih
    · rw [respell, if_neg harg, readOptions_word (Bool.eq_false_iff.mpr hI) hopt]
      show List.filterMap CallArg.source (_ :: _) = (List.filterMap CallArg.source (_ :: _)).map _
      cases hsource : (CallArg.word arg ⟨Bool.eq_false_iff.mpr hI, hopt⟩).source with
      | none =>
        rw [List.filterMap_cons_none hsource, List.filterMap_cons_none hsource]
        exact ih
      | some q =>
        obtain ⟨rfl, -⟩ := eq_of_source_word hsource
        rw [List.filterMap_cons_some hsource, List.filterMap_cons_some hsource, List.map_cons,
          respell, if_neg harg]
        exact congrArg _ ih
  | case4 arg hI opt hopt =>
    rw [List.map_singleton, respell_of_dash h (startsWith_dash_of_ofArg hopt), sourcesRead,
      readOptions_missing (Bool.eq_false_iff.mpr hI) hopt]
    rfl
  | case5 arg hI opt hopt next rest ih =>
    rw [List.map_cons, List.map_cons, respell_of_dash h (startsWith_dash_of_ofArg hopt),
      sourcesRead, readOptions_operand (Bool.eq_false_iff.mpr hI) hopt, sourcesRead,
      readOptions_operand (Bool.eq_false_iff.mpr hI) hopt]
    exact ih

/-- **The respelt command line has the respelt source.** -/
theorem requestFor_respell {memory : DepFilesState} {args : List Str} (hd : isAbsolute dir = true)
    (hp : isAbsolute p = false) (hne : p ≠ [])
    (hsrc : (requestFor memory dir args).clientSourceFile = p) :
    (requestFor memory dir (args.map (respell dir p))).clientSourceFile = dir ++ str "/" ++ p
      ∧ IsSource p := by
  cases args with
  | nil => exact absurd hsrc.symm hne
  | cons compiler args =>
    rw [(requestFor_fields memory dir compiler args).1] at hsrc
    split_ifs at hsrc with hc
    · have habs : ∀ c ∈ supportedCompilers, isAbsolute c = true := by decide
      have hcompiler : respell dir p compiler = compiler := by
        refine if_neg ?_
        rintro rfl
        exact Bool.eq_false_iff.mp hp (habs _ hc)
      cases hlast : (sourcesRead args).getLast? with
      | none =>
        rw [hlast] at hsrc
        exact absurd hsrc.symm hne
      | some q =>
        rw [hlast, Option.getD_some] at hsrc
        subst hsrc
        have hsource : IsSource q := isSource_of_mem (List.mem_of_getLast? hlast)
        rw [List.map_cons, hcompiler, (requestFor_fields memory dir compiler _).1, if_pos hc,
          sourcesRead_respell hsource hd, List.getLast?_map, hlast, Option.map_some,
          Option.getD_some, respell, if_pos rfl]
        exact ⟨rfl, hsource⟩
    · exact absurd hsrc.symm hne

end

/-! ## Where the two spellings lead -/

section

variable {dir p : Str}

theorem normalized_joined (dir p : Str) :
    normalized (dir ++ str "/" ++ p) = walk (normalized dir) (components p) := by
  have hjoined : dir ++ str "/" ++ p = dir ++ slash :: p := List.append_assoc ..
  rw [hjoined, normalized, components_append_slash, walk_append, normalized]

theorem isAbsolute_joined (hd : isAbsolute dir = true) (p : Str) :
    isAbsolute (dir ++ str "/" ++ p) = true := by
  obtain ⟨dir', rfl⟩ := isAbsolute_iff.mp hd
  rfl

/-- An absolute path leads to the same file from everywhere. -/
theorem join_of_isAbsolute {q : Str} (hq : isAbsolute q = true) (dir : Str) : join dir q = q := by
  rw [join, if_pos hq]

/-- **Where a relative path leads from two directories.** -/
theorem sameFile_join_iff (hp : isAbsolute p = false) (dir dir' : Str) :
    SameFile (join dir p) (join dir' p) ↔ AgreeAbove dir dir' p := by
  rw [SameFile, normalized_join hp, normalized_join hp]
  exact walk_eq_walk_iff ..

theorem sameFile_joined_iff (hp : isAbsolute p = false) (dir dir' : Str) :
    SameFile (join dir' p) (dir ++ str "/" ++ p) ↔ AgreeAbove dir' dir p := by
  rw [SameFile, normalized_joined, ← normalized_join hp]
  exact sameFile_join_iff hp dir' dir

/-- The server asks for a relative path below the root. -/
theorem asked_relative {clientId : ClientId} (hc : PlainComponent clientId)
    (hp : isAbsolute p = false) :
    cnvtServerToClientPath (workspaceOf clientId) (cnvtClientToServerPath (workspaceOf clientId) p)
      = slash :: p := by
  have hsys : isSystemPath p = false := by
    refine Bool.eq_false_of_not_eq_true fun hsys => Bool.eq_false_iff.mp hp ?_
    rcases isSystemPath_iff.mp hsys with ⟨r, rfl⟩ | ⟨r, rfl⟩ | ⟨r, rfl⟩ <;> rfl
  rw [cnvtClientToServerPath_of_not_system hsys, cnvtServerToClientPath_append,
    separator_workspaceOf hc, relativePath_of_not_isAbsolute hp]
  rfl

/-- The server asks for an absolute path as the file it is. -/
theorem asked_absolute {clientId : ClientId} (hc : PlainComponent clientId)
    (hp : isAbsolute p = true) :
    isAbsolute (cnvtServerToClientPath (workspaceOf clientId)
        (cnvtClientToServerPath (workspaceOf clientId) p)) = true
      ∧ SameFile p (cnvtServerToClientPath (workspaceOf clientId)
        (cnvtClientToServerPath (workspaceOf clientId) p)) := by
  cases hsys : isSystemPath p with
  | true =>
    have htail : isAbsolute p.tail = false := by
      rcases isSystemPath_iff.mp hsys with ⟨r, rfl⟩ | ⟨r, rfl⟩ | ⟨r, rfl⟩ <;> rfl
    have hsame := (survivesMapping_iff _ _).mpr ((mapsBack_workspaceOf_iff hc p).mpr ⟨hp, htail⟩)
    rw [SurvivesMapping] at hsame
    rw [hsame]
    exact ⟨hp, rfl⟩
  | false =>
    rw [cnvtClientToServerPath_of_not_system hsys, cnvtServerToClientPath_append,
      separator_workspaceOf hc]
    refine ⟨rfl, ?_⟩
    show walk [] (components p) = walk [] (components (slash :: relativePath p))
    rw [components_cons_slash, components_relativePath]

/-- The include options of a client can be read on the server. -/
theorem serverIdirs_isSome (workspace : Str) (dirs : CmdLineIncludeDirs) :
    (serverIdirs workspace dirs.cnvtToCmdLineArgs).isSome = true := by
  have hlast : ∀ ds : List Str,
      (serverIdirs workspace (ds.flatMap fun d => [str "-include", d])).isSome = true := by
    intro ds
    rw [← List.append_nil (ds.flatMap _), serverIdirs_operand (by decide)]
    rfl
  rw [CmdLineIncludeDirs.cnvtToCmdLineArgs, List.append_assoc, List.append_assoc,
    serverIdirs_dashI, serverIdirs_operand (by decide), serverIdirs_operand (by decide)]
  simp only [Option.isSome_map]
  exact hlast dirs.dashInclude

/-- **What the compiler is given to compile.** -/
theorem compilesUpload_iff (workspace clientId sessionId : Str) (rqst : CallRequest)
    (hidirs : (serverIdirs workspace rqst.clientIdirs).isSome = true) :
    rqst.CompilesUpload workspace clientId sessionId
      ↔ SameFile (join (cnvtClientToServerPath workspace rqst.clientWorkingDir)
          (mapPath workspace rqst.clientSourceFile))
        (cnvtClientToServerPath workspace rqst.clientSourceFile) := by
  obtain ⟨idirs, hidirs⟩ := Option.isSome_iff_exists.mp hidirs
  have hcall : preprocessCompilerCall workspace clientId sessionId rqst = some
      { currentWorkingDir := cnvtClientToServerPath workspace rqst.clientWorkingDir
        cmdLineArgs := idirs ++ serverArgs workspace rqst.clientCmdLineArgs
          ++ [mapPath workspace rqst.clientSourceFile, str "-o",
            generateObjFilePath objStorePath clientId sessionId] } := by
    rw [preprocessCompilerCall, hidirs]
    rfl
  constructor
  · rintro ⟨call, args, operand, objFile, h, hargs, hsame⟩
    obtain rfl := Option.some.inj (hcall.symm.trans h)
    obtain ⟨-, htail⟩ := List.append_inj' hargs rfl
    obtain rfl : mapPath workspace rqst.clientSourceFile = operand := (List.cons.inj htail).1
    exact hsame
  · exact fun hsame => ⟨_, _, _, _, hcall, rfl, hsame⟩

/-- The working directory of a request. -/
theorem requestFor_clientWorkingDir (memory : DepFilesState) (dir : Str) (cmdLine : List Str) :
    (requestFor memory dir cmdLine).clientWorkingDir = dir := by
  cases cmdLine with
  | nil => rfl
  | cons compiler args => exact (requestFor_fields memory dir compiler args).2

theorem startsWith_slash (p : Str) : p.startsWith (str "/") = isAbsolute p := by
  cases p with
  | nil => rfl
  | cons c p =>
    show (slash == c && true) = (some c == some slash)
    rw [Bool.and_true, Option.some_beq_some, Bool.beq_comm]

/-- A relative source is compiled from the session's directory, and stored in the workspace. -/
theorem compiles_relative_iff {clientId : ClientId} (hp : isAbsolute p = false) :
    SameFile (join (cnvtClientToServerPath (workspaceOf clientId) dir)
        (mapPath (workspaceOf clientId) p)) (cnvtClientToServerPath (workspaceOf clientId) p)
      ↔ AgreeAbove (cnvtClientToServerPath (workspaceOf clientId) dir)
        (workspaceOf clientId) p := by
  have hsys : isSystemPath p = false := by
    refine Bool.eq_false_of_not_eq_true fun hsys => Bool.eq_false_iff.mp hp ?_
    rcases isSystemPath_iff.mp hsys with ⟨r, rfl⟩ | ⟨r, rfl⟩ | ⟨r, rfl⟩ <;> rfl
  have hmap : mapPath (workspaceOf clientId) p = p := by
    rw [mapPath, startsWith_slash, hp]
    exact if_neg Bool.false_ne_true
  have hstored : cnvtClientToServerPath (workspaceOf clientId) p
      = join (workspaceOf clientId) p := by
    rw [cnvtClientToServerPath, hsys, relativePath_of_not_isAbsolute hp]
    exact if_neg Bool.false_ne_true
  rw [hmap, hstored]
  exact sameFile_join_iff hp ..

/-- An absolute source is compiled where it is stored. -/
theorem compiles_absolute (clientId : ClientId) {q : Str} (hq : isAbsolute q = true)
    (sessionDir : Str) :
    SameFile (join sessionDir (mapPath (workspaceOf clientId) q))
      (cnvtClientToServerPath (workspaceOf clientId) q) := by
  have hmap : mapPath (workspaceOf clientId) q
      = cnvtClientToServerPath (workspaceOf clientId) q := by
    rw [mapPath, startsWith_slash, hq]
    exact if_pos rfl
  rw [hmap, join_of_isAbsolute
    (isAbsolute_cnvtClientToServerPath (isAbsolute_workspaceOf clientId) hq)]
  rfl

end

/-- **When the two spellings of a source agree**: from the working directory, the daemon's and the
root the path leads to one place, and so it does from the session's directory and the workspace. -/
theorem spellings_agree_iff {memory : DepFilesState} {daemonDir dir p : Str} {args : List Str}
    {clientId : ClientId} {sessionId : SessionId} (hc : PlainComponent clientId)
    (hd : isAbsolute dir = true) (hp : isAbsolute p = false) (hne : p ≠ [])
    (hsrc : (requestFor memory dir args).clientSourceFile = p) :
    OneSource daemonDir clientId sessionId (requestFor memory dir args)
        (requestFor memory dir (args.map (respell dir p)))
      ↔ AgreeAbove daemonDir dir p ∧ AgreeAbove (str "/") dir p
        ∧ AgreeAbove (cnvtClientToServerPath (workspaceOf clientId) dir) (workspaceOf clientId)
          p := by
  obtain ⟨hsrc', -⟩ := requestFor_respell hd hp hne hsrc
  set rqst := requestFor memory dir args with hrqst
  set rqst' := requestFor memory dir (args.map (respell dir p)) with hrqst'
  have hq := isAbsolute_joined hd p
  obtain ⟨hasked, hsame⟩ := asked_absolute hc hq
  have hhashed : SameFile (rqst.hashedFile daemonDir) (rqst'.hashedFile daemonDir)
      ↔ AgreeAbove daemonDir dir p := by
    rw [CallRequest.hashedFile, CallRequest.hashedFile, hsrc, hsrc', join_of_isAbsolute hq]
    exact sameFile_joined_iff hp dir daemonDir
  have huploaded : SameFile (rqst.uploadedFile daemonDir (workspaceOf clientId))
      (rqst'.uploadedFile daemonDir (workspaceOf clientId)) ↔ AgreeAbove (str "/") dir p := by
    have hroot : slash :: p = join (str "/") p := by
      rw [join_eq hp]
      rfl
    rw [CallRequest.uploadedFile, CallRequest.uploadedFile, hsrc, hsrc', asked_relative hc hp,
      join_of_isAbsolute rfl, join_of_isAbsolute hasked, SameFile, ← hsame, hroot]
    exact sameFile_joined_iff hp dir (str "/")
  have hcompiled : rqst.CompilesUpload (workspaceOf clientId) clientId sessionId
      ↔ AgreeAbove (cnvtClientToServerPath (workspaceOf clientId) dir)
        (workspaceOf clientId) p := by
    rw [compilesUpload_iff _ _ _ _ (serverIdirs_isSome _ _), hsrc,
      requestFor_clientWorkingDir memory dir args]
    exact compiles_relative_iff hp
  constructor
  · exact fun h => ⟨hhashed.mp h.hashed, huploaded.mp h.uploaded, hcompiled.mp h.compiled⟩
  · rintro ⟨hdaemon, hroot, hserver⟩
    refine ⟨hhashed.mpr hdaemon, huploaded.mpr hroot, ?_, hcompiled.mpr hserver, ?_⟩
    · rw [CallRequest.hashedFile, CallRequest.uploadedFile, hsrc', join_of_isAbsolute hq,
        join_of_isAbsolute hasked]
      exact hsame
    · rw [compilesUpload_iff _ _ _ _ (serverIdirs_isSome _ _), hsrc']
      exact compiles_absolute clientId hq _

/-- A daemon in the root, and a request from there. -/
theorem spellings_agree_root :
    OneSource (str "/") (str "c") (str "s")
        (requestFor ⟨false, false, false, [], []⟩ (str "/")
          [str "/usr/bin/g++", str "-c", str "a.cpp", str "-o", str "a.o"])
        (requestFor ⟨false, false, false, [], []⟩ (str "/")
          ([str "/usr/bin/g++", str "-c", str "a.cpp", str "-o", str "a.o"].map
            (respell (str "/") (str "a.cpp")))) :=
  (spellings_agree_iff (by decide) (by decide) (by decide) (by decide) (by decide +kernel)).mpr
    (by decide +kernel)

/-- A relative source is hashed where the daemon is, and compiled where nothing was stored. -/
theorem relative_source_differs :
    ¬ ∀ (memory : DepFilesState) (daemonDir dir p : Str) (args : List Str) (clientId : ClientId)
        (sessionId : SessionId), PlainComponent clientId → isAbsolute dir = true →
      isAbsolute p = false → p ≠ [] → (requestFor memory dir args).clientSourceFile = p →
        OneSource daemonDir clientId sessionId (requestFor memory dir args)
          (requestFor memory dir (args.map (respell dir p))) := by
  intro h
  have hone := h ⟨false, false, false, [], []⟩ (str "/d") (str "/w") (str "a.cpp")
    [str "/usr/bin/g++", str "-c", str "a.cpp", str "-o", str "a.o"] (str "c") (str "s")
    (by decide) (by decide) (by decide) (by decide) (by decide +kernel)
  exact absurd hone.hashed (by decide +kernel)

end CmdLine

end DistBuild
