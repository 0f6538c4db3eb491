import DistBuild.Transport.Messages

/-!
# Transport/Trip — what the peer holds of a message

    m ─SerializeToString─▸ bytes ─ParseFromArray─▸ m, or m up to its first string that is no UTF-8

`receive_msg` does not ask whether the parse went through, so a message whose strings are not all
UTF-8 is handled as it stands when the parse stops (`received`).  What was written is read back as
it was exactly if all its strings are UTF-8 (`client_message_arrives`, `server_message_arrives`).
-/

namespace DistBuild

open Wire

variable (rt : WireRuntime)

/-! ## What is read of what was written

Each line of a `received` is a string: if it is refused, the message on that line is what is read.
-/

def FileInfo.received (m : FileInfo) : Parsed FileInfo :=
  (rt.checked m.filename ⟨m.filename, 0, []⟩).andThen fun _ => .complete m

def SessionStartRequest.received (m : SessionStartRequest) : Parsed SessionStartRequest :=
  (rt.checked m.clientId ⟨m.clientId, [], [], [], [], [], []⟩).andThen fun r =>
  (rt.checked m.clientWorkingDir { r with clientWorkingDir := m.clientWorkingDir }).andThen fun r =>
  (rt.checked m.clientSourceFile { r with clientSourceFile := m.clientSourceFile }).andThen fun r =>
  (rt.checked m.clientCompiler { r with clientCompiler := m.clientCompiler }).andThen fun r =>
  ((collect (fun s => rt.checked s s) m.clientCmdLineArgs).map
    fun ss => { r with clientCmdLineArgs := ss }).andThen fun r =>
  ((collect (fun s => rt.checked s s) m.clientIdirs).map
    fun ss => { r with clientIdirs := ss }).andThen fun r =>
  (collect (FileInfo.received rt) m.requiredFilesInfo).map
    fun is => { r with requiredFilesInfo := is }

def SessionAbort.received (m : SessionAbort) : Parsed SessionAbort :=
  (rt.checked m.sessionId ⟨m.sessionId, []⟩).andThen fun _ =>
  (rt.checked m.clientId m)

def FileChunk.received (m : FileChunk) : Parsed FileChunk :=
  (rt.checked m.sessionId ⟨m.sessionId, [], 0, 0, [], false⟩).andThen fun _ =>
  (rt.checked m.filename ⟨m.sessionId, m.filename, 0, 0, [], false⟩).andThen fun _ =>
  .complete m

def ClientContent.received : ClientContent → Parsed ClientContent
  | .notSet => .complete .notSet
  | .sessionStart m => (m.received rt).map .sessionStart
  | .sessionAbort m => (m.received rt).map .sessionAbort
  | .fileChunkUpload m => (m.received rt).map .fileChunkUpload

def SessionConfirmed.received (m : SessionConfirmed) : Parsed SessionConfirmed :=
  (rt.checked m.sessionId ⟨m.sessionId, []⟩).andThen fun r =>
  (collect (fun s => rt.checked s s) m.requiredFiles).map fun ss => { r with requiredFiles := ss }

def FileUpComplete.received (m : FileUpComplete) : Parsed FileUpComplete :=
  (rt.checked m.sessionId ⟨m.sessionId, [], false⟩).andThen fun _ =>
  (rt.checked m.filename ⟨m.sessionId, m.filename, false⟩).andThen fun _ =>
  .complete m

def AllReqUploadComplete.received (m : AllReqUploadComplete) : Parsed AllReqUploadComplete :=
  rt.checked m.sessionId m

/-- The last three fields come after the two logs. -/
def ObjFileChunk.received (m : ObjFileChunk) : Parsed ObjFileChunk :=
  (rt.checked m.sessionId ⟨m.sessionId, 0, 0, [], [], 0, false, []⟩).andThen fun _ =>
  (rt.checked m.compilerStdout ⟨m.sessionId, m.compilerExitCode, m.compilerCallDuration,
    m.compilerStdout, [], 0, false, []⟩).andThen fun _ =>
  (rt.checked m.compilerStderr ⟨m.sessionId, m.compilerExitCode, m.compilerCallDuration,
    m.compilerStdout, m.compilerStderr, 0, false, []⟩).andThen fun _ =>
  .complete m

def ServerContent.received : ServerContent → Parsed ServerContent
  | .notSet => .complete .notSet
  | .sessionConfirmed m => (m.received rt).map .sessionConfirmed
  | .sessionAbort m => (m.received rt).map .sessionAbort
  | .fileUpComplete m => (m.received rt).map .fileUpComplete
  | .allReqUpComplete m => (m.received rt).map .allReqUpComplete
  | .objFileChunkTransmit m => (m.received rt).map .objFileChunkTransmit

variable {rt}

theorem read_fileInfo {m : FileInfo} (h : (fileInfo rt).byteSize rt m ≤ maxSize) :
    (fileInfo rt).read rt ((fileInfo rt).write rt m) = m.received rt := by
  refine (MessageType.mergeFrom_write (MessageType.honest h) _).trans ?_
  show replay [_, _, _] m ⟨[], 0, []⟩ = _
  rw [replay_stringField, replay_uint64Field, replay_bytesField]
  all_goals rfl

theorem read_sessionAbort {m : SessionAbort} (h : (sessionAbort rt).byteSize rt m ≤ maxSize) :
    (sessionAbort rt).read rt ((sessionAbort rt).write rt m) = m.received rt := by
  refine (MessageType.mergeFrom_write (MessageType.honest h) _).trans ?_
  show replay [_, _] m ⟨[], []⟩ = _
  rw [replay_stringField, replay_stringField]
  · exact congrArg _ (funext fun _ => checked_andThen_self m.clientId m)
  all_goals rfl

theorem read_fileChunk {m : FileChunk}
    (h : (fileChunkUploadRequest rt).byteSize rt m ≤ maxSize) :
    (fileChunkUploadRequest rt).read rt ((fileChunkUploadRequest rt).write rt m)
      = m.received rt := by
  refine (MessageType.mergeFrom_write (MessageType.honest h) _).trans ?_
  show replay [_, _, _, _, _, _] m ⟨[], [], 0, 0, [], false⟩ = _
  rw [replay_stringField, replay_stringField, replay_uint64Field, replay_uint64Field,
    replay_bytesField, replay_boolField]
  all_goals rfl

theorem read_objFileChunk {m : ObjFileChunk}
    (h : (objFileChunkResponse rt).byteSize rt m ≤ maxSize) :
    (objFileChunkResponse rt).read rt ((objFileChunkResponse rt).write rt m) = m.received rt := by
  refine (MessageType.mergeFrom_write (MessageType.honest h) _).trans ?_
  show replay [_, _, _, _, _, _, _, _] m ⟨[], 0, 0, [], [], 0, false, []⟩ = _
  rw [replay_stringField, replay_int32Field, replay_int32Field, replay_stringField,
    replay_stringField, replay_uint64Field, replay_boolField, replay_bytesField]
  all_goals rfl

theorem read_allReqUploadComplete {m : AllReqUploadComplete}
    (h : (allReqUploadCompleteResponse rt).byteSize rt m ≤ maxSize) :
    (allReqUploadCompleteResponse rt).read rt ((allReqUploadCompleteResponse rt).write rt m)
      = m.received rt := by
  refine (MessageType.mergeFrom_write (MessageType.honest h) _).trans ?_
  show replay [_] m ⟨[]⟩ = _
  rw [replay_stringField]
  · exact checked_andThen_self m.sessionId m
  · rfl

theorem read_fileUpComplete {m : FileUpComplete}
    (h : (fileUpCompleteResponse rt).byteSize rt m ≤ maxSize) :
    (fileUpCompleteResponse rt).read rt ((fileUpCompleteResponse rt).write rt m)
      = m.received rt := by
  refine (MessageType.mergeFrom_write (MessageType.honest h) _).trans ?_
  show replay [_, _, _] m ⟨[], [], false⟩ = _
  rw [replay_stringField, replay_stringField, replay_boolField]
  all_goals rfl

theorem read_sessionConfirmed {m : SessionConfirmed}
    (h : (sessionConfirmedResponse rt).byteSize rt m ≤ maxSize) :
    (sessionConfirmedResponse rt).read rt ((sessionConfirmedResponse rt).write rt m)
      = m.received rt := by
  refine (MessageType.mergeFrom_write (MessageType.honest h) _).trans ?_
  show replay [_, _] m ⟨[], []⟩ = _
  rw [replay_stringField, replay_repeatedStringField]
  · refine checked_andThen (collect_map_andThen ?_ |>.trans (Parsed.andThen_complete _))
    rfl
  all_goals intros; rfl

theorem read_sessionStart {m : SessionStartRequest}
    (h : (sessionStartRequest rt).byteSize rt m ≤ maxSize) :
    (sessionStartRequest rt).read rt ((sessionStartRequest rt).write rt m) = m.received rt := by
  have hinfos : ∀ i ∈ m.requiredFilesInfo,
      (fileInfo rt).read rt ((fileInfo rt).write rt i) = i.received rt := by
    intro i hi
    have hfield : 6 < (sessionStartRequest rt).fields.length := by simp [sessionStartRequest]
    exact read_fileInfo (MessageType.embedded_le hfield (List.mem_map_of_mem hi) h)
  refine (MessageType.mergeFrom_write (MessageType.honest h) _).trans ?_
  show replay [_, _, _, _, _, _, _] m ⟨[], [], [], [], [], [], []⟩ = _
  rw [replay_stringField, replay_stringField, replay_stringField, replay_stringField,
    replay_repeatedStringField, replay_repeatedStringField, replay_repeatedMessageField,
    collect_congr hinfos]
  · refine checked_andThen <| checked_andThen <| checked_andThen <| checked_andThen <|
      collect_map_andThen <| collect_map_andThen ?_
    exact Parsed.andThen_complete _
  all_goals intros; rfl

theorem read_clientMessage {m : ClientContent} (h : (clientMessage rt).byteSize rt m ≤ maxSize) :
    (clientMessage rt).read rt ((clientMessage rt).write rt m) = m.received rt := by
  have hlen : (clientMessage rt).fields.length = 3 := rfl
  refine (MessageType.mergeFrom_write (MessageType.honest h) _).trans ?_
  show replay [_, _, _] m .notSet = _
  cases m with
  | notSet => rfl
  | sessionStart r =>
    rw [replay_oneofField_some (i := r), read_sessionStart (MessageType.embedded_le (i := 0)
      (by omega) List.mem_cons_self h)]
    · exact Parsed.andThen_complete _
    all_goals rfl
  | sessionAbort r =>
    rw [replay_oneofField_none, replay_oneofField_some (i := r), read_sessionAbort
      (MessageType.embedded_le (i := 1) (by omega) List.mem_cons_self h)]
    · exact Parsed.andThen_complete _
    all_goals rfl
  | fileChunkUpload r =>
    rw [replay_oneofField_none, replay_oneofField_none, replay_oneofField_some (i := r),
      read_fileChunk (MessageType.embedded_le (i := 2) (by omega) List.mem_cons_self h)]
    · exact Parsed.andThen_complete _
    all_goals rfl

theorem read_serverMessage {m : ServerContent} (h : (serverMessage rt).byteSize rt m ≤ maxSize) :
    (serverMessage rt).read rt ((serverMessage rt).write rt m) = m.received rt := by
  have hlen : (serverMessage rt).fields.length = 5 := rfl
  refine (MessageType.mergeFrom_write (MessageType.honest h) _).trans ?_
  show replay [_, _, _, _, _] m .notSet = _
  cases m with
  | notSet => rfl
  | sessionConfirmed r =>
    rw [replay_oneofField_some (i := r), read_sessionConfirmed
      (MessageType.embedded_le (i := 0) (by omega) List.mem_cons_self h)]
    · exact Parsed.andThen_complete _
    all_goals rfl
  | sessionAbort r =>
    rw [replay_oneofField_none, replay_oneofField_some (i := r), read_sessionAbort
      (MessageType.embedded_le (i := 1) (by omega) List.mem_cons_self h)]
    · exact Parsed.andThen_complete _
    all_goals rfl
  | fileUpComplete r =>
    rw [replay_oneofField_none, replay_oneofField_none, replay_oneofField_some (i := r),
      read_fileUpComplete (MessageType.embedded_le (i := 2) (by omega) List.mem_cons_self h)]
    · exact Parsed.andThen_complete _
    all_goals rfl
  | allReqUpComplete r =>
    rw [replay_oneofField_none, replay_oneofField_none, replay_oneofField_none,
      replay_oneofField_some (i := r), read_allReqUploadComplete
      (MessageType.embedded_le (i := 3) (by omega) List.mem_cons_self h)]
    · exact Parsed.andThen_complete _
    all_goals rfl
  | objFileChunkTransmit r =>
    rw [replay_oneofField_none, replay_oneofField_none, replay_oneofField_none,
      replay_oneofField_none, replay_oneofField_some (i := r), read_objFileChunk
      (MessageType.embedded_le (i := 4) (by omega) List.mem_cons_self h)]
    · exact Parsed.andThen_complete _
    all_goals rfl

/-! ## What arrives as it was -/

variable (rt)

def FileInfo.Utf8 (m : FileInfo) : Prop := rt.verifyUtf8 m.filename = true

structure SessionStartRequest.Utf8 (m : SessionStartRequest) : Prop where
  clientId : rt.verifyUtf8 m.clientId = true
  clientWorkingDir : rt.verifyUtf8 m.clientWorkingDir = true
  clientSourceFile : rt.verifyUtf8 m.clientSourceFile = true
  clientCompiler : rt.verifyUtf8 m.clientCompiler = true
  clientCmdLineArgs : ∀ arg ∈ m.clientCmdLineArgs, rt.verifyUtf8 arg = true
  clientIdirs : ∀ arg ∈ m.clientIdirs, rt.verifyUtf8 arg = true
  requiredFilesInfo : ∀ i ∈ m.requiredFilesInfo, i.Utf8 rt

def SessionAbort.Utf8 (m : SessionAbort) : Prop :=
  rt.verifyUtf8 m.sessionId = true ∧ rt.verifyUtf8 m.clientId = true

def FileChunk.Utf8 (m : FileChunk) : Prop :=
  rt.verifyUtf8 m.sessionId = true ∧ rt.verifyUtf8 m.filename = true

/-- Every string of the message is UTF-8; what is declared as bytes may be anything. -/
def ClientContent.Utf8 : ClientContent → Prop
  | .notSet => True
  | .sessionStart m => m.Utf8 rt
  | .sessionAbort m => m.Utf8 rt
  | .fileChunkUpload m => m.Utf8 rt

def SessionConfirmed.Utf8 (m : SessionConfirmed) : Prop :=
  rt.verifyUtf8 m.sessionId = true ∧ ∀ f ∈ m.requiredFiles, rt.verifyUtf8 f = true

def FileUpComplete.Utf8 (m : FileUpComplete) : Prop :=
  rt.verifyUtf8 m.sessionId = true ∧ rt.verifyUtf8 m.filename = true

def ObjFileChunk.Utf8 (m : ObjFileChunk) : Prop :=
  rt.verifyUtf8 m.sessionId = true ∧ rt.verifyUtf8 m.compilerStdout = true
    ∧ rt.verifyUtf8 m.compilerStderr = true

def ServerContent.Utf8 : ServerContent → Prop
  | .notSet => True
  | .sessionConfirmed m => m.Utf8 rt
  | .sessionAbort m => m.Utf8 rt
  | .fileUpComplete m => m.Utf8 rt
  | .allReqUpComplete m => rt.verifyUtf8 m.sessionId = true
  | .objFileChunkTransmit m => m.Utf8 rt

variable {rt}

theorem map_eq_complete_iff {M N : Type*} {f : M → N} (hf : Function.Injective f) {r : Parsed M}
    {m : M} : r.map f = .complete (f m) ↔ r = .complete m := by
  rw [Parsed.map_eq_complete]
  constructor
  · rintro ⟨m', hr, hm⟩
    rw [hr, hf hm]
  · intro hr
    exact ⟨m, hr, rfl⟩

theorem FileInfo.received_iff {m : FileInfo} : m.received rt = .complete m ↔ m.Utf8 rt := by
  simp [FileInfo.received, FileInfo.Utf8, Parsed.andThen_eq_complete]

theorem SessionAbort.received_iff {m : SessionAbort} :
    m.received rt = .complete m ↔ m.Utf8 rt := by
  simp [SessionAbort.received, SessionAbort.Utf8, Parsed.andThen_eq_complete]

theorem FileChunk.received_iff {m : FileChunk} : m.received rt = .complete m ↔ m.Utf8 rt := by
  simp [FileChunk.received, FileChunk.Utf8, Parsed.andThen_eq_complete]

theorem FileUpComplete.received_iff {m : FileUpComplete} :
    m.received rt = .complete m ↔ m.Utf8 rt := by
  simp [FileUpComplete.received, FileUpComplete.Utf8, Parsed.andThen_eq_complete]

theorem ObjFileChunk.received_iff {m : ObjFileChunk} :
    m.received rt = .complete m ↔ m.Utf8 rt := by
  simp [ObjFileChunk.received, ObjFileChunk.Utf8, Parsed.andThen_eq_complete]

theorem SessionConfirmed.received_iff {m : SessionConfirmed} :
    m.received rt = .complete m ↔ m.Utf8 rt := by
  obtain ⟨sessionId, requiredFiles⟩ := m
  simp [SessionConfirmed.received, SessionConfirmed.Utf8, Parsed.andThen_eq_complete,
    Parsed.map_eq_complete, collect_eq_complete]

theorem SessionStartRequest.received_iff {m : SessionStartRequest} :
    m.received rt = .complete m ↔ m.Utf8 rt := by
  have hinfos : collect (FileInfo.received rt) m.requiredFilesInfo = .complete m.requiredFilesInfo
      ↔ ∀ i ∈ m.requiredFilesInfo, i.Utf8 rt := by
    simp [collect_eq_complete, FileInfo.received_iff]
  rw [SessionStartRequest.received, checked_andThen_eq_complete, checked_andThen_eq_complete,
    checked_andThen_eq_complete, checked_andThen_eq_complete, strings_andThen_eq_complete,
    strings_andThen_eq_complete, Parsed.map_eq_complete]
  constructor
  · rintro ⟨hid, hdir, hsource, hcompiler, hargs, hidirs, is, his, hm⟩
    obtain rfl : is = m.requiredFilesInfo := congrArg SessionStartRequest.requiredFilesInfo hm
    exact ⟨hid, hdir, hsource, hcompiler, hargs, hidirs, hinfos.mp his⟩
  · intro h
    exact ⟨h.clientId, h.clientWorkingDir, h.clientSourceFile, h.clientCompiler,
      h.clientCmdLineArgs, h.clientIdirs, _, hinfos.mpr h.requiredFilesInfo, rfl⟩

theorem ClientContent.received_iff (m : ClientContent) :
    m.received rt = .complete m ↔ m.Utf8 rt := by
  cases m with
  | notSet => exact iff_of_true rfl trivial
  | sessionStart m =>
    exact (map_eq_complete_iff fun _ _ => ClientContent.sessionStart.inj).trans
      SessionStartRequest.received_iff
  | sessionAbort m =>
    exact (map_eq_complete_iff fun _ _ => ClientContent.sessionAbort.inj).trans
      SessionAbort.received_iff
  | fileChunkUpload m =>
    exact (map_eq_complete_iff fun _ _ => ClientContent.fileChunkUpload.inj).trans
      FileChunk.received_iff

theorem ServerContent.received_iff (m : ServerContent) :
    m.received rt = .complete m ↔ m.Utf8 rt := by
  cases m with
  | notSet => exact iff_of_true rfl trivial
  | sessionConfirmed m =>
    exact (map_eq_complete_iff fun _ _ => ServerContent.sessionConfirmed.inj).trans
      SessionConfirmed.received_iff
  | sessionAbort m =>
    exact (map_eq_complete_iff fun _ _ => ServerContent.sessionAbort.inj).trans
      SessionAbort.received_iff
  | fileUpComplete m =>
    exact (map_eq_complete_iff fun _ _ => ServerContent.fileUpComplete.inj).trans
      FileUpComplete.received_iff
  | allReqUpComplete m =>
    exact (map_eq_complete_iff fun _ _ => ServerContent.allReqUpComplete.inj).trans
      (by simp [AllReqUploadComplete.received, ServerContent.Utf8])
  | objFileChunkTransmit m =>
    exact (map_eq_complete_iff fun _ _ => ServerContent.objFileChunkTransmit.inj).trans
      ObjFileChunk.received_iff

/-! ## What is left is always a message -/

theorem FileInfo.legible (m : FileInfo) : (m.received rt).Legible :=
  (legible_checked _ _).andThen fun _ => rfl

theorem SessionStartRequest.legible (m : SessionStartRequest) : (m.received rt).Legible := by
  have hstrings : ∀ ss : List Str, (collect (fun s => rt.checked s s) ss).Legible :=
    legible_collect fun s => legible_checked s s
  exact (legible_checked _ _).andThen fun _ => (legible_checked _ _).andThen fun _ =>
    (legible_checked _ _).andThen fun _ => (legible_checked _ _).andThen fun _ =>
    ((hstrings _).map _).andThen fun _ => ((hstrings _).map _).andThen fun _ =>
    (legible_collect FileInfo.legible _).map _

theorem SessionAbort.legible (m : SessionAbort) : (m.received rt).Legible :=
  (legible_checked _ _).andThen fun _ => legible_checked _ _

theorem FileChunk.legible (m : FileChunk) : (m.received rt).Legible :=
  (legible_checked _ _).andThen fun _ => (legible_checked _ _).andThen fun _ => rfl

theorem SessionConfirmed.legible (m : SessionConfirmed) : (m.received rt).Legible :=
  (legible_checked _ _).andThen fun _ => (legible_collect (fun s => legible_checked s s) _).map _

theorem FileUpComplete.legible (m : FileUpComplete) : (m.received rt).Legible :=
  (legible_checked _ _).andThen fun _ => (legible_checked _ _).andThen fun _ => rfl

theorem ObjFileChunk.legible (m : ObjFileChunk) : (m.received rt).Legible :=
  (legible_checked _ _).andThen fun _ => (legible_checked _ _).andThen fun _ =>
    (legible_checked _ _).andThen fun _ => rfl

theorem ClientContent.legible (m : ClientContent) : (m.received rt).Legible := by
  cases m with
  | notSet => rfl
  | sessionStart m => exact m.legible.map _
  | sessionAbort m => exact m.legible.map _
  | fileChunkUpload m => exact m.legible.map _

theorem ServerContent.legible (m : ServerContent) : (m.received rt).Legible := by
  cases m with
  | notSet => rfl
  | sessionConfirmed m => exact m.legible.map _
  | sessionAbort m => exact m.legible.map _
  | fileUpComplete m => exact m.legible.map _
  | allReqUpComplete m => exact (legible_checked _ _).map _
  | objFileChunkTransmit m => exact m.legible.map _

/-! ## The trip -/

/-- `SerializeToString`, which leaves the string empty above 2 GiB. -/
def serializeToString {M : Type*} (rt : WireRuntime) (T : MessageType M) (m : M) : Str :=
  if T.byteSize rt m ≤ 2147483647 then T.write rt m else []

theorem serializeToString_eq {M : Type*} {T : MessageType M} {m : M}
    (h : T.byteSize rt m ≤ maxSize) : serializeToString rt T m = T.write rt m :=
  if_pos (h.trans (by decide))

/-- **A client's message arrives**: its bytes are as many as it counts, the server reads the message
up to its first string that is no UTF-8, and the whole message exactly if there is none. -/
theorem client_message_arrives (rt : WireRuntime) (m : ClientContent)
    (h : (clientMessage rt).byteSize rt m ≤ maxSize) :
    (serializeToString rt (clientMessage rt) m).length = (clientMessage rt).byteSize rt m
      ∧ (clientMessage rt).read rt (serializeToString rt (clientMessage rt) m) = m.received rt
      ∧ (m.received rt = .complete m ↔ m.Utf8 rt) := by
  rw [serializeToString_eq h]
  exact ⟨MessageType.length_write (MessageType.honest h), read_clientMessage h, m.received_iff⟩

/-- A start request whose second argument is Latin-1. -/
def latin1Start : SessionStartRequest where
  clientId := str "u"
  clientWorkingDir := str "/w"
  clientSourceFile := str "/w/a.c"
  clientCompiler := str "gcc"
  clientCmdLineArgs := [str "-c", [0xE4], str "-O2"]
  clientIdirs := [str "-I/w"]
  requiredFilesInfo := [⟨str "/w/a.c", 1, []⟩]

/-- The server sees neither the arguments after it, nor the include directories, nor the files. -/
theorem latin1Start_cut :
    (clientMessage base128).read base128
        (serializeToString base128 (clientMessage base128) (.sessionStart latin1Start))
      = .invalid (.sessionStart { latin1Start with
          clientCmdLineArgs := [str "-c", [0xE4]], clientIdirs := [], requiredFilesInfo := [] }) :=
  (client_message_arrives base128 (.sessionStart latin1Start) (by decide)).2.1.trans (by decide)

/-- **A server's message arrives**, likewise. -/
theorem server_message_arrives (rt : WireRuntime) (m : ServerContent)
    (h : (serverMessage rt).byteSize rt m ≤ maxSize) :
    (serializeToString rt (serverMessage rt) m).length = (serverMessage rt).byteSize rt m
      ∧ (serverMessage rt).read rt (serializeToString rt (serverMessage rt) m) = m.received rt
      ∧ (m.received rt = .complete m ↔ m.Utf8 rt) := by
  rw [serializeToString_eq h]
  exact ⟨MessageType.length_write (MessageType.honest h), read_serverMessage h, m.received_iff⟩

end DistBuild
