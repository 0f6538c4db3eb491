import DistBuild.Upload.SendFile

/-!
# Result/ObjFile — the object file on its way back

    exit code ≠ 0 ──▸ one last message
    object file   ──blocks──▸ 64 KiB messages, the last one marked if it is short
    no object file ──▸ nothing

`sendCompilationResult` is the server's half, `processObjFileChunk` the client's.  The client waits
for a last message; the server sends one unless the object file is missing or ends on a buffer
boundary (`result_arrives_iff`) — an empty object file included, which has no message of its own.
-/

namespace DistBuild

/-! ## The server sends -/

structure CompilationOutput where
  stdoutData : Str
  stderrData : Str
  compilingDuration : Int32
  exitCode : Int32
deriving DecidableEq, Repr

/-- `ServerObjFileChunkResponse`. -/
structure ObjFileChunk where
  sessionId : SessionId
  compilerExitCode : Int32
  compilerCallDuration : Int32
  compilerStdout : Str
  compilerStderr : Str
  filesize : UInt64
  isLastChunk : Bool
  data : Str
deriving DecidableEq, Repr

variable (sessionUuid : SessionId) (out : CompilationOutput)

/-- The fields every message carries. -/
def buildMsg : ObjFileChunk where
  sessionId := sessionUuid
  compilerExitCode := out.exitCode
  compilerCallDuration := out.compilingDuration
  compilerStdout := []
  compilerStderr := []
  filesize := 0
  isLastChunk := false
  data := []

/-- The message of a failed compilation. -/
def failureMsg : ObjFileChunk :=
  { buildMsg sessionUuid out with
    isLastChunk := true, compilerStdout := out.stdoutData, compilerStderr := out.stderrData }

/-- The message of one buffer; the logs go with the last one only. -/
def objFileMsg (fileSize : ℕ) (b : Str) : ObjFileChunk :=
  let msg := { buildMsg sessionUuid out with
    filesize := UInt64.ofNat fileSize, data := b, isLastChunk := b.length < chunkSize }
  if msg.isLastChunk then
    { msg with compilerStdout := out.stdoutData, compilerStderr := out.stderrData }
  else msg

/-- `ServerSession::send_compilation_result`, on the object file the compiler left. -/
def sendCompilationResult (objFile : Option Str) : List ObjFileChunk :=
  if out.exitCode ≠ 0 then [failureMsg sessionUuid out]
  else
    match objFile with
    | none => []
    | some content => (blocks chunkSize content).map (objFileMsg sessionUuid out content.length)

/-! ## The client receives -/

structure ObjFileTransferState where
  isFinished : Bool
  objOutStream : OutStream
  sessionId : SessionId
  filename : Str
  lastSeqNo : UInt64
  lastOffset : UInt64
deriving DecidableEq, Repr

/-- The constructor opens the output file, which truncates it. -/
def ObjFileTransferState.new (d : Disk) (sessionId : SessionId) (filename : Str) :
    Disk × ObjFileTransferState :=
  let (d', stream) := OutStream.openTrunc d filename
  (d', { isFinished := false, objOutStream := stream, sessionId, filename,
         lastSeqNo := 0, lastOffset := 0 })

structure UnixIpcResponse where
  compilerExitCode : Int32
  stdoutContent : Str
  stderrContent : Str
deriving DecidableEq, Repr

/-- What a compilation leaves in the `CompilerCall` of its session. -/
structure CallResult where
  callDuration : Int32
  exitCode : Int32
  stderrContent : Str
  stdoutContent : Str
deriving DecidableEq, Repr

/-- The client session as its result handler sees it; `published` records the responses sent into
the session's channel. -/
structure ObjReceiver where
  transfer : Option ObjFileTransferState
  disk : Disk
  call : Option CallResult
  published : List UnixIpcResponse

/-- The result a last message carries. -/
def ObjFileChunk.callResult (msg : ObjFileChunk) : CallResult where
  callDuration := msg.compilerCallDuration
  exitCode := msg.compilerExitCode
  stderrContent := msg.compilerStderr
  stdoutContent := msg.compilerStdout

/-- The response a last message publishes; the two logs change places. -/
def ObjFileChunk.response (msg : ObjFileChunk) : UnixIpcResponse where
  compilerExitCode := msg.compilerExitCode
  stdoutContent := msg.compilerStderr
  stderrContent := msg.compilerStdout

/-- End the transfer. -/
def ObjFileTransferState.finish (t : ObjFileTransferState) : ObjFileTransferState :=
  { t with isFinished := true, objOutStream := t.objOutStream.close }

/-- `ClientSession::_process_obj_file_chunk`. -/
def processObjFileChunk (s : ObjReceiver) (msg : ObjFileChunk) : Bool × ObjReceiver :=
  if msg.sessionId ≠ sessionUuid then (false, s)
  else
    match s.transfer with
    | none => (false, s)
    | some t =>
      if t.isFinished then (true, s)
      else if t.sessionId ≠ sessionUuid then (false, { s with transfer := some t.finish })
      else
        let w := OutStream.write s.disk t.objOutStream msg.data
        let t := { t with objOutStream := w.2 }
        if msg.isLastChunk then
          (true, { transfer := some t.finish, disk := w.1, call := some msg.callResult,
                   published := s.published ++ [msg.response] })
        else (true, { s with transfer := some t, disk := w.1 })

/-- A confirmed session, its output file open. -/
def ObjReceiver.start (d : Disk) (path : Str) : ObjReceiver :=
  let o := ObjFileTransferState.new d sessionUuid path
  { transfer := some o.2, disk := o.1, call := none, published := [] }

/-- The messages, handled in order. -/
def ObjReceiver.feed (s : ObjReceiver) (msgs : List ObjFileChunk) : ObjReceiver :=
  msgs.foldl (fun s msg => (processObjFileChunk sessionUuid s msg).2) s

theorem ObjReceiver.feed_concat (s : ObjReceiver) (msgs : List ObjFileChunk) (msg : ObjFileChunk) :
    s.feed sessionUuid (msgs ++ [msg])
      = (processObjFileChunk sessionUuid (s.feed sessionUuid msgs) msg).2 := by
  simp [ObjReceiver.feed]

/-! ## What the transfer owes -/

/-- **The result arrives**: exactly the final message is marked as the last one, and handling them
all finishes the transfer, publishes one response and, for a successful compilation, leaves the
object file at `path`. -/
def ResultArrives (objFile : Option Str) (d : Disk) (path : Str) : Prop :=
  let msgs := sendCompilationResult sessionUuid out objFile
  let s := (ObjReceiver.start sessionUuid d path).feed sessionUuid msgs
  (∃ init last, msgs = init ++ [last] ∧ last.isLastChunk = true
      ∧ ∀ m ∈ init, m.isLastChunk = false)
    ∧ (∃ t, s.transfer = some t ∧ t.isFinished = true)
    ∧ s.published.length = 1
    ∧ ∀ content, out.exitCode = 0 → objFile = some content → s.disk.files path = some content

@[simp] theorem objFileMsg_isLastChunk (n : ℕ) (b : Str) :
    (objFileMsg sessionUuid out n b).isLastChunk = decide (b.length < chunkSize) := by
  simp only [objFileMsg]
  split <;> rfl

@[simp] theorem objFileMsg_sessionId (n : ℕ) (b : Str) :
    (objFileMsg sessionUuid out n b).sessionId = sessionUuid := by
  simp only [objFileMsg]
  split <;> rfl

@[simp] theorem objFileMsg_data (n : ℕ) (b : Str) :
    (objFileMsg sessionUuid out n b).data = b := by
  simp only [objFileMsg]
  split <;> rfl

/-! ## Collecting the messages -/

/-- The client has written `stored` and awaits more. -/
structure Collecting (d : Disk) (path stored : Str) (s : ObjReceiver) : Prop where
  transfer : ∃ t, s.transfer = some t ∧ t.isFinished = false ∧ t.sessionId = sessionUuid
    ∧ t.objOutStream = .after d path stored
  disk : s.disk.files path = received d path stored
  published : s.published = []

variable {sessionUuid out}

theorem collecting_start (sessionUuid : SessionId) (d : Disk) (path : Str) :
    Collecting sessionUuid d path [] (ObjReceiver.start sessionUuid d path) where
  transfer := ⟨_, rfl, rfl, rfl, (OutStream.openTrunc_received d path).2⟩
  disk := (OutStream.openTrunc_received d path).1
  published := rfl

/-- The next buffer goes to the end of what is stored. -/
theorem Collecting.write {d : Disk} {path stored : Str} {s : ObjReceiver}
    (h : Collecting sessionUuid d path stored s) {t : ObjFileTransferState}
    (ht : t.objOutStream = .after d path stored) (b : Str) :
    (OutStream.write s.disk t.objOutStream b).1.files path = received d path (stored ++ b)
      ∧ (OutStream.write s.disk t.objOutStream b).2 = .after d path (stored ++ b) :=
  ht ▸ OutStream.write_received h.disk b

/-- A message that is not the last one is stored. -/
theorem Collecting.step {d : Disk} {path stored : Str} {s : ObjReceiver} {msg : ObjFileChunk}
    (h : Collecting sessionUuid d path stored s) (hid : msg.sessionId = sessionUuid)
    (hlast : msg.isLastChunk = false) :
    Collecting sessionUuid d path (stored ++ msg.data)
      (processObjFileChunk sessionUuid s msg).2 := by
  obtain ⟨t, hs, hfin, htid, ht⟩ := h.transfer
  obtain ⟨hfile, hstream⟩ := h.write ht msg.data
  have hstep : (processObjFileChunk sessionUuid s msg).2
      = { s with
          transfer :=
            some { t with objOutStream := (OutStream.write s.disk t.objOutStream msg.data).2 }
          disk := (OutStream.write s.disk t.objOutStream msg.data).1 } := by
    simp [processObjFileChunk, hid, hs, hfin, htid, hlast]
  rw [hstep]
  exact { transfer := ⟨_, rfl, hfin, htid, hstream⟩, disk := hfile, published := h.published }

/-- The last message finishes the transfer and publishes the response. -/
theorem Collecting.step_last {d : Disk} {path stored : Str} {s : ObjReceiver} {msg : ObjFileChunk}
    (h : Collecting sessionUuid d path stored s) (hid : msg.sessionId = sessionUuid)
    (hlast : msg.isLastChunk = true) :
    let s' := (processObjFileChunk sessionUuid s msg).2
    (∃ t, s'.transfer = some t ∧ t.isFinished = true) ∧ s'.published = [msg.response]
      ∧ s'.disk.files path = received d path (stored ++ msg.data) := by
  obtain ⟨t, hs, hfin, htid, ht⟩ := h.transfer
  obtain ⟨hfile, -⟩ := h.write ht msg.data
  refine ⟨⟨ObjFileTransferState.finish
    { t with objOutStream := (OutStream.write s.disk t.objOutStream msg.data).2 }, ?_, rfl⟩, ?_, ?_⟩
  · simp [processObjFileChunk, hid, hs, hfin, htid, hlast]
  · simp [processObjFileChunk, hid, hs, hfin, htid, hlast, h.published]
  · simpa [processObjFileChunk, hid, hs, hfin, htid, hlast] using hfile

/-- Every buffer but the last is stored. -/
theorem Collecting.feed {d : Disk} {path stored : Str} {s : ObjReceiver} {bs : List Str}
    (h : Collecting sessionUuid d path stored s) (out : CompilationOutput) (n : ℕ)
    (hfull : ∀ b ∈ bs, b.length = chunkSize) :
    Collecting sessionUuid d path (stored ++ bs.flatten)
      (s.feed sessionUuid (bs.map (objFileMsg sessionUuid out n))) := by
  induction bs generalizing s stored with
  | nil => simpa [ObjReceiver.feed] using h
  | cons b bs ih =>
    have hb : b.length = chunkSize := hfull b List.mem_cons_self
    have hstep := h.step (objFileMsg_sessionId sessionUuid out n b)
      (by rw [objFileMsg_isLastChunk, decide_eq_false]; omega)
    have := ih hstep fun c hc => hfull c (List.mem_cons_of_mem _ hc)
    simpa [ObjReceiver.feed] using this

/-! ## Which results arrive -/

/-- A failed compilation is one message. -/
theorem result_arrives_of_failure {objFile : Option Str} {d : Disk} {path : Str}
    (h : out.exitCode ≠ 0) : ResultArrives sessionUuid out objFile d path := by
  have hmsgs : sendCompilationResult sessionUuid out objFile = [failureMsg sessionUuid out] :=
    if_pos h
  obtain ⟨hfin, hpub, -⟩ := (collecting_start sessionUuid d path).step_last
    (show (failureMsg sessionUuid out).sessionId = sessionUuid from rfl) rfl
  rw [ResultArrives, hmsgs]
  exact ⟨⟨[], _, rfl, rfl, fun _ hm => nomatch hm⟩, hfin, congrArg List.length hpub,
    fun _ h0 => absurd h0 h⟩

/-- An object file whose last buffer is short arrives, byte for byte if the output file opens. -/
theorem result_arrives_of_short {content : Str} {d : Disk} {path : Str} (h : out.exitCode = 0)
    (hshort : ¬ chunkSize ∣ content.length) :
    ResultArrives sessionUuid out (some content) d path
      ↔ received d path content = some content := by
  have hne : content ≠ [] := by
    rintro rfl
    exact hshort (dvd_zero _)
  obtain ⟨init, last, heq, hfull, hlast⟩ := blocks_eq_append chunkSize_pos hne
  have hmsgs : sendCompilationResult sessionUuid out (some content)
      = init.map (objFileMsg sessionUuid out content.length)
        ++ [objFileMsg sessionUuid out content.length last] := by
    simp [sendCompilationResult, h, heq]
  have hmarked : (objFileMsg sessionUuid out content.length last).isLastChunk = true := by
    simpa using hlast.mpr hshort
  have hflat : init.flatten ++ last = content := by
    rw [← flatten_blocks chunkSize_pos content, heq]
    simp
  obtain ⟨hfin, hpub, hfile⟩ := ((collecting_start sessionUuid d path).feed out content.length
    hfull).step_last
    (objFileMsg_sessionId sessionUuid out content.length last) hmarked
  rw [ResultArrives, hmsgs, ObjReceiver.feed_concat]
  constructor
  · intro ⟨_, _, _, hc⟩
    have hstored := hfile.symm.trans (hc content h rfl)
    simpa [hflat] using hstored
  · intro hrec
    refine ⟨⟨_, _, rfl, hmarked, ?_⟩, hfin, congrArg List.length hpub, ?_⟩
    · intro m hm
      obtain ⟨b, hb, rfl⟩ := List.mem_map.mp hm
      rw [objFileMsg_isLastChunk, decide_eq_false]
      have := hfull b hb
      omega
    · rintro c - hc
      obtain rfl : content = c := Option.some.inj hc
      rw [← hrec]
      simpa [hflat] using hfile

/-- Without a short buffer nothing is marked as the last message. -/
theorem not_result_arrives_of_full (objFile : Option Str) {d : Disk} {path : Str}
    (h : out.exitCode = 0)
    (hfull : ∀ content, objFile = some content → chunkSize ∣ content.length) :
    ¬ ResultArrives sessionUuid out objFile d path := by
  rintro ⟨⟨init, last, heq, hlast, -⟩, -⟩
  have hmem : last ∈ sendCompilationResult sessionUuid out objFile := by simp [heq]
  cases objFile with
  | none => simp [sendCompilationResult, h] at hmem
  | some content =>
    simp only [sendCompilationResult, h, ne_eq, not_true_eq_false, if_false, List.mem_map] at hmem
    obtain ⟨b, hb, rfl⟩ := hmem
    have hne : content ≠ [] := by
      rintro rfl
      simp at hb
    obtain ⟨init, last, heq, hinit, hshort⟩ := blocks_eq_append chunkSize_pos hne
    have hb' : b.length < chunkSize := by simpa using hlast
    rw [heq, List.mem_append, List.mem_singleton] at hb
    rcases hb with hb | rfl
    · exact absurd (hinit b hb) (by omega)
    · exact hshort.mp hb' (hfull content rfl)

/-- **The result arrives exactly if the compilation failed, or left an object file that ends on a
short buffer** and that the client can store. -/
theorem result_arrives_iff (sessionUuid : SessionId) (out : CompilationOutput)
    (objFile : Option Str) (d : Disk) (path : Str) :
    ResultArrives sessionUuid out objFile d path ↔
      out.exitCode ≠ 0 ∨ ∃ content, objFile = some content ∧ ¬ chunkSize ∣ content.length
        ∧ (d.writable path = true ∨ d.files path = some content) := by
  by_cases h : out.exitCode = 0
  · rcases objFile with _ | content
    · simpa [h] using not_result_arrives_of_full none h fun _ hc => nomatch hc
    · by_cases hshort : chunkSize ∣ content.length
      · simpa [h, hshort] using not_result_arrives_of_full (some content) h
          fun c hc => Option.some.inj hc ▸ hshort
      · rw [result_arrives_of_short h hshort]
        cases hw : d.writable path with
        | true => simp [received, hw, h, hshort]
        | false => simp [received, hw, h, hshort]
  · exact iff_of_true (result_arrives_of_failure h) (Or.inl h)

/-- An empty object file is never announced, and the client waits. -/
theorem empty_object_never_arrives :
    ¬ ResultArrives (str "s") ⟨[], [], 0, 0⟩ (some []) Disk.empty (str "/out.o") :=
  not_result_arrives_of_full _ rfl fun c hc => by
    obtain rfl : [] = c := Option.some.inj hc
    exact dvd_zero _

end DistBuild
