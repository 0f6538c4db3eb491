import DistBuild.Server.Session

/-!
# Offload/Client — a client session, message by message

    connecting ──confirmation──▸ handling ──last object chunk──▸ answered ──exit code 0──▸ response
        └──────── anything else ──▸ fallenBack ◂── a refusal ──┘         └──▸ compiled locally

The client has one message to react to at a time: the confirmation starts the upload, each
acknowledgement sends the next required file, the last object chunk is the answer.  Once it has an
answer, its own or the server's, the request handler aborts the session (`ClientEnd.leave`), and
compiles locally after all if the server's is a failure (`ClientPhase.outcome`).
-/

namespace DistBuild

/-- What a client sends its session once that is started; nobody looks at the ids of the abort. -/
inductive ClientMessage
  | fileChunkUpload (m : FileChunk)
  | sessionAbort
deriving DecidableEq, Repr

/-- Where a `ClientSession` is: in `start_client_session`, in the loop of `_handle_client_session`,
with the server's answer, or in `perform_local_compilation`. -/
inductive ClientPhase
  | connecting
  | handling
  | answered (response : UnixIpcResponse)
  | fallenBack
deriving DecidableEq, Repr

/-- What the wrapper is given: the response of the server, or that of a compiler run here. -/
inductive WrapperAnswer
  | response (response : UnixIpcResponse)
  | compiledLocally
deriving DecidableEq, Repr

/-- What `_handle_ipc_request` makes of the response it takes from the session: it runs the compiler
itself after every nonzero exit code.  A response of `perform_local_compilation` is that of a run
here, and so is the one that replaces it. -/
def ClientPhase.outcome : ClientPhase → Option WrapperAnswer
  | .answered response =>
    some (if response.compilerExitCode ≠ 0 then .compiledLocally else .response response)
  | .fallenBack => some .compiledLocally
  | .connecting | .handling => none

/-- A `ClientSession`, and its end of the connection: the object chunks it has handled, how many of
its session's messages it has read, and what it has sent that the server has not read. -/
structure ClientEnd where
  phase : ClientPhase
  upload : ClientUpload
  chunks : List ObjFileChunk
  read : ℕ
  toServer : List ClientMessage

namespace ClientEnd

/-- The start request is sent, and the first message awaited. -/
def start : ClientEnd where
  phase := .connecting
  upload := { sessionUuid := [], requiredFiles := [], reqFilesSendIdx := 0 }
  chunks := []
  read := 0
  toServer := []

variable (fs : Str → Option Str)

/-- The messages of the next required file are queued. -/
def sendNext (e : ClientEnd) : ClientEnd :=
  let r := sendRequiredFile fs e.upload
  { e with upload := r.2, toServer := e.toServer ++ r.1.map .fileChunkUpload }

/-- The response is taken from the session's channel, and the session aborted. -/
def leave (e : ClientEnd) (phase : ClientPhase) : ClientEnd :=
  { e with phase, toServer := e.toServer ++ [.sessionAbort] }

/-- `_process_obj_file_chunk`, and what its result leads to. -/
def processObjFileChunk (e : ClientEnd) (m : ObjFileChunk) : ClientEnd :=
  if m.sessionId ≠ e.upload.sessionUuid then e.leave .fallenBack
  else if m.isLastChunk then { e with chunks := e.chunks ++ [m] }.leave (.answered m.response)
  else { e with chunks := e.chunks ++ [m] }

/-- One message of the server, in `start_client_session` and then in `_handle_client_session`. -/
def receive (e : ClientEnd) (m : ServerMessage) : Option ClientEnd :=
  match e.phase, m with
  | .connecting, .sessionConfirmed sid files =>
    some (sendNext fs { e with phase := .handling, upload := ⟨sid, files, 0⟩, read := e.read + 1 })
  | .connecting, _ => some ({ e with read := e.read + 1 }.leave .fallenBack)
  | .handling, .sessionConfirmed _ _ => some { e with read := e.read + 1 }
  | .handling, .sessionAbort _ => some ({ e with read := e.read + 1 }.leave .fallenBack)
  | .handling, .fileUpComplete a =>
    if a.sessionId = e.upload.sessionUuid ∧ a.success = true then
      some (sendNext fs { e with read := e.read + 1 })
    else some ({ e with read := e.read + 1 }.leave .fallenBack)
  | .handling, .objFileChunk a => some ({ e with read := e.read + 1 }.processObjFileChunk a)
  | .answered _, _ => none
  | .fallenBack, _ => none

/-- The client has its answer, or is making its own. -/
def Over (e : ClientEnd) : Prop := e.phase = .fallenBack ∨ ∃ r, e.phase = .answered r

/-- Then the wrapper is given something. -/
theorem Over.outcome_isSome {e : ClientEnd} (h : e.Over) : e.phase.outcome.isSome = true := by
  rcases h with hp | ⟨r, hp⟩ <;> rw [hp] <;> rfl

variable {fs}

/-- The server's response is given if it is one of a success. -/
theorem outcome_eq_response {p : ClientPhase} {resp : UnixIpcResponse}
    (h : p.outcome = some (.response resp)) : p = .answered resp ∧ resp.compilerExitCode = 0 := by
  cases p with
  | answered r =>
    simp only [ClientPhase.outcome, Option.some.injEq] at h
    split_ifs at h with hcode
    obtain rfl := WrapperAnswer.response.inj h
    exact ⟨rfl, not_not.mp hcode⟩
  | fallenBack => exact absurd (Option.some.inj h) (by simp)
  | connecting => exact absurd h (by simp [ClientPhase.outcome])
  | handling => exact absurd h (by simp [ClientPhase.outcome])

/-- The compiler is run here after a failure, or where the session fell back. -/
theorem outcome_eq_compiledLocally {p : ClientPhase} (h : p.outcome = some .compiledLocally) :
    p = .fallenBack ∨ ∃ resp, p = .answered resp ∧ resp.compilerExitCode ≠ 0 := by
  cases p with
  | answered r =>
    simp only [ClientPhase.outcome, Option.some.injEq] at h
    split_ifs at h with hcode
    exact .inr ⟨r, rfl, hcode⟩
  | fallenBack => exact .inl rfl
  | connecting => exact absurd h (by simp [ClientPhase.outcome])
  | handling => exact absurd h (by simp [ClientPhase.outcome])

/-- What is sent for a file that is there. -/
theorem sendNext_of_some {e : ClientEnd} {f content : Str}
    (hf : e.upload.requiredFiles[e.upload.reqFilesSendIdx]? = some f) (hc : fs f = some content) :
    e.sendNext fs = { e with
      upload := { e.upload with reqFilesSendIdx := e.upload.reqFilesSendIdx + 1 }
      toServer := e.toServer
        ++ (fileMessages e.upload.sessionUuid f content).map .fileChunkUpload } := by
  simp [sendNext, sendRequiredFile, hf, hc]

/-- Nothing is sent when all files are. -/
theorem sendNext_of_none {e : ClientEnd}
    (hf : e.upload.requiredFiles[e.upload.reqFilesSendIdx]? = none) : e.sendNext fs = e := by
  simp [sendNext, sendRequiredFile, hf]

end ClientEnd

end DistBuild
