import DistBuild.Machinery.Base128
import DistBuild.Server.Session

/-!
# Transport/Messages — the messages between client and server, as tables of fields

    ClientMessage   session_start | session_abort | file_chunk_upload
    ServerMessage   session_confirmed | session_abort | file_up_complete | all_req_up_complete
                    | obj_file_chunk_transmit

Each message type is the table of its fields, in the order in which they are written; `received`
says what the peer holds after reading what was written.  It is the message itself, or the message
up to the first string that is not UTF-8 (`Reads`).
-/

namespace DistBuild

/-! ## The messages -/

/-- `ClientSessionStartRequest`. -/
structure SessionStartRequest where
  clientId : Str
  clientWorkingDir : Str
  clientSourceFile : Str
  clientCompiler : Str
  clientCmdLineArgs : List Str
  clientIdirs : List Str
  requiredFilesInfo : List FileInfo
deriving DecidableEq, Repr

/-- `ClientSessionAbortRequest`, `ServerSessionAbortResponse`. -/
structure SessionAbort where
  sessionId : SessionId
  clientId : Str
deriving DecidableEq, Repr

/-- `ServerSessionConfirmedResponse`. -/
structure SessionConfirmed where
  sessionId : SessionId
  requiredFiles : List Str
deriving DecidableEq, Repr

/-- `ServerAllReqUploadCompleteResponse`. -/
structure AllReqUploadComplete where
  sessionId : SessionId
deriving DecidableEq, Repr

/-- `ClientMessage`, by its `content_case`. -/
inductive ClientContent
  | notSet
  | sessionStart (m : SessionStartRequest)
  | sessionAbort (m : SessionAbort)
  | fileChunkUpload (m : FileChunk)
deriving DecidableEq, Repr

/-- `ServerMessage`, by its `content_case`. -/
inductive ServerContent
  | notSet
  | sessionConfirmed (m : SessionConfirmed)
  | sessionAbort (m : SessionAbort)
  | fileUpComplete (m : FileUpComplete)
  | allReqUpComplete (m : AllReqUploadComplete)
  | objFileChunkTransmit (m : ObjFileChunk)
deriving DecidableEq, Repr

namespace ClientContent

def sessionStart? : ClientContent → Option SessionStartRequest
  | sessionStart m => some m
  | _ => none

def sessionAbort? : ClientContent → Option SessionAbort
  | sessionAbort m => some m
  | _ => none

def fileChunkUpload? : ClientContent → Option FileChunk
  | fileChunkUpload m => some m
  | _ => none

end ClientContent

namespace ServerContent

def sessionConfirmed? : ServerContent → Option SessionConfirmed
  | sessionConfirmed m => some m
  | _ => none

def sessionAbort? : ServerContent → Option SessionAbort
  | sessionAbort m => some m
  | _ => none

def fileUpComplete? : ServerContent → Option FileUpComplete
  | fileUpComplete m => some m
  | _ => none

def allReqUpComplete? : ServerContent → Option AllReqUploadComplete
  | allReqUpComplete m => some m
  | _ => none

def objFileChunkTransmit? : ServerContent → Option ObjFileChunk
  | objFileChunkTransmit m => some m
  | _ => none

end ServerContent

/-! ## Their tables -/

namespace Wire

variable (rt : WireRuntime)

def fileInfo : MessageType FileInfo where
  fields := [
    stringField rt 1 (·.filename) fun s m => { m with filename := s },
    uint64Field 2 (·.filesize) fun v m => { m with filesize := v },
    bytesField 3 (·.filehash) fun s m => { m with filehash := s }]
  empty := ⟨[], 0, []⟩

def sessionStartRequest : MessageType SessionStartRequest where
  fields := [
    stringField rt 1 (·.clientId) fun s m => { m with clientId := s },
    stringField rt 2 (·.clientWorkingDir) fun s m => { m with clientWorkingDir := s },
    stringField rt 3 (·.clientSourceFile) fun s m => { m with clientSourceFile := s },
    stringField rt 4 (·.clientCompiler) fun s m => { m with clientCompiler := s },
    repeatedStringField rt 5 (·.clientCmdLineArgs) fun ss m => { m with clientCmdLineArgs := ss },
    repeatedStringField rt 6 (·.clientIdirs) fun ss m => { m with clientIdirs := ss },
    repeatedMessageField rt (fileInfo rt) 7 (·.requiredFilesInfo)
      fun is m => { m with requiredFilesInfo := is }]
  empty := ⟨[], [], [], [], [], [], []⟩

def sessionAbort : MessageType SessionAbort where
  fields := [
    stringField rt 1 (·.sessionId) fun s m => { m with sessionId := s },
    stringField rt 2 (·.clientId) fun s m => { m with clientId := s }]
  empty := ⟨[], []⟩

def fileChunkUploadRequest : MessageType FileChunk where
  fields := [
    stringField rt 1 (·.sessionId) fun s m => { m with sessionId := s },
    stringField rt 2 (·.filename) fun s m => { m with filename := s },
    uint64Field 3 (·.sequenceNo) fun v m => { m with sequenceNo := v },
    uint64Field 4 (·.offset) fun v m => { m with offset := v },
    bytesField 5 (·.data) fun s m => { m with data := s },
    boolField 6 (·.isLastChunk) fun b m => { m with isLastChunk := b }]
  empty := ⟨[], [], 0, 0, [], false⟩

def clientMessage : MessageType ClientContent where
  fields := [
    oneofField rt (sessionStartRequest rt) 1 ClientContent.sessionStart? .sessionStart,
    oneofField rt (sessionAbort rt) 2 ClientContent.sessionAbort? .sessionAbort,
    oneofField rt (fileChunkUploadRequest rt) 3 ClientContent.fileChunkUpload? .fileChunkUpload]
  empty := .notSet

def sessionConfirmedResponse : MessageType SessionConfirmed where
  fields := [
    stringField rt 1 (·.sessionId) fun s m => { m with sessionId := s },
    repeatedStringField rt 2 (·.requiredFiles) fun ss m => { m with requiredFiles := ss }]
  empty := ⟨[], []⟩

def fileUpCompleteResponse : MessageType FileUpComplete where
  fields := [
    stringField rt 1 (·.sessionId) fun s m => { m with sessionId := s },
    stringField rt 2 (·.filename) fun s m => { m with filename := s },
    boolField 3 (·.success) fun b m => { m with success := b }]
  empty := ⟨[], [], false⟩

def allReqUploadCompleteResponse : MessageType AllReqUploadComplete where
  fields := [stringField rt 1 (·.sessionId) fun s m => { m with sessionId := s }]
  empty := ⟨[]⟩

def objFileChunkResponse : MessageType ObjFileChunk where
  fields := [
    stringField rt 1 (·.sessionId) fun s m => { m with sessionId := s },
    int32Field 2 (·.compilerExitCode) fun i m => { m with compilerExitCode := i },
    int32Field 3 (·.compilerCallDuration) fun i m => { m with compilerCallDuration := i },
    stringField rt 4 (·.compilerStdout) fun s m => { m with compilerStdout := s },
    stringField rt 5 (·.compilerStderr) fun s m => { m with compilerStderr := s },
    uint64Field 6 (·.filesize) fun v m => { m with filesize := v },
    boolField 7 (·.isLastChunk) fun b m => { m with isLastChunk := b },
    bytesField 8 (·.data) fun s m => { m with data := s }]
  empty := ⟨[], 0, 0, [], [], 0, false, []⟩

def serverMessage : MessageType ServerContent where
  fields := [
    oneofField rt (sessionConfirmedResponse rt) 1 ServerContent.sessionConfirmed? .sessionConfirmed,
    oneofField rt (sessionAbort rt) 2 ServerContent.sessionAbort? .sessionAbort,
    oneofField rt (fileUpCompleteResponse rt) 3 ServerContent.fileUpComplete? .fileUpComplete,
    oneofField rt (allReqUploadCompleteResponse rt) 4 ServerContent.allReqUpComplete?
      .allReqUpComplete,
    oneofField rt (objFileChunkResponse rt) 5 ServerContent.objFileChunkTransmit?
      .objFileChunkTransmit]
  empty := .notSet

end Wire

end DistBuild
