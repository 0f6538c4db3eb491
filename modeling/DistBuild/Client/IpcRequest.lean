import DistBuild.Compiler.Pipes
import DistBuild.Server.Session

/-!
# Client/IpcRequest — a compile request of the wrapper, and the two coroutines that answer it

    _handle_ipc_request   preparing ─▸ connecting ─▸ confirming ─▸ registering ─▸ retrieving ─▸ …
                                                         │             channel ────▴
    _handle_client_session                   starting ─▸ checking ⇄ receiving ─▸ compiling ─▸ …

The request handler awaits one response on a channel with one slot; the session handler, started by
the confirmation, puts it there.  The request handler calls its session three times, to retrieve the
response, to send an abort and to terminate; each call is a step, and so is the wait.  An exception
of the request handler closes the wrapper's connection, one of the session handler is swallowed; a
local compiler that prints more than its pipe holds keeps its coroutine for ever.
What the remote side does is a script: whether it accepts, and what it then sends, message by
message, up to a receive error or to silence.
-/

namespace DistBuild

namespace Ipc

/-- What the client reads from its server. -/
inductive RemoteMessage
  | server (m : ServerMessage)
  | allReqUpComplete
  | other

/-- What the client sends to its server. -/
inductive ClientMessage
  | fileChunk (m : FileChunk)
  | sessionAbort (sessionId : SessionId)
deriving DecidableEq, Repr

/-- A response, and where it comes from. -/
inductive Answer
  | remote (r : UnixIpcResponse)
  | compiled (r : UnixIpcResponse)
deriving DecidableEq, Repr

def Answer.response : Answer → UnixIpcResponse
  | .remote r | .compiled r => r

/-- What a compile request meets: a throw is `none`, or `false`.  `sessionCompiler` is the run of
`perform_local_compilation`, `wrapperCompiler` that of `_handle_ipc_request`: what the compiler
exits with and what it prints into its pipes, which hold `pipeCapacity` bytes each, unless it does
not start.  `clientSessions` are the ids under which other requests are registered, `unsetUuid` is
what the session's `_session_uuid` holds as long as nobody has set it, and a receive error among the
`events` is `none`. -/
structure Circumstances where
  sourceReads : Bool
  accepts : Bool
  events : List (Option RemoteMessage)
  outputObjFile : Option Str
  disk : Disk
  sessionCompiler : Option UnixIpcResponse
  wrapperCompiler : Option UnixIpcResponse
  pipeCapacity : ℕ
  clientSessions : List SessionId
  unsetUuid : SessionId

/-- What a compiler prints on its two streams. -/
def printed (r : UnixIpcResponse) : Stream → Str
  | .stdout => r.stdoutContent
  | .stderr => r.stderrContent

/-- The run returns: the coroutine waits for the compiler before it reads, so each of the outputs
has to fit its pipe.  Else it takes no step any more. -/
def Circumstances.Returns (c : Circumstances) (r : UnixIpcResponse) : Prop :=
  ∀ stream, (printed r stream).length ≤ c.pipeCapacity

instance (c : Circumstances) (r : UnixIpcResponse) : Decidable (c.Returns r) := by
  unfold Circumstances.Returns
  infer_instance

/-- **When a run returns**: both the parents that wait get what the compiler prints. -/
theorem Circumstances.returns_iff (c : Circumstances) (r : UnixIpcResponse) :
    (c.Returns r ↔ Pipes.Completes c.pipeCapacity performLocalCompilationParent (printed r))
      ∧ (c.Returns r ↔ Pipes.Completes c.pipeCapacity handleIpcRequestParent (printed r)) :=
  ⟨(waitAndRead_completes_iff c.pipeCapacity (printed r)).symm,
    (waitAndRead_completes_iff c.pipeCapacity (printed r)).symm⟩

/-- Where `_handle_ipc_request` is; the last three it does not leave. -/
inductive RequestHandler
  | preparing
  | connecting
  | confirming
  | refused
  | registering
  | retrieving
  | awaiting
  | retrieved (a : Answer)
  | aborted (a : Answer)
  | deciding (a : Answer)
  | answering (a : Answer)
  | answered
  | failed
  | misdirected
  | dangling
deriving DecidableEq, Repr

/-- What the session handler does once it has published. -/
inductive AfterPublish
  | listen
  | terminate (abort : Bool)
deriving DecidableEq, Repr

/-- Where `_handle_client_session` is; with `abort` it sends an abort before it ends. -/
inductive SessionHandler
  | absent
  | starting
  | checking
  | receiving
  | compiling (abort : Bool)
  | publishing (a : Answer) (next : AfterPublish)
  | terminating (abort : Bool)
  | ended
deriving DecidableEq, Repr

def AfterPublish.handler : AfterPublish → SessionHandler
  | .listen => .checking
  | .terminate abort => .terminating abort

/-- The session handler owns a `shared_ptr` to its session. -/
def SessionHandler.holdsSelf : SessionHandler → Bool
  | .absent | .ended => false
  | _ => true

/-- The request handler still uses its pointer to the session, which it does not own. -/
def RequestHandler.usesSession : RequestHandler → Bool
  | .retrieving | .awaiting | .retrieved _ | .aborted _ => true
  | _ => false

/-- `sessionUuid` is the `session_uuid` of `connect_to_server`, `upload.sessionUuid` that of the
session. -/
structure State where
  request : RequestHandler
  handler : SessionHandler
  sessionUuid : SessionId
  unixIpcChannel : Option Answer
  terminated : Bool
  registered : Bool
  events : List (Option RemoteMessage)
  receiver : ObjReceiver
  upload : ClientUpload
  sent : List ClientMessage
  delivered : List Answer

inductive Action
  | prepare | connect | confirm | compileRefused | register | await | retrieve | abort | dispose
  | decide | deliver | start | check | receive | compile | publish | terminate
deriving DecidableEq, Repr

/-- `boost::uuids::uuid{0}`, as text. -/
def nilUuid : SessionId := str "00000000-0000-0000-0000-000000000000"

namespace State

/-- The session object is there. -/
def Alive (s : State) : Prop := s.registered = true ∨ s.handler.holdsSelf = true

instance (s : State) : Decidable s.Alive := by
  unfold Alive
  infer_instance

/-- `send_abort_to_server`. -/
def sendAbort (s : State) (abort : Bool) : State :=
  if abort then { s with sent := s.sent ++ [.sessionAbort s.upload.sessionUuid] } else s

/-- `terminate_client_session`: what is stored under the session's own id is erased. -/
def terminateClientSession (s : State) : State :=
  { s with
    terminated := true
    registered := s.registered && decide (s.sessionUuid ≠ s.upload.sessionUuid) }

/-- `_send_required_file`. -/
def sendRequired (s : State) : State :=
  let r := sendRequiredFile s.receiver.disk.files s.upload
  { s with upload := r.2, sent := s.sent ++ r.1.map .fileChunk }

/-- A result chunk in `_handle_client_session`: what it publishes, if anything. -/
def receiveObjFileChunk (s : State) (msg : ObjFileChunk) : State :=
  let r := processObjFileChunk s.upload.sessionUuid s.receiver msg
  { s with
    receiver := r.2
    handler :=
      if r.1 then
        match r.2.published.drop s.receiver.published.length with
        | [] => .checking
        | response :: _ => .publishing (.remote response) .listen
      else .compiling true }

/-- The `switch` of `_handle_client_session`. -/
def handle (s : State) : RemoteMessage → State
  | .server (.sessionConfirmed _ _) => { s with handler := .checking }
  | .server (.sessionAbort _) => { s with handler := .compiling false }
  | .server (.fileUpComplete m) =>
    if m.sessionId = s.upload.sessionUuid ∧ m.success = true then
      { s.sendRequired with handler := .checking }
    else { s with handler := .compiling true }
  | .server (.objFileChunk msg) => s.receiveObjFileChunk msg
  | .allReqUpComplete => { s with handler := .checking }
  | .other => { s with handler := .checking }

end State

variable (parseUuid : Str → Option SessionId) (c : Circumstances)

/-- The first reply: `start_client_session` after its `receive_msg`.  `parseUuid` is the
`string_generator` that reads an id, whose text `to_string` gives, or that throws. -/
def firstReply (s : State) : RemoteMessage → State
  | .server (.sessionConfirmed sessionId requiredFiles) =>
    match parseUuid sessionId, c.outputObjFile with
    | some uuid, some path =>
      { s with
        request := .registering
        handler := .starting
        sessionUuid := uuid
        receiver := ObjReceiver.start uuid s.receiver.disk path
        upload := { sessionUuid := uuid, requiredFiles := requiredFiles, reqFilesSendIdx := 0 } }
    | _, _ => { s with request := .failed }
  | _ => { s with request := .refused }

/-- One step of one of the two coroutines.  A key that is taken is `misdirected`: `try_emplace`
finds the session of the other request. -/
def step : Action → State → Option State
  | .prepare, s =>
    match s.request with
    | .preparing => some { s with request := if c.sourceReads then .connecting else .failed }
    | _ => none
  | .connect, s =>
    match s.request with
    | .connecting => some { s with request := if c.accepts then .confirming else .failed }
    | _ => none
  | .confirm, s =>
    match s.request, s.events with
    | .confirming, none :: events => some { s with request := .failed, events := events }
    | .confirming, some m :: events => some (firstReply parseUuid c { s with events := events } m)
    | _, _ => none
  | .compileRefused, s =>
    match s.request with
    | .refused =>
      match c.sessionCompiler with
      | none => some { (s.sendAbort true).terminateClientSession with request := .failed }
      | some r =>
        if c.Returns r then
          some { (s.sendAbort true).terminateClientSession with
            request := .registering, unixIpcChannel := some (.compiled r) }
        else none
    | _ => none
  | .register, s =>
    match s.request with
    | .registering =>
      if s.sessionUuid ∈ c.clientSessions then some { s with request := .misdirected }
      else some { s with request := .retrieving, registered := true }
    | _ => none
  | .await, s =>
    match s.request with
    | .retrieving => some { s with request := if s.Alive then .awaiting else .dangling }
    | _ => none
  | .retrieve, s =>
    match s.request, s.unixIpcChannel with
    | .awaiting, some a => some { s with request := .retrieved a, unixIpcChannel := none }
    | _, _ => none
  | .abort, s =>
    match s.request with
    | .retrieved a =>
      if s.Alive then some { s.sendAbort true with request := .aborted a }
      else some { s with request := .dangling }
    | _ => none
  | .dispose, s =>
    match s.request with
    | .aborted a =>
      if s.Alive then some { s.terminateClientSession with request := .deciding a }
      else some { s with request := .dangling }
    | _ => none
  | .decide, s =>
    match s.request with
    | .deciding a =>
      if a.response.compilerExitCode ≠ 0 then
        match c.wrapperCompiler with
        | none => some { s with request := .failed }
        | some r =>
          if c.Returns r then some { s with request := .answering (.compiled r) } else none
      else some { s with request := .answering a }
    | _ => none
  | .deliver, s =>
    match s.request with
    | .answering a => some { s with request := .answered, delivered := s.delivered ++ [a] }
    | _ => none
  | .start, s =>
    match s.handler with
    | .starting => some { s.sendRequired with handler := .checking }
    | _ => none
  | .check, s =>
    match s.handler with
    | .checking => some { s with handler := if s.terminated then .ended else .receiving }
    | _ => none
  | .receive, s =>
    match s.handler, s.events with
    | .receiving, none :: events => some { s with handler := .ended, events := events }
    | .receiving, some m :: events => some (State.handle { s with events := events } m)
    | _, _ => none
  | .compile, s =>
    match s.handler with
    | .compiling abort =>
      match c.sessionCompiler with
      | none => some { s with handler := .ended }
      | some r =>
        if c.Returns r then
          some { s with handler := .publishing (.compiled r) (.terminate abort) }
        else none
    | _ => none
  | .publish, s =>
    match s.handler, s.unixIpcChannel with
    | .publishing a next, none =>
      some { s with handler := next.handler, unixIpcChannel := some a }
    | _, _ => none
  | .terminate, s =>
    match s.handler with
    | .terminating abort =>
      some { (s.sendAbort abort).terminateClientSession with handler := .ended }
    | _ => none

/-- A request for which a server was picked. -/
def initial : State where
  request := .preparing
  handler := .absent
  sessionUuid := nilUuid
  unixIpcChannel := none
  terminated := false
  registered := false
  events := c.events
  receiver := { transfer := none, disk := c.disk, call := none, published := [] }
  upload := { sessionUuid := c.unsetUuid, requiredFiles := [], reqFilesSendIdx := 0 }
  sent := []
  delivered := []

/-- Neither coroutine can take a step. -/
def Stuck (s : State) : Prop := ∀ a, step parseUuid c a s = none

/-! ## What a step can do -/

/-- `step` as a relation: one constructor for each way a section ends. -/
inductive Step (s : State) : Action → State → Prop
  | prepare (h : s.request = .preparing) :
    Step s .prepare { s with request := if c.sourceReads then .connecting else .failed }
  | connect (h : s.request = .connecting) :
    Step s .connect { s with request := if c.accepts then .confirming else .failed }
  | confirmError {events} (h : s.request = .confirming) (he : s.events = none :: events) :
    Step s .confirm { s with request := .failed, events := events }
  | confirm {m events} (h : s.request = .confirming) (he : s.events = some m :: events) :
    Step s .confirm (firstReply parseUuid c { s with events := events } m)
  | refusedThrows (h : s.request = .refused) (hc : c.sessionCompiler = none) :
    Step s .compileRefused { (s.sendAbort true).terminateClientSession with request := .failed }
  | compileRefused {r} (h : s.request = .refused) (hc : c.sessionCompiler = some r)
    (hret : c.Returns r) :
    Step s .compileRefused { (s.sendAbort true).terminateClientSession with
      request := .registering, unixIpcChannel := some (.compiled r) }
  | registerTaken (h : s.request = .registering) (hid : s.sessionUuid ∈ c.clientSessions) :
    Step s .register { s with request := .misdirected }
  | register (h : s.request = .registering) (hid : s.sessionUuid ∉ c.clientSessions) :
    Step s .register { s with request := .retrieving, registered := true }
  | await (h : s.request = .retrieving) :
    Step s .await { s with request := if s.Alive then .awaiting else .dangling }
  | retrieve {a} (h : s.request = .awaiting) (ha : s.unixIpcChannel = some a) :
    Step s .retrieve { s with request := .retrieved a, unixIpcChannel := none }
  | abort {a} (h : s.request = .retrieved a) (hlive : s.Alive) :
    Step s .abort { s.sendAbort true with request := .aborted a }
  | abortDead {a} (h : s.request = .retrieved a) (hdead : ¬ s.Alive) :
    Step s .abort { s with request := .dangling }
  | dispose {a} (h : s.request = .aborted a) (hlive : s.Alive) :
    Step s .dispose { s.terminateClientSession with request := .deciding a }
  | disposeDead {a} (h : s.request = .aborted a) (hdead : ¬ s.Alive) :
    Step s .dispose { s with request := .dangling }
  | decideThrows {a} (h : s.request = .deciding a) (ha : a.response.compilerExitCode ≠ 0)
    (hc : c.wrapperCompiler = none) : Step s .decide { s with request := .failed }
  | decideLocal {a r} (h : s.request = .deciding a) (ha : a.response.compilerExitCode ≠ 0)
    (hc : c.wrapperCompiler = some r) (hret : c.Returns r) :
    Step s .decide { s with request := .answering (.compiled r) }
  | decide {a} (h : s.request = .deciding a) (ha : a.response.compilerExitCode = 0) :
    Step s .decide { s with request := .answering a }
  | deliver {a} (h : s.request = .answering a) :
    Step s .deliver { s with request := .answered, delivered := s.delivered ++ [a] }
  | start (h : s.handler = .starting) : Step s .start { s.sendRequired with handler := .checking }
  | check (h : s.handler = .checking) :
    Step s .check { s with handler := if s.terminated then .ended else .receiving }
  | receiveError {events} (h : s.handler = .receiving) (he : s.events = none :: events) :
    Step s .receive { s with handler := .ended, events := events }
  | receive {m events} (h : s.handler = .receiving) (he : s.events = some m :: events) :
    Step s .receive (State.handle { s with events := events } m)
  | compileThrows {abort} (h : s.handler = .compiling abort) (hc : c.sessionCompiler = none) :
    Step s .compile { s with handler := .ended }
  | compile {abort r} (h : s.handler = .compiling abort) (hc : c.sessionCompiler = some r)
    (hret : c.Returns r) :
    Step s .compile { s with handler := .publishing (.compiled r) (.terminate abort) }
  | publish {a next} (h : s.handler = .publishing a next) (hc : s.unixIpcChannel = none) :
    Step s .publish { s with handler := next.handler, unixIpcChannel := some a }
  | terminate {abort} (h : s.handler = .terminating abort) :
    Step s .terminate { (s.sendAbort abort).terminateClientSession with handler := .ended }

variable {parseUuid c}

/-- **What a step of a request can do**, once and for all. -/
theorem step_cases {a : Action} {s t : State} (h : step parseUuid c a s = some t) :
    Step parseUuid c s a t := by
  cases a with
  | prepare =>
    simp only [step] at h
    split at h
    · cases h
      exact .prepare ‹_›
    · cases h
  | connect =>
    simp only [step] at h
    split at h
    · cases h
      exact .connect ‹_›
    · cases h
  | confirm =>
    simp only [step] at h
    split at h
    · cases h
      exact .confirmError ‹_› ‹_›
    · cases h
      exact .confirm ‹_› ‹_›
    · cases h
  | compileRefused =>
    simp only [step] at h
    split at h
    · split at h
      · cases h
        exact .refusedThrows ‹_› ‹_›
      · split_ifs at h with hret
        cases h
        exact .compileRefused ‹_› ‹_› hret
    · cases h
  | register =>
    simp only [step] at h
    split at h
    · split_ifs at h with hid
      · cases h
        exact .registerTaken ‹_› hid
      · cases h
        exact .register ‹_› hid
    · cases h
  | await =>
    simp only [step] at h
    split at h
    · cases h
      exact .await ‹_›
    · cases h
  | retrieve =>
    simp only [step] at h
    split at h
    · cases h
      exact .retrieve ‹_› ‹_›
    · cases h
  | abort =>
    simp only [step] at h
    split at h
    · split_ifs at h with hlive
      · cases h
        exact .abort ‹_› hlive
      · cases h
        exact .abortDead ‹_› hlive
    · cases h
  | dispose =>
    simp only [step] at h
    split at h
    · split_ifs at h with hlive
      · cases h
        exact .dispose ‹_› hlive
      · cases h
        exact .disposeDead ‹_› hlive
    · cases h
  | decide =>
    simp only [step] at h
    split at h
    · split_ifs at h with ha
      · split at h
        · cases h
          exact .decideThrows ‹_› ha ‹_›
        · split_ifs at h with hret
          cases h
          exact .decideLocal ‹_› ha ‹_› hret
      · cases h
        exact .decide ‹_› (not_not.mp ha)
    · cases h
  | deliver =>
    simp only [step] at h
    split at h
    · cases h
      exact .deliver ‹_›
    · cases h
  | start =>
    simp only [step] at h
    split at h
    · cases h
      exact .start ‹_›
    · cases h
  | check =>
    simp only [step] at h
    split at h
    · cases h
      exact .check ‹_›
    · cases h
  | receive =>
    simp only [step] at h
    split at h
    · cases h
      exact .receiveError ‹_› ‹_›
    · cases h
      exact .receive ‹_› ‹_›
    · cases h
  | compile =>
    simp only [step] at h
    split at h
    · split at h
      · cases h
        exact .compileThrows ‹_› ‹_›
      · split_ifs at h with hret
        cases h
        exact .compile ‹_› ‹_› hret
    · cases h
  | publish =>
    simp only [step] at h
    split at h
    · cases h
      exact .publish ‹_› ‹_›
    · cases h
  | terminate =>
    simp only [step] at h
    split at h
    · cases h
      exact .terminate ‹_›
    · cases h

theorem State.sendAbort_frame (s : State) (abort : Bool) :
    (s.sendAbort abort).request = s.request ∧ (s.sendAbort abort).handler = s.handler
      ∧ (s.sendAbort abort).unixIpcChannel = s.unixIpcChannel
      ∧ (s.sendAbort abort).registered = s.registered
      ∧ (s.sendAbort abort).sessionUuid = s.sessionUuid := by
  cases abort <;> exact ⟨rfl, rfl, rfl, rfl, rfl⟩

theorem State.sendRequired_uuid (s : State) :
    s.sendRequired.upload.sessionUuid = s.upload.sessionUuid := by
  simp only [sendRequired, sendRequiredFile]
  split
  · rfl
  · split <;> rfl

/-- What the `switch` of the session handler leaves as it is. -/
theorem State.handle_frame (s : State) (m : RemoteMessage) :
    (s.handle m).request = s.request ∧ (s.handle m).unixIpcChannel = s.unixIpcChannel
      ∧ (s.handle m).terminated = s.terminated ∧ (s.handle m).registered = s.registered
      ∧ (s.handle m).events = s.events ∧ (s.handle m).delivered = s.delivered
      ∧ (s.handle m).sessionUuid = s.sessionUuid
      ∧ (s.handle m).upload.sessionUuid = s.upload.sessionUuid := by
  unfold handle
  split
  · exact ⟨rfl, rfl, rfl, rfl, rfl, rfl, rfl, rfl⟩
  · exact ⟨rfl, rfl, rfl, rfl, rfl, rfl, rfl, rfl⟩
  · split_ifs
    · exact ⟨rfl, rfl, rfl, rfl, rfl, rfl, rfl, s.sendRequired_uuid⟩
    · exact ⟨rfl, rfl, rfl, rfl, rfl, rfl, rfl, rfl⟩
  all_goals exact ⟨rfl, rfl, rfl, rfl, rfl, rfl, rfl, rfl⟩

/-- **What the first reply can do**: confirm a session, throw, or be refused. -/
theorem firstReply_cases (parseUuid : Str → Option SessionId) (c : Circumstances) (s : State)
    (m : RemoteMessage) :
    (∃ sessionId requiredFiles uuid path, m = .server (.sessionConfirmed sessionId requiredFiles)
        ∧ parseUuid sessionId = some uuid ∧ c.outputObjFile = some path
        ∧ firstReply parseUuid c s m = { s with
          request := .registering
          handler := .starting
          sessionUuid := uuid
          receiver := ObjReceiver.start uuid s.receiver.disk path
          upload := { sessionUuid := uuid, requiredFiles := requiredFiles, reqFilesSendIdx := 0 } })
      ∨ (∃ sessionId requiredFiles, m = .server (.sessionConfirmed sessionId requiredFiles)
        ∧ (parseUuid sessionId = none ∨ c.outputObjFile = none)
        ∧ firstReply parseUuid c s m = { s with request := .failed })
      ∨ ((∀ sessionId requiredFiles, m ≠ .server (.sessionConfirmed sessionId requiredFiles))
        ∧ firstReply parseUuid c s m = { s with request := .refused }) := by
  unfold firstReply
  split
  · rename_i sessionId requiredFiles
    cases hid : parseUuid sessionId with
    | none => exact Or.inr (Or.inl ⟨_, _, rfl, Or.inl hid, rfl⟩)
    | some uuid =>
      cases hpath : c.outputObjFile with
      | none => exact Or.inr (Or.inl ⟨_, _, rfl, Or.inr rfl, rfl⟩)
      | some path => exact Or.inl ⟨_, _, uuid, path, rfl, hid, rfl, rfl⟩
  · rename_i hne
    exact Or.inr (Or.inr ⟨fun sessionId requiredFiles h => hne sessionId requiredFiles h, rfl⟩)

end Ipc

end DistBuild
