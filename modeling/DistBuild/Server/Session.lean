import DistBuild.Result.ObjFile

/-!
# Server/Session — the steps of one session, at the granularity of the mutex sections

    add_session     preparing ─▸ scanning ⇄ claiming ─▸ sweeping ─▸ started
    the handler     receiving ─▸ transferring ─▸ measuring ─▸ hashing ─▸ copying ⇄ writing
                        ▴                                                   │
                        └──────── notifying ◂── sweeping ◂──────────────────┘

A session has two threads: `add_session`, which scans the required files and asks the client for
some of them, and from the confirmation on the handler, which takes one message at a time.  Reading
a status, copying an entry and writing the copy back are steps of their own: between them the steps
of other sessions may come.  What touches other sessions or the compiler is in `Server/System`.
-/

namespace DistBuild

/-- `FileInfo`: a file as a session start declares it. -/
structure FileInfo where
  filename : Str
  filesize : UInt64
  filehash : Str
deriving DecidableEq, Repr

/-- What a session sends to its client. -/
inductive ServerMessage
  | sessionConfirmed (sessionId : SessionId) (requiredFiles : List Str)
  | sessionAbort (sessionId : SessionId)
  | fileUpComplete (m : FileUpComplete)
  | objFileChunk (m : ObjFileChunk)

/-- Where `add_session` is. -/
inductive Starting
  | preparing
  | scanning (todo : List Str)
  | claiming (updated : FileStateView) (todo : List Str)
  | sweeping
  | started

/-- The session is not confirmed yet. -/
def Starting.unconfirmed : Starting → Bool
  | .sweeping | .started => false
  | _ => true

/-- The copy `add_session` is about to write back. -/
def Starting.claimed : Starting → Option FileStateView
  | .claiming updated _ => some updated
  | _ => none

/-- Where the handler is.  `marks` are the statuses still to be set, `ok` is what the call
returns. -/
inductive Handling
  | notStarted
  | receiving
  | transferring (msg : FileChunk) (path : Str)
  | measuring (msg : FileChunk) (path : Str)
  | hashing (msg : FileChunk) (path : Str)
  | copying (msg : FileChunk) (marks : List FileStatus) (ok : Bool)
  | writing (msg : FileChunk) (updated : FileStateView) (marks : List FileStatus) (ok : Bool)
  | sweeping (msg : FileChunk)
  | notifying (msg : FileChunk)
  | removing
  | releasing
  | ended

/-- The handler owns a `shared_ptr` to its session from `start_session` until it returns. -/
def Handling.holdsSelf : Handling → Bool
  | .notStarted | .ended => false
  | _ => true

/-- The handler is in its loop. -/
def Handling.serving : Handling → Bool
  | .notStarted | .removing | .releasing | .ended => false
  | _ => true

/-- The file whose completed upload is being judged, as the client names it. -/
def Handling.judging : Handling → Option Str
  | .measuring msg _ | .hashing msg _ | .copying msg _ _ | .writing msg _ _ _ => some msg.filename
  | _ => none

/-- The statuses the handler is about to set. -/
def Handling.marks : Handling → List FileStatus
  | .copying _ marks _ => marks
  | .writing _ updated marks _ => updated.fileStatus :: marks
  | _ => []

/-- `ServerSession`, with what `add_session` holds for it: `declared` is `required_files_info` of
its start message, `requiredFilesState` the entries it waits on, `requested` the names it asks
for. -/
structure Session where
  declared : List FileInfo
  requiredFilesState : List Str
  areArgsReady : Bool
  terminated : Bool
  transfers : Transfers
  requested : List Str
  starting : Starting
  handling : Handling

inductive SessionAction
  | prepare
  | scan (now : UInt64)
  | claim
  | confirm
  | receive (msg : FileChunk)
  | transfer
  | measure
  | hash
  | copy
  | write
  | notify
  | disconnect

/-- What a step of one session leaves of its client's file table, the disk and itself, and the
messages it sends. -/
structure Effect where
  files : FileTable
  disk : Disk
  session : Session
  sent : List ServerMessage

variable (sha1 : Str → Str) (w : Str) (sessionUuid : SessionId)

/-- `generate_file_sha1` into a zeroed digest, which stays as it is if the file does not open. -/
def generateFileSha1 : Option Str → Str
  | none => List.replicate 20 0
  | some content => sha1 content

namespace Session

/-- One required file of `add_session`'s loop, with its entry `v`. -/
def scan (x : Session) (now : UInt64) (v : FileStateView) (todo : List Str) : Session :=
  match v.fileStatus with
  | .initial =>
    { x with
      starting := .claiming { v with fileStatus := .uploading, upStartTime := now } todo }
  | .uploading => { x with starting := .scanning todo }
  | .available => { x with starting := .scanning todo }
  | .fault =>
    { x with
      starting := .scanning todo
      requested := x.requested ++ [cnvtServerToClientPath w v.serverFilePath] }

/-- The write-back of `add_session`'s loop for a file in its initial status. -/
def claim (x : Session) (updated : FileStateView) (todo : List Str) : Session :=
  { x with
    starting := .scanning todo
    requested := x.requested ++ [cnvtServerToClientPath w updated.serverFilePath] }

/-- `process_file_chunk` up to its transfer section. -/
def receive (x : Session) (msg : FileChunk) : Option FileStateView → Session
  | none => { x with handling := .receiving }
  | some v =>
    if msg.sessionId ≠ sessionUuid then { x with handling := .copying msg [.fault] false }
    else { x with handling := .transferring msg v.serverFilePath }

/-- The handler after its transfer section. -/
def transferred (x : Session) (msg : FileChunk) (path : Str) (r : Received) : Session :=
  { x with
    transfers := r.transfers
    handling :=
      match r.verdict with
      | .finished => .receiving
      | .stored => .receiving
      | .rejected => .copying msg [.fault] false
      | .complete => .measuring msg path }

/-- The handler after the size check; without the file `file_size` throws. -/
def measured (x : Session) (msg : FileChunk) (path : Str) (v : FileStateView) :
    Option Str → Session
  | none => { x with handling := .ended }
  | some content =>
    if v.fileSzBytes.toNat ≠ content.length then { x with handling := .copying msg [.fault] false }
    else { x with handling := .hashing msg path }

/-- The handler after the digest check, which does not return on a mismatch. -/
def hashed (x : Session) (msg : FileChunk) (v : FileStateView) (content : Option Str) : Session :=
  if v.fileSha1 ≠ generateFileSha1 sha1 content then
    { x with handling := .copying msg [.fault, .available] true }
  else { x with handling := .copying msg [.available] true }

/-- The handler after a status was set. -/
def marked (x : Session) (msg : FileChunk) : List FileStatus → Bool → Session
  | st :: marks, ok => { x with handling := .copying msg (st :: marks) ok }
  | [], true => { x with handling := .sweeping msg }
  | [], false => { x with handling := .receiving }

end Session

/-- What the handler sends once `process_file_chunk` has returned. -/
def answer (ok : Bool) : List ServerMessage :=
  if ok then [] else [.sessionAbort sessionUuid]

/-- One step of a session of the client whose workspace is `w`. -/
def sessionStep (a : SessionAction) (files : FileTable) (disk : Disk) (x : Session) :
    Option Effect :=
  match a with
  | .prepare =>
    match x.starting with
    | .preparing =>
      some ⟨files, disk,
        { x with areArgsReady := true, starting := .scanning x.requiredFilesState }, []⟩
    | _ => none
  | .scan now =>
    match x.starting with
    | .scanning (k :: todo) => (files k).map fun v => ⟨files, disk, x.scan w now v todo, []⟩
    | _ => none
  | .claim =>
    match x.starting with
    | .claiming updated todo =>
      some ⟨updateFileState files (cnvtServerToClientPath w updated.serverFilePath) updated, disk,
        x.claim w updated todo, []⟩
    | _ => none
  | .confirm =>
    match x.starting with
    | .scanning [] =>
      some ⟨files, disk, { x with starting := .sweeping, handling := .receiving },
        [.sessionConfirmed sessionUuid x.requested]⟩
    | _ => none
  | .receive msg =>
    match x.handling with
    | .receiving =>
      some ⟨files, disk, x.receive sessionUuid msg (files msg.filename),
        answer sessionUuid (files msg.filename).isSome⟩
    | _ => none
  | .transfer =>
    match x.handling with
    | .transferring msg path =>
      let r := receiveChunk sessionUuid path msg disk x.transfers
      some ⟨files, r.disk, x.transferred msg path r, []⟩
    | _ => none
  | .measure =>
    match x.handling with
    | .measuring msg path =>
      (files msg.filename).map fun v => ⟨files, disk, x.measured msg path v (disk.files path), []⟩
    | _ => none
  | .hash =>
    match x.handling with
    | .hashing msg path =>
      (files msg.filename).map fun v => ⟨files, disk, x.hashed sha1 msg v (disk.files path), []⟩
    | _ => none
  | .copy =>
    match x.handling with
    | .copying msg (st :: marks) ok =>
      (files msg.filename).map fun v =>
        ⟨files, disk, { x with handling := .writing msg { v with fileStatus := st } marks ok }, []⟩
    | _ => none
  | .write =>
    match x.handling with
    | .writing msg updated marks ok =>
      some ⟨updateFileState files msg.filename updated, disk, x.marked msg marks ok,
        answer sessionUuid (ok || !marks.isEmpty)⟩
    | _ => none
  | .notify =>
    match x.handling with
    | .notifying msg =>
      some ⟨files, disk, { x with handling := .receiving },
        [.fileUpComplete (fileUpComplete sessionUuid msg)]⟩
    | _ => none
  | .disconnect =>
    match x.handling with
    | .receiving => some ⟨files, disk, { x with handling := .ended }, []⟩
    | _ => none

/-! ## What a step can do -/

/-- `sessionStep` as a relation: one constructor for each section, with what it finds. -/
inductive SessionStep (files : FileTable) (disk : Disk) (x : Session) :
    SessionAction → Effect → Prop
  | prepare (h : x.starting = .preparing) :
    SessionStep files disk x .prepare ⟨files, disk,
      { x with areArgsReady := true, starting := .scanning x.requiredFilesState }, []⟩
  | scan {now k todo v} (h : x.starting = .scanning (k :: todo)) (hv : files k = some v) :
    SessionStep files disk x (.scan now) ⟨files, disk, x.scan w now v todo, []⟩
  | claim {updated todo} (h : x.starting = .claiming updated todo) :
    SessionStep files disk x .claim
      ⟨updateFileState files (cnvtServerToClientPath w updated.serverFilePath) updated, disk,
        x.claim w updated todo, []⟩
  | confirm (h : x.starting = .scanning []) :
    SessionStep files disk x .confirm
      ⟨files, disk, { x with starting := .sweeping, handling := .receiving },
        [.sessionConfirmed sessionUuid x.requested]⟩
  | receive {msg} (h : x.handling = .receiving) :
    SessionStep files disk x (.receive msg)
      ⟨files, disk, x.receive sessionUuid msg (files msg.filename),
        answer sessionUuid (files msg.filename).isSome⟩
  | transfer {msg path} (h : x.handling = .transferring msg path) :
    SessionStep files disk x .transfer
      ⟨files, (receiveChunk sessionUuid path msg disk x.transfers).disk,
        x.transferred msg path (receiveChunk sessionUuid path msg disk x.transfers), []⟩
  | measure {msg path v} (h : x.handling = .measuring msg path)
    (hv : files msg.filename = some v) :
    SessionStep files disk x .measure ⟨files, disk, x.measured msg path v (disk.files path), []⟩
  | hash {msg path v} (h : x.handling = .hashing msg path) (hv : files msg.filename = some v) :
    SessionStep files disk x .hash ⟨files, disk, x.hashed sha1 msg v (disk.files path), []⟩
  | copy {msg st marks ok v} (h : x.handling = .copying msg (st :: marks) ok)
    (hv : files msg.filename = some v) :
    SessionStep files disk x .copy ⟨files, disk,
      { x with handling := .writing msg { v with fileStatus := st } marks ok }, []⟩
  | write {msg updated marks ok} (h : x.handling = .writing msg updated marks ok) :
    SessionStep files disk x .write
      ⟨updateFileState files msg.filename updated, disk, x.marked msg marks ok,
        answer sessionUuid (ok || !marks.isEmpty)⟩
  | notify {msg} (h : x.handling = .notifying msg) :
    SessionStep files disk x .notify ⟨files, disk, { x with handling := .receiving },
      [.fileUpComplete (fileUpComplete sessionUuid msg)]⟩
  | disconnect (h : x.handling = .receiving) :
    SessionStep files disk x .disconnect ⟨files, disk, { x with handling := .ended }, []⟩

variable {sha1 w sessionUuid}

/-- **What a step of a session can do**, once and for all. -/
theorem sessionStep_cases {a : SessionAction} {files : FileTable} {disk : Disk} {x : Session}
    {e : Effect} (h : sessionStep sha1 w sessionUuid a files disk x = some e) :
    SessionStep sha1 w sessionUuid files disk x a e := by
  cases a with
  | prepare =>
    simp only [sessionStep] at h
    split at h
    · cases h
      exact .prepare ‹_›
    · cases h
  | scan now =>
    simp only [sessionStep] at h
    split at h
    · obtain ⟨v, hv, rfl⟩ := Option.map_eq_some_iff.mp h
      exact .scan ‹_› hv
    · cases h
  | claim =>
    simp only [sessionStep] at h
    split at h
    · cases h
      exact .claim ‹_›
    · cases h
  | confirm =>
    simp only [sessionStep] at h
    split at h
    · cases h
      exact .confirm ‹_›
    · cases h
  | receive msg =>
    simp only [sessionStep] at h
    split at h
    · cases h
      exact .receive ‹_›
    · cases h
  | transfer =>
    simp only [sessionStep] at h
    split at h
    · cases h
      exact .transfer ‹_›
    · cases h
  | measure =>
    simp only [sessionStep] at h
    split at h
    · obtain ⟨v, hv, rfl⟩ := Option.map_eq_some_iff.mp h
      exact .measure ‹_› hv
    · cases h
  | hash =>
    simp only [sessionStep] at h
    split at h
    · obtain ⟨v, hv, rfl⟩ := Option.map_eq_some_iff.mp h
      exact .hash ‹_› hv
    · cases h
  | copy =>
    simp only [sessionStep] at h
    split at h
    · obtain ⟨v, hv, rfl⟩ := Option.map_eq_some_iff.mp h
      exact .copy ‹_› hv
    · cases h
  | write =>
    simp only [sessionStep] at h
    split at h
    · cases h
      exact .write ‹_›
    · cases h
  | notify =>
    simp only [sessionStep] at h
    split at h
    · cases h
      exact .notify ‹_›
    · cases h
  | disconnect =>
    simp only [sessionStep] at h
    split at h
    · cases h
      exact .disconnect ‹_›
    · cases h

variable {files : FileTable} {disk : Disk} {x : Session} {a : SessionAction} {e : Effect}

/-- What a session was started with stays as it is. -/
theorem SessionStep.frame (h : SessionStep sha1 w sessionUuid files disk x a e) :
    e.session.declared = x.declared ∧ e.session.requiredFilesState = x.requiredFilesState
      ∧ e.session.terminated = x.terminated := by
  cases h with
  | scan h hv =>
    unfold Session.scan
    split <;> exact ⟨rfl, rfl, rfl⟩
  | @receive msg h =>
    unfold Session.receive
    split
    · exact ⟨rfl, rfl, rfl⟩
    · split <;> exact ⟨rfl, rfl, rfl⟩
  | measure h hv =>
    unfold Session.measured
    split
    · exact ⟨rfl, rfl, rfl⟩
    · split <;> exact ⟨rfl, rfl, rfl⟩
  | hash h hv =>
    unfold Session.hashed
    split <;> exact ⟨rfl, rfl, rfl⟩
  | write h =>
    unfold Session.marked
    split <;> exact ⟨rfl, rfl, rfl⟩
  | _ => exact ⟨rfl, rfl, rfl⟩

/-- **The file table changes in two sections only**: a claim and a mark. -/
theorem SessionStep.files_cases (h : SessionStep sha1 w sessionUuid files disk x a e) :
    e.files = files
      ∨ (∃ updated todo, a = .claim ∧ x.starting = .claiming updated todo
          ∧ e.files = updateFileState files (cnvtServerToClientPath w updated.serverFilePath)
              updated)
      ∨ ∃ msg updated marks ok, a = .write ∧ x.handling = .writing msg updated marks ok
          ∧ e.files = updateFileState files msg.filename updated := by
  cases h with
  | claim h => exact Or.inr (Or.inl ⟨_, _, rfl, h, rfl⟩)
  | write h => exact Or.inr (Or.inr ⟨_, _, _, _, rfl, h, rfl⟩)
  | _ => exact Or.inl rfl

/-- A step of a session adds no entry. -/
theorem SessionStep.known (h : SessionStep sha1 w sessionUuid files disk x a e) {k : Str}
    {v : FileStateView} (hv : e.files k = some v) : ∃ v, files k = some v := by
  rcases h.files_cases with hf | ⟨u, _, -, -, hf⟩ | ⟨msg, u, _, _, -, -, hf⟩
  · exact ⟨v, hf ▸ hv⟩
  all_goals
    rw [hf] at hv
    exact forall_updateFileState (P := fun k _ => ∃ v, files k = some v) (fun _ v hv => ⟨v, hv⟩)
      (fun v hv => ⟨v, hv⟩) k v hv

/-- **A copy to be written back was taken from the entry it replaces.** -/
theorem SessionStep.writing_cases (h : SessionStep sha1 w sessionUuid files disk x a e)
    {msg : FileChunk} {updated : FileStateView} {marks : List FileStatus} {ok : Bool}
    (hw : e.session.handling = .writing msg updated marks ok) :
    x.handling = .writing msg updated marks ok
      ∨ ∃ v st, a = .copy ∧ x.handling = .copying msg (st :: marks) ok
        ∧ files msg.filename = some v ∧ updated = { v with fileStatus := st } := by
  cases h with
  | prepare h => exact Or.inl hw
  | scan h hv =>
    unfold Session.scan at hw
    split at hw <;> exact Or.inl hw
  | claim h => exact Or.inl hw
  | confirm h => cases hw
  | receive h =>
    unfold Session.receive at hw
    split at hw
    · cases hw
    · split at hw <;> cases hw
  | transfer h =>
    simp only [Session.transferred] at hw
    split at hw <;> cases hw
  | measure h hv =>
    unfold Session.measured at hw
    split at hw
    · cases hw
    · split at hw <;> cases hw
  | hash h hv =>
    unfold Session.hashed at hw
    split at hw <;> cases hw
  | copy h hv =>
    cases hw
    exact Or.inr ⟨_, _, rfl, h, hv, rfl⟩
  | write h =>
    unfold Session.marked at hw
    split at hw <;> cases hw
  | notify h => cases hw
  | disconnect h => cases hw

/-- **The two threads of a session**: `add_session` moves on and the handler stays where it is; or
the session is confirmed, which starts the handler; or the handler moves on and asks for nothing. -/
theorem SessionStep.threads (h : SessionStep sha1 w sessionUuid files disk x a e) :
    (x.starting.unconfirmed = true ∧ e.session.starting.unconfirmed = true
        ∧ e.session.handling = x.handling ∧ e.session.transfers = x.transfers ∧ e.disk = disk)
      ∨ (a = .confirm ∧ x.starting = .scanning [] ∧ e.files = files ∧ e.disk = disk
        ∧ e.session = { x with starting := .sweeping, handling := .receiving })
      ∨ (x.handling.serving = true ∧ e.session.starting = x.starting
        ∧ e.session.requested = x.requested
        ∧ (e.session.handling.serving = true ∨ e.session.handling = .ended)) := by
  cases h with
  | prepare h => exact Or.inl ⟨by rw [h]; rfl, rfl, rfl, rfl, rfl⟩
  | scan h hv =>
    refine Or.inl ⟨by rw [h]; rfl, ?_⟩
    unfold Session.scan
    split <;> exact ⟨rfl, rfl, rfl, rfl⟩
  | claim h => exact Or.inl ⟨by rw [h]; rfl, rfl, rfl, rfl, rfl⟩
  | confirm h => exact Or.inr (Or.inl ⟨rfl, h, rfl, rfl, rfl⟩)
  | receive h =>
    refine Or.inr (Or.inr ⟨by rw [h]; rfl, ?_⟩)
    unfold Session.receive
    split
    · exact ⟨rfl, rfl, Or.inl rfl⟩
    · split <;> exact ⟨rfl, rfl, Or.inl rfl⟩
  | transfer h =>
    refine Or.inr (Or.inr ⟨by rw [h]; rfl, rfl, rfl, Or.inl ?_⟩)
    simp only [Session.transferred]
    split <;> rfl
  | measure h hv =>
    refine Or.inr (Or.inr ⟨by rw [h]; rfl, ?_⟩)
    unfold Session.measured
    split
    · exact ⟨rfl, rfl, Or.inr rfl⟩
    · split <;> exact ⟨rfl, rfl, Or.inl rfl⟩
  | hash h hv =>
    refine Or.inr (Or.inr ⟨by rw [h]; rfl, ?_⟩)
    unfold Session.hashed
    split <;> exact ⟨rfl, rfl, Or.inl rfl⟩
  | copy h hv => exact Or.inr (Or.inr ⟨by rw [h]; rfl, rfl, rfl, Or.inl rfl⟩)
  | write h =>
    refine Or.inr (Or.inr ⟨by rw [h]; rfl, ?_⟩)
    unfold Session.marked
    split <;> exact ⟨rfl, rfl, Or.inl rfl⟩
  | notify h => exact Or.inr (Or.inr ⟨by rw [h]; rfl, rfl, rfl, Or.inl rfl⟩)
  | disconnect h => exact Or.inr (Or.inr ⟨by rw [h]; rfl, rfl, rfl, Or.inr rfl⟩)

/-- **How `add_session` moves on**: to its scan, past a scanned file or to its claim, past the
claim, to the sweep; or not at all. -/
theorem SessionStep.starting_cases (h : SessionStep sha1 w sessionUuid files disk x a e) :
    e.session.starting = x.starting
      ∨ e.session.starting = .scanning x.requiredFilesState
      ∨ (∃ k todo, x.starting = .scanning (k :: todo) ∧ e.session.starting = .scanning todo)
      ∨ (∃ now k todo v, x.starting = .scanning (k :: todo) ∧ files k = some v
          ∧ e.session.starting
            = .claiming { v with fileStatus := .uploading, upStartTime := now } todo)
      ∨ (∃ u todo, x.starting = .claiming u todo ∧ e.session.starting = .scanning todo)
      ∨ e.session.starting = .sweeping := by
  cases h with
  | prepare h => exact Or.inr (Or.inl rfl)
  | @scan now k todo v h hv =>
    unfold Session.scan
    split
    · exact Or.inr (Or.inr (Or.inr (Or.inl ⟨now, k, todo, v, h, hv, rfl⟩)))
    all_goals exact Or.inr (Or.inr (Or.inl ⟨k, todo, h, rfl⟩))
  | claim h => exact Or.inr (Or.inr (Or.inr (Or.inr (Or.inl ⟨_, _, h, rfl⟩))))
  | confirm h => exact Or.inr (Or.inr (Or.inr (Or.inr (Or.inr rfl))))
  | receive h =>
    unfold Session.receive
    split
    · exact Or.inl rfl
    · split <;> exact Or.inl rfl
  | measure h hv =>
    unfold Session.measured
    split
    · exact Or.inl rfl
    · split <;> exact Or.inl rfl
  | hash h hv =>
    unfold Session.hashed
    split <;> exact Or.inl rfl
  | write h =>
    unfold Session.marked
    split <;> exact Or.inl rfl
  | _ => exact Or.inl rfl

/-- The upload of the file at `p` is over: it was completed, or a chunk of it rejected. -/
def Session.Finished (x : Session) (p : Str) : Prop :=
  ∃ t ∈ x.transfers p, t.isFinished = true

instance (x : Session) (p : Str) : Decidable (x.Finished p) := by
  unfold Session.Finished
  infer_instance

/-- **What is finished stays finished.** -/
theorem SessionStep.finished (h : SessionStep sha1 w sessionUuid files disk x a e) {p : Str}
    (hp : x.Finished p) : e.session.Finished p := by
  rcases h.threads with ⟨-, -, -, ht, -⟩ | ⟨-, -, -, -, he⟩ | -
  · exact (show e.session.Finished p ↔ x.Finished p by simp [Session.Finished, ht]).mpr hp
  · rw [he]
    exact hp
  · cases h with
    | scan h hv =>
      unfold Session.scan
      split <;> exact hp
    | @receive msg h =>
      unfold Session.receive
      split
      · exact hp
      · split <;> exact hp
    | @transfer msg path h =>
      obtain ⟨t, ht, hfin⟩ := hp
      by_cases hpath : p = path
      · subst hpath
        refine ⟨t, ?_, hfin⟩
        simp only [Session.transferred, receiveChunk_of_finished ht hfin]
        exact ht
      · exact ⟨t, (receiveChunk_transfers_of_ne _ _ _ _ hpath).trans ht, hfin⟩
    | measure h hv =>
      unfold Session.measured
      split
      · exact hp
      · split <;> exact hp
    | hash h hv =>
      unfold Session.hashed
      split <;> exact hp
    | write h =>
      unfold Session.marked
      split <;> exact hp
    | _ => exact hp

/-- **A session is asked for files in two sections only**: by a claim, and for a file in FAULT. -/
theorem SessionStep.requested_cases (h : SessionStep sha1 w sessionUuid files disk x a e) :
    e.session.requested = x.requested
      ∨ (∃ updated todo, a = .claim ∧ x.starting = .claiming updated todo
          ∧ e.session.requested
            = x.requested ++ [cnvtServerToClientPath w updated.serverFilePath])
      ∨ ∃ now k todo v, a = .scan now ∧ x.starting = .scanning (k :: todo) ∧ files k = some v
          ∧ v.fileStatus = .fault
          ∧ e.session.requested = x.requested ++ [cnvtServerToClientPath w v.serverFilePath] := by
  rcases h.threads with - | ⟨-, -, -, -, he⟩ | ⟨-, -, hr, -⟩
  · cases h with
    | @scan now k todo v h hv =>
      cases hst : v.fileStatus with
      | fault =>
        exact Or.inr (Or.inr ⟨now, k, todo, v, rfl, h, hv, hst, by simp [Session.scan, hst]⟩)
      | _ => exact Or.inl (by simp [Session.scan, hst])
    | claim h => exact Or.inr (Or.inl ⟨_, _, rfl, h, rfl⟩)
    | receive h =>
      unfold Session.receive
      split
      · exact Or.inl rfl
      · split <;> exact Or.inl rfl
    | measure h hv =>
      unfold Session.measured
      split
      · exact Or.inl rfl
      · split <;> exact Or.inl rfl
    | hash h hv =>
      unfold Session.hashed
      split <;> exact Or.inl rfl
    | write h =>
      unfold Session.marked
      split <;> exact Or.inl rfl
    | _ => exact Or.inl rfl
  · exact Or.inl (by rw [he])
  · exact Or.inl hr

/-- A step never takes back what was asked. -/
theorem SessionStep.requested_subset (h : SessionStep sha1 w sessionUuid files disk x a e) {k : Str}
    (hk : k ∈ x.requested) : k ∈ e.session.requested := by
  rcases h.requested_cases with hr | ⟨_, _, -, -, hr⟩ | ⟨_, _, _, _, -, -, -, -, hr⟩
  · exact hr ▸ hk
  · exact hr ▸ List.mem_append_left _ hk
  · exact hr ▸ List.mem_append_left _ hk

/-- **A file comes to be judged in two sections only**: in the transfer section that ends its
upload, and, unread, by a chunk sent for another session. -/
theorem SessionStep.judging_cases (h : SessionStep sha1 w sessionUuid files disk x a e) {k : Str}
    (hk : e.session.handling.judging = some k) :
    x.handling.judging = some k
      ∨ (∃ msg path, a = .transfer ∧ x.handling = .transferring msg path ∧ msg.filename = k
          ∧ ¬ x.Finished path ∧ e.session.Finished path)
      ∨ ∃ msg v, a = .receive msg ∧ files msg.filename = some v ∧ msg.sessionId ≠ sessionUuid
          ∧ msg.filename = k := by
  cases h with
  | prepare h => exact Or.inl hk
  | scan h hv =>
    unfold Session.scan at hk
    split at hk <;> exact Or.inl hk
  | claim h => exact Or.inl hk
  | confirm h => cases hk
  | @receive msg h =>
    cases hv : files msg.filename with
    | none =>
      rw [hv] at hk
      cases hk
    | some v =>
      by_cases hid : msg.sessionId = sessionUuid
      · simp only [hv, Session.receive, hid, ne_eq, not_true_eq_false, if_false] at hk
        cases hk
      · simp only [hv, Session.receive, hid, ne_eq, not_false_eq_true, if_true] at hk
        exact Or.inr (Or.inr ⟨msg, v, rfl, hv, hid, Option.some.inj hk⟩)
  | @transfer msg path h =>
    obtain ⟨t, ht, hfin⟩ := receiveChunk_transfer sessionUuid path msg disk x.transfers
    have hunf : (receiveChunk sessionUuid path msg disk x.transfers).verdict ≠ .finished →
        ¬ x.Finished path := by
      rintro hne ⟨t', ht', hfin'⟩
      exact hne (by rw [receiveChunk_of_finished ht' hfin'])
    cases hverdict : (receiveChunk sessionUuid path msg disk x.transfers).verdict with
    | finished =>
      simp only [Session.transferred, hverdict] at hk
      cases hk
    | stored =>
      simp only [Session.transferred, hverdict] at hk
      cases hk
    | rejected =>
      simp only [Session.transferred, hverdict] at hk
      rw [hverdict] at hunf hfin
      exact Or.inr (Or.inl ⟨msg, path, rfl, h, Option.some.inj hk, hunf nofun,
        t, ht, Bool.not_eq_false _ ▸ fun h0 => nomatch hfin.mp h0⟩)
    | complete =>
      simp only [Session.transferred, hverdict] at hk
      rw [hverdict] at hunf hfin
      exact Or.inr (Or.inl ⟨msg, path, rfl, h, Option.some.inj hk, hunf nofun,
        t, ht, Bool.not_eq_false _ ▸ fun h0 => nomatch hfin.mp h0⟩)
  | measure h hv =>
    refine Or.inl ?_
    rw [h]
    unfold Session.measured at hk
    split at hk
    · cases hk
    · split at hk <;> exact hk
  | hash h hv =>
    refine Or.inl ?_
    rw [h]
    unfold Session.hashed at hk
    split at hk <;> exact hk
  | copy h hv => exact Or.inl (by rw [h]; exact hk)
  | write h =>
    refine Or.inl ?_
    rw [h]
    unfold Session.marked at hk
    split at hk
    · exact hk
    · cases hk
    · cases hk
  | notify h => cases hk
  | disconnect h => cases hk

/-- AVAILABLE is the last status a handler sets. -/
theorem SessionStep.available_last (h : SessionStep sha1 w sessionUuid files disk x a e)
    (hx : FileStatus.available ∉ x.handling.marks.dropLast) :
    FileStatus.available ∉ e.session.handling.marks.dropLast := by
  cases h with
  | scan h hv =>
    unfold Session.scan
    split <;> exact hx
  | receive h =>
    unfold Session.receive
    split
    · exact List.not_mem_nil
    · split <;> exact List.not_mem_nil
  | transfer h =>
    simp only [Session.transferred]
    split <;> exact List.not_mem_nil
  | measure h hv =>
    unfold Session.measured
    split
    · exact List.not_mem_nil
    · split <;> exact List.not_mem_nil
  | hash h hv =>
    unfold Session.hashed
    split
    · exact fun h0 => by simp [Handling.marks] at h0
    · exact List.not_mem_nil
  | copy h hv =>
    rw [h] at hx
    exact hx
  | @write msg u marks ok h =>
    rw [h] at hx
    unfold Session.marked
    split
    · exact fun h0 => hx (List.mem_cons_of_mem _ h0)
    · exact List.not_mem_nil
    · exact List.not_mem_nil
  | prepare h => exact hx
  | claim h => exact hx
  | confirm h => exact List.not_mem_nil
  | notify h => exact List.not_mem_nil
  | disconnect h => exact List.not_mem_nil

end DistBuild
