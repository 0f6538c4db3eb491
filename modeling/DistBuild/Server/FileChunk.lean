import DistBuild.Machinery.Run
import DistBuild.Server.FileState

/-!
# Server/FileChunk — what one upload message does to a file

    lookup ──▸ session id ──▸ receiveChunk (open, check, write) ──▸ size ──▸ SHA-1 ──▸ status

`processFileChunk` is the handler, section by section as `Server/System` interleaves them.  What its
transfer section can do is said once (`receiveChunk_cases`); the frame lemmas follow from it.

The digest function is a parameter: nothing here depends on which one it is.
-/

namespace DistBuild

/-- `ClientFileChunkUploadRequest`. -/
structure FileChunk where
  sessionId : SessionId
  filename : Str
  sequenceNo : UInt64
  offset : UInt64
  data : Str
  isLastChunk : Bool
deriving DecidableEq, Repr

/-- `ServerFileUpCompleteResponse`. -/
structure FileUpComplete where
  sessionId : SessionId
  filename : Str
  success : Bool
deriving DecidableEq, Repr

/-- `ClientView::_client_file_states`: client file name ↦ server file state. -/
abbrev FileTable := Str → Option FileStateView

/-- `ServerSession::_file_transfer_states`: server file name ↦ transfer. -/
abbrev Transfers := Str → Option FileTransferState

/-- `ClientView::update_file_state`: an entry is replaced, an unknown name is not added. -/
def updateFileState (files : FileTable) (clientPath : Str) (updated : FileStateView) : FileTable :=
  match files clientPath with
  | none => files
  | some _ => Function.update files clientPath (some updated)

theorem updateFileState_of_some {files : FileTable} {f : Str} {v : FileStateView}
    (h : files f = some v) (u : FileStateView) :
    updateFileState files f u = Function.update files f (some u) := by
  simp [updateFileState, h]

theorem updateFileState_of_none {files : FileTable} {f : Str} (h : files f = none)
    (u : FileStateView) : updateFileState files f u = files := by
  simp [updateFileState, h]

theorem updateFileState_of_ne (files : FileTable) {f g : Str} (u : FileStateView) (h : g ≠ f) :
    updateFileState files f u g = files g := by
  unfold updateFileState
  cases files f with
  | none => rfl
  | some _ => exact Function.update_of_ne h ..

/-- What holds of all entries holds after one is replaced, if it holds of the new one. -/
theorem forall_updateFileState {files : FileTable} {f : Str} {u : FileStateView}
    {P : Str → FileStateView → Prop} (h : ∀ k v, files k = some v → P k v)
    (hu : ∀ v, files f = some v → P f u) : ∀ k v, updateFileState files f u k = some v → P k v := by
  cases hf : files f with
  | none =>
    rw [updateFileState_of_none hf]
    exact h
  | some v₀ =>
    rw [updateFileState_of_some hf]
    exact forall_update h (hu v₀ hf)

theorem eq_of_updateFileState_self {files : FileTable} {f : Str} {u v : FileStateView}
    (h : updateFileState files f u f = some v) : v = u := by
  cases hf : files f with
  | none =>
    rw [updateFileState_of_none hf, hf] at h
    cases h
  | some _ =>
    rw [updateFileState_of_some hf, Function.update_self] at h
    exact (Option.some.inj h).symm

/-- Replacing an entry removes none. -/
theorem updateFileState_isSome {files : FileTable} {f k : Str} {u v : FileStateView}
    (h : files k = some v) : ∃ v', updateFileState files f u k = some v' ∧ (v' = v ∨ v' = u) := by
  by_cases hk : k = f
  · subst hk
    exact ⟨u, by rw [updateFileState_of_some h, Function.update_self], Or.inr rfl⟩
  · exact ⟨v, (updateFileState_of_ne files u hk).trans h, Or.inl rfl⟩

/-- The `set_file_state` of `process_file_chunk`: write back a copy with another status. -/
def setFileState (files : FileTable) (clientPath : Str) (fileState : FileStateView)
    (newStatus : FileStatus) : FileTable :=
  updateFileState files clientPath { fileState with fileStatus := newStatus }

theorem setFileState_self {files : FileTable} {f : Str} {v₀ : FileStateView} (h : files f = some v₀)
    (v : FileStateView) (st : FileStatus) :
    setFileState files f v st f = some { v with fileStatus := st } := by
  rw [setFileState, updateFileState_of_some h, Function.update_self]

theorem setFileState_of_ne (files : FileTable) {f g : Str} (v : FileStateView) (st : FileStatus)
    (h : g ≠ f) : setFileState files f v st g = files g :=
  updateFileState_of_ne files _ h

/-! ## The transfer section -/

namespace FileTransferState

/-- End the transfer: no later chunk is looked at. -/
def finish (t : FileTransferState) : FileTransferState :=
  { t with isFinished := true, fileOutStream := t.fileOutStream.close }

/-- A chunk that is not the next one of this transfer. -/
def rejects (t : FileTransferState) (sessionUuid : SessionId) (msg : FileChunk) : Bool :=
  t.sessionId != sessionUuid || msg.sequenceNo != t.lastSeqNo + 1 || msg.offset < t.lastOffset

/-- The transfer once `msg` has been written through its stream. -/
def advance (t : FileTransferState) (stream : OutStream) (msg : FileChunk) : FileTransferState :=
  { t with fileOutStream := stream, lastOffset := msg.offset, lastSeqNo := msg.sequenceNo }

end FileTransferState

/-- How the transfer section ends. -/
inductive Verdict
  | finished
  | rejected
  | stored
  | complete
deriving DecidableEq, Repr

structure Received where
  verdict : Verdict
  disk : Disk
  transfers : Transfers

/-- `_file_transfer_states.try_emplace`: the file is opened by the first chunk for it. -/
def openTransfer (sessionUuid : SessionId) (path : Str) (d : Disk) (ts : Transfers) :
    Disk × FileTransferState :=
  match ts path with
  | some t => (d, t)
  | none => FileTransferState.new d sessionUuid path

/-- The part of `process_file_chunk` that runs under the session's mutex, up to the size check. -/
def receiveChunk (sessionUuid : SessionId) (path : Str) (msg : FileChunk) (d : Disk)
    (ts : Transfers) : Received :=
  let o := openTransfer sessionUuid path d ts
  if o.2.isFinished then ⟨.finished, o.1, ts⟩
  else if o.2.rejects sessionUuid msg then
    ⟨.rejected, o.1, Function.update ts path (some o.2.finish)⟩
  else
    let w := OutStream.write o.1 o.2.fileOutStream msg.data
    let t := o.2.advance w.2 msg
    if msg.isLastChunk then ⟨.complete, w.1, Function.update ts path (some t.finish)⟩
    else ⟨.stored, w.1, Function.update ts path (some t)⟩

/-- **What the transfer section can do**, once and for all: the four ways it ends, with the disk and
the transfers each leaves.  `o` is the transfer it works on, `w` the stream it wrote. -/
theorem receiveChunk_cases {sessionUuid : SessionId} {path : Str} {msg : FileChunk} {d : Disk}
    {ts : Transfers} {P : Received → Prop}
    (finished : (openTransfer sessionUuid path d ts).2.isFinished = true →
      P ⟨.finished, (openTransfer sessionUuid path d ts).1, ts⟩)
    (rejected : ∀ o, openTransfer sessionUuid path d ts = o → o.2.isFinished = false →
      o.2.rejects sessionUuid msg = true →
      P ⟨.rejected, o.1, Function.update ts path (some o.2.finish)⟩)
    (complete : ∀ o w, openTransfer sessionUuid path d ts = o → o.2.isFinished = false →
      o.2.rejects sessionUuid msg = false → msg.isLastChunk = true →
      OutStream.write o.1 o.2.fileOutStream msg.data = w →
      P ⟨.complete, w.1, Function.update ts path (some (o.2.advance w.2 msg).finish)⟩)
    (stored : ∀ o w, openTransfer sessionUuid path d ts = o → o.2.isFinished = false →
      o.2.rejects sessionUuid msg = false → msg.isLastChunk = false →
      OutStream.write o.1 o.2.fileOutStream msg.data = w →
      P ⟨.stored, w.1, Function.update ts path (some (o.2.advance w.2 msg))⟩) :
    P (receiveChunk sessionUuid path msg d ts) := by
  simp only [receiveChunk]
  by_cases hf : (openTransfer sessionUuid path d ts).2.isFinished = true
  · rw [if_pos hf]
    exact finished hf
  · have hf' := Bool.not_eq_true _ ▸ hf
    rw [if_neg hf]
    by_cases hr : (openTransfer sessionUuid path d ts).2.rejects sessionUuid msg = true
    · rw [if_pos hr]
      exact rejected _ rfl hf' hr
    · have hr' := Bool.not_eq_true _ ▸ hr
      rw [if_neg hr]
      cases hl : msg.isLastChunk with
      | true => exact complete _ _ rfl hf' hr' hl rfl
      | false => exact stored _ _ rfl hf' hr' hl rfl

/-- Opening a transfer leaves every other file alone. -/
theorem openTransfer_files_of_ne (sessionUuid : SessionId) {p q : Str} (d : Disk) (ts : Transfers)
    (h : q ≠ p) : (openTransfer sessionUuid p d ts).1.files q = d.files q := by
  unfold openTransfer
  cases ts p with
  | some t => rfl
  | none => exact OutStream.openTrunc_files_of_ne d h

/-- A finished transfer is looked at, not opened. -/
theorem openTransfer_of_some {sessionUuid : SessionId} {p : Str} {d : Disk} {ts : Transfers}
    {t : FileTransferState} (h : ts p = some t) : openTransfer sessionUuid p d ts = (d, t) := by
  simp [openTransfer, h]

theorem openTransfer_of_none {sessionUuid : SessionId} {p : Str} {d : Disk} {ts : Transfers}
    (h : ts p = none) :
    openTransfer sessionUuid p d ts = FileTransferState.new d sessionUuid p := by
  simp [openTransfer, h]

/-- The first chunk of a transfer has sequence number 1. -/
theorem rejects_new (sessionUuid : SessionId) (d : Disk) (p : Str) (msg : FileChunk) :
    (FileTransferState.new d sessionUuid p).2.rejects sessionUuid msg = (msg.sequenceNo != 1) := by
  have h0 : ¬ msg.offset < 0 := by simp [UInt64.lt_iff_toNat_lt]
  simp [FileTransferState.rejects, FileTransferState.new, h0]

/-- The section touches the transfer of its own path only. -/
theorem receiveChunk_transfers_of_ne (sessionUuid : SessionId) {p q : Str} (msg : FileChunk)
    (d : Disk) (ts : Transfers) (h : q ≠ p) :
    (receiveChunk sessionUuid p msg d ts).transfers q = ts q := by
  refine receiveChunk_cases (P := fun r => r.transfers q = ts q) ?_ ?_ ?_ ?_
  · intro _
    rfl
  · intro o _ _ _
    exact Function.update_of_ne h ..
  · intro o w _ _ _ _ _
    exact Function.update_of_ne h ..
  · intro o w _ _ _ _ _
    exact Function.update_of_ne h ..

/-- After the section the transfer is there, and it is unfinished exactly if the chunk was
stored. -/
theorem receiveChunk_transfer (sessionUuid : SessionId) (p : Str) (msg : FileChunk) (d : Disk)
    (ts : Transfers) :
    ∃ t, (receiveChunk sessionUuid p msg d ts).transfers p = some t
      ∧ (t.isFinished = false ↔ (receiveChunk sessionUuid p msg d ts).verdict = .stored) := by
  refine receiveChunk_cases
    (P := fun r => ∃ t, r.transfers p = some t ∧ (t.isFinished = false ↔ r.verdict = .stored))
    ?_ ?_ ?_ ?_
  · intro hf
    cases ht : ts p with
    | none =>
      rw [openTransfer_of_none ht] at hf
      cases hf
    | some t =>
      rw [openTransfer_of_some ht] at hf
      exact ⟨t, ht, by simp [show t.isFinished = true from hf]⟩
  · intro o _ _ _
    exact ⟨_, Function.update_self .., by simp [FileTransferState.finish]⟩
  · intro o w _ _ _ _ _
    exact ⟨_, Function.update_self .., by simp [FileTransferState.finish]⟩
  · intro o w _ hf _ _ _
    exact ⟨_, Function.update_self .., by simpa [FileTransferState.advance] using hf⟩

/-- A finished transfer ends the section at once, and nothing changes. -/
theorem receiveChunk_of_finished {sessionUuid : SessionId} {p : Str} {msg : FileChunk} {d : Disk}
    {ts : Transfers} {t : FileTransferState} (h : ts p = some t) (hf : t.isFinished = true) :
    receiveChunk sessionUuid p msg d ts = ⟨.finished, d, ts⟩ := by
  simp [receiveChunk, openTransfer_of_some h, hf]

/-- Only a finished transfer ends it so. -/
theorem finished_of_verdict {sessionUuid : SessionId} {p : Str} {msg : FileChunk} {d : Disk}
    {ts : Transfers} (h : (receiveChunk sessionUuid p msg d ts).verdict = .finished) :
    ∃ t, ts p = some t ∧ t.isFinished = true := by
  revert h
  refine receiveChunk_cases (P := fun r => r.verdict = .finished → _) (fun hf _ => ?_)
    (fun _ _ _ _ => nofun) (fun _ _ _ _ _ _ _ => nofun) (fun _ _ _ _ _ _ _ => nofun)
  cases ht : ts p with
  | none =>
    rw [openTransfer_of_none ht] at hf
    cases hf
  | some t =>
    rw [openTransfer_of_some ht] at hf
    exact ⟨t, rfl, hf⟩

/-! ## The handler -/

/-- What a session's handler works on: the client's file table, the disk, its own transfers. -/
structure UploadState where
  files : FileTable
  disk : Disk
  transfers : Transfers

/-- How a call ends: with its result, or with an exception of `std::filesystem`. -/
inductive Outcome
  | value (ok : Bool)
  | threw
deriving DecidableEq, Repr

/-- One call of `process_file_chunk`: its result, the statuses it set in order, the
acknowledgements it sent, and the state it left. -/
structure ChunkStep where
  outcome : Outcome
  marks : List FileStatus
  replies : List FileUpComplete
  state : UploadState

/-- The acknowledgement of an accepted last chunk. -/
def fileUpComplete (sessionUuid : SessionId) (msg : FileChunk) : FileUpComplete where
  sessionId := sessionUuid
  filename := msg.filename
  success := true

variable (sha1 : Str → Str) (sessionUuid : SessionId)

/-- The verdict on a completed file: the statuses to set, in order, and the result. -/
def judge (v : FileStateView) (content : Str) : List FileStatus × Bool :=
  if v.fileSzBytes.toNat ≠ content.length then ([.fault], false)
  else if v.fileSha1 ≠ sha1 content then ([.fault, .available], true)
  else ([.available], true)

/-- `ServerSession::process_file_chunk`.  Its `try_compile_for_active_sessions`, which comes between
the last mark and the acknowledgement, changes no file; it is a step of `Server/System`. -/
def processFileChunk (u : UploadState) (msg : FileChunk) : ChunkStep :=
  match u.files msg.filename with
  | none => ⟨.value false, [], [], u⟩
  | some v =>
    if msg.sessionId ≠ sessionUuid then
      ⟨.value false, [.fault], [], { u with files := setFileState u.files msg.filename v .fault }⟩
    else
      let r := receiveChunk sessionUuid v.serverFilePath msg u.disk u.transfers
      let u := { u with disk := r.disk, transfers := r.transfers }
      match r.verdict with
      | .finished => ⟨.value true, [], [], u⟩
      | .rejected =>
        ⟨.value false, [.fault], [],
          { u with files := setFileState u.files msg.filename v .fault }⟩
      | .stored => ⟨.value true, [], [], u⟩
      | .complete =>
        match u.disk.files v.serverFilePath with
        | none => ⟨.threw, [], [], u⟩
        | some content =>
          let j := judge sha1 v content
          ⟨.value j.2, j.1, if j.2 then [fileUpComplete sessionUuid msg] else [],
            { u with files := j.1.foldl (fun fs st => setFileState fs msg.filename v st) u.files }⟩

theorem processFileChunk_of_stored {u : UploadState} {msg : FileChunk} {v : FileStateView}
    {d : Disk} {ts : Transfers} (hv : u.files msg.filename = some v)
    (hid : msg.sessionId = sessionUuid)
    (hr : receiveChunk sessionUuid v.serverFilePath msg u.disk u.transfers = ⟨.stored, d, ts⟩) :
    processFileChunk sha1 sessionUuid u msg = ⟨.value true, [], [], ⟨u.files, d, ts⟩⟩ := by
  simp [processFileChunk, hv, hid, hr]

theorem processFileChunk_of_complete {u : UploadState} {msg : FileChunk} {v : FileStateView}
    {d : Disk} {ts : Transfers} {content : Str} (hv : u.files msg.filename = some v)
    (hid : msg.sessionId = sessionUuid)
    (hr : receiveChunk sessionUuid v.serverFilePath msg u.disk u.transfers = ⟨.complete, d, ts⟩)
    (hd : d.files v.serverFilePath = some content) :
    processFileChunk sha1 sessionUuid u msg
      = ⟨.value (judge sha1 v content).2, (judge sha1 v content).1,
          if (judge sha1 v content).2 then [fileUpComplete sessionUuid msg] else [],
          ⟨(judge sha1 v content).1.foldl (fun fs st => setFileState fs msg.filename v st) u.files,
            d, ts⟩⟩ := by
  simp [processFileChunk, hv, hid, hr, hd]

theorem processFileChunk_of_complete_none {u : UploadState} {msg : FileChunk} {v : FileStateView}
    {d : Disk} {ts : Transfers} (hv : u.files msg.filename = some v)
    (hid : msg.sessionId = sessionUuid)
    (hr : receiveChunk sessionUuid v.serverFilePath msg u.disk u.transfers = ⟨.complete, d, ts⟩)
    (hd : d.files v.serverFilePath = none) :
    processFileChunk sha1 sessionUuid u msg = ⟨.threw, [], [], ⟨u.files, d, ts⟩⟩ := by
  simp [processFileChunk, hv, hid, hr, hd]

/-- One message of a session; an exception ends its handler, and with it the run. -/
def uploadStep (msg : FileChunk) (u : UploadState) : Option UploadState :=
  match (processFileChunk sha1 sessionUuid u msg).outcome with
  | .value _ => some (processFileChunk sha1 sessionUuid u msg).state
  | .threw => none

/-- A session that has received nothing yet. -/
def UploadState.fresh (files : FileTable) (disk : Disk) : UploadState where
  files := files
  disk := disk
  transfers := fun _ => none

/-! ## Streams write their own file -/

/-- Every transfer writes the file it is filed under. -/
def StreamsOwn (ts : Transfers) : Prop :=
  ∀ p t, ts p = some t → t.fileOutStream.path = p

theorem streamsOwn_openTransfer {ts : Transfers} (h : StreamsOwn ts) (p : Str) (d : Disk) :
    (openTransfer sessionUuid p d ts).2.fileOutStream.path = p := by
  unfold openTransfer
  cases ht : ts p with
  | none => simp [FileTransferState.new]
  | some t => exact h p t ht

theorem StreamsOwn.update {ts : Transfers} (h : StreamsOwn ts) {p : Str} {t : FileTransferState}
    (ht : t.fileOutStream.path = p) : StreamsOwn (Function.update ts p (some t)) :=
  forall_update h ht

theorem StreamsOwn.receiveChunk {ts : Transfers} (h : StreamsOwn ts) (p : Str) (msg : FileChunk)
    (d : Disk) : StreamsOwn (receiveChunk sessionUuid p msg d ts).transfers := by
  have ho := streamsOwn_openTransfer sessionUuid h p d
  refine receiveChunk_cases (P := fun r => StreamsOwn r.transfers) ?_ ?_ ?_ ?_
  · exact fun _ => h
  · rintro o rfl _ _
    exact h.update ho
  · rintro o w rfl _ _ _ rfl
    exact h.update ((OutStream.write_path ..).trans ho)
  · rintro o w rfl _ _ _ rfl
    exact h.update ((OutStream.write_path ..).trans ho)

/-- The section touches the file it is called for only, if streams write their own file. -/
theorem StreamsOwn.receiveChunk_files_of_ne {ts : Transfers} (h : StreamsOwn ts) {p q : Str}
    (msg : FileChunk) (d : Disk) (hq : q ≠ p) :
    (DistBuild.receiveChunk sessionUuid p msg d ts).disk.files q = d.files q := by
  have ho := streamsOwn_openTransfer sessionUuid h p d
  have hd := openTransfer_files_of_ne sessionUuid d ts hq
  refine receiveChunk_cases (P := fun r => r.disk.files q = d.files q) ?_ ?_ ?_ ?_
  · exact fun _ => hd
  · rintro o rfl _ _
    exact hd
  · rintro o w rfl _ _ _ rfl
    exact (OutStream.write_files_of_ne _ _ _ fun he => hq (he.trans ho)).trans hd
  · rintro o w rfl _ _ _ rfl
    exact (OutStream.write_files_of_ne _ _ _ fun he => hq (he.trans ho)).trans hd

/-- SHA-1 on the contents the concrete runs of this development use. -/
def sampleSha1 (content : Str) : Str :=
  if content = str "a" then
    [0x86, 0xf7, 0xe4, 0x37, 0xfa, 0xa5, 0xa7, 0xfc, 0xe1, 0x5d,
       0x1d, 0xdc, 0xb9, 0xea, 0xea, 0xea, 0x37, 0x76, 0x67, 0xb8]
  else if content = str "b" then
    [0xe9, 0xd7, 0x1f, 0x5e, 0xe7, 0xc9, 0x2d, 0x6d, 0xc9, 0xe9,
       0x2f, 0xfd, 0xad, 0x17, 0xb8, 0xbd, 0x49, 0x41, 0x8f, 0x98]
  else []

end DistBuild
