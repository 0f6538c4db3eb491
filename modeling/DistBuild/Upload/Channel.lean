import DistBuild.Machinery.Run
import DistBuild.Upload.SendFile

/-!
# Upload/Channel — client and server over an in-order lossless channel

    client ──toServer: chunk messages──▸ server
           ◂──toClient: acknowledgements──

The client starts with one `_send_required_file` and calls it again for each acknowledgement of its
own session; the server handles one chunk message at a time.  Both handlers have their exits: the
client leaves its loop on any other reply, the server on an exception.
-/

namespace DistBuild

/-- What the upload gets back: `ServerFileUpCompleteResponse`, or `ServerSessionAbortResponse`. -/
inductive Reply
  | fileUpComplete (m : FileUpComplete)
  | sessionAbort (sessionId : SessionId)
deriving DecidableEq, Repr

/-- Both parties and the messages between them.  `handling` and `serving` say that the client's and
the server's handler are in their loops; `sent` records every chunk message the client queued. -/
structure Channel where
  client : ClientUpload
  handling : Bool
  toServer : List FileChunk
  server : UploadState
  serving : Bool
  toClient : List Reply
  sent : List FileChunk

/-- Which party takes its next message. -/
inductive Side
  | server
  | client
deriving DecidableEq, Repr

variable (sha1 : Str → Str) (fs : Str → Option Str)

/-- The client queues the messages of its next required file. -/
def Channel.send (s : Channel) : Channel :=
  let r := sendRequiredFile fs s.client
  { s with client := r.2, toServer := s.toServer ++ r.1, sent := s.sent ++ r.1 }

/-- `handle_server_session` on one chunk message. -/
def Channel.serve (s : Channel) (msg : FileChunk) (rest : List FileChunk) : Channel :=
  let r := processFileChunk sha1 s.client.sessionUuid s.server msg
  match r.outcome with
  | .threw => { s with toServer := rest, server := r.state, serving := false }
  | .value ok =>
    { s with
      toServer := rest
      server := r.state
      toClient := s.toClient ++ r.replies.map .fileUpComplete
        ++ if ok then [] else [.sessionAbort s.client.sessionUuid] }

/-- `_handle_client_session` on one reply; every branch but the first falls back to a local
compilation and leaves the loop. -/
def Channel.reply (s : Channel) (r : Reply) (rest : List Reply) : Channel :=
  match r with
  | .fileUpComplete m =>
    if m.sessionId = s.client.sessionUuid ∧ m.success = true then
      Channel.send fs { s with toClient := rest }
    else { s with toClient := rest, handling := false }
  | .sessionAbort _ => { s with toClient := rest, handling := false }

def Channel.step : Side → Channel → Option Channel
  | .server, s =>
    match s.serving, s.toServer with
    | true, msg :: rest => some (s.serve sha1 msg rest)
    | _, _ => none
  | .client, s =>
    match s.handling, s.toClient with
    | true, r :: rest => some (s.reply fs r rest)
    | _, _ => none

theorem Channel.step_server {s : Channel} {msg : FileChunk} {rest : List FileChunk}
    (hs : s.serving = true) (ht : s.toServer = msg :: rest) :
    Channel.step sha1 fs .server s = some (s.serve sha1 msg rest) := by
  simp [Channel.step, hs, ht]

theorem Channel.step_client {s : Channel} {r : Reply} {rest : List Reply}
    (hs : s.handling = true) (ht : s.toClient = r :: rest) :
    Channel.step sha1 fs .client s = some (s.reply fs r rest) := by
  simp [Channel.step, hs, ht]

theorem Channel.serve_of_value {s : Channel} {msg : FileChunk} {marks : List FileStatus}
    {replies : List FileUpComplete} {u : UploadState} (rest : List FileChunk)
    (h : processFileChunk sha1 s.client.sessionUuid s.server msg
      = ⟨.value true, marks, replies, u⟩) :
    s.serve sha1 msg rest
      = { s with toServer := rest, server := u,
                 toClient := s.toClient ++ replies.map .fileUpComplete } := by
  simp [Channel.serve, h]

/-- The state in which the client's handler has just started. -/
def Channel.start (sessionUuid : SessionId) (names : List Str) (u : UploadState) : Channel :=
  Channel.send fs
    { client := { sessionUuid, requiredFiles := names, reqFilesSendIdx := 0 }
      handling := true, toServer := [], server := u, serving := true, toClient := [], sent := [] }

/-- No message is in flight. -/
def Channel.Quiescent (s : Channel) : Prop := s.toServer = [] ∧ s.toClient = []

/-! ## What the session start promises, and what the upload owes -/

/-- The required files as a session start leaves them: each name is declared with the true size and
digest of the client's file and is not AVAILABLE, and nothing is opened yet. -/
structure Declared (w : Str) (names : List Str) (u : UploadState) : Prop where
  entry : ∀ f ∈ names, ∃ v content, u.files f = some v ∧ fs f = some content
    ∧ v.serverFilePath = cnvtClientToServerPath w f ∧ v.fileSzBytes.toNat = content.length
    ∧ v.fileSha1 = sha1 content ∧ v.fileStatus ≠ .available
  unopened : ∀ p, u.transfers p = none

/-- **The required files can be delivered**: no two of them have the same server path, or the same
server file for different bytes; each ends short, and its server file can be opened for writing or
holds its bytes already. -/
structure Deliverable (w : Str) (names : List Str) (d : Disk) : Prop where
  apart : names.Pairwise fun f g => cnvtClientToServerPath w f ≠ cnvtClientToServerPath w g
  agree : ∀ f ∈ names, ∀ g ∈ names,
    SameFile (cnvtClientToServerPath w f) (cnvtClientToServerPath w g) → fs f = fs g
  endsShort : ∀ f ∈ names, ∀ content, fs f = some content → EndsShort content
  lands : ∀ f ∈ names, ∀ content, fs f = some content →
    received d (cnvtClientToServerPath w f) content = some content

/-- The file `f` has arrived: byte-identical, its transfer finished, its status AVAILABLE. -/
def Arrived (u : UploadState) (f : Str) : Prop :=
  ∃ v content t, u.files f = some v ∧ fs f = some content ∧ v.fileStatus = .available
    ∧ u.disk.files v.serverFilePath = some content
    ∧ u.transfers v.serverFilePath = some t ∧ t.isFinished = true

/-- **Every required file has been sent exactly once and has arrived.** -/
def Channel.AllArrived (s : Channel) (names : List Str) : Prop :=
  ∀ f ∈ names,
    s.sent.filter (fun m => m.filename = f)
        = fileMessages s.client.sessionUuid f ((fs f).getD [])
      ∧ Arrived fs s.server f

/-! ## One file at the server -/

/-- The server has stored the buffers `pre` of the file at `p`, as far as it can be written, and
awaits the next one.  Before the first chunk there is no transfer; the one that will be opened says
the same. -/
structure Receiving (sessionUuid : SessionId) (u : UploadState) (p : Str)
    (pre : List Str) : Prop where
  notFinished : (openTransfer sessionUuid p u.disk u.transfers).2.isFinished = false
  sessionId : (openTransfer sessionUuid p u.disk u.transfers).2.sessionId = sessionUuid
  lastSeqNo : (openTransfer sessionUuid p u.disk u.transfers).2.lastSeqNo = UInt64.ofNat pre.length
  lastOffset : (openTransfer sessionUuid p u.disk u.transfers).2.lastOffset
    ≤ UInt64.ofNat pre.flatten.length
  stream : (openTransfer sessionUuid p u.disk u.transfers).2.fileOutStream
    = .after u.disk p pre.flatten
  stored : (openTransfer sessionUuid p u.disk u.transfers).1.files p
    = received u.disk p pre.flatten

/-- The message that carries the buffer `b` after `pre`. -/
def nextChunk (sessionUuid : SessionId) (f : Str) (pre : List Str) (b : Str) : FileChunk where
  sessionId := sessionUuid
  filename := f
  sequenceNo := UInt64.ofNat (pre.length + 1)
  offset := UInt64.ofNat pre.flatten.length
  data := b
  isLastChunk := b.length < chunkSize

theorem receiving_nil (sessionUuid : SessionId) {u : UploadState} {p : Str}
    (hu : u.transfers p = none) : Receiving sessionUuid u p [] := by
  have ho : openTransfer sessionUuid p u.disk u.transfers
      = FileTransferState.new u.disk sessionUuid p := openTransfer_of_none hu
  obtain ⟨hfile, hstream⟩ := OutStream.openTrunc_received u.disk p
  refine ⟨?_, ?_, ?_, ?_, ho ▸ hstream, ho ▸ hfile⟩
  all_goals
    rw [ho]
    simp [FileTransferState.new]

theorem ofNat_le_ofNat {m n : ℕ} (h : m ≤ n) (hn : n < 2 ^ 64) :
    UInt64.ofNat m ≤ UInt64.ofNat n := by
  rw [UInt64.le_iff_toNat_le, UInt64.toNat_ofNat_of_lt' (lt_of_le_of_lt h hn),
    UInt64.toNat_ofNat_of_lt' hn]
  exact h

/-- An open transfer says what is stored, and what is awaited. -/
theorem receiving_update {sessionUuid : SessionId} {files : FileTable} {d : Disk} {ts : Transfers}
    {p : Str} {t : FileTransferState} {pre : List Str} (hfin : t.isFinished = false)
    (hid : t.sessionId = sessionUuid) (hseq : t.lastSeqNo = UInt64.ofNat pre.length)
    (hlast : t.lastOffset ≤ UInt64.ofNat pre.flatten.length)
    (hstream : t.fileOutStream = .after d p pre.flatten)
    (hstored : d.files p = received d p pre.flatten) :
    Receiving sessionUuid ⟨files, d, Function.update ts p (some t)⟩ p pre := by
  have ho : openTransfer sessionUuid p d (Function.update ts p (some t)) = (d, t) :=
    openTransfer_of_some (Function.update_self p (some t) ts)
  constructor
  all_goals rw [ho]
  · exact hfin
  · exact hid
  · exact hseq
  · exact hlast
  · exact hstream
  · exact hstored

/-- The awaited chunk is accepted. -/
theorem Receiving.rejects_nextChunk {sessionUuid : SessionId} {u : UploadState} {p f : Str}
    {pre : List Str} (h : Receiving sessionUuid u p pre) (b : Str) :
    (openTransfer sessionUuid p u.disk u.transfers).2.rejects sessionUuid
      (nextChunk sessionUuid f pre b) = false := by
  have hoff := UInt64.not_lt.mpr h.lastOffset
  rw [FileTransferState.rejects, h.sessionId, h.lastSeqNo]
  simp only [nextChunk, UInt64.ofNat_add, bne_self_eq_false, Bool.false_or, decide_eq_false hoff,
    Bool.or_false]
  exact bne_self_eq_false ..

/-- `u'` differs from `u` at the entry of `f` and the server file `p` at most. -/
structure AgreeOff (f p : Str) (u u' : UploadState) : Prop where
  files : ∀ g, g ≠ f → u'.files g = u.files g
  disk : ∀ q, q ≠ p → u'.disk.files q = u.disk.files q
  writable : u'.disk.writable = u.disk.writable
  transfers : ∀ q, q ≠ p → u'.transfers q = u.transfers q

/-- **The transfer section on the awaited chunk**: the buffer is appended, if the file could be
opened, and the transfer is finished if the buffer is short, else the next chunk is awaited. -/
theorem Receiving.receiveChunk {sessionUuid : SessionId} {u : UploadState} {p f : Str}
    {pre : List Str} (h : Receiving sessionUuid u p pre) (b : Str) :
    ∃ d t, d.files p = received u.disk p (pre ++ [b]).flatten ∧ d.writable = u.disk.writable
      ∧ (∀ q, q ≠ p → d.files q = u.disk.files q)
      ∧ ((pre ++ [b]).flatten.length < 2 ^ 64 → ∀ files,
          Receiving sessionUuid ⟨files, d, Function.update u.transfers p (some t)⟩ p (pre ++ [b]))
      ∧ DistBuild.receiveChunk sessionUuid p (nextChunk sessionUuid f pre b) u.disk u.transfers
        = if b.length < chunkSize then
            ⟨.complete, d, Function.update u.transfers p (some t.finish)⟩
          else ⟨.stored, d, Function.update u.transfers p (some t)⟩ := by
  set o := openTransfer sessionUuid p u.disk u.transfers with ho
  have hfin : o.2.isFinished = false := h.notFinished
  have hrej : o.2.rejects sessionUuid (nextChunk sessionUuid f pre b) = false :=
    h.rejects_nextChunk b
  have hstream : o.2.fileOutStream = .after u.disk p pre.flatten := h.stream
  obtain ⟨hfile, hnext⟩ := OutStream.write_received (d := o.1) h.stored b
  rw [← hstream] at hfile hnext
  have hflat : pre.flatten ++ b = (pre ++ [b]).flatten := by simp
  rw [hflat] at hfile hnext
  have hopened : o.1.writable = u.disk.writable := by
    rw [ho]
    unfold openTransfer
    cases u.transfers p with
    | some t => rfl
    | none => exact OutStream.openTrunc_writable ..
  set written := OutStream.write o.1 o.2.fileOutStream b with hwritten
  have hwritable : written.1.writable = u.disk.writable :=
    (OutStream.write_writable ..).trans hopened
  have hself (x : Str) : received written.1 p x = received u.disk p x :=
    received_congr hwritable (fun hw => by rw [hfile, received, hw, if_neg Bool.false_ne_true]) x
  have hafter : OutStream.after written.1 p (pre ++ [b]).flatten
      = .after u.disk p (pre ++ [b]).flatten := by
    unfold OutStream.after
    rw [hwritable]
  refine ⟨written.1, o.2.advance written.2 (nextChunk sessionUuid f pre b), hfile, hwritable,
    fun q hq => ?_, fun hlen files => ?_, ?_⟩
  · have hpath : q ≠ o.2.fileOutStream.path := by
      rw [hstream]
      exact hq
    exact (OutStream.write_files_of_ne _ _ _ hpath).trans
      (openTransfer_files_of_ne sessionUuid u.disk u.transfers hq)
  · refine receiving_update h.notFinished h.sessionId ?_ ?_ (hnext.trans hafter.symm)
      (hfile.trans (hself _).symm)
    · simp [FileTransferState.advance, nextChunk]
    · exact ofNat_le_ofNat (by simp) hlen
  · have hdata : (nextChunk sessionUuid f pre b).data = b := rfl
    have hlast : (nextChunk sessionUuid f pre b).isLastChunk = decide (b.length < chunkSize) := rfl
    simp only [DistBuild.receiveChunk, ← ho, hfin, hrej, hdata, hlast, ← hwritten,
      decide_eq_true_eq, Bool.false_eq_true, if_false]

/-- A full buffer is stored, and the next one awaited. -/
theorem processFileChunk_stored {sessionUuid : SessionId} {u : UploadState} {f : Str}
    {v : FileStateView} {pre : List Str} {b : Str} (hv : u.files f = some v)
    (h : Receiving sessionUuid u v.serverFilePath pre) (hb : ¬ b.length < chunkSize)
    (hlen : (pre ++ [b]).flatten.length < 2 ^ 64) :
    ∃ u', processFileChunk sha1 sessionUuid u (nextChunk sessionUuid f pre b)
        = ⟨.value true, [], [], u'⟩
      ∧ u'.files = u.files ∧ Receiving sessionUuid u' v.serverFilePath (pre ++ [b])
      ∧ u'.disk.files v.serverFilePath = received u.disk v.serverFilePath (pre ++ [b]).flatten
      ∧ AgreeOff f v.serverFilePath u u' := by
  obtain ⟨d, t, hd, hw, hoff, hnext, hr⟩ := h.receiveChunk (f := f) b
  rw [if_neg hb] at hr
  refine ⟨⟨u.files, d, Function.update u.transfers v.serverFilePath (some t)⟩, ?_, rfl,
    hnext hlen u.files, hd, ?_⟩
  · exact processFileChunk_of_stored sha1 sessionUuid hv rfl hr
  · exact ⟨fun _ _ => rfl, hoff, hw, fun q hq => Function.update_of_ne hq ..⟩

/-- How the last chunk of a file whose server path holds `stored` then can end: with an exception,
if there is no such file; with an abort, if it has another size; else the file is judged AVAILABLE
and acknowledged. -/
inductive LastChunk (v : FileStateView) (ack : FileUpComplete) (stored : Option Str)
    (entry : Option FileStateView) : Outcome → List FileUpComplete → Prop
  | threw (h : stored = none) (hv : entry = some v) : LastChunk v ack stored entry .threw []
  | aborted {c} (h : stored = some c) (hsize : v.fileSzBytes.toNat ≠ c.length)
    (hv : entry = some { v with fileStatus := .fault }) :
    LastChunk v ack stored entry (.value false) []
  | acknowledged {c} (h : stored = some c) (hsize : v.fileSzBytes.toNat = c.length)
    (hv : entry = some { v with fileStatus := .available }) :
    LastChunk v ack stored entry (.value true) [ack]

/-- **The short buffer completes the file**, which is then judged by its size: a wrong digest is
AVAILABLE in the end. -/
theorem processFileChunk_last {sessionUuid : SessionId} {u : UploadState} {f content : Str}
    {v : FileStateView} {pre : List Str} {b : Str} (hv : u.files f = some v)
    (h : Receiving sessionUuid u v.serverFilePath pre) (hb : b.length < chunkSize)
    (hcontent : (pre ++ [b]).flatten = content) :
    ∃ o marks replies u' t, processFileChunk sha1 sessionUuid u (nextChunk sessionUuid f pre b)
        = ⟨o, marks, replies, u'⟩
      ∧ LastChunk v (fileUpComplete sessionUuid (nextChunk sessionUuid f pre b))
        (received u.disk v.serverFilePath content) (u'.files f) o replies
      ∧ u'.disk.files v.serverFilePath = received u.disk v.serverFilePath content
      ∧ u'.transfers v.serverFilePath = some t ∧ t.isFinished = true
      ∧ AgreeOff f v.serverFilePath u u' := by
  obtain ⟨d, t, hd, hw, hoff, -, hr⟩ := h.receiveChunk (f := f) b
  rw [if_pos hb] at hr
  rw [hcontent] at hd
  have hagree {files : FileTable} (hfiles : ∀ g, g ≠ f → files g = u.files g) :
      AgreeOff f v.serverFilePath u
        ⟨files, d, Function.update u.transfers v.serverFilePath (some t.finish)⟩ :=
    ⟨hfiles, hoff, hw, fun q hq => Function.update_of_ne hq ..⟩
  cases hstored : received u.disk v.serverFilePath content with
  | none =>
    refine ⟨_, _, _, _, t.finish, processFileChunk_of_complete_none sha1 sessionUuid hv rfl hr
      (hd.trans hstored), .threw rfl hv, hd.trans hstored, Function.update_self .., rfl,
      hagree fun _ _ => rfl⟩
  | some c =>
    rw [hstored] at hd
    by_cases hsize : v.fileSzBytes.toNat = c.length
    · have hjudge : ∃ marks, judge sha1 v c = (marks, true)
          ∧ marks.foldl (fun fs st => setFileState fs f v st) u.files f
            = some { v with fileStatus := .available }
          ∧ ∀ g, g ≠ f →
            marks.foldl (fun fs st => setFileState fs f v st) u.files g = u.files g := by
        by_cases hsha : v.fileSha1 = sha1 c
        · refine ⟨[.available], by simp [judge, hsize, hsha], setFileState_self hv v .available,
            fun g hg => setFileState_of_ne u.files v .available hg⟩
        · refine ⟨[.fault, .available], by simp [judge, hsize, hsha],
            setFileState_self (setFileState_self hv v .fault) v .available, fun g hg => ?_⟩
          exact (setFileState_of_ne _ v .available hg).trans (setFileState_of_ne _ v .fault hg)
      obtain ⟨marks, hj, hself, hother⟩ := hjudge
      refine ⟨_, _, _, _, t.finish, processFileChunk_of_complete sha1 sessionUuid hv rfl hr hd, ?_,
        hd, Function.update_self .., rfl, hagree ?_⟩
      · rw [hj]
        exact .acknowledged rfl hsize hself
      · rw [hj]
        exact hother
    · have hj : judge sha1 v c = ([.fault], false) := by simp [judge, hsize]
      refine ⟨_, _, _, _, t.finish, processFileChunk_of_complete sha1 sessionUuid hv rfl hr hd, ?_,
        hd, Function.update_self .., rfl, hagree ?_⟩
      · rw [hj]
        exact .aborted rfl hsize (setFileState_self hv v .fault)
      · rw [hj]
        exact fun g hg => setFileState_of_ne u.files v .fault hg

/-- A chunk for a path whose transfer is finished is dropped without an answer. -/
theorem processFileChunk_finished {sessionUuid : SessionId} {u : UploadState} {msg : FileChunk}
    {v : FileStateView} {t : FileTransferState} (hv : u.files msg.filename = some v)
    (hid : msg.sessionId = sessionUuid) (ht : u.transfers v.serverFilePath = some t)
    (hfin : t.isFinished = true) :
    processFileChunk sha1 sessionUuid u msg = ⟨.value true, [], [], u⟩ := by
  simp [processFileChunk, hv, hid, receiveChunk_of_finished ht hfin]

end DistBuild
