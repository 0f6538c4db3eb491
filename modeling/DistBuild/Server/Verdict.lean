import DistBuild.Server.FileChunk

/-!
# Server/Verdict — when the status AVAILABLE can be trusted

A last chunk of the declared size is accepted whatever its SHA-1: the handler marks the file FAULT,
does not return, and marks it AVAILABLE.  That is the only way a verdict goes wrong: in a session
every verdict is right if and only if it never happens (`session_verified_iff`).
-/

namespace DistBuild

variable (sha1 : Str → Str) (sessionUuid : SessionId)

/-! ## When a status can be trusted -/

/-- The bytes at `path` once `msg` has been written there: the state before the step says. -/
def assembled (path : Str) (msg : FileChunk) (d : Disk) (ts : Transfers) : Option Str :=
  match ts path with
  | none => if d.writable path then some (overwrite [] 0 msg.data) else d.files path
  | some t =>
    if t.fileOutStream.isOpen then
      some (overwrite ((d.files path).getD []) t.fileOutStream.pos msg.data)
    else d.files path

/-- `msg` ends its transfer: it is the awaited chunk of an unfinished transfer, and the last. -/
def Completes (path : Str) (msg : FileChunk) (ts : Transfers) : Prop :=
  msg.isLastChunk = true ∧
    match ts path with
    | none => msg.sequenceNo = 1
    | some t => t.isFinished = false ∧ t.rejects sessionUuid msg = false

/-- The chunk completes the file `v` with `content`. -/
def Delivers (u : UploadState) (msg : FileChunk) (v : FileStateView) (content : Str) : Prop :=
  u.files msg.filename = some v ∧ msg.sessionId = sessionUuid
    ∧ Completes sessionUuid v.serverFilePath msg u.transfers
    ∧ assembled v.serverFilePath msg u.disk u.transfers = some content

/-- **Every verdict of the step is right.**  A step that ends with the file AVAILABLE leaves bytes
of the declared size and digest at its server path; only such a step acknowledges; a last chunk
that leaves other bytes ends with FAULT and `false`. -/
def Verified (msg : FileChunk) (u : UploadState) : Prop :=
  let r := processFileChunk sha1 sessionUuid u msg
  (r.marks.getLast? = some .available →
    ∃ v content, r.state.files msg.filename = some v ∧ v.fileStatus = .available
      ∧ r.state.disk.files v.serverFilePath = some content
      ∧ content.length = v.fileSzBytes.toNat ∧ sha1 content = v.fileSha1)
  ∧ (∀ reply ∈ r.replies, reply.success = true → r.marks.getLast? = some .available)
  ∧ (∀ v content, Delivers sessionUuid u msg v content →
      (content.length ≠ v.fileSzBytes.toNat ∨ sha1 content ≠ v.fileSha1) →
      (∃ v', r.state.files msg.filename = some v' ∧ v'.fileStatus = .fault)
        ∧ r.outcome = .value false)

/-- The one event that breaks a verdict: the file is complete and has its declared size, but not its
declared SHA-1. -/
def DigestMismatch (msg : FileChunk) (u : UploadState) : Prop :=
  ∃ v content, Delivers sessionUuid u msg v content ∧ content.length = v.fileSzBytes.toNat
    ∧ sha1 content ≠ v.fileSha1

/-! ### The section completes exactly the awaited last chunk -/

theorem completes_iff {p : Str} {msg : FileChunk} {d : Disk} {ts : Transfers} :
    Completes sessionUuid p msg ts ↔ msg.isLastChunk = true
      ∧ (openTransfer sessionUuid p d ts).2.isFinished = false
      ∧ (openTransfer sessionUuid p d ts).2.rejects sessionUuid msg = false := by
  unfold Completes
  cases ht : ts p with
  | some t => rw [openTransfer_of_some ht]
  | none =>
    rw [openTransfer_of_none ht, rejects_new]
    simp [FileTransferState.new]

theorem receiveChunk_verdict_complete {p : Str} {msg : FileChunk} {d : Disk} {ts : Transfers} :
    (receiveChunk sessionUuid p msg d ts).verdict = .complete ↔ Completes sessionUuid p msg ts := by
  rw [completes_iff (d := d)]
  refine receiveChunk_cases (P := fun r => r.verdict = .complete ↔ _) ?_ ?_ ?_ ?_
  · intro hf
    simp [hf]
  · rintro o rfl hf hr
    simp [hr]
  · rintro o w rfl hf hr hl rfl
    simp [hf, hr, hl]
  · rintro o w rfl hf hr hl rfl
    simp [hl]

/-- **The bytes a completing chunk leaves** are the ones `assembled` reads off the state before. -/
theorem receiveChunk_complete_files {p : Str} {msg : FileChunk} {d : Disk} {ts : Transfers}
    (hs : StreamsOwn ts) (hc : Completes sessionUuid p msg ts) :
    (receiveChunk sessionUuid p msg d ts).disk.files p = assembled p msg d ts := by
  obtain ⟨hl, hf, hr⟩ := (completes_iff sessionUuid (d := d)).mp hc
  have hrec : (receiveChunk sessionUuid p msg d ts).disk
      = (OutStream.write (openTransfer sessionUuid p d ts).1
          (openTransfer sessionUuid p d ts).2.fileOutStream msg.data).1 := by
    simp [receiveChunk, hl, hf, hr]
  rw [hrec]
  cases ht : ts p with
  | some t =>
    have hp : t.fileOutStream.path = p := hs p t ht
    rw [openTransfer_of_some ht]
    simp only [assembled, ht, OutStream.write, hp]
    split_ifs
    · exact Disk.put_self ..
    · rfl
  | none =>
    rw [openTransfer_of_none ht]
    simp only [assembled, ht, FileTransferState.new, OutStream.openTrunc]
    split_ifs
    · simp [OutStream.write]
    · simp [OutStream.write]

/-! ### What the handler does with and without a completed file -/

/-- A file that is completed is judged by its bytes. -/
theorem processFileChunk_of_delivers {u : UploadState} {msg : FileChunk} {v : FileStateView}
    {content : Str} (hs : StreamsOwn u.transfers) (h : Delivers sessionUuid u msg v content) :
    let r := receiveChunk sessionUuid v.serverFilePath msg u.disk u.transfers
    let j := judge sha1 v content
    processFileChunk sha1 sessionUuid u msg
      = ⟨.value j.2, j.1, if j.2 then [fileUpComplete sessionUuid msg] else [],
          ⟨j.1.foldl (fun fs st => setFileState fs msg.filename v st) u.files, r.disk,
            r.transfers⟩⟩ := by
  obtain ⟨hv, hid, hc, ha⟩ := h
  have hverdict := (receiveChunk_verdict_complete sessionUuid (d := u.disk)).mpr hc
  have hfile := (receiveChunk_complete_files sessionUuid (d := u.disk) hs hc).trans ha
  exact processFileChunk_of_complete sha1 sessionUuid hv hid (hverdict ▸ rfl) hfile

/-- Without one the handler sends nothing, and sets FAULT or nothing. -/
theorem processFileChunk_of_not_delivers {u : UploadState} {msg : FileChunk}
    (hs : StreamsOwn u.transfers) (h : ¬ ∃ v content, Delivers sessionUuid u msg v content) :
    (processFileChunk sha1 sessionUuid u msg).replies = []
      ∧ ∀ st ∈ (processFileChunk sha1 sessionUuid u msg).marks, st = .fault := by
  unfold processFileChunk
  cases hv : u.files msg.filename with
  | none => simp
  | some v =>
    by_cases hid : msg.sessionId = sessionUuid
    · cases hverdict :
        (receiveChunk sessionUuid v.serverFilePath msg u.disk u.transfers).verdict with
      | complete =>
        have hc := (receiveChunk_verdict_complete sessionUuid).mp hverdict
        have hfile := receiveChunk_complete_files sessionUuid (d := u.disk) hs hc
        cases ha : assembled v.serverFilePath msg u.disk u.transfers with
        | none => simp [hid, hverdict, hfile, ha]
        | some content => exact absurd ⟨v, content, hv, hid, hc, ha⟩ h
      | finished => simp [hid, hverdict]
      | rejected => simp [hid, hverdict]
      | stored => simp [hid, hverdict]
    · simp [hid]

theorem Delivers.unique {u : UploadState} {msg : FileChunk} {v v' : FileStateView}
    {content content' : Str} (h : Delivers sessionUuid u msg v content)
    (h' : Delivers sessionUuid u msg v' content') : v' = v ∧ content' = content := by
  obtain rfl : v' = v := Option.some.inj (h'.1.symm.trans h.1)
  exact ⟨rfl, Option.some.inj (h'.2.2.2.symm.trans h.2.2.2)⟩

/-- The verdict on a completed file is right, unless only its digest is wrong: FAULT is then
overwritten by AVAILABLE. -/
theorem verified_iff_of_delivers {u : UploadState} {msg : FileChunk} {v : FileStateView}
    {content : Str} (hs : StreamsOwn u.transfers) (h : Delivers sessionUuid u msg v content) :
    Verified sha1 sessionUuid msg u
      ↔ ¬ (content.length = v.fileSzBytes.toNat ∧ sha1 content ≠ v.fileSha1) := by
  have hstep := processFileChunk_of_delivers sha1 sessionUuid hs h
  have hfile := (receiveChunk_complete_files sessionUuid (d := u.disk) hs h.2.2.1).trans h.2.2.2
  have hset := fun st => setFileState_self h.1 v st
  by_cases hsize : content.length = v.fileSzBytes.toNat
  · by_cases hsha : sha1 content = v.fileSha1
    · have hj : judge sha1 v content = ([.available], true) := by
        simp [judge, hsize, hsha]
      rw [hj] at hstep
      refine iff_of_true ⟨fun _ => ?_, fun _ _ _ => ?_, fun v' c' h' hne => ?_⟩
        fun hc => hc.2 hsha
      · rw [hstep]
        exact ⟨_, content, hset _, rfl, hfile, hsize, hsha⟩
      · rw [hstep]
        rfl
      · obtain ⟨rfl, rfl⟩ := h.unique sessionUuid h'
        exact absurd hne (by simp [hsize, hsha])
    · have hj : judge sha1 v content = ([.fault, .available], true) := by
        simp [judge, hsize, Ne.symm hsha]
      rw [hj] at hstep
      refine iff_of_false (fun hver => ?_) fun hc => hc ⟨hsize, hsha⟩
      obtain ⟨v', c', hv', _, hc', _, hsha'⟩ := hver.1 (by rw [hstep]; rfl)
      rw [hstep] at hv' hc'
      obtain rfl := Option.some.inj ((setFileState_self (hset .fault) v .available).symm.trans hv')
      obtain rfl := Option.some.inj (hfile.symm.trans hc')
      exact hsha hsha'
  · have hj : judge sha1 v content = ([.fault], false) := by
      simp [judge, Ne.symm hsize]
    rw [hj] at hstep
    refine iff_of_true ⟨fun hav => ?_, fun reply hr => ?_, fun v' c' h' _ => ?_⟩
      fun hc => hsize hc.1
    · rw [hstep] at hav
      cases hav
    · rw [hstep] at hr
      cases hr
    · obtain ⟨rfl, rfl⟩ := h.unique sessionUuid h'
      rw [hstep]
      exact ⟨⟨_, hset _, rfl⟩, rfl⟩

/-- **A verdict goes wrong exactly on a digest mismatch.** -/
theorem verified_iff {u : UploadState} {msg : FileChunk} (hs : StreamsOwn u.transfers) :
    Verified sha1 sessionUuid msg u ↔ ¬ DigestMismatch sha1 sessionUuid msg u := by
  by_cases hd : ∃ v content, Delivers sessionUuid u msg v content
  · obtain ⟨v, content, h⟩ := hd
    rw [verified_iff_of_delivers sha1 sessionUuid hs h]
    refine not_congr ⟨fun hm => ⟨v, content, h, hm⟩, ?_⟩
    rintro ⟨v', content', h', hm⟩
    obtain ⟨rfl, rfl⟩ := h.unique sessionUuid h'
    exact hm
  · obtain ⟨hreplies, hmarks⟩ := processFileChunk_of_not_delivers sha1 sessionUuid hs hd
    refine iff_of_true ⟨fun hav => ?_, ?_, fun v content hdel => absurd ⟨v, content, hdel⟩ hd⟩
      fun ⟨v, content, hdel, _⟩ => hd ⟨v, content, hdel⟩
    · cases hmarks _ (List.mem_of_getLast? hav)
    · intro reply hr
      rw [hreplies] at hr
      cases hr

/-! ## Every verdict of a session -/

theorem streamsOwn_uploadStep {msg : FileChunk} {u u' : UploadState}
    (h : uploadStep sha1 sessionUuid msg u = some u') (hs : StreamsOwn u.transfers) :
    StreamsOwn u'.transfers := by
  have hstate : u' = (processFileChunk sha1 sessionUuid u msg).state := by
    unfold uploadStep at h
    split at h
    · exact (Option.some.inj h).symm
    · cases h
  rw [hstate]
  unfold processFileChunk
  cases hv : u.files msg.filename with
  | none => exact hs
  | some v =>
    have hrec := hs.receiveChunk sessionUuid v.serverFilePath msg u.disk
    by_cases hid : msg.sessionId = sessionUuid
    · simp only [hid, ne_eq, not_true_eq_false, if_false]
      split
      · exact hrec
      · exact hrec
      · exact hrec
      · split
        · exact hrec
        · exact hrec
    · simpa [hid] using hs

/-- The order of messages is arbitrary, the disk and the file table too: in a session every verdict
is right if and only if no last chunk leaves bytes of the declared size with another digest. -/
theorem meets_verified_iff (msgs : List FileChunk) (u : UploadState) (hs : StreamsOwn u.transfers) :
    Meets (uploadStep sha1 sessionUuid) (Verified sha1 sessionUuid) msgs u
      ↔ Meets (uploadStep sha1 sessionUuid) (fun msg u => ¬ DigestMismatch sha1 sessionUuid msg u)
          msgs u := by
  induction msgs generalizing u with
  | nil => rfl
  | cons msg msgs ih =>
    simp only [Meets, verified_iff sha1 sessionUuid hs]
    cases hstep : uploadStep sha1 sessionUuid msg u with
    | none => rfl
    | some u' => exact and_congr_right fun _ => ih u' (streamsOwn_uploadStep _ _ hstep hs)

/-- **In a session every verdict is right if and only if no accepted last chunk leaves a file of the
declared size with another SHA-1** — whatever the messages, the file table and the disk. -/
theorem session_verified_iff (files : FileTable) (disk : Disk) (msgs : List FileChunk) :
    Meets (uploadStep sha1 sessionUuid) (Verified sha1 sessionUuid) msgs (.fresh files disk)
      ↔ Meets (uploadStep sha1 sessionUuid) (fun msg u => ¬ DigestMismatch sha1 sessionUuid msg u)
          msgs (.fresh files disk) :=
  meets_verified_iff sha1 sessionUuid msgs _ fun _ _ h => nomatch h

/-! ### A wrong file that is AVAILABLE -/

/-- A file declared as the one byte `a`, in upload. -/
def sampleView : FileStateView where
  fileSzBytes := 1
  fileSha1 := sampleSha1 (str "a")
  fileStatus := .uploading
  upStartTime := 0
  serverFilePath := str "/w/m.h"

/-- A session that expects `/m.h`. -/
def sampleUpload : UploadState :=
  .fresh (fun f => if f = str "/m.h" then some sampleView else none) Disk.empty

/-- The byte `b`, sent as the whole of `/m.h`. -/
def wrongChunk : FileChunk where
  sessionId := str "s"
  filename := str "/m.h"
  sequenceNo := 1
  offset := 0
  data := str "b"
  isLastChunk := true

/-- The wrong byte has the right length, so `/m.h` ends AVAILABLE and is acknowledged. -/
theorem wrongChunk_accepted :
    ¬ Meets (uploadStep sampleSha1 (str "s")) (Verified sampleSha1 (str "s")) [wrongChunk]
      sampleUpload := by
  intro h
  have hs : StreamsOwn sampleUpload.transfers := fun _ _ h => nomatch h
  refine (verified_iff sampleSha1 (str "s") hs).mp h.1 ⟨sampleView, str "b", ?_, ?_, ?_⟩
  · exact ⟨rfl, rfl, ⟨rfl, rfl⟩, rfl⟩
  · rfl
  · decide

end DistBuild
