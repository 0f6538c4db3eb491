import DistBuild.Server.FileChunk

/-!
# Server/ChunkOrder — the chunks of one file, in one session

    accepted     1, 0, "ab"    2, 2, "cd"    3, 4, "e"       sequence number, offset, data
    file         a b c d e
    next chunk   4, and an offset not below 4

The handler remembers the last sequence number and where the last chunk started, not where it ended.
A chunk that is next by its number may start anywhere behind that; it is written at the end of the
file all the same.  And a last chunk is written before the size is checked.  Apart from that, the
file is what was accepted, in order (`chunks_in_order`).
-/

namespace DistBuild

/-! ## What has been accepted -/

def dataOf (chunks : List FileChunk) : Str := chunks.flatMap FileChunk.data

/-- Where the last of the chunks starts. -/
def lastOffset (chunks : List FileChunk) : UInt64 := (chunks.getLast?.map FileChunk.offset).getD 0

@[simp] theorem dataOf_concat (chunks : List FileChunk) (msg : FileChunk) :
    dataOf (chunks ++ [msg]) = dataOf chunks ++ msg.data := by
  simp [dataOf]

@[simp] theorem lastOffset_concat (chunks : List FileChunk) (msg : FileChunk) :
    lastOffset (chunks ++ [msg]) = msg.offset := by
  simp [lastOffset]

/-- A session that receives chunks of one file, and those that it has accepted. -/
structure Recorded where
  upload : UploadState
  accepted : List FileChunk

namespace Recorded

/-- The transfer to `path` is over. -/
def Finished (path : Str) (x : Recorded) : Prop :=
  ∃ t, x.upload.transfers path = some t ∧ t.isFinished = true

instance (path : Str) (x : Recorded) : Decidable (x.Finished path) :=
  match h : x.upload.transfers path with
  | none => isFalse (by simp [Finished, h])
  | some t => decidable_of_iff (t.isFinished = true) (by simp [Finished, h])

end Recorded

variable (sha1 : Str → Str) (sessionUuid : SessionId) (path : Str)

/-- One message; it is accepted if `process_file_chunk` returns true while the transfer is not
finished. -/
def orderStep (msg : FileChunk) (x : Recorded) : Option Recorded :=
  (uploadStep sha1 sessionUuid msg x.upload).map fun u =>
    { upload := u
      accepted :=
        if (processFileChunk sha1 sessionUuid x.upload msg).outcome = .value true
            ∧ ¬ x.Finished path then x.accepted ++ [msg]
        else x.accepted }

/-- The chunks are numbered from 1, and each starts where the ones before it end. -/
structure Numbered (accepted : List FileChunk) : Prop where
  sequence : accepted.map (fun c => c.sequenceNo.toNat) = List.range' 1 accepted.length
  offsets : ∀ before c after, accepted = before ++ c :: after →
    c.offset.toNat = (dataOf before).length

/-- **The order of chunks**: the accepted ones are numbered, and the file is their data. -/
structure InOrder (x : Recorded) : Prop where
  numbered : Numbered x.accepted
  content : x.upload.transfers path ≠ none → x.upload.disk.files path = some (dataOf x.accepted)

/-- The message is not the next chunk: it has another number, or starts somewhere else. -/
def OutOfTurn (msg : FileChunk) (x : Recorded) : Prop :=
  msg.sequenceNo.toNat ≠ x.accepted.length + 1 ∨ msg.offset.toNat ≠ (dataOf x.accepted).length

/-- After the message the chunks are in order, a message out of turn has finished the transfer with
FAULT, and once that is finished nothing is written. -/
structure OrderKept (f : Str) (msg : FileChunk) (x x' : Recorded) : Prop where
  inOrder : InOrder path x'
  outOfTurn : ¬ x.Finished path → OutOfTurn msg x →
    x'.Finished path ∧ ∃ v, x'.upload.files f = some v ∧ v.fileStatus = .fault
  afterwards : x.Finished path → x'.Finished path ∧ x'.accepted = x.accepted
    ∧ x'.upload.disk.files path = x.upload.disk.files path

/-- **The message keeps the order**, whatever becomes of it. -/
def KeepsOrder (f : Str) (msg : FileChunk) (x : Recorded) : Prop :=
  ∃ x', orderStep sha1 sessionUuid path msg x = some x' ∧ OrderKept path f msg x x'

/-- What keeps a message in order: if it is next by its number and does not start before the last
chunk, it starts where that ends; but a last chunk that leaves another size than the declared one
has no data. -/
def Orderly (size : UInt64) (msg : FileChunk) (x : Recorded) : Prop :=
  ¬ x.Finished path → msg.sequenceNo = UInt64.ofNat (x.accepted.length + 1) →
    ¬ msg.offset < lastOffset x.accepted →
      if msg.isLastChunk = true ∧ size.toNat ≠ (dataOf x.accepted ++ msg.data).length then
        msg.data = []
      else x.accepted.length + 1 < 2 ^ 64 ∧ msg.offset.toNat = (dataOf x.accepted).length

instance (size : UInt64) (msg : FileChunk) (x : Recorded) :
    Decidable (Orderly path size msg x) := by
  unfold Orderly
  infer_instance

/-! ## The transfer that waits for the next chunk -/

/-- An unfinished transfer after the chunks `acc`, and its disk. -/
structure Awaits (acc : List FileChunk) (o : Disk × FileTransferState) : Prop where
  unfinished : o.2.isFinished = false
  session : o.2.sessionId = sessionUuid
  sequence : o.2.lastSeqNo = UInt64.ofNat acc.length
  offset : o.2.lastOffset = lastOffset acc
  stream : o.2.fileOutStream = ⟨path, true, (dataOf acc).length⟩
  content : o.1.files path = some (dataOf acc)

/-- The file is declared, its path can be written, and an unfinished transfer awaits the next
chunk. -/
structure Tracks (f : Str) (size : UInt64) (x : Recorded) : Prop where
  entry : ∃ v, x.upload.files f = some v ∧ v.serverFilePath = path ∧ v.fileSzBytes = size
  opened : ¬ x.Finished path →
    Awaits sessionUuid path x.accepted
      (openTransfer sessionUuid path x.upload.disk x.upload.transfers)
  inOrder : InOrder path x

variable {sessionUuid path} {acc : List FileChunk} {o : Disk × FileTransferState} {msg : FileChunk}

/-- The chunks that the handler turns away. -/
theorem Awaits.rejects_iff (h : Awaits sessionUuid path acc o) :
    o.2.rejects sessionUuid msg = true
      ↔ msg.sequenceNo ≠ UInt64.ofNat (acc.length + 1) ∨ msg.offset < lastOffset acc := by
  simp [FileTransferState.rejects, h.session, h.sequence, h.offset, UInt64.ofNat_add]

/-- Writing appends: the transfer then awaits the chunk after this one. -/
theorem Awaits.write (h : Awaits sessionUuid path acc o)
    (hseq : msg.sequenceNo = UInt64.ofNat (acc.length + 1)) :
    let w := OutStream.write o.1 o.2.fileOutStream msg.data
    Awaits sessionUuid path (acc ++ [msg]) (w.1, o.2.advance w.2 msg) := by
  have hwrite : OutStream.write o.1 o.2.fileOutStream msg.data
      = (o.1.put path (dataOf acc ++ msg.data),
          ⟨path, true, (dataOf acc).length + msg.data.length⟩) := by
    rw [OutStream.write, h.stream, if_pos rfl, h.content, Option.getD_some, overwrite_end]
  rw [hwrite]
  refine ⟨h.unfinished, h.session, ?_, (lastOffset_concat ..).symm, ?_, ?_⟩
  · show msg.sequenceNo = _
    rw [hseq, List.length_append, List.length_singleton]
  · rw [dataOf_concat, List.length_append]
    rfl
  · rw [dataOf_concat]
    exact Disk.put_self ..

section Section

variable {d : Disk} {ts : Transfers}

/-- A chunk out of turn by its number, or one before the last, ends the transfer. -/
theorem Awaits.receiveChunk_rejected
    (h : Awaits sessionUuid path acc (openTransfer sessionUuid path d ts))
    (hnext : msg.sequenceNo ≠ UInt64.ofNat (acc.length + 1) ∨ msg.offset < lastOffset acc) :
    receiveChunk sessionUuid path msg d ts
      = ⟨.rejected, (openTransfer sessionUuid path d ts).1, Function.update ts path
          (some (openTransfer sessionUuid path d ts).2.finish)⟩ := by
  simp [receiveChunk, h.unfinished, h.rejects_iff.mpr hnext]

/-- Any other chunk is written. -/
theorem Awaits.receiveChunk_written
    (h : Awaits sessionUuid path acc (openTransfer sessionUuid path d ts))
    (hseq : msg.sequenceNo = UInt64.ofNat (acc.length + 1))
    (hoffset : ¬ msg.offset < lastOffset acc) :
    ∃ o, Awaits sessionUuid path (acc ++ [msg]) o
      ∧ receiveChunk sessionUuid path msg d ts
        = if msg.isLastChunk then ⟨.complete, o.1, Function.update ts path (some o.2.finish)⟩
          else ⟨.stored, o.1, Function.update ts path (some o.2)⟩ := by
  have hrejects : (openTransfer sessionUuid path d ts).2.rejects sessionUuid msg = false :=
    Bool.eq_false_iff.mpr fun hr => (h.rejects_iff.mp hr).elim (absurd hseq) hoffset
  refine ⟨_, h.write hseq, ?_⟩
  simp [receiveChunk, h.unfinished, hrejects]

end Section

theorem Numbered.concat_iff (h : Numbered acc)
    (hseq : msg.sequenceNo = UInt64.ofNat (acc.length + 1)) :
    Numbered (acc ++ [msg])
      ↔ acc.length + 1 < 2 ^ 64 ∧ msg.offset.toNat = (dataOf acc).length := by
  constructor
  · intro hall
    refine ⟨?_, hall.offsets acc msg [] rfl⟩
    have hsequence := hall.sequence
    rw [List.map_append, h.sequence, List.length_append, List.length_singleton, List.range'_concat,
      List.map_singleton, List.append_cancel_left_eq] at hsequence
    have hlt := msg.sequenceNo.toNat_lt
    have hnumber : msg.sequenceNo.toNat = 1 + 1 * acc.length := (List.cons.inj hsequence).1
    omega
  · rintro ⟨hlt, hoffset⟩
    refine ⟨?_, fun before c after heq => ?_⟩
    · have hnumber : msg.sequenceNo.toNat = 1 + 1 * acc.length := by
        rw [hseq, UInt64.toNat_ofNat_of_lt' hlt]
        omega
      rw [List.map_append, h.sequence, List.length_append, List.length_singleton,
        List.range'_concat, List.map_singleton, hnumber]
    · rcases List.eq_nil_or_concat after with rfl | ⟨after, d, rfl⟩
      · obtain ⟨rfl, hc⟩ := List.append_inj' heq rfl
        obtain rfl := (List.cons.inj hc).1
        exact hoffset
      · rw [List.concat_eq_append, ← List.cons_append, ← List.append_assoc] at heq
        exact h.offsets before c after (List.append_inj' heq rfl).1

/-! ## What a message does -/

/-- The verdict is true exactly if the size is the declared one. -/
theorem judge_result_iff {sha1 : Str → Str} {v : FileStateView} {content : Str} :
    (judge sha1 v content).2 = true ↔ v.fileSzBytes.toNat = content.length := by
  unfold judge
  split_ifs with hsize hsha1 <;> simp_all

/-- The entry of a judged file keeps its path and its size; with another size it ends as FAULT. -/
theorem judged_entry (sha1 : Str → Str) {files : FileTable} {f : Str} {v : FileStateView}
    (hv : files f = some v) (content : Str) :
    ∃ w, (judge sha1 v content).1.foldl (fun fs st => setFileState fs f v st) files f = some w
      ∧ w.serverFilePath = v.serverFilePath ∧ w.fileSzBytes = v.fileSzBytes
      ∧ (v.fileSzBytes.toNat ≠ content.length → w.fileStatus = .fault) := by
  have hfault := setFileState_self hv v .fault
  unfold judge
  split_ifs with hsize hsha1
  · exact ⟨_, hfault, rfl, rfl, fun _ => rfl⟩
  · exact ⟨_, setFileState_self hfault v .available, rfl, rfl, fun h => absurd h hsize⟩
  · exact ⟨_, setFileState_self hv v .available, rfl, rfl, fun h => absurd h hsize⟩

namespace Tracks

variable (sha1 : Str → Str) {f : Str} {size : UInt64} {x : Recorded}

/-- A finished transfer is left as it is. -/
theorem step_finished (h : Tracks sessionUuid path f size x) (hf : msg.filename = f)
    (hid : msg.sessionId = sessionUuid) (hfin : x.Finished path) :
    orderStep sha1 sessionUuid path msg x = some x := by
  obtain ⟨v, hv, hpath, -⟩ := h.entry
  obtain ⟨t, ht, htfin⟩ := hfin
  have hstep : processFileChunk sha1 sessionUuid x.upload msg
      = ⟨.value true, [], [], x.upload⟩ := by
    simp [processFileChunk, hf, hv, hid, hpath, receiveChunk_of_finished ht htfin]
  rw [orderStep, uploadStep, hstep]
  have hx : x.Finished path := ⟨t, ht, htfin⟩
  simp [hx]

/-- A chunk that is turned away finishes the transfer with FAULT. -/
theorem step_rejected (h : Tracks sessionUuid path f size x) (hf : msg.filename = f)
    (hid : msg.sessionId = sessionUuid) (hopen : ¬ x.Finished path)
    (hnext : msg.sequenceNo ≠ UInt64.ofNat (x.accepted.length + 1)
      ∨ msg.offset < lastOffset x.accepted) :
    ∃ x', orderStep sha1 sessionUuid path msg x = some x' ∧ Tracks sessionUuid path f size x'
      ∧ x'.Finished path ∧ ∃ v, x'.upload.files f = some v ∧ v.fileStatus = .fault := by
  obtain ⟨v, hv, hpath, hsize⟩ := h.entry
  have hawaits := h.opened hopen
  have hreceive := hawaits.receiveChunk_rejected hnext
  set o := openTransfer sessionUuid path x.upload.disk x.upload.transfers
  have hfault := setFileState_self hv v .fault
  set x' : Recorded := ⟨⟨setFileState x.upload.files f v .fault, o.1,
    Function.update x.upload.transfers path (some o.2.finish)⟩, x.accepted⟩ with hx'
  have hfin : x'.Finished path := ⟨_, Function.update_self .., rfl⟩
  refine ⟨x', ?_, ⟨⟨_, hfault, hpath, hsize⟩, fun hno => absurd hfin hno, ?_⟩, hfin, _, hfault, rfl⟩
  · rw [orderStep, uploadStep]
    simp [processFileChunk, hf, hv, hid, hpath, hreceive, hx']
  · exact ⟨h.inOrder.numbered, fun _ => hawaits.content⟩

/-- A chunk that is written, and not the last one. -/
theorem step_stored (h : Tracks sessionUuid path f size x) (hf : msg.filename = f)
    (hid : msg.sessionId = sessionUuid) (hopen : ¬ x.Finished path)
    (hseq : msg.sequenceNo = UInt64.ofNat (x.accepted.length + 1))
    (hoffset : ¬ msg.offset < lastOffset x.accepted) (hlast : msg.isLastChunk = false) :
    ∃ x', orderStep sha1 sessionUuid path msg x = some x' ∧ x'.accepted = x.accepted ++ [msg]
      ∧ x'.upload.disk.files path = some (dataOf x'.accepted)
      ∧ (Numbered x'.accepted → Tracks sessionUuid path f size x') := by
  obtain ⟨v, hv, hpath, hsize⟩ := h.entry
  obtain ⟨o, ho, hreceive⟩ := (h.opened hopen).receiveChunk_written hseq hoffset
  rw [hlast, if_neg Bool.false_ne_true] at hreceive
  refine ⟨⟨⟨x.upload.files, o.1, Function.update x.upload.transfers path (some o.2)⟩,
    x.accepted ++ [msg]⟩, ?_, rfl, ho.content,
    fun hnumbered => ⟨⟨v, hv, hpath, hsize⟩, fun _ => ?_, hnumbered, fun _ => ho.content⟩⟩
  · rw [orderStep, uploadStep]
    simp [processFileChunk, hf, hv, hid, hpath, hreceive, hopen]
  · rw [openTransfer_of_some (Function.update_self ..)]
    exact ho

/-- **A last chunk is written before the size is checked**: with the declared size it is accepted,
with another one it is not, and the transfer is finished in any case. -/
theorem step_complete (h : Tracks sessionUuid path f size x) (hf : msg.filename = f)
    (hid : msg.sessionId = sessionUuid) (hopen : ¬ x.Finished path)
    (hseq : msg.sequenceNo = UInt64.ofNat (x.accepted.length + 1))
    (hoffset : ¬ msg.offset < lastOffset x.accepted) (hlast : msg.isLastChunk = true) :
    ∃ x', orderStep sha1 sessionUuid path msg x = some x' ∧ x'.Finished path
      ∧ x'.upload.disk.files path = some (dataOf x.accepted ++ msg.data)
      ∧ (∃ v, x'.upload.files f = some v ∧ v.serverFilePath = path ∧ v.fileSzBytes = size
        ∧ (size.toNat ≠ (dataOf x.accepted ++ msg.data).length → v.fileStatus = .fault))
      ∧ x'.accepted = if size.toNat ≠ (dataOf x.accepted ++ msg.data).length then x.accepted
        else x.accepted ++ [msg] := by
  subst hf
  obtain ⟨v, hv, rfl, rfl⟩ := h.entry
  obtain ⟨o, ho, hreceive⟩ := (h.opened hopen).receiveChunk_written hseq hoffset
  rw [hlast, if_pos rfl] at hreceive
  have hfile := ho.content
  rw [dataOf_concat] at hfile
  have hstep := processFileChunk_of_complete sha1 sessionUuid hv hid hreceive hfile
  obtain ⟨w, hw⟩ := judged_entry sha1 hv (dataOf x.accepted ++ msg.data)
  set content := dataOf x.accepted ++ msg.data
  set files := (judge sha1 v content).1.foldl
    (fun fs st => setFileState fs msg.filename v st) x.upload.files
  refine ⟨⟨⟨files, o.1, Function.update x.upload.transfers v.serverFilePath (some o.2.finish)⟩,
    if (judge sha1 v content).2 = true then x.accepted ++ [msg] else x.accepted⟩, ?_,
    ⟨_, Function.update_self .., rfl⟩, hfile, ⟨w, hw⟩, ?_⟩
  · rw [orderStep, uploadStep, hstep]
    simp [hopen]
  · rw [ite_not]
    exact if_congr judge_result_iff rfl rfl

/-- An accepted chunk keeps the order exactly if it starts where the ones before it end. -/
theorem orderKept_accepted {x' : Recorded} (h : Tracks sessionUuid path f size x)
    (hopen : ¬ x.Finished path) (hseq : msg.sequenceNo = UInt64.ofNat (x.accepted.length + 1))
    (hacc : x'.accepted = x.accepted ++ [msg])
    (hcontent : x'.upload.disk.files path = some (dataOf x'.accepted)) :
    OrderKept path f msg x x'
      ↔ x.accepted.length + 1 < 2 ^ 64 ∧ msg.offset.toNat = (dataOf x.accepted).length := by
  have hconcat := h.inOrder.numbered.concat_iff hseq
  constructor
  · intro hkept
    exact hconcat.mp (hacc ▸ hkept.inOrder.numbered)
  · intro hnext
    refine ⟨⟨hacc ▸ hconcat.mpr hnext, fun _ => hcontent⟩, fun _ hout => ?_,
      fun hfin => absurd hfin hopen⟩
    have hnumber : msg.sequenceNo.toNat = x.accepted.length + 1 := by
      rw [hseq, UInt64.toNat_ofNat_of_lt' hnext.1]
    exact hout.elim (absurd hnumber) (absurd hnext.2)

/-- A last chunk of the wrong size keeps the order exactly if it is empty. -/
theorem orderKept_refused {x' : Recorded} (h : Tracks sessionUuid path f size x)
    (hopen : ¬ x.Finished path) (hfin : x'.Finished path) (hacc : x'.accepted = x.accepted)
    (hcontent : x'.upload.disk.files path = some (dataOf x.accepted ++ msg.data))
    (hfault : ∃ v, x'.upload.files f = some v ∧ v.fileStatus = .fault) :
    OrderKept path f msg x x' ↔ msg.data = [] := by
  constructor
  · intro hkept
    have hfile := hkept.inOrder.content (by obtain ⟨t, ht, -⟩ := hfin; simp [ht])
    rw [hcontent, hacc, Option.some.injEq] at hfile
    exact List.append_right_eq_self.mp hfile
  · intro hdata
    rw [hdata, List.append_nil, ← hacc] at hcontent
    exact ⟨⟨hacc ▸ h.inOrder.numbered, fun _ => hcontent⟩, fun _ _ => ⟨hfin, hfault⟩,
      fun hno => absurd hno hopen⟩

/-- **What a message does**: the transfer goes on as it was, and the order is kept, exactly if the
message is orderly. -/
theorem step (h : Tracks sessionUuid path f size x) (hf : msg.filename = f)
    (hid : msg.sessionId = sessionUuid) :
    ∃ x', orderStep sha1 sessionUuid path msg x = some x'
      ∧ (Orderly path size msg x → Tracks sessionUuid path f size x')
      ∧ (OrderKept path f msg x x' ↔ Orderly path size msg x) := by
  by_cases hfin : x.Finished path
  · exact ⟨x, h.step_finished sha1 hf hid hfin, fun _ => h,
      fun _ hopen => absurd hfin hopen,
      fun _ => ⟨h.inOrder, fun hopen => absurd hfin hopen, fun _ => ⟨hfin, rfl, rfl⟩⟩⟩
  by_cases hnext : msg.sequenceNo ≠ UInt64.ofNat (x.accepted.length + 1)
      ∨ msg.offset < lastOffset x.accepted
  · obtain ⟨x', hstep, htracks, hfinished, hfault⟩ := h.step_rejected sha1 hf hid hfin hnext
    exact ⟨x', hstep, fun _ => htracks,
      fun _ _ hseq hoffset => absurd hnext (by simp [hseq, hoffset]),
      fun _ => ⟨htracks.inOrder, fun _ _ => ⟨hfinished, hfault⟩, fun hno => absurd hno hfin⟩⟩
  obtain ⟨hseq, hoffset⟩ : msg.sequenceNo = UInt64.ofNat (x.accepted.length + 1)
      ∧ ¬ msg.offset < lastOffset x.accepted := by
    simpa only [not_or, not_not] using hnext
  have horderly : Orderly path size msg x ↔
      if msg.isLastChunk = true ∧ size.toNat ≠ (dataOf x.accepted ++ msg.data).length then
        msg.data = []
      else x.accepted.length + 1 < 2 ^ 64 ∧ msg.offset.toNat = (dataOf x.accepted).length :=
    ⟨fun h => h hfin hseq hoffset, fun h _ _ _ => h⟩
  cases hlast : msg.isLastChunk with
  | false =>
    rw [hlast, if_neg (fun hno => Bool.false_ne_true hno.1)] at horderly
    obtain ⟨x', hstep, hacc, hcontent, htracks⟩ :=
      h.step_stored sha1 hf hid hfin hseq hoffset hlast
    have hkept := h.orderKept_accepted (f := f) hfin hseq hacc hcontent
    exact ⟨x', hstep, fun ho => htracks (hkept.mpr (horderly.mp ho)).inOrder.numbered,
      hkept.trans horderly.symm⟩
  | true =>
    obtain ⟨x', hstep, hfinished, hcontent, ⟨v, hv, hpath, hsize, hfault⟩, hacc⟩ :=
      h.step_complete sha1 hf hid hfin hseq hoffset hlast
    have htracks (hkept : OrderKept path f msg x x') : Tracks sessionUuid path f size x' :=
      ⟨⟨v, hv, hpath, hsize⟩, fun hno => absurd hfinished hno, hkept.inOrder⟩
    suffices hkept : OrderKept path f msg x x' ↔ Orderly path size msg x from
      ⟨x', hstep, fun ho => htracks (hkept.mpr ho), hkept⟩
    by_cases hne : size.toNat ≠ (dataOf x.accepted ++ msg.data).length
    · rw [if_pos hne] at hacc
      rw [if_pos ⟨hlast, hne⟩] at horderly
      rw [horderly]
      exact h.orderKept_refused hfin hfinished hacc hcontent ⟨v, hv, hfault hne⟩
    · rw [if_neg hne] at hacc
      rw [if_neg (fun hno => hne hno.2)] at horderly
      rw [horderly]
      exact h.orderKept_accepted hfin hseq hacc (by rw [hcontent, hacc, dataOf_concat])

/-- **A run keeps the order exactly if its messages are orderly.** -/
theorem run {msgs : List FileChunk}
    (hmsgs : ∀ msg ∈ msgs, msg.filename = f ∧ msg.sessionId = sessionUuid)
    (h : Tracks sessionUuid path f size x) :
    (Meets (orderStep sha1 sessionUuid path) (KeepsOrder sha1 sessionUuid path f) msgs x
        ↔ Meets (orderStep sha1 sessionUuid path) (Orderly path size) msgs x)
      ∧ (Meets (orderStep sha1 sessionUuid path) (Orderly path size) msgs x →
        ∃ x', runFrom (orderStep sha1 sessionUuid path) msgs x = some x'
          ∧ Tracks sessionUuid path f size x') := by
  induction msgs generalizing x with
  | nil => exact ⟨Iff.rfl, fun _ => ⟨x, rfl, h⟩⟩
  | cons msg msgs ih =>
    obtain ⟨⟨hf, hid⟩, hmsgs⟩ := List.forall_mem_cons.mp hmsgs
    obtain ⟨t, ht, htracks, hkept⟩ := h.step sha1 hf hid
    have hkeeps : KeepsOrder sha1 sessionUuid path f msg x ↔ Orderly path size msg x := by
      simp only [KeepsOrder, ht, Option.some.injEq, exists_eq_left', hkept]
    simp only [Meets, ht, Option.elim_some, hkeeps]
    refine ⟨and_congr_right fun ho => (ih hmsgs (htracks ho)).1, fun ⟨ho, hrest⟩ => ?_⟩
    obtain ⟨x', hx', hx⟩ := (ih hmsgs (htracks ho)).2 hrest
    exact ⟨x', runFrom_cons.mpr ⟨t, ht, hx'⟩, hx⟩

/-- Before the first message no file is open; the first chunk opens it, and it is empty then. -/
theorem fresh {files : FileTable} {disk : Disk} {v : FileStateView} (hentry : files f = some v)
    (hwritable : disk.writable v.serverFilePath = true) :
    Tracks sessionUuid v.serverFilePath f v.fileSzBytes ⟨.fresh files disk, []⟩ where
  entry := ⟨v, hentry, rfl, rfl⟩
  opened := fun _ => by
    rw [openTransfer_of_none rfl]
    have hopen : OutStream.openTrunc disk v.serverFilePath
        = (disk.put v.serverFilePath [], ⟨v.serverFilePath, true, 0⟩) := by
      simp [OutStream.openTrunc, hwritable]
    simp only [FileTransferState.new, UploadState.fresh, hopen]
    exact ⟨rfl, rfl, rfl, rfl, rfl, Disk.put_self ..⟩
  inOrder := ⟨⟨rfl, fun before c after h => absurd h (by simp)⟩, fun h => absurd rfl h⟩

end Tracks

/-- **The messages of a run keep the order exactly if they are orderly**, and then the file is what
was accepted, in order. -/
theorem chunks_in_order (sha1 : Str → Str) (sessionUuid : SessionId) {f : Str} {files : FileTable}
    {disk : Disk} {v : FileStateView} (hentry : files f = some v)
    (hwritable : disk.writable v.serverFilePath = true) {msgs : List FileChunk}
    (hmsgs : ∀ msg ∈ msgs, msg.filename = f ∧ msg.sessionId = sessionUuid) :
    let step := orderStep sha1 sessionUuid v.serverFilePath
    let orderly := Orderly v.serverFilePath v.fileSzBytes
    (Meets step (KeepsOrder sha1 sessionUuid v.serverFilePath f) msgs ⟨.fresh files disk, []⟩
        ↔ Meets step orderly msgs ⟨.fresh files disk, []⟩)
      ∧ (Meets step orderly msgs ⟨.fresh files disk, []⟩ →
        ∃ x, runFrom step msgs ⟨.fresh files disk, []⟩ = some x ∧ InOrder v.serverFilePath x) := by
  have hrun := Tracks.run sha1 hmsgs (.fresh hentry hwritable)
  refine ⟨hrun.1, fun horderly => ?_⟩
  obtain ⟨x, hx, htracks⟩ := hrun.2 horderly
  exact ⟨x, hx, htracks.inOrder⟩

/-- The record of `/m.h`, which has one byte. -/
def declaredByte : FileStateView := .new 1 (sampleSha1 (str "a")) (str "/w/m.h")

/-- The table of a client that has declared `/m.h`. -/
def declaredTable : FileTable := fun f => if f = str "/m.h" then some declaredByte else none

/-- A piece of `/m.h`. -/
def piece (sequenceNo offset : UInt64) (data : Str) (isLastChunk : Bool) : FileChunk where
  sessionId := str "s"
  filename := str "/m.h"
  sequenceNo := sequenceNo
  offset := offset
  data := data
  isLastChunk := isLastChunk

/-- One byte, and then an empty last chunk. -/
theorem chunks_in_order_two :
    ∃ x, runFrom (orderStep sampleSha1 (str "s") declaredByte.serverFilePath)
        [piece 1 0 (str "a") false, piece 2 1 [] true] ⟨.fresh declaredTable .empty, []⟩ = some x
      ∧ InOrder declaredByte.serverFilePath x := by
  have hrun := @chunks_in_order sampleSha1 (str "s") (str "/m.h") declaredTable .empty declaredByte
    (by decide) (by decide) [piece 1 0 (str "a") false, piece 2 1 [] true] (by decide)
  exact hrun.2 (by decide +kernel)

/-- The second chunk starts at 5, where nothing has been sent yet; it is accepted, and its data
follows the first byte. -/
theorem chunk_jumps_ahead :
    ∃ x, runFrom (orderStep sampleSha1 (str "s") declaredByte.serverFilePath)
        [piece 1 0 (str "a") false, piece 2 5 (str "b") false] ⟨.fresh declaredTable .empty, []⟩
          = some x
      ∧ x.accepted = [piece 1 0 (str "a") false, piece 2 5 (str "b") false]
      ∧ x.upload.disk.files declaredByte.serverFilePath = some (str "ab")
      ∧ ¬ InOrder declaredByte.serverFilePath x := by
  refine ⟨_, rfl, rfl, rfl, fun h => ?_⟩
  have hoffset : (5 : UInt64).toNat = 1 := h.numbered.offsets [piece 1 0 (str "a") false] _ [] rfl
  exact absurd hoffset (by decide)

end DistBuild
