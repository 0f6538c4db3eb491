import DistBuild.Machinery.Blocks
import DistBuild.Server.FileChunk

/-!
# Upload/SendFile — the client cuts a required file into chunk messages

    content ─blocks─▸ 64 KiB buffers ─chunkMessages─▸ seq 1, 2, …; offset = bytes before; last: short

The end of a file is a short buffer, so a file whose length is a positive multiple of the buffer
size ends without a last chunk (`fileBlocks_eq_append`); the empty file has a message of its own.
-/

namespace DistBuild

/-- `OBJ_CHUNK_SZ` of the client and `CHUNK_SIZE` of the server. -/
def chunkSize : ℕ := 64 * 1024

theorem chunkSize_pos : 0 < chunkSize := by decide

/-- The part of a `ClientSession` its uploads use. -/
structure ClientUpload where
  sessionUuid : SessionId
  requiredFiles : List Str
  reqFilesSendIdx : ℕ

/-- The read loop of `_send_required_file`, one message for each buffer. -/
def chunkMessages (sessionUuid : SessionId) (file : Str) :
    UInt64 → UInt64 → List Str → List FileChunk
  | _, _, [] => []
  | seqNo, fileOffset, b :: bs =>
    { sessionId := sessionUuid, filename := file, sequenceNo := seqNo, offset := fileOffset,
      data := b, isLastChunk := b.length < chunkSize }
      :: chunkMessages sessionUuid file (seqNo + 1) (fileOffset + UInt64.ofNat b.length) bs

/-- The message of an empty file. -/
def emptyFileMessage (sessionUuid : SessionId) (file : Str) : FileChunk where
  sessionId := sessionUuid
  filename := file
  sequenceNo := 1
  offset := 0
  data := []
  isLastChunk := true

/-- The messages `_send_required_file` sends for one file. -/
def fileMessages (sessionUuid : SessionId) (file content : Str) : List FileChunk :=
  if content = [] then [emptyFileMessage sessionUuid file]
  else chunkMessages sessionUuid file 1 0 (blocks chunkSize content)

/-- `ClientSession::_send_required_file`, on the client's file system `fs`: the messages it queues,
and the session after.  It sends nothing when all files are sent, or the next one does not open. -/
def sendRequiredFile (fs : Str → Option Str) (c : ClientUpload) : List FileChunk × ClientUpload :=
  match c.requiredFiles[c.reqFilesSendIdx]? with
  | none => ([], c)
  | some file =>
    match fs file with
    | none => ([], c)
    | some content =>
      (fileMessages c.sessionUuid file content,
        { c with reqFilesSendIdx := c.reqFilesSendIdx + 1 })

/-! ## The empty file is one short block -/

/-- The buffers a file is sent in. -/
def fileBlocks (content : Str) : List Str :=
  if content = [] then [[]] else blocks chunkSize content

theorem fileMessages_eq (sessionUuid : SessionId) (file content : Str) :
    fileMessages sessionUuid file content
      = chunkMessages sessionUuid file 1 0 (fileBlocks content) := by
  unfold fileMessages fileBlocks
  split_ifs
  · rfl
  · rfl

/-- Every message carries the file's name and the session's id. -/
theorem mem_chunkMessages {sessionUuid : SessionId} {file : Str} {bs : List Str}
    {seqNo offset : UInt64}
    {m : FileChunk} (h : m ∈ chunkMessages sessionUuid file seqNo offset bs) :
    m.filename = file ∧ m.sessionId = sessionUuid := by
  induction bs generalizing seqNo offset with
  | nil => cases h
  | cons b bs ih =>
    rcases List.mem_cons.mp h with rfl | h
    · exact ⟨rfl, rfl⟩
    · exact ih h

theorem mem_fileMessages {sessionUuid : SessionId} {file content : Str} {m : FileChunk}
    (h : m ∈ fileMessages sessionUuid file content) :
    m.filename = file ∧ m.sessionId = sessionUuid := by
  rw [fileMessages_eq] at h
  exact mem_chunkMessages h

theorem flatten_fileBlocks (content : Str) : (fileBlocks content).flatten = content := by
  unfold fileBlocks
  split_ifs with h
  · exact h.symm
  · exact flatten_blocks chunkSize_pos content

/-- A file whose end is marked: it is empty, or its last buffer is short. -/
def EndsShort (content : Str) : Prop := content = [] ∨ ¬ chunkSize ∣ content.length

/-- **Only the last buffer can be short, and it is exactly if the end of the file is marked.** -/
theorem fileBlocks_eq_append (content : Str) :
    ∃ init last, fileBlocks content = init ++ [last] ∧ (∀ b ∈ init, b.length = chunkSize)
      ∧ (last.length < chunkSize ↔ EndsShort content) := by
  by_cases h : content = []
  · exact ⟨[], [], by simp [fileBlocks, h], by simp, by simp [EndsShort, h, chunkSize_pos]⟩
  · obtain ⟨init, last, heq, hfull, hlast⟩ := blocks_eq_append chunkSize_pos h
    exact ⟨init, last, by rw [fileBlocks, if_neg h, heq], hfull, by simp [EndsShort, h, hlast]⟩

/-- Every file has a message. -/
theorem fileMessages_ne_nil {sessionUuid : SessionId} {file content : Str} :
    fileMessages sessionUuid file content ≠ [] := by
  obtain ⟨init, last, heq, -⟩ := fileBlocks_eq_append content
  rw [fileMessages_eq, heq]
  cases init <;> exact List.cons_ne_nil _ _

theorem length_le_of_mem_fileBlocks {content b : Str} (hb : b ∈ fileBlocks content) :
    b.length ≤ chunkSize := by
  unfold fileBlocks at hb
  split_ifs at hb with h
  · rw [List.mem_singleton] at hb
    simp [hb]
  · exact length_le_of_mem_blocks chunkSize_pos hb

/-- A short buffer is the last one, and marks the end of the file. -/
theorem fileBlocks_short {content b : Str} {pre post : List Str}
    (h : fileBlocks content = pre ++ b :: post) (hb : b.length < chunkSize) :
    post = [] ∧ EndsShort content := by
  obtain ⟨init, last, heq, hfull, hlast⟩ := fileBlocks_eq_append content
  rw [heq] at h
  obtain rfl | ⟨post', x, rfl⟩ := List.eq_nil_or_concat post
  · obtain ⟨-, hbl⟩ := List.append_inj' h rfl
    obtain rfl : last = b := by simpa using hbl
    exact ⟨rfl, hlast.mp hb⟩
  · have hends : init ++ [last] = (pre ++ b :: post') ++ [x] := by simpa using h
    obtain ⟨hinit, -⟩ := List.append_inj' hends rfl
    have := hfull b (by simp [hinit])
    omega

/-- If every buffer is full, the end of the file is not marked. -/
theorem not_endsShort_of_full {content : Str}
    (h : ∀ b ∈ fileBlocks content, b.length = chunkSize) : ¬ EndsShort content := by
  obtain ⟨init, last, heq, -, hlast⟩ := fileBlocks_eq_append content
  have hl := h last (by simp [heq])
  exact fun hs => absurd (hlast.mpr hs) (by omega)

end DistBuild
