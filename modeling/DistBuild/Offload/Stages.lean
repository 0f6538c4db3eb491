import DistBuild.Offload.Network
import DistBuild.Server.Waiting
import DistBuild.Upload.Channel

/-!
# Offload/Stages — how far a session is, at both ends

    opening ─▸ confirmed ─▸ sending ─▸ judging ─▸ judged ─▸ acked ─▸ … ─▸ idle ─▸ left
                                ▴                              │
                                └──────── the next file ◂──────┘

A stage ties the session, the client at its other end, and what is on the way between them.  A file
is UPLOADING until its session has judged it, and a session waits for the client, or the client for
it, or nothing is left to do.
-/

namespace DistBuild.Offload

/-- The file `k` has the status `st`. -/
def Has (files : FileTable) (k : Str) (st : FileStatus) : Prop := ∃ v ∈ files k, v.fileStatus = st

/-- An entry of the file `k` as its client has it. -/
structure Describes (sha1 : Str → Str) (c : ClientId) (fs : Str → Option Str) (k : Str)
    (v : FileStateView) : Prop where
  transferable : Transferable c fs k
  path : v.serverFilePath = cnvtClientToServerPath (workspaceOf c) k
  size : v.fileSzBytes = UInt64.ofNat ((fs k).getD []).length
  sha : v.fileSha1 = sha1 ((fs k).getD [])

/-- What of some messages is not an object chunk. -/
def control (ms : List ServerMessage) : List ServerMessage := ms.filter (·.objFileChunk?.isNone)

@[simp] theorem control_nil : control [] = [] := rfl

@[simp] theorem control_append (ms ms' : List ServerMessage) :
    control (ms ++ ms') = control ms ++ control ms' := List.filter_append ..

@[simp] theorem control_chunks (ms : List ObjFileChunk) :
    control (ms.map .objFileChunk) = [] := by
  simp [control, ServerMessage.objFileChunk?]

/-- The chunk in the hand of a handler that is about to store it. -/
def inHand : Handling → List FileChunk
  | .transferring m _ => [m]
  | _ => []

@[simp] theorem inHand_receiving : inHand .receiving = [] := rfl

@[simp] theorem inHand_transferring (m : FileChunk) (p : Str) :
    inHand (.transferring m p) = [m] := rfl

/-- The handler has no chunk in hand, and no file to judge. -/
def Free : Handling → Bool
  | .transferring _ _ | .measuring _ _ | .hashing _ _ | .copying _ _ _ | .writing _ _ _ _ => false
  | _ => true

variable (sha1 : Str → Str) (c : ClientId) (fs : Str → Option Str) (sid : SessionId)

/-- The server path of a file of the client. -/
abbrev pathOf (k : Str) : Str := cnvtClientToServerPath (workspaceOf c) k

/-- The handler judges the completed file `f`. -/
def Judges (f : Str) : Handling → Prop
  | .measuring m p => m.filename = f ∧ p = pathOf c f
  | .hashing m p => m.filename = f ∧ p = pathOf c f
  | .copying m marks ok => m.filename = f ∧ marks = [.available] ∧ ok = true
  | .writing m u marks ok =>
    m.filename = f ∧ Describes sha1 c fs f u ∧ u.fileStatus = .available ∧ marks = [] ∧ ok = true
  | _ => False

/-- The client has sent the files `done`, and `rest` are still to come. -/
structure Underway (files : FileTable) (x : Session) (e : ClientEnd) (done rest : List Str) :
    Prop where
  phase : e.phase = .handling
  upload : e.upload = ⟨sid, x.requested, done.length⟩
  requested : x.requested = done ++ rest
  confirmed : x.starting.unconfirmed = false
  waiting : ∀ k ∈ rest, Has files k .uploading
  unopened : ∀ k ∈ rest, x.transfers (pathOf c k) = none

/-- The session has stored `pre` of the file `f`, and `post` is on the way or in its hand. -/
structure Passing (disk : Disk) (x : Session) (e : ClientEnd) (f : Str)
    (pre post : List Str) : Prop where
  handling : x.handling = .receiving ∨ ∃ m, x.handling = .transferring m (pathOf c f)
  stream : ∃ unsent, e.toServer = unsent.map .fileChunkUpload
    ∧ inHand x.handling ++ unsent = chunkMessages sid f (UInt64.ofNat (pre.length + 1))
        (UInt64.ofNat pre.flatten.length) post
  blocks : ∃ content, fs f = some content ∧ fileBlocks content = pre ++ post
  full : ∀ b ∈ pre, b.length = chunkSize
  more : post ≠ []
  writable : disk.writable (pathOf c f) = true
  receiving : ∀ files, Receiving sid ⟨files, disk, x.transfers⟩ (pathOf c f) pre

/-- **How far a session is**: the session `x`, the client `e` at its other end, what it has sent
(`unread`) that the client has not read, the client's file table and the server's disk. -/
inductive Stage (files : FileTable) (disk : Disk) (x : Session) (e : ClientEnd)
    (unread : List ServerMessage) : Prop
  | opening (hphase : e.phase = .connecting) (hout : e.toServer = [])
    (hopen : x.starting.unconfirmed = true) (hin : control unread = [])
    (hasked : ∀ k ∈ x.requested, Has files k .uploading)
  | confirmed (hphase : e.phase = .connecting) (hout : e.toServer = [])
    (hopen : x.starting.unconfirmed = false) (hhandling : x.handling = .receiving)
    (hin : control unread = [.sessionConfirmed sid x.requested])
    (hasked : ∀ k ∈ x.requested, Has files k .uploading)
    (hunopened : ∀ k ∈ x.requested, x.transfers (pathOf c k) = none)
  | sending {done f rest pre post} (hunder : Underway c sid files x e (done ++ [f]) rest)
    (hdone : ∀ k ∈ done, Has files k .available) (hf : Has files f .uploading)
    (hin : control unread = []) (hpass : Passing c fs sid disk x e f pre post)
  | judging {done f rest} (hunder : Underway c sid files x e (done ++ [f]) rest)
    (hdone : ∀ k ∈ done, Has files k .available) (hf : Has files f .uploading)
    (hin : control unread = []) (hout : e.toServer = [])
    (hhandling : Judges sha1 c fs f x.handling) (hdisk : disk.files (pathOf c f) = fs f)
  | judged {done rest m} (hunder : Underway c sid files x e done rest)
    (hdone : ∀ k ∈ done, Has files k .available) (hin : control unread = [])
    (hout : e.toServer = []) (hhandling : x.handling = .sweeping m ∨ x.handling = .notifying m)
  | acked {done rest a} (hunder : Underway c sid files x e done rest)
    (hdone : ∀ k ∈ done, Has files k .available)
    (hin : control unread = [.fileUpComplete a]) (hok : a.sessionId = sid ∧ a.success = true)
    (hout : e.toServer = []) (hhandling : x.handling = .receiving)
  | idle (hunder : Underway c sid files x e x.requested [])
    (hdone : ∀ k ∈ x.requested, Has files k .available) (hin : control unread = [])
    (hout : e.toServer = []) (hhandling : x.handling = .receiving)
  | left (hover : e.Over) (hdone : ∀ k ∈ x.requiredFilesState, Has files k .available)
    (hout : e.toServer = [] ∨ e.toServer = [.sessionAbort]) (hfree : Free x.handling = true)

/-- What a session owes to the file table, wherever it is. -/
structure Engaged (files : FileTable) (x : Session) : Prop where
  nodup : x.requested.Nodup
  asked : ∀ k ∈ x.requested, k ∈ x.requiredFilesState
  known : ∀ k ∈ x.requiredFilesState, ∃ v, files k = some v
  pending : ∀ k ∈ x.pending (workspaceOf c), k ∈ x.requiredFilesState
  claimed : ∀ u ∈ x.starting.claimed, u.fileStatus = .uploading ∧ ∃ k, Describes sha1 c fs k u
  fresh : x.starting.unconfirmed = true → ∀ p, x.transfers p = none
  prepared : x.starting ≠ .preparing → x.areArgsReady = true

/-- **What a step of the session `x` does to what its client's sessions share**: nothing, or it
claims a file that nobody has asked for, or stores a part of one it has asked for, or makes that
AVAILABLE. -/
inductive Touch (files : FileTable) (disk : Disk) (x : Session) :
    FileTable → Disk → Session → Prop
  | nothing {x'} (hreq : x'.requested = x.requested) : Touch files disk x files disk x'
  | claims {k u x'} (hk : Has files k .initial) (hu : Describes sha1 c fs k u)
    (hst : u.fileStatus = .uploading) (hmem : k ∈ x.requiredFilesState)
    (hreq : x'.requested = x.requested ++ [k]) :
    Touch files disk x (Function.update files k (some u)) disk x'
  | stores {k disk' x'} (hk : k ∈ x.requested) (hup : Has files k .uploading)
    (hdisk : ∀ q, q ≠ pathOf c k → disk'.files q = disk.files q)
    (hwritable : disk'.writable = disk.writable) (hreq : x'.requested = x.requested) :
    Touch files disk x files disk' x'
  | completes {k u x'} (hk : k ∈ x.requested) (hup : Has files k .uploading)
    (hu : Describes sha1 c fs k u) (hst : u.fileStatus = .available)
    (hdisk : disk.files (pathOf c k) = fs k) (hreq : x'.requested = x.requested) :
    Touch files disk x (Function.update files k (some u)) disk x'

variable {sha1 c fs sid}

/-! ## Entries and paths -/

theorem Has.unique {files : FileTable} {k : Str} {st st' : FileStatus} (h : Has files k st)
    (h' : Has files k st') : st = st' := by
  obtain ⟨v, hv, rfl⟩ := h
  obtain ⟨v', hv', rfl⟩ := h'
  rw [Option.some.inj (hv.symm.trans hv')]

theorem Has.of_eq {files files' : FileTable} {k : Str} {st : FileStatus} (h : Has files k st)
    (he : files' k = files k) : Has files' k st := by
  obtain ⟨v, hv, hst⟩ := h
  exact ⟨v, he ▸ hv, hst⟩

theorem has_update {files : FileTable} {k : Str} {u : FileStateView} :
    Has (Function.update files k (some u)) k u.fileStatus := ⟨u, Function.update_self .., rfl⟩

/-- A name in the table stays there when an entry is set. -/
theorem known_update {files : FileTable} {k k' : Str} {u v : FileStateView}
    (hv : files k = some v) : ∃ v', Function.update files k' (some u) k = some v' := by
  by_cases hk : k = k'
  · exact ⟨u, by rw [hk, Function.update_self]⟩
  · exact ⟨v, (Function.update_of_ne hk ..).trans hv⟩

/-- Different files of a client have different server paths. -/
theorem pathOf_ne {k k' : Str} (h : Transferable c fs k) (h' : Transferable c fs k')
    (hne : k ≠ k') : pathOf c k ≠ pathOf c k' := fun hp => hne (h.survives.injective h'.survives hp)

/-- What the client has of a file it declares. -/
theorem Describes.content {k : Str} {v : FileStateView} (h : Describes sha1 c fs k v) :
    ∃ content, fs k = some content ∧ EndsShort content ∧ content.length < 2 ^ 64
      ∧ v.fileSzBytes.toNat = content.length ∧ v.fileSha1 = sha1 content := by
  obtain ⟨content, hc, hlen, hshort⟩ := h.transferable.content
  refine ⟨content, hc, hshort, hlen, ?_, ?_⟩
  · rw [h.size, hc, Option.getD_some, UInt64.toNat_ofNat_of_lt' hlen]
  · rw [h.sha, hc, Option.getD_some]

theorem Describes.of_status {k : Str} {v : FileStateView} (h : Describes sha1 c fs k v)
    (st : FileStatus) (t : UInt64) :
    Describes sha1 c fs k { v with fileStatus := st, upStartTime := t } :=
  { h with }

theorem Describes.cnvt {k : Str} {v : FileStateView} (h : Describes sha1 c fs k v) :
    cnvtServerToClientPath (workspaceOf c) v.serverFilePath = k := h.path ▸ h.transferable.survives

/-! ## What the others do -/

/-- What a transfer is opened with depends on its own path. -/
theorem openTransfer_congr (sid : SessionId) {p : Str} {d d' : Disk} {ts ts' : Transfers}
    (ht : ts' p = ts p) (hd : d'.files p = d.files p) (hw : d'.writable = d.writable) :
    (openTransfer sid p d' ts').2 = (openTransfer sid p d ts).2
      ∧ (openTransfer sid p d' ts').1.files p = (openTransfer sid p d ts).1.files p := by
  cases htp : ts p with
  | some t =>
    rw [openTransfer_of_some htp, openTransfer_of_some (ht.trans htp)]
    exact ⟨rfl, hd⟩
  | none =>
    rw [openTransfer_of_none htp, openTransfer_of_none (ht.trans htp)]
    unfold FileTransferState.new OutStream.openTrunc
    rw [hw]
    split_ifs
    · exact ⟨rfl, (Disk.put_self ..).trans (Disk.put_self ..).symm⟩
    · exact ⟨rfl, hd⟩

theorem receiving_congr {u u' : UploadState} {p : Str} {pre : List Str}
    (h : Receiving sid u p pre) (ht : u'.transfers p = u.transfers p)
    (hd : u'.disk.files p = u.disk.files p) (hw : u'.disk.writable = u.disk.writable) :
    Receiving sid u' p pre := by
  obtain ⟨hstate, hfile⟩ := openTransfer_congr sid ht hd hw
  have hafter : OutStream.after u'.disk p pre.flatten = .after u.disk p pre.flatten := by
    unfold OutStream.after
    rw [hw]
  have hreceived : received u'.disk p pre.flatten = received u.disk p pre.flatten := by
    unfold received
    rw [hw, hd]
  obtain ⟨h₁, h₂, h₃, h₄, h₅, h₆⟩ := h
  rw [← hstate] at h₁ h₂ h₃ h₄ h₅
  exact ⟨h₁, h₂, h₃, h₄, h₅.trans hafter.symm, (hfile.trans h₆).trans hreceived.symm⟩

/-- A step that changes nothing the session `x` relies on: no file that is AVAILABLE, and none that
`x` was asked for and has not completed. -/
structure Leaves (c : ClientId) (files : FileTable) (disk : Disk) (x : Session)
    (files' : FileTable) (disk' : Disk) : Prop where
  available : ∀ k, Has files k .available → files' k = files k
  asked : ∀ k ∈ x.requested, Has files k .uploading → files' k = files k
  stored : ∀ k ∈ x.requested, Has files k .uploading →
    disk'.files (pathOf c k) = disk.files (pathOf c k)
  writable : disk'.writable = disk.writable

variable {files files' : FileTable} {disk disk' : Disk} {x : Session} {e : ClientEnd}
  {unread : List ServerMessage}

theorem Leaves.has_available (h : Leaves c files disk x files' disk') {ks : List Str}
    (hk : ∀ k ∈ ks, Has files k .available) : ∀ k ∈ ks, Has files' k .available :=
  fun k hm => (hk k hm).of_eq (h.available k (hk k hm))

/-- The file under way is one the session was asked for. -/
theorem Underway.mem {done rest : List Str} {f : Str}
    (h : Underway c sid files x e (done ++ [f]) rest) : f ∈ x.requested := by
  rw [h.requested]
  simp

theorem Leaves.underway (h : Leaves c files disk x files' disk') {done rest : List Str}
    (hu : Underway c sid files x e done rest) : Underway c sid files' x e done rest :=
  { hu with
    waiting := fun k hk => (hu.waiting k hk).of_eq
      (h.asked k (hu.requested ▸ List.mem_append_right _ hk) (hu.waiting k hk)) }

/-- **A stage is a matter of the session and its client alone.** -/
theorem Stage.frame (h : Leaves c files disk x files' disk')
    (hs : Stage sha1 c fs sid files disk x e unread) :
    Stage sha1 c fs sid files' disk' x e unread := by
  have hasked : (∀ k ∈ x.requested, Has files k .uploading) →
      ∀ k ∈ x.requested, Has files' k .uploading :=
    fun hup k hk => (hup k hk).of_eq (h.asked k hk (hup k hk))
  cases hs with
  | opening hphase hout hopen hin hup => exact .opening hphase hout hopen hin (hasked hup)
  | confirmed hphase hout hopen hh hin hup htr =>
    exact .confirmed hphase hout hopen hh hin (hasked hup) htr
  | sending hu hdone hf hin hp =>
    have hmem := hu.mem
    refine .sending (h.underway hu) (h.has_available hdone) (hf.of_eq (h.asked _ hmem hf)) hin
      { hp with writable := h.writable ▸ hp.writable, receiving := fun fls => ?_ }
    exact receiving_congr (hp.receiving fls) rfl (h.stored _ hmem hf) h.writable
  | judging hu hdone hf hin hout hh hd =>
    have hmem := hu.mem
    exact .judging (h.underway hu) (h.has_available hdone)
      (hf.of_eq (h.asked _ hmem hf)) hin hout hh
      ((h.stored _ hmem hf).trans hd)
  | judged hu hdone hin hout hh => exact .judged (h.underway hu) (h.has_available hdone) hin hout hh
  | acked hu hdone hin hok hout hh =>
    exact .acked (h.underway hu) (h.has_available hdone) hin hok hout hh
  | idle hu hdone hin hout hh => exact .idle (h.underway hu) (h.has_available hdone) hin hout hh
  | left hover hdone hout hfree => exact .left hover (h.has_available hdone) hout hfree

/-- What was in the table still is after a step of another session. -/
theorem Engaged.frame (h : ∀ k v, files k = some v → ∃ v', files' k = some v')
    (he : Engaged sha1 c fs files x) : Engaged sha1 c fs files' x :=
  { he with
    known := fun k hk => by
      obtain ⟨v, hv⟩ := he.known k hk
      exact h k v hv }

/-- **What a session does leaves the others alone**, as no two were asked for the same file. -/
theorem Touch.leaves {y x' : Session} (h : Touch sha1 c fs files disk x files' disk' x')
    (hfiles : ∀ k v, files k = some v → Transferable c fs k)
    (hapart : ∀ k ∈ x.requested, k ∉ y.requested)
    (hnew : ∀ k, Has files k .initial → k ∉ y.requested) : Leaves c files disk y files' disk' := by
  have hupdate : ∀ {k u}, ¬ Has files k .available → k ∉ y.requested →
      Leaves c files disk y (Function.update files k (some u)) disk := by
    intro k u hst hk
    refine ⟨fun k' hk' => Function.update_of_ne ?_ .., fun k' hk' _ => Function.update_of_ne ?_ ..,
      fun _ _ _ => rfl, rfl⟩
    · rintro rfl
      exact hst hk'
    · rintro rfl
      exact hk hk'
  cases h with
  | nothing hreq => exact ⟨fun _ _ => rfl, fun _ _ _ => rfl, fun _ _ _ => rfl, rfl⟩
  | claims hk hu hst hmem hreq =>
    exact hupdate (fun ha => FileStatus.noConfusion (hk.unique ha)) (hnew _ hk)
  | stores hk hup hdisk hwritable hreq =>
    refine ⟨fun _ _ => rfl, fun _ _ _ => rfl, fun k' hk' hup' => hdisk _ ?_, hwritable⟩
    obtain ⟨v, hv, -⟩ := hup
    obtain ⟨v', hv', -⟩ := hup'
    refine pathOf_ne (hfiles _ v' hv') (hfiles _ v hv) ?_
    rintro rfl
    exact hapart _ hk hk'
  | completes hk hup hu hst hdisk hreq =>
    exact hupdate (fun ha => FileStatus.noConfusion (hup.unique ha)) (hapart _ hk)

variable {x' : Session}

/-- Entries stay, or change to others of the same file. -/
theorem Touch.grows (h : Touch sha1 c fs files disk x files' disk' x') {k : Str} {v : FileStateView}
    (hv : files k = some v) : ∃ v', files' k = some v' := by
  cases h with
  | nothing _ => exact ⟨v, hv⟩
  | claims _ _ _ _ _ => exact known_update hv
  | stores _ _ _ _ _ => exact ⟨v, hv⟩
  | completes _ _ _ _ _ _ => exact known_update hv

/-- **An entry that changes** is UPLOADING, for the session that was asked, or AVAILABLE, with the
client's bytes on the disk. -/
theorem Touch.entries (h : Touch sha1 c fs files disk x files' disk' x') {k : Str}
    {v : FileStateView} (hv : files' k = some v) :
    files k = some v ∨ Describes sha1 c fs k v
      ∧ (v.fileStatus = .uploading ∧ k ∈ x'.requested
        ∨ v.fileStatus = .available ∧ disk'.files (pathOf c k) = fs k) := by
  cases h with
  | nothing _ => exact Or.inl hv
  | stores _ _ _ _ _ => exact Or.inl hv
  | @claims k' u _ hk hu hst hmem hreq =>
    by_cases hkk : k = k'
    · subst hkk
      obtain rfl : u = v := Option.some.inj ((Function.update_self k (some u) files).symm.trans hv)
      exact Or.inr ⟨hu, Or.inl ⟨hst, hreq ▸ by simp⟩⟩
    · exact Or.inl ((Function.update_of_ne hkk ..).symm.trans hv)
  | @completes k' u _ hk hup hu hst hdisk hreq =>
    by_cases hkk : k = k'
    · subst hkk
      obtain rfl : u = v := Option.some.inj ((Function.update_self k (some u) files).symm.trans hv)
      exact Or.inr ⟨hu, Or.inr ⟨hst, hdisk⟩⟩
    · exact Or.inl ((Function.update_of_ne hkk ..).symm.trans hv)

/-- An AVAILABLE entry stays. -/
theorem Touch.available (h : Touch sha1 c fs files disk x files' disk' x') {k : Str}
    (hk : Has files k .available) : files' k = files k := by
  cases h with
  | nothing _ => rfl
  | stores _ _ _ _ _ => rfl
  | claims hk' _ _ _ _ =>
    refine Function.update_of_ne ?_ ..
    rintro rfl
    exact FileStatus.noConfusion (hk.unique hk')
  | completes _ hup _ _ _ _ =>
    refine Function.update_of_ne ?_ ..
    rintro rfl
    exact FileStatus.noConfusion (hk.unique hup)

/-- What a session is asked for: what it was before, and a file that was INITIAL. -/
theorem Touch.requested (h : Touch sha1 c fs files disk x files' disk' x') :
    x'.requested = x.requested
      ∨ ∃ k, Has files k .initial ∧ Has files' k .uploading
        ∧ x'.requested = x.requested ++ [k] := by
  cases h with
  | nothing hreq => exact Or.inl hreq
  | stores _ _ _ _ hreq => exact Or.inl hreq
  | claims hk hu hst hmem hreq => exact Or.inr ⟨_, hk, hst ▸ has_update, hreq⟩
  | completes _ _ _ _ _ hreq => exact Or.inl hreq

/-- An entry that a step leaves INITIAL was INITIAL before. -/
theorem Touch.initial (h : Touch sha1 c fs files disk x files' disk' x') {k : Str}
    (hk : Has files' k .initial) : Has files k .initial := by
  obtain ⟨v, hv, hst⟩ := hk
  rcases h.entries hv with hv | ⟨-, ⟨hst', -⟩ | ⟨hst', -⟩⟩
  · exact ⟨v, hv, hst⟩
  · exact FileStatus.noConfusion (hst.symm.trans hst')
  · exact FileStatus.noConfusion (hst.symm.trans hst')

/-- What a session is asked for stays. -/
theorem Touch.subset (h : Touch sha1 c fs files disk x files' disk' x') :
    x.requested ⊆ x'.requested := by
  rcases h.requested with hreq | ⟨k, -, -, hreq⟩
  · exact hreq ▸ List.Subset.refl _
  · exact hreq ▸ List.subset_append_left ..

/-- The paths that can be written stay. -/
theorem Touch.writable (h : Touch sha1 c fs files disk x files' disk' x') :
    disk'.writable = disk.writable := by
  cases h with
  | nothing _ => rfl
  | stores _ _ _ hwritable _ => exact hwritable
  | claims _ _ _ _ _ => rfl
  | completes _ _ _ _ _ _ => rfl

/-- **Only the server file of one entry is written.** -/
theorem Touch.stored (h : Touch sha1 c fs files disk x files' disk' x') :
    disk' = disk ∨ ∃ k, Has files k .uploading
      ∧ ∀ q, q ≠ pathOf c k → disk'.files q = disk.files q := by
  cases h with
  | nothing _ => exact Or.inl rfl
  | stores hk hup hdisk _ _ => exact Or.inr ⟨_, hup, hdisk⟩
  | claims _ _ _ _ _ => exact Or.inl rfl
  | completes _ _ _ _ _ _ => exact Or.inl rfl

end DistBuild.Offload
