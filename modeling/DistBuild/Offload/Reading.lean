import DistBuild.Offload.Sessions

/-!
# Offload/Reading — one message at the client, and its stage

    confirmed, acked ─▸ sending, or idle when all files are sent
    an object chunk  ─▸ the stage it was at; the last one, or one in front of the confirmation: left

Whatever its session sends, a client finds one of five messages (`Reads`).  An object chunk says
that all files are there, so none finds a file of this client under way.
-/

namespace DistBuild.Offload

variable {sha1 : Str → Str} {c : ClientId} {fs : Str → Option Str} {sid : SessionId}
  {files : FileTable} {disk : Disk} {x : Session} {e e' : ClientEnd} {m : ServerMessage}
  {rest : List ServerMessage}

/-- One message less is unread. -/
abbrev next (e : ClientEnd) : ClientEnd := { e with read := e.read + 1 }

/-- **What a client makes of a message of its session.** -/
inductive Reads (fs : Str → Option Str) (sid : SessionId) (e : ClientEnd) :
    ServerMessage → ClientEnd → Prop
  | confirmation {names} (hphase : e.phase = .connecting) :
    Reads fs sid e (.sessionConfirmed sid names)
      (ClientEnd.sendNext fs { next e with phase := .handling, upload := ⟨sid, names, 0⟩ })
  | overtaken {a} (hphase : e.phase = .connecting) :
    Reads fs sid e (.objFileChunk a) ((next e).leave .fallenBack)
  | acknowledgement {a} (hphase : e.phase = .handling) :
    Reads fs sid e (.fileUpComplete a) ((next e).sendNext fs)
  | chunk {a} (hphase : e.phase = .handling) (hlast : a.isLastChunk = false) :
    Reads fs sid e (.objFileChunk a) { next e with chunks := e.chunks ++ [a] }
  | last {a} (hphase : e.phase = .handling) (hlast : a.isLastChunk = true) :
    Reads fs sid e (.objFileChunk a)
      ({ next e with chunks := e.chunks ++ [a] }.leave (.answered a.response))

/-- A client that is not done takes any message. -/
theorem receive_isSome (fs : Str → Option Str) (m : ServerMessage) (h : ¬ e.Over) :
    ∃ e', e.receive fs m = some e' := by
  obtain ⟨phase, upload, chunks, read, toServer⟩ := e
  cases phase with
  | connecting => cases m <;> exact ⟨_, rfl⟩
  | handling =>
    cases m with
    | fileUpComplete a =>
      by_cases ha : a.sessionId = upload.sessionUuid ∧ a.success = true
      · exact ⟨_, if_pos ha⟩
      · exact ⟨_, if_neg ha⟩
    | _ => exact ⟨_, rfl⟩
  | answered r => exact absurd (Or.inr ⟨r, rfl⟩) h
  | fallenBack => exact absurd (Or.inl rfl) h

/-- A client that is done takes none. -/
theorem receive_of_over (h : e.Over) : e.receive fs m = none := by
  obtain ⟨phase, upload, chunks, read, toServer⟩ := e
  obtain rfl | ⟨r, rfl⟩ : phase = .fallenBack ∨ ∃ r, phase = .answered r := h <;> rfl

/-- A client in its loop takes an object chunk of its session. -/
theorem reads_objFileChunk {a : ObjFileChunk} (hphase : e.phase = .handling)
    (hid : a.sessionId = e.upload.sessionUuid) (h : e.receive fs (.objFileChunk a) = some e') :
    Reads fs sid e (.objFileChunk a) e' := by
  have hproc : (next e).processObjFileChunk a = e' := by
    obtain ⟨phase, upload, chunks, read, toServer⟩ := e
    obtain rfl : phase = .handling := hphase
    exact Option.some.inj h
  rw [ClientEnd.processObjFileChunk, if_neg (not_not_intro hid)] at hproc
  subst hproc
  cases hlast : a.isLastChunk with
  | true => exact .last hphase hlast
  | false => exact .chunk hphase hlast

/-- A client that is connecting takes an object chunk for a refusal. -/
theorem reads_overtaken {a : ObjFileChunk} (hphase : e.phase = .connecting)
    (h : e.receive fs (.objFileChunk a) = some e') : Reads fs sid e (.objFileChunk a) e' := by
  have he : e' = (next e).leave .fallenBack := by
    obtain ⟨phase, upload, chunks, read, toServer⟩ := e
    obtain rfl : phase = .connecting := hphase
    exact (Option.some.inj h).symm
  exact he ▸ .overtaken hphase

/-- The confirmation, where it is awaited. -/
theorem reads_confirmation {names : List Str} (hphase : e.phase = .connecting)
    (h : e.receive fs (.sessionConfirmed sid names) = some e') :
    e' = ClientEnd.sendNext fs { next e with phase := .handling, upload := ⟨sid, names, 0⟩ } := by
  obtain ⟨phase, upload, chunks, read, toServer⟩ := e
  obtain rfl : phase = .connecting := hphase
  exact (Option.some.inj h).symm

/-- An acknowledgement of the session's own. -/
theorem reads_acknowledgement {a : FileUpComplete} (hphase : e.phase = .handling)
    (hok : a.sessionId = e.upload.sessionUuid ∧ a.success = true)
    (h : e.receive fs (.fileUpComplete a) = some e') : e' = (next e).sendNext fs := by
  obtain ⟨phase, upload, chunks, read, toServer⟩ := e
  obtain rfl : phase = .handling := hphase
  exact (Option.some.inj ((if_pos hok).symm.trans h)).symm

/-- **The next file is sent, or there is none left.** -/
theorem Stage.sendNext {done todo : List Str} {unread : List ServerMessage}
    (hfiles : ∀ k v, files k = some v → Describes sha1 c fs k v)
    (hwritable : ∀ k, Transferable c fs k → disk.writable (pathOf c k) = true)
    (hunder : Underway c sid files x e done todo) (hdone : ∀ k ∈ done, Has files k .available)
    (hin : control unread = []) (hout : e.toServer = []) (hh : x.handling = .receiving) :
    Stage sha1 c fs sid files disk x (e.sendNext fs) unread := by
  have hnext : e.upload.requiredFiles[e.upload.reqFilesSendIdx]? = todo.head? := by
    rw [hunder.upload, hunder.requested, List.getElem?_append_right le_rfl, Nat.sub_self,
      List.head?_eq_getElem?]
  cases todo with
  | nil =>
    have hall : done = x.requested := by rw [hunder.requested, List.append_nil]
    rw [ClientEnd.sendNext_of_none hnext]
    exact .idle (hall ▸ hunder) (hall ▸ hdone) hin hout hh
  | cons f todo =>
    have hf : Has files f .uploading := hunder.waiting f List.mem_cons_self
    obtain ⟨v, hv, -⟩ := id hf
    obtain ⟨content, hc, -⟩ := (hfiles f v hv).content
    have hne : fileBlocks content ≠ [] := by
      obtain ⟨init, last, heq, -⟩ := fileBlocks_eq_append content
      rw [heq]
      simp
    have hsent := ClientEnd.sendNext_of_some hnext hc
    have hunder' : Underway c sid files x (e.sendNext fs) (done ++ [f]) todo := by
      rw [hsent]
      exact
        { hunder with
          upload := by simp [hunder.upload]
          requested := by simp [hunder.requested]
          waiting := fun k hk => hunder.waiting k (List.mem_cons_of_mem f hk)
          unopened := fun k hk => hunder.unopened k (List.mem_cons_of_mem f hk) }
    have hpass : Passing c fs sid disk x (e.sendNext fs) f [] (fileBlocks content) := by
      rw [hsent]
      refine ⟨Or.inl hh, ⟨fileMessages sid f content, ?_, ?_⟩, ⟨content, hc, rfl⟩, nofun, hne,
        hwritable f (hfiles f v hv).transferable, fun fls => ?_⟩
      · simp only [hout, hunder.upload, List.nil_append]
      · rw [hh, inHand_receiving, List.nil_append, fileMessages_eq]
        rfl
      · exact receiving_nil sid (hunder.unopened f List.mem_cons_self)
    exact .sending hunder' hdone hf hin hpass

/-- A client that leaves has left, whatever its session has yet to do. -/
theorem Stage.of_leave {unread : List ServerMessage} {phase : ClientPhase}
    (hphase : phase = .fallenBack ∨ ∃ r, phase = .answered r)
    (hall : ∀ k ∈ x.requiredFilesState, Has files k .available) (hout : e.toServer = [])
    (hfree : Free x.handling = true) :
    Stage sha1 c fs sid files disk x (e.leave phase) unread :=
  .left hphase hall (Or.inr (by rw [ClientEnd.leave, hout]; rfl)) hfree

/-- **An object chunk**, at a session whose files are all there: a client in its loop stays at its
stage, or has its answer; one that is not in it yet takes the chunk for a refusal. -/
theorem Stage.read_chunk {a : ObjFileChunk}
    (hs : Stage sha1 c fs sid files disk x e (.objFileChunk a :: rest))
    (hns : x.starting.unconfirmed = true → x.handling = .notStarted)
    (hall : ∀ k ∈ x.requiredFilesState, Has files k .available)
    (hasked : ∀ k ∈ x.requested, k ∈ x.requiredFilesState) (hid : a.sessionId = sid)
    (h : e.receive fs (.objFileChunk a) = some e') :
    Reads fs sid e (.objFileChunk a) e' ∧ Stage sha1 c fs sid files disk x e' rest := by
  have hnone : ∀ {f}, f ∈ x.requested → ¬ Has files f .uploading := fun hf hup =>
    FileStatus.noConfusion (hup.unique (hall _ (hasked _ hf)))
  have hloop : ∀ {done todo}, Underway c sid files x e done todo → e.toServer = [] →
      Free x.handling = true →
      (∀ cs : List ObjFileChunk,
        Stage sha1 c fs sid files disk x { next e with chunks := cs } rest) →
      Reads fs sid e (.objFileChunk a) e' ∧ Stage sha1 c fs sid files disk x e' rest := by
    intro done todo hunder hout hfree hstay
    have hreads : Reads fs sid e (.objFileChunk a) e' :=
      reads_objFileChunk hunder.phase (by rw [hid, hunder.upload]) h
    refine ⟨hreads, ?_⟩
    cases hreads with
    | overtaken hphase => exact ClientPhase.noConfusion (hphase.symm.trans hunder.phase)
    | chunk hphase hlast => exact hstay _
    | last hphase hlast => exact .of_leave (Or.inr ⟨_, rfl⟩) hall hout hfree
  have hopening : e.phase = .connecting → e.toServer = [] → Free x.handling = true →
      Reads fs sid e (.objFileChunk a) e' ∧ Stage sha1 c fs sid files disk x e' rest := by
    intro hphase hout hfree
    have hreads : Reads fs sid e (.objFileChunk a) e' := reads_overtaken hphase h
    refine ⟨hreads, ?_⟩
    cases hreads with
    | overtaken _ => exact .of_leave (Or.inl rfl) hall hout hfree
    | chunk hphase' _ => exact ClientPhase.noConfusion (hphase.symm.trans hphase')
    | last hphase' _ => exact ClientPhase.noConfusion (hphase.symm.trans hphase')
  cases hs with
  | opening hphase hout hopen hin hup => exact hopening hphase hout (by rw [hns hopen]; rfl)
  | confirmed hphase hout hopen hh hin hup htr => exact hopening hphase hout (by rw [hh]; rfl)
  | sending hunder hdone hf => exact absurd hf (hnone hunder.mem)
  | judging hunder hdone hf => exact absurd hf (hnone hunder.mem)
  | judged hunder hdone hin hout hh =>
    exact hloop hunder hout (by rcases hh with hh | hh <;> rw [hh] <;> rfl)
      fun cs => .judged { hunder with } hdone hin hout hh
  | acked hunder hdone hin hok hout hh =>
    exact hloop hunder hout (by rw [hh]; rfl) fun cs => .acked { hunder with } hdone hin hok hout hh
  | idle hunder hdone hin hout hh =>
    exact hloop hunder hout (by rw [hh]; rfl) fun cs => .idle { hunder with } hdone hin hout hh
  | left hover => exact absurd ((receive_of_over hover).symm.trans h) nofun

/-- **Any other message** is the confirmation, or an acknowledgement, and sends the next file. -/
theorem Stage.read_control (hs : Stage sha1 c fs sid files disk x e (m :: rest))
    (hm : m.objFileChunk? = none)
    (hfiles : ∀ k v, files k = some v → Describes sha1 c fs k v)
    (hwritable : ∀ k, Transferable c fs k → disk.writable (pathOf c k) = true)
    (h : e.receive fs m = some e') :
    Reads fs sid e m e' ∧ Stage sha1 c fs sid files disk x e' rest := by
  have hcons : control (m :: rest) = m :: control rest := List.filter_cons_of_pos (by rw [hm]; rfl)
  cases hs with
  | confirmed hphase hout hopen hh hin hup htr =>
    obtain ⟨rfl, hrest⟩ := List.cons.inj (hcons.symm.trans hin)
    obtain rfl := reads_confirmation hphase h
    have hunder : Underway c sid files x
        { next e with phase := .handling, upload := ⟨sid, x.requested, 0⟩ } [] x.requested :=
      ⟨rfl, rfl, rfl, hopen, hup, htr⟩
    exact ⟨.confirmation hphase, .sendNext hfiles hwritable hunder nofun hrest hout hh⟩
  | acked hunder hdone hin hok hout hh =>
    obtain ⟨rfl, hrest⟩ := List.cons.inj (hcons.symm.trans hin)
    obtain rfl := reads_acknowledgement hunder.phase (by rw [hunder.upload]; exact hok) h
    exact ⟨.acknowledgement hunder.phase,
      .sendNext hfiles hwritable { hunder with } hdone hrest hout hh⟩
  | opening _ _ _ hin => exact absurd (hcons.symm.trans hin) (List.cons_ne_nil _ _)
  | sending _ _ _ hin => exact absurd (hcons.symm.trans hin) (List.cons_ne_nil _ _)
  | judging _ _ _ hin => exact absurd (hcons.symm.trans hin) (List.cons_ne_nil _ _)
  | judged _ _ hin => exact absurd (hcons.symm.trans hin) (List.cons_ne_nil _ _)
  | idle _ _ hin => exact absurd (hcons.symm.trans hin) (List.cons_ne_nil _ _)
  | left hover => exact absurd ((receive_of_over hover).symm.trans h) nofun

end DistBuild.Offload
