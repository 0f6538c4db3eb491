import DistBuild.Server.Uploaders

/-!
# Server/Waiting — nobody waits for a file that nobody uploads

    INITIAL            every session that requires the file has yet to look at it
    UPLOADING, FAULT   a session was asked for it and its upload is not over, or is being judged
    AVAILABLE

A file in upload is not asked for again, so the sessions that wait for it depend on the one that was
asked.  If that session stays until its uploads are over, and every chunk is accepted (`Reliable`),
the three lines hold in every state, and nobody is stranded (`none_stranded`).
-/

namespace DistBuild

variable (w : Str)

/-- The required files `add_session` has yet to ask for, or to leave to others. -/
def Session.pending (x : Session) : List Str :=
  match x.starting with
  | .preparing => x.requiredFilesState
  | .scanning todo => todo
  | .claiming updated todo => cnvtServerToClientPath w updated.serverFilePath :: todo
  | .sweeping => []
  | .started => []

/-- The handler of the session is in its loop, or will be. -/
def Handling.attending : Handling → Bool
  | .removing | .releasing | .ended => false
  | _ => true

/-- The completed upload whose size is checked next. -/
def Handling.measuredFile : Handling → Option (FileChunk × Str)
  | .measuring msg path => some (msg, path)
  | _ => none

/-- The session was asked for `k` and its upload is not over, or it is judging the upload. -/
def Session.Attends (x : Session) (k : Str) : Prop :=
  x.handling.attending = true ∧ (x.Outstanding w k ∨ x.handling.judging = some k)

instance (x : Session) (k : Str) : Decidable (x.Attends w k) := by
  unfold Session.Attends
  infer_instance

/-- The transfer section will not reject the chunk. -/
def Accepts (sessionUuid : SessionId) (path : Str) (msg : FileChunk) (ts : Transfers) : Prop :=
  (ts path = none → msg.sequenceNo = 1)
    ∧ ∀ t ∈ ts path, t.isFinished = false → t.rejects sessionUuid msg = false

instance (sessionUuid : SessionId) (path : Str) (msg : FileChunk) (ts : Transfers) :
    Decidable (Accepts sessionUuid path msg ts) := by
  unfold Accepts
  infer_instance

namespace ClientView

/-- **No session is stranded**: of the files a session in `associatedSessions` requires, each is
AVAILABLE, or the session itself has yet to look at it, or some session attends to it. -/
def NoneStranded (V : ClientView) : Prop :=
  ∀ t ∈ V.associatedSessions, ∀ x ∈ V.sessions t, ∀ k ∈ x.requiredFilesState,
    ∀ v ∈ V.files k, v.fileStatus ≠ .available →
      k ∈ x.pending w ∨ ∃ t' ∈ V.associatedSessions, ∃ y ∈ V.sessions t', y.Attends w k

instance (V : ClientView) : Decidable (V.NoneStranded w) := by
  unfold NoneStranded
  infer_instance

/-- Declared names come back from the server as they are.  A chunk for a known file carries the id
of its own session and is not rejected.  A completed upload has the declared number of bytes.  A
session ends only when the uploads it was asked for are over. -/
def Reliable : ClientAction → Disk → ClientView → Prop
  | .start _ infos, _, _ => ∀ i ∈ namedFiles infos, SurvivesMapping w i.filename
  | .session sid (.receive msg), _, V =>
    ∀ x ∈ V.sessions sid, ∀ v ∈ V.files msg.filename,
      msg.sessionId = sid ∧ Accepts sid v.serverFilePath msg x.transfers
  | .session sid .measure, disk, V =>
    ∀ x ∈ V.sessions sid, ∀ m ∈ x.handling.measuredFile, ∀ v ∈ V.files m.1.filename,
      ∃ content ∈ disk.files m.2, v.fileSzBytes.toNat = content.length
  | .session sid .disconnect, _, V =>
    ∀ x ∈ V.sessions sid, ∀ k ∈ x.requested, x.Finished (cnvtClientToServerPath w k)
  | .terminate sid, _, V =>
    ∀ x ∈ V.sessions sid, ∀ k ∈ x.requested, x.Finished (cnvtClientToServerPath w k)
  | _, _, _ => True

instance Reliable.decidable : ∀ a d V, Decidable (Reliable w a d V)
  | .start _ infos, _, _ => by
    unfold Reliable
    infer_instance
  | .session sid (.receive msg), _, V => by
    unfold Reliable
    infer_instance
  | .session sid .measure, disk, V => by
    unfold Reliable
    infer_instance
  | .session sid .disconnect, _, V => by
    unfold Reliable
    infer_instance
  | .terminate sid, _, V => by
    unfold Reliable
    infer_instance
  | .session _ .prepare, _, _ | .session _ (.scan _), _, _ | .session _ .claim, _, _
  | .session _ .confirm, _, _ | .session _ .transfer, _, _ | .session _ .hash, _, _
  | .session _ .copy, _, _ | .session _ .write, _, _ | .session _ .notify, _, _
  | .sweepStart _ _, _, _ | .sweepChunk _ _, _, _ | .remove _, _, _ | .release _, _, _ =>
    inferInstanceAs (Decidable True)

/-! ## The invariant -/

/-- What a session is to the others: its chunks are accepted, and its verdicts end AVAILABLE. -/
structure Dependable (files : FileTable) (sid : SessionId) (x : Session) : Prop where
  required : ∀ k ∈ x.requiredFilesState, ∃ v, files k = some v
  fresh : x.starting.unconfirmed = true → ∀ p, x.transfers p = none
  accepted : ∀ msg p, x.handling = .transferring msg p → Accepts sid p msg x.transfers
  last : ∀ st ∈ x.handling.marks.getLast?, st = .available

/-- **The invariant**: one line for each status. -/
structure Served (V : ClientView) : Prop where
  catalogued : Catalogued w V
  dependable : ∀ t x, V.sessions t = some x → Dependable V.files t x
  initial : ∀ k v, V.files k = some v → v.fileStatus = .initial →
    ∀ t x, V.sessions t = some x → k ∈ x.requiredFilesState → k ∈ x.pending w
  attended : ∀ k v, V.files k = some v → v.fileStatus ≠ .initial → v.fileStatus ≠ .available →
    ∃ t ∈ V.associatedSessions, ∃ x ∈ V.sessions t, x.Attends w k

variable {w}

theorem Reliable.names {a : ClientAction} {disk : Disk} {V : ClientView}
    (h : Reliable w a disk V) : NamesSurvive w a := by
  cases a with
  | start sid infos => exact h
  | _ => trivial

/-- An accepted chunk is not rejected. -/
theorem verdict_ne_rejected {sid : SessionId} {p : Str} {msg : FileChunk} {d : Disk}
    {ts : Transfers} (h : Accepts sid p msg ts) :
    (receiveChunk sid p msg d ts).verdict ≠ .rejected := by
  refine receiveChunk_cases (P := fun r => r.verdict ≠ .rejected) (fun _ => nofun) ?_
    (fun _ _ _ _ _ _ _ => nofun) (fun _ _ _ _ _ _ _ => nofun)
  rintro o rfl hf hr
  cases ht : ts p with
  | none =>
    rw [openTransfer_of_none ht, rejects_new, h.1 ht] at hr
    exact absurd hr (by decide)
  | some t =>
    rw [openTransfer_of_some ht] at hf hr
    exact absurd ((h.2 t ht hf).symm.trans hr) nofun

/-- A step that moves no handler and closes no transfer leaves a session attending. -/
theorem attends_mono {x x' : Session} {k : Str} (h : x.Attends w k)
    (hh : x'.handling = x.handling) (ht : x'.transfers = x.transfers)
    (hr : ∀ k ∈ x.requested, k ∈ x'.requested) : x'.Attends w k := by
  refine ⟨hh ▸ h.1, h.2.imp (fun ho => ⟨hr k ho.1, ?_⟩) fun hj => hh ▸ hj⟩
  rintro ⟨t, htr, hf⟩
  exact ho.2 ⟨t, ht ▸ htr, hf⟩

/-- A handler with nothing in hand attends to what is outstanding. -/
theorem attends_of_none {x x' : Session} {k : Str} (h : x.Attends w k)
    (hj : x.handling.judging = none) (ha : x'.handling.attending = true)
    (ht : x'.transfers = x.transfers) (hr : x'.requested = x.requested) : x'.Attends w k := by
  rcases h.2 with ho | hk
  · refine ⟨ha, Or.inl ⟨hr ▸ ho.1, ?_⟩⟩
    rintro ⟨t, htr, hf⟩
    exact ho.2 ⟨t, ht ▸ htr, hf⟩
  · exact absurd (hj.symm.trans hk) nofun

/-- A handler that keeps its file in hand attends as before. -/
theorem attends_of_judging {x x' : Session} {k : Str} (h : x.Attends w k)
    (hj : x'.handling.judging = x.handling.judging) (ha : x'.handling.attending = true)
    (ht : x'.transfers = x.transfers) (hr : x'.requested = x.requested) : x'.Attends w k := by
  refine ⟨ha, h.2.imp (fun ho => ⟨hr ▸ ho.1, ?_⟩) fun hk => hj ▸ hk⟩
  rintro ⟨t, htr, hf⟩
  exact ho.2 ⟨t, ht ▸ htr, hf⟩

/-- A session all of whose uploads are over, with nothing in hand, attends to nothing. -/
theorem not_attends_of_finished {x : Session} {k : Str}
    (hfin : ∀ k ∈ x.requested, x.Finished (cnvtClientToServerPath w k))
    (hj : x.handling.judging = none) : ¬ x.Attends w k := by
  rintro ⟨-, ho | hk⟩
  · exact ho.2 (hfin k ho.1)
  · exact absurd (hj.symm.trans hk) nofun

variable {sha1 : Str → Str}

/-- The transfer section leaves a session attending: the upload of the file itself is not over, or
it is judged next, and the upload of another file is no matter. -/
theorem Served.attends_transferred {V : ClientView} {sid : SessionId} {x : Session} {disk : Disk}
    {msg : FileChunk} {p : Str} (hV : Served w V) (hx : V.sessions sid = some x)
    (h : x.handling = .transferring msg p) {k : Str} (hk : x.Attends w k) :
    (x.transferred msg p (receiveChunk sid p msg disk x.transfers)).Attends w k := by
  have hkeyed := hV.catalogued.keyed sid x hx
  have hj : x.handling.judging = none := by rw [h]; rfl
  have hacc := verdict_ne_rejected (d := disk) ((hV.dependable sid x hx).accepted msg p h)
  obtain ⟨rfl, vf, hvf⟩ := hkeyed.transferring msg p h
  obtain ⟨t, ht, hfin⟩ :=
    receiveChunk_transfer sid (cnvtClientToServerPath w msg.filename) msg disk x.transfers
  have ho : x.Outstanding w k :=
    hk.2.resolve_right fun hj' => absurd (hj'.symm.trans hj) (Option.some_ne_none _)
  by_cases hname : k = msg.filename
  · subst hname
    cases hv : (receiveChunk sid (cnvtClientToServerPath w msg.filename) msg disk
        x.transfers).verdict with
    | finished => exact absurd (finished_of_verdict hv) ho.2
    | rejected => exact absurd hv hacc
    | stored =>
      refine ⟨by simp only [Session.transferred, hv]; rfl, Or.inl ⟨ho.1, ?_⟩⟩
      rintro ⟨t', ht', hf⟩
      obtain rfl : t = t' := Option.some.inj (ht.symm.trans ht')
      exact absurd ((hfin.mpr hv).symm.trans hf) Bool.false_ne_true
    | complete =>
      exact ⟨by simp only [Session.transferred, hv]; rfl,
        Or.inr (by simp only [Session.transferred, hv]; rfl)⟩
  · obtain ⟨v, hv, -⟩ := hkeyed.asked k ho.1
    have hpath : cnvtClientToServerPath w k ≠ cnvtClientToServerPath w msg.filename := fun he =>
      hname ((hV.catalogued.filed k v hv).1.injective (hV.catalogued.filed _ vf hvf).1 he)
    refine ⟨?_, Or.inl ⟨ho.1, ?_⟩⟩
    · simp only [Session.transferred]
      split <;> rfl
    · rintro ⟨t', ht', hf⟩
      exact ho.2 ⟨t', (receiveChunk_transfers_of_ne sid msg disk x.transfers hpath).symm.trans ht',
        hf⟩

/-- **A session attends to a file until it is AVAILABLE.** -/
theorem Served.attends_session {V : ClientView} {sid : SessionId} {a : SessionAction} {x : Session}
    {disk : Disk} {e : Effect} (hg : Reliable w (.session sid a) disk V) (hV : Served w V)
    (hx : V.sessions sid = some x) (h : SessionStep sha1 w sid V.files disk x a e) {k : Str}
    (hk : x.Attends w k) :
    e.session.Attends w k ∨ ∀ v, e.files k = some v → v.fileStatus = .available := by
  have hsub : ∀ k ∈ x.requested, k ∈ e.session.requested := fun k => h.requested_subset
  cases h with
  | prepare h => exact Or.inl (attends_mono hk rfl rfl hsub)
  | scan h hv =>
    unfold Session.scan at hsub ⊢
    split
    all_goals
      rename_i hst
      rw [hst] at hsub
      exact Or.inl (attends_mono hk rfl rfl hsub)
  | claim h => exact Or.inl (attends_mono hk rfl rfl hsub)
  | confirm h =>
    have hns := (hV.catalogued.registered sid x hx).unconfirmed (by rw [h]; rfl)
    exact Or.inl (attends_of_none hk (by rw [hns]; rfl) rfl rfl rfl)
  | receive h =>
    have hj : x.handling.judging = none := by rw [h]; rfl
    refine Or.inl ?_
    unfold Session.receive
    split
    · exact attends_of_none hk hj rfl rfl rfl
    · split <;> exact attends_of_none hk hj rfl rfl rfl
  | transfer h => exact Or.inl (hV.attends_transferred hx h hk)
  | @measure msg p v h hv =>
    obtain ⟨content, hc, hsz⟩ := hg x hx (msg, p) (by rw [h]; rfl) v hv
    refine Or.inl ?_
    have hc' : disk.files p = some content := hc
    simp only [Session.measured, hc', hsz, ne_eq, not_true_eq_false, if_false]
    exact attends_of_judging hk (by rw [h]; rfl) rfl rfl rfl
  | hash h hv =>
    refine Or.inl ?_
    unfold Session.hashed
    split <;> exact attends_of_judging hk (by rw [h]; rfl) rfl rfl rfl
  | copy h hv => exact Or.inl (attends_of_judging hk (by rw [h]; rfl) rfl rfl rfl)
  | @write msg u marks ok h =>
    have hlast := (hV.dependable sid x hx).last
    rw [h] at hlast
    cases marks with
    | cons st marks =>
      exact Or.inl (attends_of_judging hk (by rw [h]; rfl) rfl rfl rfl)
    | nil =>
      have hav : u.fileStatus = .available := hlast _ rfl
      rcases hk.2 with ho | hj
      · refine Or.inl ⟨?_, Or.inl ⟨?_, ?_⟩⟩
        · cases ok <;> rfl
        · cases ok <;> exact ho.1
        · rintro ⟨t, ht, hf⟩
          refine ho.2 ⟨t, ?_, hf⟩
          cases ok <;> exact ht
      · refine Or.inr fun v hv => ?_
        rw [h] at hj
        obtain rfl : msg.filename = k := Option.some.inj hj
        rw [eq_of_updateFileState_self hv]
        exact hav
  | notify h => exact Or.inl (attends_of_none hk (by rw [h]; rfl) rfl rfl rfl)
  | disconnect h =>
    exact absurd hk (not_attends_of_finished (hg x hx) (by rw [h]; rfl))

/-- A required file that is INITIAL is not skipped. -/
theorem Served.pending_session {V : ClientView} {sid : SessionId} {a : SessionAction} {x : Session}
    {disk : Disk} {e : Effect} (hV : Served w V) (hx : V.sessions sid = some x)
    (h : SessionStep sha1 w sid V.files disk x a e) {k : Str} {v v' : FileStateView}
    (hv : V.files k = some v) (hst : v.fileStatus = .initial) (hv' : e.files k = some v')
    (hst' : v'.fileStatus = .initial) (hk : k ∈ x.pending w) : k ∈ e.session.pending w := by
  rcases h.threads with - | ⟨-, hs, -⟩ | ⟨-, hs, -⟩
  · cases h with
    | prepare h =>
      rw [Session.pending, h] at hk
      exact hk
    | @scan now k₀ todo v₀ h hv₀ =>
      obtain ⟨hk₀, hp⟩ := hV.catalogued.filed k₀ v₀ hv₀
      rw [Session.pending, h] at hk
      unfold Session.scan
      split
      · rw [Session.pending]
        simp only
        rwa [cnvt_of_survives hk₀ hp]
      all_goals
        rename_i hst₀
        rcases List.mem_cons.mp hk with rfl | hk
        · obtain rfl := Option.some.inj (hv.symm.trans hv₀)
          exact absurd (hst.symm.trans hst₀) nofun
        · exact hk
    | @claim u todo h =>
      rw [Session.pending, h] at hk
      rcases List.mem_cons.mp hk with rfl | hk
      · obtain ⟨hup, -⟩ := (hV.catalogued.keyed sid x hx).claimed u (by rw [h]; rfl)
        rw [eq_of_updateFileState_self hv'] at hst'
        exact absurd (hup.symm.trans hst') nofun
      · exact hk
    | confirm h =>
      rw [Session.pending, h] at hk
      exact absurd hk List.not_mem_nil
    | receive h =>
      unfold Session.receive
      split
      · exact hk
      · split <;> exact hk
    | transfer h => exact hk
    | measure h hv =>
      unfold Session.measured
      split
      · exact hk
      · split <;> exact hk
    | hash h hv =>
      unfold Session.hashed
      split <;> exact hk
    | copy h hv => exact hk
    | write h =>
      unfold Session.marked
      split <;> exact hk
    | notify h => exact hk
    | disconnect h => exact hk
  · rw [Session.pending, hs] at hk
    exact absurd hk List.not_mem_nil
  · rw [Session.pending, hs, h.frame.2.1]
    exact hk

/-- A chunk that is received is one that the transfer accepts. -/
theorem Served.accepted_session {V : ClientView} {sid : SessionId} {a : SessionAction}
    {x : Session} {disk : Disk} {e : Effect} (hg : Reliable w (.session sid a) disk V)
    (hV : Served w V) (hx : V.sessions sid = some x)
    (h : SessionStep sha1 w sid V.files disk x a e) :
    ∀ msg p, e.session.handling = .transferring msg p → Accepts sid p msg e.session.transfers := by
  have hdep := hV.dependable sid x hx
  cases h with
  | prepare h => exact hdep.accepted
  | scan h hv =>
    unfold Session.scan
    split <;> exact hdep.accepted
  | claim h => exact hdep.accepted
  | confirm h => exact nofun
  | @receive msg h =>
    unfold Session.receive
    split
    · exact nofun
    · rename_i v hv
      split
      · exact nofun
      · intro m p hm
        cases hm
        exact (hg x hx v hv).2
  | transfer h =>
    unfold Session.transferred
    split <;> exact nofun
  | measure h hv =>
    unfold Session.measured
    split
    · exact nofun
    · split <;> exact nofun
  | hash h hv =>
    unfold Session.hashed
    split <;> exact nofun
  | copy h hv => exact nofun
  | write h =>
    unfold Session.marked
    split <;> exact nofun
  | notify h => exact nofun
  | disconnect h => exact nofun

/-- The last status that a session is about to set is AVAILABLE. -/
theorem Served.last_session {V : ClientView} {sid : SessionId} {a : SessionAction}
    {x : Session} {disk : Disk} {e : Effect} (hg : Reliable w (.session sid a) disk V)
    (hV : Served w V) (hx : V.sessions sid = some x)
    (h : SessionStep sha1 w sid V.files disk x a e) :
    ∀ st ∈ e.session.handling.marks.getLast?, st = .available := by
  have hdep := hV.dependable sid x hx
  cases h with
  | prepare h => exact hdep.last
  | scan h hv =>
    unfold Session.scan
    split <;> exact hdep.last
  | claim h => exact hdep.last
  | confirm h => exact nofun
  | @receive msg h =>
    unfold Session.receive
    split
    · exact nofun
    · rename_i v hv
      rw [if_neg (by simpa using (hg x hx v hv).1)]
      exact nofun
  | @transfer msg p h =>
    have hacc := verdict_ne_rejected (d := disk) (hdep.accepted msg p h)
    unfold Session.transferred
    split
    · exact nofun
    · exact nofun
    · exact absurd ‹_› hacc
    · exact nofun
  | @measure msg p v h hv =>
    obtain ⟨content, hc, hsz⟩ := hg x hx (msg, p) (by rw [h]; rfl) v hv
    have hc' : disk.files p = some content := hc
    simp only [Session.measured, hc', hsz, ne_eq, not_true_eq_false, if_false]
    exact nofun
  | hash h hv =>
    unfold Session.hashed
    split
    · rintro st ⟨⟩
      rfl
    · rintro st ⟨⟩
      rfl
  | copy h hv =>
    have hlast := hdep.last
    rw [h] at hlast
    exact hlast
  | @write msg u marks ok h =>
    have hlast := hdep.last
    rw [h] at hlast
    unfold Session.marked
    split
    · exact fun st hst => hlast st ((List.getLast?_cons_cons ..).trans hst)
    · exact nofun
    · exact nofun
  | notify h => exact nofun
  | disconnect h => exact nofun

/-- Every step of a session leaves it dependable. -/
theorem Served.dependable_session {V : ClientView} {sid : SessionId} {a : SessionAction}
    {x : Session} {disk : Disk} {e : Effect} (hg : Reliable w (.session sid a) disk V)
    (hV : Served w V) (hx : V.sessions sid = some x)
    (h : SessionStep sha1 w sid V.files disk x a e) : Dependable e.files sid e.session := by
  have hdep := hV.dependable sid x hx
  have hgrows := (hV.catalogued.files_session hx h).2
  have hreq : ∀ k ∈ e.session.requiredFilesState, ∃ v, e.files k = some v := by
    intro k hk
    rw [h.frame.2.1] at hk
    obtain ⟨v, hv⟩ := hdep.required k hk
    exact hgrows.isSome k v hv
  have hfresh : e.session.starting.unconfirmed = true → ∀ p, e.session.transfers p = none := by
    intro hu
    rcases h.threads with ⟨hu', -, -, ht, -⟩ | ⟨-, -, -, -, he⟩ | ⟨hs, hst, -⟩
    · exact ht ▸ hdep.fresh hu'
    · rw [he] at hu
      cases hu
    · have hns := (hV.catalogued.registered sid x hx).unconfirmed (hst ▸ hu)
      exact absurd hns (ne_of_serving hs).1
  exact ⟨hreq, hfresh, hV.accepted_session hg hx h, hV.last_session hg hx h⟩

/-- A file that a step of a session leaves unavailable was as it is, or the session attends to
it. -/
theorem Served.status_session {V : ClientView} {sid : SessionId} {a : SessionAction} {x : Session}
    {disk : Disk} {e : Effect} (hV : Served w V) (hx : V.sessions sid = some x)
    (h : SessionStep sha1 w sid V.files disk x a e) {k : Str} {v' : FileStateView}
    (hv' : e.files k = some v') (ha : v'.fileStatus ≠ .available) :
    V.files k = some v' ∨ (sid ∈ V.associatedSessions ∧ e.session.Attends w k) := by
  have hdep := hV.dependable sid x hx
  have hreg := hV.catalogued.registered sid x hx
  rcases h.files_cases with hf | ⟨u, todo, rfl, hst, hf⟩ | ⟨msg, u, marks, ok, rfl, hh, hf⟩
  · exact Or.inl (hf ▸ hv')
  · by_cases hk : k = cnvtServerToClientPath w u.serverFilePath
    · subst hk
      have hu : x.starting.unconfirmed = true := by rw [hst]; rfl
      have hns := hreg.unconfirmed hu
      refine Or.inr ⟨hreg.associated (hreg.notStarted hns), ?_⟩
      cases h with
      | claim h =>
        rw [hst] at h
        cases h
        refine ⟨?_, Or.inl ⟨List.mem_append_right _ (List.mem_singleton_self _), ?_⟩⟩
        · show x.handling.attending = true
          rw [hns]
          rfl
        · rintro ⟨t, ht, -⟩
          exact absurd ((hdep.fresh hu _).symm.trans ht) nofun
    · exact Or.inl (by rwa [hf, updateFileState_of_ne _ _ hk] at hv')
  · by_cases hk : k = msg.filename
    · subst hk
      rw [hf] at hv'
      obtain rfl := eq_of_updateFileState_self hv'
      have hlast := hdep.last
      rw [hh] at hlast
      refine Or.inr ⟨hreg.associated (hreg.serving (by rw [hh]; rfl)), ?_⟩
      cases h with
      | write h =>
        rw [hh] at h
        cases h
        cases marks with
        | nil => exact absurd (hlast _ rfl) ha
        | cons st marks => exact ⟨rfl, Or.inr rfl⟩
    · exact Or.inl (by rwa [hf, updateFileState_of_ne _ _ hk] at hv')

theorem Dependable.of_grows {files files' : FileTable} {sid : SessionId} {x : Session}
    (h : Dependable files sid x) (hg : Grows files files') : Dependable files' sid x :=
  { h with
    required := fun k hk => by
      obtain ⟨v, hv⟩ := h.required k hk
      exact hg.isSome k v hv }

/-- **The invariant after a step of the session `sid`**, from what the step leaves of the
session. -/
theorem Served.update {V V' : ClientView} {sid : SessionId} {x x' : Session} (hV : Served w V)
    (hx : V.sessions sid = some x) (hcat : Catalogued w V')
    (hs : V'.sessions = Function.update V.sessions sid (some x'))
    (hL : ∀ t ∈ V.associatedSessions, t ≠ sid → t ∈ V'.associatedSessions)
    (hold : ∀ k v', V'.files k = some v' → ∃ v, V.files k = some v) (hg : Grows V.files V'.files)
    (hdep : Dependable V'.files sid x') (hreq : x'.requiredFilesState = x.requiredFilesState)
    (hpend : ∀ k v v', V.files k = some v → v.fileStatus = .initial → V'.files k = some v' →
      v'.fileStatus = .initial → k ∈ x.pending w → k ∈ x'.pending w)
    (hatt : ∀ k, sid ∈ V.associatedSessions → x.Attends w k →
      (sid ∈ V'.associatedSessions ∧ x'.Attends w k)
      ∨ ∀ v', V'.files k = some v' → v'.fileStatus = .available)
    (hstat : ∀ k v', V'.files k = some v' → v'.fileStatus ≠ .initial → v'.fileStatus ≠ .available →
      V.files k = some v' ∨ (sid ∈ V'.associatedSessions ∧ x'.Attends w k)) : Served w V' := by
  have hsid : V'.sessions sid = some x' := hs ▸ Function.update_self ..
  refine ⟨hcat, ?_, fun k v' hv' hi => ?_, fun k v' hv' hi ha => ?_⟩
  · rw [hs]
    exact forall_update (fun t y hy => (hV.dependable t y hy).of_grows hg) hdep
  · obtain ⟨v, hv⟩ := hold k v' hv'
    have hst : v.fileStatus = .initial := by
      by_contra hne
      obtain ⟨v'', hv'', hst''⟩ := hg.begun k ⟨v, hv, hne⟩
      exact hst'' (Option.some.inj (hv'.symm.trans hv'') ▸ hi)
    rw [hs]
    refine forall_update (P := fun _ (y : Session) => k ∈ y.requiredFilesState → k ∈ y.pending w)
      (fun t y hy => hV.initial k v hv hst t y hy) fun hk => ?_
    exact hpend k v v' hv hst hv' hi (hV.initial k v hv hst sid x hx (hreq ▸ hk))
  · rcases hstat k v' hv' hi ha with hv | ⟨hmem, hk⟩
    · obtain ⟨t, ht, y, hy, hk⟩ := hV.attended k v' hv hi ha
      by_cases hts : t = sid
      · subst hts
        obtain rfl : x = y := Option.some.inj (hx.symm.trans hy)
        rcases hatt k ht hk with ⟨hmem, hk'⟩ | hav
        · exact ⟨t, hmem, x', hsid, hk'⟩
        · exact absurd (hav v' hv') ha
      · refine ⟨t, hL t ht hts, y, ?_, hk⟩
        rw [hs]
        exact (Function.update_of_ne hts ..).trans hy
    · exact ⟨sid, hmem, x', hsid, hk⟩

/-- A step that changes no file, after which the session attends to what it attended to. -/
theorem Served.move {V V' : ClientView} {sid : SessionId} {x x' : Session} (hV : Served w V)
    (hx : V.sessions sid = some x) (hcat : Catalogued w V')
    (hs : V'.sessions = Function.update V.sessions sid (some x'))
    (hL : ∀ t ∈ V.associatedSessions, t ≠ sid → t ∈ V'.associatedSessions)
    (hf : V'.files = V.files) (hdep : Dependable V.files sid x')
    (hreq : x'.requiredFilesState = x.requiredFilesState)
    (hpend : ∀ k ∈ x.pending w, k ∈ x'.pending w)
    (hatt : ∀ k, sid ∈ V.associatedSessions → x.Attends w k →
      sid ∈ V'.associatedSessions ∧ x'.Attends w k) : Served w V' := by
  refine hV.update hx hcat hs hL ?_ (hf ▸ .refl _) (hf ▸ hdep) hreq
    (fun k _ _ _ _ _ _ => hpend k) (fun k hm hk => Or.inl (hatt k hm hk))
    fun k v' hv' _ _ => Or.inl (hf ▸ hv')
  exact fun k v' hv' => ⟨v', hf ▸ hv'⟩

/-- **Every step of a reliable client leaves it served.** -/
theorem Served.step {disk : Disk} {V : ClientView} {a : ClientAction} {e : ViewEffect}
    (hg : Reliable w a disk V) (h : Step sha1 w disk V a e) (hV : Served w V) :
    Served w e.view := by
  have hcat := hV.catalogued.step hg.names h
  cases h with
  | @start sid infos h =>
    have hnew : ∀ k ∈ (Session.new infos).requiredFilesState,
        ∃ v, addFileStates w V.files (namedFiles infos) k = some v := by
      intro k hk
      obtain ⟨i, hi, rfl⟩ := List.mem_map.mp hk
      exact addFileStates_isSome hi
    refine ⟨hcat, ?_, fun k v hv hi => ?_, fun k v hv hi ha => ?_⟩
    · exact forall_update (fun t y hy => (hV.dependable t y hy).of_grows (.addFileStates _ _))
        ⟨hnew, fun _ _ => rfl, nofun, nofun⟩
    · refine forall_update (P := fun _ (y : Session) => k ∈ y.requiredFilesState → k ∈ y.pending w)
        (fun t y hy hk => ?_) fun hk => hk
      obtain ⟨v₀, hv₀⟩ := (hV.dependable t y hy).required k hk
      obtain rfl := Option.some.inj ((addFileStates_of_some _ hv₀).symm.trans hv)
      exact hV.initial k _ hv₀ hi t y hy hk
    · cases hk : V.files k with
      | none =>
        obtain ⟨i, -, -, rfl⟩ := addFileStates_of_none hk hv
        exact absurd rfl hi
      | some v₀ =>
        obtain rfl := Option.some.inj ((addFileStates_of_some _ hk).symm.trans hv)
        obtain ⟨t, ht, y, hy, hatt⟩ := hV.attended k _ hk hi ha
        refine ⟨t, List.mem_cons_of_mem _ ht, y, ?_, hatt⟩
        refine (V.addSession_of_ne w infos ?_).trans hy
        rintro rfl
        exact absurd (h.symm.trans hy) nofun
  | @session sid a x e hx h =>
    exact hV.update hx hcat rfl (fun t ht _ => ht) (fun _ _ => h.known)
      (hV.catalogued.files_session hx h).2 (hV.dependable_session hg hx h) h.frame.2.1
      (fun k v v' hv hi hv' hi' hk => hV.pending_session hx h hv hi hv' hi' hk)
      (fun k hm hk => (hV.attends_session hg hx h hk).imp_left fun hk' => ⟨hm, hk'⟩)
      fun k v' hv' _ ha => hV.status_session hx h hv' ha
  | @sweepStart sid order x b new hx h hnew =>
    have hdep := hV.dependable sid x hx
    refine hV.move hx hcat rfl (fun t ht _ => ht) rfl ?_ rfl (fun k hk => ?_)
      fun k hm hk => ⟨hm, attends_mono hk rfl rfl fun _ h0 => h0⟩
    · exact ⟨hdep.required, nofun, hdep.accepted, hdep.last⟩
    · rw [Session.pending, h] at hk
      exact hk
  | @sweepChunk sid order x msg b new hx h hnew =>
    have hdep := hV.dependable sid x hx
    exact hV.move hx hcat rfl (fun t ht _ => ht) rfl ⟨hdep.required, hdep.fresh, nofun, nofun⟩ rfl
      (fun k hk => hk) fun k hm hk => ⟨hm, attends_of_none hk (by rw [h]; rfl) rfl rfl rfl⟩
  | @terminate sid x hx h =>
    have hdep := hV.dependable sid x hx
    exact hV.move hx hcat rfl (fun t ht _ => ht) rfl ⟨hdep.required, hdep.fresh, nofun, nofun⟩ rfl
      (fun k hk => hk) fun k _ hk => absurd hk (not_attends_of_finished (hg x hx) (by rw [h]; rfl))
  | @remove sid x hx h =>
    have hdep := hV.dependable sid x hx
    refine hV.move hx hcat rfl (fun t ht hts => (List.mem_erase_of_ne hts).mpr ht) rfl
      ⟨hdep.required, hdep.fresh, nofun, nofun⟩ rfl (fun k hk => hk) fun k _ hk => ?_
    exact absurd hk.1 (by rw [h]; nofun)
  | @release sid x hx h =>
    have hdep := hV.dependable sid x hx
    refine hV.move hx hcat rfl (fun t ht _ => ht) rfl
      ⟨hdep.required, hdep.fresh, nofun, nofun⟩ rfl (fun k hk => hk) fun k _ hk => ?_
    exact absurd hk.1 (by rw [h]; nofun)

theorem served_empty : Served w .empty where
  catalogued := catalogued_empty
  dependable := forall_sessions_empty
  initial _ _ h := nomatch h
  attended _ _ h := nomatch h

/-- **Nobody is stranded in a client that is served.** -/
theorem Served.noneStranded {V : ClientView} (hV : Served w V) : V.NoneStranded w := by
  intro t _ x hx k hk v hv ha
  by_cases hi : v.fileStatus = .initial
  · exact Or.inl (hV.initial k v hv hi t x hx hk)
  · exact Or.inr (hV.attended k v hv hi ha)

end ClientView

/-- **No session waits for a file that nobody uploads**, in every run in which declared names
survive the path mapping, every chunk of a known file is accepted, every completed upload has the
declared size, and no session leaves before the uploads it was asked for are over. -/
theorem none_stranded {sha1 : Str → Str} {c : ClientId} {n : ℕ} {disk : Disk} {as : List Action}
    {t : System}
    (hm : Meets (System.step sha1) (System.onClient c (ClientView.Reliable (workspaceOf c))) as
      (System.initial n disk))
    (hr : runFrom (System.step sha1) as (System.initial n disk) = some t) :
    (t.views c).NoneStranded (workspaceOf c) :=
  (System.view_invariant (P := ClientView.Served (workspaceOf c)) ClientView.served_empty
    (fun _ _ _ _ hg h hV => hV.step hg h) hm hr).noneStranded

/-! ### The uploader stays, and the uploader leaves -/

/-- The session `sid` waits for the file `k`, which it has looked at. -/
def ClientView.Waits (V : ClientView) (w : Str) (sid : SessionId) (k : Str) : Prop :=
  sid ∈ V.associatedSessions ∧ ∃ x ∈ V.sessions sid, k ∈ x.requiredFilesState ∧ k ∉ x.pending w
    ∧ ∃ v ∈ V.files k, v.fileStatus ≠ .available

instance (V : ClientView) (w : Str) (sid : SessionId) (k : Str) : Decidable (V.Waits w sid k) := by
  unfold ClientView.Waits
  infer_instance

/-- While the first session uploads, the second one waits for a file that is attended to. -/
theorem oneAfterTheOther_attended :
    ∃ t, runFrom (System.step sampleSha1) oneAfterTheOther (System.initial 1 .empty) = some t
      ∧ (t.views (str "c")).Waits (workspaceOf (str "c")) (str "t") (str "/a.c")
      ∧ (t.views (str "c")).NoneStranded (workspaceOf (str "c")) := by
  have hrun : ((runFrom (System.step sampleSha1) oneAfterTheOther (System.initial 1 .empty)).map
      fun t => decide ((t.views (str "c")).Waits (workspaceOf (str "c")) (str "t") (str "/a.c")))
      = some true := by
    decide +kernel
  obtain ⟨t, hr, hwaits⟩ := Option.map_eq_some_iff.mp hrun
  exact ⟨t, hr, of_decide_eq_true hwaits, none_stranded (c := str "c") (by decide +kernel) hr⟩

/-- The first session's connection breaks off before it uploads anything. -/
def uploaderLeaves : List Action :=
  oneAfterTheOther ++ onSession (str "c") (str "s") [.disconnect]

/-- The second one waits for ever. -/
theorem uploaderLeaves_strands :
    ¬ ∀ as t, runFrom (System.step sampleSha1) as (System.initial 1 .empty) = some t →
      ∀ c, (t.views c).NoneStranded (workspaceOf c) := by
  intro h
  have hrun : ((runFrom (System.step sampleSha1) uploaderLeaves (System.initial 1 .empty)).map
      fun t => decide ((t.views (str "c")).NoneStranded (workspaceOf (str "c")))) = some false := by
    decide +kernel
  obtain ⟨t, hr, hbad⟩ := Option.map_eq_some_iff.mp hrun
  exact of_decide_eq_false hbad (h _ t hr (str "c"))

end DistBuild
