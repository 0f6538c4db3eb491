import DistBuild.Server.Places

/-!
# Server/Uploaders — at most one session uploads a file

    INITIAL ──claim──▸ UPLOADING ──▸ AVAILABLE        a session that finds INITIAL asks for the file
        └──────────────── FAULT ◂──┘                  a session that finds FAULT asks, unclaimed

Two sessions may both find INITIAL before either writes its claim back, and any number of them may
find FAULT.  Where neither happens (`AsksOnce`) an entry in its initial status is one nobody was
asked for, and so at most one live session has an upload request for a file (`single_uploader`),
provided that no two entries are of one file (`Separate`).
-/

namespace DistBuild

/-- The next required file `add_session` looks at. -/
def Starting.next : Starting → Option Str
  | .scanning (k :: _) => some k
  | _ => none

variable (w : Str)

/-- The session was asked for `k`, and its upload is not over. -/
def Session.Outstanding (x : Session) (k : Str) : Prop :=
  k ∈ x.requested ∧ ¬ x.Finished (cnvtClientToServerPath w k)

instance (x : Session) (k : Str) : Decidable (x.Outstanding w k) := by
  unfold Session.Outstanding
  infer_instance

namespace ClientView

/-- The session `t` is live, and stands in the relation `B` to the file `k`. -/
def Holds (B : Session → Str → Prop) (V : ClientView) (t : SessionId) (k : Str) : Prop :=
  V.Live t ∧ ∃ x ∈ V.sessions t, B x k

instance (B : Session → Str → Prop) [∀ x k, Decidable (B x k)] (V : ClientView) (t : SessionId)
    (k : Str) : Decidable (V.Holds B t k) := by
  unfold Holds
  infer_instance

/-- The live session `t` has an upload request for `k`. -/
abbrev Asks (V : ClientView) (t : SessionId) (k : Str) : Prop := V.Holds (Session.Outstanding w) t k

/-- Declared names come back from the server as they are.  A claim finds the entry still INITIAL.  A
file found in FAULT has no other live session asked for it.  A chunk for a known file, sent for its
own session, is for a file that session was asked for. -/
def AsksOnce : ClientAction → ClientView → Prop
  | .start _ infos, _ => ∀ i ∈ namedFiles infos, SurvivesMapping w i.filename
  | .session sid .claim, V =>
    ∀ x ∈ V.sessions sid, ∀ u ∈ x.starting.claimed,
      ∀ v ∈ V.files (cnvtServerToClientPath w u.serverFilePath), v.fileStatus = .initial
  | .session sid (.scan _), V =>
    ∀ x ∈ V.sessions sid, ∀ k ∈ x.starting.next, ∀ v ∈ V.files k, v.fileStatus = .fault →
      ∀ t ∈ V.started, t ≠ sid → ¬ V.Asks w t k
  | .session sid (.receive msg), V =>
    ∀ x ∈ V.sessions sid, msg.sessionId = sid → (V.files msg.filename).isSome →
      msg.filename ∈ x.requested
  | _, _ => True

instance AsksOnce.decidable : ∀ a V, Decidable (AsksOnce w a V)
  | .start _ infos, V => by
    unfold AsksOnce
    infer_instance
  | .session sid .claim, V => by
    unfold AsksOnce
    infer_instance
  | .session sid (.scan _), V => by
    unfold AsksOnce
    infer_instance
  | .session sid (.receive msg), V => by
    unfold AsksOnce
    infer_instance
  | .session _ .prepare, _ | .session _ .confirm, _ | .session _ .transfer, _
  | .session _ .measure, _ | .session _ .hash, _ | .session _ .copy, _ | .session _ .write, _
  | .session _ .notify, _ | .session _ .disconnect, _ | .sweepStart _ _, _ | .sweepChunk _ _, _
  | .terminate _, _ | .remove _, _ | .release _, _ => inferInstanceAs (Decidable True)

/-! ## The invariant -/

/-- A session has transfers of files it was asked for, and closes what is over. -/
structure Tidy (x : Session) : Prop where
  transfers : ∀ p t, x.transfers p = some t → ∃ k ∈ x.requested, p = cnvtClientToServerPath w k
  closed : ∀ p t, x.transfers p = some t → t.isFinished = true → t.fileOutStream.isOpen = false
  transferring : ∀ msg p, x.handling = .transferring msg p → msg.filename ∈ x.requested

/-- **The invariant**: the sessions are tidy, and no two have a request for the same file. -/
structure Orderly (V : ClientView) : Prop where
  catalogued : Catalogued w V
  tidy : ∀ t x, V.sessions t = some x → Tidy w x
  single : ∀ t t' k, V.Asks w t k → V.Asks w t' k → t = t'

variable {w}

theorem AsksOnce.names {a : ClientAction} {V : ClientView} (h : AsksOnce w a V) :
    NamesSurvive w a := by
  cases a with
  | start sid infos => exact h
  | _ => trivial

/-- A step that leaves the transfers and the requests as they are. -/
theorem Tidy.move {x x' : Session} (h : Tidy w x) (ht : x'.transfers = x.transfers)
    (hr : ∀ k ∈ x.requested, k ∈ x'.requested)
    (hh : ∀ msg p, x'.handling = .transferring msg p → msg.filename ∈ x'.requested) :
    Tidy w x' where
  transfers p t htr := by
    obtain ⟨k, hk, hp⟩ := h.transfers p t (ht ▸ htr)
    exact ⟨k, hr k hk, hp⟩
  closed p t htr := h.closed p t (ht ▸ htr)
  transferring := hh

/-- The transfer section keeps the transfers of a session its own, and closes what it finishes. -/
theorem Tidy.transferred {x : Session} (h : Tidy w x) {sid : SessionId} {disk : Disk}
    {msg : FileChunk} {p : Str} (hh : x.handling = .transferring msg p)
    (hp : p = cnvtClientToServerPath w msg.filename) :
    Tidy w (x.transferred msg p (receiveChunk sid p msg disk x.transfers)) := by
  refine ⟨fun q t ht => ?_, ?_, fun m q hm => ?_⟩
  · by_cases hq : q = p
    · exact ⟨msg.filename, h.transferring msg p hh, hq.trans hp⟩
    · exact h.transfers q t
        ((receiveChunk_transfers_of_ne sid msg disk x.transfers hq).symm.trans ht)
  · have hupdate : ∀ t : FileTransferState, (t.isFinished = true → t.fileOutStream.isOpen = false) →
        ∀ q t', Function.update x.transfers p (some t) q = some t' → t'.isFinished = true →
          t'.fileOutStream.isOpen = false :=
      fun t ht => forall_update h.closed ht
    show ∀ q t, (receiveChunk sid p msg disk x.transfers).transfers q = some t →
      t.isFinished = true →
      t.fileOutStream.isOpen = false
    refine receiveChunk_cases (P := fun r => ∀ q t, r.transfers q = some t → t.isFinished = true →
      t.fileOutStream.isOpen = false) ?_ ?_ ?_ ?_
    · exact fun _ => h.closed
    · exact fun o _ _ _ => hupdate _ fun _ => rfl
    · exact fun o st _ _ _ _ _ => hupdate _ fun _ => rfl
    · exact fun o st _ hf _ _ _ => hupdate _ fun h' => absurd (hf.symm.trans h') nofun
  · simp only [Session.transferred] at hm
    split at hm <;> cases hm

variable {sha1 : Str → Str}

/-- Every step of a session leaves it tidy. -/
theorem Orderly.tidy_session {V : ClientView} {sid : SessionId} {a : SessionAction} {x : Session}
    {disk : Disk} {e : Effect} (hg : AsksOnce w (.session sid a) V) (hV : Orderly w V)
    (hx : V.sessions sid = some x) (h : SessionStep sha1 w sid V.files disk x a e) :
    Tidy w e.session := by
  have htidy := hV.tidy sid x hx
  have hsub : ∀ k ∈ x.requested, k ∈ e.session.requested := fun k => h.requested_subset
  cases h with
  | prepare h => exact htidy.move rfl hsub htidy.transferring
  | @scan now k todo v h hv =>
    unfold Session.scan at hsub ⊢
    split
    all_goals
      rename_i hst
      rw [hst] at hsub
      exact htidy.move rfl hsub fun msg p hm => hsub _ (htidy.transferring msg p hm)
  | claim h => exact htidy.move rfl hsub fun msg p hm => hsub _ (htidy.transferring msg p hm)
  | confirm h => exact htidy.move rfl hsub nofun
  | @receive msg h =>
    unfold Session.receive
    cases hv : V.files msg.filename with
    | none => exact htidy.move rfl (fun _ hk => hk) nofun
    | some v =>
      by_cases hid : msg.sessionId = sid
      · simp only [hid, ne_eq, not_true_eq_false, if_false]
        refine htidy.move rfl (fun _ hk => hk) fun m p hm => ?_
        cases hm
        exact hg x hx hid (by rw [hv]; rfl)
      · simp only [hid, ne_eq, not_false_eq_true, if_true]
        exact htidy.move rfl (fun _ hk => hk) nofun
  | transfer h => exact htidy.transferred h ((hV.catalogued.keyed sid x hx).transferring _ _ h).1
  | measure h hv =>
    unfold Session.measured
    split
    · exact htidy.move rfl (fun _ hk => hk) nofun
    · split <;> exact htidy.move rfl (fun _ hk => hk) nofun
  | hash h hv =>
    unfold Session.hashed
    split <;> exact htidy.move rfl (fun _ hk => hk) nofun
  | copy h hv => exact htidy.move rfl hsub nofun
  | write h =>
    unfold Session.marked
    split <;> exact htidy.move rfl (fun _ hk => hk) nofun
  | notify h => exact htidy.move rfl hsub nofun
  | disconnect h => exact htidy.move rfl hsub nofun

/-- **A step gives out a request only for a file nobody else is asked for.** -/
theorem Orderly.asks_session {V : ClientView} {sid : SessionId} {a : SessionAction} {x : Session}
    {disk : Disk} {e : Effect} (hg : AsksOnce w (.session sid a) V) (hV : Orderly w V)
    (hx : V.sessions sid = some x) (h : SessionStep sha1 w sid V.files disk x a e) {k : Str}
    (hk : e.session.Outstanding w k) :
    x.Outstanding w k ∨ ∀ t, t ≠ sid → ¬ V.Asks w t k := by
  have hunf : ¬ x.Finished (cnvtClientToServerPath w k) := fun hfin => hk.2 (h.finished hfin)
  rcases h.requested_cases with hr | ⟨u, todo, rfl, hst, hr⟩ |
    ⟨now, k', todo, v, rfl, hst, hv, hf, hr⟩
  · exact Or.inl ⟨hr ▸ hk.1, hunf⟩
  · have hmem := hk.1
    rw [hr] at hmem
    rcases List.mem_append.mp hmem with hmem | hmem
    · exact Or.inl ⟨hmem, hunf⟩
    · refine Or.inr ?_
      rintro t - ⟨-, y, hy, hout⟩
      obtain ⟨v, hv, hbegun⟩ := (hV.catalogued.keyed t y hy).asked k hout.1
      rw [List.mem_singleton.mp hmem] at hv
      exact hbegun (hg x hx u (by rw [hst]; rfl) v hv)
  · have hmem := hk.1
    rw [hr] at hmem
    rcases List.mem_append.mp hmem with hmem | hmem
    · exact Or.inl ⟨hmem, hunf⟩
    · obtain ⟨hsv, hp⟩ := hV.catalogued.filed k' v hv
      obtain rfl : k = k' := (List.mem_singleton.mp hmem).trans (hp ▸ hsv)
      refine Or.inr fun t ht hasks => ?_
      obtain ⟨y, hy, -⟩ := hasks.2
      exact hg x hx k (by rw [hst]; rfl) v hv hf t
        (hV.catalogued.registered t y hy).started ht hasks

/-- What a live session holds after a step of the session `sid`. -/
theorem holds_update {B : Session → Str → Prop} {V V' : ClientView} {sid t : SessionId}
    {x' : Session} {k : Str} (hs : V'.sessions = Function.update V.sessions sid (some x'))
    (hlive : V'.Live t → V.Live t) (h : V'.Holds B t k) :
    (t ≠ sid ∧ V.Holds B t k) ∨ (t = sid ∧ V.Live sid ∧ B x' k) := by
  obtain ⟨hl, y, hy, hB⟩ := h
  rw [hs] at hy
  by_cases ht : t = sid
  · subst ht
    rw [Option.mem_def, Function.update_self] at hy
    cases hy
    exact Or.inr ⟨rfl, hlive hl, hB⟩
  · rw [Option.mem_def, Function.update_of_ne ht] at hy
    exact Or.inl ⟨ht, hlive hl, y, hy, hB⟩

/-- Uniqueness survives a step of the session `sid`, if what is new to it is nobody else's. -/
theorem single_update {B : Session → Str → Prop} {V V' : ClientView} {sid : SessionId}
    {x x' : Session} (hsingle : ∀ t t' k, V.Holds B t k → V.Holds B t' k → t = t')
    (hx : V.sessions sid = some x) (hs : V'.sessions = Function.update V.sessions sid (some x'))
    (hlive : ∀ t, V'.Live t → V.Live t)
    (hnew : ∀ k, B x' k → B x k ∨ ∀ t, t ≠ sid → ¬ V.Holds B t k) :
    ∀ t t' k, V'.Holds B t k → V'.Holds B t' k → t = t' := by
  have hother : ∀ t k, t ≠ sid → V.Holds B t k → V.Live sid → ¬ B x' k := by
    intro t k ht hV hl hB
    rcases hnew k hB with hB | hnobody
    · exact ht (hsingle t sid k hV ⟨hl, x, hx, hB⟩)
    · exact hnobody t ht hV
  intro t t' k ht ht'
  rcases holds_update hs (hlive t) ht with ⟨hne, ha⟩ | ⟨rfl, hl, hB⟩
  · rcases holds_update hs (hlive t') ht' with ⟨-, ha'⟩ | ⟨rfl, hl, hB⟩
    · exact hsingle t t' k ha ha'
    · exact absurd hB (hother t k hne ha hl)
  · rcases holds_update hs (hlive t') ht' with ⟨hne, ha'⟩ | ⟨rfl, -, -⟩
    · exact absurd hB (hother t' k hne ha' hl)
    · rfl

/-- A new session holds nothing, and the others what they held. -/
theorem holds_addSession {B : Session → Str → Prop} {V : ClientView} {sid t : SessionId}
    {infos : List FileInfo} {k : Str} (hnew : ¬ B (.new infos) k)
    (hlive : t ≠ sid → (V.addSession w sid infos).Live t → V.Live t)
    (h : (V.addSession w sid infos).Holds B t k) : V.Holds B t k := by
  obtain ⟨hl, y, hy, hB⟩ := h
  by_cases ht : t = sid
  · subst ht
    obtain rfl := Option.some.inj ((V.addSession_self w t infos).symm.trans hy)
    exact absurd hB hnew
  · exact ⟨hlive ht hl, y, (V.addSession_of_ne w infos ht).symm.trans hy, hB⟩

/-- **Every step of an orderly client leaves it orderly.** -/
theorem Orderly.step {disk : Disk} {V : ClientView} {a : ClientAction} {e : ViewEffect}
    (hg : AsksOnce w a V) (h : Step sha1 w disk V a e) (hV : Orderly w V) : Orderly w e.view := by
  have hcat := hV.catalogued.step hg.names h
  have hlive : ∀ t, (∀ infos, a ≠ .start t infos) → e.view.Live t → V.Live t := by
    intro t ht hl
    rcases live_of_step h hV.catalogued.registered hl with hl | ⟨infos, ha, -⟩
    · exact hl
    · exact absurd ha (ht infos)
  have hmove : ∀ {sid x x'}, (∀ infos t, a ≠ .start t infos) → V.sessions sid = some x →
      e.view.sessions = Function.update V.sessions sid (some x') →
      x'.transfers = x.transfers → x'.requested = x.requested →
      (∀ msg p, x'.handling = .transferring msg p → x.handling = .transferring msg p) →
      Orderly w e.view := by
    intro sid x x' ha hx hs ht hr hh
    refine ⟨hcat, ?_, single_update hV.single hx hs (fun t => hlive t fun infos => ha infos t)
      fun k hk => Or.inl ?_⟩
    · rw [hs]
      refine forall_update hV.tidy
        ((hV.tidy sid x hx).move ht (fun k hk => hr ▸ hk) fun m p hm => ?_)
      exact hr ▸ (hV.tidy sid x hx).transferring m p (hh m p hm)
    · exact ⟨hr ▸ hk.1, fun ⟨t, htr, hf⟩ => hk.2 ⟨t, ht ▸ htr, hf⟩⟩
  cases h with
  | @start sid infos h =>
    have hback : ∀ t k, (V.addSession w sid infos).Asks w t k → V.Asks w t k := fun t k =>
      holds_addSession (fun ho => absurd ho.1 List.not_mem_nil) fun ht =>
        hlive t fun infos' ha => ht (by cases ha; rfl)
    exact ⟨hcat, forall_update hV.tidy ⟨nofun, nofun, nofun⟩,
      fun t t' k ht ht' => hV.single t t' k (hback t k ht) (hback t' k ht')⟩
  | @session sid a x e hx h =>
    refine ⟨hcat, forall_update hV.tidy (hV.tidy_session hg hx h), ?_⟩
    exact single_update hV.single hx rfl (fun t => hlive t nofun) fun k hk =>
      hV.asks_session hg hx h hk
  | sweepStart hx h hnew => exact hmove nofun hx rfl rfl rfl fun _ _ hm => hm
  | sweepChunk hx h hnew => exact hmove nofun hx rfl rfl rfl nofun
  | terminate hx h => exact hmove nofun hx rfl rfl rfl nofun
  | remove hx h => exact hmove nofun hx rfl rfl rfl nofun
  | release hx h => exact hmove nofun hx rfl rfl rfl nofun

theorem orderly_empty : Orderly w .empty where
  catalogued := catalogued_empty
  tidy := forall_sessions_empty
  single := by
    rintro t t' k ⟨-, y, hy, -⟩
    cases hy

/-- The live session `t` has an upload request for the server file `p`. -/
def AsksPath (w : Str) (V : ClientView) (t : SessionId) (p : Str) : Prop :=
  V.Live t ∧ ∃ x ∈ V.sessions t, ∃ k ∈ x.requested, cnvtClientToServerPath w k = p ∧ ¬ x.Finished p

instance (w : Str) (V : ClientView) (t : SessionId) (p : Str) : Decidable (V.AsksPath w t p) := by
  unfold AsksPath
  infer_instance

/-- The live session `t` has a stream open that writes the server file `p`. -/
def Streams (V : ClientView) (t : SessionId) (p : Str) : Prop :=
  V.Live t ∧ ∃ x ∈ V.sessions t, ∃ q, ∃ tr ∈ x.transfers q,
    tr.fileOutStream.isOpen = true ∧ tr.fileOutStream.path = p

/-- No two sessions have a request for one server file, nor streams that write it, under whatever
spelling of its path. -/
def SingleUploader (w : Str) (V : ClientView) : Prop :=
  ∀ t t' p p', SameFile p p' → (V.AsksPath w t p → V.AsksPath w t' p' → t = t')
    ∧ (V.Streams t p → V.Streams t' p' → t = t')

/-- An open stream writes a file its session was asked for. -/
theorem Orderly.asksPath {V : ClientView} (hV : Orderly w V) {t : SessionId} {p : Str}
    (h : V.Streams t p) : V.AsksPath w t p := by
  obtain ⟨hl, x, hx, q, tr, htr, hopen, rfl⟩ := h
  have htidy := hV.tidy t x hx
  have hq : tr.fileOutStream.path = q := (hV.catalogued.keyed t x hx).streams q tr htr
  obtain ⟨k, hk, hp⟩ := htidy.transfers q tr htr
  refine ⟨hl, x, hx, k, hk, (hq.trans hp).symm, fun ⟨tr', htr', hfin⟩ => ?_⟩
  obtain rfl : tr = tr' := Option.some.inj (htr.symm.trans (hq ▸ htr'))
  exact absurd ((htidy.closed q tr htr hfin).symm.trans hopen) nofun

/-- **An orderly client whose entries are of different files has a single uploader for each.** -/
theorem Orderly.singleUploader {V : ClientView} (hV : Orderly w V) (hsep : V.Separate) :
    SingleUploader w V := by
  have hpath : ∀ t t' p p', SameFile p p' → V.AsksPath w t p → V.AsksPath w t' p' → t = t' := by
    rintro t t' p p' hsame ⟨hl, x, hx, k, hk, rfl, hunf⟩ ⟨hl', x', hx', k', hk', rfl, hunf'⟩
    obtain ⟨v, hv, -⟩ := (hV.catalogued.keyed t x hx).asked k hk
    obtain ⟨v', hv', -⟩ := (hV.catalogued.keyed t' x' hx').asked k' hk'
    rw [← (hV.catalogued.filed k v hv).2, ← (hV.catalogued.filed k' v' hv').2] at hsame
    obtain rfl : k = k' := hsep k v k' v' hv hv' hsame
    exact hV.single t t' k ⟨hl, x, hx, hk, hunf⟩ ⟨hl', x', hx', hk', hunf'⟩
  exact fun t t' p p' hsame => ⟨hpath t t' p p' hsame,
    fun h h' => hpath t t' p p' hsame (hV.asksPath h) (hV.asksPath h')⟩

end ClientView

/-- **At most one live session of a client has an upload request for a server file, and at most one
writes it**, in every run in which each claim finds its entry still INITIAL, no file in FAULT is
asked for twice, chunks are for files that were asked for, and no two names the client declares lead
to one file. -/
theorem single_uploader {sha1 : Str → Str} {c : ClientId} {n : ℕ} {disk : Disk} {as : List Action}
    {t : System}
    (hm : Meets (System.step sha1)
      (System.onClient c fun a _ => ClientView.AsksOnce (workspaceOf c) a) as
      (System.initial n disk))
    (happart : Apart (workspaceOf c) (declaredNames c as))
    (hr : runFrom (System.step sha1) as (System.initial n disk) = some t) :
    (t.views c).SingleUploader (workspaceOf c) := by
  have hV : (t.views c).Orderly (workspaceOf c) :=
    System.view_invariant (P := ClientView.Orderly (workspaceOf c)) ClientView.orderly_empty
      (fun _ _ _ _ hg h hV => hV.step hg h) hm hr
  exact hV.singleUploader (System.separate hr hV.catalogued happart)

/-! ### One after the other, and both at once -/

/-- The server path of the file. -/
def oneBytePath : Str := cnvtClientToServerPath (workspaceOf (str "c")) (str "/a.c")

/-- The second session scans when the first one has claimed the file. -/
def oneAfterTheOther : List Action :=
  startFile (str "c") (str "s") oneByte ++ onSession (str "c") (str "s") [.claim, .confirm]
    ++ startFile (str "c") (str "t") oneByte ++ onSession (str "c") (str "t") [.confirm]

/-- Only the first one is asked. -/
theorem oneAfterTheOther_single :
    ∃ t, runFrom (System.step sampleSha1) oneAfterTheOther (System.initial 1 .empty) = some t
      ∧ (t.views (str "c")).AsksPath (workspaceOf (str "c")) (str "s") oneBytePath
      ∧ (t.views (str "c")).SingleUploader (workspaceOf (str "c")) := by
  have hrun : ((runFrom (System.step sampleSha1) oneAfterTheOther (System.initial 1 .empty)).map
      fun t => decide ((t.views (str "c")).AsksPath (workspaceOf (str "c")) (str "s") oneBytePath))
      = some true := by
    decide +kernel
  obtain ⟨t, hr, hasks⟩ := Option.map_eq_some_iff.mp hrun
  exact ⟨t, hr, of_decide_eq_true hasks,
    single_uploader (c := str "c") (by decide +kernel) (by decide +kernel) hr⟩

/-- Both sessions scan before either claims. -/
def bothAtOnce : List Action :=
  startFile (str "c") (str "s") oneByte ++ startFile (str "c") (str "t") oneByte
    ++ onSession (str "c") (str "s") [.claim, .confirm]
    ++ onSession (str "c") (str "t") [.claim, .confirm]

/-- Both are asked for the file. -/
theorem bothAtOnce_two_uploaders :
    ¬ ∀ as t, runFrom (System.step sampleSha1) as (System.initial 1 .empty) = some t →
      ∀ c, (t.views c).SingleUploader (workspaceOf c) := by
  intro h
  have hrun : ((runFrom (System.step sampleSha1) bothAtOnce (System.initial 1 .empty)).map
      fun t => decide ((t.views (str "c")).AsksPath (workspaceOf (str "c")) (str "s") oneBytePath
        ∧ (t.views (str "c")).AsksPath (workspaceOf (str "c")) (str "t") oneBytePath))
      = some true := by
    decide +kernel
  obtain ⟨t, hr, hboth⟩ := Option.map_eq_some_iff.mp hrun
  obtain ⟨hs, ht⟩ := of_decide_eq_true hboth
  exact absurd ((h _ t hr (str "c") (str "s") (str "t") oneBytePath oneBytePath rfl).1 hs ht)
    (by decide)

end DistBuild
