import DistBuild.Offload.Reading
import DistBuild.Server.Containment
import DistBuild.Server.Scheduling

/-!
# Offload/Hosting — one client of the server, with all its sessions

    INITIAL     nobody was asked for it, and whoever requires it has yet to look at it
    UPLOADING   one session was asked for it
    AVAILABLE   the server has it as the client does

`Hosted` is what holds of a client view, the disk, and the clients at the other end, whatever they
all do next: a step of one session is a `Touch` of what they share (`Hosted.advance`), a new session
declares files (`Hosted.start`), and the rest of the server leaves it alone (`Hosted.frame`).
-/

namespace DistBuild.Offload

variable (sha1 : Str → Str) (c : ClientId) (fs : Str → Option Str)

/-- A session and the client `e` at its other end, to which it has sent `sent`. -/
structure Attended (sid : SessionId) (files : FileTable) (disk : Disk) (x : Session) (e : ClientEnd)
    (sent : List ServerMessage) : Prop where
  engaged : Engaged sha1 c fs files x
  stage : Stage sha1 c fs sid files disk x e (sent.drop e.read)
  terminated : x.terminated = true → e.Over

/-- **The invariant** of the client `c`. -/
structure Hosted (disk : Disk) (V : ClientView) (ends : SessionId → Option ClientEnd)
    (sent : SessionId → List ServerMessage) : Prop where
  registered : V.Registered
  woken : V.Woken
  described : ∀ k v, V.files k = some v → Describes sha1 c fs k v ∧ v.fileStatus ≠ .fault
  initial : ∀ k, Has V.files k .initial → ∀ t x, V.sessions t = some x →
    k ∉ x.requested ∧ (k ∈ x.requiredFilesState → k ∈ x.pending (workspaceOf c))
  uploading : ∀ k, Has V.files k .uploading → ∃ t x, V.sessions t = some x ∧ k ∈ x.requested
  available : ∀ k, Has V.files k .available → disk.files (pathOf c k) = fs k
  apart : ∀ t t' x x' k, V.sessions t = some x → V.sessions t' = some x' → k ∈ x.requested →
    k ∈ x'.requested → t = t'
  flagged : ∀ t, V.isCompilerRunning t = true →
    ∃ x, V.sessions t = some x ∧ ∀ k ∈ x.requiredFilesState, Has V.files k .available
  attended : ∀ t x, V.sessions t = some x →
    ∃ e, ends t = some e ∧ Attended sha1 c fs t V.files disk x e (sent t)
  hosts : ∀ t e, ends t = some e → ∃ x, V.sessions t = some x
  silent : ∀ t, V.sessions t = none → sent t = []

/-- Nothing but server files of this client has been written. -/
structure Confined (disk disk' : Disk) : Prop where
  files : ∀ q, (∀ k, Transferable c fs k → q ≠ pathOf c k) → disk'.files q = disk.files q
  writable : disk'.writable = disk.writable

variable {sha1 c fs}

theorem hosted_empty (disk : Disk) : Hosted sha1 c fs disk .empty (fun _ => none) fun _ => [] where
  registered := ClientView.registered_empty
  woken := ClientView.woken_empty
  described := nofun
  initial _ _ := ClientView.forall_sessions_empty
  uploading := by
    rintro k ⟨v, hv, -⟩
    exact absurd hv nofun
  available := by
    rintro k ⟨v, hv, -⟩
    exact absurd hv nofun
  apart _ _ _ _ _ h := absurd h nofun
  flagged _ h := absurd h nofun
  attended := ClientView.forall_sessions_empty
  hosts := nofun
  silent _ _ := rfl

variable {disk disk' : Disk} {V V' : ClientView} {ends ends' : SessionId → Option ClientEnd}
  {sent sent' : SessionId → List ServerMessage} {sid : SessionId} {x x' : Session}
  {e e' : ClientEnd}

theorem Hosted.transferable (hV : Hosted sha1 c fs disk V ends sent) {k : Str} {st : FileStatus}
    (hk : Has V.files k st) : Transferable c fs k := by
  obtain ⟨v, hv, -⟩ := hk
  exact (hV.described k v hv).1.transferable

theorem Hosted.tabled (hV : Hosted sha1 c fs disk V ends sent) (hx : V.sessions sid = some x) :
    Tabled sha1 c fs V.files x where
  described := hV.described
  unasked k hk := (hV.initial k hk sid x hx).1
  unstarted := (hV.registered sid x hx).unconfirmed

/-! ## The session that takes a step -/

/-- What is AVAILABLE stays, at both ends of its entry. -/
theorem Hosted.touch_available (hV : Hosted sha1 c fs disk V ends sent)
    (h : Touch sha1 c fs V.files disk x V'.files disk' x') {k : Str}
    (hk : Has V.files k .available) :
    Has V'.files k .available ∧ disk'.files (pathOf c k) = fs k := by
  refine ⟨hk.of_eq (h.available hk), ?_⟩
  rcases h.stored with rfl | ⟨k', hk', hdisk⟩
  · exact hV.available k hk
  · refine (hdisk _ (pathOf_ne (hV.transferable hk) (hV.transferable hk') ?_)).trans
      (hV.available k hk)
    rintro rfl
    exact FileStatus.noConfusion (hk.unique hk')

theorem Hosted.confined (hV : Hosted sha1 c fs disk V ends sent)
    (h : Touch sha1 c fs V.files disk x V'.files disk' x') : Confined c fs disk disk' where
  files q hq := by
    rcases h.stored with rfl | ⟨k, hk, hdisk⟩
    · rfl
    · exact hdisk q (hq k (hV.transferable hk))
  writable := h.writable

/-- **A step of the session `sid`**, or of the client at its other end, leaves the client hosted. -/
theorem Hosted.advance (hV : Hosted sha1 c fs disk V ends sent) (hx : V.sessions sid = some x)
    (hadv : Advances sha1 c fs sid V.files disk x e' V'.files disk' x'
      ((sent' sid).drop e'.read))
    (hreg : V'.Registered) (hwoken : V'.Woken)
    (hsessions : V'.sessions = Function.update V.sessions sid (some x'))
    (hreq : x'.requiredFilesState = x.requiredFilesState)
    (hterm : x'.terminated = true → e'.Over)
    (hflags : ∀ t, V'.isCompilerRunning t = true →
      V.isCompilerRunning t = true ∨ V.ReadyToCompile t)
    (hself : ends' sid = some e') (hends : ∀ t, t ≠ sid → ends' t = ends t)
    (hsent : ∀ t, t ≠ sid → sent' t = sent t) :
    Hosted sha1 c fs disk' V' ends' sent' := by
  have htouch := hadv.touch
  have hself' : V'.sessions sid = some x' := hsessions ▸ Function.update_self ..
  have hother : ∀ t y, V'.sessions t = some y →
      (t = sid ∧ y = x') ∨ t ≠ sid ∧ V.sessions t = some y := by
    intro t y hy
    rw [hsessions] at hy
    rcases update_eq_some.mp hy with ⟨rfl, rfl⟩ | hy
    · exact Or.inl ⟨rfl, rfl⟩
    · exact Or.inr hy
  have hapart : ∀ t y k, t ≠ sid → V.sessions t = some y → k ∈ y.requested → k ∉ x'.requested := by
    intro t y k hts hy hk hk'
    rcases htouch.requested with hr | ⟨k', hini, -, hr⟩
    · exact hts (hV.apart t sid y x k hy hx hk (hr ▸ hk'))
    · rw [hr] at hk'
      rcases List.mem_append.mp hk' with hk' | hk'
      · exact hts (hV.apart t sid y x k hy hx hk hk')
      · exact (hV.initial k (List.mem_singleton.mp hk' ▸ hini) t y hy).1 hk
  have hall : ∀ y : Session, (∀ k ∈ y.requiredFilesState, Has V.files k .available) →
      ∀ k ∈ y.requiredFilesState, Has V'.files k .available :=
    fun y hy k hk => (hV.touch_available htouch (hy k hk)).1
  refine
    { registered := hreg
      woken := hwoken
      described := fun k v hv => ?_
      initial := fun k hk t y hy => ?_
      uploading := fun k hk => ?_
      available := fun k hk => ?_
      apart := fun t t' y y' k hy hy' hk hk' => ?_
      flagged := fun t ht => ?_
      attended := fun t y hy => ?_
      hosts := fun t e he => ?_
      silent := fun t ht => ?_ }
  · rcases htouch.entries hv with hv | ⟨hdesc, ⟨hst, -⟩ | ⟨hst, -⟩⟩
    · exact hV.described k v hv
    · exact ⟨hdesc, by rw [hst]; exact nofun⟩
    · exact ⟨hdesc, by rw [hst]; exact nofun⟩
  · have hini := htouch.initial hk
    rcases hother t y hy with ⟨rfl, rfl⟩ | ⟨hts, hy⟩
    · obtain ⟨hnot, hpend⟩ := hV.initial k hini t x hx
      refine ⟨fun hmem => ?_, fun hmem => hadv.pending k hk (hpend (hreq ▸ hmem))⟩
      rcases htouch.requested with hr | ⟨k', -, hup, hr⟩
      · exact hnot (hr ▸ hmem)
      · rw [hr] at hmem
        rcases List.mem_append.mp hmem with hmem | hmem
        · exact hnot hmem
        · exact FileStatus.noConfusion (hk.unique (List.mem_singleton.mp hmem ▸ hup))
    · exact hV.initial k hini t y hy
  · obtain ⟨v, hv, hst⟩ := hk
    rcases htouch.entries hv with hv | ⟨-, ⟨-, hmem⟩ | ⟨hst', -⟩⟩
    · obtain ⟨t, y, hy, hmem⟩ := hV.uploading k ⟨v, hv, hst⟩
      by_cases hts : t = sid
      · subst hts
        obtain rfl : x = y := Option.some.inj (hx.symm.trans hy)
        exact ⟨t, x', hself', htouch.subset hmem⟩
      · exact ⟨t, y, by rw [hsessions, Function.update_of_ne hts, hy], hmem⟩
    · exact ⟨sid, x', hself', hmem⟩
    · exact FileStatus.noConfusion (hst.symm.trans hst')
  · obtain ⟨v, hv, hst⟩ := hk
    rcases htouch.entries hv with hv | ⟨-, ⟨hst', -⟩ | ⟨-, hdisk⟩⟩
    · exact (hV.touch_available htouch ⟨v, hv, hst⟩).2
    · exact FileStatus.noConfusion (hst.symm.trans hst')
    · exact hdisk
  · rcases hother t y hy with ⟨rfl, rfl⟩ | ⟨hts, hy⟩
    · rcases hother t' y' hy' with ⟨rfl, -⟩ | ⟨hts', hy'⟩
      · rfl
      · exact absurd hk (hapart t' y' k hts' hy' hk')
    · rcases hother t' y' hy' with ⟨rfl, rfl⟩ | ⟨-, hy'⟩
      · exact absurd hk' (hapart t y k hts hy hk)
      · exact hV.apart t t' y y' k hy hy' hk hk'
  · obtain ⟨y, hy, hav⟩ : ∃ y, V.sessions t = some y
        ∧ ∀ k ∈ y.requiredFilesState, Has V.files k .available := by
      rcases hflags t ht with hflag | ⟨y, hy, -, hready⟩
      · exact hV.flagged t hflag
      · exact ⟨y, hy, hready⟩
    by_cases hts : t = sid
    · subst hts
      obtain rfl : x = y := Option.some.inj (hx.symm.trans hy)
      exact ⟨x', hself', fun k hk => hall x hav k (hreq ▸ hk)⟩
    · exact ⟨y, by rw [hsessions, Function.update_of_ne hts, hy], hall y hav⟩
  · rcases hother t y hy with ⟨rfl, rfl⟩ | ⟨hts, hy⟩
    · exact ⟨e', hself, hadv.engaged, hadv.stage, hterm⟩
    · obtain ⟨f, hf, hatt⟩ := hV.attended t y hy
      have hleaves : Leaves c V.files disk y V'.files disk' := htouch.leaves
        (fun k v hv => (hV.described k v hv).1.transferable)
        (fun k hk hk' => hts (hV.apart t sid y x k hy hx hk' hk))
        fun k hk => (hV.initial k hk t y hy).1
      refine ⟨f, (hends t hts).trans hf, hatt.engaged.frame fun k v hv => htouch.grows hv, ?_,
        hatt.terminated⟩
      rw [hsent t hts]
      exact hatt.stage.frame hleaves
  · by_cases hts : t = sid
    · exact ⟨x', hts ▸ hself'⟩
    · obtain ⟨y, hy⟩ := hV.hosts t e ((hends t hts).symm.trans he)
      exact ⟨y, by rw [hsessions, Function.update_of_ne hts, hy]⟩
  · have hts : t ≠ sid := by
      rintro rfl
      exact absurd (hself'.symm.trans ht) nofun
    rw [hsent t hts]
    refine hV.silent t ?_
    rwa [hsessions, Function.update_of_ne hts] at ht

variable {a : ClientAction} {E : ViewEffect}

/-- The same, for a step of the client view. -/
theorem Hosted.step (hV : Hosted sha1 c fs disk V ends sent)
    (h : ClientView.step sha1 (workspaceOf c) a disk V = some E) (hx : V.sessions sid = some x)
    (hadv : Advances sha1 c fs sid V.files disk x e' E.view.files E.disk x'
      ((sent' sid).drop e'.read))
    (hsessions : E.view.sessions = Function.update V.sessions sid (some x'))
    (hreq : x'.requiredFilesState = x.requiredFilesState)
    (hterm : x'.terminated = true → e'.Over)
    (hself : ends' sid = some e') (hends : ∀ t, t ≠ sid → ends' t = ends t)
    (hsent : ∀ t, t ≠ sid → sent' t = sent t) :
    Hosted sha1 c fs E.disk E.view ends' sent' ∧ Confined c fs disk E.disk := by
  have hstep := ClientView.step_cases h
  refine ⟨hV.advance hx hadv (hV.registered.step hstep) (hV.woken.step h hV.registered) hsessions
    hreq hterm (fun t ht => ?_) hself hends hsent, hV.confined hadv.touch⟩
  exact (((ClientView.step_sweeps h).1.flags t).mp ht).imp_right hstep.readyToCompile

/-- And for one that sends the client nothing. -/
theorem Hosted.step_silent (hV : Hosted sha1 c fs disk V ends sent)
    (h : ClientView.step sha1 (workspaceOf c) a disk V = some E) (hx : V.sessions sid = some x)
    (hadv : ∀ e, Attended sha1 c fs sid V.files disk x e (sent sid) →
      Advances sha1 c fs sid V.files disk x e E.view.files E.disk x' ((sent sid).drop e.read))
    (hsessions : E.view.sessions = Function.update V.sessions sid (some x'))
    (hreq : x'.requiredFilesState = x.requiredFilesState) (hterm : x'.terminated = x.terminated) :
    Hosted sha1 c fs E.disk E.view ends sent ∧ Confined c fs disk E.disk := by
  obtain ⟨e, he, hatt⟩ := hV.attended sid x hx
  exact hV.step h hx (hadv e hatt) hsessions hreq (fun ht => hatt.terminated (hterm ▸ ht)) he
    (fun _ _ => rfl) fun _ _ => rfl

/-- **The server goes on by itself**: a section of a session, or of its threads around it. -/
theorem Hosted.internal (hV : Hosted sha1 c fs disk V ends sent)
    (h : ClientView.step sha1 (workspaceOf c) a disk V = some E)
    (hint : (Action.client c a).internal = true)
    (hclaim : ∀ sid, a = .session sid .claim → ∀ x ∈ V.sessions sid, ∀ u ∈ x.starting.claimed,
      ∀ v ∈ V.files (cnvtServerToClientPath (workspaceOf c) u.serverFilePath),
        v.fileStatus = .initial)
    (hread : ∀ t e, ends t = some e → e.read ≤ (sent t).length)
    (hsent : ∀ t, sent' t = sent t ++ if a.actor = t then E.sent else []) :
    Hosted sha1 c fs E.disk E.view ends sent' ∧ Confined c fs disk E.disk := by
  have hsilent : E.sent = [] → sent' = sent := fun hnil => funext fun t => by simp [hsent, hnil]
  cases ClientView.step_cases h with
  | start _ => exact absurd hint Bool.false_ne_true
  | terminate _ _ => exact absurd hint Bool.false_ne_true
  | @session sid a x F hx hs =>
    obtain ⟨e, he, hatt⟩ := hV.attended sid x hx
    have hunread : (sent' sid).drop e.read = (sent sid).drop e.read ++ F.sent := by
      rw [hsent, if_pos (show (ClientAction.session sid a).actor = sid from rfl),
        List.drop_append_of_le_length (hread _ e he)]
    have hadv : Advances sha1 c fs sid V.files disk x e F.files F.disk F.session
        ((sent' sid).drop e.read) := by
      refine hunread ▸ session_advances (hV.tabled hx) hatt.engaged hatt.stage hs ?_ ?_ ?_
      · rintro m rfl
        exact absurd hint Bool.false_ne_true
      · rintro rfl
        exact absurd hint Bool.false_ne_true
      · rintro rfl
        exact hclaim sid rfl x hx
    refine hV.step h hx hadv rfl hs.frame.2.1 (fun ht => hatt.terminated (hs.frame.2.2 ▸ ht)) he
      (fun _ _ => rfl) fun t ht => ?_
    rw [hsent t, if_neg (show (ClientAction.session sid a).actor ≠ t from Ne.symm ht),
      List.append_nil]
  | sweepStart hx hs hnew =>
    rw [hsilent rfl]
    exact hV.step_silent h hx
      (fun e hatt => advances_sweepStart hatt.engaged hatt.stage hs) rfl rfl rfl
  | sweepChunk hx hs hnew =>
    rw [hsilent rfl]
    exact hV.step_silent h hx
      (fun e hatt => advances_sweepChunk (hV.tabled hx) hatt.engaged hatt.stage hs) rfl rfl rfl
  | remove hx hs =>
    rw [hsilent rfl]
    exact hV.step_silent h hx
      (fun e hatt => advances_leave (hV.tabled hx) hatt.engaged hatt.stage (Or.inl hs) rfl)
        rfl rfl rfl
  | release hx hs =>
    rw [hsilent rfl]
    exact hV.step_silent h hx
      (fun e hatt => advances_leave (hV.tabled hx) hatt.engaged hatt.stage (Or.inr hs) rfl)
        rfl rfl rfl

/-! ## A new session -/

/-- What a session start declares. -/
abbrev declarations (sha1 : Str → Str) (fs : Str → Option Str) (names : List Str) : List FileInfo :=
  names.map (declaration sha1 fs)

/-- A new entry describes its file. -/
theorem describes_new {names : List Str} (hnames : ∀ f ∈ names, Transferable c fs f)
    {files : FileTable} {k : Str} {v : FileStateView} (hk : files k = none)
    (hv : addFileStates (workspaceOf c) files
      (namedFiles (declarations sha1 fs names)) k = some v) :
    Describes sha1 c fs k v ∧ v.fileStatus = .initial := by
  obtain ⟨i, hi, rfl, rfl⟩ := addFileStates_of_none hk hv
  obtain ⟨f, hf, rfl⟩ := List.mem_map.mp (List.mem_filter.mp hi).1
  exact ⟨⟨hnames f hf, rfl, rfl, rfl⟩, rfl⟩

/-- **A new session** finds the files the client declares, and has been asked for none. -/
theorem Hosted.start {names : List Str} (hV : Hosted sha1 c fs disk V ends sent)
    (h : ClientView.step sha1 (workspaceOf c) (.start sid (declarations sha1 fs names)) disk V
      = some E)
    (hnames : ∀ f ∈ names, Transferable c fs f)
    (hself : ends' sid = some .start) (hends : ∀ t, t ≠ sid → ends' t = ends t) :
    E.sent = [] ∧ Hosted sha1 c fs E.disk E.view ends' sent ∧ Confined c fs disk E.disk := by
  have hreg := hV.registered.step (ClientView.step_cases h)
  have hwoken := hV.woken.step h hV.registered
  cases ClientView.step_cases h with
  | @start _ _ hnew =>
    refine ⟨rfl, ?_, fun _ _ => rfl, rfl⟩
    set infos := declarations sha1 fs names
    set files' := addFileStates (workspaceOf c) V.files (namedFiles infos)
    have hkept : ∀ k v, V.files k = some v → files' k = some v := fun k v hv =>
      addFileStates_of_some _ hv
    have hold : ∀ k v, files' k = some v → V.files k = some v
        ∨ V.files k = none ∧ Describes sha1 c fs k v ∧ v.fileStatus = .initial := by
      intro k v hv
      cases hk : V.files k with
      | none => exact Or.inr ⟨rfl, describes_new hnames hk hv⟩
      | some v₀ => exact Or.inl ((hkept k v₀ hk).symm.trans hv)
    have hhas : ∀ {k st}, Has V.files k st → Has files' k st := by
      rintro k st ⟨v, hv, hst⟩
      exact ⟨v, hkept k v hv, hst⟩
    have hhas' : ∀ {k st}, st ≠ .initial → Has files' k st → Has V.files k st := by
      rintro k st hne ⟨v, hv, hst⟩
      rcases hold k v hv with hv | ⟨-, -, hini⟩
      · exact ⟨v, hv, hst⟩
      · exact absurd (hst.symm.trans hini) hne
    have hother : ∀ t y, (V.addSession (workspaceOf c) sid infos).sessions t = some y →
        (t = sid ∧ y = .new infos) ∨ t ≠ sid ∧ V.sessions t = some y := by
      intro t y hy
      rcases update_eq_some.mp hy with ⟨rfl, rfl⟩ | hy
      · exact Or.inl ⟨rfl, rfl⟩
      · exact Or.inr hy
    have hthere : ∀ t y, V.sessions t = some y →
        (V.addSession (workspaceOf c) sid infos).sessions t = some y := by
      intro t y hy
      refine (V.addSession_of_ne (workspaceOf c) infos ?_).trans hy
      rintro rfl
      exact absurd (hnew.symm.trans hy) nofun
    exact
      { registered := hreg
        woken := hwoken
        described := fun k v hv => by
          rcases hold k v hv with hv | ⟨-, hdesc, hst⟩
          · exact hV.described k v hv
          · exact ⟨hdesc, by rw [hst]; exact nofun⟩
        initial := fun k hk t y hy => by
          rcases hother t y hy with ⟨rfl, rfl⟩ | ⟨-, hy⟩
          · exact ⟨List.not_mem_nil, fun hmem => hmem⟩
          · obtain ⟨f, -, hatt⟩ := hV.attended t y hy
            obtain ⟨v, hv, hst⟩ := hk
            rcases hold k v hv with hv | ⟨hnone, -⟩
            · exact hV.initial k ⟨v, hv, hst⟩ t y hy
            · have hreq : k ∉ y.requiredFilesState := fun hmem => by
                obtain ⟨v', hv'⟩ := hatt.engaged.known k hmem
                exact absurd (hnone.symm.trans hv') nofun
              exact ⟨fun hmem => hreq (hatt.engaged.asked k hmem), fun hmem => absurd hmem hreq⟩
        uploading := fun k hk => by
          obtain ⟨t, y, hy, hmem⟩ := hV.uploading k (hhas' nofun hk)
          exact ⟨t, y, hthere t y hy, hmem⟩
        available := fun k hk => hV.available k (hhas' nofun hk)
        apart := fun t t' y y' k hy hy' hk hk' => by
          rcases hother t y hy with ⟨rfl, rfl⟩ | ⟨-, hy⟩
          · exact absurd hk List.not_mem_nil
          · rcases hother t' y' hy' with ⟨rfl, rfl⟩ | ⟨-, hy'⟩
            · exact absurd hk' List.not_mem_nil
            · exact hV.apart t t' y y' k hy hy' hk hk'
        flagged := fun t ht => by
          obtain ⟨y, hy, hall⟩ := hV.flagged t ht
          exact ⟨y, hthere t y hy, fun k hk => hhas (hall k hk)⟩
        attended := fun t y hy => by
          rcases hother t y hy with ⟨rfl, rfl⟩ | ⟨hts, hy⟩
          · refine ⟨.start, hself, ⟨List.nodup_nil, nofun, fun k hk => ?_, fun k hk => hk, nofun,
              fun _ _ => rfl, fun hne => absurd rfl hne⟩, ?_, nofun⟩
            · obtain ⟨i, hi, rfl⟩ := List.mem_map.mp hk
              exact addFileStates_isSome hi
            · refine .opening rfl rfl rfl ?_ nofun
              rw [hV.silent t hnew]
              rfl
          · obtain ⟨f, hf, hatt⟩ := hV.attended t y hy
            have hleaves : Leaves c V.files disk y files' disk := by
              refine ⟨fun k hk => ?_, fun k _ hk => ?_, fun _ _ _ => rfl, rfl⟩
              · obtain ⟨v, hv, -⟩ := hk
                exact (hkept k v hv).trans hv.symm
              · obtain ⟨v, hv, -⟩ := hk
                exact (hkept k v hv).trans hv.symm
            exact ⟨f, (hends t hts).trans hf,
              hatt.engaged.frame fun k v hv => ⟨v, hkept k v hv⟩, hatt.stage.frame hleaves,
              hatt.terminated⟩
        hosts := fun t f hf => by
          by_cases hts : t = sid
          · subst hts
            exact ⟨_, V.addSession_self (workspaceOf c) t infos⟩
          · obtain ⟨y, hy⟩ := hV.hosts t f ((hends t hts).symm.trans hf)
            exact ⟨y, hthere t y hy⟩
        silent := fun t ht => by
          refine hV.silent t ?_
          cases hy : V.sessions t with
          | none => rfl
          | some y => exact absurd ((hthere t y hy).symm.trans ht) nofun }

/-! ## The messages, and the rest of the server -/

/-- The handler takes a message of its client. -/
theorem Hosted.deliver {m : ClientMessage} {ms : List ClientMessage}
    (hV : Hosted sha1 c fs disk V ends sent)
    (h : ClientView.step sha1 (workspaceOf c) (m.delivered sid) disk V = some E)
    (he : ends sid = some e) (hout : e.toServer = m :: ms)
    (hself : ends' sid = some { e with toServer := ms }) (hends : ∀ t, t ≠ sid → ends' t = ends t) :
    E.sent = [] ∧ Hosted sha1 c fs E.disk E.view ends' sent ∧ Confined c fs disk E.disk := by
  obtain ⟨x, hx⟩ := hV.hosts sid e he
  obtain ⟨f, hf, hatt⟩ := hV.attended sid x hx
  obtain rfl : e = f := Option.some.inj (he.symm.trans hf)
  cases m with
  | fileChunkUpload m =>
    have hstep := ClientView.step_cases h
    generalize hd : (ClientMessage.fileChunkUpload m).delivered sid = d at hstep
    cases hstep with
    | @session sid' a y F hy hs =>
      obtain ⟨rfl, rfl⟩ := ClientAction.session.inj hd
      obtain rfl : x = y := Option.some.inj (hx.symm.trans hy)
      have hframe := hs.frame
      cases hs with
      | receive hh =>
        obtain ⟨hsome, hadv⟩ := hatt.stage.receive (hV.tabled hx) hatt.engaged hout hh
        refine ⟨by rw [hsome]; rfl, hV.step h hx hadv rfl hframe.2.1 (fun ht => ?_) hself hends
          fun _ _ => rfl⟩
        exact hatt.terminated (hframe.2.2 ▸ ht)
    | _ => exact ClientAction.noConfusion hd
  | sessionAbort =>
    have hstep := ClientView.step_cases h
    generalize hd : ClientMessage.sessionAbort.delivered sid = d at hstep
    cases hstep with
    | @terminate sid' y hy hh =>
      obtain rfl := ClientAction.terminate.inj hd
      obtain rfl : x = y := Option.some.inj (hx.symm.trans hy)
      obtain ⟨hover, hstage⟩ := hatt.stage.terminate hout
      have hu := (hV.tabled hx).confirmed (by rw [hh]; exact nofun)
      have hadv : Advances sha1 c fs sid V.files disk x { e with toServer := ms } V.files disk
          { x with terminated := true, handling := .removing } ((sent sid).drop e.read) :=
        .handler hatt.engaged rfl rfl rfl rfl hu (.nothing rfl) hstage
      exact ⟨rfl, hV.step h hx hadv rfl rfl (fun _ => hover) hself hends fun _ _ => rfl⟩
    | _ => exact ClientAction.noConfusion hd

/-- **A client takes a message of its session.** -/
theorem Hosted.read {m : ServerMessage} {rest : List ServerMessage}
    (hV : Hosted sha1 c fs disk V ends sent)
    (hwritable : ∀ k, Transferable c fs k → disk.writable (pathOf c k) = true)
    (he : ends sid = some e) (hm : (sent sid).drop e.read = m :: rest)
    (hchunk : ∀ a, m = .objFileChunk a → a.sessionId = sid ∧ V.isCompilerRunning sid = true)
    (h : e.receive fs m = some e') (hself : ends' sid = some e')
    (hends : ∀ t, t ≠ sid → ends' t = ends t) :
    Reads fs sid e m e' ∧ Hosted sha1 c fs disk V ends' sent := by
  obtain ⟨x, hx⟩ := hV.hosts sid e he
  obtain ⟨f, hf, hatt⟩ := hV.attended sid x hx
  obtain rfl : e = f := Option.some.inj (he.symm.trans hf)
  have hstage := hm ▸ hatt.stage
  have hread : Reads fs sid e m e' ∧ Stage sha1 c fs sid V.files disk x e' rest := by
    cases hm : m.objFileChunk? with
    | none =>
      exact hstage.read_control hm (fun k v hv => (hV.described k v hv).1) hwritable h
    | some a =>
      obtain rfl : m = .objFileChunk a := by
        cases m with
        | objFileChunk b => exact congrArg _ (Option.some.inj hm)
        | _ => exact absurd hm nofun
      obtain ⟨hid, hflag⟩ := hchunk a rfl
      obtain ⟨y, hy, hall⟩ := hV.flagged sid hflag
      obtain rfl : x = y := Option.some.inj (hx.symm.trans hy)
      exact hstage.read_chunk (hV.registered sid x hx).unconfirmed hall hatt.engaged.asked hid h
  refine ⟨hread.1, hV.advance hx ⟨.nothing rfl, hatt.engaged, ?_, fun _ _ hk => hk⟩ hV.registered
    hV.woken (Function.update_eq_self_iff.mpr hx.symm).symm rfl (fun ht => ?_)
      (fun _ => Or.inl) hself
    hends fun _ _ => rfl⟩
  · have hnext : e'.read = e.read + 1 := by cases hread.1 <;> rfl
    have hdrop : (sent sid).drop e'.read = rest := by
      rw [hnext, ← List.drop_drop, hm]
      rfl
    exact hdrop ▸ hread.2
  · exact absurd ((receive_of_over (hatt.terminated ht)).symm.trans h) nofun

/-- **The rest of the server** writes no file of this client, and sends its sessions object
chunks. -/
theorem Hosted.frame (hV : Hosted sha1 c fs disk V ends sent)
    (hdisk : ∀ k, Transferable c fs k → disk'.files (pathOf c k) = disk.files (pathOf c k))
    (hwritable : disk'.writable = disk.writable)
    (hread : ∀ t e, ends t = some e → e.read ≤ (sent t).length)
    (hsent : ∀ t, ∃ chunks : List ObjFileChunk, sent' t = sent t ++ chunks.map .objFileChunk
      ∧ (V.sessions t = none → chunks = [])) :
    Hosted sha1 c fs disk' V ends sent' :=
  { hV with
    available := fun k hk => (hdisk k (hV.transferable hk)).trans (hV.available k hk)
    attended := fun t x hx => by
      obtain ⟨e, he, hatt⟩ := hV.attended t x hx
      have hleaves : Leaves c V.files disk x V.files disk' :=
        ⟨fun _ _ => rfl, fun _ _ _ => rfl, fun k _ hk => hdisk k (hV.transferable hk), hwritable⟩
      refine ⟨e, he, hatt.engaged, (hatt.stage.frame hleaves).congr ?_, hatt.terminated⟩
      obtain ⟨chunks, hchunks, -⟩ := hsent t
      rw [hchunks, List.drop_append_of_le_length (hread t e he), control_append, control_chunks,
        List.append_nil]
    silent := fun t ht => by
      obtain ⟨chunks, hchunks, hnone⟩ := hsent t
      rw [hchunks, hnone ht, hV.silent t ht]
      rfl }

end DistBuild.Offload
