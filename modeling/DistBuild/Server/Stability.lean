import DistBuild.Server.Declarations
import DistBuild.Server.Uploaders

/-!
# Server/Stability — a finished upload stays as it is

    asked ──▸ unfinished transfer ──▸ judging ──▸ AVAILABLE, and no session is busy with the file

A session is *busy* with a file it was asked for until its transfer is over and judged.  If each
request finds nobody busy (`Disciplined`), at most one session is busy with a file, and none once it
is AVAILABLE; so neither its status nor its bytes change any more (`available_stays`), provided that
no other entry is of the same file (`Separate`).
-/

namespace DistBuild

variable (w : Str)

/-- The session was asked for `k`, and its upload is not over or not judged. -/
def Session.Busy (x : Session) (k : Str) : Prop :=
  k ∈ x.requested
    ∧ (¬ x.Finished (cnvtClientToServerPath w k) ∨ x.handling.judging = some k)

instance (x : Session) (k : Str) : Decidable (x.Busy w k) := by
  unfold Session.Busy
  infer_instance

namespace ClientView

/-- The live session `t` is busy with `k`. -/
abbrev BusyWith (V : ClientView) (t : SessionId) (k : Str) : Prop := V.Holds (Session.Busy w) t k

/-- As `AsksOnce`, with two conditions more: a chunk for a known file carries the id of its own
session, and a file found in FAULT has no other live session busy with it. -/
def Disciplined : ClientAction → ClientView → Prop
  | .start _ infos, _ => ∀ i ∈ namedFiles infos, SurvivesMapping w i.filename
  | .session sid .claim, V =>
    ∀ x ∈ V.sessions sid, ∀ u ∈ x.starting.claimed,
      ∀ v ∈ V.files (cnvtServerToClientPath w u.serverFilePath), v.fileStatus = .initial
  | .session sid (.scan _), V =>
    ∀ x ∈ V.sessions sid, ∀ k ∈ x.starting.next, ∀ v ∈ V.files k, v.fileStatus = .fault →
      ∀ t ∈ V.started, t ≠ sid → ¬ V.BusyWith w t k
  | .session sid (.receive msg), V =>
    ∀ x ∈ V.sessions sid, (V.files msg.filename).isSome →
      msg.sessionId = sid ∧ msg.filename ∈ x.requested
  | _, _ => True

instance Disciplined.decidable : ∀ a V, Decidable (Disciplined w a V)
  | .start _ infos, V => by
    unfold Disciplined
    infer_instance
  | .session sid .claim, V => by
    unfold Disciplined
    infer_instance
  | .session sid (.scan _), V => by
    unfold Disciplined
    infer_instance
  | .session sid (.receive msg), V => by
    unfold Disciplined
    infer_instance
  | .session _ .prepare, _ | .session _ .confirm, _ | .session _ .transfer, _
  | .session _ .measure, _ | .session _ .hash, _ | .session _ .copy, _ | .session _ .write, _
  | .session _ .notify, _ | .session _ .disconnect, _ | .sweepStart _ _, _ | .sweepChunk _ _, _
  | .terminate _, _ | .remove _, _ | .release _, _ => inferInstanceAs (Decidable True)

variable {w}

theorem BusyWith.of_asks {V : ClientView} {t : SessionId} {k : Str} (h : V.Asks w t k) :
    V.BusyWith w t k := by
  obtain ⟨hl, x, hx, hreq, hunf⟩ := h
  exact ⟨hl, x, hx, hreq, Or.inl hunf⟩

theorem Disciplined.asksOnce {a : ClientAction} {V : ClientView} (h : Disciplined w a V) :
    AsksOnce w a V := by
  cases a with
  | start sid infos => exact h
  | session sid a =>
    cases a with
    | claim => exact h
    | scan now =>
      exact fun x hx k hk v hv hf t ht hne ha => h x hx k hk v hv hf t ht hne (.of_asks ha)
    | receive msg => exact fun x hx _ hv => (h x hx hv).2
    | _ => trivial
  | _ => trivial

/-! ## The invariant -/

/-- What a handler has in hand: a file it was asked for, whose transfer is over; and AVAILABLE comes
last. -/
structure Judging (w : Str) (x : Session) : Prop where
  asked : ∀ k, x.handling.judging = some k →
    k ∈ x.requested ∧ x.Finished (cnvtClientToServerPath w k)
  last : FileStatus.available ∉ x.handling.marks.dropLast

/-- **The invariant**: nobody is busy with a file that is AVAILABLE. -/
structure Settling (w : Str) (V : ClientView) : Prop where
  orderly : Orderly w V
  judging : ∀ t x, V.sessions t = some x → Judging w x
  single : ∀ t t' k, V.BusyWith w t k → V.BusyWith w t' k → t = t'
  idle : ∀ k v, V.files k = some v → v.fileStatus = .available → ∀ t, ¬ V.BusyWith w t k

/-- A handler with no file in hand. -/
theorem Judging.move {x : Session} {k : Handling} (hj : k.judging = none) (hm : k.marks = []) :
    Judging w { x with handling := k } where
  asked k' hk := absurd (hj.symm.trans hk) nofun
  last := by
    show FileStatus.available ∉ k.marks.dropLast
    rw [hm]
    exact List.not_mem_nil

variable {sha1 : Str → Str}

theorem Settling.judging_session {V : ClientView} {sid : SessionId} {a : SessionAction}
    {x : Session} {disk : Disk} {e : Effect} (hg : Disciplined w (.session sid a) V)
    (hV : Settling w V) (hx : V.sessions sid = some x)
    (h : SessionStep sha1 w sid V.files disk x a e) : Judging w e.session where
  asked k hk := by
    rcases h.judging_cases hk with hk' | ⟨msg, path, -, hh, rfl, -, hfin⟩ |
      ⟨msg, v, rfl, hv, hid, -⟩
    · obtain ⟨hreq, hfin⟩ := (hV.judging sid x hx).asked k hk'
      exact ⟨h.requested_subset hreq, h.finished hfin⟩
    · obtain ⟨rfl, -⟩ := (hV.orderly.catalogued.keyed sid x hx).transferring msg path hh
      exact ⟨h.requested_subset ((hV.orderly.tidy sid x hx).transferring msg _ hh), hfin⟩
    · exact absurd (hg x hx (by rw [hv]; rfl)).1 hid
  last := h.available_last (hV.judging sid x hx).last

/-- **A session becomes busy only with a file nobody else is busy with**, and that is not
AVAILABLE. -/
theorem Settling.busy_session {V : ClientView} {sid : SessionId} {a : SessionAction}
    {x : Session} {disk : Disk} {e : Effect} (hg : Disciplined w (.session sid a) V)
    (hV : Settling w V) (hx : V.sessions sid = some x)
    (h : SessionStep sha1 w sid V.files disk x a e) {k : Str} (hk : e.session.Busy w k) :
    x.Busy w k ∨ (∀ t, t ≠ sid → ¬ V.BusyWith w t k)
      ∧ ∀ v, e.files k = some v → v.fileStatus ≠ .available := by
  have hkept : k ∈ x.requested → x.Busy w k := by
    refine fun hreq => ⟨hreq, ?_⟩
    rcases hk.2 with hunf | hj
    · exact Or.inl fun hfin => hunf (h.finished hfin)
    · rcases h.judging_cases hj with hj | ⟨msg, path, -, hh, rfl, hunf, -⟩ |
        ⟨msg, v, rfl, hv, hid, -⟩
      · exact Or.inr hj
      · obtain ⟨rfl, -⟩ := (hV.orderly.catalogued.keyed sid x hx).transferring msg path hh
        exact Or.inl hunf
      · exact absurd (hg x hx (by rw [hv]; rfl)).1 hid
  have hmem := hk.1
  rcases h.requested_cases with hr | ⟨u, todo, rfl, hst, hr⟩ |
    ⟨now, k', todo, v, rfl, hst, hv, hf, hr⟩
  · exact Or.inl (hkept (hr ▸ hmem))
  · rw [hr] at hmem
    rcases List.mem_append.mp hmem with hmem | hmem
    · exact Or.inl (hkept hmem)
    · obtain ⟨hup, k', v, hv, hsv, hp⟩ :=
        (hV.orderly.catalogued.keyed sid x hx).claimed u (by rw [hst]; rfl)
      obtain rfl : k = k' := (List.mem_singleton.mp hmem).trans (hp ▸ hsv)
      have hinit : v.fileStatus = .initial :=
        hg x hx u (by rw [hst]; rfl) v (by rw [hp]; exact hsv.symm ▸ hv)
      refine Or.inr ⟨?_, fun v' hv' => ?_⟩
      · rintro t - ⟨-, y, hy, hreq, -⟩
        obtain ⟨v', hv', hbegun⟩ := (hV.orderly.catalogued.keyed t y hy).asked k hreq
        obtain rfl := Option.some.inj (hv.symm.trans hv')
        exact hbegun hinit
      · rcases h.files_cases with hf | ⟨u', todo', -, hst', hf⟩ | ⟨_, _, _, _, ha, -⟩
        · rw [hf, hv] at hv'
          cases hv'
          rw [hinit]
          decide
        · obtain rfl : u = u' := by
            rw [hst] at hst'
            cases hst'
            rfl
          rw [hf, hp, show cnvtServerToClientPath w (cnvtClientToServerPath w k) = k from hsv,
            updateFileState_of_some hv, Function.update_self] at hv'
          cases hv'
          rw [hup]
          decide
        · cases ha
  · rw [hr] at hmem
    rcases List.mem_append.mp hmem with hmem | hmem
    · exact Or.inl (hkept hmem)
    · obtain ⟨hsv, hp⟩ := hV.orderly.catalogued.filed k' v hv
      obtain rfl : k = k' := (List.mem_singleton.mp hmem).trans (hp ▸ hsv)
      refine Or.inr ⟨fun t ht hbusy => ?_, fun v' hv' => ?_⟩
      · obtain ⟨y, hy, -⟩ := hbusy.2
        exact hg x hx k (by rw [hst]; rfl) v hv hf t
          (hV.orderly.catalogued.registered t y hy).started ht hbusy
      · have hfiles : e.files = V.files := by
          cases h
          rfl
        rw [hfiles, hv] at hv'
        cases hv'
        rw [hf]
        decide

/-- The handler is in its loop, so its session is live. -/
theorem live_of_handling {V : ClientView} {sid : SessionId} {x : Session}
    (hx : V.sessions sid = some x) (h : x.handling.holdsSelf = true) : V.Live sid :=
  ⟨x, hx, Or.inr h⟩

/-- A handler that judges a file is busy with it. -/
theorem Settling.busy_of_judging {V : ClientView} (hV : Settling w V) {sid : SessionId}
    {x : Session} (hx : V.sessions sid = some x) {k : Str} (hj : x.handling.judging = some k) :
    V.BusyWith w sid k := by
  refine ⟨live_of_handling hx ?_, x, hx, ((hV.judging sid x hx).asked k hj).1, Or.inr hj⟩
  cases hh : x.handling <;> rw [hh] at hj <;> first | rfl | cases hj

/-- **A file becomes AVAILABLE only when the one session that is busy with it is done.** -/
theorem Settling.idle_session {V : ClientView} {sid : SessionId} {a : SessionAction}
    {x : Session} {disk : Disk} {e : Effect} (hg : Disciplined w (.session sid a) V)
    (hV : Settling w V) (hx : V.sessions sid = some x)
    (h : SessionStep sha1 w sid V.files disk x a e) {V' : ClientView}
    (hs : V'.sessions = Function.update V.sessions sid (some e.session))
    (hlive : ∀ t, V'.Live t → V.Live t) {k : Str} {v : FileStateView} (hv : e.files k = some v)
    (hav : v.fileStatus = .available) (t : SessionId) : ¬ V'.BusyWith w t k := by
  intro hbusy
  have hsame : V.files k = some v → False := by
    intro hv₀
    rcases holds_update hs (hlive t) hbusy with ⟨-, hb⟩ | ⟨rfl, hl, hb⟩
    · exact hV.idle k v hv₀ hav t hb
    · rcases hV.busy_session hg hx h hb with hb | ⟨-, hnot⟩
      · exact hV.idle k v hv₀ hav t ⟨hl, x, hx, hb⟩
      · exact hnot v hv hav
  rcases h.files_cases with hf | ⟨u, todo, -, hst, hf⟩ | ⟨msg, u, marks, ok, rfl, hh, hf⟩
  · exact hsame (hf ▸ hv)
  · by_cases hk : k = cnvtServerToClientPath w u.serverFilePath
    · obtain ⟨hup, k', v', hv', hsv, hp⟩ :=
        (hV.orderly.catalogued.keyed sid x hx).claimed u (by rw [hst]; rfl)
      have hk' : k = k' := hk.trans (hp ▸ hsv)
      rw [hf, ← hk, updateFileState_of_some (hk' ▸ hv'), Function.update_self] at hv
      cases hv
      exact absurd (hup.symm.trans hav) nofun
    · exact hsame (by rwa [hf, updateFileState_of_ne _ _ hk] at hv)
  · by_cases hk : k = msg.filename
    · have hj : x.handling.judging = some k := by rw [hh, hk]; rfl
      obtain ⟨hreq, hfin⟩ := (hV.judging sid x hx).asked k hj
      obtain ⟨v₀, hv₀, -⟩ := (hV.orderly.catalogued.keyed sid x hx).asked k hreq
      rw [hf, ← hk, updateFileState_of_some hv₀, Function.update_self] at hv
      cases hv
      have hmarks : marks = [] := by
        cases marks with
        | nil => rfl
        | cons st marks =>
          refine absurd ?_ (hV.judging sid x hx).last
          rw [hh, Handling.marks, hav, List.dropLast_cons_cons]
          exact List.mem_cons_self
      rcases holds_update hs (hlive t) hbusy with ⟨hne, hb⟩ | ⟨rfl, -, hb⟩
      · exact hne (hV.single t sid k hb (hV.busy_of_judging hx hj))
      · rcases hb.2 with hunf | hj'
        · exact hunf (h.finished hfin)
        · cases h with
          | write h =>
            rw [hh] at h
            cases h
            subst hmarks
            unfold Session.marked at hj'
            cases ok <;> cases hj'
    · exact hsame (by rwa [hf, updateFileState_of_ne _ _ hk] at hv)

/-- Only the moves of a session's threads matter to nothing here. -/
theorem Settling.step_move {V V' : ClientView} {sid : SessionId} {x x' : Session}
    (hV : Settling w V) (ho : Orderly w V') (hx : V.sessions sid = some x)
    (hf : V'.files = V.files) (hs : V'.sessions = Function.update V.sessions sid (some x'))
    (hlive : ∀ t, V'.Live t → V.Live t) (hj : Judging w x') (hb : ∀ k, x'.Busy w k → x.Busy w k) :
    Settling w V' where
  orderly := ho
  judging := by
    rw [hs]
    exact forall_update hV.judging hj
  single := single_update hV.single hx hs hlive fun k hk => Or.inl (hb k hk)
  idle k v hv hav t hbusy := by
    rcases holds_update hs (hlive t) hbusy with ⟨-, hb'⟩ | ⟨rfl, hl, hb'⟩
    · exact hV.idle k v (hf ▸ hv) hav t hb'
    · exact hV.idle k v (hf ▸ hv) hav t ⟨hl, x, hx, hb k hb'⟩

/-- **Every step of a disciplined client keeps finished files idle.** -/
theorem Settling.step {disk : Disk} {V : ClientView} {a : ClientAction} {e : ViewEffect}
    (hg : Disciplined w a V) (h : Step sha1 w disk V a e) (hV : Settling w V) :
    Settling w e.view := by
  have ho := hV.orderly.step hg.asksOnce h
  have hlive : ∀ t, (∀ infos, a ≠ .start t infos) → e.view.Live t → V.Live t := by
    intro t ht hl
    rcases live_of_step h hV.orderly.catalogued.registered hl with hl | ⟨infos, ha, -⟩
    · exact hl
    · exact absurd ha (ht infos)
  cases h with
  | @start sid infos h =>
    have hback : ∀ t k, (V.addSession w sid infos).BusyWith w t k → V.BusyWith w t k := fun t k =>
      holds_addSession (fun hb => absurd hb.1 List.not_mem_nil) fun ht =>
        hlive t fun infos' ha => ht (by cases ha; rfl)
    refine ⟨ho, forall_update hV.judging ⟨nofun, List.not_mem_nil⟩,
      fun t t' k ht ht' => hV.single t t' k (hback t k ht) (hback t' k ht'),
      fun k v hv hav t hb => ?_⟩
    cases hk : V.files k with
    | some v₀ =>
      obtain rfl := Option.some.inj ((addFileStates_of_some _ hk).symm.trans hv)
      exact hV.idle k _ hk hav t (hback t k hb)
    | none =>
      obtain ⟨i, hi, rfl, rfl⟩ := addFileStates_of_none hk hv
      cases hav
  | @session sid a x e hx h =>
    refine ⟨ho, forall_update hV.judging (hV.judging_session hg hx h), ?_, fun k v hv hav t =>
      hV.idle_session hg hx h rfl (fun t => hlive t nofun) hv hav t⟩
    exact single_update hV.single hx rfl (fun t => hlive t nofun) fun k hk =>
      (hV.busy_session hg hx h hk).imp_right And.left
  | @sweepStart sid order x b new hx h hnew =>
    refine hV.step_move ho hx rfl rfl (fun t => hlive t nofun) ?_ fun k hk => hk
    exact ⟨(hV.judging sid x hx).asked, (hV.judging sid x hx).last⟩
  | @sweepChunk sid order x msg b new hx h hnew =>
    exact hV.step_move ho hx rfl rfl (fun t => hlive t nofun) (.move rfl rfl) fun k hk =>
      ⟨hk.1, hk.2.imp_right nofun⟩
  | @terminate sid x hx h =>
    exact hV.step_move ho hx rfl rfl (fun t => hlive t nofun) ⟨nofun, List.not_mem_nil⟩ fun k hk =>
      ⟨hk.1, hk.2.imp_right nofun⟩
  | @remove sid x hx h =>
    exact hV.step_move ho hx rfl rfl (fun t => hlive t nofun) (.move rfl rfl) fun k hk =>
      ⟨hk.1, hk.2.imp_right nofun⟩
  | @release sid x hx h =>
    exact hV.step_move ho hx rfl rfl (fun t => hlive t nofun) (.move rfl rfl) fun k hk =>
      ⟨hk.1, hk.2.imp_right nofun⟩

theorem settling_empty : Settling w .empty where
  orderly := orderly_empty
  judging := forall_sessions_empty
  single := by
    rintro t t' k ⟨-, y, hy, -⟩
    cases hy
  idle := nofun

/-! ## What a step leaves of a finished file -/

/-- The bytes of a finished file stay as they are, under every spelling of its path. -/
theorem Settling.bytes_session {V : ClientView} {sid : SessionId} {a : SessionAction}
    {x : Session} {disk : Disk} {e : Effect} (hV : Settling w V) (hsep : V.Separate)
    (hx : V.sessions sid = some x) (h : SessionStep sha1 w sid V.files disk x a e) {k : Str}
    {v : FileStateView} (hv : V.files k = some v) (hav : v.fileStatus = .available) {p : Str}
    (hp : SameFile p v.serverFilePath) : e.disk.files p = disk.files p := by
  cases h with
  | @transfer msg path h =>
    have hreq := (hV.orderly.tidy sid x hx).transferring msg path h
    obtain ⟨rfl, -⟩ := (hV.orderly.catalogued.keyed sid x hx).transferring msg path h
    by_cases hk : msg.filename = k
    · have hfin : x.Finished (cnvtClientToServerPath w msg.filename) := by
        by_contra hunf
        exact hV.idle k v hv hav sid
          ⟨live_of_handling hx (by rw [h]; rfl), x, hx, hk ▸ hreq, Or.inl (hk ▸ hunf)⟩
      obtain ⟨t, ht, hf⟩ := hfin
      rw [receiveChunk_of_finished ht hf]
    · obtain ⟨v', hv', -⟩ := (hV.orderly.catalogued.keyed sid x hx).asked _ hreq
      have hne : p ≠ cnvtClientToServerPath w msg.filename := by
        intro he
        rw [he, ← (hV.orderly.catalogued.filed _ v' hv').2] at hp
        exact hk (hsep _ v' k v hv' hv hp)
      exact (hV.orderly.catalogued.keyed sid x hx).streams.receiveChunk_files_of_ne sid msg disk hne
  | _ => rfl

/-- **Every step of a disciplined client leaves finished files as they are.** -/
theorem Settling.available_step {disk : Disk} {V : ClientView} {a : ClientAction} {e : ViewEffect}
    (hg : Disciplined w a V) (h : Step sha1 w disk V a e) (hV : Settling w V) (hsep : V.Separate)
    {k : Str} {v : FileStateView} (hv : V.files k = some v) (hav : v.fileStatus = .available) :
    e.view.files k = some v
      ∧ ∀ p, SameFile p v.serverFilePath → e.disk.files p = disk.files p := by
  cases h with
  | start h => exact ⟨addFileStates_of_some _ hv, fun _ _ => rfl⟩
  | @session sid a x e hx h =>
    refine ⟨?_, fun p hp => hV.bytes_session hsep hx h hv hav hp⟩
    show e.files k = some v
    rcases h.files_cases with hf | ⟨u, todo, rfl, hst, hf⟩ | ⟨msg, u, marks, ok, rfl, hh, hf⟩
    · rw [hf, hv]
    · rw [hf, updateFileState_of_ne, hv]
      rintro rfl
      exact absurd ((hg x hx u (by rw [hst]; rfl) v hv).symm.trans hav) nofun
    · rw [hf, updateFileState_of_ne, hv]
      rintro rfl
      exact hV.idle _ v hv hav sid (hV.busy_of_judging hx (by rw [hh]; rfl))
  | sweepStart hx h hnew => exact ⟨hv, fun _ _ => rfl⟩
  | sweepChunk hx h hnew => exact ⟨hv, fun _ _ => rfl⟩
  | terminate hx h => exact ⟨hv, fun _ _ => rfl⟩
  | remove hx h => exact ⟨hv, fun _ _ => rfl⟩
  | release hx h => exact ⟨hv, fun _ _ => rfl⟩

end ClientView

/-- **A finished upload stays as it is**: no step of a session of its client changes its entry or
its bytes, under whatever spelling of its path they are read, in every run in which each claim finds
its entry still INITIAL, a file in FAULT is asked for when nobody is busy with it, chunks carry the
id of their session and are for files it was asked for, and no two names the client declares lead to
one file. -/
theorem available_stays {sha1 : Str → Str} {c : ClientId} {n : ℕ} {disk : Disk} {as : List Action}
    {a : ClientAction} {s t : System}
    (hm : Meets (System.step sha1)
      (System.onClient c fun a _ => ClientView.Disciplined (workspaceOf c) a) (as ++ [.client c a])
      (System.initial n disk))
    (happart : Apart (workspaceOf c) (declaredNames c as))
    (hr : runFrom (System.step sha1) as (System.initial n disk) = some s)
    (hs : System.step sha1 (.client c a) s = some t) :
    ∀ k v, (s.views c).files k = some v → v.fileStatus = .available →
      (t.views c).files k = some v
        ∧ ∀ p, SameFile p v.serverFilePath → t.disk.files p = s.disk.files p := by
  obtain ⟨hm, hg⟩ := hm.split hr
  have hV : ClientView.Settling (workspaceOf c) (s.views c) :=
    System.view_invariant ClientView.settling_empty (fun _ _ _ _ hg h hV => hV.step hg h) hm hr
  have hsep : (s.views c).Separate := System.separate hr hV.orderly.catalogued happart
  obtain ⟨e, he, hview, hdisk, -⟩ := System.client_cases hs
  intro k v hv hav
  rw [hview, hdisk]
  exact hV.available_step (hg rfl) he hsep hv hav

/-! ### A second session, asked for nothing -/

/-- The upload is over, and a second session declares the same file. -/
def secondSession : List Action :=
  firstUpload ++ [.client (str "c") (.sweepChunk (str "s") [str "s"])]
    ++ startFile (str "c") (str "t") oneByte ++ onSession (str "c") (str "t") [.confirm]

/-- The file is AVAILABLE, with the byte `a` in it. -/
def StoredByte (s : System) : Prop :=
  ∃ v ∈ (s.views (str "c")).files (str "/a.c"), v.fileStatus = .available
    ∧ s.disk.files v.serverFilePath = some (str "a")

instance (s : System) : Decidable (StoredByte s) := by
  unfold StoredByte
  infer_instance

/-- Its sweep leaves the file as it is. -/
theorem secondSession_stays :
    ∃ s t, runFrom (System.step sampleSha1) secondSession (System.initial 1 .empty) = some s
      ∧ System.step sampleSha1 (.client (str "c") (.sweepStart (str "t") [str "t", str "s"])) s
        = some t
      ∧ StoredByte s ∧ StoredByte t := by
  have hrun : ((runFrom (System.step sampleSha1) secondSession (System.initial 1 .empty)).bind
      fun s => (System.step sampleSha1
        (.client (str "c") (.sweepStart (str "t") [str "t", str "s"])) s).map
        fun _ => decide (StoredByte s)) = some true := by
    decide +kernel
  obtain ⟨s, hr, hrest⟩ := Option.bind_eq_some_iff.mp hrun
  obtain ⟨t, hs, hstored⟩ := Option.map_eq_some_iff.mp hrest
  obtain ⟨v, hv, hav, hbytes⟩ := of_decide_eq_true hstored
  obtain ⟨hv', hbytes'⟩ := available_stays (c := str "c") (by decide +kernel) (by decide +kernel) hr
    hs _ v hv hav
  exact ⟨s, t, hr, hs, ⟨v, hv, hav, hbytes⟩, v, hv', hav, (hbytes' _ rfl).trans hbytes⟩

/-- It sends the byte `b` as a chunk of the file all the same. -/
def uninvited : List Action :=
  secondSession
    ++ onSession (str "c") (str "t") [.receive (wholeFile (str "t") (str "/a.c") (str "b"))]

/-- Which is written over the byte `a`, though every start declares the same file. -/
theorem uninvited_chunk_overwrites :
    ¬ ∀ as a s t, Meets (System.step sampleSha1)
        (System.onClient (str "c") fun a _ => ClientView.Redeclares (workspaceOf (str "c")) a)
        (as ++ [.client (str "c") a]) (System.initial 1 .empty) →
      runFrom (System.step sampleSha1) as (System.initial 1 .empty) = some s →
      System.step sampleSha1 (.client (str "c") a) s = some t → StoredByte s → StoredByte t := by
  intro h
  have hrun : ((runFrom (System.step sampleSha1) uninvited (System.initial 1 .empty)).bind
      fun s => (System.step sampleSha1
        (.client (str "c") (.session (str "t") .transfer)) s).map
        fun t => decide (StoredByte s ∧ ¬ StoredByte t)) = some true := by
    decide +kernel
  obtain ⟨s, hr, hrest⟩ := Option.bind_eq_some_iff.mp hrun
  obtain ⟨t, hs, hbad⟩ := Option.map_eq_some_iff.mp hrest
  obtain ⟨hstored, hlost⟩ := of_decide_eq_true hbad
  exact hlost (h uninvited (.session (str "t") .transfer) s t (by decide +kernel) hr hs hstored)

end DistBuild
