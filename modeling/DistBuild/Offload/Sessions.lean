import DistBuild.Offload.Stages

/-!
# Offload/Sessions — one step of a session, and its stage

    add_session   opening ──────────────────────────────▸ confirmed
    the handler   sending ─▸ sending, judging ─▸ judged ─▸ acked

Each section of a session finds it at a stage where it is that section's turn, and leaves it at that
stage or the next; what it does to the files it shares with others is a `Touch`.
-/

namespace DistBuild.Offload

variable {sha1 : Str → Str} {c : ClientId} {fs : Str → Option Str} {sid : SessionId}
  {files : FileTable} {disk : Disk} {x : Session} {e : ClientEnd} {unread : List ServerMessage}

/-- What a step of the session `x` leaves: the files touched, the session engaged and at its stage,
and a file nobody has claimed still ahead of it. -/
structure Advances (sha1 : Str → Str) (c : ClientId) (fs : Str → Option Str) (sid : SessionId)
    (files : FileTable) (disk : Disk) (x : Session) (e : ClientEnd) (files' : FileTable)
    (disk' : Disk) (x' : Session) (unread' : List ServerMessage) : Prop where
  touch : Touch sha1 c fs files disk x files' disk' x'
  engaged : Engaged sha1 c fs files' x'
  stage : Stage sha1 c fs sid files' disk' x' e unread'
  pending : ∀ k, Has files' k .initial → k ∈ x.pending (workspaceOf c) →
    k ∈ x'.pending (workspaceOf c)

/-! ## Which stage a session is at -/

/-- Only the control messages matter to a stage. -/
theorem Stage.congr {unread' : List ServerMessage} (h : control unread' = control unread)
    (hs : Stage sha1 c fs sid files disk x e unread) :
    Stage sha1 c fs sid files disk x e unread' := by
  cases hs with
  | opening hphase hout hopen hin hup => exact .opening hphase hout hopen (h.trans hin) hup
  | confirmed hphase hout hopen hh hin hup htr =>
    exact .confirmed hphase hout hopen hh (h.trans hin) hup htr
  | sending hu hdone hf hin hp => exact .sending hu hdone hf (h.trans hin) hp
  | judging hu hdone hf hin hout hh hd => exact .judging hu hdone hf (h.trans hin) hout hh hd
  | judged hu hdone hin hout hh => exact .judged hu hdone (h.trans hin) hout hh
  | acked hu hdone hin hok hout hh => exact .acked hu hdone (h.trans hin) hok hout hh
  | idle hu hdone hin hout hh => exact .idle hu hdone (h.trans hin) hout hh
  | left hover hdone hout hfree => exact .left hover hdone hout hfree

/-- **Before the confirmation** nothing is under way, unless the client has left. -/
theorem Stage.of_unconfirmed (hs : Stage sha1 c fs sid files disk x e unread)
    (hu : x.starting.unconfirmed = true) :
    (e.phase = .connecting ∧ e.toServer = [] ∧ control unread = []
        ∧ ∀ k ∈ x.requested, Has files k .uploading)
      ∨ (e.Over ∧ (∀ k ∈ x.requiredFilesState, Has files k .available)
        ∧ (e.toServer = [] ∨ e.toServer = [.sessionAbort]) ∧ Free x.handling = true) := by
  cases hs with
  | opening hphase hout _ hin hup => exact Or.inl ⟨hphase, hout, hin, hup⟩
  | confirmed _ _ hopen => exact Bool.noConfusion (hu.symm.trans hopen)
  | sending hunder => exact Bool.noConfusion (hu.symm.trans hunder.confirmed)
  | judging hunder => exact Bool.noConfusion (hu.symm.trans hunder.confirmed)
  | judged hunder => exact Bool.noConfusion (hu.symm.trans hunder.confirmed)
  | acked hunder => exact Bool.noConfusion (hu.symm.trans hunder.confirmed)
  | idle hunder => exact Bool.noConfusion (hu.symm.trans hunder.confirmed)
  | left hover hdone hout hfree => exact Or.inr ⟨hover, hdone, hout, hfree⟩

/-- A step of `add_session` that stops in front of the confirmation leaves it so. -/
theorem Stage.starting {files' : FileTable} {x' : Session}
    (hs : Stage sha1 c fs sid files disk x e unread) (hu : x.starting.unconfirmed = true)
    (hu' : x'.starting.unconfirmed = true) (hh : x'.handling = x.handling)
    (hreq : x'.requiredFilesState = x.requiredFilesState)
    (hav : ∀ k, Has files k .available → Has files' k .available)
    (hasked : (∀ k ∈ x.requested, Has files k .uploading) →
      ∀ k ∈ x'.requested, Has files' k .uploading) :
    Stage sha1 c fs sid files' disk x' e unread := by
  rcases hs.of_unconfirmed hu with ⟨hphase, hout, hin, hup⟩ | ⟨hover, hdone, hout, hfree⟩
  · exact .opening hphase hout hu' hin (hasked hup)
  · exact .left hover (fun k hk => hav k (hdone k (hreq ▸ hk))) hout (hh ▸ hfree)

/-- After the confirmation the last step of `add_session` changes no stage. -/
theorem Stage.started {st : Starting} (hs : Stage sha1 c fs sid files disk x e unread)
    (hu : x.starting.unconfirmed = false) (hst : st.unconfirmed = false) :
    Stage sha1 c fs sid files disk { x with starting := st } e unread := by
  have hunder : ∀ {done rest}, Underway c sid files x e done rest →
      Underway c sid files { x with starting := st } e done rest :=
        fun h => { h with confirmed := hst }
  cases hs with
  | opening _ _ hopen => exact Bool.noConfusion (hu.symm.trans hopen)
  | confirmed hphase hout hopen hh hin hup htr => exact .confirmed hphase hout hst hh hin hup htr
  | sending hu hdone hf hin hp => exact .sending (hunder hu) hdone hf hin { hp with }
  | judging hu hdone hf hin hout hh hd => exact .judging (hunder hu) hdone hf hin hout hh hd
  | judged hu hdone hin hout hh => exact .judged (hunder hu) hdone hin hout hh
  | acked hu hdone hin hok hout hh => exact .acked (hunder hu) hdone hin hok hout hh
  | idle hu hdone hin hout hh => exact .idle (hunder hu) hdone hin hout hh
  | left hover hdone hout hfree => exact .left hover hdone hout hfree

/-- **A handler with a chunk in hand** is at the stage that sends it. -/
theorem Stage.of_transferring {m : FileChunk} {p : Str}
    (hs : Stage sha1 c fs sid files disk x e unread) (hh : x.handling = .transferring m p)
    (hns : x.starting.unconfirmed = true → x.handling = .notStarted) :
    p = pathOf c m.filename ∧ ∃ done rest pre post,
      Underway c sid files x e (done ++ [m.filename]) rest
        ∧ (∀ k ∈ done, Has files k .available) ∧ Has files m.filename .uploading
        ∧ control unread = [] ∧ Passing c fs sid disk x e m.filename pre post := by
  have hne : x.handling ≠ .receiving := by rw [hh]; exact nofun
  cases hs with
  | opening _ _ hopen => exact absurd (hh.symm.trans (hns hopen)) nofun
  | confirmed _ _ _ h => exact absurd h hne
  | @sending done f rest pre post hu hdone hf hin hp =>
    obtain ⟨m', hm'⟩ := hp.handling.resolve_left hne
    obtain ⟨rfl, rfl⟩ := Handling.transferring.inj (hh.symm.trans hm')
    obtain ⟨unsent, -, hstream⟩ := hp.stream
    obtain ⟨b, post', rfl⟩ := List.exists_cons_of_ne_nil hp.more
    rw [hh, inHand_transferring, List.singleton_append, chunkMessages] at hstream
    obtain rfl : m.filename = f := by rw [(List.cons.inj hstream).1]
    exact ⟨rfl, done, rest, pre, _, hu, hdone, hf, hin, hp⟩
  | judging _ _ _ _ _ h =>
    rw [hh] at h
    exact h.elim
  | judged _ _ _ _ h => exact absurd h (by rw [hh]; rintro (h | h) <;> cases h)
  | acked _ _ _ _ _ h => exact absurd h hne
  | idle _ _ _ _ h => exact absurd h hne
  | left _ _ _ hfree =>
    rw [hh] at hfree
    exact Bool.noConfusion hfree

/-- **A handler that judges a file** is at the stage for it. -/
theorem Stage.of_judging {f : Str} (hs : Stage sha1 c fs sid files disk x e unread)
    (hj : x.handling.judging = some f)
    (hns : x.starting.unconfirmed = true → x.handling = .notStarted) :
    ∃ done rest, Underway c sid files x e (done ++ [f]) rest
      ∧ (∀ k ∈ done, Has files k .available) ∧ Has files f .uploading ∧ control unread = []
      ∧ e.toServer = [] ∧ Judges sha1 c fs f x.handling ∧ disk.files (pathOf c f) = fs f := by
  have hne : x.handling ≠ .receiving := fun h => by
    rw [h] at hj
    exact absurd hj nofun
  have hbusy : Free x.handling = false := by
    cases hh : x.handling with
    | measuring | hashing | copying | writing => rfl
    | _ =>
      rw [hh] at hj
      exact absurd hj nofun
  cases hs with
  | opening _ _ hopen =>
    rw [hns hopen] at hj
    exact absurd hj nofun
  | confirmed _ _ _ h => exact absurd h hne
  | sending _ _ _ _ hp =>
    obtain ⟨m, hm⟩ := hp.handling.resolve_left hne
    rw [hm] at hj
    exact absurd hj nofun
  | @judging done g rest hu hdone hf hin hout h hd =>
    obtain rfl : g = f := by
      cases hh : x.handling with
      | measuring | hashing | copying | writing =>
        rw [hh] at h hj
        exact h.1.symm.trans (Option.some.inj hj)
      | _ =>
        rw [hh] at h
        exact h.elim
    exact ⟨done, rest, hu, hdone, hf, hin, hout, h, hd⟩
  | judged _ _ _ _ h =>
    rcases h with h | h <;> rw [h] at hj <;> exact absurd hj nofun
  | acked _ _ _ _ _ h => exact absurd h hne
  | idle _ _ _ _ h => exact absurd h hne
  | left _ _ _ hfree => exact Bool.noConfusion (hfree.symm.trans hbusy)

/-- A handler past its verdict is at the stage for it, or its client has left. -/
theorem Stage.of_judged {m : FileChunk} (hs : Stage sha1 c fs sid files disk x e unread)
    (hh : x.handling = .sweeping m ∨ x.handling = .notifying m)
    (hns : x.starting.unconfirmed = true → x.handling = .notStarted) :
    (∃ done rest, Underway c sid files x e done rest ∧ (∀ k ∈ done, Has files k .available)
        ∧ control unread = [] ∧ e.toServer = [])
      ∨ (e.Over ∧ (∀ k ∈ x.requiredFilesState, Has files k .available)
        ∧ (e.toServer = [] ∨ e.toServer = [.sessionAbort])) := by
  have hne : ∀ k : Handling, k ≠ .sweeping m → k ≠ .notifying m → x.handling ≠ k := by
    rintro k h₁ h₂ rfl
    exact hh.elim h₁ h₂
  cases hs with
  | opening _ _ hopen => exact absurd (hns hopen) (hne _ nofun nofun)
  | confirmed _ _ _ h => exact absurd h (hne _ nofun nofun)
  | sending _ _ _ _ hp =>
    rcases hp.handling with h | ⟨m', h⟩
    · exact absurd h (hne _ nofun nofun)
    · exact absurd h (hne _ nofun nofun)
  | judging _ _ _ _ _ h =>
    rcases hh with hh | hh <;> rw [hh] at h <;> exact h.elim
  | judged hu hdone hin hout _ => exact Or.inl ⟨_, _, hu, hdone, hin, hout⟩
  | acked _ _ _ _ _ h => exact absurd h (hne _ nofun nofun)
  | idle _ _ _ _ h => exact absurd h (hne _ nofun nofun)
  | left hover hdone hout _ => exact Or.inr ⟨hover, hdone, hout⟩

/-- **Once the client has left** the rest is the handler's: where it is does not matter. -/
theorem Stage.of_leaving (hs : Stage sha1 c fs sid files disk x e unread)
    (hh : x.handling = .removing ∨ x.handling = .releasing)
    (hns : x.starting.unconfirmed = true → x.handling = .notStarted) :
    e.Over ∧ (∀ k ∈ x.requiredFilesState, Has files k .available)
      ∧ (e.toServer = [] ∨ e.toServer = [.sessionAbort]) := by
  have hne : ∀ k : Handling, k ≠ .removing → k ≠ .releasing → x.handling ≠ k := by
    rintro k h₁ h₂ rfl
    exact hh.elim h₁ h₂
  cases hs with
  | opening _ _ hopen => exact absurd (hns hopen) (hne _ nofun nofun)
  | confirmed _ _ _ h => exact absurd h (hne _ nofun nofun)
  | sending _ _ _ _ hp =>
    rcases hp.handling with h | ⟨m', h⟩
    · exact absurd h (hne _ nofun nofun)
    · exact absurd h (hne _ nofun nofun)
  | judging _ _ _ _ _ h =>
    rcases hh with hh | hh <;> rw [hh] at h <;> exact h.elim
  | judged _ _ _ _ h =>
    rcases h with h | h
    · exact absurd h (hne _ nofun nofun)
    · exact absurd h (hne _ nofun nofun)
  | acked _ _ _ _ _ h => exact absurd h (hne _ nofun nofun)
  | idle _ _ _ _ h => exact absurd h (hne _ nofun nofun)
  | left hover hdone hout _ => exact ⟨hover, hdone, hout⟩

/-! ## The steps of `add_session` -/

/-- The table, and what the sessions of the client have to do with it. -/
structure Tabled (sha1 : Str → Str) (c : ClientId) (fs : Str → Option Str) (files : FileTable)
    (x : Session) : Prop where
  described : ∀ k v, files k = some v → Describes sha1 c fs k v ∧ v.fileStatus ≠ .fault
  unasked : ∀ k, Has files k .initial → k ∉ x.requested
  unstarted : x.starting.unconfirmed = true → x.handling = .notStarted

/-- A handler that is past its confirmation has one behind it. -/
theorem Tabled.confirmed (hf : Tabled sha1 c fs files x) (h : x.handling ≠ .notStarted) :
    x.starting.unconfirmed = false :=
  Bool.eq_false_of_not_eq_true fun hu => h (hf.unstarted hu)

/-- A step of `add_session` that claims nothing. -/
theorem Advances.opening {x' : Session} (he : Engaged sha1 c fs files x)
    (hs : Stage sha1 c fs sid files disk x e unread) (hu : x.starting.unconfirmed = true)
    (hu' : x'.starting.unconfirmed = true) (hh : x'.handling = x.handling)
    (htr : x'.transfers = x.transfers) (hreq : x'.requiredFilesState = x.requiredFilesState)
    (hasked : x'.requested = x.requested)
    (hpending : ∀ k ∈ x'.pending (workspaceOf c), k ∈ x.requiredFilesState)
    (hclaimed : ∀ u ∈ x'.starting.claimed, u.fileStatus = .uploading
      ∧ ∃ k, Describes sha1 c fs k u)
    (hprepared : x'.areArgsReady = true)
    (hahead : ∀ k, Has files k .initial → k ∈ x.pending (workspaceOf c) →
      k ∈ x'.pending (workspaceOf c)) :
    Advances sha1 c fs sid files disk x e files disk x' unread where
  touch := .nothing hasked
  engaged :=
    { nodup := hasked ▸ he.nodup
      asked := by rw [hasked, hreq]; exact he.asked
      known := by rw [hreq]; exact he.known
      pending := by rw [hreq]; exact hpending
      claimed := hclaimed
      fresh := fun _ => htr ▸ he.fresh hu
      prepared := fun _ => hprepared }
  stage := hs.starting hu hu' hh hreq (fun _ h => h) fun h => by rw [hasked]; exact h
  pending := hahead

theorem advances_prepare (he : Engaged sha1 c fs files x)
    (hs : Stage sha1 c fs sid files disk x e unread) (h : x.starting = .preparing) :
    Advances sha1 c fs sid files disk x e files disk
      { x with areArgsReady := true, starting := .scanning x.requiredFilesState } unread :=
  .opening he hs (by rw [h]; rfl) rfl rfl rfl rfl rfl (fun _ hk => hk) nofun rfl fun k _ hk => by
    rwa [Session.pending, h] at hk

theorem advances_scan (hf : Tabled sha1 c fs files x) (he : Engaged sha1 c fs files x)
    (hs : Stage sha1 c fs sid files disk x e unread) {now : UInt64} {k : Str} {todo : List Str}
    {v : FileStateView} (h : x.starting = .scanning (k :: todo)) (hv : files k = some v) :
    Advances sha1 c fs sid files disk x e files disk
      (x.scan (workspaceOf c) now v todo) unread := by
  obtain ⟨hdesc, hfault⟩ := hf.described k v hv
  have hu : x.starting.unconfirmed = true := by rw [h]; rfl
  have hpend : x.pending (workspaceOf c) = k :: todo := by rw [Session.pending, h]
  have hsub : ∀ j ∈ k :: todo, j ∈ x.requiredFilesState := hpend ▸ he.pending
  have hready : x.areArgsReady = true := he.prepared (by simp [h])
  have hskip : v.fileStatus ≠ .initial → Advances sha1 c fs sid files disk x e files disk
      { x with starting := .scanning todo } unread := by
    refine fun hst => .opening he hs hu rfl rfl rfl rfl rfl
      (fun j hj => hsub j (List.mem_cons_of_mem k hj))
      (fun u hu => absurd hu (Option.not_mem_none u)) hready fun j hj hmem => ?_
    rw [hpend] at hmem
    refine (List.mem_cons.mp hmem).resolve_left ?_
    rintro rfl
    obtain ⟨v', hv', hst'⟩ := hj
    obtain rfl := Option.some.inj (hv.symm.trans hv')
    exact hst hst'
  unfold Session.scan
  split
  · have hclaim := hdesc.of_status .uploading now
    have hnow : ({ x with starting := .claiming { v with
        fileStatus := .uploading, upStartTime := now } todo } : Session).pending (workspaceOf c)
        = k :: todo := congrArg (· :: todo) hclaim.cnvt
    refine .opening he hs hu rfl rfl rfl rfl rfl (hnow ▸ hsub) ?_ hready fun j _ hj => ?_
    · rintro u ⟨⟩
      exact ⟨rfl, k, hclaim⟩
    · rw [hnow]
      exact hpend ▸ hj
  · exact hskip (by simp [*])
  · exact hskip (by simp [*])
  · exact absurd ‹_› hfault

theorem advances_claim (hf : Tabled sha1 c fs files x) (he : Engaged sha1 c fs files x)
    (hs : Stage sha1 c fs sid files disk x e unread) {u : FileStateView} {todo : List Str}
    (h : x.starting = .claiming u todo)
    (hg : ∀ v ∈ files (cnvtServerToClientPath (workspaceOf c) u.serverFilePath),
      v.fileStatus = .initial) :
    Advances sha1 c fs sid files disk x e
      (updateFileState files (cnvtServerToClientPath (workspaceOf c) u.serverFilePath) u) disk
      (x.claim (workspaceOf c) u todo) unread := by
  obtain ⟨hup, k, hdesc⟩ := he.claimed u (by rw [h]; rfl)
  have hu : x.starting.unconfirmed = true := by rw [h]; rfl
  have hpend : x.pending (workspaceOf c) = k :: todo := by
    rw [Session.pending, h]
    exact congrArg (· :: todo) hdesc.cnvt
  have hsub : ∀ j ∈ k :: todo, j ∈ x.requiredFilesState := hpend ▸ he.pending
  have hk : k ∈ x.requiredFilesState := hsub k List.mem_cons_self
  rw [hdesc.cnvt] at hg
  obtain ⟨v, hv⟩ := he.known k hk
  have hini : Has files k .initial := ⟨v, hv, hg v hv⟩
  have hnot : k ∉ x.requested := hf.unasked k hini
  rw [hdesc.cnvt, updateFileState_of_some hv, Session.claim, hdesc.cnvt]
  have hkept : ∀ {j st}, st ≠ .initial → Has files j st →
      Has (Function.update files k (some u)) j st := by
    intro j st hne hj
    refine hj.of_eq (Function.update_of_ne ?_ ..)
    rintro rfl
    exact hne (hj.unique hini)
  exact
    { touch := .claims hini hdesc hup hk rfl
      engaged :=
        { nodup := he.nodup.append (List.nodup_singleton k) fun j hj hj' =>
            hnot (List.mem_singleton.mp hj' ▸ hj)
          asked := fun j hj => (List.mem_append.mp hj).elim (he.asked j) fun hj =>
            List.mem_singleton.mp hj ▸ hk
          known := fun j hj => by
            obtain ⟨v', hv'⟩ := he.known j hj
            exact known_update hv'
          pending := fun j hj => hsub j (List.mem_cons_of_mem k hj)
          claimed := fun v hv => absurd hv (Option.not_mem_none v)
          fresh := fun _ => he.fresh hu
          prepared := fun _ => he.prepared (by simp [h]) }
      stage := by
        refine hs.starting hu rfl rfl rfl (fun _ => hkept (by decide)) fun hasked j hj => ?_
        rcases List.mem_append.mp hj with hj | hj
        · exact hkept (by decide) (hasked j hj)
        · rw [List.mem_singleton.mp hj, ← hup]
          exact has_update
      pending := fun j hj hmem => by
        rw [hpend] at hmem
        refine (List.mem_cons.mp hmem).resolve_left ?_
        rintro rfl
        exact FileStatus.noConfusion (hup.symm.trans (has_update.unique hj)) }

theorem advances_confirm (he : Engaged sha1 c fs files x)
    (hs : Stage sha1 c fs sid files disk x e unread) (h : x.starting = .scanning []) :
    Advances sha1 c fs sid files disk x e files disk
      { x with starting := .sweeping, handling := .receiving }
      (unread ++ [.sessionConfirmed sid x.requested]) := by
  have hu : x.starting.unconfirmed = true := by rw [h]; rfl
  refine ⟨.nothing rfl, ?_, ?_, fun k _ hk => ?_⟩
  · exact { he with
      pending := nofun
      claimed := nofun
      fresh := nofun
      prepared := fun _ => he.prepared (by rw [h]; exact nofun) }
  · rcases hs.of_unconfirmed hu with ⟨hphase, hout, hin, hup⟩ | ⟨hover, hdone, hout, -⟩
    · exact .confirmed hphase hout rfl rfl (by rw [control_append, hin]; rfl) hup
        fun k _ => he.fresh hu _
    · exact .left hover hdone hout rfl
  · rw [Session.pending, h] at hk
    exact absurd hk List.not_mem_nil

/-! ## The steps of the handler -/

/-- A step of the handler that changes no file. -/
theorem Advances.handler {x' : Session} {disk' : Disk} {unread' : List ServerMessage}
    (he : Engaged sha1 c fs files x) (hst : x'.starting = x.starting)
    (hargs : x'.areArgsReady = x.areArgsReady)
    (hreq : x'.requiredFilesState = x.requiredFilesState) (hasked : x'.requested = x.requested)
    (hu : x.starting.unconfirmed = false)
    (htouch : Touch sha1 c fs files disk x files disk' x')
    (hs : Stage sha1 c fs sid files disk' x' e unread') :
    Advances sha1 c fs sid files disk x e files disk' x' unread' where
  touch := htouch
  engaged :=
    { nodup := hasked ▸ he.nodup
      asked := by rw [hasked, hreq]; exact he.asked
      known := by rw [hreq]; exact he.known
      pending := by
        unfold Session.pending
        rw [hst, hreq]
        exact he.pending
      claimed := hst ▸ he.claimed
      fresh := fun h => absurd (hst ▸ h) (by rw [hu]; exact nofun)
      prepared := by
        rw [hst, hargs]
        exact he.prepared }
  stage := hs
  pending := fun k _ hk => by
    unfold Session.pending
    rwa [hst, hreq]

/-- The step moves the handler, and nothing else. -/
theorem Advances.moves {k : Handling} {unread' : List ServerMessage}
    (he : Engaged sha1 c fs files x) (hu : x.starting.unconfirmed = false)
    (hs : Stage sha1 c fs sid files disk { x with handling := k } e unread') :
    Advances sha1 c fs sid files disk x e files disk { x with handling := k } unread' :=
  .handler he rfl rfl rfl rfl hu (.nothing rfl) hs

theorem Underway.moves {done rest : List Str} (h : Underway c sid files x e done rest)
    (k : Handling) : Underway c sid files { x with handling := k } e done rest := { h with }

/-- The file under way is none of those to come. -/
theorem Underway.ne {done rest : List Str} {f k : Str}
    (h : Underway c sid files x e (done ++ [f]) rest) (hd : x.requested.Nodup) (hk : k ∈ rest) :
    k ≠ f := by
  rintro rfl
  rw [h.requested, List.nodup_append] at hd
  exact hd.2.2 k (by simp) k hk rfl

/-- **A client that sends** is sending a file, or has left. -/
theorem Stage.of_toServer (hs : Stage sha1 c fs sid files disk x e unread) (hne : e.toServer ≠ []) :
    (∃ done f rest pre post, Underway c sid files x e (done ++ [f]) rest
        ∧ (∀ k ∈ done, Has files k .available) ∧ Has files f .uploading ∧ control unread = []
        ∧ Passing c fs sid disk x e f pre post)
      ∨ (e.Over ∧ (∀ k ∈ x.requiredFilesState, Has files k .available)
        ∧ e.toServer = [.sessionAbort]) := by
  cases hs with
  | sending hunder hdone hf hin hp => exact Or.inl ⟨_, _, _, _, _, hunder, hdone, hf, hin, hp⟩
  | left hover hdone hout _ => exact Or.inr ⟨hover, hdone, hout.resolve_left hne⟩
  | opening _ h => exact absurd h hne
  | confirmed _ h => exact absurd h hne
  | judging _ _ _ _ h => exact absurd h hne
  | judged _ _ _ h => exact absurd h hne
  | acked _ _ _ _ h => exact absurd h hne
  | idle _ _ _ h => exact absurd h hne

/-- **The handler takes the next chunk.** -/
theorem Stage.receive {m : FileChunk} {ms : List ClientMessage}
    (hf : Tabled sha1 c fs files x) (he : Engaged sha1 c fs files x)
    (hs : Stage sha1 c fs sid files disk x e unread) (hout : e.toServer = .fileChunkUpload m :: ms)
    (h : x.handling = .receiving) :
    (files m.filename).isSome = true
      ∧ Advances sha1 c fs sid files disk x { e with toServer := ms } files disk
          (x.receive sid m (files m.filename)) unread := by
  rcases hs.of_toServer (hout ▸ List.cons_ne_nil _ _) with
    ⟨done, f, rest, pre, post, hunder, hdone, hup, hin, hp⟩ | ⟨-, -, habort⟩
  · obtain ⟨unsent, hunsent, hstream⟩ := hp.stream
    obtain ⟨b, post', rfl⟩ := List.exists_cons_of_ne_nil hp.more
    rw [hout] at hunsent
    cases unsent with
    | nil => exact absurd hunsent (List.cons_ne_nil _ _)
    | cons m' unsent =>
      obtain ⟨hm, rfl⟩ := List.cons.inj hunsent
      obtain rfl : m = m' := ClientMessage.fileChunkUpload.inj hm
      have hhead := hstream
      rw [h, inHand_receiving, List.nil_append, chunkMessages] at hhead
      have hmsg := (List.cons.inj hhead).1
      obtain rfl : m.filename = f := by rw [hmsg]
      have hid : m.sessionId = sid := by rw [hmsg]
      obtain ⟨v, hv, -⟩ := id hup
      have hx : x.receive sid m (files m.filename)
          = { x with handling := .transferring m (pathOf c m.filename) } := by
        rw [hv, Session.receive, if_neg (by simp [hid]), (hf.described _ v hv).1.path]
      refine ⟨by rw [hv]; rfl, hx ▸ .moves he hunder.confirmed ?_⟩
      refine .sending { hunder with } hdone hup hin { hp with
        handling := Or.inr ⟨m, rfl⟩
        stream := ⟨unsent, rfl, ?_⟩ }
      rw [h, inHand_receiving, List.nil_append] at hstream
      exact hstream
  · rw [hout] at habort
    exact ClientMessage.noConfusion (List.cons.inj habort).1

/-- The client's abort: it has left, and so has everything it was waiting for. -/
theorem Stage.terminate {ms : List ClientMessage} (hs : Stage sha1 c fs sid files disk x e unread)
    (hout : e.toServer = .sessionAbort :: ms) :
    e.Over ∧ Stage sha1 c fs sid files disk
      { x with terminated := true, handling := .removing } { e with toServer := ms } unread := by
  rcases hs.of_toServer (hout ▸ List.cons_ne_nil _ _) with
    ⟨_, _, _, _, _, _, _, _, _, hp⟩ | ⟨hover, hdone, habort⟩
  · obtain ⟨unsent, hunsent, -⟩ := hp.stream
    rw [hout] at hunsent
    cases unsent with
    | nil => exact absurd hunsent (List.cons_ne_nil _ _)
    | cons m unsent => exact ClientMessage.noConfusion (List.cons.inj hunsent).1
  · rw [hout] at habort
    exact ⟨hover, .left hover hdone (Or.inl (List.cons.inj habort).2) rfl⟩

/-- The chunk in the hand of the handler is the next one of the file, and the others follow it. -/
theorem Passing.head {m : FileChunk} {p f b : Str} {pre post : List Str}
    (hp : Passing c fs sid disk x e f pre (b :: post)) (h : x.handling = .transferring m p) :
    m = nextChunk sid f pre b ∧ ∃ unsent, e.toServer = unsent.map .fileChunkUpload
      ∧ unsent = chunkMessages sid f (UInt64.ofNat ((pre ++ [b]).length + 1))
          (UInt64.ofNat (pre ++ [b]).flatten.length) post := by
  obtain ⟨unsent, hout, hstream⟩ := hp.stream
  rw [h, inHand_transferring, List.singleton_append, chunkMessages] at hstream
  obtain ⟨hm, hrest⟩ := List.cons.inj hstream
  refine ⟨hm, unsent, hout, ?_⟩
  rw [hrest]
  simp [UInt64.ofNat_add]

/-- A chunk that is not short is as long as those before it. -/
theorem Passing.full_append {f b : Str} {pre post : List Str}
    (hp : Passing c fs sid disk x e f pre (b :: post)) (hb : ¬ b.length < chunkSize) :
    ∀ g ∈ pre ++ [b], g.length = chunkSize := by
  intro g hg
  rcases List.mem_append.mp hg with hg | hg
  · exact hp.full g hg
  · rw [List.mem_singleton.mp hg]
    obtain ⟨content, -, hblocks⟩ := hp.blocks
    have hle : b.length ≤ chunkSize :=
      length_le_of_mem_fileBlocks (hblocks ▸ by simp : b ∈ fileBlocks content)
    omega

/-- **A full chunk is stored**, and the next one awaited. -/
theorem Passing.stored {m : FileChunk} {p f b : Str} {pre post : List Str} {d : Disk}
    {ts : Transfers} (hp : Passing c fs sid disk x e f pre (b :: post))
    (h : x.handling = .transferring m p) (hb : ¬ b.length < chunkSize) (hmore : post ≠ [])
    (hwritable : d.writable = disk.writable)
    (hnext : ∀ files, Receiving sid ⟨files, d, ts⟩ (pathOf c f) (pre ++ [b])) :
    Passing c fs sid d { x with transfers := ts, handling := .receiving } e f
      (pre ++ [b]) post where
  handling := Or.inl rfl
  stream := by
    obtain ⟨-, unsent, hout, hunsent⟩ := hp.head h
    refine ⟨unsent, hout, ?_⟩
    rw [inHand_receiving, List.nil_append, hunsent]
  blocks := by
    obtain ⟨content, hc, hblocks⟩ := hp.blocks
    exact ⟨content, hc, by rw [hblocks]; simp⟩
  full := hp.full_append hb
  more := hmore
  writable := by rw [hwritable, hp.writable]
  receiving := hnext

/-- A session whose transfer of the file `f` has moved on is where it was with the files to come. -/
theorem Underway.transferred {done rest : List Str} {f : Str} (hf : Tabled sha1 c fs files x)
    (h : Underway c sid files x e (done ++ [f]) rest) (hd : x.requested.Nodup)
    (hup : Has files f .uploading) (t : FileTransferState) (k : Handling) :
    Underway c sid files { x with
      transfers := Function.update x.transfers (pathOf c f) (some t), handling := k } e
      (done ++ [f]) rest :=
  { h with
    unopened := fun g hg => by
      obtain ⟨v, hv, -⟩ := h.waiting g hg
      obtain ⟨v', hv', -⟩ := hup
      have hne : pathOf c g ≠ pathOf c f := pathOf_ne (hf.described g v hv).1.transferable
        (hf.described f v' hv').1.transferable (h.ne hd hg)
      exact (Function.update_of_ne hne ..).trans (h.unopened g hg) }

/-- **The handler stores a chunk**: the next one is awaited, or the file is complete and judged; a
file whose end is marked does not end with a full chunk. -/
theorem advances_transfer (hf : Tabled sha1 c fs files x) (he : Engaged sha1 c fs files x)
    (hs : Stage sha1 c fs sid files disk x e unread) {m : FileChunk} {p : Str}
    (h : x.handling = .transferring m p) :
    Advances sha1 c fs sid files disk x e files (receiveChunk sid p m disk x.transfers).disk
      (x.transferred m p (receiveChunk sid p m disk x.transfers)) unread := by
  obtain ⟨rfl, done, rest, pre, post, hunder, hdone, hup, hin, hp⟩ :=
    hs.of_transferring h hf.unstarted
  set f := m.filename
  obtain ⟨b, post, rfl⟩ := List.exists_cons_of_ne_nil hp.more
  obtain ⟨hm, unsent, hout, hunsent⟩ := hp.head h
  obtain ⟨content, hc, hblocks⟩ := hp.blocks
  obtain ⟨v, hv, -⟩ := id hup
  obtain ⟨content', hc', hshort, hlen, -⟩ := (hf.described f v hv).1.content
  obtain rfl : content' = content := Option.some.inj (hc'.symm.trans hc)
  have hflat : (pre ++ b :: post).flatten = content' := hblocks ▸ flatten_fileBlocks content'
  obtain ⟨d, t, hd, hw, hoff, hnext, hr⟩ := (hp.receiving files).receiveChunk (f := f) b
  rw [← hm] at hr
  dsimp only at hr hoff hw hd
  rw [received_of_writable hp.writable] at hd
  have htouch : ∀ x' : Session, x'.requested = x.requested →
      Touch sha1 c fs files disk x files d x' :=
    fun x' hx' => .stores hunder.mem hup hoff hw hx'
  by_cases hb : b.length < chunkSize
  · obtain ⟨rfl, -⟩ := fileBlocks_short hblocks hb
    rw [if_pos hb] at hr
    rw [hr]
    have hmoved := hunder.transferred hf he.nodup hup t.finish (.measuring m (pathOf c f))
    refine .handler he rfl rfl rfl rfl hunder.confirmed (htouch _ rfl)
      (.judging hmoved hdone hup hin ?_ ⟨rfl, rfl⟩ (hd.trans (by rw [hflat, hc'])))
    rw [hout, hunsent]
    rfl
  · have hmore : post ≠ [] := by
      rintro rfl
      exact not_endsShort_of_full (fun g hg => hp.full_append hb g (hblocks ▸ hg)) hshort
    have hle : (pre ++ [b]).flatten.length < 2 ^ 64 := by
      refine lt_of_le_of_lt ?_ hlen
      rw [← hflat]
      simp
    rw [if_neg hb] at hr
    rw [hr]
    exact .handler he rfl rfl rfl rfl hunder.confirmed (htouch _ rfl)
      (.sending (hunder.transferred hf he.nodup hup t .receiving) hdone hup hin
        (hp.stored h hb hmore hw (hnext hle)))

/-- The completed file has the declared size. -/
theorem advances_measure (hf : Tabled sha1 c fs files x) (he : Engaged sha1 c fs files x)
    (hs : Stage sha1 c fs sid files disk x e unread) {m : FileChunk} {p : Str} {v : FileStateView}
    (h : x.handling = .measuring m p) (hv : files m.filename = some v) :
    Advances sha1 c fs sid files disk x e files disk (x.measured m p v (disk.files p)) unread := by
  obtain ⟨done, rest, hunder, hdone, hup, hin, hout, hj, hd⟩ :=
    hs.of_judging (f := m.filename) (by rw [h]; rfl) hf.unstarted
  rw [h] at hj
  obtain ⟨-, rfl⟩ := hj
  obtain ⟨content, hc, -, -, hsize, -⟩ := (hf.described _ v hv).1.content
  have hx : x.measured m (pathOf c m.filename) v (disk.files (pathOf c m.filename))
      = { x with handling := .hashing m (pathOf c m.filename) } := by
    rw [hd, hc, Session.measured, if_neg (by simp [hsize])]
  rw [hx]
  exact .moves he hunder.confirmed
    (.judging (hunder.moves _) hdone hup hin hout ⟨rfl, rfl⟩ hd)

/-- The completed file has the declared digest. -/
theorem advances_hash (hf : Tabled sha1 c fs files x) (he : Engaged sha1 c fs files x)
    (hs : Stage sha1 c fs sid files disk x e unread) {m : FileChunk} {p : Str} {v : FileStateView}
    (h : x.handling = .hashing m p) (hv : files m.filename = some v) :
    Advances sha1 c fs sid files disk x e files disk (x.hashed sha1 m v (disk.files p)) unread := by
  obtain ⟨done, rest, hunder, hdone, hup, hin, hout, hj, hd⟩ :=
    hs.of_judging (f := m.filename) (by rw [h]; rfl) hf.unstarted
  rw [h] at hj
  obtain ⟨-, rfl⟩ := hj
  obtain ⟨content, hc, -, -, -, hsha⟩ := (hf.described _ v hv).1.content
  have hx : x.hashed sha1 m v (disk.files (pathOf c m.filename))
      = { x with handling := .copying m [.available] true } := by
    rw [hd, hc, Session.hashed, generateFileSha1, if_neg (by simp [hsha])]
  rw [hx]
  exact .moves he hunder.confirmed
    (.judging (hunder.moves _) hdone hup hin hout ⟨rfl, rfl, rfl⟩ hd)

theorem advances_copy (hf : Tabled sha1 c fs files x) (he : Engaged sha1 c fs files x)
    (hs : Stage sha1 c fs sid files disk x e unread) {m : FileChunk} {st : FileStatus}
    {marks : List FileStatus} {ok : Bool} {v : FileStateView}
    (h : x.handling = .copying m (st :: marks) ok) (hv : files m.filename = some v) :
    Advances sha1 c fs sid files disk x e files disk
      { x with handling := .writing m { v with fileStatus := st } marks ok } unread := by
  obtain ⟨done, rest, hunder, hdone, hup, hin, hout, hj, hd⟩ :=
    hs.of_judging (f := m.filename) (by rw [h]; rfl) hf.unstarted
  rw [h] at hj
  obtain ⟨-, hmarks, rfl⟩ := hj
  obtain ⟨rfl, rfl⟩ := List.cons.inj hmarks
  exact .moves he hunder.confirmed (.judging (hunder.moves _) hdone hup hin hout
    ⟨rfl, (hf.described _ v hv).1.of_status .available v.upStartTime, rfl, rfl, rfl⟩ hd)

/-- **The file becomes AVAILABLE.** -/
theorem advances_write (hf : Tabled sha1 c fs files x) (he : Engaged sha1 c fs files x)
    (hs : Stage sha1 c fs sid files disk x e unread) {m : FileChunk} {u : FileStateView}
    {marks : List FileStatus} {ok : Bool} (h : x.handling = .writing m u marks ok) :
    answer sid (ok || !marks.isEmpty) = []
      ∧ Advances sha1 c fs sid files disk x e (updateFileState files m.filename u) disk
          (x.marked m marks ok) unread := by
  obtain ⟨done, rest, hunder, hdone, hup, hin, hout, hj, hd⟩ :=
    hs.of_judging (f := m.filename) (by rw [h]; rfl) hf.unstarted
  rw [h] at hj
  obtain ⟨-, hu, hst, rfl, rfl⟩ := hj
  obtain ⟨v, hv, hvst⟩ := id hup
  rw [updateFileState_of_some hv]
  have hkept : ∀ {k st}, k ≠ m.filename → Has files k st →
      Has (Function.update files m.filename (some u)) k st :=
    fun hne hk => hk.of_eq (Function.update_of_ne hne ..)
  have hwaiting : ∀ k ∈ rest, k ≠ m.filename := fun k hk => hunder.ne he.nodup hk
  refine ⟨rfl, .completes hunder.mem hup hu hst hd rfl, ?_, ?_, fun _ _ hk => hk⟩
  · exact { he with
      known := fun k hk => by
        obtain ⟨v', hv'⟩ := he.known k hk
        exact known_update hv' }
  · have hmoved : Underway c sid (Function.update files m.filename (some u))
        (x.marked m [] true) e (done ++ [m.filename]) rest :=
      { hunder with waiting := fun k hk => hkept (hwaiting k hk) (hunder.waiting k hk) }
    refine .judged hmoved (fun k hk => ?_) hin hout (Or.inl rfl)
    by_cases hkm : k = m.filename
    · rw [hkm, ← hst]
      exact has_update
    · refine hkept hkm (hdone k ?_)
      simpa [hkm] using hk

/-- The completed file is acknowledged, whether or not the client still waits for that. -/
theorem advances_notify (hf : Tabled sha1 c fs files x) (he : Engaged sha1 c fs files x)
    (hs : Stage sha1 c fs sid files disk x e unread) {m : FileChunk}
    (h : x.handling = .notifying m) :
    Advances sha1 c fs sid files disk x e files disk { x with handling := .receiving }
      (unread ++ [.fileUpComplete (fileUpComplete sid m)]) := by
  refine .moves he (hf.confirmed (by rw [h]; exact nofun)) ?_
  rcases hs.of_judged (Or.inr h) hf.unstarted with ⟨done, rest, hunder, hdone, hin, hout⟩
    | ⟨hover, hdone, hout⟩
  · exact .acked (hunder.moves _) hdone (by rw [control_append, hin]; rfl) ⟨rfl, rfl⟩ hout rfl
  · exact .left hover hdone hout rfl

/-! ## Any step -/

/-- **A section of a session takes it from its stage to the next**, if the file it claims is
INITIAL. -/
theorem session_advances {a : SessionAction} {E : Effect} (hf : Tabled sha1 c fs files x)
    (he : Engaged sha1 c fs files x) (hs : Stage sha1 c fs sid files disk x e unread)
    (h : SessionStep sha1 (workspaceOf c) sid files disk x a E) (hrecv : ∀ m, a ≠ .receive m)
    (hdisc : a ≠ .disconnect)
    (hg : a = .claim → ∀ u ∈ x.starting.claimed,
      ∀ v ∈ files (cnvtServerToClientPath (workspaceOf c) u.serverFilePath),
        v.fileStatus = .initial) :
    Advances sha1 c fs sid files disk x e E.files E.disk E.session (unread ++ E.sent) := by
  cases h with
  | prepare h =>
    rw [List.append_nil]
    exact advances_prepare he hs h
  | scan h hv =>
    rw [List.append_nil]
    exact advances_scan hf he hs h hv
  | claim h =>
    rw [List.append_nil]
    exact advances_claim hf he hs h (hg rfl _ (by rw [h]; rfl))
  | confirm h => exact advances_confirm he hs h
  | @receive m h => exact absurd rfl (hrecv m)
  | transfer h =>
    rw [List.append_nil]
    exact advances_transfer hf he hs h
  | measure h hv =>
    rw [List.append_nil]
    exact advances_measure hf he hs h hv
  | hash h hv =>
    rw [List.append_nil]
    exact advances_hash hf he hs h hv
  | copy h hv =>
    rw [List.append_nil]
    exact advances_copy hf he hs h hv
  | write h =>
    obtain ⟨hsent, hadv⟩ := advances_write hf he hs h
    rw [hsent, List.append_nil]
    exact hadv
  | notify h => exact advances_notify hf he hs h
  | disconnect h => exact absurd rfl hdisc

/-- `add_session` sweeps, and returns. -/
theorem advances_sweepStart (he : Engaged sha1 c fs files x)
    (hs : Stage sha1 c fs sid files disk x e unread) (h : x.starting = .sweeping) :
    Advances sha1 c fs sid files disk x e files disk { x with starting := .started } unread where
  touch := .nothing rfl
  engaged :=
    { he with
      pending := nofun
      claimed := nofun
      fresh := nofun
      prepared := fun _ => he.prepared (by rw [h]; exact nofun) }
  stage := hs.started (by rw [h]; rfl) rfl
  pending := fun k _ hk => by
    rw [Session.pending, h] at hk
    exact absurd hk List.not_mem_nil

/-- The handler sweeps. -/
theorem advances_sweepChunk (hf : Tabled sha1 c fs files x) (he : Engaged sha1 c fs files x)
    (hs : Stage sha1 c fs sid files disk x e unread) {m : FileChunk}
    (h : x.handling = .sweeping m) :
    Advances sha1 c fs sid files disk x e files disk
      { x with handling := .notifying m } unread := by
  refine .moves he (hf.confirmed (by rw [h]; exact nofun)) ?_
  rcases hs.of_judged (Or.inl h) hf.unstarted with ⟨done, rest, hunder, hdone, hin, hout⟩
    | ⟨hover, hdone, hout⟩
  · exact .judged (hunder.moves _) hdone hin hout (Or.inr rfl)
  · exact .left hover hdone hout rfl

/-- The handler takes a session that its client has left out of the list, and lets it go. -/
theorem advances_leave (hf : Tabled sha1 c fs files x) (he : Engaged sha1 c fs files x)
    (hs : Stage sha1 c fs sid files disk x e unread)
    (h : x.handling = .removing ∨ x.handling = .releasing) {k : Handling} (hk : Free k = true) :
    Advances sha1 c fs sid files disk x e files disk { x with handling := k } unread := by
  obtain ⟨hover, hdone, hout⟩ := hs.of_leaving h hf.unstarted
  refine .moves he (hf.confirmed ?_) (.left hover hdone hout hk)
  rcases h with h | h <;> rw [h] <;> exact nofun

end DistBuild.Offload
