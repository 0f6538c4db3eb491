import DistBuild.Server.System

/-!
# Server/Scheduling — a session is enqueued exactly when it is ready

    prepare ─▸ … ─▸ sweepStart          the arguments are ready: add_session has yet to sweep
    write AVAILABLE ─▸ sweepChunk       the last file is there: its handler has yet to sweep

Either event may complete a session, its own or another's, and whoever brings it about sweeps after
it.  So a session that is ready and not enqueued is one that some thread is about to meet
(`Woken`), and where no thread is under way a ready session is enqueued, once its `add_session` has
returned (`Woken.flagged`).  The flag `isCompilerRunning`, set by the sweep that enqueues, keeps it
at one request.
-/

namespace DistBuild

/-! ## AVAILABLE comes before a sweep -/

/-- What `process_file_chunk` is going to return. -/
def Handling.ok : Handling → Bool
  | .copying _ _ ok | .writing _ _ _ ok => ok
  | _ => true

/-- `process_file_chunk` is in progress. -/
def Handling.processing : Handling → Bool
  | .notStarted | .receiving | .removing | .releasing | .ended => false
  | _ => true

/-- `add_session` is in progress. -/
def Starting.inProgress : Starting → Bool
  | .started => false
  | _ => true

/-- The handler is about to sweep. -/
def Handling.aboutToSweep : Handling → Bool
  | .sweeping _ => true
  | _ => false

/-- A handler that is going to set AVAILABLE does so last, and its call succeeds; a claim does not
set it. -/
structure Session.SweepsAfter (x : Session) : Prop where
  last : FileStatus.available ∉ x.handling.marks.dropLast
  ok : FileStatus.available ∈ x.handling.marks → x.handling.ok = true
  claimed : ∀ u ∈ x.starting.claimed, u.fileStatus ≠ .available

section SessionStep

variable {sha1 : Str → Str} {w : Str} {sid : SessionId} {files : FileTable} {disk : Disk}
  {x : Session} {a : SessionAction} {e : Effect}

theorem SessionStep.ok_of_available (h : SessionStep sha1 w sid files disk x a e)
    (hx : FileStatus.available ∈ x.handling.marks → x.handling.ok = true) :
    FileStatus.available ∈ e.session.handling.marks → e.session.handling.ok = true := by
  cases h with
  | scan h hv =>
    unfold Session.scan
    split <;> exact hx
  | receive h =>
    unfold Session.receive
    split
    · exact fun _ => rfl
    · split
      · exact fun h0 => by simp [Handling.marks] at h0
      · exact fun _ => rfl
  | transfer h =>
    simp only [Session.transferred]
    split
    · exact fun _ => rfl
    · exact fun _ => rfl
    · exact fun h0 => by simp [Handling.marks] at h0
    · exact fun _ => rfl
  | measure h hv =>
    unfold Session.measured
    split
    · exact fun _ => rfl
    · split
      · exact fun h0 => by simp [Handling.marks] at h0
      · exact fun _ => rfl
  | hash h hv =>
    unfold Session.hashed
    split <;> exact fun _ => rfl
  | copy h hv =>
    rw [h] at hx
    exact hx
  | write h =>
    rw [h] at hx
    unfold Session.marked
    split
    · exact fun h0 => hx (List.mem_cons_of_mem _ h0)
    · exact fun _ => rfl
    · exact fun _ => rfl
  | prepare h => exact hx
  | claim h => exact hx
  | confirm h => exact fun _ => rfl
  | notify h => exact fun _ => rfl
  | disconnect h => exact fun _ => rfl

theorem SessionStep.claimed_ne_available (h : SessionStep sha1 w sid files disk x a e)
    (hx : ∀ u ∈ x.starting.claimed, u.fileStatus ≠ .available) :
    ∀ u ∈ e.session.starting.claimed, u.fileStatus ≠ .available := by
  rcases h.starting_cases with hst | hst | ⟨_, _, -, hst⟩ | ⟨_, _, _, _, -, -, hst⟩ | ⟨_, _, -, hst⟩
    | hst <;> rw [hst]
  · exact hx
  · exact nofun
  · exact nofun
  · intro u hu
    cases hu
    exact nofun
  · exact nofun
  · exact nofun

theorem SessionStep.sweepsAfter (h : SessionStep sha1 w sid files disk x a e)
    (hx : x.SweepsAfter) : e.session.SweepsAfter where
  last := h.available_last hx.last
  ok := h.ok_of_available hx.ok
  claimed := h.claimed_ne_available hx.claimed

/-- **A file that becomes AVAILABLE is one whose handler sweeps next.** -/
theorem SessionStep.available_cases (h : SessionStep sha1 w sid files disk x a e)
    (hx : x.SweepsAfter) {k : Str} {v : FileStateView} (hv : e.files k = some v)
    (hav : v.fileStatus = .available) :
    (∃ v₀, files k = some v₀ ∧ v₀.fileStatus = .available)
      ∨ e.session.handling.aboutToSweep = true := by
  have hwritten : ∀ {f : Str} {u : FileStateView}, e.files = updateFileState files f u →
      u.fileStatus ≠ .available → ∃ v₀, files k = some v₀ ∧ v₀.fileStatus = .available := by
    intro f u hf hu
    rw [hf] at hv
    exact forall_updateFileState
      (P := fun k v => v.fileStatus = .available →
        ∃ v₀, files k = some v₀ ∧ v₀.fileStatus = .available)
      (fun _ v hv hav => ⟨v, hv, hav⟩) (fun _ _ hav => absurd hav hu) k v hv hav
  cases h with
  | claim h => exact Or.inl (hwritten rfl (hx.claimed _ (by rw [h]; rfl)))
  | @write msg u marks ok h =>
    by_cases hu : u.fileStatus = .available
    · refine Or.inr ?_
      obtain ⟨hlast, hok, -⟩ := hx
      rw [h] at hlast hok
      obtain rfl : ok = true := hok (hu ▸ List.mem_cons_self)
      cases marks with
      | nil => rfl
      | cons st marks => exact absurd (by simp [Handling.marks, hu]) hlast
    · exact Or.inl (hwritten rfl hu)
  | _ => exact Or.inl ⟨v, hv, hav⟩

/-- The arguments become ready in one section only. -/
theorem SessionStep.areArgsReady_cases (h : SessionStep sha1 w sid files disk x a e) :
    e.session.areArgsReady = x.areArgsReady ∨ e.session.starting ≠ .started := by
  cases h with
  | prepare h => exact Or.inr nofun
  | scan h hv =>
    unfold Session.scan
    split <;> exact Or.inr nofun
  | receive h =>
    unfold Session.receive
    split
    · exact Or.inl rfl
    · split <;> exact Or.inl rfl
  | measure h hv =>
    unfold Session.measured
    split
    · exact Or.inl rfl
    · split <;> exact Or.inl rfl
  | hash h hv =>
    unfold Session.hashed
    split <;> exact Or.inl rfl
  | write h =>
    unfold Session.marked
    split <;> exact Or.inl rfl
  | _ => exact Or.inl rfl

/-- A handler about to sweep stays so under the steps of its session. -/
theorem SessionStep.aboutToSweep (h : SessionStep sha1 w sid files disk x a e)
    (hu : x.starting.unconfirmed = true → x.handling = .notStarted)
    (hx : x.handling.aboutToSweep = true) : e.session.handling.aboutToSweep = true := by
  rcases h.threads with ⟨-, -, hh, -⟩ | ⟨-, hst, -⟩ | -
  · exact hh ▸ hx
  · rw [hu (by rw [hst]; rfl)] at hx
    cases hx
  · cases h with
    | prepare h => exact hx
    | scan h hv =>
      unfold Session.scan
      split <;> exact hx
    | claim h => exact hx
    | confirm h =>
      rw [hu (by rw [h]; rfl)] at hx
      cases hx
    | _ h =>
      rw [h] at hx
      cases hx

end SessionStep

namespace ClientView

/-! ## What a sweep enqueues -/

/-- What a sweep in the order `order` makes of the flags, where it enqueues `new`. -/
structure Sweeps (V V' : ClientView) (order new : List SessionId) : Prop where
  flags : ∀ t, V'.isCompilerRunning t = true ↔ V.isCompilerRunning t = true ∨ t ∈ new
  once : new.Nodup
  fresh : ∀ t ∈ new, V.isCompilerRunning t = false
  ready : ∀ t ∈ order, ∀ x, V.sessions t = some x → V.Ready x → V'.isCompilerRunning t = true

/-- Nothing is enqueued, and the flags stay. -/
theorem Sweeps.refl {V V' : ClientView} (h : V'.isCompilerRunning = V.isCompilerRunning) :
    Sweeps V V' [] [] :=
  ⟨fun t => by simp [h], List.nodup_nil, nofun, nofun⟩

/-- One session, then the others. -/
theorem Sweeps.cons {V V₁ V₂ : ClientView} {sid : SessionId} {order new new' : List SessionId}
    (h : Sweeps V V₁ [sid] new) (h' : Sweeps V₁ V₂ order new')
    (hsessions : V₁.sessions = V.sessions) (hfiles : V₁.files = V.files) :
    Sweeps V V₂ (sid :: order) (new ++ new') where
  flags t := by
    rw [h'.flags, h.flags, List.mem_append, or_assoc]
  once := by
    refine h.once.append h'.once fun t ht ht' => ?_
    exact absurd ((h.flags t).mpr (Or.inr ht)) (by rw [h'.fresh t ht']; nofun)
  fresh t ht := by
    rcases List.mem_append.mp ht with ht | ht
    · exact h.fresh t ht
    · refine Bool.eq_false_of_not_eq_true fun hf => ?_
      exact absurd ((h.flags t).mpr (Or.inl hf)) (by rw [h'.fresh t ht]; nofun)
  ready t ht x hx hr := by
    rcases List.mem_cons.mp ht with rfl | ht
    · exact (h'.flags t).mpr (Or.inl (h.ready t (List.mem_singleton_self t) x hx hr))
    · exact h'.ready t ht x (hsessions ▸ hx) ⟨hr.1, fun k hk => hfiles ▸ hr.2 k hk⟩

theorem tryRequestSrcCompilation_sweeps (V : ClientView) (sid : SessionId) :
    Sweeps V (V.tryRequestSrcCompilation sid).1 [sid] (V.tryRequestSrcCompilation sid).2 := by
  unfold tryRequestSrcCompilation
  cases hx : V.sessions sid with
  | none =>
    refine ⟨fun t => by simp, List.nodup_nil, nofun, fun t ht y hy => ?_⟩
    rw [List.mem_singleton.mp ht, hx] at hy
    cases hy
  | some x =>
    by_cases h : V.Ready x ∧ V.isCompilerRunning sid = false
    · simp only [if_pos h]
      refine ⟨fun t => ?_, List.nodup_singleton sid, fun t ht => ?_, fun t ht y hy hr => ?_⟩
      · by_cases ht : t = sid
        · simp [ht]
        · simp [ht]
      · exact List.mem_singleton.mp ht ▸ h.2
      · rw [List.mem_singleton.mp ht]
        exact Function.update_self ..
    · simp only [if_neg h]
      refine ⟨fun t => by simp, List.nodup_nil, nofun, fun t ht y hy hr => ?_⟩
      obtain rfl := List.mem_singleton.mp ht
      obtain rfl := Option.some.inj (hx.symm.trans hy)
      exact Bool.eq_true_of_not_eq_false fun hf => h ⟨hr, hf⟩

/-- **A sweep enqueues every session it meets that is ready**, once. -/
theorem tryCompileForActiveSessions_sweeps (V : ClientView) (order : List SessionId) :
    Sweeps V (V.tryCompileForActiveSessions order).1 order
      (V.tryCompileForActiveSessions order).2 := by
  induction order generalizing V with
  | nil => exact Sweeps.refl rfl
  | cons sid order ih =>
    obtain ⟨b, hb, -⟩ := tryCompileForActiveSessions_view V [sid]
    have hone : (V.tryRequestSrcCompilation sid).1 = { V with isCompilerRunning := b } := hb
    exact (V.tryRequestSrcCompilation_sweeps sid).cons (ih _) (by rw [hone]) (by rw [hone])

/-- After a sweep over all sessions, every one that is ready is flagged. -/
theorem ready_of_sweep {V : ClientView} {order : List SessionId} {t : SessionId} {x : Session}
    (ht : t ∈ (V.tryCompileForActiveSessions order).1.associatedSessions)
    (hx : (V.tryCompileForActiveSessions order).1.sessions t = some x)
    (hr : (V.tryCompileForActiveSessions order).1.Ready x)
    (hperm : order.Perm V.associatedSessions) :
    (V.tryCompileForActiveSessions order).1.isCompilerRunning t = true := by
  obtain ⟨b, hb, -⟩ := tryCompileForActiveSessions_view V order
  refine (tryCompileForActiveSessions_sweeps V order).ready t ?_ x ?_ ?_
  · rw [hb] at ht
    exact hperm.mem_iff.mpr ht
  · rw [hb] at hx
    exact hx
  · rw [hb] at hr
    exact hr

variable {sha1 : Str → Str} {w : Str}

/-- The step is a sweep. -/
def sweeping : ClientAction → Bool
  | .sweepStart _ _ | .sweepChunk _ _ => true
  | _ => false

/-- **What any step makes of the flags**, and what is ready after a sweep. -/
theorem step_sweeps {a : ClientAction} {disk : Disk} {V : ClientView} {e : ViewEffect}
    (h : step sha1 w a disk V = some e) :
    Sweeps V e.view [] e.enqueued ∧ (sweeping a = true →
      ∀ t ∈ e.view.associatedSessions, ∀ x, e.view.sessions t = some x → e.view.Ready x →
        e.view.isCompilerRunning t = true) := by
  have hfrom : ∀ {V' V'' : ClientView} {order new : List SessionId},
      Sweeps V' V'' order new → V'.isCompilerRunning = V.isCompilerRunning →
      Sweeps V V'' [] new := fun hs hV' =>
    ⟨fun t => hV' ▸ hs.flags t, hs.once, fun t ht => hV' ▸ hs.fresh t ht,
      fun _ ht => absurd ht List.not_mem_nil⟩
  cases a with
  | sweepStart sid order =>
    simp only [step, Option.bind_eq_bind, Option.bind_eq_some_iff] at h
    obtain ⟨x, hx, h⟩ := h
    split at h
    · split_ifs at h with hperm
      cases h
      exact ⟨hfrom (tryCompileForActiveSessions_sweeps ..) rfl,
        fun _ t ht y hy hr => ready_of_sweep ht hy hr hperm⟩
    · cases h
  | sweepChunk sid order =>
    simp only [step, Option.bind_eq_bind, Option.bind_eq_some_iff] at h
    obtain ⟨x, hx, h⟩ := h
    split at h
    · split_ifs at h with hperm
      cases h
      exact ⟨hfrom (tryCompileForActiveSessions_sweeps ..) rfl,
        fun _ t ht y hy hr => ready_of_sweep ht hy hr hperm⟩
    · cases h
  | start _ _ | session _ _ | terminate _ | remove _ | release _ =>
    cases step_cases h
    exact ⟨.refl rfl, fun hs => absurd hs Bool.false_ne_true⟩

/-! ## No missed wake-up -/

/-- Some thread is about to sweep. -/
def SweepAhead (V : ClientView) : Prop :=
  ∃ t x, V.sessions t = some x ∧ x.handling.aboutToSweep = true

/-- **The invariant**: a ready session is enqueued, or its own `add_session` or some handler is
about to meet it. -/
structure Woken (V : ClientView) : Prop where
  sweepsAfter : ∀ t x, V.sessions t = some x → x.SweepsAfter
  woken : ∀ t ∈ V.associatedSessions, ∀ x, V.sessions t = some x → V.Ready x →
    V.isCompilerRunning t = true ∨ x.starting ≠ .started ∨ V.SweepAhead

theorem woken_empty : Woken .empty where
  sweepsAfter := forall_sessions_empty
  woken _ ht := absurd ht List.not_mem_nil

/-- What a session waited for is still there if no file was made AVAILABLE. -/
theorem Ready.of_files {V V' : ClientView} {x x' : Session} (hr : V'.Ready x')
    (hargs : x'.areArgsReady = x.areArgsReady)
    (hreq : x'.requiredFilesState = x.requiredFilesState)
    (hfiles : ∀ k ∈ x.requiredFilesState, ∀ v ∈ V'.files k, v.fileStatus = .available →
      ∃ v₀ ∈ V.files k, v₀.fileStatus = .available) : V.Ready x := by
  refine ⟨hargs ▸ hr.1, fun k hk => ?_⟩
  obtain ⟨v, hv, hav⟩ := hr.2 k (hreq ▸ hk)
  exact hfiles k hk v hv hav

/-- **A step of one session keeps the invariant** if, of the files it makes AVAILABLE, its handler
tells by the sweep ahead. -/
theorem Woken.move {V V' : ClientView} (hV : Woken V) {sid : SessionId} {x x' : Session}
    (hx : V.sessions sid = some x) (hassoc : V'.associatedSessions ⊆ V.associatedSessions)
    (hsessions : V'.sessions = Function.update V.sessions sid (some x'))
    (hflags : V'.isCompilerRunning = V.isCompilerRunning) (hx' : x'.SweepsAfter)
    (hreq : x'.requiredFilesState = x.requiredFilesState)
    (hargs : x'.starting = .started →
      x'.areArgsReady = x.areArgsReady ∧ x.starting = .started)
    (hahead : x.handling.aboutToSweep = true → x'.handling.aboutToSweep = true)
    (hfiles : ∀ k v, V'.files k = some v → v.fileStatus = .available →
      (∃ v₀, V.files k = some v₀ ∧ v₀.fileStatus = .available)
        ∨ x'.handling.aboutToSweep = true) : Woken V' where
  sweepsAfter := by
    rw [hsessions]
    exact forall_update hV.sweepsAfter hx'
  woken t ht y hy hr := by
    by_cases hsweep : x'.handling.aboutToSweep = true
    · exact Or.inr (Or.inr ⟨sid, x', by rw [hsessions, Function.update_self], hsweep⟩)
    · have hold : ∀ k v, V'.files k = some v → v.fileStatus = .available →
          ∃ v₀ ∈ V.files k, v₀.fileStatus = .available :=
        fun k v hv hav => (hfiles k v hv hav).resolve_right hsweep
      have hkept : V.SweepAhead → V'.SweepAhead := by
        rintro ⟨t', z, hz, hz'⟩
        refine ⟨t', z, ?_, hz'⟩
        rw [hsessions, Function.update_of_ne, hz]
        rintro rfl
        exact hsweep (hahead (Option.some.inj (hx.symm.trans hz) ▸ hz'))
      rw [hflags]
      rw [hsessions] at hy
      rcases update_eq_some.mp hy with ⟨rfl, rfl⟩ | ⟨hts, hy⟩
      · by_cases hst : x'.starting = .started
        · have hrx : V.Ready x := hr.of_files (hargs hst).1 hreq fun k _ => hold k
          rcases hV.woken t (hassoc ht) x hx hrx with h | h | h
          · exact Or.inl h
          · exact absurd (hargs hst).2 h
          · exact Or.inr (Or.inr (hkept h))
        · exact Or.inr (Or.inl hst)
      · have hry : V.Ready y := hr.of_files rfl rfl fun k _ => hold k
        exact (hV.woken t (hassoc ht) y hy hry).imp_right (Or.imp_right hkept)

theorem Woken.step {disk : Disk} {V : ClientView} {a : ClientAction} {e : ViewEffect}
    (hs : ClientView.step sha1 w a disk V = some e) (hreg : Registered V) (hV : Woken V) :
    Woken e.view := by
  obtain ⟨-, hswept⟩ := step_sweeps hs
  cases step_cases hs with
  | @start sid infos hnew =>
    refine ⟨forall_update hV.sweepsAfter ⟨List.not_mem_nil, fun _ => rfl, nofun⟩,
      fun t ht y hy hr => ?_⟩
    by_cases hts : t = sid
    · subst hts
      rw [addSession_self] at hy
      obtain rfl := Option.some.inj hy
      exact Or.inr (Or.inl nofun)
    · rw [addSession_of_ne V w infos hts] at hy
      have hry : V.Ready y := hr.of_files rfl rfl fun k _ v hv hav => by
        cases hk : V.files k with
        | some v₀ =>
          obtain rfl := Option.some.inj ((addFileStates_of_some _ hk).symm.trans hv)
          exact ⟨v₀, rfl, hav⟩
        | none =>
          obtain ⟨i, -, -, rfl⟩ := addFileStates_of_none hk hv
          cases hav
      refine (hV.woken t ((List.mem_cons.mp ht).resolve_left hts) y hy hry).imp_right
        (Or.imp_right ?_)
      rintro ⟨t', z, hz, hz'⟩
      refine ⟨t', z, (addSession_of_ne V w infos ?_).trans hz, hz'⟩
      rintro rfl
      rw [hnew] at hz
      cases hz
  | @session sid a x e hx h =>
    have hstarted : e.session.starting = .started →
        e.session.areArgsReady = x.areArgsReady ∧ x.starting = .started := by
      intro hst
      refine ⟨h.areArgsReady_cases.resolve_right fun hne => hne hst, ?_⟩
      rcases h.threads with ⟨-, hu, -⟩ | ⟨-, -, -, -, he⟩ | ⟨-, hs, -⟩
      · rw [hst] at hu
        cases hu
      · rw [he] at hst
        cases hst
      · exact hs ▸ hst
    exact hV.move hx (List.Subset.refl _) rfl rfl (h.sweepsAfter (hV.sweepsAfter sid x hx))
      h.frame.2.1 hstarted (h.aboutToSweep (hreg sid x hx).unconfirmed)
      fun k v hv hav => h.available_cases (hV.sweepsAfter sid x hx) hv hav
  | @sweepStart sid order x b new hx h hnew =>
    obtain ⟨hlast, hok, -⟩ := hV.sweepsAfter sid x hx
    exact ⟨forall_update hV.sweepsAfter ⟨hlast, hok, nofun⟩,
      fun t ht y hy hr => Or.inl (hswept rfl t ht y hy hr)⟩
  | @sweepChunk sid order x msg b new hx h hnew =>
    exact ⟨forall_update hV.sweepsAfter ⟨List.not_mem_nil, fun _ => rfl,
        (hV.sweepsAfter sid x hx).claimed⟩,
      fun t ht y hy hr => Or.inl (hswept rfl t ht y hy hr)⟩
  | @remove sid x hx h =>
    exact hV.move hx List.erase_subset rfl rfl
      ⟨List.not_mem_nil, fun _ => rfl, (hV.sweepsAfter sid x hx).claimed⟩ rfl
      (fun hst => ⟨rfl, hst⟩) (fun h0 => by rw [h] at h0; cases h0)
      fun k v hv hav => Or.inl ⟨v, hv, hav⟩
  | @terminate sid x hx h | @release sid x hx h =>
    exact hV.move hx (List.Subset.refl _) rfl rfl
      ⟨List.not_mem_nil, fun _ => rfl, (hV.sweepsAfter sid x hx).claimed⟩ rfl
      (fun hst => ⟨rfl, hst⟩) (fun h0 => by rw [h] at h0; cases h0)
      fun k v hv hav => Or.inl ⟨v, hv, hav⟩

/-! ## Exactly when ready -/

/-- The arguments of the session are ready, and its files are all there. -/
def ReadyToCompile (V : ClientView) (sid : SessionId) : Prop := ∃ x ∈ V.sessions sid, V.Ready x

instance (V : ClientView) (sid : SessionId) : Decidable (V.ReadyToCompile sid) := by
  unfold ReadyToCompile
  infer_instance

/-- **Nobody waits for a wake-up that does not come**: where no `process_file_chunk` is in progress,
a ready session whose `add_session` has returned is flagged. -/
theorem Woken.flagged {V : ClientView} (hV : Woken V)
    (hidle : ∀ t x, V.sessions t = some x → x.handling.processing = false) {t : SessionId}
    (ht : t ∈ V.associatedSessions) {x : Session} (hx : V.sessions t = some x)
    (hst : x.starting = .started) (hr : V.Ready x) : V.isCompilerRunning t = true := by
  rcases hV.woken t ht x hx hr with h | h | ⟨t', y, hy, hsweep⟩
  · exact h
  · exact absurd hst h
  · have hproc := hidle t' y hy
    cases hk : y.handling with
    | sweeping msg => simp [Handling.processing, hk] at hproc
    | _ => simp [Handling.aboutToSweep, hk] at hsweep

/-- A sweep enqueues a session that was ready before it. -/
theorem Step.readyToCompile {disk : Disk} {V : ClientView} {a : ClientAction} {e : ViewEffect}
    (h : Step sha1 w disk V a e) {t : SessionId} (ht : t ∈ e.enqueued) : V.ReadyToCompile t := by
  have hmoved : ∀ {sid : SessionId} {x : Session} (x' : Session), V.sessions sid = some x →
      x'.areArgsReady = x.areArgsReady → x'.requiredFilesState = x.requiredFilesState →
      (∃ y, Function.update V.sessions sid (some x') t = some y ∧ V.Ready y) →
      V.ReadyToCompile t := by
    rintro sid x x' hx hargs hreq ⟨y, hy, hr⟩
    rcases update_eq_some.mp hy with ⟨rfl, rfl⟩ | ⟨-, hy⟩
    · exact ⟨x, hx, hr.of_files hargs hreq fun _ _ v hv hav => ⟨v, hv, hav⟩⟩
    · exact ⟨y, hy, hr⟩
  cases h with
  | @sweepStart sid order x b new hx h hnew =>
    exact hmoved { x with starting := .started } hx rfl rfl (hnew t ht).2.2
  | @sweepChunk sid order x msg b new hx h hnew =>
    exact hmoved { x with handling := .notifying msg } hx rfl rfl (hnew t ht).2.2
  | start _ => cases ht
  | session _ _ => cases ht
  | terminate _ _ => cases ht
  | remove _ _ => cases ht
  | release _ _ => cases ht

end ClientView

namespace System

variable {sha1 : Str → Str}

/-- The requests a step of a client puts into the queue are those its sweep enqueues. -/
theorem added_client {c : ClientId} {a : ClientAction} {s t : System}
    (h : step sha1 (.client c a) s = some t) :
    ∃ e, ClientView.step sha1 (workspaceOf c) a s.disk (s.views c) = some e
      ∧ t.views = Function.update s.views c e.view
      ∧ (added s t).map (·.requesterSession) = e.enqueued.map fun sid => (c, sid) := by
  obtain ⟨e, he, rfl⟩ := Option.map_eq_some_iff.mp h
  refine ⟨e, he, rfl, ?_⟩
  cases a with
  | terminate sid =>
    have hnone : e.enqueued = [] := by
      cases ClientView.step_cases he
      rfl
    simp [added, requeue, invalidateRequestsForSession, hnone]
  | _ => simp [added, requeue, Function.comp_def]

/-- What the requests of a run have to do with the flags in the state it ends in. -/
structure Scheduled (reqs : List CompilationRequest) (s : System) : Prop where
  registered : ∀ c, (s.views c).Registered
  woken : ∀ c, (s.views c).Woken
  once : (reqs.map (·.requesterSession)).Nodup
  flags : ∀ c sid, (c, sid) ∈ reqs.map (·.requesterSession)
    ↔ (s.views c).isCompilerRunning sid = true

theorem Scheduled.step {reqs : List CompilationRequest} {a : Action} {s t : System}
    (h : step sha1 a s = some t) (hs : Scheduled reqs s) : Scheduled (reqs ++ added s t) t := by
  cases a with
  | worker i a =>
    obtain ⟨k, -, hk⟩ := Option.bind_eq_some_iff.mp h
    obtain ⟨hviews, -⟩ := workerStep_views hk
    rw [workerStep_added hk, List.append_nil]
    exact ⟨hviews ▸ hs.registered, hviews ▸ hs.woken, hs.once, hviews ▸ hs.flags⟩
  | client c a =>
    obtain ⟨e, he, hviews, hadded⟩ := added_client h
    obtain ⟨⟨hflags, honce, hfresh, -⟩, -⟩ := ClientView.step_sweeps he
    have hview : ∀ {P : ClientView → Prop}, (∀ c, P (s.views c)) → P e.view →
        ∀ c, P (t.views c) := by
      intro P hP he c'
      rw [hviews]
      by_cases hc : c' = c
      · subst hc
        rwa [Function.update_self]
      · rw [Function.update_of_ne hc]
        exact hP c'
    refine ⟨hview hs.registered ((hs.registered c).step (ClientView.step_cases he)),
      hview hs.woken ((hs.woken c).step he (hs.registered c)), ?_, fun c' sid => ?_⟩
    · rw [List.map_append, hadded]
      refine hs.once.append (honce.map fun _ _ h => (Prod.mk.inj h).2) ?_
      intro r hr hr'
      obtain ⟨sid, hsid, rfl⟩ := List.mem_map.mp hr'
      exact absurd ((hs.flags c sid).mp hr) (by rw [hfresh sid hsid]; nofun)
    · rw [List.map_append, hadded, List.mem_append, hs.flags, hviews]
      by_cases hc : c' = c
      · subst hc
        rw [Function.update_self, hflags]
        simp
      · rw [Function.update_of_ne hc]
        simp [Ne.symm hc]

theorem scheduled_initial (n : ℕ) (disk : Disk) : Scheduled [] (initial n disk) where
  registered _ := ClientView.registered_empty
  woken _ := ClientView.woken_empty
  once := List.nodup_nil
  flags _ _ := by simp [initial, ClientView.empty]

end System

/-- The file of a session is there, and its threads have swept. -/
def uploadSwept : List Action :=
  firstUpload ++ [.client (str "c") (.sweepStart (str "s") [str "s"]),
      .client (str "c") (.sweepChunk (str "s") [str "s"])]
    ++ onSession (str "c") (str "s") [.notify]

end DistBuild
