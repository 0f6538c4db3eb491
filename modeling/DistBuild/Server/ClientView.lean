import DistBuild.Server.Session

/-!
# Server/ClientView — the sessions of one client around their shared file table

    start ─▸ (steps of the session) ─▸ sweepStart        the thread of add_session
    (steps of the session), sweepChunk, terminate ─▸ remove ─▸ release        the handler

Every action is one mutex section, and any enabled action may come next.  A sweep
(`try_compile_for_active_sessions`) holds the client view's mutex throughout, so it is one action;
the order in which it meets the sessions is that of a hash map, hence part of the label.

A session that has left `associatedSessions` stays in `sessions`: its handler may still hold it.
-/

namespace DistBuild

/-! ## Declaring files -/

/-- `unordered_map::try_emplace`: a key that is taken keeps its value. -/
def tryEmplace (files : FileTable) (clientPath : Str) (v : FileStateView) : FileTable :=
  match files clientPath with
  | some _ => files
  | none => Function.update files clientPath (some v)

/-- `ClientView::add_file_state`; the entry it returns is the one at `clientPath`. -/
def addFileState (currentWorkingDir : Str) (files : FileTable) (clientPath : Str)
    (fileSzBytes : UInt64) (fileSha1 : Str) : FileTable :=
  let added := tryEmplace files clientPath
    (.new fileSzBytes fileSha1 (cnvtClientToServerPath currentWorkingDir clientPath))
  match files clientPath with
  | some v => if v.fileSha1 = fileSha1 ∧ v.fileSzBytes = fileSzBytes then files else added
  | none => added

/-- The declared files `add_session` looks at: a file without a name is skipped. -/
def namedFiles (infos : List FileInfo) : List FileInfo := infos.filter fun i => i.filename ≠ []

/-- The entries of the declared files. -/
def addFileStates (currentWorkingDir : Str) (files : FileTable) (infos : List FileInfo) :
    FileTable :=
  infos.foldl
    (fun fs i => addFileState currentWorkingDir fs i.filename i.filesize i.filehash) files

/-- What `add_file_state` does, both ways: a known file keeps its entry, whatever is declared. -/
theorem addFileState_of_some {w : Str} {files : FileTable} {f : Str} {v : FileStateView}
    (h : files f = some v) (sz : UInt64) (sha : Str) : addFileState w files f sz sha = files := by
  simp [addFileState, tryEmplace, h]

theorem addFileState_of_none {w : Str} {files : FileTable} {f : Str} (h : files f = none)
    (sz : UInt64) (sha : Str) :
    addFileState w files f sz sha
      = Function.update files f (some (.new sz sha (cnvtClientToServerPath w f))) := by
  simp [addFileState, tryEmplace, h]

/-- **Declaring files keeps every entry there is.** -/
theorem addFileStates_of_some {w : Str} {files : FileTable} {f : Str} {v : FileStateView}
    (infos : List FileInfo) (h : files f = some v) : addFileStates w files infos f = some v := by
  induction infos generalizing files with
  | nil => exact h
  | cons i infos ih =>
    refine ih (show addFileState w files i.filename i.filesize i.filehash f = some v from ?_)
    cases hi : files i.filename with
    | some _ => rwa [addFileState_of_some hi]
    | none =>
      rw [addFileState_of_none hi]
      by_cases hf : f = i.filename
      · rw [hf, hi] at h
        cases h
      · rwa [Function.update_of_ne hf]

/-- An entry that was not there is a fresh one, for one of the declarations. -/
theorem addFileStates_of_none {w : Str} {files : FileTable} {f : Str} {v : FileStateView}
    {infos : List FileInfo} (h : files f = none) (hv : addFileStates w files infos f = some v) :
    ∃ i ∈ infos, i.filename = f
      ∧ v = .new i.filesize i.filehash (cnvtClientToServerPath w f) := by
  induction infos generalizing files with
  | nil => simp [addFileStates, h] at hv
  | cons i infos ih =>
    by_cases hf : f = i.filename
    · subst hf
      have hadd : addFileState w files i.filename i.filesize i.filehash i.filename
          = some (.new i.filesize i.filehash (cnvtClientToServerPath w i.filename)) := by
        rw [addFileState_of_none h, Function.update_self]
      rw [addFileStates, List.foldl_cons] at hv
      have hkept := (addFileStates_of_some infos hadd).symm.trans hv
      exact ⟨i, List.mem_cons_self, rfl, (Option.some.inj hkept).symm⟩
    · have hadd : addFileState w files i.filename i.filesize i.filehash f = none := by
        cases hi : files i.filename with
        | some _ => rwa [addFileState_of_some hi]
        | none => rwa [addFileState_of_none hi, Function.update_of_ne hf]
      rw [addFileStates, List.foldl_cons] at hv
      obtain ⟨j, hj, h'⟩ := ih hadd hv
      exact ⟨j, List.mem_cons_of_mem _ hj, h'⟩

/-- Every declared file has an entry. -/
theorem addFileStates_isSome {w : Str} {files : FileTable} {infos : List FileInfo} {i : FileInfo}
    (hi : i ∈ infos) : ∃ v, addFileStates w files infos i.filename = some v := by
  induction infos generalizing files with
  | nil => cases hi
  | cons j infos ih =>
    rcases List.mem_cons.mp hi with rfl | hi
    · have hadd : ∃ v, addFileState w files i.filename i.filesize i.filehash i.filename
          = some v := by
        cases hf : files i.filename with
        | some v => exact ⟨v, by rw [addFileState_of_some hf, hf]⟩
        | none => exact ⟨_, by rw [addFileState_of_none hf, Function.update_self]⟩
      obtain ⟨v, hv⟩ := hadd
      exact ⟨v, addFileStates_of_some infos hv⟩
    · exact ih hi

/-! ## The client view -/

/-- `ClientView`.  `sessions` holds every session there has been, `started` their ids, and
`isCompilerRunning` the flag of that name of each. -/
structure ClientView where
  files : FileTable
  associatedSessions : List SessionId
  sessions : SessionId → Option Session
  started : List SessionId
  isCompilerRunning : SessionId → Bool

inductive ClientAction
  | start (sessionUuid : SessionId) (infos : List FileInfo)
  | session (sessionUuid : SessionId) (a : SessionAction)
  | sweepStart (sessionUuid : SessionId) (order : List SessionId)
  | sweepChunk (sessionUuid : SessionId) (order : List SessionId)
  | terminate (sessionUuid : SessionId)
  | remove (sessionUuid : SessionId)
  | release (sessionUuid : SessionId)

/-- What a step leaves of the client view and the disk, what its session sends, and the sessions for
which it enqueues a compilation. -/
structure ViewEffect where
  view : ClientView
  disk : Disk
  sent : List ServerMessage
  enqueued : List SessionId

/-- A session as the first section of `add_session` leaves it. -/
def Session.new (infos : List FileInfo) : Session where
  declared := infos
  requiredFilesState := (namedFiles infos).map (·.filename)
  areArgsReady := false
  terminated := false
  transfers := fun _ => none
  requested := []
  starting := .preparing
  handling := .notStarted

namespace ClientView

/-- A client no session has started for. -/
def empty : ClientView where
  files := fun _ => none
  associatedSessions := []
  sessions := fun _ => none
  started := []
  isCompilerRunning := fun _ => false

/-- Store `x` as the session `sid`. -/
def setSession (V : ClientView) (sid : SessionId) (x : Session) : ClientView :=
  { V with sessions := Function.update V.sessions sid (some x) }

/-- The first section of `add_session`. -/
def addSession (V : ClientView) (w : Str) (sid : SessionId) (infos : List FileInfo) :
    ClientView :=
  { V.setSession sid (.new infos) with
    files := addFileStates w V.files (namedFiles infos)
    associatedSessions := sid :: V.associatedSessions
    started := sid :: V.started }

theorem addSession_self (V : ClientView) (w : Str) (sid : SessionId) (infos : List FileInfo) :
    (V.addSession w sid infos).sessions sid = some (.new infos) := Function.update_self ..

theorem addSession_of_ne (V : ClientView) (w : Str) {sid t : SessionId} (infos : List FileInfo)
    (h : t ≠ sid) : (V.addSession w sid infos).sessions t = V.sessions t :=
  Function.update_of_ne h ..

/-- All files of the session are there, and its arguments are ready. -/
def Ready (V : ClientView) (x : Session) : Prop :=
  x.areArgsReady = true
    ∧ ∀ k ∈ x.requiredFilesState, ∃ v ∈ V.files k, v.fileStatus = .available

instance (V : ClientView) (x : Session) : Decidable (V.Ready x) := by
  unfold Ready
  infer_instance

/-- `ServerSession::try_request_src_compilation`, and whether it enqueues a request. -/
def tryRequestSrcCompilation (V : ClientView) (sid : SessionId) : ClientView × List SessionId :=
  match V.sessions sid with
  | none => (V, [])
  | some x =>
    if V.Ready x ∧ V.isCompilerRunning sid = false then
      ({ V with isCompilerRunning := Function.update V.isCompilerRunning sid true }, [sid])
    else (V, [])

/-- `ClientView::try_compile_for_active_sessions`, and the sessions it enqueues. -/
def tryCompileForActiveSessions (V : ClientView) : List SessionId → ClientView × List SessionId
  | [] => (V, [])
  | sid :: order =>
    let r := V.tryRequestSrcCompilation sid
    let r' := tryCompileForActiveSessions r.1 order
    (r'.1, r.2 ++ r'.2)

variable (sha1 : Str → Str) (w : Str)

/-- One section of a thread of this client, whose workspace is `w`. -/
def step (a : ClientAction) (disk : Disk) (V : ClientView) : Option ViewEffect :=
  match a with
  | .start sid infos =>
    match V.sessions sid with
    | some _ => none
    | none => some ⟨V.addSession w sid infos, disk, [], []⟩
  | .session sid a => do
    let x ← V.sessions sid
    let e ← sessionStep sha1 w sid a V.files disk x
    pure ⟨{ V.setSession sid e.session with files := e.files }, e.disk, e.sent, []⟩
  | .sweepStart sid order => do
    let x ← V.sessions sid
    match x.starting with
    | .sweeping =>
      if order.Perm V.associatedSessions then
        let r := (V.setSession sid { x with starting := .started }).tryCompileForActiveSessions
          order
        some ⟨r.1, disk, [], r.2⟩
      else none
    | _ => none
  | .sweepChunk sid order => do
    let x ← V.sessions sid
    match x.handling with
    | .sweeping msg =>
      if order.Perm V.associatedSessions then
        let r := (V.setSession sid
          { x with handling := .notifying msg }).tryCompileForActiveSessions order
        some ⟨r.1, disk, [], r.2⟩
      else none
    | _ => none
  | .terminate sid => do
    let x ← V.sessions sid
    match x.handling with
    | .receiving =>
      some ⟨V.setSession sid { x with terminated := true, handling := .removing }, disk, [], []⟩
    | _ => none
  | .remove sid => do
    let x ← V.sessions sid
    match x.handling with
    | .removing =>
      some ⟨{ V.setSession sid { x with handling := .releasing } with
        associatedSessions := V.associatedSessions.erase sid }, disk, [], []⟩
    | _ => none
  | .release sid => do
    let x ← V.sessions sid
    match x.handling with
    | .releasing => some ⟨V.setSession sid { x with handling := .ended }, disk, [], []⟩
    | _ => none

/-- **The session is still there**: its client view owns it, or its handler does. -/
def Live (V : ClientView) (sid : SessionId) : Prop :=
  ∃ x ∈ V.sessions sid, sid ∈ V.associatedSessions ∨ x.handling.holdsSelf = true

instance (V : ClientView) (sid : SessionId) : Decidable (V.Live sid) := by
  unfold Live
  infer_instance

/-! ## What a sweep does -/

/-- A sweep sets flags, and nothing else. -/
theorem tryCompileForActiveSessions_view (V : ClientView) (order : List SessionId) :
    ∃ b, (V.tryCompileForActiveSessions order).1 = { V with isCompilerRunning := b }
      ∧ ∀ t, b t = false → V.isCompilerRunning t = false := by
  induction order generalizing V with
  | nil => exact ⟨V.isCompilerRunning, rfl, fun _ h => h⟩
  | cons sid order ih =>
    have hone : ∃ b, (V.tryRequestSrcCompilation sid).1 = { V with isCompilerRunning := b }
        ∧ ∀ t, b t = false → V.isCompilerRunning t = false := by
      unfold tryRequestSrcCompilation
      cases V.sessions sid with
      | none => exact ⟨_, rfl, fun _ h => h⟩
      | some x =>
        by_cases h : V.Ready x ∧ V.isCompilerRunning sid = false
        · refine ⟨_, by simp only [if_pos h]; rfl, fun t ht => ?_⟩
          by_cases hts : t = sid
          · rw [hts]
            exact h.2
          · rwa [Function.update_of_ne hts] at ht
        · exact ⟨_, by simp only [if_neg h], fun _ h => h⟩
    obtain ⟨b, hb, hle⟩ := hone
    obtain ⟨b', hb', hle'⟩ := ih (V.tryRequestSrcCompilation sid).1
    rw [hb] at hb' hle'
    exact ⟨b', by rw [tryCompileForActiveSessions, hb]; exact hb', fun t ht => hle t (hle' t ht)⟩

/-- **A sweep enqueues only sessions it meets whose files are all there, and which no sweep has
enqueued before.** -/
theorem ready_of_mem_enqueued {V : ClientView} {order : List SessionId} {sid : SessionId}
    (h : sid ∈ (V.tryCompileForActiveSessions order).2) :
    sid ∈ order ∧ V.isCompilerRunning sid = false ∧ ∃ x, V.sessions sid = some x ∧ V.Ready x := by
  induction order generalizing V with
  | nil => cases h
  | cons t order ih =>
    rw [tryCompileForActiveSessions] at h
    rcases List.mem_append.mp h with h | h
    · unfold tryRequestSrcCompilation at h
      cases hx : V.sessions t with
      | none => simp [hx] at h
      | some x =>
        by_cases hr : V.Ready x ∧ V.isCompilerRunning t = false
        · simp only [hx, if_pos hr, List.mem_singleton] at h
          subst h
          exact ⟨List.mem_cons_self, hr.2, x, hx, hr.1⟩
        · simp [hx, if_neg hr] at h
    · obtain ⟨b, hb, hle⟩ := tryCompileForActiveSessions_view V [t]
      have hone : (V.tryRequestSrcCompilation t).1 = { V with isCompilerRunning := b } := hb
      rw [hone] at h
      obtain ⟨hmem, hflag, x, hx, hr⟩ := ih h
      exact ⟨List.mem_cons_of_mem _ hmem, hle sid hflag, x, hx, hr⟩

/-! ## What a step can do -/

/-- `step` as a relation. -/
inductive Step (disk : Disk) (V : ClientView) : ClientAction → ViewEffect → Prop
  | start {sid infos} (h : V.sessions sid = none) :
    Step disk V (.start sid infos) ⟨V.addSession w sid infos, disk, [], []⟩
  | session {sid a x e} (hx : V.sessions sid = some x)
    (h : SessionStep sha1 w sid V.files disk x a e) :
    Step disk V (.session sid a)
      ⟨{ V.setSession sid e.session with files := e.files }, e.disk, e.sent, []⟩
  | sweepStart {sid order x b new} (hx : V.sessions sid = some x) (h : x.starting = .sweeping)
    (hnew : ∀ t ∈ new, t ∈ V.associatedSessions ∧ V.isCompilerRunning t = false ∧
      ∃ y, (V.setSession sid { x with starting := .started }).sessions t = some y ∧ V.Ready y) :
    Step disk V (.sweepStart sid order)
      ⟨{ V.setSession sid { x with starting := .started } with isCompilerRunning := b }, disk, [],
        new⟩
  | sweepChunk {sid order x msg b new} (hx : V.sessions sid = some x)
    (h : x.handling = .sweeping msg)
    (hnew : ∀ t ∈ new, t ∈ V.associatedSessions ∧ V.isCompilerRunning t = false ∧
      ∃ y, (V.setSession sid { x with handling := .notifying msg }).sessions t = some y
        ∧ V.Ready y) :
    Step disk V (.sweepChunk sid order)
      ⟨{ V.setSession sid { x with handling := .notifying msg } with isCompilerRunning := b }, disk,
        [], new⟩
  | terminate {sid x} (hx : V.sessions sid = some x) (h : x.handling = .receiving) :
    Step disk V (.terminate sid)
      ⟨V.setSession sid { x with terminated := true, handling := .removing }, disk, [], []⟩
  | remove {sid x} (hx : V.sessions sid = some x) (h : x.handling = .removing) :
    Step disk V (.remove sid)
      ⟨{ V.setSession sid { x with handling := .releasing } with
        associatedSessions := V.associatedSessions.erase sid }, disk, [], []⟩
  | release {sid x} (hx : V.sessions sid = some x) (h : x.handling = .releasing) :
    Step disk V (.release sid) ⟨V.setSession sid { x with handling := .ended }, disk, [], []⟩

variable {sha1 w}

/-- **What a step of a client can do**, once and for all. -/
theorem step_cases {a : ClientAction} {disk : Disk} {V : ClientView} {e : ViewEffect}
    (h : step sha1 w a disk V = some e) : Step sha1 w disk V a e := by
  cases a with
  | start sid infos =>
    simp only [step] at h
    split at h
    · cases h
    · cases h
      exact .start ‹_›
  | session sid a =>
    simp only [step, Option.bind_eq_bind, Option.bind_eq_some_iff, Option.pure_def] at h
    obtain ⟨x, hx, e', he', h⟩ := h
    cases h
    exact .session hx (sessionStep_cases he')
  | sweepStart sid order =>
    obtain ⟨x, hx, h⟩ := Option.bind_eq_some_iff.mp h
    split at h
    · split_ifs at h with hperm
      cases h
      obtain ⟨b, hb, -⟩ := tryCompileForActiveSessions_view
        (V.setSession sid { x with starting := .started }) order
      rw [hb]
      refine .sweepStart hx ‹_› fun t ht => ?_
      obtain ⟨hmem, hflag, y, hy, hr⟩ := ready_of_mem_enqueued ht
      exact ⟨hperm.subset hmem, hflag, y, hy, hr⟩
    · cases h
  | sweepChunk sid order =>
    obtain ⟨x, hx, h⟩ := Option.bind_eq_some_iff.mp h
    split at h
    · split_ifs at h with hperm
      cases h
      obtain ⟨b, hb, -⟩ := tryCompileForActiveSessions_view
        (V.setSession sid { x with handling := .notifying _ }) order
      rw [hb]
      refine .sweepChunk hx ‹_› fun t ht => ?_
      obtain ⟨hmem, hflag, y, hy, hr⟩ := ready_of_mem_enqueued ht
      exact ⟨hperm.subset hmem, hflag, y, hy, hr⟩
    · cases h
  | terminate sid =>
    obtain ⟨x, hx, h⟩ := Option.bind_eq_some_iff.mp h
    split at h
    · cases h
      exact .terminate hx ‹_›
    · cases h
  | remove sid =>
    obtain ⟨x, hx, h⟩ := Option.bind_eq_some_iff.mp h
    split at h
    · cases h
      exact .remove hx ‹_›
    · cases h
  | release sid =>
    obtain ⟨x, hx, h⟩ := Option.bind_eq_some_iff.mp h
    split at h
    · cases h
      exact .release hx ‹_›
    · cases h

/-! ## Sessions stay registered until they are terminated -/

/-- A session and its registration: the handler starts with the confirmation, and only a terminated
session leaves `associatedSessions`. -/
structure RegisteredSession (started associated : List SessionId) (sid : SessionId)
    (x : Session) : Prop where
  started : sid ∈ started
  unconfirmed : x.starting.unconfirmed = true → x.handling = .notStarted
  notStarted : x.handling = .notStarted → x.terminated = false
  associated : x.terminated = false → sid ∈ associated
  leaving : x.terminated = false → x.handling ≠ .removing ∧ x.handling ≠ .releasing
  serving : x.handling.serving = true → x.terminated = false

def Registered (V : ClientView) : Prop :=
  ∀ sid x, V.sessions sid = some x →
    RegisteredSession V.started V.associatedSessions sid x

theorem ne_of_serving {k : Handling} (h : k.serving = true) :
    k ≠ .notStarted ∧ k ≠ .removing ∧ k ≠ .releasing := by
  refine ⟨?_, ?_, ?_⟩ <;> rintro rfl <;> cases h

theorem holdsSelf_of_serving {k : Handling} (h : k.serving = true) : k.holdsSelf = true := by
  cases k with
  | notStarted => cases h
  | ended => cases h
  | _ => rfl

theorem Registered.step {disk : Disk} {V : ClientView} {a : ClientAction} {e : ViewEffect}
    (h : Step sha1 w disk V a e) (hV : Registered V) : Registered e.view := by
  cases h with
  | @start sid infos h =>
    refine forall_update (fun t y hy => ?_)
      ⟨List.mem_cons_self, fun _ => rfl, fun _ => rfl, fun _ => List.mem_cons_self, fun _ => ?_,
        nofun⟩
    · have ht := hV t y hy
      exact ⟨List.mem_cons_of_mem _ ht.started, ht.unconfirmed, ht.notStarted,
        fun h0 => List.mem_cons_of_mem _ (ht.associated h0), ht.leaving, ht.serving⟩
    · exact ⟨nofun, nofun⟩
  | @session sid a x e hx h =>
    have hreg := hV sid x hx
    refine forall_update (fun t y hy => hV t y hy) ?_
    have hterm := h.frame.2.2
    rcases h.threads with ⟨hu, -, hh, -, -⟩ | ⟨-, hst, -, -, he⟩ | ⟨hs, hst, -, hh⟩
    · refine ⟨hreg.started, fun _ => hh.trans (hreg.unconfirmed hu), ?_, ?_, ?_, ?_⟩
      all_goals rw [hterm]
      · exact fun _ => hreg.notStarted (hreg.unconfirmed hu)
      · exact hreg.associated
      · rw [hh]
        exact hreg.leaving
      · rw [hh]
        exact hreg.serving
    · have hns := hreg.unconfirmed (by rw [hst]; rfl)
      rw [he]
      exact ⟨hreg.started, nofun, nofun, hreg.associated, fun _ => ⟨nofun, nofun⟩,
        fun _ => hreg.notStarted hns⟩
    · have hne := ne_of_serving hs
      have hne' : e.session.handling ≠ .notStarted ∧ e.session.handling ≠ .removing
          ∧ e.session.handling ≠ .releasing := by
        rcases hh with hh | hh
        · exact ne_of_serving hh
        · rw [hh]
          exact ⟨nofun, nofun, nofun⟩
      refine ⟨hreg.started, fun hu => absurd (hreg.unconfirmed (hst ▸ hu)) hne.1,
        fun h0 => absurd h0 hne'.1, ?_, fun _ => hne'.2, fun _ => hterm.trans (hreg.serving hs)⟩
      rw [hterm]
      exact hreg.associated
  | @sweepStart sid order x b new hx h hnew =>
    have hreg := hV sid x hx
    exact forall_update (fun t y hy => hV t y hy)
      ⟨hreg.started, nofun, hreg.notStarted, hreg.associated, hreg.leaving, hreg.serving⟩
  | @sweepChunk sid order x msg b new hx h hnew =>
    have hreg := hV sid x hx
    refine forall_update (fun t y hy => hV t y hy)
      ⟨hreg.started, fun hu => ?_, nofun, hreg.associated, fun _ => ⟨nofun, nofun⟩,
        fun _ => hreg.serving (by rw [h]; rfl)⟩
    exact absurd (h.symm.trans (hreg.unconfirmed hu)) nofun
  | @terminate sid x hx h =>
    have hreg := hV sid x hx
    refine forall_update (fun t y hy => hV t y hy)
      ⟨hreg.started, fun hu => ?_, nofun, nofun, nofun, nofun⟩
    exact absurd (h.symm.trans (hreg.unconfirmed hu)) nofun
  | @remove sid x hx h =>
    have hreg := hV sid x hx
    have hterm : x.terminated ≠ false := fun h0 => (hreg.leaving h0).1 h
    have hother : ∀ t y, V.sessions t = some y → t ≠ sid →
        RegisteredSession V.started (V.associatedSessions.erase sid) t y := by
      intro t y hy ht
      have hreg' := hV t y hy
      exact ⟨hreg'.started, hreg'.unconfirmed, hreg'.notStarted,
        fun h0 => (List.mem_erase_of_ne ht).mpr (hreg'.associated h0), hreg'.leaving,
        hreg'.serving⟩
    intro t y (hy : Function.update V.sessions sid _ t = some y)
    rcases update_eq_some.mp hy with ⟨rfl, rfl⟩ | ⟨ht, hy⟩
    · refine ⟨hreg.started, fun hu => ?_, nofun, fun h0 => absurd h0 hterm,
        fun h0 => absurd h0 hterm, nofun⟩
      exact absurd (h.symm.trans (hreg.unconfirmed hu)) nofun
    · exact hother t y hy ht
  | @release sid x hx h =>
    have hreg := hV sid x hx
    have hterm : x.terminated ≠ false := fun h0 => (hreg.leaving h0).2 h
    refine forall_update (fun t y hy => hV t y hy)
      ⟨hreg.started, fun hu => ?_, nofun, hreg.associated, fun h0 => absurd h0 hterm, nofun⟩
    exact absurd (h.symm.trans (hreg.unconfirmed hu)) nofun

/-- Before any session has started, anything holds of all sessions. -/
theorem forall_sessions_empty {P : SessionId → Session → Prop} :
    ∀ sid x, empty.sessions sid = some x → P sid x := fun _ _ h => nomatch h

theorem registered_empty : Registered .empty := forall_sessions_empty

/-- **Only a start brings a session to life**: any other step finds its live sessions alive. -/
theorem live_of_step {disk : Disk} {V : ClientView} {a : ClientAction} {e : ViewEffect}
    (h : Step sha1 w disk V a e) (hV : Registered V) {t : SessionId} (ht : e.view.Live t) :
    V.Live t ∨ ∃ infos, a = .start t infos ∧ e.view.sessions t = some (.new infos) := by
  have hmove : ∀ {sid x x'} {L : List SessionId}, V.sessions sid = some x →
      L ⊆ V.associatedSessions → (x'.handling.holdsSelf = true → V.Live sid) →
      (∃ y ∈ Function.update V.sessions sid (some x') t,
        t ∈ L ∨ y.handling.holdsSelf = true) → V.Live t := by
    rintro sid x x' L hx hL hx' ⟨y, hy, hlive⟩
    by_cases ht : t = sid
    · subst ht
      rw [Option.mem_def, Function.update_self] at hy
      cases hy
      rcases hlive with hmem | hself
      · exact ⟨x, hx, Or.inl (hL hmem)⟩
      · exact hx' hself
    · rw [Option.mem_def, Function.update_of_ne ht] at hy
      exact ⟨y, hy, hlive.imp_left fun hmem => hL hmem⟩
  cases h with
  | @start sid infos h =>
    obtain ⟨y, hy, hlive⟩ := ht
    by_cases hs : t = sid
    · subst hs
      exact Or.inr ⟨infos, rfl, Function.update_self ..⟩
    · have hy' : V.sessions t = some y := (Function.update_of_ne hs ..).symm.trans hy
      refine Or.inl ⟨y, hy', hlive.imp_left fun hmem => ?_⟩
      exact (List.mem_cons.mp hmem).resolve_left hs
  | @session sid a x e hx h =>
    refine Or.inl (hmove hx (List.Subset.refl _) (fun hself => ?_) ht)
    rcases h.threads with ⟨-, -, hh, -, -⟩ | ⟨-, hst, -⟩ | ⟨hs, -⟩
    · exact ⟨x, hx, Or.inr (hh ▸ hself)⟩
    · have hns := (hV sid x hx).unconfirmed (by rw [hst]; rfl)
      exact ⟨x, hx, Or.inl ((hV sid x hx).associated ((hV sid x hx).notStarted hns))⟩
    · exact ⟨x, hx, Or.inr (holdsSelf_of_serving hs)⟩
  | @sweepStart sid order x b new hx h hnew =>
    have hself : ({ x with starting := .started } : Session).handling.holdsSelf = true →
        V.Live sid :=
      fun hself => ⟨x, hx, Or.inr hself⟩
    exact Or.inl (hmove hx (List.Subset.refl _) hself ht)
  | sweepChunk hx h hnew =>
    exact Or.inl (hmove hx (List.Subset.refl _) (fun _ => ⟨_, hx, Or.inr (by rw [h]; rfl)⟩) ht)
  | terminate hx h =>
    exact Or.inl (hmove hx (List.Subset.refl _) (fun _ => ⟨_, hx, Or.inr (by rw [h]; rfl)⟩) ht)
  | remove hx h =>
    exact Or.inl (hmove hx List.erase_subset (fun _ => ⟨_, hx, Or.inr (by rw [h]; rfl)⟩) ht)
  | release hx h =>
    exact Or.inl (hmove hx (List.Subset.refl _) (fun _ => ⟨_, hx, Or.inr (by rw [h]; rfl)⟩) ht)

end ClientView

end DistBuild
