import DistBuild.Machinery.Locks
import DistBuild.Machinery.Run

/-!
# Server/Mutexes — the server's mutexes, and why its threads never deadlock

    connection   view ▸ session (it adds the files, it creates the directories)
                 session ▸ view (it reads the client id)            ─ signal ─▸ handler
                 view ▸ manager (its sweep)
    handler      session ▸ view ▸ manager
    worker       manager | session, one at a time

Every function is the sequence of locks it takes and releases, for any way it can go: how many files
it meets, what it finds of a chunk, which sessions a sweep enqueues are arguments.  A client view's
mutex and a session's are taken in both orders; the one order only by the connection that sets the
session up, before its handler starts.
-/

namespace DistBuild

namespace Mutexes

open Locks

variable {Client Session : Type*}

inductive Mutex (Client Session : Type*)
  /-- `ClientViewsStorage::_mtx`. -/
  | storage
  /-- `CompilerManager::_mtx`. -/
  | manager
  /-- `ClientView::_mtx`. -/
  | view (c : Client)
  /-- `ServerSession::_mtx`. -/
  | session (c : Client) (sid : Session)
deriving DecidableEq

/-- A thread takes and releases mutexes, and may start the handler of a session. -/
abbrev Program (Client Session : Type*) := List (Op (Mutex Client Session) (Client × Session))

/-! ## What the functions lock -/

/-- `ClientViewsStorage::get_client_view`. -/
def getClientView : Program Client Session := guarded .storage []

/-- `CompilerManager::add_compilation_request`. -/
def addCompilationRequest : Program Client Session := guarded .manager []

/-- `ClientView::get_client_id`. -/
def getClientId (c : Client) : Program Client Session := guarded (.view c) []

/-- `ClientView::get_file_state`. -/
def getFileState (c : Client) : Program Client Session := guarded (.view c) []

/-- `ClientView::update_file_state`. -/
def updateFileState (c : Client) : Program Client Session := guarded (.view c) []

/-- `ClientView::update_last_active_ts`. -/
def updateLastActiveTs (c : Client) : Program Client Session := guarded (.view c) []

/-- `ClientView::remove_session`. -/
def removeSession (c : Client) : Program Client Session := guarded (.view c) []

/-- `ServerSession::add_required_file_state`. -/
def addRequiredFileState (c : Client) (sid : Session) : Program Client Session :=
  guarded (.session c sid) []

/-- `ServerSession::get_required_files_state`. -/
def getRequiredFilesState (c : Client) (sid : Session) : Program Client Session :=
  guarded (.session c sid) []

/-- `ServerSession::try_request_src_compilation`, of a session that is to be compiled or not. -/
def tryRequestSrcCompilation (c : Client) (sid : Session) (lockMtx toCompile : Bool) :
    Program Client Session :=
  let request := if toCompile then addCompilationRequest else []
  if lockMtx then guarded (.session c sid) request else request

/-- `ClientView::try_compile_for_active_sessions`, which meets the given sessions. -/
def tryCompileForActiveSessions (c : Client) (sessions : List (Session × Bool))
    (lockSessionMtx : Bool) : Program Client Session :=
  guarded (.view c)
    (sessions.map fun s => tryRequestSrcCompilation c s.1 lockSessionMtx s.2).flatten

/-- `ServerSession::preprocess_compiler_call`. -/
def preprocessCompilerCall (c : Client) (sid : Session) : Program Client Session :=
  guarded (.session c sid) (getClientId c)

/-- The calls of `create_directories` that may throw. -/
inductive Failure
  /-- In `add_client_view`. -/
  | workspace
  /-- In `preprocess_compiler_call`. -/
  | objStore
  /-- In `_create_client_dir_hierarchy`. -/
  | clientDirs
deriving DecidableEq

/-- What a new connection meets: whether the client is known, what throws, if anything, the number
of files with a name, and of those in their initial status, and the sessions of its sweep. -/
structure Arrival (Session : Type*) where
  known : Bool
  failure : Option Failure
  namedFiles : ℕ
  initialFiles : ℕ
  sweep : List (Session × Bool)

/-- `ClientViewsStorage::add_client_view`. -/
def addClientView (a : Arrival Session) : Program Client Session :=
  getClientView
    ++ if a.known = true ∨ a.failure = some .workspace then [] else guarded .storage []

/-- `ClientView::_create_client_dir_hierarchy`. -/
def createClientDirHierarchy (c : Client) (sid : Session) (a : Arrival Session) :
    Program Client Session :=
  guarded (.view c) (getRequiredFilesState c sid)
    ++ if a.failure = some .clientDirs then [] else guarded (.view c) []

/-- `ClientView::add_session` up to `start_session`. -/
def setUpSession (c : Client) (sid : Session) (a : Arrival Session) : Program Client Session :=
  guarded (.view c) (List.replicate a.namedFiles (addRequiredFileState c sid)).flatten
    ++ preprocessCompilerCall c sid
    ++ if a.failure = some .objStore then [] else
      createClientDirHierarchy c sid a
        ++ if a.failure = some .clientDirs then [] else
          getRequiredFilesState c sid
            ++ (List.replicate a.initialFiles (updateFileState c)).flatten

/-- `Server::handle_new_connection` for a session start; the signal is `start_session`. -/
def handleNewConnection (c : Client) (sid : Session) (a : Arrival Session) :
    Program Client Session :=
  addClientView a
    ++ if a.failure = some .workspace then [] else
      setUpSession c sid a
        ++ if a.failure.isSome then [] else
          .signal (c, sid) :: tryCompileForActiveSessions c a.sweep false

/-- The ways through `process_file_chunk`. -/
inductive ChunkOutcome (Session : Type*)
  | unknownFile
  | foreignSession
  | alreadyFinished
  | outOfSequence
  | stored
  /-- `file_size` throws. -/
  | missingFile
  | wrongSize
  | complete (wrongSha1 : Bool) (sweep : List (Session × Bool))

/-- `process_file_chunk` under the session's mutex. -/
def storeChunk (c : Client) : ChunkOutcome Session → Program Client Session
  | .outOfSequence | .wrongSize => updateFileState c
  | .complete wrongSha1 sweep =>
    (if wrongSha1 then updateFileState c else []) ++ updateFileState c
      ++ tryCompileForActiveSessions c sweep false
  | _ => []

/-- `ServerSession::process_file_chunk`. -/
def processFileChunk (c : Client) (sid : Session) : ChunkOutcome Session → Program Client Session
  | .unknownFile => getFileState c
  | .foreignSession => getFileState c ++ updateFileState c
  | o => getFileState c ++ guarded (.session c sid) (storeChunk c o)

/-- `ServerSession::terminate_server_session`. -/
def terminateServerSession (c : Client) (sid : Session) : Program Client Session :=
  guarded (.session c sid) (removeSession c)

/-- What `receive_msg` gives the handler. -/
inductive Message (Session : Type*)
  | sessionStart
  | fileChunkUpload (o : ChunkOutcome Session)
  | sessionAbort
  | unknown
  /-- It throws. -/
  | disconnected

/-- One turn of the loop of `ServerSession::handle_server_session`. -/
def handleMessage (c : Client) (sid : Session) : Message Session → Program Client Session
  | .sessionStart => updateLastActiveTs c
  | .fileChunkUpload o => updateLastActiveTs c ++ processFileChunk c sid o
  | .sessionAbort | .unknown => terminateServerSession c sid
  | .disconnected => []

/-- The handler returns after it. -/
def Message.isLast : Message Session → Bool
  | .sessionAbort | .unknown | .disconnected | .fileChunkUpload .missingFile => true
  | _ => false

/-- `ServerSession::send_compilation_result`, which attaches the logs to so many messages. -/
def sendCompilationResult (c : Client) (sid : Session) (logs : ℕ) : Program Client Session :=
  (List.replicate logs (guarded (.session c sid) [])).flatten

/-- `ServerSession::publish_compilation_results`. -/
def publishCompilationResults (c : Client) (sid : Session) (logs : ℕ) : Program Client Session :=
  guarded (.session c sid) [] ++ sendCompilationResult c sid logs

/-- A turn of `_worker_loop`: how often its wait is woken, and whose request it takes, if any. -/
structure Iteration (Client Session : Type*) where
  wakeUps : ℕ
  taken : Option (Client × Session × ℕ)

/-- `_cv.wait`, which releases the mutex while it waits. -/
def wait (wakeUps : ℕ) : Program Client Session :=
  (List.replicate wakeUps [.release .manager, .acquire .manager]).flatten

/-- A turn of `CompilerManager::_worker_loop`. -/
def workerLoop (it : Iteration Client Session) : Program Client Session :=
  guarded .manager (wait it.wakeUps)
    ++ match it.taken with
      | none => []
      | some (c, sid, logs) => guarded .manager [] ++ publishCompilationResults c sid logs

/-! ## In which order each thread nests the mutexes -/

/-- A connection before it starts the handler. -/
def SetUpOrder (c : Client) (sid : Session) (k l : Mutex Client Session) : Prop :=
  k = .view c ∧ l = .session c sid ∨ k = .session c sid ∧ l = .view c

/-- A sweep. -/
def SweepOrder (c : Client) (k l : Mutex Client Session) : Prop := k = .view c ∧ l = .manager

def HandlerOrder (c : Client) (sid : Session) (k l : Mutex Client Session) : Prop :=
  k = .session c sid ∧ (l = .view c ∨ l = .manager) ∨ SweepOrder c k l

/-- A worker holds one mutex at a time. -/
def WorkerOrder (_ _ : Mutex Client Session) : Prop := False

section

variable {R : Mutex Client Session → Mutex Client Session → Prop}
  {held : List (Mutex Client Session)} {c : Client} {sid : Session}

/-- A sweep takes the manager's mutex under the client view's, and no session's. -/
theorem runs_sweep (sweep : List (Session × Bool)) (hview : ∀ k ∈ held, R k (.view c))
    (hmanager : ∀ k ∈ held, R k .manager) (h : R (.view c) .manager) :
    Runs R held (tryCompileForActiveSessions c sweep false) held := by
  refine .guarded hview (.flatten fun part hpart => ?_)
  obtain ⟨s, -, rfl⟩ := List.mem_map.mp hpart
  refine .ite (.section ?_) (.nil _)
  exact List.forall_mem_cons.mpr ⟨h, hmanager⟩

theorem runs_addClientView (a : Arrival Session) :
    Runs R [] (addClientView a : Program Client Session) [] :=
  .append (.section nofun) (.ite (.nil _) (.section nofun))

/-- While it sets the session up, a connection takes its client view's mutex and its session's in
either order. -/
theorem runs_setUpSession (a : Arrival Session) :
    Runs (SetUpOrder c sid) [] (setUpSession c sid a) [] := by
  have hview : ∀ k ∈ [Mutex.view c], SetUpOrder c sid k (.session c sid) :=
    List.forall_mem_singleton.mpr (.inl ⟨rfl, rfl⟩)
  have hsession : ∀ k ∈ [Mutex.session c sid], SetUpOrder c sid k (.view c) :=
    List.forall_mem_singleton.mpr (.inr ⟨rfl, rfl⟩)
  have hadd : Runs (SetUpOrder c sid) []
      (guarded (.view c) (List.replicate a.namedFiles (addRequiredFileState c sid)).flatten) [] :=
    .guarded nofun (.replicate (.section hview) _)
  have hpreprocess : Runs (SetUpOrder c sid) [] (preprocessCompilerCall c sid) [] :=
    .guarded nofun (.section hsession)
  have hdirs : Runs (SetUpOrder c sid) [] (createClientDirHierarchy c sid a) [] :=
    .append (.guarded nofun (.section hview)) (.ite (.nil _) (.section nofun))
  have hscan : Runs (SetUpOrder c sid) []
      (getRequiredFilesState c sid
        ++ (List.replicate a.initialFiles (updateFileState c)).flatten) [] :=
    .append (.section nofun) (.replicate (.section nofun) _)
  exact (hadd.append hpreprocess).append
    (.ite (.nil _) (hdirs.append (.ite (.nil _) hscan)))

/-- **A connection sets the session up, and then starts the handler and sweeps**, if nothing
throws. -/
theorem handleNewConnection_cases (c : Client) (sid : Session) (a : Arrival Session) :
    ∃ before after, handleNewConnection c sid a = before ++ after
      ∧ Runs (SetUpOrder c sid) [] before []
      ∧ (after = [] ∨ ∃ sweep, after = .signal (c, sid) :: sweep
        ∧ Runs (SweepOrder c) [] sweep []) := by
  unfold handleNewConnection
  split_ifs with hworkspace hfailure
  · exact ⟨_, [], rfl, runs_addClientView a, .inl rfl⟩
  · exact ⟨_, [], by rw [List.append_nil, List.append_nil],
      (runs_addClientView a).append (runs_setUpSession a), .inl rfl⟩
  · exact ⟨_, _, (List.append_assoc ..).symm,
      (runs_addClientView a).append (runs_setUpSession a),
      .inr ⟨_, rfl, runs_sweep a.sweep nofun nofun ⟨rfl, rfl⟩⟩⟩

/-- Whatever comes of a chunk, its file states and the sweep come under the session's mutex. -/
theorem runs_storeChunk (o : ChunkOutcome Session) :
    Runs (HandlerOrder c sid) [.session c sid] (storeChunk c o) [.session c sid] := by
  have hview : ∀ k ∈ [Mutex.session c sid], HandlerOrder c sid k (.view c) :=
    List.forall_mem_singleton.mpr (.inl ⟨rfl, .inl rfl⟩)
  have hmanager : ∀ k ∈ [Mutex.session c sid], HandlerOrder c sid k .manager :=
    List.forall_mem_singleton.mpr (.inl ⟨rfl, .inr rfl⟩)
  cases o with
  | outOfSequence => exact .section hview
  | wrongSize => exact .section hview
  | complete wrongSha1 sweep =>
    refine .append (.append (.ite (.section hview) (.nil _)) (.section hview)) ?_
    exact runs_sweep sweep hview hmanager (.inr ⟨rfl, rfl⟩)
  | _ => exact .nil _

theorem runs_processFileChunk (o : ChunkOutcome Session) :
    Runs (HandlerOrder c sid) [] (processFileChunk c sid o) [] := by
  have hget : Runs (HandlerOrder c sid) [] (getFileState c) [] := .section nofun
  have hstore : Runs (HandlerOrder c sid) [] (guarded (.session c sid) (storeChunk c o)) [] :=
    .guarded nofun (runs_storeChunk o)
  cases o with
  | unknownFile => exact hget
  | foreignSession => exact hget.append (.section nofun)
  | _ => exact hget.append hstore

/-- **The handler takes its session's mutex first.** -/
theorem runs_handleMessage (msg : Message Session) :
    Runs (HandlerOrder c sid) [] (handleMessage c sid msg) [] := by
  have hterminate : Runs (HandlerOrder c sid) [] (terminateServerSession c sid) [] :=
    .guarded nofun (.section (List.forall_mem_singleton.mpr (.inl ⟨rfl, .inl rfl⟩)))
  cases msg with
  | sessionStart => exact .section nofun
  | fileChunkUpload o => exact .append (.section nofun) (runs_processFileChunk o)
  | sessionAbort => exact hterminate
  | unknown => exact hterminate
  | disconnected => exact .nil _

theorem runs_wait (wakeUps : ℕ) :
    Runs R [.manager] (wait wakeUps : Program Client Session) [.manager] :=
  .replicate (.release (.acquire nofun (.nil _))) wakeUps

/-- **A worker holds one mutex at a time.** -/
theorem runs_workerLoop (it : Iteration Client Session) :
    Runs WorkerOrder [] (workerLoop it) [] := by
  refine .append (.guarded nofun (runs_wait it.wakeUps)) ?_
  cases it.taken with
  | none => exact .nil _
  | some r =>
    exact .append (.section nofun) (.append (.section nofun) (.replicate (.section nofun) _))

end

/-! ## The server -/

/-- The thread of a new connection, the handler of a session, a worker of the compiler manager. -/
inductive Thread (Client Session : Type*)
  | connection (c : Client) (sid : Session)
  | handler (c : Client) (sid : Session)
  | worker (i : ℕ)
deriving DecidableEq

/-- The server's threads and mutexes, the sessions there have been, and those whose handler has
started and ended. -/
structure Server (Client Session : Type*) where
  threads : Threads (Thread Client Session) (Mutex Client Session) (Client × Session)
  accepted : List (Client × Session)
  started : List (Client × Session)
  ended : List (Client × Session)

def start : Server Client Session where
  threads := .idle
  accepted := []
  started := []
  ended := []

inductive Action (Client Session : Type*)
  | accept (c : Client) (sid : Session) (a : Arrival Session)
  | receive (c : Client) (sid : Session) (msg : Message Session)
  | iterate (i : ℕ) (it : Iteration Client Session)
  | run (t : Thread Client Session)

variable [DecidableEq Client] [DecidableEq Session]

/-- A connection comes with a fresh session, a handler receives once it is done with the last
message, a worker turns, or a thread takes its next step. -/
def step : Action Client Session → Server Client Session → Option (Server Client Session)
  | .accept c sid a, s =>
    if (c, sid) ∈ s.accepted then none
    else some { s with
      threads := s.threads.assign (.connection c sid) (handleNewConnection c sid a)
      accepted := (c, sid) :: s.accepted }
  | .receive c sid msg, s =>
    if (c, sid) ∈ s.started ∧ (c, sid) ∉ s.ended ∧ s.threads.todo (.handler c sid) = [] then
      some { s with
        threads := s.threads.assign (.handler c sid) (handleMessage c sid msg)
        ended := if msg.isLast then (c, sid) :: s.ended else s.ended }
    else none
  | .iterate i it, s =>
    if s.threads.todo (.worker i) = [] then
      some { s with threads := s.threads.assign (.worker i) (workerLoop it) }
    else none
  | .run t, s =>
    (s.threads.exec t).map fun r =>
      { s with threads := r.1, started := r.2.toList ++ s.started }

/-! ## What holds of the threads at any time -/

omit [DecidableEq Client] [DecidableEq Session] in
/-- **Where each thread is**: a connection sets its session up, and has not started the handler, or
it sweeps; a handler that has not been started has nothing to do. -/
def InOrder (accepted started : List (Client × Session)) (todo : Program Client Session)
    (held : List (Mutex Client Session)) : Thread Client Session → Prop
  | .connection c sid =>
    ((c, sid) ∉ accepted → todo = [] ∧ (c, sid) ∉ started)
      ∧ (((c, sid) ∉ started ∧ ∃ before after, todo = before ++ after
          ∧ Runs (SetUpOrder c sid) held before []
          ∧ (after = [] ∨ ∃ sweep, after = .signal (c, sid) :: sweep
            ∧ Runs (SweepOrder c) [] sweep []))
        ∨ Runs (SweepOrder c) held todo [])
  | .handler c sid => ((c, sid) ∉ started → todo = []) ∧ Runs (HandlerOrder c sid) held todo []
  | .worker _ => Runs WorkerOrder held todo []

/-- Every thread is in order. -/
structure Ordered (s : Server Client Session) : Prop where
  consistent : s.threads.Consistent
  inOrder : ∀ t, InOrder s.accepted s.started (s.threads.todo t) (s.threads.held t) t

section

variable {accepted accepted' started started' : List (Client × Session)}
  {todo : Program Client Session} {held : List (Mutex Client Session)}
  {t : Thread Client Session} {s s' : Server Client Session}

omit [DecidableEq Client] [DecidableEq Session] in
/-- New sessions, and the start of a handler by another thread, leave a thread in order. -/
theorem InOrder.mono (h : InOrder accepted started todo held t) (ha : accepted ⊆ accepted')
    (hs : started ⊆ started')
    (hnew : ∀ c sid, t = .connection c sid → (c, sid) ∈ started' → (c, sid) ∈ started) :
    InOrder accepted' started' todo held t := by
  cases t with
  | connection c sid =>
    have hnot : (c, sid) ∉ started → (c, sid) ∉ started' := mt (hnew c sid rfl)
    refine ⟨fun hfresh => ?_, h.2.imp_left (And.imp_left hnot)⟩
    exact (h.1 fun hmem => hfresh (ha hmem)).imp_right hnot
  | handler c sid => exact ⟨fun hnot => h.1 fun hmem => hnot (hs hmem), h.2⟩
  | worker i => exact h

omit [DecidableEq Client] [DecidableEq Session] in
/-- A thread with nothing to do holds nothing. -/
theorem InOrder.held_eq_nil (h : InOrder accepted started [] held t) : held = [] := by
  cases t with
  | connection c sid =>
    rcases h.2 with ⟨-, before, after, heq, hruns, -⟩ | hruns
    · obtain ⟨rfl, -⟩ := List.append_eq_nil_iff.mp heq.symm
      exact hruns.eq_of_nil
    · exact hruns.eq_of_nil
  | handler c sid => exact h.2.eq_of_nil
  | worker i => exact Runs.eq_of_nil h

omit [DecidableEq Client] [DecidableEq Session] in
/-- A thread in order releases what it holds. -/
theorem InOrder.release_mem (h : InOrder accepted started todo held t)
    {l : Mutex Client Session} {ops : Program Client Session} (htodo : todo = .release l :: ops) :
    l ∈ held := by
  have hruns : ∀ {R : Mutex Client Session → Mutex Client Session → Prop},
      Runs R held todo [] → l ∈ held := fun h =>
    h.release_mem (by simp [htodo]) ((List.append_nil _).trans htodo)
  cases t with
  | connection c sid =>
    rcases h.2 with ⟨-, before, after, heq, hbefore, hafter⟩ | hsweep
    · rcases eq_or_ne before [] with rfl | hne
      · rw [htodo, List.nil_append] at heq
        rcases hafter with rfl | ⟨sweep, rfl, -⟩ <;> cases heq
      · exact hbefore.release_mem hne (heq.symm.trans htodo)
    · exact hruns hsweep
  | handler c sid => exact hruns h.2
  | worker i => exact hruns h

omit [DecidableEq Client] [DecidableEq Session] in
theorem ordered_start : Ordered (start : Server Client Session) where
  consistent := Threads.consistent_idle
  inOrder t := by
    cases t with
    | connection c sid => exact ⟨fun _ => ⟨rfl, List.not_mem_nil⟩, .inr (.nil _)⟩
    | handler c sid => exact ⟨fun _ => rfl, .nil _⟩
    | worker i => exact .nil _

/-- A thread is given a program that keeps it in order. -/
theorem Ordered.assign (hs : Ordered s) {ops : Program Client Session}
    (ha : s.accepted ⊆ s'.accepted) (hst : s'.started = s.started)
    (hth : s'.threads = s.threads.assign t ops)
    (h : InOrder s'.accepted s.started ops (s.threads.held t) t) : Ordered s' where
  consistent := hth ▸ hs.consistent.assign t ops
  inOrder u := by
    rw [hth, hst]
    by_cases hu : u = t
    · subst hu
      rw [Threads.assign_todo_self, Threads.assign_held]
      exact h
    · rw [Threads.assign_todo_of_ne _ _ hu, Threads.assign_held]
      exact (hs.inOrder u).mono ha (List.Subset.refl _) fun _ _ _ hmem => hmem

/-- **A step of a thread keeps it in order**, and only a connection starts a handler, its own. -/
theorem InOrder.executes {threads th : Threads (Thread Client Session) (Mutex Client Session) _}
    {e : Option (Client × Session)}
    (h : InOrder accepted started (threads.todo t) (threads.held t) t)
    (he : threads.Executes t th e) :
    (∀ k ∈ e, t = .connection k.1 k.2)
      ∧ InOrder accepted (e.toList ++ started) (th.todo t) (th.held t) t := by
  have hne := he.todo_ne_nil
  have hwhole : ∀ {R : Mutex Client Session → Mutex Client Session → Prop},
      Runs R (threads.held t) (threads.todo t) [] →
      e = none ∧ Runs R (th.held t) (th.todo t) [] := by
    intro R hruns
    obtain ⟨he, ops, htodo, hruns⟩ := hruns.executes hne (List.append_nil _).symm he
    rw [List.append_nil] at htodo
    exact ⟨he, htodo ▸ hruns⟩
  cases t with
  | handler c sid =>
    obtain ⟨rfl, hruns⟩ := hwhole h.2
    exact ⟨nofun, fun hnot => absurd (h.1 hnot) hne, hruns⟩
  | worker i =>
    obtain ⟨rfl, hruns⟩ := hwhole h
    exact ⟨nofun, hruns⟩
  | connection c sid =>
    have haccepted : (c, sid) ∈ accepted := by_contra fun hnot => hne (h.1 hnot).1
    rcases h.2 with ⟨hns, before, after, htodo, hbefore, hafter⟩ | hsweep
    · rcases eq_or_ne before [] with rfl | hbefore'
      · rcases hafter with rfl | ⟨sweep, rfl, hsweep⟩
        · exact absurd htodo hne
        · have hheld := hbefore.eq_of_nil
          cases he with
          | @signal e' ops htodo' =>
            obtain ⟨rfl, rfl⟩ : (c, sid) = e' ∧ sweep = ops := by
              rw [htodo] at htodo'
              cases htodo'
              exact ⟨rfl, rfl⟩
            refine ⟨fun k hk => ?_, fun hnot => absurd haccepted hnot, .inr ?_⟩
            · cases hk
              rfl
            · rw [Threads.assign_todo_self, Threads.assign_held, hheld]
              exact hsweep
          | acquire htodo' hfree =>
            rw [htodo] at htodo'
            cases htodo'
          | release htodo' =>
            rw [htodo] at htodo'
            cases htodo'
      · obtain ⟨rfl, ops, htodo', hruns⟩ := hbefore.executes hbefore' htodo he
        exact ⟨nofun, fun hnot => absurd haccepted hnot,
          .inl ⟨hns, ops, after, htodo', hruns, hafter⟩⟩
    · obtain ⟨rfl, hruns⟩ := hwhole hsweep
      exact ⟨nofun, fun hnot => absurd haccepted hnot, .inr hruns⟩

/-- A thread takes its next step, and starts the handler it signals for. -/
theorem Ordered.run (hs : Ordered s)
    {th : Threads (Thread Client Session) (Mutex Client Session) (Client × Session)}
    {e : Option (Client × Session)} (he : s.threads.Executes t th e) :
    Ordered { s with threads := th, started := e.toList ++ s.started } := by
  obtain ⟨hself, hstep⟩ := (hs.inOrder t).executes he
  refine ⟨hs.consistent.executes he fun l ops => (hs.inOrder t).release_mem, fun u => ?_⟩
  by_cases hu : u = t
  · subst hu
    exact hstep
  · rw [(he.frame hu).1, (he.frame hu).2]
    refine (hs.inOrder u).mono (List.Subset.refl _) (List.subset_append_right _ _) ?_
    rintro c sid rfl hmem
    refine (List.mem_append.mp hmem).resolve_left fun hk => hu ?_
    exact (hself _ (Option.mem_toList.mp hk)).symm

/-- **Every step keeps the threads in order.** -/
theorem Ordered.step (hs : Ordered s) {a : Action Client Session} (h : step a s = some s') :
    Ordered s' := by
  cases a with
  | accept c sid a =>
    rw [Mutexes.step] at h
    split_ifs at h with hmem
    cases h
    obtain ⟨htodo, hns⟩ := (hs.inOrder (.connection c sid)).1 hmem
    have hheld := (htodo ▸ hs.inOrder (.connection c sid)).held_eq_nil
    refine hs.assign (List.subset_cons_self _ _) rfl rfl ⟨fun hnot => ?_, .inl ⟨hns, ?_⟩⟩
    · exact absurd List.mem_cons_self hnot
    · rw [hheld]
      exact handleNewConnection_cases c sid a
  | receive c sid msg =>
    by_cases hidle : (c, sid) ∈ s.started ∧ (c, sid) ∉ s.ended
        ∧ s.threads.todo (.handler c sid) = []
    · rw [Mutexes.step, if_pos hidle] at h
      cases h
      obtain ⟨hstarted, -, htodo⟩ := hidle
      have hheld := (htodo ▸ hs.inOrder (.handler c sid)).held_eq_nil
      refine hs.assign (List.Subset.refl _) rfl rfl ⟨fun hnot => absurd hstarted hnot, ?_⟩
      rw [hheld]
      exact runs_handleMessage msg
    · rw [Mutexes.step, if_neg hidle] at h
      cases h
  | iterate i it =>
    rw [Mutexes.step] at h
    split_ifs at h with htodo
    cases h
    have hheld := (htodo ▸ hs.inOrder (.worker i)).held_eq_nil
    refine hs.assign (List.Subset.refl _) rfl rfl ?_
    rw [hheld]
    exact runs_workerLoop it
  | run t =>
    obtain ⟨⟨th, e⟩, he, rfl⟩ := Option.map_eq_some_iff.mp h
    exact hs.run (Threads.exec_cases he)

/-! ## No deadlock -/

/-- **The order of the mutexes in a state.**  A session's mutex comes before its client view's, but
for a session that its connection is setting up under the view's. -/
def rank (s : Server Client Session) : Mutex Client Session → ℕ
  | .storage => 0
  | .view _ => 2
  | .manager => 4
  | .session c sid =>
    if (c, sid) ∉ s.started ∧ .view c ∈ s.threads.held (.connection c sid) then 3 else 1

/-- **Whatever a thread waits for ranks above all it holds.** -/
theorem Ordered.rank_lt (hs : Ordered s) {t : Thread Client Session} {l : Mutex Client Session}
    {ops : Program Client Session} (htodo : s.threads.todo t = .acquire l :: ops)
    {k : Mutex Client Session} (hk : k ∈ s.threads.held t) : rank s k < rank s l := by
  have h := hs.inOrder t
  rw [htodo] at h
  cases t with
  | worker i => exact absurd (Runs.waits h k hk) id
  | handler c sid =>
    have hstarted : (c, sid) ∈ s.started := by_contra fun hnot => by
      cases h.1 hnot
    have hrank : rank s (.session c sid) = 1 := if_neg fun hnot => hnot.1 hstarted
    rcases h.2.waits k hk with ⟨rfl, rfl | rfl⟩ | ⟨rfl, rfl⟩
    · rw [hrank]
      exact Nat.lt_succ_self 1
    · rw [hrank]
      exact (by decide : 1 < 4)
    · exact (by decide : 2 < 4)
  | connection c sid =>
    rcases h.2 with ⟨hns, before, after, heq, hbefore, hafter⟩ | hsweep
    · obtain ⟨before', rfl⟩ : ∃ before', before = .acquire l :: before' := by
        cases before with
        | nil => rcases hafter with rfl | ⟨sweep, rfl, -⟩ <;> cases heq
        | cons op before' =>
          cases heq
          exact ⟨before', rfl⟩
      rcases hbefore.waits k hk with ⟨rfl, rfl⟩ | ⟨rfl, rfl⟩
      · rw [rank, rank, if_pos ⟨hns, hk⟩]
        exact Nat.lt_succ_self 2
      · have hnot : Mutex.view c ∉ s.threads.held (.connection c sid) := fun hmem => by
          rcases hbefore.waits _ hmem with ⟨-, h'⟩ | ⟨h', -⟩ <;> cases h'
        rw [rank, rank, if_neg fun h' => hnot h'.2]
        exact Nat.lt_succ_self 1
    · obtain ⟨rfl, rfl⟩ := hsweep.waits k hk
      exact (by decide : 2 < 4)

theorem rank_le (s : Server Client Session) (l : Mutex Client Session) : rank s l ≤ 4 := by
  cases l with
  | storage => exact Nat.zero_le 4
  | manager => exact le_rfl
  | view c => exact (by decide : 2 ≤ 4)
  | session c sid =>
    rw [rank]
    split_ifs <;> decide

end

/-- **The server's mutexes never deadlock**: in no state that any interleaving reaches is there a
set of threads each waiting for a mutex that one of them owns, nor a thread waiting for a mutex it
owns itself. -/
theorem mutexes_deadlock_free {actions : List (Action Client Session)} {s : Server Client Session}
    (hrun : runFrom step actions start = some s) :
    ¬ s.threads.Deadlocked
      ∧ ∀ t l ops, s.threads.todo t = .acquire l :: ops → s.threads.owner l ≠ some t := by
  have hs : Ordered s := runFrom_invariant (fun _ _ _ h hs => Ordered.step hs h) hrun ordered_start
  have hrank : ∀ t l ops, s.threads.todo t = .acquire l :: ops →
      ∀ k ∈ s.threads.held t, rank s k < rank s l :=
    fun _ _ _ htodo _ hk => hs.rank_lt htodo hk
  refine ⟨hs.consistent.not_deadlocked (rank s) (rank_le s) hrank, fun t l ops htodo howner => ?_⟩
  exact Nat.lt_irrefl _ (hrank t l ops htodo l ((hs.consistent.owner l t).mp howner))

/-- A known client, one file. -/
def oneFile : Arrival Bool := ⟨true, none, 1, 1, []⟩

/-- A session is set up, and its handler has its mutex to terminate it, while the next connection of
the client has the view's to set up the next session. -/
def abortMeetsConnection : List (Action Unit Bool) :=
  List.flatten [[.accept () false oneFile], List.replicate 23 (.run (.connection () false)),
    [.receive () false .sessionAbort, .accept () true oneFile],
    List.replicate 3 (.run (.connection () true)), [.run (.handler () false)]]

theorem abortMeetsConnection_waits :
    ∃ s, runFrom step abortMeetsConnection start = some s
      ∧ (s.threads.todo (.handler () false)).head? = some (.acquire (.view ()))
      ∧ s.threads.owner (.view ()) = some (.connection () true)
      ∧ ¬ s.threads.Deadlocked := by
  have hrun : (runFrom step abortMeetsConnection start).map (fun s => decide
      ((s.threads.todo (.handler () false)).head? = some (.acquire (.view ()))
        ∧ s.threads.owner (.view ()) = some (.connection () true))) = some true := by
    decide +kernel
  obtain ⟨s, hs, hwaits⟩ := Option.map_eq_some_iff.mp hrun
  obtain ⟨htodo, howner⟩ := of_decide_eq_true hwaits
  exact ⟨s, hs, htodo, howner, (mutexes_deadlock_free hs).1⟩

end Mutexes

end DistBuild
