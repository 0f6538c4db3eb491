import DistBuild.Machinery.Run
import DistBuild.Server.ClientView

/-!
# Server/System — all client views, and the compiler's workers

    sweeps ─▸ compileTaskQueue ─▸ worker: dequeue ─▸ advertise ─▸ compile ─▸ advertiseEnd ─▸ publish
    terminate ─▸ invalidates the queued requests of its session

A request names its session by client and id, where the code holds a raw pointer: whether the
session is still there when a worker uses it is the question.  What one client view goes through in
a run is a run of its own (`view_invariant`), whatever the others do.
-/

namespace DistBuild

/-- `CompilationRequest`, without the command line. -/
structure CompilationRequest where
  invalidated : Bool
  requesterSession : ClientId × SessionId
deriving DecidableEq, Repr

/-- Where a worker is in its loop, with the session whose request it holds. -/
inductive Worker
  | waiting
  | taken (requester : ClientId × SessionId)
  | compiling (requester : ClientId × SessionId)
  | compiled (requester : ClientId × SessionId) (out : CompilationOutput)
  | publishing (requester : ClientId × SessionId) (out : CompilationOutput)
deriving DecidableEq, Repr

def Worker.requester : Worker → Option (ClientId × SessionId)
  | .waiting => none
  | .taken r | .compiling r | .compiled r _ | .publishing r _ => some r

/-- The server; `sent` records what each session sends. -/
structure System where
  views : ClientId → ClientView
  disk : Disk
  compileTaskQueue : List CompilationRequest
  workers : List Worker
  activeCompileJobs : ℕ
  availableJobs : ℕ
  sent : List ((ClientId × SessionId) × ServerMessage)

inductive WorkerAction
  | dequeue
  | advertise
  | compile (out : CompilationOutput)
  | advertiseEnd
  | publish (objFile : Option Str)

inductive Action
  | client (c : ClientId) (a : ClientAction)
  | worker (i : ℕ) (a : WorkerAction)

/-- The session whose thread takes the step. -/
def ClientAction.actor : ClientAction → SessionId
  | .start sid _ | .session sid _ | .sweepStart sid _ | .sweepChunk sid _ | .terminate sid
  | .remove sid | .release sid => sid

namespace System

/-- `CompilerManager::invalidate_requests_for_session`. -/
def invalidateRequestsForSession (queue : List CompilationRequest) (r : ClientId × SessionId) :
    List CompilationRequest :=
  queue.map fun q => if q.requesterSession = r then { q with invalidated := true } else q

/-- The queue after a step of a client: a terminating session invalidates, a sweep adds. -/
def requeue (queue : List CompilationRequest) (c : ClientId) (a : ClientAction)
    (enqueued : List SessionId) : List CompilationRequest :=
  match a with
  | .terminate sid => invalidateRequestsForSession queue (c, sid)
  | _ => queue ++ enqueued.map fun sid => ⟨false, (c, sid)⟩

/-- `CompilerManager::get_available_jobs`, of which a worker tells the advertiser. -/
def getAvailableJobs (s : System) : ℕ := s.workers.length - s.activeCompileJobs

/-- One section of `_worker_loop`, of the worker `i`, which is at `k`. -/
def workerStep (i : ℕ) (a : WorkerAction) (k : Worker) (s : System) : Option System :=
  match a, k with
  | .dequeue, .waiting =>
    match s.compileTaskQueue with
    | [] => none
    | r :: queue =>
      if s.activeCompileJobs < s.workers.length then
        if r.invalidated then some { s with compileTaskQueue := queue }
        else
          some { s with
            compileTaskQueue := queue
            workers := s.workers.set i (.taken r.requesterSession)
            activeCompileJobs := s.activeCompileJobs + 1 }
      else none
  | .advertise, .taken r =>
    some { s with workers := s.workers.set i (.compiling r), availableJobs := s.getAvailableJobs }
  | .compile out, .compiling r =>
    some { s with
      workers := s.workers.set i (.compiled r out)
      activeCompileJobs := s.activeCompileJobs - 1 }
  | .advertiseEnd, .compiled r out =>
    some { s with
      workers := s.workers.set i (.publishing r out), availableJobs := s.getAvailableJobs }
  | .publish objFile, .publishing r out =>
    some { s with
      workers := s.workers.set i .waiting
      sent := s.sent
        ++ (sendCompilationResult r.2 out objFile).map fun m => (r, .objFileChunk m) }
  | _, _ => none

variable (sha1 : Str → Str)

/-- One section of one thread. -/
def step : Action → System → Option System
  | .client c a, s =>
    (ClientView.step sha1 (workspaceOf c) a s.disk (s.views c)).map fun e =>
      { s with
        views := Function.update s.views c e.view
        disk := e.disk
        compileTaskQueue := requeue s.compileTaskQueue c a e.enqueued
        sent := s.sent ++ e.sent.map fun m => ((c, a.actor), m) }
  | .worker i a, s => s.workers[i]?.bind fun k => workerStep i a k s

/-- A server no client has connected to, with `threadPoolSz` workers. -/
def initial (threadPoolSz : ℕ) (disk : Disk) : System where
  views := fun _ => .empty
  disk := disk
  compileTaskQueue := []
  workers := List.replicate threadPoolSz .waiting
  activeCompileJobs := 0
  availableJobs := 8
  sent := []

/-- The requests a step from `s` to `t` puts into the queue. -/
def added (s t : System) : List CompilationRequest :=
  t.compileTaskQueue.drop s.compileTaskQueue.length

/-! ## One client view in a run -/

/-- A condition on the steps of the client `c`. -/
def onClient (c : ClientId) (G : ClientAction → Disk → ClientView → Prop) :
    Action → System → Prop
  | .client c' a, s => c' = c → G a s.disk (s.views c)
  | .worker _ _, _ => True

instance onClient.decidable (c : ClientId) (G : ClientAction → Disk → ClientView → Prop)
    [∀ a d V, Decidable (G a d V)] : ∀ a s, Decidable (onClient c G a s)
  | .client c' a, s => inferInstanceAs (Decidable (c' = c → G a s.disk (s.views c)))
  | .worker _ _, _ => inferInstanceAs (Decidable True)

variable {sha1}

/-- A worker changes no client view, and no file. -/
theorem workerStep_views {i : ℕ} {a : WorkerAction} {k : Worker} {s t : System}
    (h : workerStep i a k s = some t) : t.views = s.views ∧ t.disk = s.disk := by
  unfold workerStep at h
  split at h
  · split at h
    · cases h
    · split_ifs at h
      · cases h
        exact ⟨rfl, rfl⟩
      · cases h
        exact ⟨rfl, rfl⟩
  all_goals cases h <;> exact ⟨rfl, rfl⟩

/-- A step of a client is one of its view. -/
theorem client_cases {c : ClientId} {a : ClientAction} {s t : System}
    (h : step sha1 (.client c a) s = some t) :
    ∃ e, ClientView.Step sha1 (workspaceOf c) s.disk (s.views c) a e ∧ t.views c = e.view
      ∧ t.disk = e.disk ∧ t.compileTaskQueue = requeue s.compileTaskQueue c a e.enqueued := by
  obtain ⟨e, he, rfl⟩ := Option.map_eq_some_iff.mp h
  exact ⟨e, ClientView.step_cases he, Function.update_self .., rfl, rfl⟩

/-- **What a step of the server does to one client view**: a step of that view, or nothing. -/
theorem step_view (c : ClientId) {a : Action} {s t : System} (h : step sha1 a s = some t) :
    t.views c = s.views c ∨ ∃ va e, a = .client c va
      ∧ ClientView.Step sha1 (workspaceOf c) s.disk (s.views c) va e ∧ t.views c = e.view := by
  cases a with
  | worker i a =>
    obtain ⟨k, -, hk⟩ := Option.bind_eq_some_iff.mp h
    exact Or.inl (congrFun (workerStep_views hk).1 c)
  | client c' a =>
    by_cases hc : c' = c
    · subst hc
      obtain ⟨e, he, hv, -⟩ := client_cases h
      exact Or.inr ⟨a, e, rfl, he, hv⟩
    · obtain ⟨e, -, rfl⟩ := Option.map_eq_some_iff.mp h
      exact Or.inl (Function.update_of_ne (Ne.symm hc) ..)

/-- A worker only takes requests out of the queue. -/
theorem workerStep_added {i : ℕ} {a : WorkerAction} {k : Worker} {s t : System}
    (h : workerStep i a k s = some t) : added s t = [] := by
  have hle : t.compileTaskQueue.length ≤ s.compileTaskQueue.length := by
    unfold workerStep at h
    split at h
    · split at h
      · cases h
      · rename_i hq
        split_ifs at h
        all_goals
          cases h
          simp [hq]
    all_goals cases h <;> exact le_rfl
  exact List.drop_eq_nil_iff.mpr hle

/-- **Requests come from sweeps**: whatever a step puts into the queue, a sweep of a client did. -/
theorem mem_added {a : Action} {s t : System} (h : step sha1 a s = some t)
    {r : CompilationRequest} (hr : r ∈ added s t) :
    ∃ c va e sid, a = .client c va ∧ r = ⟨false, (c, sid)⟩ ∧ sid ∈ e.enqueued
      ∧ ClientView.Step sha1 (workspaceOf c) s.disk (s.views c) va e ∧ t.views c = e.view := by
  cases a with
  | worker i a =>
    obtain ⟨k, -, hk⟩ := Option.bind_eq_some_iff.mp h
    rw [workerStep_added hk] at hr
    cases hr
  | client c va =>
    obtain ⟨e, he, rfl⟩ := Option.map_eq_some_iff.mp h
    have hstep := ClientView.step_cases he
    have hmem : r ∈ e.enqueued.map fun sid => CompilationRequest.mk false (c, sid) := by
      cases va with
      | terminate sid =>
        have hnil : (invalidateRequestsForSession s.compileTaskQueue (c, sid)).drop
            s.compileTaskQueue.length = [] :=
          List.drop_eq_nil_iff.mpr (List.length_map ..).le
        exact absurd (hnil ▸ hr : r ∈ []) List.not_mem_nil
      | _ => simpa [added, requeue] using hr
    obtain ⟨sid, hsid, rfl⟩ := List.mem_map.mp hmem
    exact ⟨c, va, e, sid, rfl, rfl, hsid, hstep, Function.update_self ..⟩

/-- **The invariant rule for one client view.** -/
theorem view_invariant {c : ClientId} {G : ClientAction → Disk → ClientView → Prop}
    {P : ClientView → Prop} (hempty : P .empty)
    (hstep : ∀ disk V a e, G a disk V → ClientView.Step sha1 (workspaceOf c) disk V a e → P V →
      P e.view)
    {n : ℕ} {disk : Disk} {as : List Action} {t : System}
    (hm : Meets (step sha1) (onClient c G) as (initial n disk))
    (hr : runFrom (step sha1) as (initial n disk) = some t) : P (t.views c) := by
  refine hm.invariant (I := fun s => P (s.views c)) (fun a s u hg hs hP => ?_) hr hempty
  rcases step_view c hs with hv | ⟨va, e, rfl, hstep', hv⟩
  · exact hv ▸ hP
  · exact hv ▸ hstep s.disk (s.views c) va e (hg rfl) hstep' hP

end System

/-! ## Runs, spelled out -/

/-- Steps of one session, in order. -/
def onSession (c : ClientId) (sid : SessionId) (as : List SessionAction) : List Action :=
  as.map fun a => .client c (.session sid a)

/-- The message that uploads a file in one chunk. -/
def wholeFile (sid : SessionId) (f data : Str) : FileChunk where
  sessionId := sid
  filename := f
  sequenceNo := 1
  offset := 0
  data := data
  isLastChunk := true

/-- A session start for one file, up to its scan. -/
def startFile (c : ClientId) (sid : SessionId) (i : FileInfo) : List Action :=
  .client c (.start sid [i]) :: onSession c sid [.prepare, .scan 0]

/-- The file comes in one chunk, up to the sweep. -/
def uploadFile (c : ClientId) (sid : SessionId) (f data : Str) : List Action :=
  onSession c sid [.receive (wholeFile sid f data), .transfer, .measure, .hash, .copy, .write]

/-- The file every such run is about, with one byte in it. -/
def oneByte : FileInfo := ⟨str "/a.c", 1, sampleSha1 (str "a")⟩

/-- The first session of a client uploads the byte `a` as `/a.c`. -/
def firstUpload : List Action :=
  startFile (str "c") (str "s") oneByte
    ++ onSession (str "c") (str "s") [.claim, .confirm]
    ++ uploadFile (str "c") (str "s") (str "/a.c") (str "a")

end DistBuild
