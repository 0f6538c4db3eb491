import DistBuild.Machinery.History
import DistBuild.Server.Scheduling

/-!
# Server/Exceptions — `create_directories` throws, and `add_session` is over

    start ─▸ prepare ─▸ create_directories ─▸ scan ─▸ … ─▸ confirm ─▸ sweepStart
                │              └─▸ throws: no confirmation, no handler, no sweep
                └─▸ throws, before the arguments are ready

The exception ends the connection's detached coroutine, and nobody takes the session back: it stays
listed, in the one case with its arguments ready.  It is compiled then only if a sweep of another
session comes by; alone, it never is (`thrown_session_not_enqueued`).  For every other session the
scheduling is exact (`enqueued_when_ready`).
-/

namespace DistBuild

/-- `add_session` has yet to make directories: that of the object file, before the arguments are
ready, or those of `_create_client_dir_hierarchy`, before it looks at its first file. -/
def Session.creatingDirs (x : Session) : Bool :=
  match x.starting with
  | .preparing => true
  | .scanning todo => todo = x.requiredFilesState
  | _ => false

/-- The session whose `add_session` takes the step. -/
def Action.adding : Action → Option (ClientId × SessionId)
  | .client c (.session sid .prepare) | .client c (.session sid (.scan _))
  | .client c (.session sid .claim) | .client c (.session sid .confirm)
  | .client c (.sweepStart sid _) => some (c, sid)
  | _ => none

/-- The server, and the sessions whose `add_session` has thrown. -/
structure ThrowingSystem where
  system : System
  thrown : List (ClientId × SessionId)

inductive ThrowingAction
  | base (a : Action)
  | throws (c : ClientId) (sid : SessionId)

/-- The step of the server itself. -/
def ThrowingAction.base? : ThrowingAction → Option Action
  | .base a => some a
  | .throws _ _ => none

namespace ThrowingSystem

variable (sha1 : Str → Str)

/-- One section of one thread, or an exception; an `add_session` that has thrown takes no step. -/
def step : ThrowingAction → ThrowingSystem → Option ThrowingSystem
  | .base a, s =>
    if ∃ r ∈ a.adding, r ∈ s.thrown then none
    else (System.step sha1 a s.system).map fun t => { s with system := t }
  | .throws c sid, s => do
    let x ← (s.system.views c).sessions sid
    if x.creatingDirs = true ∧ (c, sid) ∉ s.thrown then
      some { s with thrown := (c, sid) :: s.thrown }
    else none

def initial (threadPoolSz : ℕ) (disk : Disk) : ThrowingSystem where
  system := .initial threadPoolSz disk
  thrown := []

/-- The requests a step puts into the queue. -/
def added (s t : ThrowingSystem) : List CompilationRequest := System.added s.system t.system

/-- No `add_session` and no `process_file_chunk` of the client `c` is in progress: the one is over
if it has returned or thrown. -/
def Quiet (c : ClientId) (s : ThrowingSystem) : Prop :=
  ∀ t ∈ (s.system.views c).started, ∀ x ∈ (s.system.views c).sessions t,
    (x.starting.inProgress = false ∨ (c, t) ∈ s.thrown) ∧ x.handling.processing = false

instance (c : ClientId) (s : ThrowingSystem) : Decidable (s.Quiet c) := by
  unfold Quiet
  infer_instance

variable {sha1}

/-- **A step is one of the server, or an exception**, which leaves the server as it is. -/
theorem step_cases {a : ThrowingAction} {s t : ThrowingSystem} (h : step sha1 a s = some t) :
    (∃ b, a = .base b ∧ System.step sha1 b s.system = some t.system ∧ t.thrown = s.thrown)
      ∨ a.base? = none ∧ t.system = s.system := by
  cases a with
  | base b =>
    rw [step] at h
    split_ifs at h
    obtain ⟨u, hu, rfl⟩ := Option.map_eq_some_iff.mp h
    exact .inl ⟨b, rfl, hu, rfl⟩
  | throws c sid =>
    simp only [step, Option.bind_eq_bind, Option.bind_eq_some_iff] at h
    obtain ⟨x, -, h⟩ := h
    split_ifs at h
    cases h
    exact .inr ⟨rfl, rfl⟩

/-- **A run is one of the server**, with the exceptions left out, and enqueues the same. -/
theorem run_base {as : List ThrowingAction} {s t : ThrowingSystem}
    (hr : runFrom (step sha1) as s = some t) :
    runFrom (System.step sha1) (as.filterMap (·.base?)) s.system = some t.system
      ∧ emitted (System.step sha1) System.added (as.filterMap (·.base?)) s.system
        = emitted (step sha1) added as s := by
  induction as generalizing s with
  | nil =>
    obtain rfl : s = t := Option.some.inj hr
    exact ⟨rfl, rfl⟩
  | cons a as ih =>
    obtain ⟨u, hu, hr⟩ := runFrom_cons.mp hr
    obtain ⟨hrun, hemitted⟩ := ih hr
    rw [emitted_cons_of_step hu, added]
    rcases step_cases hu with ⟨b, rfl, hb, -⟩ | ⟨hnone, hsame⟩
    · have hcons : (ThrowingAction.base b :: as).filterMap (·.base?)
          = b :: as.filterMap (·.base?) := rfl
      rw [hcons, runFrom_cons, emitted_cons_of_step hb, hemitted]
      exact ⟨⟨u.system, hb, hrun⟩, rfl⟩
    · have hnil : System.added s.system u.system = [] := by
        rw [hsame]
        exact List.drop_length
      rw [List.filterMap_cons_none hnone, hnil, List.nil_append, ← hsame]
      exact ⟨hrun, hemitted⟩

/-- What the requests of a run have to do with the flags, exceptions or not. -/
theorem scheduled {n : ℕ} {disk : Disk} {as : List ThrowingAction} {s : ThrowingSystem}
    (hr : runFrom (step sha1) as (initial n disk) = some s) :
    System.Scheduled (emitted (step sha1) added as (initial n disk)) s.system := by
  obtain ⟨hrun, hemitted⟩ := run_base hr
  rw [← hemitted]
  exact emitted_invariant (fun _ _ _ _ h hs => hs.step h) hrun (System.scheduled_initial n disk)

/-- **Where nothing is in progress, a ready session whose `add_session` has returned is
enqueued.** -/
theorem Quiet.enqueued {reqs : List CompilationRequest} {s : ThrowingSystem}
    (hs : System.Scheduled reqs s.system) {c : ClientId} (hq : s.Quiet c) {sid : SessionId}
    (hassoc : sid ∈ (s.system.views c).associatedSessions)
    (hready : (s.system.views c).ReadyToCompile sid) (hthrown : (c, sid) ∉ s.thrown) :
    (c, sid) ∈ reqs.map (·.requesterSession) := by
  obtain ⟨x, hx, hready⟩ := hready
  have hstarted : ∀ {t y}, (s.system.views c).sessions t = some y →
      (y.starting.inProgress = false ∨ (c, t) ∈ s.thrown) ∧ y.handling.processing = false :=
    fun hy => hq _ ((hs.registered c) _ _ hy).started _ hy
  have hover : x.starting.inProgress = false := (hstarted hx).1.resolve_right hthrown
  refine (hs.flags c sid).mpr ((hs.woken c).flagged (fun t y hy => (hstarted hy).2) hassoc hx ?_
    hready)
  cases hst : x.starting with
  | started => rfl
  | _ => exact absurd hover (by simp [Starting.inProgress, hst])

end ThrowingSystem

variable {sha1 : Str → Str}

/-- **A session is enqueued exactly when it is ready**, in every run, whatever throws: at most once,
only while its arguments and files are there, and by the time no call of its client is in progress,
unless its own `add_session` has thrown. -/
theorem enqueued_when_ready {n : ℕ} {disk : Disk} {as : List ThrowingAction} {s : ThrowingSystem}
    (hr : runFrom (ThrowingSystem.step sha1) as (ThrowingSystem.initial n disk) = some s) :
    let requests := (emitted (ThrowingSystem.step sha1) ThrowingSystem.added as
      (ThrowingSystem.initial n disk)).map (·.requesterSession)
    requests.Nodup
      ∧ (∀ a t, ThrowingSystem.step sha1 a s = some t → ∀ r ∈ ThrowingSystem.added s t,
          (s.system.views r.requesterSession.1).ReadyToCompile r.requesterSession.2)
      ∧ ∀ c, s.Quiet c → ∀ sid ∈ (s.system.views c).associatedSessions,
          (s.system.views c).ReadyToCompile sid → (c, sid) ∉ s.thrown → (c, sid) ∈ requests := by
  have hs := ThrowingSystem.scheduled hr
  refine ⟨hs.once, fun a t hstep r hmem => ?_, fun c hq sid hsid hready hthrown =>
    hq.enqueued hs hsid hready hthrown⟩
  rcases ThrowingSystem.step_cases hstep with ⟨b, -, hb, -⟩ | ⟨-, hsame⟩
  · obtain ⟨c, va, e, sid, -, rfl, hsid, hview, -⟩ := System.mem_added hb hmem
    exact hview.readyToCompile hsid
  · rw [ThrowingSystem.added, hsame] at hmem
    exact absurd (List.drop_length ▸ hmem : r ∈ []) List.not_mem_nil

/-- A first session whose directories cannot be made, and a second one that uploads its file. -/
def thrownThenSwept : List ThrowingAction :=
  let c := str "c"
  let s := str "s"
  let x := str "x"
  let uploads : List Action :=
    firstUpload ++ [.client c (.sweepStart s [s, x]), .client c (.sweepChunk s [s, x])]
      ++ onSession c s [.notify]
  [.base (.client c (.start x [])), .base (.client c (.session x .prepare)), .throws c x]
    ++ uploads.map .base

/-- The second one is enqueued. -/
theorem thrownThenSwept_enqueued :
    ∃ s, runFrom (ThrowingSystem.step sampleSha1) thrownThenSwept (ThrowingSystem.initial 1 .empty)
        = some s
      ∧ (str "c", str "s") ∈ (emitted (ThrowingSystem.step sampleSha1) ThrowingSystem.added
          thrownThenSwept (ThrowingSystem.initial 1 .empty)).map (·.requesterSession) := by
  have hrun : ((runFrom (ThrowingSystem.step sampleSha1) thrownThenSwept
      (ThrowingSystem.initial 1 .empty)).map fun s => decide (s.Quiet (str "c")
        ∧ str "s" ∈ (s.system.views (str "c")).associatedSessions
        ∧ (s.system.views (str "c")).ReadyToCompile (str "s")
        ∧ (str "c", str "s") ∉ s.thrown)) = some true := by
    decide +kernel
  obtain ⟨s, hr, hready⟩ := Option.map_eq_some_iff.mp hrun
  obtain ⟨hq, hsid, hready, hthrown⟩ := of_decide_eq_true hready
  exact ⟨s, hr, (enqueued_when_ready hr).2.2 _ hq _ hsid hready hthrown⟩

/-- The first one alone. -/
def thrownAlone : List ThrowingAction := thrownThenSwept.take 3

/-- It is listed and ready, with no call in progress, and not enqueued. -/
theorem thrown_session_not_enqueued :
    ¬ ∀ as s, runFrom (ThrowingSystem.step sampleSha1) as (ThrowingSystem.initial 1 .empty)
        = some s →
      ∀ c, s.Quiet c → ∀ sid ∈ (s.system.views c).associatedSessions,
        (s.system.views c).ReadyToCompile sid →
        (c, sid) ∈ (emitted (ThrowingSystem.step sampleSha1) ThrowingSystem.added as
          (ThrowingSystem.initial 1 .empty)).map (·.requesterSession) := by
  intro h
  have hrun : ((runFrom (ThrowingSystem.step sampleSha1) thrownAlone
      (ThrowingSystem.initial 1 .empty)).map fun s => decide (s.Quiet (str "c")
        ∧ str "x" ∈ (s.system.views (str "c")).associatedSessions
        ∧ (s.system.views (str "c")).ReadyToCompile (str "x"))) = some true := by
    decide +kernel
  have hnone : emitted (ThrowingSystem.step sampleSha1) ThrowingSystem.added thrownAlone
      (ThrowingSystem.initial 1 .empty) = [] := by
    decide +kernel
  obtain ⟨s, hr, hready⟩ := Option.map_eq_some_iff.mp hrun
  obtain ⟨hq, hsid, hready⟩ := of_decide_eq_true hready
  have hmem := h thrownAlone s hr (str "c") hq (str "x") hsid hready
  rw [hnone] at hmem
  exact absurd hmem List.not_mem_nil

end DistBuild
