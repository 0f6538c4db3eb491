import DistBuild.Machinery.Family
import DistBuild.Server.Confirmation

/-!
# Server/Jobs — every job is ended once

    sweep ──▸ compileTaskQueue ──▸ worker ──▸ published
                    └── its session has terminated ──▸ dropped

A request is in the queue, or with one worker, or it has been ended; never two of these, and never
none (`Accounted`).  So a server whose workers have nothing left to do has ended all of them.
-/

namespace DistBuild

/-- How a job ends: its result is published, or its request is found invalidated. -/
inductive JobEnd
  | published (out : CompilationOutput) (objFile : Option Str)
  | dropped
deriving DecidableEq

/-- What the session is sent at the end of its job. -/
def JobEnd.chunks (sid : SessionId) : JobEnd → List ObjFileChunk
  | .published out objFile => sendCompilationResult sid out objFile
  | .dropped => []

/-- The object chunk a message carries. -/
def ServerMessage.objFileChunk? : ServerMessage → Option ObjFileChunk
  | .objFileChunk m => some m
  | _ => none

namespace Worker

@[simp] theorem requester_waiting : waiting.requester = none := rfl

@[simp] theorem requester_taken (r : ClientId × SessionId) : (taken r).requester = some r := rfl

@[simp] theorem requester_publishing (r : ClientId × SessionId) (out : CompilationOutput) :
    (publishing r out).requester = some r := rfl

/-- The worker is between the two changes of the counter. -/
def active : Worker → Bool
  | .taken _ | .compiling _ => true
  | _ => false

@[simp] theorem active_waiting : waiting.active = false := rfl

@[simp] theorem active_taken (r : ClientId × SessionId) : (taken r).active = true := rfl

@[simp] theorem active_publishing (r : ClientId × SessionId) (out : CompilationOutput) :
    (publishing r out).active = false := rfl

end Worker

/-- A sweep raises the flags of those it enqueues. -/
theorem ClientView.Sweeps.toNat_flag {V V' : ClientView} {order new : List SessionId}
    (h : V.Sweeps V' order new) (t : SessionId) :
    (V'.isCompilerRunning t).toNat = (V.isCompilerRunning t).toNat + new.count t := by
  by_cases ht : t ∈ new
  · rw [(h.flags t).mpr (Or.inr ht), h.fresh t ht, List.count_eq_one_of_mem h.once ht]
    rfl
  · have hflag : V'.isCompilerRunning t = V.isCompilerRunning t :=
      Bool.eq_iff_iff.mpr ((h.flags t).trans (or_iff_left ht))
    rw [hflag, List.count_eq_zero_of_not_mem ht, Nat.add_zero]

namespace System

/-- The jobs a step of the worker at `k` ends. -/
def workerEnds (a : WorkerAction) (k : Worker) (s : System) :
    List ((ClientId × SessionId) × JobEnd) :=
  match a, k with
  | .dequeue, .waiting =>
    ((s.compileTaskQueue.head?.filter (·.invalidated)).map fun q =>
      (q.requesterSession, .dropped)).toList
  | .publish objFile, .publishing r out => [(r, .published out objFile)]
  | _, _ => []

/-- The jobs a step ends. -/
def jobEnds : Action → System → List ((ClientId × SessionId) × JobEnd)
  | .worker i a, s => (s.workers[i]?.map fun k => workerEnds a k s).getD []
  | .client _ _, _ => []

/-- The requests of `r` that are not ended: those in the queue, and those the workers hold. -/
def pending (s : System) (r : ClientId × SessionId) : ℕ :=
  s.compileTaskQueue.countP (·.requesterSession = r) + s.workers.countP (·.requester = some r)

/-- The session has been terminated. -/
def Terminated (s : System) (r : ClientId × SessionId) : Prop :=
  ∃ x ∈ (s.views r.1).sessions r.2, x.terminated = true

/-- The object chunks the session has been sent. -/
def resultChunks (s : System) (r : ClientId × SessionId) : List ObjFileChunk :=
  (s.sentBy r).filterMap ServerMessage.objFileChunk?

/-! ## What a worker's step can do -/

/-- `workerStep` as a relation. -/
inductive WorkerStep (s : System) (i : ℕ) : WorkerAction → Worker → System → Prop
  | drop {q queue} (hq : s.compileTaskQueue = q :: queue) (hinv : q.invalidated = true) :
    WorkerStep s i .dequeue .waiting { s with compileTaskQueue := queue }
  | take {q queue} (hq : s.compileTaskQueue = q :: queue) (hinv : q.invalidated = false) :
    WorkerStep s i .dequeue .waiting { s with
      compileTaskQueue := queue
      workers := s.workers.set i (.taken q.requesterSession)
      activeCompileJobs := s.activeCompileJobs + 1 }
  | advertise {r} : WorkerStep s i .advertise (.taken r) { s with
      workers := s.workers.set i (.compiling r)
      availableJobs := s.getAvailableJobs }
  | compile {r out} : WorkerStep s i (.compile out) (.compiling r) { s with
      workers := s.workers.set i (.compiled r out)
      activeCompileJobs := s.activeCompileJobs - 1 }
  | advertiseEnd {r out} : WorkerStep s i .advertiseEnd (.compiled r out) { s with
      workers := s.workers.set i (.publishing r out)
      availableJobs := s.getAvailableJobs }
  | publish {r out objFile} : WorkerStep s i (.publish objFile) (.publishing r out) { s with
      workers := s.workers.set i .waiting
      sent := s.sent
        ++ (sendCompilationResult r.2 out objFile).map fun m => (r, .objFileChunk m) }

variable {sha1 : Str → Str} {i : ℕ} {k : Worker} {s t : System}

/-- **What a step of a worker can do**, once and for all. -/
theorem workerStep_cases {a : WorkerAction} (h : workerStep i a k s = some t) :
    WorkerStep s i a k t := by
  unfold workerStep at h
  split at h
  · split at h
    · exact absurd h nofun
    · split_ifs at h with hlt hinv
      · obtain rfl := Option.some.inj h
        exact .drop ‹_› hinv
      · obtain rfl := Option.some.inj h
        exact .take ‹_› (Bool.eq_false_of_not_eq_true hinv)
  · obtain rfl := Option.some.inj h
    exact .advertise
  · obtain rfl := Option.some.inj h
    exact .compile
  · obtain rfl := Option.some.inj h
    exact .advertiseEnd
  · obtain rfl := Option.some.inj h
    exact .publish
  · exact absurd h nofun

/-! ## Terminated sessions stay terminated -/

theorem Terminated.view {V : ClientView} {w : Str} {disk : Disk} {a : ClientAction} {e : ViewEffect}
    (h : ClientView.Step sha1 w disk V a e) {sid : SessionId}
    (hs : ∃ x ∈ V.sessions sid, x.terminated = true) :
    ∃ x ∈ e.view.sessions sid, x.terminated = true := by
  obtain ⟨y, hy, hterm⟩ := hs
  have hmove : ∀ {sid' x x'}, V.sessions sid' = some x →
      (x.terminated = true → x'.terminated = true) →
      ∃ z ∈ Function.update V.sessions sid' (some x') sid, z.terminated = true := by
    intro sid' x x' hx hx'
    by_cases hsid : sid = sid'
    · subst hsid
      obtain rfl : x = y := Option.some.inj (hx.symm.trans hy)
      exact ⟨x', Function.update_self .., hx' hterm⟩
    · exact ⟨y, (Function.update_of_ne hsid ..).trans hy, hterm⟩
  cases h with
  | @start sid' infos h =>
    refine ⟨y, (V.addSession_of_ne w infos ?_).trans hy, hterm⟩
    rintro rfl
    exact absurd (h.symm.trans hy) nofun
  | session hx h => exact hmove hx fun hx' => h.frame.2.2.trans hx'
  | sweepStart hx h hnew => exact hmove hx id
  | sweepChunk hx h hnew => exact hmove hx id
  | terminate hx h => exact hmove hx fun _ => rfl
  | remove hx h => exact hmove hx id
  | release hx h => exact hmove hx id

theorem Terminated.step {a : Action} (h : step sha1 a s = some t) {r : ClientId × SessionId}
    (hs : s.Terminated r) : t.Terminated r := by
  unfold Terminated
  rcases step_view r.1 h with hv | ⟨a, e, -, hstep, hv⟩
  · exact hv ▸ hs
  · exact hv ▸ Terminated.view hstep hs

/-! ## What a client's step adds -/

/-- A client's step sends no object chunk. -/
theorem objFileChunk?_of_mem_sent {V : ClientView} {w : Str} {disk : Disk} {a : ClientAction}
    {e : ViewEffect} (h : ClientView.Step sha1 w disk V a e) :
    e.sent.filterMap ServerMessage.objFileChunk? = [] := by
  have hanswer : ∀ (sid : SessionId) (ok : Bool),
      (answer sid ok).filterMap ServerMessage.objFileChunk? = [] := by
    intro sid ok
    unfold answer
    split_ifs <;> rfl
  cases h with
  | session hx h =>
    cases h with
    | receive h => exact hanswer _ _
    | write h => exact hanswer _ _
    | _ => rfl
  | _ => rfl

/-- The queue after a client's step: nobody leaves it, and who joins it was enqueued. -/
theorem requeue_requesters {V : ClientView} {w : Str} {disk : Disk} {c : ClientId}
    {a : ClientAction} {e : ViewEffect} (h : ClientView.Step sha1 w disk V a e)
    (queue : List CompilationRequest) :
    (requeue queue c a e.enqueued).map (·.requesterSession)
      = queue.map (·.requesterSession) ++ e.enqueued.map fun sid => (c, sid) := by
  cases h with
  | terminate hx h =>
    simp only [requeue, invalidateRequestsForSession, List.map_map, List.map_nil, List.append_nil]
    refine List.map_congr_left fun q _ => ?_
    simp only [Function.comp_apply]
    split_ifs <;> rfl
  | _ => simp [requeue]

/-- What is invalidated in the queue was so before, or is of the session that terminates. -/
theorem invalidated_requeue {queue : List CompilationRequest} {c : ClientId} {a : ClientAction}
    {enqueued : List SessionId} {q : CompilationRequest} (h : q ∈ requeue queue c a enqueued)
    (hq : q.invalidated = true) :
    q ∈ queue ∨ ∃ sid, a = .terminate sid ∧ q.requesterSession = (c, sid) := by
  cases a with
  | terminate sid =>
    obtain ⟨q₀, hq₀, hq₀'⟩ := List.mem_map.mp h
    split_ifs at hq₀' with hsid
    · exact Or.inr ⟨sid, rfl, by rw [← hq₀']; exact hsid⟩
    · exact Or.inl (hq₀' ▸ hq₀)
  | _ =>
    rcases List.mem_append.mp h with h | h
    · exact Or.inl h
    · obtain ⟨sid, -, rfl⟩ := List.mem_map.mp h
      exact absurd hq nofun

/-! ## The invariant -/

/-- **Every job is somewhere, once**: of the jobs that were requested, each is pending or ended. -/
structure Accounted (ends : List ((ClientId × SessionId) × JobEnd)) (s : System) : Prop where
  balance : ∀ r, s.pending r + ends.countP (·.1 = r)
    = ((s.views r.1).isCompilerRunning r.2).toNat
  dropped : ∀ r, (r, JobEnd.dropped) ∈ ends → s.Terminated r
  invalidated : ∀ q ∈ s.compileTaskQueue, q.invalidated = true → s.Terminated q.requesterSession
  chunks : ∀ r, s.resultChunks r = ends.flatMap fun e => if e.1 = r then e.2.chunks r.2 else []
  active : s.activeCompileJobs = s.workers.countP Worker.active

theorem accounted_initial (n : ℕ) (disk : Disk) : Accounted [] (initial n disk) where
  balance r := by simp [pending, initial, ClientView.empty]
  dropped _ h := absurd h List.not_mem_nil
  invalidated _ h := absurd h List.not_mem_nil
  chunks _ := rfl
  active := by simp [initial, List.countP_replicate]

variable {ends : List ((ClientId × SessionId) × JobEnd)}

/-- A job ends with what its worker sends. -/
theorem resultChunks_publish (r q : ClientId × SessionId) (out : CompilationOutput)
    (objFile : Option Str) {t : System}
    (h : t.sent = s.sent ++ (sendCompilationResult r.2 out objFile).map fun m =>
      (r, .objFileChunk m)) :
    t.resultChunks q
      = s.resultChunks q ++ if r = q then sendCompilationResult q.2 out objFile else [] := by
  have hmap : (sendCompilationResult r.2 out objFile).map
        (fun m => (r, ServerMessage.objFileChunk m))
      = ((sendCompilationResult r.2 out objFile).map ServerMessage.objFileChunk).map
        fun m => (r, m) := by
    rw [List.map_map]
    rfl
  have hchunks : ∀ ms : List ObjFileChunk,
      (ms.map ServerMessage.objFileChunk).filterMap ServerMessage.objFileChunk? = ms := by
    intro ms
    rw [List.filterMap_map]
    exact List.filterMap_some
  rw [resultChunks, sentBy_append s t h, hmap, filterMap_sender, List.filterMap_append]
  refine congrArg _ ?_
  split_ifs with hr
  · rw [hchunks, hr]
  · rfl

/-- **A worker's step keeps the account.** -/
theorem Accounted.worker {a : WorkerAction} (hk : s.workers[i]? = some k)
    (h : WorkerStep s i a k t) (hs : Accounted ends s) :
    Accounted (ends ++ workerEnds a k s) t := by
  have hmove : ∀ (k' : Worker) (jobs : ℕ) (available : ℕ), k'.requester = k.requester →
      jobs + k.active.toNat = s.activeCompileJobs + k'.active.toNat →
      Accounted (ends ++ []) { s with
        workers := s.workers.set i k', activeCompileJobs := jobs, availableJobs := available } := by
    intro k' jobs available hreq hjobs
    rw [List.append_nil]
    refine ⟨fun r => ?_, hs.dropped, hs.invalidated, hs.chunks, ?_⟩
    · have hcount := Family.countP_set (p := (·.requester = some r)) hk k'
      rw [hreq, Nat.add_right_cancel_iff] at hcount
      refine Eq.trans ?_ (hs.balance r)
      unfold pending
      rw [hcount]
    · have hcount := Family.countP_set (p := Worker.active) hk k'
      have hact := hs.active
      show jobs = (s.workers.set i k').countP Worker.active
      omega
  cases h with
  | @drop q queue hq hinv =>
    have hends : workerEnds .dequeue .waiting s = [(q.requesterSession, .dropped)] := by
      simp [workerEnds, hq, hinv]
    have hterm : s.Terminated q.requesterSession :=
      hs.invalidated q (hq ▸ List.mem_cons_self) hinv
    rw [hends]
    refine ⟨fun r => ?_, fun r hr => ?_, fun q' hq' => hs.invalidated q' ?_, fun r => ?_, hs.active⟩
    · have hbal := hs.balance r
      simp only [pending, hq, List.countP_cons] at hbal
      simp only [pending, List.countP_append, List.countP_singleton]
      omega
    · rcases List.mem_append.mp hr with hr | hr
      · exact hs.dropped r hr
      · rw [(Prod.mk.inj (List.mem_singleton.mp hr)).1]
        exact hterm
    · exact hq ▸ List.mem_cons_of_mem q hq'
    · rw [List.flatMap_append, ← hs.chunks r]
      simp [JobEnd.chunks, resultChunks, sentBy]
  | @take q queue hq hinv =>
    have hends : workerEnds .dequeue .waiting s = [] := by simp [workerEnds, hq, hinv]
    rw [hends, List.append_nil]
    refine ⟨fun r => ?_, hs.dropped, fun q' hq' => hs.invalidated q' ?_, hs.chunks, ?_⟩
    · have hbal := hs.balance r
      have hcount := Family.countP_set (p := (·.requester = some r)) hk (.taken q.requesterSession)
      simp only [pending, hq, List.countP_cons] at hbal
      simp only [Worker.requester_waiting, Worker.requester_taken, Option.some.injEq, reduceCtorEq,
        decide_false, Bool.toNat_false] at hcount
      show queue.countP _ + (s.workers.set i _).countP _ + _ = _
      rw [← hbal]
      by_cases hr : q.requesterSession = r
      · simp only [hr, decide_true, Bool.toNat_true, if_true] at hcount ⊢
        omega
      · simp only [hr, decide_false, Bool.toNat_false, Bool.false_eq_true, if_false] at hcount ⊢
        omega
    · exact hq ▸ List.mem_cons_of_mem q hq'
    · have hcount := Family.countP_set (p := Worker.active) hk (.taken q.requesterSession)
      have hact := hs.active
      simp only [Worker.active_waiting, Worker.active_taken, Bool.toNat_true, Bool.toNat_false]
        at hcount
      show s.activeCompileJobs + 1 = (s.workers.set i _).countP Worker.active
      omega
  | advertise => exact hmove _ _ _ rfl rfl
  | @compile r out =>
    refine hmove _ _ _ rfl ?_
    have hcount := Family.countP_set (p := Worker.active) hk .waiting
    have hact := hs.active
    simp only [Worker.active, Bool.toNat_true, Bool.toNat_false] at hcount ⊢
    omega
  | advertiseEnd => exact hmove _ _ _ rfl rfl
  | @publish r out objFile =>
    refine ⟨fun q => ?_, fun q hq => ?_, hs.invalidated, fun q => ?_, ?_⟩
    · have hbal := hs.balance q
      have hcount := Family.countP_set (p := (·.requester = some q)) hk .waiting
      simp only [Worker.requester_waiting, Worker.requester_publishing, Option.some.injEq,
        reduceCtorEq, decide_false, Bool.toNat_false] at hcount
      show s.compileTaskQueue.countP _ + (s.workers.set i _).countP _ + _ = _
      rw [← hbal, pending, workerEnds, List.countP_append, List.countP_singleton]
      by_cases hr : r = q
      · simp only [hr, decide_true, Bool.toNat_true, if_true] at hcount ⊢
        omega
      · simp only [hr, decide_false, Bool.toNat_false, Bool.false_eq_true, if_false] at hcount ⊢
        omega
    · rcases List.mem_append.mp hq with hq | hq
      · exact hs.dropped q hq
      · exact JobEnd.noConfusion (Prod.mk.inj (List.mem_singleton.mp hq)).2
    · rw [resultChunks_publish r q out objFile rfl, hs.chunks q, List.flatMap_append]
      simp [workerEnds, JobEnd.chunks]
    · have hcount := Family.countP_set (p := Worker.active) hk .waiting
      have hact := hs.active
      simp only [Worker.active_waiting, Worker.active_publishing, Bool.toNat_false] at hcount
      show s.activeCompileJobs = (s.workers.set i _).countP Worker.active
      omega

/-- **A client's step keeps the account**: what it requests is pending, and it ends nothing. -/
theorem Accounted.client {c : ClientId} {a : ClientAction}
    (h : step sha1 (.client c a) s = some t) (hs : Accounted ends s) : Accounted ends t := by
  have hterm := fun r => Terminated.step (r := r) h
  obtain ⟨e, he, rfl⟩ := Option.map_eq_some_iff.mp h
  have hstep := ClientView.step_cases he
  refine ⟨fun r => ?_, fun r hr => hterm r (hs.dropped r hr), fun q hq hinv => ?_, fun r => ?_,
    hs.active⟩
  · have hqueue : (requeue s.compileTaskQueue c a e.enqueued).countP (·.requesterSession = r)
        = s.compileTaskQueue.countP (·.requesterSession = r)
          + (e.enqueued.map fun sid => (c, sid)).countP (· = r) := by
      have hmap :=
        congrArg (List.countP (· = r)) (requeue_requesters hstep s.compileTaskQueue (c := c))
      rwa [List.countP_append, List.countP_map, List.countP_map] at hmap
    have hbal := hs.balance r
    obtain ⟨c', sid⟩ := r
    unfold pending at hbal ⊢
    dsimp only at hbal ⊢
    rw [hqueue]
    by_cases hc : c' = c
    · subst hc
      have hcount : (e.enqueued.map fun sid => (c', sid)).countP (· = (c', sid))
          = e.enqueued.count sid := by
        rw [List.countP_map, List.count]
        refine List.countP_congr fun t _ => ?_
        simp
      have hflag := (ClientView.step_sweeps he).1.toNat_flag sid
      simp only [Function.update_self]
      omega
    · have hcount : (e.enqueued.map fun sid => (c, sid)).countP (· = (c', sid)) = 0 := by
        rw [List.countP_eq_zero]
        intro q hq
        obtain ⟨t, -, rfl⟩ := List.mem_map.mp hq
        simp [Ne.symm hc]
      simp only [Function.update_of_ne hc]
      omega
  · rcases invalidated_requeue hq hinv with hq | ⟨sid, rfl, hreq⟩
    · exact hterm _ (hs.invalidated q hq hinv)
    · rw [hreq]
      cases hstep with
      | @terminate _ x hx hk =>
        refine ⟨{ x with terminated := true, handling := .removing }, ?_, rfl⟩
        simp only [Function.update_self]
        exact Function.update_self ..
  · rw [← hs.chunks r]
    unfold resultChunks
    rw [sentBy_append s _ rfl, filterMap_sender, List.filterMap_append]
    split_ifs
    · rw [objFileChunk?_of_mem_sent hstep, List.append_nil]
    · rw [List.filterMap_nil, List.append_nil]

theorem Accounted.step {a : Action} (h : System.step sha1 a s = some t) (hs : Accounted ends s) :
    Accounted (ends ++ jobEnds a s) t := by
  cases a with
  | client c a =>
    rw [jobEnds, List.append_nil]
    exact hs.client h
  | worker i a =>
    obtain ⟨k, hk, h⟩ := Option.bind_eq_some_iff.mp h
    rw [jobEnds, hk]
    exact hs.worker hk (workerStep_cases h)

/-! ## When no worker can go on -/

/-- No worker can take a step. -/
def Idle (sha1 : Str → Str) (s : System) : Prop := ∀ i a, step sha1 (.worker i a) s = none

/-- **An idle server has no job pending**: its first worker would take the front request, or drop
it. -/
theorem Accounted.pending_eq_zero (hs : Accounted ends s) (hidle : s.Idle sha1)
    (hpool : s.workers ≠ []) (r : ClientId × SessionId) : s.pending r = 0 := by
  have hwaiting : ∀ k ∈ s.workers, k = .waiting := by
    intro k hk
    obtain ⟨i, hi⟩ := List.getElem?_of_mem hk
    have hstep : ∀ a, workerStep i a k s = none := fun a => by
      have := hidle i a
      rwa [System.step, hi, Option.bind_some] at this
    cases k with
    | waiting => rfl
    | taken r => exact absurd (hstep .advertise) nofun
    | compiling r => exact absurd (hstep (.compile ⟨[], [], 0, 0⟩)) nofun
    | compiled r out => exact absurd (hstep .advertiseEnd) nofun
    | publishing r out => exact absurd (hstep (.publish none)) nofun
  have hjobs : s.activeCompileJobs = 0 := by
    rw [hs.active, List.countP_eq_zero]
    intro k hk
    rw [hwaiting k hk]
    nofun
  have hqueue : s.compileTaskQueue = [] := by
    obtain ⟨k, ks, hks⟩ := List.exists_cons_of_ne_nil hpool
    have hk : k = .waiting := hwaiting k (hks ▸ List.mem_cons_self)
    have hstep := hidle 0 .dequeue
    rw [System.step, hks, List.getElem?_cons_zero, Option.bind_some, hk, workerStep, hjobs, hks]
      at hstep
    cases hq : s.compileTaskQueue with
    | nil => rfl
    | cons q queue =>
      rw [hq] at hstep
      simp only [List.length_cons, Nat.succ_pos, if_true] at hstep
      split_ifs at hstep
  have hheld : s.workers.countP (·.requester = some r) = 0 := by
    rw [List.countP_eq_zero]
    intro k hk
    rw [hwaiting k hk]
    simp
  rw [pending, hqueue, hheld]
  rfl

/-- The pool keeps its size. -/
theorem length_workers {a : Action} (h : System.step sha1 a s = some t) :
    t.workers.length = s.workers.length := by
  cases a with
  | client c a => rw [client_workers h]
  | worker i a =>
    obtain ⟨k, -, h⟩ := Option.bind_eq_some_iff.mp h
    cases workerStep_cases h with
    | drop hq hinv => rfl
    | _ => exact List.length_set ..

end System

variable {sha1 : Str → Str}

/-- **Every job is ended once**, in every undisturbed run, where no worker meets a session that is
gone: what was requested is pending or ended, what a worker holds is of a session that serves, an
end that publishes nothing is one of a terminated session, and a session is sent the chunks of its
own end and no others.  When no worker can go on, nothing is pending. -/
theorem jobs_ended_once {n : ℕ} {disk : Disk} {as : List Action} {s : System}
    (hm : Meets (System.step sha1) System.Undisturbed as (System.initial n disk))
    (hr : runFrom (System.step sha1) as (System.initial n disk) = some s) :
    let requests := (emitted (System.step sha1) System.added as (System.initial n disk)).map
      (·.requesterSession)
    let ends := history (System.step sha1) System.jobEnds as (System.initial n disk)
    (∀ r, requests.count r = s.pending r + (ends.map Prod.fst).count r)
      ∧ (ends.map Prod.fst).Nodup
      ∧ (∀ k ∈ s.workers, ∀ r ∈ k.requester, s.Serving r)
      ∧ (∀ r, (r, .dropped) ∈ ends → s.Terminated r)
      ∧ (∀ r, s.resultChunks r = ends.flatMap fun e => if e.1 = r then e.2.chunks r.2 else [])
      ∧ (0 < n → s.Idle sha1 → (ends.map Prod.fst).Perm requests) := by
  intro requests ends
  have hsched : System.Scheduled
      (emitted (System.step sha1) System.added as (System.initial n disk)) s :=
    emitted_invariant (fun _ _ _ _ h hs => hs.step h) hr (System.scheduled_initial n disk)
  have hattached : s.Attached :=
    hm.invariant (fun _ _ _ hg h hs => hs.step hg h) hr (System.attached_initial n disk)
  have hacc : System.Accounted ends s :=
    history_invariant (fun _ _ _ _ h hs => hs.step h) hr (System.accounted_initial n disk)
  have hcount : ∀ r, ends.countP (·.1 = r) = (ends.map Prod.fst).count r := by
    intro r
    rw [List.count, List.countP_map]
    refine List.countP_congr fun e _ => ?_
    simp
  have hbalance : ∀ r, requests.count r = s.pending r + (ends.map Prod.fst).count r := by
    intro r
    rw [← hcount, hacc.balance r]
    cases hflag : (s.views r.1).isCompilerRunning r.2 with
    | true => exact List.count_eq_one_of_mem hsched.once ((hsched.flags r.1 r.2).mpr hflag)
    | false =>
      refine List.count_eq_zero_of_not_mem fun hmem => ?_
      exact absurd (hflag.symm.trans ((hsched.flags r.1 r.2).mp hmem)) nofun
  refine ⟨hbalance, ?_, hattached.held, hacc.dropped, hacc.chunks, fun hpool hidle => ?_⟩
  · rw [List.nodup_iff_count_le_one]
    intro r
    have hone : requests.count r ≤ 1 := List.nodup_iff_count_le_one.mp hsched.once r
    have := hbalance r
    omega
  · have hsize : s.workers.length = n :=
      runFrom_invariant (I := fun s => s.workers.length = n)
        (fun _ _ _ h hs => (System.length_workers h).trans hs) hr (List.length_replicate ..)
    refine List.perm_iff_count.mpr fun r => ?_
    have hzero := hacc.pending_eq_zero hidle (List.ne_nil_of_length_pos (by omega)) r
    rw [hbalance r, hzero, Nat.zero_add]

/-- The one job of this run is published, and its session is sent that one result. -/
theorem publishedAlone_ended :
    ∃ s, runFrom (System.step sampleSha1) publishedAlone (System.initial 1 .empty) = some s
      ∧ s.resultChunks (str "c", str "s")
        = sendCompilationResult (str "s") ⟨[], [], 0, 0⟩ (some (str "o")) := by
  obtain ⟨s, hr⟩ : ∃ s, runFrom (System.step sampleSha1) publishedAlone
      (System.initial 1 .empty) = some s := Option.isSome_iff_exists.mp (by decide +kernel)
  obtain ⟨-, -, -, -, hchunks, -⟩ := jobs_ended_once (by decide +kernel) hr
  have hends : history (System.step sampleSha1) System.jobEnds publishedAlone
      (System.initial 1 .empty)
        = [((str "c", str "s"), .published ⟨[], [], 0, 0⟩ (some (str "o")))] := by
    decide +kernel
  refine ⟨s, hr, (hchunks _).trans ?_⟩
  rw [hends]
  simp [JobEnd.chunks]

end DistBuild
