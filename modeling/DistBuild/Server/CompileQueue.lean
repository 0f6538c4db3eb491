import DistBuild.Machinery.Run

/-!
# Server/CompileQueue — the compiler manager's queue and its workers

    add ─▸ │ r₀ r₁ … │ ─look─▸ taken ─▸ evaluate, store ─▸ compile ─▸ decrement ─▸ notify_all
    notify_one              ╲                                            │
                             ╲── waiting ◂── look ── loopTop ◂── publish ◂── evaluate, store

Every section under `_mtx` is one step: an addition with its `notify_one`, a look at the queue with
the wait it may end in, a decrement.  The evaluation of `_thread_pool_sz - _active_compile_jobs` and
the store of its value are steps of their own.  Arithmetic is that of `size_t`.
-/

namespace DistBuild

namespace CompileQueue

/-- `size_t` addition. -/
def sizeAdd (a b : ℕ) : ℕ := (a + b) % 2 ^ 64

/-- `size_t` subtraction. -/
def sizeSub (a b : ℕ) : ℕ := (a + 2 ^ 64 - b) % 2 ^ 64

/-- `CompilationRequest`, without what the compiler is called with; `ticket` counts the requests
added before it. -/
structure Request (Session : Type*) where
  ticket : ℕ
  invalidated : Bool
  requesterSession : Session
deriving DecidableEq

/-- Where a worker is in `_worker_loop`. -/
inductive Worker (Session : Type*)
  /-- Before it has the lock. -/
  | loopTop
  /-- In the condition variable's wait. -/
  | waiting
  /-- Woken, before it has the lock again. -/
  | notified
  /-- With a request, dequeued and counted. -/
  | taken (r : Request Session)
  | advertising (r : Request Session) (jobs : ℕ)
  | advertised (r : Request Session)
  | compiling (r : Request Session)
  | compiled (r : Request Session)
  /-- No longer counted, before its `notify_all`. -/
  | uncounted (r : Request Session)
  | notifiedAll (r : Request Session)
  | advertisingEnd (r : Request Session) (jobs : ℕ)
  | publishing (r : Request Session)
  | returned
deriving DecidableEq

namespace Worker

variable {Session : Type*}

/-- Between the increment and the decrement of `_active_compile_jobs`. -/
def counted : Worker Session → Bool
  | taken _ | advertising _ _ | advertised _ | compiling _ | compiled _ => true
  | _ => false

/-- About to look at the queue. -/
def awake : Worker Session → Bool
  | loopTop | notified => true
  | _ => false

/-- The request of a worker that has not compiled it yet. -/
def pending : Worker Session → Option ℕ
  | taken r | advertising r _ | advertised r | compiling r => some r.ticket
  | _ => none

/-- A notification reaches the workers that wait. -/
def wake : Worker Session → Worker Session
  | waiting => notified
  | w => w

end Worker

/-- The manager and the broadcaster's `_available_jobs`.  The fields from `enqueued` on record the
number of requests added, and the tickets of those dequeued, invalidated while queued, passed to
`_compile_src`, compiled, and queued when the stop flag was set. -/
structure State (Session : Type*) where
  compileTaskQueue : List (Request Session)
  activeCompileJobs : ℕ
  stopThreads : Bool
  workers : List (Worker Session)
  availableJobs : ℕ
  enqueued : ℕ
  dequeued : List ℕ
  invalidated : List ℕ
  started : List ℕ
  finished : List ℕ
  queuedAtStop : List ℕ
deriving DecidableEq

variable {Session : Type*}

/-- After the constructor. -/
def start (threadPoolSz : ℕ) : State Session where
  compileTaskQueue := []
  activeCompileJobs := 0
  stopThreads := false
  workers := List.replicate threadPoolSz .loopTop
  availableJobs := 8
  enqueued := 0
  dequeued := []
  invalidated := []
  started := []
  finished := []
  queuedAtStop := []

inductive Action (Session : Type*)
  /-- `add_compilation_request`; its `notify_one` wakes the given worker, none if none waits. -/
  | add (session : Session) (woken : Option ℕ)
  /-- `invalidate_requests_for_session`. -/
  | invalidate (session : Session)
  | worker (i : ℕ)
  /-- A spurious wake-up. -/
  | wakeUp (i : ℕ)
  /-- The destructor sets the flag. -/
  | stop
  /-- The destructor's `notify_all`. -/
  | stopNotify

namespace State

/-- The worker `i` goes on to `w`. -/
@[simps] def move (s : State Session) (i : ℕ) (w : Worker Session) : State Session :=
  { s with workers := s.workers.set i w }

@[simps] def notifyAll (s : State Session) : State Session :=
  { s with workers := s.workers.map Worker.wake }

/-- The section of `_worker_loop` under the lock, from the predicate of the wait on. -/
def look (threadPoolSz : ℕ) (i : ℕ) (s : State Session) : Option (State Session) :=
  if s.stopThreads = true ∨ (s.compileTaskQueue ≠ [] ∧ s.activeCompileJobs < threadPoolSz) then
    if s.stopThreads = true ∧ s.compileTaskQueue = [] then some (s.move i .returned)
    else if threadPoolSz ≤ s.activeCompileJobs then some (s.move i .loopTop)
    else
      match s.compileTaskQueue with
      | [] => none
      | r :: rest =>
        let s := { s with compileTaskQueue := rest, dequeued := s.dequeued ++ [r.ticket] }
        if r.invalidated then some (s.move i .loopTop)
        else some ({ s with activeCompileJobs := sizeAdd s.activeCompileJobs 1 }.move i (.taken r))
  else some (s.move i .waiting)

/-- The next step of a worker. -/
def work (threadPoolSz : ℕ) (i : ℕ) (s : State Session) : Worker Session → Option (State Session)
  | .loopTop | .notified => s.look threadPoolSz i
  | .waiting => none
  | .taken r => some (s.move i (.advertising r (sizeSub threadPoolSz s.activeCompileJobs)))
  | .advertising r jobs => some ({ s with availableJobs := jobs }.move i (.advertised r))
  | .advertised r => some ({ s with started := s.started ++ [r.ticket] }.move i (.compiling r))
  | .compiling r => some ({ s with finished := s.finished ++ [r.ticket] }.move i (.compiled r))
  | .compiled r =>
    some ({ s with activeCompileJobs := sizeSub s.activeCompileJobs 1 }.move i (.uncounted r))
  | .uncounted r => some (s.notifyAll.move i (.notifiedAll r))
  | .notifiedAll r =>
    some (s.move i (.advertisingEnd r (sizeSub threadPoolSz s.activeCompileJobs)))
  | .advertisingEnd r jobs => some ({ s with availableJobs := jobs }.move i (.publishing r))
  | .publishing _ => some (s.move i .loopTop)
  | .returned => none

/-- A request of the session at the end of the queue. -/
@[simps] def push (session : Session) (s : State Session) : State Session :=
  { s with
    compileTaskQueue := s.compileTaskQueue ++ [⟨s.enqueued, false, session⟩]
    enqueued := s.enqueued + 1 }

def invalidateRequestsForSession [DecidableEq Session] (session : Session) (s : State Session) :
    State Session :=
  { s with
    compileTaskQueue := s.compileTaskQueue.map fun r =>
      if r.requesterSession = session then { r with invalidated := true } else r
    invalidated := s.invalidated
      ++ (s.compileTaskQueue.filter fun r => r.requesterSession = session).map Request.ticket }

/-- The destructor's section under the lock. -/
def stop (s : State Session) : State Session :=
  { s with stopThreads := true, queuedAtStop := s.compileTaskQueue.map Request.ticket }

/-- `_cv.notify_one()`, which wakes the given worker. -/
def notifyOne [DecidableEq Session] (s : State Session) : Option ℕ → Option (State Session)
  | none => if Worker.waiting ∈ s.workers then none else some s
  | some i => if s.workers[i]? = some .waiting then some (s.move i .notified) else none

end State

variable [DecidableEq Session]

def step (threadPoolSz : ℕ) : Action Session → State Session → Option (State Session)
  | .add session woken, s => (s.push session).notifyOne woken
  | .invalidate session, s => some (s.invalidateRequestsForSession session)
  | .worker i, s => s.workers[i]?.bind (s.work threadPoolSz i)
  | .wakeUp i, s =>
    if s.workers[i]? = some .waiting then some (s.move i .notified) else none
  | .stop, s => if s.stopThreads then none else some s.stop
  | .stopNotify, s => if s.stopThreads then some s.notifyAll else none

/-! ## What a step can do -/

/-- The steps of a worker that holds a request and keeps clear of the lock and the counter: to
which worker, with which advertised value and which requests started and compiled. -/
inductive Progress (threadPoolSz : ℕ) (s : State Session) :
    Worker Session → Worker Session → ℕ → List ℕ → List ℕ → Prop
  | evaluate (r) : Progress threadPoolSz s (.taken r)
      (.advertising r (sizeSub threadPoolSz s.activeCompileJobs))
      s.availableJobs s.started s.finished
  | store (r jobs) : Progress threadPoolSz s (.advertising r jobs) (.advertised r)
      jobs s.started s.finished
  | begin (r) : Progress threadPoolSz s (.advertised r) (.compiling r)
      s.availableJobs (s.started ++ [r.ticket]) s.finished
  | finish (r) : Progress threadPoolSz s (.compiling r) (.compiled r)
      s.availableJobs s.started (s.finished ++ [r.ticket])
  | evaluateEnd (r) : Progress threadPoolSz s (.notifiedAll r)
      (.advertisingEnd r (sizeSub threadPoolSz s.activeCompileJobs))
      s.availableJobs s.started s.finished
  | storeEnd (r jobs) : Progress threadPoolSz s (.advertisingEnd r jobs) (.publishing r)
      jobs s.started s.finished
  | publish (r) : Progress threadPoolSz s (.publishing r) .loopTop
      s.availableJobs s.started s.finished

/-- **Every step is one of these.** -/
inductive Move (threadPoolSz : ℕ) (s : State Session) : Action Session → State Session → Prop
  | add (session : Session) (hnone : Worker.waiting ∉ s.workers) :
      Move threadPoolSz s (.add session none) (s.push session)
  | addNotify (session : Session) {i} (hi : s.workers[i]? = some .waiting) :
      Move threadPoolSz s (.add session (some i)) ((s.push session).move i .notified)
  | invalidate (session : Session) :
      Move threadPoolSz s (.invalidate session) (s.invalidateRequestsForSession session)
  | wakeUp {i} (hi : s.workers[i]? = some .waiting) :
      Move threadPoolSz s (.wakeUp i) (s.move i .notified)
  | stop (hstop : s.stopThreads = false) : Move threadPoolSz s .stop s.stop
  | stopNotify : Move threadPoolSz s .stopNotify s.notifyAll
  | leave {i w} (hi : s.workers[i]? = some w) (hw : w.awake = true) (hstop : s.stopThreads = true)
      (hqueue : s.compileTaskQueue = []) : Move threadPoolSz s (.worker i) (s.move i .returned)
  | skip {i w} (hi : s.workers[i]? = some w) (hw : w.awake = true)
      (hfull : threadPoolSz ≤ s.activeCompileJobs) :
      Move threadPoolSz s (.worker i) (s.move i .loopTop)
  | drop {i w r rest} (hi : s.workers[i]? = some w) (hw : w.awake = true)
      (hqueue : s.compileTaskQueue = r :: rest) (hr : r.invalidated = true) :
      Move threadPoolSz s (.worker i) ({ s with
        compileTaskQueue := rest
        dequeued := s.dequeued ++ [r.ticket] }.move i .loopTop)
  | take {i w r rest jobs} (hi : s.workers[i]? = some w) (hw : w.awake = true)
      (hqueue : s.compileTaskQueue = r :: rest) (hr : r.invalidated = false)
      (hroom : s.activeCompileJobs < threadPoolSz) (hjobs : sizeAdd s.activeCompileJobs 1 = jobs) :
      Move threadPoolSz s (.worker i) ({ s with
        compileTaskQueue := rest
        dequeued := s.dequeued ++ [r.ticket]
        activeCompileJobs := jobs }.move i (.taken r))
  | sleep {i w} (hi : s.workers[i]? = some w) (hw : w.awake = true) (hstop : s.stopThreads = false)
      (hqueue : s.compileTaskQueue = [] ∨ threadPoolSz ≤ s.activeCompileJobs) :
      Move threadPoolSz s (.worker i) (s.move i .waiting)
  | progress {i w w' jobs started finished} (hi : s.workers[i]? = some w)
      (hw : Progress threadPoolSz s w w' jobs started finished) :
      Move threadPoolSz s (.worker i) ({ s with
        availableJobs := jobs
        started := started
        finished := finished }.move i w')
  | decrement {i r jobs} (hi : s.workers[i]? = some (.compiled r))
      (hjobs : sizeSub s.activeCompileJobs 1 = jobs) :
      Move threadPoolSz s (.worker i) ({ s with activeCompileJobs := jobs }.move i (.uncounted r))
  | wakeOthers {i r} (hi : s.workers[i]? = some (.uncounted r)) :
      Move threadPoolSz s (.worker i) (s.notifyAll.move i (.notifiedAll r))

section

variable {threadPoolSz : ℕ} {s t : State Session} {a : Action Session}

theorem look_eq_some {i : ℕ} {w : Worker Session}
    (hi : s.workers[i]? = some w) (hw : w.awake = true) (h : s.look threadPoolSz i = some t) :
    Move threadPoolSz s (.worker i) t := by
  unfold State.look at h
  split_ifs at h with hpred hleave hfull
  · cases h
    exact .leave hi hw hleave.1 hleave.2
  · cases h
    exact .skip hi hw hfull
  · rcases hq : s.compileTaskQueue with _ | ⟨r, rest⟩
    · rw [hq] at h
      cases h
    · rw [hq] at h
      dsimp only at h
      split_ifs at h with hr
      · cases h
        exact .drop hi hw hq hr
      · cases h
        exact .take hi hw hq (Bool.not_eq_true _ ▸ hr) (Nat.lt_of_not_le hfull) rfl
  · cases h
    obtain ⟨hstop, hqueue⟩ := not_or.mp hpred
    refine .sleep hi hw (Bool.not_eq_true _ ▸ hstop) ?_
    by_contra hne
    obtain ⟨hne, hroom⟩ := not_or.mp hne
    exact hqueue ⟨hne, Nat.lt_of_not_le hroom⟩

theorem step_move (h : step threadPoolSz a s = some t) :
    Move threadPoolSz s a t := by
  cases a with
  | add session woken =>
    cases woken with
    | none =>
      rw [step, State.notifyOne] at h
      split_ifs at h with hnone
      cases h
      exact .add session hnone
    | some i =>
      rw [step, State.notifyOne] at h
      split_ifs at h with hi
      cases h
      exact .addNotify session hi
  | invalidate session =>
    cases h
    exact .invalidate session
  | wakeUp i =>
    rw [step] at h
    split_ifs at h with hi
    cases h
    exact .wakeUp hi
  | stop =>
    rw [step] at h
    split_ifs at h with hstop
    cases h
    exact .stop (Bool.not_eq_true _ ▸ hstop)
  | stopNotify =>
    rw [step] at h
    split_ifs at h
    cases h
    exact .stopNotify
  | worker i =>
    obtain ⟨w, hi, h⟩ := Option.bind_eq_some_iff.mp h
    cases w with
    | loopTop => exact look_eq_some hi rfl h
    | notified => exact look_eq_some hi rfl h
    | waiting => cases h
    | returned => cases h
    | taken r =>
      cases h
      exact .progress hi (.evaluate r)
    | advertising r jobs =>
      cases h
      exact .progress hi (.store r jobs)
    | advertised r =>
      cases h
      exact .progress hi (.begin r)
    | compiling r =>
      cases h
      exact .progress hi (.finish r)
    | compiled r =>
      cases h
      exact .decrement hi rfl
    | uncounted r =>
      cases h
      exact .wakeOthers hi
    | notifiedAll r =>
      cases h
      exact .progress hi (.evaluateEnd r)
    | advertisingEnd r jobs =>
      cases h
      exact .progress hi (.storeEnd r jobs)
    | publishing r =>
      cases h
      exact .progress hi (.publish r)

end

/-! ## Counting workers -/

section

variable {α : Type*} {p : α → Bool} {l : List α} {i : ℕ} {a b : α}

/-- Replacing an element changes the count by what the two count for. -/
theorem countP_set_add (h : l[i]? = some a) (b : α) (p : α → Bool) :
    (l.set i b).countP p + (if p a then 1 else 0) = l.countP p + if p b then 1 else 0 := by
  induction l generalizing i with
  | nil => cases h
  | cons c l ih =>
    cases i with
    | zero =>
      obtain rfl : c = a := Option.some.inj h
      rw [List.set_cons_zero, List.countP_cons, List.countP_cons]
      omega
    | succ i =>
      have := ih (i := i) h
      rw [List.set_cons_succ, List.countP_cons, List.countP_cons]
      omega

/-- An element that does not count keeps the count below the length. -/
theorem countP_lt_length (h : l[i]? = some a) (ha : p a = false) : l.countP p < l.length := by
  refine lt_of_le_of_ne List.countP_le_length fun heq => ?_
  have := List.countP_eq_length.mp heq a (List.mem_of_getElem? h)
  rw [ha] at this
  cases this

theorem countP_pos (h : l[i]? = some a) (ha : p a = true) : 0 < l.countP p :=
  List.countP_pos_iff.mpr ⟨a, List.mem_of_getElem? h, ha⟩

/-- What was there before another element was replaced is still there. -/
theorem mem_set_of_ne (h : l[i]? = some a) (hb : b ∈ l) (hne : b ≠ a) (c : α) : b ∈ l.set i c := by
  obtain ⟨j, hj⟩ := List.mem_iff_getElem?.mp hb
  refine List.mem_iff_getElem?.mpr ⟨j, ?_⟩
  rw [List.getElem?_set_ne]
  · exact hj
  · rintro rfl
    exact hne (Option.some.inj (hj.symm.trans h))

/-- What is there after another element came in was there before. -/
theorem mem_of_mem_set (h : b ∈ l.set i a) (hne : a ≠ b) : b ∈ l :=
  (List.mem_or_eq_of_mem_set h).resolve_right hne.symm

theorem mem_set_self (h : l[i]? = some a) (c : α) : c ∈ l.set i c :=
  List.mem_set (List.getElem?_eq_some_iff.mp h).1 c

end

omit [DecidableEq Session] in
@[simp] theorem Worker.counted_wake (w : Worker Session) : w.wake.counted = w.counted := by
  cases w <;> rfl

omit [DecidableEq Session] in
@[simp] theorem Worker.pending_wake (w : Worker Session) : w.wake.pending = w.pending := by
  cases w <;> rfl

omit [DecidableEq Session] in
theorem Worker.wake_ne_waiting (w : Worker Session) : w.wake ≠ .waiting := by
  cases w <;> nofun

omit [DecidableEq Session] in
/-- Only a worker that has returned is one after a notification. -/
theorem Worker.eq_returned_of_wake {w : Worker Session} (h : w.wake = .returned) :
    w = .returned := by
  cases w with
  | returned => rfl
  | _ => cases h

omit [DecidableEq Session] in
theorem Worker.awake_ne {w : Worker Session} (h : w.awake = true) :
    w.counted = false ∧ w ≠ .waiting ∧ w.pending = none ∧ w ≠ .returned := by
  cases w with
  | loopTop => exact ⟨rfl, nofun, rfl, nofun⟩
  | notified => exact ⟨rfl, nofun, rfl, nofun⟩
  | _ => cases h

omit [DecidableEq Session] in
/-- A worker that makes progress keeps its class, and waits neither before nor after. -/
theorem Progress.frame {threadPoolSz jobs : ℕ} {s : State Session} {w w' : Worker Session}
    {started finished : List ℕ} (h : Progress threadPoolSz s w w' jobs started finished) :
    w'.counted = w.counted ∧ w ≠ .waiting ∧ w' ≠ .waiting ∧ w.awake = false
      ∧ w ≠ .returned ∧ w' ≠ .returned := by
  cases h <;> exact ⟨rfl, nofun, nofun, rfl, nofun, nofun⟩

/-! ## The counter -/

/-- The counter is the number of workers between increment and decrement. -/
def Counts (threadPoolSz : ℕ) (s : State Session) : Prop :=
  s.workers.length = threadPoolSz ∧ s.activeCompileJobs = s.workers.countP Worker.counted

section

variable {threadPoolSz : ℕ} {s t : State Session} {a : Action Session}

omit [DecidableEq Session] in
theorem Counts.le (h : Counts threadPoolSz s) : s.activeCompileJobs ≤ threadPoolSz := by
  rw [h.2, ← h.1]
  exact List.countP_le_length

omit [DecidableEq Session] in
/-- A worker that is not counted leaves room for one more. -/
theorem Counts.room (h : Counts threadPoolSz s) {i : ℕ} {w : Worker Session}
    (hi : s.workers[i]? = some w) (hw : w.counted = false) :
    s.activeCompileJobs < threadPoolSz := by
  rw [h.2, ← h.1]
  exact countP_lt_length hi hw

omit [DecidableEq Session] in
/-- Moving a worker within its class keeps the counter right. -/
theorem Counts.move (h : Counts threadPoolSz s) {i : ℕ} {w w' : Worker Session}
    (hi : s.workers[i]? = some w) (hw : w'.counted = w.counted) :
    Counts threadPoolSz (s.move i w') := by
  refine ⟨List.length_set.trans h.1, h.2.trans ?_⟩
  have := countP_set_add hi w' Worker.counted
  rw [hw] at this
  exact (Nat.add_right_cancel this).symm

omit [DecidableEq Session] in
theorem Counts.notifyAll (h : Counts threadPoolSz s) : Counts threadPoolSz s.notifyAll := by
  refine ⟨(List.length_map _).trans h.1, h.2.trans ?_⟩
  rw [State.notifyAll, List.countP_map]
  congr 1
  funext w
  exact w.counted_wake.symm

omit [DecidableEq Session] in
theorem getElem?_notifyAll {i : ℕ} {w : Worker Session} (hi : s.workers[i]? = some w) :
    s.notifyAll.workers[i]? = some w.wake := by
  rw [State.notifyAll, List.getElem?_map, hi, Option.map_some]

theorem sizeAdd_one {a : ℕ} (h : a + 1 < 2 ^ 64) : sizeAdd a 1 = a + 1 := by
  rw [sizeAdd, Nat.mod_eq_of_lt h]

theorem sizeSub_of_le {a b : ℕ} (h : b ≤ a) (ha : a < 2 ^ 64) : sizeSub a b = a - b := by
  rw [sizeSub, Nat.add_comm, Nat.add_sub_assoc h, Nat.add_mod_left,
    Nat.mod_eq_of_lt ((Nat.sub_le a b).trans_lt ha)]

/-- **The counter is exact**: neither its increment nor its decrement wraps. -/
theorem Counts.step (hsz : threadPoolSz < 2 ^ 64) (h : Counts threadPoolSz s)
    (hs : Move threadPoolSz s a t) : Counts threadPoolSz t := by
  cases hs with
  | add session hnone => exact h
  | addNotify session hi => exact Counts.move (s := s.push session) h hi rfl
  | invalidate session => exact h
  | wakeUp hi => exact h.move hi rfl
  | stop hstop => exact h
  | stopNotify => exact h.notifyAll
  | leave hi hw hstop hqueue => exact h.move hi (Worker.awake_ne hw).1.symm
  | skip hi hw hfull => exact h.move hi (Worker.awake_ne hw).1.symm
  | drop hi hw hqueue hr => exact Counts.move (s := { s with .. }) h hi (Worker.awake_ne hw).1.symm
  | @take i w r rest jobs hi hw hqueue hr hroom hjobs =>
    have hcount := countP_set_add hi (.taken r) Worker.counted
    rw [(Worker.awake_ne hw).1, ← h.2] at hcount
    refine ⟨List.length_set.trans h.1, (hjobs.symm.trans (sizeAdd_one (by omega))).trans ?_⟩
    simpa [Worker.counted] using hcount.symm
  | sleep hi hw hstop hqueue => exact h.move hi (Worker.awake_ne hw).1.symm
  | progress hi hw => exact Counts.move (s := { s with .. }) h hi hw.frame.1
  | @decrement i r jobs hi hjobs =>
    have hcount := countP_set_add hi (.uncounted r) Worker.counted
    have hpos := countP_pos (p := Worker.counted) hi rfl
    have hle := h.le
    rw [← h.2] at hcount hpos
    refine ⟨List.length_set.trans h.1, (hjobs.symm.trans (sizeSub_of_le hpos (by omega))).trans ?_⟩
    simp only [Worker.counted, if_true, Bool.false_eq_true, if_false] at hcount
    exact (Nat.eq_sub_of_add_eq hcount).symm
  | wakeOthers hi => exact h.notifyAll.move (getElem?_notifyAll hi) rfl

end

/-! ## First in, first out -/

/-- What has been dequeued, and then what is queued, are the requests in the order they were
added. -/
def Fifo (s : State Session) : Prop :=
  s.dequeued ++ s.compileTaskQueue.map Request.ticket = List.range s.enqueued

section

variable {threadPoolSz : ℕ} {s t : State Session} {a : Action Session}

theorem tickets_invalidate (session : Session) (s : State Session) :
    (s.invalidateRequestsForSession session).compileTaskQueue.map Request.ticket
      = s.compileTaskQueue.map Request.ticket := by
  rw [State.invalidateRequestsForSession, List.map_map]
  refine List.map_congr_left fun r _ => ?_
  rw [Function.comp_apply]
  split_ifs <;> rfl

omit [DecidableEq Session] in
theorem Fifo.congr (h : Fifo s) (hd : t.dequeued = s.dequeued)
    (hq : t.compileTaskQueue.map Request.ticket = s.compileTaskQueue.map Request.ticket)
    (he : t.enqueued = s.enqueued) : Fifo t := by
  rw [Fifo, hd, hq, he]
  exact h

omit [DecidableEq Session] in
theorem Fifo.push (h : Fifo s) (session : Session) : Fifo (s.push session) := by
  rw [Fifo, State.push, List.map_append, ← List.append_assoc, List.range_succ, ← h]
  rfl

omit [DecidableEq Session] in
/-- The front of the queue goes to the end of what is dequeued. -/
theorem Fifo.pop (h : Fifo s) {r : Request Session} {rest : List (Request Session)}
    (hqueue : s.compileTaskQueue = r :: rest) (hd : t.dequeued = s.dequeued ++ [r.ticket])
    (hq : t.compileTaskQueue = rest) (he : t.enqueued = s.enqueued) : Fifo t := by
  rw [Fifo, hd, hq, he, ← h, hqueue, List.append_assoc]
  rfl

theorem Fifo.step (h : Fifo s) (hs : Move threadPoolSz s a t) : Fifo t := by
  cases hs with
  | add session hnone => exact h.push session
  | addNotify session hi => exact (h.push session).congr (by simp) (by simp) (by simp)
  | invalidate session => exact h.congr rfl (tickets_invalidate session s) rfl
  | drop hi hw hqueue hr => exact h.pop hqueue (by simp) (by simp) (by simp)
  | take hi hw hqueue hr hroom hjobs => exact h.pop hqueue (by simp) (by simp) (by simp)
  | stop hstop => exact h
  | _ => exact h.congr (by simp) (by simp) (by simp)

omit [DecidableEq Session] in
/-- A queued request has not been dequeued. -/
theorem Fifo.not_dequeued (h : Fifo s) {r : Request Session} (hr : r ∈ s.compileTaskQueue) :
    r.ticket ∉ s.dequeued := by
  have hnodup : (s.dequeued ++ s.compileTaskQueue.map Request.ticket).Nodup :=
    h ▸ List.nodup_range
  intro hmem
  exact (List.nodup_append.mp hnodup).2.2 _ hmem _ (List.mem_map_of_mem hr) rfl

omit [DecidableEq Session] in
theorem Fifo.ticket_inj (h : Fifo s) {r r' : Request Session} (hr : r ∈ s.compileTaskQueue)
    (hr' : r' ∈ s.compileTaskQueue) (heq : r.ticket = r'.ticket) : r = r' :=
  List.inj_on_of_nodup_map (h ▸ List.nodup_range :
    (s.dequeued ++ s.compileTaskQueue.map Request.ticket).Nodup).of_append_right hr hr' heq

omit [DecidableEq Session] in
theorem Fifo.queued_lt (h : Fifo s) {r : Request Session} (hr : r ∈ s.compileTaskQueue) :
    r.ticket < s.enqueued :=
  List.mem_range.mp (h ▸ List.mem_append_right _ (List.mem_map_of_mem hr))

end

/-! ## No lost wake-up -/

/-- While a worker waits, every queued request has a worker that is about to look at the queue. -/
def WokenFor (s : State Session) : Prop :=
  Worker.waiting ∈ s.workers → s.compileTaskQueue.length ≤ s.workers.countP Worker.awake

section

variable {threadPoolSz : ℕ} {s t : State Session} {a : Action Session}

omit [DecidableEq Session] in
theorem not_waiting_notifyAll (s : State Session) : Worker.waiting ∉ s.notifyAll.workers := by
  intro h
  obtain ⟨w, -, hw⟩ := List.mem_map.mp h
  exact w.wake_ne_waiting hw

omit [DecidableEq Session] in
/-- A worker goes on without waiting, and takes out of the queue what it was to look at. -/
theorem WokenFor.set (h : WokenFor s) {i : ℕ} {w w' : Worker Session}
    (hi : s.workers[i]? = some w) (hworkers : t.workers = s.workers.set i w') (hw' : w' ≠ .waiting)
    (hqueue : t.compileTaskQueue.length + (if w.awake then 1 else 0)
      ≤ s.compileTaskQueue.length + if w'.awake then 1 else 0) : WokenFor t := by
  intro hwait
  rw [hworkers] at hwait ⊢
  have hle := h (mem_of_mem_set hwait hw')
  have hcount := countP_set_add hi w' Worker.awake
  omega

omit [DecidableEq Session] in
/-- A waiting worker is woken for what is added, if anything. -/
theorem WokenFor.wake (h : WokenFor s) {i : ℕ} (hi : s.workers[i]? = some .waiting)
    (hworkers : t.workers = s.workers.set i .notified)
    (hqueue : t.compileTaskQueue.length ≤ s.compileTaskQueue.length + 1) : WokenFor t := by
  intro _
  have hle := h (List.mem_of_getElem? hi)
  have hcount := countP_set_add hi .notified Worker.awake
  simp only [Worker.awake, if_true, Bool.false_eq_true, if_false] at hcount
  rw [hworkers]
  omega

/-- **No wake-up is lost**, whatever the step. -/
theorem WokenFor.step (hc : Counts threadPoolSz s) (h : WokenFor s) (hs : Move threadPoolSz s a t) :
    WokenFor t := by
  cases hs with
  | add session hnone => exact fun hw => absurd hw hnone
  | addNotify session hi => exact h.wake hi rfl (by simp)
  | invalidate session =>
    intro hw
    rw [State.invalidateRequestsForSession, List.length_map]
    exact h hw
  | wakeUp hi => exact h.wake hi rfl (Nat.le_succ _)
  | stop hstop => exact h
  | stopNotify => exact fun hw => absurd hw (not_waiting_notifyAll s)
  | leave hi hw hstop hqueue =>
    intro _
    simp [hqueue]
  | skip hi hw hfull => exact absurd (hc.room hi (Worker.awake_ne hw).1) (Nat.not_lt_of_le hfull)
  | drop hi hw hqueue hr =>
    refine h.set hi rfl nofun ?_
    rw [hw, hqueue]
    simp [Worker.awake]
  | take hi hw hqueue hr hroom hjobs =>
    refine h.set hi rfl nofun ?_
    rw [hw, hqueue]
    simp [Worker.awake]
  | sleep hi hw hstop hqueue =>
    intro _
    have hnil := hqueue.resolve_right (Nat.not_le_of_lt (hc.room hi (Worker.awake_ne hw).1))
    simp [hnil]
  | progress hi hw =>
    obtain ⟨-, -, hne, hasleep, -, -⟩ := hw.frame
    refine h.set hi rfl hne ?_
    simp [hasleep]
  | decrement hi hjobs => exact h.set hi rfl nofun le_rfl
  | wakeOthers hi =>
    intro hwait
    exact absurd (mem_of_mem_set hwait nofun) (not_waiting_notifyAll s)

end

/-! ## What is compiled -/

/-- Some worker has the request and has not compiled it yet. -/
def Held (workers : List (Worker Session)) (ticket : ℕ) : Prop :=
  ∃ w ∈ workers, w.pending = some ticket

/-- A queued request is marked exactly if it was invalidated while queued; what was is never held
or started; and what has been dequeued is accounted for. -/
structure Marked (s : State Session) : Prop where
  marked : ∀ r ∈ s.compileTaskQueue, r.invalidated = true ↔ r.ticket ∈ s.invalidated
  invalidated_lt : ∀ ticket ∈ s.invalidated, ticket < s.enqueued
  held : ∀ ticket, Held s.workers ticket → ticket ∈ s.dequeued ∧ ticket ∉ s.invalidated
  started : ∀ ticket ∈ s.started, ticket ∈ s.dequeued ∧ ticket ∉ s.invalidated
  compiled : ∀ ticket ∈ s.dequeued,
    ticket ∈ s.invalidated ∨ ticket ∈ s.finished ∨ Held s.workers ticket

section

variable {threadPoolSz : ℕ} {s t : State Session} {a : Action Session}
  {workers : List (Worker Session)} {i : ℕ} {w w' : Worker Session} {ticket : ℕ}

omit [DecidableEq Session] in
theorem Held.of_set (h : Held (workers.set i w') ticket) :
    Held workers ticket ∨ w'.pending = some ticket := by
  obtain ⟨v, hv, hp⟩ := h
  rcases List.mem_or_eq_of_mem_set hv with hv | rfl
  · exact .inl ⟨v, hv, hp⟩
  · exact .inr hp

omit [DecidableEq Session] in
theorem Held.set (hi : workers[i]? = some w) (h : Held workers ticket)
    (hw : w.pending ≠ some ticket) : Held (workers.set i w') ticket := by
  obtain ⟨v, hv, hp⟩ := h
  refine ⟨v, mem_set_of_ne hi hv ?_ w', hp⟩
  rintro rfl
  exact hw hp

omit [DecidableEq Session] in
/-- A worker that keeps what it has leaves what is held unchanged. -/
theorem held_set_iff (hi : workers[i]? = some w) (w' : Worker Session)
    (hw : w'.pending = w.pending) (ticket : ℕ) :
    Held (workers.set i w') ticket ↔ Held workers ticket := by
  constructor
  · intro h
    refine h.of_set.elim id fun hp => ⟨w, List.mem_of_getElem? hi, hw.symm.trans hp⟩
  · intro h
    by_cases hp : w.pending = some ticket
    · exact ⟨w', mem_set_self hi w', hw.trans hp⟩
    · exact h.set hi hp

omit [DecidableEq Session] in
theorem held_notifyAll_iff (ticket : ℕ) :
    Held s.notifyAll.workers ticket ↔ Held s.workers ticket := by
  simp [Held]

omit [DecidableEq Session] in
theorem Marked.frame (h : Marked s) (hq : t.compileTaskQueue = s.compileTaskQueue)
    (hd : t.dequeued = s.dequeued) (hm : t.invalidated = s.invalidated)
    (he : t.enqueued = s.enqueued) (hs : t.started = s.started) (hf : t.finished = s.finished)
    (hw : ∀ ticket, Held t.workers ticket ↔ Held s.workers ticket) : Marked t where
  marked := by
    rw [hq, hm]
    exact h.marked
  invalidated_lt := by
    rw [hm, he]
    exact h.invalidated_lt
  held := by
    simp only [hw, hd, hm]
    exact h.held
  started := by
    rw [hs, hd, hm]
    exact h.started
  compiled := by
    simp only [hw, hd, hm, hf]
    exact h.compiled

omit [DecidableEq Session] in
/-- Moving a worker that keeps what it has. -/
theorem Marked.move (h : Marked s) (hi : s.workers[i]? = some w) (hw : w'.pending = w.pending) :
    Marked (s.move i w') :=
  h.frame rfl rfl rfl rfl rfl rfl (held_set_iff hi w' hw)

omit [DecidableEq Session] in
theorem Marked.notifyAll (h : Marked s) : Marked s.notifyAll :=
  h.frame rfl rfl rfl rfl rfl rfl held_notifyAll_iff

omit [DecidableEq Session] in
theorem Marked.push (h : Marked s) (session : Session) : Marked (s.push session) where
  marked := by
    intro r hr
    rcases List.mem_append.mp hr with hr | hr
    · exact h.marked r hr
    · obtain rfl := List.mem_singleton.mp hr
      constructor
      · exact fun hr => absurd hr Bool.false_ne_true
      · exact fun hr => absurd (h.invalidated_lt _ hr) (Nat.lt_irrefl _)
  invalidated_lt ticket ht := (h.invalidated_lt ticket ht).trans (Nat.lt_succ_self _)
  held := h.held
  started := h.started
  compiled := h.compiled

omit [DecidableEq Session] in
/-- A worker that has nothing takes the front off the queue: it drops it, or has it from then on. -/
theorem Marked.pop {r : Request Session} {rest : List (Request Session)} (h : Marked s)
    (hi : s.workers[i]? = some w) (hidle : w.pending = none)
    (hqueue : s.compileTaskQueue = r :: rest)
    (hw : w'.pending = if r.invalidated then none else some r.ticket) (jobs : ℕ) :
    Marked ({ s with
      compileTaskQueue := rest
      dequeued := s.dequeued ++ [r.ticket]
      activeCompileJobs := jobs }.move i w') := by
  have hmem : r ∈ s.compileTaskQueue := hqueue ▸ List.mem_cons_self
  constructor
  · exact fun r' hr' => h.marked r' (hqueue ▸ List.mem_cons_of_mem _ hr')
  · exact h.invalidated_lt
  · intro ticket hheld
    rcases Held.of_set hheld with hheld | hheld
    · exact (h.held ticket hheld).imp_left (List.mem_append_left _)
    · rw [hw] at hheld
      split_ifs at hheld with hr
      obtain rfl := Option.some.inj hheld
      refine ⟨List.mem_append_right _ (List.mem_singleton_self _), fun hm => ?_⟩
      exact hr ((h.marked r hmem).mpr hm)
  · exact fun ticket ht => (h.started ticket ht).imp_left (List.mem_append_left _)
  · intro ticket ht
    rcases List.mem_append.mp ht with ht | ht
    · refine (h.compiled ticket ht).imp_right (Or.imp_right fun hheld => hheld.set hi ?_)
      rw [hidle]
      exact (Option.some_ne_none ticket).symm
    · obtain rfl := List.mem_singleton.mp ht
      by_cases hr : r.invalidated = true
      · exact .inl ((h.marked r hmem).mp hr)
      · exact .inr (.inr ⟨w', mem_set_self hi w', hw.trans (if_neg hr)⟩)

theorem Marked.invalidate (h : Marked s) (hf : Fifo s) (session : Session) :
    Marked (s.invalidateRequestsForSession session) := by
  have hqueued : ∀ ticket ∈ (s.compileTaskQueue.filter fun r =>
      r.requesterSession = session).map Request.ticket,
      ticket ∉ s.dequeued ∧ ticket < s.enqueued := by
    intro ticket hticket
    obtain ⟨r, hr, rfl⟩ := List.mem_map.mp hticket
    have hr := (List.mem_filter.mp hr).1
    exact ⟨hf.not_dequeued hr, hf.queued_lt hr⟩
  have hold : ∀ ticket, ticket ∈ s.dequeued ∧ ticket ∉ s.invalidated →
      ticket ∈ s.dequeued ∧ ticket ∉ (s.invalidateRequestsForSession session).invalidated := by
    rintro ticket ⟨hd, hm⟩
    refine ⟨hd, fun hmem => ?_⟩
    rcases List.mem_append.mp hmem with hmem | hmem
    · exact hm hmem
    · exact (hqueued ticket hmem).1 hd
  constructor
  · intro r' hr'
    obtain ⟨r, hr, rfl⟩ := List.mem_map.mp hr'
    split_ifs with hsession
    · refine iff_of_true rfl (List.mem_append_right _ (List.mem_map.mpr ⟨r, ?_, rfl⟩))
      exact List.mem_filter.mpr ⟨hr, decide_eq_true hsession⟩
    · rw [h.marked r hr]
      refine ⟨List.mem_append_left _, fun hmem => (List.mem_append.mp hmem).resolve_right ?_⟩
      intro hmem
      obtain ⟨r', hr', hticket⟩ := List.mem_map.mp hmem
      obtain ⟨hr', hs'⟩ := List.mem_filter.mp hr'
      exact hsession (hf.ticket_inj hr' hr hticket ▸ of_decide_eq_true hs')
  · intro ticket ht
    rcases List.mem_append.mp ht with ht | ht
    · exact h.invalidated_lt ticket ht
    · exact (hqueued ticket ht).2
  · exact fun ticket ht => hold ticket (h.held ticket ht)
  · exact fun ticket ht => hold ticket (h.started ticket ht)
  · exact fun ticket ht => (h.compiled ticket ht).imp_left (List.mem_append_left _)

/-- **What is invalidated while queued is never held**, whatever the step. -/
theorem Marked.step (h : Marked s) (hf : Fifo s) (hs : Move threadPoolSz s a t) : Marked t := by
  cases hs with
  | add session hnone => exact h.push session
  | addNotify session hi => exact (h.push session).move hi rfl
  | invalidate session => exact h.invalidate hf session
  | wakeUp hi => exact h.move hi rfl
  | stop hstop => exact h.frame rfl rfl rfl rfl rfl rfl fun _ => Iff.rfl
  | stopNotify => exact h.notifyAll
  | leave hi hw hstop hqueue => exact h.move hi (Worker.awake_ne hw).2.2.1.symm
  | skip hi hw hfull => exact h.move hi (Worker.awake_ne hw).2.2.1.symm
  | sleep hi hw hstop hqueue => exact h.move hi (Worker.awake_ne hw).2.2.1.symm
  | decrement hi hjobs => exact h.frame rfl rfl rfl rfl rfl rfl (held_set_iff hi _ rfl)
  | wakeOthers hi => exact h.notifyAll.move (getElem?_notifyAll hi) rfl
  | drop hi hw hqueue hr =>
    exact h.pop hi (Worker.awake_ne hw).2.2.1 hqueue (by rw [hr]; rfl) s.activeCompileJobs
  | take hi hw hqueue hr hroom hjobs =>
    exact h.pop hi (Worker.awake_ne hw).2.2.1 hqueue (by rw [hr]; rfl) _
  | @progress i w w' jobs started finished hi hw =>
    cases hw with
    | begin r =>
      have hiff := held_set_iff hi (.compiling r) rfl
      constructor
      · exact h.marked
      · exact h.invalidated_lt
      · exact fun ticket hheld => h.held ticket ((hiff ticket).mp hheld)
      · intro ticket ht
        rcases List.mem_append.mp ht with ht | ht
        · exact h.started ticket ht
        · obtain rfl := List.mem_singleton.mp ht
          exact h.held _ ⟨_, List.mem_of_getElem? hi, rfl⟩
      · exact fun ticket ht => (h.compiled ticket ht).imp_right (Or.imp_right (hiff ticket).mpr)
    | finish r =>
      constructor
      · exact h.marked
      · exact h.invalidated_lt
      · intro ticket hheld
        rcases Held.of_set hheld with hheld | hheld
        · exact h.held ticket hheld
        · cases hheld
      · exact h.started
      · intro ticket ht
        by_cases hticket : r.ticket = ticket
        · subst hticket
          exact .inr (.inl (List.mem_append_right _ (List.mem_singleton_self _)))
        · refine (h.compiled ticket ht).imp_right
            (Or.imp (List.mem_append_left _) fun hheld => hheld.set hi fun heq => ?_)
          exact hticket (Option.some.inj heq)
    | _ => exact h.frame rfl rfl rfl rfl rfl rfl (held_set_iff hi _ rfl)

end

/-! ## The shutdown -/

/-- When a worker has returned, all that was queued at the stop has been dequeued. -/
structure Drained (s : State Session) : Prop where
  queuedAtStop_lt : ∀ ticket ∈ s.queuedAtStop, ticket < s.enqueued
  returned : Worker.returned ∈ s.workers →
    s.stopThreads = true ∧ ∀ ticket ∈ s.queuedAtStop, ticket ∈ s.dequeued

section

variable {threadPoolSz : ℕ} {s t : State Session} {a : Action Session}

omit [DecidableEq Session] in
theorem Drained.frame (h : Drained s) (hq : t.queuedAtStop = s.queuedAtStop)
    (he : s.enqueued ≤ t.enqueued) (hd : s.dequeued ⊆ t.dequeued)
    (hstop : t.stopThreads = s.stopThreads)
    (hr : Worker.returned ∈ t.workers → Worker.returned ∈ s.workers) : Drained t where
  queuedAtStop_lt := fun ticket ht => (h.queuedAtStop_lt ticket (hq ▸ ht)).trans_le he
  returned := fun hret =>
    have hs := h.returned (hr hret)
    ⟨hstop.trans hs.1, fun ticket ht => hd (hs.2 ticket (hq ▸ ht))⟩

omit [DecidableEq Session] in
theorem returned_of_notifyAll (h : Worker.returned ∈ s.notifyAll.workers) :
    Worker.returned ∈ s.workers := by
  obtain ⟨w, hw, heq⟩ := List.mem_map.mp h
  exact Worker.eq_returned_of_wake heq ▸ hw

theorem Drained.step (h : Drained s) (hf : Fifo s) (hs : Move threadPoolSz s a t) : Drained t := by
  cases hs with
  | add session hnone => exact h.frame rfl (Nat.le_succ _) (List.Subset.refl _) rfl id
  | addNotify session hi =>
    exact h.frame rfl (Nat.le_succ _) (List.Subset.refl _) rfl fun hr => mem_of_mem_set hr nofun
  | invalidate session => exact h.frame rfl le_rfl (List.Subset.refl _) rfl id
  | stop hstop =>
    constructor
    · intro ticket ht
      obtain ⟨r, hr, rfl⟩ := List.mem_map.mp ht
      exact hf.queued_lt hr
    · intro hr
      have hset := (h.returned hr).1
      rw [hstop] at hset
      cases hset
  | stopNotify => exact h.frame rfl le_rfl (List.Subset.refl _) rfl returned_of_notifyAll
  | leave hi hw hstop hqueue =>
    refine ⟨h.queuedAtStop_lt, fun _ => ⟨hstop, fun ticket ht => ?_⟩⟩
    have hall : s.dequeued ++ s.compileTaskQueue.map Request.ticket = List.range s.enqueued := hf
    rw [hqueue, List.map_nil, List.append_nil] at hall
    show ticket ∈ s.dequeued
    exact hall ▸ List.mem_range.mpr (h.queuedAtStop_lt ticket ht)
  | progress hi hw =>
    exact h.frame rfl le_rfl (List.Subset.refl _) rfl
      fun hr => mem_of_mem_set hr hw.frame.2.2.2.2.2
  | drop hi hw hqueue hr =>
    exact h.frame rfl le_rfl (List.subset_append_left _ _) rfl fun hr => mem_of_mem_set hr nofun
  | take hi hw hqueue hr hroom hjobs =>
    exact h.frame rfl le_rfl (List.subset_append_left _ _) rfl fun hr => mem_of_mem_set hr nofun
  | wakeOthers hi =>
    exact h.frame rfl le_rfl (List.Subset.refl _) rfl
      fun hr => returned_of_notifyAll (mem_of_mem_set hr nofun)
  | _ => exact h.frame rfl le_rfl (List.Subset.refl _) rfl fun hr => mem_of_mem_set hr nofun

end

/-! ## All of it in every state reached -/

/-- What holds of the queue, the counter and the workers at any time. -/
structure Correct (threadPoolSz : ℕ) (s : State Session) : Prop where
  /-- The counter is the number of workers between increment and decrement. -/
  counter : s.activeCompileJobs = s.workers.countP Worker.counted
  bound : s.activeCompileJobs ≤ threadPoolSz
  /-- The requests are dequeued in the order of their addition, none twice. -/
  fifo : s.dequeued ++ s.compileTaskQueue.map Request.ticket = List.range s.enqueued
  once : s.dequeued.Nodup
  /-- What is compiled has been dequeued. -/
  dequeuedFirst : ∀ ticket ∈ s.started, ticket ∈ s.dequeued
  notCompiled : ∀ ticket ∈ s.invalidated, ticket ∉ s.started
  /-- While a worker waits, there are as many about to look at the queue as requests in it. -/
  woken : Worker.waiting ∈ s.workers → s.compileTaskQueue.length ≤ s.workers.countP Worker.awake
  drained : 0 < threadPoolSz → (∀ w ∈ s.workers, w = .returned) →
    ∀ ticket ∈ s.queuedAtStop, ticket ∈ s.finished ∨ ticket ∈ s.invalidated

/-- The parts of the invariant that carry one another. -/
structure Invariant (threadPoolSz : ℕ) (s : State Session) : Prop where
  counts : Counts threadPoolSz s
  fifo : Fifo s
  woken : WokenFor s
  marked : Marked s
  drained : Drained s

section

variable {threadPoolSz : ℕ} {s t : State Session} {a : Action Session}

omit [DecidableEq Session] in
theorem Invariant.start (threadPoolSz : ℕ) :
    Invariant threadPoolSz (start threadPoolSz : State Session) where
  counts := by
    refine ⟨List.length_replicate, ?_⟩
    simp [CompileQueue.start, List.countP_replicate, Worker.counted]
  fifo := rfl
  woken _ := Nat.zero_le _
  marked := by
    constructor
    · exact fun r hr => absurd hr List.not_mem_nil
    · exact fun ticket ht => absurd ht List.not_mem_nil
    · rintro ticket ⟨w, hw, hp⟩
      rw [List.eq_of_mem_replicate hw] at hp
      cases hp
    · exact fun ticket ht => absurd ht List.not_mem_nil
    · exact fun ticket ht => absurd ht List.not_mem_nil
  drained := by
    refine ⟨fun ticket ht => absurd ht List.not_mem_nil, fun hr => ?_⟩
    cases List.eq_of_mem_replicate hr

theorem Invariant.step (hsz : threadPoolSz < 2 ^ 64) (h : Invariant threadPoolSz s)
    (hs : Move threadPoolSz s a t) : Invariant threadPoolSz t where
  counts := h.counts.step hsz hs
  fifo := h.fifo.step hs
  woken := h.woken.step h.counts hs
  marked := h.marked.step h.fifo hs
  drained := h.drained.step h.fifo hs

omit [DecidableEq Session] in
theorem Invariant.correct (h : Invariant threadPoolSz s) : Correct threadPoolSz s where
  counter := h.counts.2
  bound := h.counts.le
  fifo := h.fifo
  once := (h.fifo ▸ List.nodup_range : (s.dequeued ++ _).Nodup).of_append_left
  dequeuedFirst ticket ht := (h.marked.started ticket ht).1
  notCompiled ticket hm ht := (h.marked.started ticket ht).2 hm
  woken := h.woken
  drained := by
    intro hpos hall ticket hticket
    have hlen := h.counts.1
    have hreturned : Worker.returned ∈ s.workers := by
      obtain ⟨w, hw⟩ := List.exists_mem_of_length_pos (hlen ▸ hpos)
      exact hall w hw ▸ hw
    rcases h.marked.compiled ticket ((h.drained.returned hreturned).2 ticket hticket) with
      hm | hf | ⟨w, hw, hp⟩
    · exact .inr hm
    · exact .inl hf
    · rw [hall w hw] at hp
      cases hp

end

/-- **The compile queue, in every interleaving.** -/
theorem queue_correct (threadPoolSz : ℕ) (hsz : threadPoolSz < 2 ^ 64)
    (actions : List (Action Session)) {s : State Session}
    (hrun : runFrom (step threadPoolSz) actions (start threadPoolSz) = some s) :
    Correct threadPoolSz s :=
  (runFrom_invariant (fun _ _ _ hs h => h.step hsz (step_move hs)) hrun
    (Invariant.start threadPoolSz)).correct

/-- Both workers wait; two requests are added, the second is invalidated, and the destructor runs
while the first compiles. -/
def oneInvalidated : List (Action Bool) :=
  [.worker 0, .worker 1, .add false (some 0), .worker 0, .worker 0, .worker 0, .worker 0,
    .add true (some 1), .invalidate true, .stop, .stopNotify, .worker 1, .worker 1, .worker 0,
    .worker 0, .worker 0, .worker 0, .worker 0, .worker 0, .worker 0]

theorem oneInvalidated_correct :
    ∃ s, runFrom (step 2) oneInvalidated (start 2) = some s ∧ Correct 2 s
      ∧ s.workers = [.returned, .returned] ∧ s.started = [0] ∧ s.queuedAtStop = [1] := by
  have hrun : (runFrom (step 2) oneInvalidated (start 2)).map (fun s => decide
      (s.workers = [.returned, .returned] ∧ s.started = [0] ∧ s.queuedAtStop = [1]))
      = some true := by
    decide +kernel
  obtain ⟨s, hs, hfinal⟩ := Option.map_eq_some_iff.mp hrun
  exact ⟨s, hs, queue_correct 2 (by norm_num) oneInvalidated hs, of_decide_eq_true hfinal⟩

/-- Both workers wait; `notify_one` wakes the first. -/
def oneWoken : List (Action Bool) := [.worker 0, .worker 1, .add false (some 0)]

/-- The second worker, with the second request, overtakes the first on the way to the compiler. -/
def overtaken : List (Action Bool) :=
  [.add false none, .add true none, .worker 0, .worker 1, .worker 1, .worker 1, .worker 1,
    .worker 0, .worker 0, .worker 0]

/-- `notify_one` leaves the second worker waiting with the request still queued, the compiler need
not be called in the order of the queue, and without workers nothing is compiled at shutdown. -/
theorem unnotified_overtaken_undrained :
    (¬∀ (threadPoolSz : ℕ) (actions : List (Action Bool)) (s : State Bool),
      threadPoolSz < 2 ^ 64 → runFrom (step threadPoolSz) actions (start threadPoolSz) = some s →
      Worker.waiting ∈ s.workers → s.compileTaskQueue = [])
    ∧ (¬∀ (threadPoolSz : ℕ) (actions : List (Action Bool)) (s : State Bool),
      threadPoolSz < 2 ^ 64 → runFrom (step threadPoolSz) actions (start threadPoolSz) = some s →
      s.started.Pairwise (· < ·))
    ∧ ¬∀ (threadPoolSz : ℕ) (actions : List (Action Bool)) (s : State Bool),
      threadPoolSz < 2 ^ 64 → runFrom (step threadPoolSz) actions (start threadPoolSz) = some s →
      (∀ w ∈ s.workers, w = .returned) →
      ∀ ticket ∈ s.queuedAtStop, ticket ∈ s.finished ∨ ticket ∈ s.invalidated := by
  refine ⟨fun h => ?_, fun h => ?_, fun h => ?_⟩
  · have hrun : (runFrom (step 2) oneWoken (start 2)).map (fun s => decide
        (Worker.waiting ∈ s.workers ∧ s.compileTaskQueue ≠ [])) = some true := by
      decide +kernel
    obtain ⟨s, hs, hfinal⟩ := Option.map_eq_some_iff.mp hrun
    obtain ⟨hwait, hne⟩ := of_decide_eq_true hfinal
    exact hne (h 2 oneWoken s (by norm_num) hs hwait)
  · have hrun : (runFrom (step 2) overtaken (start 2)).map (fun s => decide
        ¬s.started.Pairwise (· < ·)) = some true := by
      decide +kernel
    obtain ⟨s, hs, hfinal⟩ := Option.map_eq_some_iff.mp hrun
    exact of_decide_eq_true hfinal (h 2 overtaken s (by norm_num) hs)
  · have hrun : (runFrom (step 0) [.add false none, .stop] (start 0)).map (fun s => decide
        ((∀ w ∈ s.workers, w = .returned) ∧ 0 ∈ s.queuedAtStop ∧ 0 ∉ s.finished
          ∧ 0 ∉ s.invalidated)) = some true := by
      decide +kernel
    obtain ⟨s, hs, hfinal⟩ := Option.map_eq_some_iff.mp hrun
    obtain ⟨hall, hqueued, hf, hi⟩ := of_decide_eq_true hfinal
    exact (h 0 _ s (by norm_num) hs hall 0 hqueued).elim hf hi

end CompileQueue

end DistBuild
