import DistBuild.Server.CompileQueue

/-!
# Server/Capacity — what the broadcaster is told about free workers

    decrement ─▸ evaluate n − active ─▸ store ─▸ publish
                        ╲____ stale from the next worker's change on ____╱

A worker evaluates and stores in two steps, and nothing keeps another worker from changing the
counter, evaluating and storing in between.  A store of the current value, or one that another
worker's store is still to follow, does no harm.
-/

namespace DistBuild

namespace CompileQueue

variable {Session : Type*}

namespace Worker

/-- The value a worker is about to store. -/
def evaluated : Worker Session → Option ℕ
  | advertising _ jobs | advertisingEnd _ jobs => some jobs
  | _ => none

/-- Between a change of the counter and the store that follows it. -/
def storing : Worker Session → Bool
  | taken _ | advertising _ _ | uncounted _ | notifiedAll _ | advertisingEnd _ _ => true
  | _ => false

/-- Past the first store, before the compiler is called. -/
def ready : Worker Session → Bool
  | advertised _ => true
  | _ => false

@[simp] theorem storing_wake (w : Worker Session) : w.wake.storing = w.storing := by
  cases w <;> rfl

@[simp] theorem ready_wake (w : Worker Session) : w.wake.ready = w.ready := by
  cases w <;> rfl

@[simp] theorem evaluated_wake (w : Worker Session) : w.wake.evaluated = w.evaluated := by
  cases w <;> rfl

theorem awake_quiet {w : Worker Session} (h : w.awake = true) :
    w.storing = false ∧ w.ready = false ∧ w.evaluated = none := by
  cases w with
  | loopTop => exact ⟨rfl, rfl, rfl⟩
  | notified => exact ⟨rfl, rfl, rfl⟩
  | _ => cases h

end Worker

/-- Whatever the worker is about to store is the current value, or the store of another worker is
still to follow. -/
def StoresCurrent (threadPoolSz : ℕ) : Action Session → State Session → Prop
  | .worker i, s =>
    ∀ jobs ∈ s.workers[i]?.bind Worker.evaluated,
      jobs = sizeSub threadPoolSz s.activeCompileJobs
        ∨ (s.workers.eraseIdx i).any Worker.storing = true
  | _, _ => True

instance StoresCurrent.decidable (threadPoolSz : ℕ) :
    ∀ (a : Action Session) (s : State Session), Decidable (StoresCurrent threadPoolSz a s)
  | .worker i, s =>
    inferInstanceAs (Decidable (∀ jobs ∈ s.workers[i]?.bind Worker.evaluated,
      jobs = sizeSub threadPoolSz s.activeCompileJobs
        ∨ (s.workers.eraseIdx i).any Worker.storing = true))
  | .add _ _, _ => inferInstanceAs (Decidable True)
  | .invalidate _, _ => inferInstanceAs (Decidable True)
  | .wakeUp _, _ => inferInstanceAs (Decidable True)
  | .stop, _ => inferInstanceAs (Decidable True)
  | .stopNotify, _ => inferInstanceAs (Decidable True)

/-- Something has been stored. -/
def Advertised (s : State Session) : Prop :=
  s.started ≠ [] ∨ ∃ w ∈ s.workers, w.ready = true

/-- No value above the pool's size is stored. -/
structure Bounded (threadPoolSz : ℕ) (s : State Session) : Prop where
  evaluated : ∀ w ∈ s.workers, ∀ jobs, w.evaluated = some jobs → jobs ≤ threadPoolSz
  stored : Advertised s → s.availableJobs ≤ threadPoolSz

/-- The stored value is the current one, or a store is still to follow. -/
def Settles (threadPoolSz : ℕ) (s : State Session) : Prop :=
  Advertised s → s.availableJobs = sizeSub threadPoolSz s.activeCompileJobs
    ∨ ∃ w ∈ s.workers, w.storing = true

section

variable {threadPoolSz : ℕ} {s t : State Session} {a : Action Session} {i : ℕ}
  {w w' : Worker Session}

theorem Advertised.of_set (h : Advertised t) (hw : t.workers = s.workers.set i w')
    (hs : t.started = s.started) (hready : w'.ready = false) : Advertised s := by
  refine h.imp (fun hne => hs ▸ hne) ?_
  rintro ⟨v, hv, hv'⟩
  rw [hw] at hv
  refine ⟨v, mem_of_mem_set hv ?_, hv'⟩
  rintro rfl
  rw [hready] at hv'
  cases hv'

theorem Advertised.of_notifyAll (h : Advertised s.notifyAll) : Advertised s := by
  refine h.imp_right ?_
  rintro ⟨v, hv, hready⟩
  obtain ⟨w, hw, rfl⟩ := List.mem_map.mp hv
  exact ⟨w, hw, w.ready_wake ▸ hready⟩

/-! ## The bound -/

/-- A worker moves without storing. -/
theorem Bounded.set (h : Bounded threadPoolSz s) (hw : t.workers = s.workers.set i w')
    (hj : t.availableJobs = s.availableJobs) (hs : t.started = s.started)
    (hev : ∀ jobs, w'.evaluated = some jobs → jobs ≤ threadPoolSz) (hready : w'.ready = false) :
    Bounded threadPoolSz t where
  evaluated := by
    intro v hv jobs hjobs
    rw [hw] at hv
    rcases List.mem_or_eq_of_mem_set hv with hv | rfl
    · exact h.evaluated v hv jobs hjobs
    · exact hev jobs hjobs
  stored := fun hadv => hj ▸ h.stored (hadv.of_set hw hs hready)

theorem Bounded.notifyAll (h : Bounded threadPoolSz s) : Bounded threadPoolSz s.notifyAll where
  evaluated := by
    intro v hv jobs hjobs
    obtain ⟨w, hw, rfl⟩ := List.mem_map.mp hv
    exact h.evaluated w hw jobs (w.evaluated_wake ▸ hjobs)
  stored := fun hadv => h.stored hadv.of_notifyAll

/-- What a worker has evaluated is stored. -/
theorem Bounded.store (h : Bounded threadPoolSz s) (hi : s.workers[i]? = some w) {jobs : ℕ}
    (hjobs : w.evaluated = some jobs) (hw : t.workers = s.workers.set i w')
    (hj : t.availableJobs = jobs) (hev : w'.evaluated = none) : Bounded threadPoolSz t where
  evaluated := by
    intro v hv k hk
    rw [hw] at hv
    rcases List.mem_or_eq_of_mem_set hv with hv | rfl
    · exact h.evaluated v hv k hk
    · rw [hev] at hk
      cases hk
  stored := fun _ => hj ▸ h.evaluated w (List.mem_of_getElem? hi) jobs hjobs

theorem sizeSub_le {a b : ℕ} (h : b ≤ a) (ha : a < 2 ^ 64) : sizeSub a b ≤ a := by
  rw [sizeSub_of_le h ha]
  exact Nat.sub_le a b

theorem Bounded.step [DecidableEq Session] (hsz : threadPoolSz < 2 ^ 64)
    (hc : Counts threadPoolSz s) (h : Bounded threadPoolSz s) (hs : Move threadPoolSz s a t) :
    Bounded threadPoolSz t := by
  have hval : ∀ jobs, some (sizeSub threadPoolSz s.activeCompileJobs) = some jobs →
      jobs ≤ threadPoolSz := fun jobs heq => Option.some.inj heq ▸ sizeSub_le hc.le hsz
  cases hs with
  | add session hnone => exact ⟨h.evaluated, h.stored⟩
  | invalidate session => exact ⟨h.evaluated, h.stored⟩
  | stop hstop => exact ⟨h.evaluated, h.stored⟩
  | stopNotify => exact h.notifyAll
  | wakeOthers hi => exact h.notifyAll.set rfl rfl rfl nofun rfl
  | progress hi hw =>
    cases hw with
    | evaluate r => exact h.set rfl rfl rfl hval rfl
    | store r jobs => exact h.store hi rfl rfl rfl rfl
    | begin r =>
      constructor
      · intro v hv jobs hjobs
        rcases List.mem_or_eq_of_mem_set hv with hv | rfl
        · exact h.evaluated v hv jobs hjobs
        · cases hjobs
      · exact fun _ => h.stored (.inr ⟨_, List.mem_of_getElem? hi, rfl⟩)
    | finish r => exact h.set rfl rfl rfl nofun rfl
    | evaluateEnd r => exact h.set rfl rfl rfl hval rfl
    | storeEnd r jobs => exact h.store hi rfl rfl rfl rfl
    | publish r => exact h.set rfl rfl rfl nofun rfl
  | _ => exact h.set rfl rfl rfl nofun rfl

/-! ## The settled value -/

/-- A worker moves without storing, and stays between change and store if it was there. -/
theorem Settles.set (h : Settles threadPoolSz s) (hi : s.workers[i]? = some w)
    (hw : t.workers = s.workers.set i w') (hj : t.availableJobs = s.availableJobs)
    (hc : t.activeCompileJobs = s.activeCompileJobs) (hs : t.started = s.started)
    (hstoring : w.storing = true → w'.storing = true) (hready : w'.ready = false) :
    Settles threadPoolSz t := by
  intro hadv
  rw [hj, hc, hw]
  refine (h (hadv.of_set hw hs hready)).imp_right ?_
  rintro ⟨v, hv, hv'⟩
  by_cases heq : v = w
  · exact ⟨w', mem_set_self hi w', hstoring (heq ▸ hv')⟩
  · exact ⟨v, mem_set_of_ne hi hv heq w', hv'⟩

theorem Settles.notifyAll (h : Settles threadPoolSz s) : Settles threadPoolSz s.notifyAll := by
  intro hadv
  refine (h hadv.of_notifyAll).imp_right ?_
  rintro ⟨v, hv, hv'⟩
  exact ⟨v.wake, List.mem_map_of_mem hv, v.storing_wake.trans hv'⟩

/-- A store that the guard allows. -/
theorem Settles.store (hguard : StoresCurrent threadPoolSz (.worker i) s)
    (hi : s.workers[i]? = some w) {jobs : ℕ} (hjobs : w.evaluated = some jobs)
    (hw : t.workers = s.workers.set i w') (hj : t.availableJobs = jobs)
    (hc : t.activeCompileJobs = s.activeCompileJobs) : Settles threadPoolSz t := by
  intro _
  rw [hj, hc, hw]
  have hmem : jobs ∈ s.workers[i]?.bind Worker.evaluated := by
    rw [hi]
    exact hjobs
  refine (hguard jobs hmem).imp_right fun hany => ?_
  obtain ⟨v, hv, hv'⟩ := List.any_eq_true.mp hany
  obtain ⟨j, hne, hj⟩ := List.mem_eraseIdx_iff_getElem?.mp hv
  refine ⟨v, List.mem_iff_getElem?.mpr ⟨j, ?_⟩, hv'⟩
  rw [List.getElem?_set_ne hne.symm, hj]

/-- **A guarded step leaves the current value stored**, or a store still to follow. -/
theorem Settles.step [DecidableEq Session] (h : Settles threadPoolSz s)
    (hguard : StoresCurrent threadPoolSz a s) (hs : Move threadPoolSz s a t) :
    Settles threadPoolSz t := by
  have hquiet : ∀ {w w' : Worker Session}, w.awake = true → w.storing = true →
      w'.storing = true := by
    intro w w' hw hst
    rw [(Worker.awake_quiet hw).1] at hst
    cases hst
  cases hs with
  | add session hnone => exact h
  | addNotify session hi => exact h.set hi rfl rfl rfl rfl nofun rfl
  | invalidate session => exact h
  | wakeUp hi => exact h.set hi rfl rfl rfl rfl nofun rfl
  | stop hstop => exact h
  | stopNotify => exact h.notifyAll
  | leave hi hw hstop hqueue =>
    exact h.set hi rfl rfl rfl rfl (hquiet hw) rfl
  | skip hi hw hfull =>
    exact h.set hi rfl rfl rfl rfl (hquiet hw) rfl
  | drop hi hw hqueue hr =>
    exact h.set hi rfl rfl rfl rfl (hquiet hw) rfl
  | sleep hi hw hstop hqueue =>
    exact h.set hi rfl rfl rfl rfl (hquiet hw) rfl
  | take hi hw hqueue hr hroom hjobs => exact fun _ => .inr ⟨_, mem_set_self hi _, rfl⟩
  | decrement hi hjobs => exact fun _ => .inr ⟨_, mem_set_self hi _, rfl⟩
  | wakeOthers hi =>
    exact h.notifyAll.set (getElem?_notifyAll hi) rfl rfl rfl rfl (fun _ => rfl) rfl
  | progress hi hw =>
    cases hw with
    | evaluate r => exact h.set hi rfl rfl rfl rfl (fun _ => rfl) rfl
    | store r jobs => exact Settles.store hguard hi rfl rfl rfl rfl
    | begin r =>
      intro _
      refine (h (.inr ⟨_, List.mem_of_getElem? hi, rfl⟩)).imp_right ?_
      rintro ⟨v, hv, hv'⟩
      refine ⟨v, mem_set_of_ne hi hv ?_ _, hv'⟩
      rintro rfl
      cases hv'
    | finish r => exact h.set hi rfl rfl rfl rfl nofun rfl
    | evaluateEnd r => exact h.set hi rfl rfl rfl rfl (fun _ => rfl) rfl
    | storeEnd r jobs => exact Settles.store hguard hi rfl rfl rfl rfl
    | publish r => exact h.set hi rfl rfl rfl rfl nofun rfl

theorem Bounded.start (threadPoolSz : ℕ) :
    Bounded threadPoolSz (start threadPoolSz : State Session) where
  evaluated := by
    intro w hw jobs hjobs
    rw [List.eq_of_mem_replicate hw] at hjobs
    cases hjobs
  stored := by
    rintro (hne | ⟨w, hw, hready⟩)
    · exact absurd rfl hne
    · rw [List.eq_of_mem_replicate hw] at hready
      cases hready

theorem Settles.start (threadPoolSz : ℕ) :
    Settles threadPoolSz (start threadPoolSz : State Session) := by
  rintro (hne | ⟨w, hw, hready⟩)
  · exact absurd rfl hne
  · rw [List.eq_of_mem_replicate hw] at hready
    cases hready

end

variable [DecidableEq Session]

/-- A job has run, the queue is empty and every worker is back waiting. -/
def Settled (s : State Session) : Prop :=
  s.started ≠ [] ∧ s.compileTaskQueue = [] ∧ ∀ w ∈ s.workers, w = .waiting

instance (s : State Session) : Decidable (Settled s) :=
  inferInstanceAs (Decidable
    (s.started ≠ [] ∧ s.compileTaskQueue = [] ∧ ∀ w ∈ s.workers, w = .waiting))

/-- **The advertised capacity never exceeds the pool, and settles at it** in every run whose
stores are of the current value or followed by another. -/
theorem capacity_settles (threadPoolSz : ℕ) (hsz : threadPoolSz < 2 ^ 64)
    (actions : List (Action Session)) {s : State Session}
    (hrun : runFrom (step threadPoolSz) actions (start threadPoolSz) = some s) :
    (s.started ≠ [] → s.availableJobs ≤ threadPoolSz)
      ∧ (Meets (step threadPoolSz) (StoresCurrent threadPoolSz) actions (start threadPoolSz) →
        Settled s → s.availableJobs = threadPoolSz) := by
  constructor
  · intro hstarted
    have h := runFrom_invariant (I := fun s => Counts threadPoolSz s ∧ Bounded threadPoolSz s)
      (fun _ _ _ hs h => ⟨h.1.step hsz (step_move hs), h.2.step hsz h.1 (step_move hs)⟩) hrun
      ⟨(Invariant.start threadPoolSz).counts, Bounded.start threadPoolSz⟩
    exact h.2.stored (.inl hstarted)
  · rintro hmeets ⟨hstarted, -, hwaiting⟩
    have hcount : Counts threadPoolSz s :=
      runFrom_invariant (fun _ _ _ hs h => Counts.step hsz h (step_move hs)) hrun
        (Invariant.start threadPoolSz).counts
    have hsettles : Settles threadPoolSz s :=
      hmeets.invariant (fun _ _ _ hg hs h => Settles.step h hg (step_move hs)) hrun
        (Settles.start threadPoolSz)
    have hidle : s.activeCompileJobs = 0 := by
      rw [hcount.2, List.countP_eq_zero]
      intro w hw
      rw [hwaiting w hw]
      exact Bool.false_ne_true
    rcases hsettles (.inl hstarted) with heq | ⟨w, hw, hst⟩
    · rw [heq, hidle, sizeSub_of_le (Nat.zero_le _) hsz, Nat.sub_zero]
    · rw [hwaiting w hw] at hst
      cases hst

/-- Two jobs side by side; the first worker to finish stores 1 before the second stores 2. -/
def inOrder : List (Action Bool) :=
  [.add false none, .add true none, .worker 0, .worker 1, .worker 0, .worker 0, .worker 1,
    .worker 1, .worker 0, .worker 1, .worker 0, .worker 1, .worker 0, .worker 0, .worker 0,
    .worker 1, .worker 1, .worker 1, .worker 0, .worker 1, .worker 0, .worker 1, .worker 0,
    .worker 1]

theorem inOrder_settles :
    ∃ s, runFrom (step 2) inOrder (start 2) = some s ∧ Settled s ∧ s.availableJobs = 2 := by
  have hrun : (runFrom (step 2) inOrder (start 2)).map (fun s => decide (Settled s))
      = some true := by
    decide +kernel
  obtain ⟨s, hs, hfinal⟩ := Option.map_eq_some_iff.mp hrun
  have hsettled : Settled s := of_decide_eq_true hfinal
  exact ⟨s, hs, hsettled, (capacity_settles 2 (by norm_num) inOrder hs).2 (by decide +kernel)
    hsettled⟩

/-- The first worker to finish has evaluated 1 when the second stores 2, and stores it after. -/
def outOfOrder : List (Action Bool) :=
  [.add false none, .add true none, .worker 0, .worker 1, .worker 0, .worker 0, .worker 1,
    .worker 1, .worker 0, .worker 1, .worker 0, .worker 1, .worker 0, .worker 0, .worker 0,
    .worker 1, .worker 1, .worker 1, .worker 1, .worker 0, .worker 0, .worker 1, .worker 0,
    .worker 1]

theorem outOfOrder_stale :
    ¬∀ (threadPoolSz : ℕ) (actions : List (Action Bool)) (s : State Bool), 1 ≤ threadPoolSz →
      threadPoolSz < 2 ^ 64 → runFrom (step threadPoolSz) actions (start threadPoolSz) = some s →
      Settled s → s.availableJobs = threadPoolSz := by
  intro h
  have hrun : (runFrom (step 2) outOfOrder (start 2)).map (fun s => decide
      (Settled s ∧ s.availableJobs = 1)) = some true := by
    decide +kernel
  obtain ⟨s, hs, hfinal⟩ := Option.map_eq_some_iff.mp hrun
  obtain ⟨hsettled, hstale⟩ := of_decide_eq_true hfinal
  have := h 2 outOfOrder s (by norm_num) (by norm_num) hs hsettled
  omega

end CompileQueue

end DistBuild
