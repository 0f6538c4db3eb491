import DistBuild.Transport.Integrity

/-!
# Transport/DeadSocket — a writer after its peer has gone

    server:  pop ─▸ write fails ─▸ finish ─▸ queue shorter by one  ─▸ … ─▸ idle
    client:  write fails ─▸ finish ─▸ queue not empty: spawn ─▸ write fails ─▸ …

From some point on no write completes and nothing is sent.  A server session's writer has popped
what it fails to write, so every attempt leaves less to write (`server_stops`).  A client session's
has not: the frame at the front is tried again, for ever, so its writer stops only if nothing was
left to write (`client_stops_iff`).
-/

namespace DistBuild

namespace Writer

variable {Msg : Type}

/-- The actions after the socket has died: handlers run, bytes may still be taken, writes fail. -/
def Action.Dead : Action Msg → Prop
  | .run | .transfer _ | .fail _ => True
  | .send _ | .sendInline _ | .complete _ => False

/-- A run after the socket has died. -/
def DeadRun (w : WriterLoop) (serialize : Msg → Str) (acts : List (Action Msg)) (s t : State Msg) :
    Prop :=
  (∀ a ∈ acts, a.Dead) ∧ runFrom (step w serialize) acts s = some t

/-- The writer gives up: it tries to write no more often than messages are queued, and every run
ends, with the writer ended, the flag cleared and no handler left in the strand. -/
structure StopsOnDeadSocket (w : WriterLoop) (serialize : Msg → Str) (s : State Msg) : Prop where
  attempts : ∀ acts t, DeadRun w serialize acts s t →
    t.attempts ≤ s.attempts + (s.writeQueue.length + s.pushes.length)
  bounded : ∃ n, ∀ acts t, DeadRun w serialize acts s t → acts.length ≤ n
  ends : ∀ acts t, DeadRun w serialize acts s t → (∀ a, a.Dead → step w serialize a t = none) →
    t.writeInProgress = false ∧ t.tasks = [] ∧ t.inFlight = []

section

variable {w : WriterLoop} {serialize : Msg → Str} {s t u : State Msg} {stage : Stage}

theorem DeadRun.nil (s : State Msg) : DeadRun w serialize [] s s := ⟨List.forall_mem_nil _, rfl⟩

theorem DeadRun.cons {a : Action Msg} {acts : List (Action Msg)} (ha : a.Dead)
    (hs : step w serialize a s = some t) (h : DeadRun w serialize acts t u) :
    DeadRun w serialize (a :: acts) s u :=
  ⟨List.forall_mem_cons.mpr ⟨ha, h.1⟩, runFrom_cons.mpr ⟨t, hs, h.2⟩⟩

/-- The rule for runs after the socket has died. -/
theorem DeadRun.invariant {I : State Msg → Prop}
    (hstep : ∀ a s t, a.Dead → step w serialize a s = some t → I s → I t)
    {acts : List (Action Msg)} (h : DeadRun w serialize acts s t) (hs : I s) : I t := by
  have hm : Meets (step w serialize) (fun a _ => a.Dead) acts s := Meets.of_labels h.1 s
  exact hm.invariant hstep h.2 hs

/-- The rule for how long such a run is. -/
theorem DeadRun.length_le {I : State Msg → Prop} {size : State Msg → ℕ}
    (hstep : ∀ a s t, a.Dead → step w serialize a s = some t → I s → I t ∧ size t < size s)
    {acts : List (Action Msg)} (h : DeadRun w serialize acts s t) (hs : I s) :
    acts.length ≤ size s := by
  obtain ⟨hdead, hrun⟩ := h
  induction acts generalizing s with
  | nil => exact Nat.zero_le _
  | cons a acts ih =>
    obtain ⟨ha, hdead⟩ := List.forall_mem_cons.mp hdead
    obtain ⟨u, hu, hrun⟩ := runFrom_cons.mp hrun
    obtain ⟨hi, hlt⟩ := hstep a s u ha hu hs
    have := ih hi hdead hrun
    rw [List.length_cons]
    omega

/-- Where nothing moves after the socket has died, the writer has ended. -/
theorem ended_of_stuck (h : Staged w s stage) (hstuck : ∀ a, a.Dead → step w serialize a s = none) :
    s.writeInProgress = false ∧ s.tasks = [] ∧ s.inFlight = [] := by
  have htasks : s.tasks = [] := by
    cases htasks : s.tasks with
    | nil => rfl
    | cons task tasks =>
      have := hstuck .run trivial
      rw [step, htasks] at this
      cases this
  have hfly : s.inFlight = [] := by
    by_contra hne
    have := hstuck (.fail 0) trivial
    rw [step, if_pos (List.length_pos_of_ne_nil hne)] at this
    cases this
  obtain rfl := h.idle_of_quiet htasks hfly
  exact ⟨h.1, htasks, hfly⟩

theorem DeadRun.ended (hw : w.Pops) {acts : List (Action Msg)} (hrun : DeadRun w serialize acts s t)
    (h : Staged w s stage) (hstuck : ∀ a, a.Dead → step w serialize a t = none) :
    t.writeInProgress = false ∧ t.tasks = [] ∧ t.inFlight = [] := by
  obtain ⟨stage', h'⟩ := hrun.invariant (I := fun s => ∃ stage, Staged w s stage)
    (fun _ _ _ _ hs ⟨_, h⟩ => (staged_step hw h hs).imp fun _ h => h.1) ⟨stage, h⟩
  exact ended_of_stuck h' hstuck

/-! ## A server session -/

/-- What a handler costs: what it may still queue, write and spawn. -/
def Task.cost (serialize : Msg → Str) : Task Msg → ℕ
  | .push msg => (frame (serialize msg)).length + 6
  | .startWriter => 2
  | .resume _ => 3

/-- What is left to do for a session whose writes fail. -/
def State.cost (serialize : Msg → Str) (s : State Msg) : ℕ :=
  (s.writeQueue.map fun f => f.length + 3).sum + (s.inFlight.map fun f => f.length + 4).sum
    + (s.tasks.map (Task.cost serialize)).sum

theorem cost_finish (serialize : Msg → Str) (s : State Msg) :
    s.finish.cost serialize ≤ s.cost serialize + 2 := by
  unfold State.finish
  split_ifs
  · simp [State.cost, Task.cost, Nat.add_assoc]
  · exact Nat.le_add_right _ _

theorem cost_loopTop (serialize : Msg → Str) (s : State Msg) :
    (s.loopTop serverLoop).cost serialize ≤ s.cost serialize + 1 := by
  unfold State.loopTop
  rcases hq : s.writeQueue with _ | ⟨msg, rest⟩
  · rw [State.finish, if_neg (not_not.mpr hq)]
    exact Nat.le_add_right _ _
  · simp only [State.cost, hq, serverLoop, List.tail_cons, List.map_cons, List.sum_cons,
      List.map_append, List.sum_append, List.map_nil, List.sum_nil]
    omega

theorem cost_push (serialize : Msg → Str) (msg : Msg) (s : State Msg) :
    (s.push serialize msg).cost serialize
      ≤ s.cost serialize + (frame (serialize msg)).length + 5 := by
  unfold State.push
  dsimp only
  split_ifs
  · simp only [State.cost, List.map_append, List.sum_append, List.map_cons, List.map_nil,
      List.sum_cons, List.sum_nil]
    omega
  · simp only [State.cost, List.map_append, List.sum_append, List.map_cons, List.map_nil,
      List.sum_cons, List.sum_nil, Task.cost]
    omega

theorem sum_set_lt {l : List Str} {i : ℕ} {b : UInt8} {rest : Str} (h : l[i]? = some (b :: rest)) :
    ((l.set i rest).map fun f => f.length + 4).sum < (l.map fun f => f.length + 4).sum := by
  induction l generalizing i with
  | nil => cases h
  | cons f l ih =>
    cases i with
    | zero =>
      obtain rfl : f = b :: rest := Option.some.inj h
      simp
    | succ i =>
      have := ih (i := i) h
      simpa using this

theorem sum_eraseIdx_add {l : List Str} {i : ℕ} (h : i < l.length) :
    ((l.eraseIdx i).map fun f => f.length + 4).sum + 4 ≤ (l.map fun f => f.length + 4).sum := by
  induction l generalizing i with
  | nil => cases h
  | cons f l ih =>
    cases i with
    | zero => exact (Nat.add_comm _ _).trans_le (Nat.add_le_add_right (Nat.le_add_left 4 _) _)
    | succ i =>
      have := ih (i := i) (Nat.lt_of_succ_lt_succ h)
      simp only [List.eraseIdx_cons_succ, List.map_cons, List.sum_cons]
      omega

/-- **Every step after the socket has died leaves less to do.** -/
theorem server_cost_step {a : Action Msg} (ha : a.Dead)
    (hs : step serverLoop serialize a s = some t) : t.cost serialize < s.cost serialize := by
  cases a with
  | send msg => exact ha.elim
  | sendInline msg => exact ha.elim
  | complete i => exact ha.elim
  | run =>
    obtain ⟨task, tasks, htasks, rfl⟩ := step_run hs
    have hcost : s.cost serialize
        = { s with tasks := tasks }.cost serialize + task.cost serialize := by
      simp only [State.cost, htasks, List.map_cons, List.sum_cons]
      omega
    rw [hcost]
    cases task with
    | push msg =>
      have := cost_push serialize msg { s with tasks := tasks }
      simp only [State.runTask, Task.cost]
      omega
    | startWriter =>
      have := cost_loopTop serialize { s with tasks := tasks }
      simp only [State.runTask, Task.cost]
      omega
    | resume ok =>
      cases ok with
      | true =>
        have := cost_loopTop serialize { s with tasks := tasks }
        simp only [State.runTask, Task.cost]
        exact Nat.lt_of_le_of_lt this (by omega)
      | false =>
        have := cost_finish serialize { s with tasks := tasks }
        simp only [State.runTask, Task.cost]
        omega
  | transfer i =>
    obtain ⟨b, rest, hget, rfl⟩ := step_transfer hs
    have := sum_set_lt hget
    simp only [State.cost]
    omega
  | fail i =>
    obtain ⟨hlt, rfl⟩ := step_fail hs
    have := sum_eraseIdx_add hlt
    simp only [State.cost, List.map_append, List.sum_append, List.map_cons, List.map_nil,
      List.sum_cons, List.sum_nil, Task.cost]
    omega

/-- What is queued or about to be, and how often it has been tried to write. -/
def State.budget (s : State Msg) : ℕ := s.attempts + (s.writeQueue.length + s.pushes.length)

theorem budget_loopTop (s : State Msg) : (s.loopTop serverLoop).budget = s.budget := by
  rw [State.budget, loopTop_pushes]
  unfold State.loopTop
  rcases hq : s.writeQueue with _ | ⟨msg, rest⟩
  · obtain ⟨-, -, hqueue, -, -, hattempts⟩ := finish_frame s
    dsimp only
    rw [hqueue, hattempts, State.budget]
  · simp only [State.budget, hq, serverLoop, List.tail_cons, List.length_cons]
    omega

/-- **An attempt to write uses up a queued message.** -/
theorem server_budget_step {a : Action Msg} (ha : a.Dead)
    (hs : step serverLoop serialize a s = some t) : t.budget = s.budget := by
  cases a with
  | send msg => exact ha.elim
  | sendInline msg => exact ha.elim
  | complete i => exact ha.elim
  | run =>
    obtain ⟨task, tasks, htasks, rfl⟩ := step_run hs
    cases task with
    | push msg =>
      obtain ⟨-, -, hqueue, -, -, hattempts⟩ := push_frame serialize msg { s with tasks := tasks }
      have hhead : s.pushes = msg :: { s with tasks := tasks }.pushes := by
        rw [State.pushes, htasks]
        rfl
      rw [State.runTask, State.budget, push_pushes, hqueue, hattempts, State.budget, hhead]
      simp only [List.length_append, List.length_cons, List.length_nil]
      omega
    | startWriter =>
      have hhead : s.pushes = { s with tasks := tasks }.pushes := by
        rw [State.pushes, htasks]
        rfl
      rw [State.runTask, budget_loopTop, State.budget, State.budget, hhead]
    | resume ok =>
      have hhead : s.pushes = { s with tasks := tasks }.pushes := by
        rw [State.pushes, htasks]
        rfl
      cases ok with
      | true =>
        rw [State.runTask, budget_loopTop, State.budget, State.budget, hhead]
        rfl
      | false =>
        obtain ⟨-, -, hqueue, -, -, hattempts⟩ := finish_frame { s with tasks := tasks }
        rw [State.runTask, State.budget, finish_pushes, hqueue, hattempts, State.budget, hhead]
  | transfer i =>
    obtain ⟨_, _, -, rfl⟩ := step_transfer hs
    rfl
  | fail i =>
    obtain ⟨-, rfl⟩ := step_fail hs
    rw [State.budget, pushes_resume s]
    rfl

/-- **A server session's writer stops**, wherever it is when the socket dies. -/
theorem server_stops (h : Staged serverLoop s stage) :
    StopsOnDeadSocket serverLoop serialize s where
  attempts acts t hrun := by
    have hbudget : t.budget = s.budget :=
      hrun.invariant (fun _ _ _ ha hs h => (server_budget_step ha hs).trans h) rfl
    exact (Nat.le_add_right _ _).trans hbudget.le
  bounded := ⟨s.cost serialize, fun _ _ hrun => hrun.length_le (I := fun _ => True)
    (fun _ _ _ ha hs _ => ⟨trivial, server_cost_step ha hs⟩) trivial⟩
  ends _ _ hrun hstuck := hrun.ended serverLoop_pops h hstuck

/-! ## A client session -/

/-- A writer that has still to pop what it has written. -/
def Task.isDone : Task Msg → Bool
  | .resume ok => ok
  | .push _ => false
  | .startWriter => false

/-- What a client session has not written: the queue, without a front that is written but not yet
popped. -/
def State.remaining (s : State Msg) : List Str :=
  if s.tasks.any Task.isDone then s.writeQueue.tail else s.writeQueue

/-- Nothing is left to write. -/
def AllWritten (s : State Msg) : Prop := s.pushes = [] ∧ s.remaining = []

theorem isDone_of_writerTasks (s : State Msg) :
    s.tasks.any Task.isDone = s.writerTasks.any Task.isDone := by
  rw [State.writerTasks, List.any_filter]
  congr 1
  funext task
  cases task with
  | push msg => rfl
  | startWriter => rfl
  | resume ok => exact (Bool.true_and ok).symm

/-- The queue of a client session holds what is being written. -/
theorem queue_ne_nil {rest : List Str}
    (h : ∀ more, clientLoop.written (s.writeQueue ++ more) = rest ++ more) : s.writeQueue ≠ [] := by
  intro hnil
  have := congrArg List.length (h [[]])
  rw [hnil] at this
  simp [clientLoop] at this

/-- What a client session has not written, stage by stage. -/
def Stage.Leaves (s : State Msg) : Stage → Prop
  | .idle => s.remaining = []
  | .starting => s.remaining ≠ []
  | .writing _ _ => s.remaining ≠ []
  | .resuming false _ => s.remaining ≠ []
  | .resuming true rest => s.remaining = rest

theorem remaining_of_staged (h : Staged clientLoop s stage) : stage.Leaves s := by
  cases stage with
  | idle =>
    obtain ⟨-, htasks, -, hqueue⟩ := h
    rw [Stage.Leaves, State.remaining, isDone_of_writerTasks, htasks]
    exact hqueue
  | starting =>
    obtain ⟨-, htasks, -, hqueue⟩ := h
    rw [Stage.Leaves, State.remaining, isDone_of_writerTasks, htasks]
    exact hqueue
  | writing left rest =>
    obtain ⟨-, htasks, -, hqueue⟩ := h
    rw [Stage.Leaves, State.remaining, isDone_of_writerTasks, htasks]
    exact queue_ne_nil hqueue
  | resuming ok rest =>
    obtain ⟨-, htasks, -, hqueue⟩ := h
    cases ok with
    | false =>
      rw [Stage.Leaves, State.remaining, isDone_of_writerTasks, htasks]
      exact queue_ne_nil hqueue
    | true =>
      rw [Stage.Leaves, State.remaining, isDone_of_writerTasks, htasks]
      have := hqueue []
      rwa [List.append_nil, List.append_nil] at this

/-- With nothing left to write, a client session's writer is idle or about to find that out. -/
theorem allWritten_stage (h : Staged clientLoop s stage) (hall : AllWritten s) :
    stage = .idle ∨ stage = .resuming true [] := by
  have hremaining := remaining_of_staged h
  cases stage with
  | idle => exact Or.inl rfl
  | starting => exact absurd hall.2 hremaining
  | writing left rest => exact absurd hall.2 hremaining
  | resuming ok rest =>
    cases ok with
    | false => exact absurd hall.2 hremaining
    | true =>
      obtain rfl : rest = [] := hremaining.symm.trans hall.2
      exact Or.inr rfl

/-- The handlers of the strand, without those that push. -/
theorem tasks_of_no_pushes (h : s.pushes = []) : s.tasks = s.writerTasks := by
  symm
  rw [State.writerTasks, List.filter_eq_self]
  intro task htask
  cases task with
  | push msg =>
    have : msg ∈ s.pushes := List.mem_filterMap.mpr ⟨_, htask, rfl⟩
    rw [h] at this
    exact absurd this List.not_mem_nil
  | startWriter => rfl
  | resume ok => rfl

/-- With nothing left to write, a step after the socket has died only ends the writer. -/
theorem allWritten_step {a : Action Msg} (ha : a.Dead) (h : Staged clientLoop s stage)
    (hall : AllWritten s) (hs : step clientLoop serialize a s = some t) :
    (Staged clientLoop t .idle ∧ AllWritten t) ∧ t.attempts = s.attempts
      ∧ t.tasks.length < s.tasks.length := by
  have htasks := tasks_of_no_pushes hall.1
  have hfly : s.inFlight = [] := by
    rcases allWritten_stage h hall with rfl | rfl
    · exact h.2.2.1
    · exact h.2.2.1
  cases a with
  | send msg => exact ha.elim
  | sendInline msg => exact ha.elim
  | complete i => exact ha.elim
  | transfer i =>
    obtain ⟨_, _, hget, -⟩ := step_transfer hs
    rw [hfly] at hget
    cases hget
  | fail i =>
    obtain ⟨hlt, -⟩ := step_fail hs
    rw [hfly] at hlt
    exact absurd hlt (Nat.not_lt_zero i)
  | run =>
    obtain ⟨task, tasks, hhead, rfl⟩ := step_run hs
    rw [htasks] at hhead
    rcases allWritten_stage h hall with rfl | rfl
    · rw [h.2.1] at hhead
      cases hhead
    · obtain ⟨hflag, hone, -, hqueue⟩ := h
      have htail : s.writeQueue.tail = [] := by
        have := hqueue []
        rwa [List.append_nil] at this
      rw [hone] at hhead
      obtain ⟨rfl, rfl⟩ := List.cons.inj hhead
      have ht : { s with tasks := [] }.runTask clientLoop serialize (.resume true)
          = { s with tasks := [], writeQueue := [], writeInProgress := false } := by
        simp only [State.runTask, State.loopTop, clientLoop, htail, State.finish, ne_eq,
          not_true_eq_false, if_false]
      rw [ht, htasks, hone]
      exact ⟨⟨⟨rfl, rfl, hfly, rfl⟩, rfl, rfl⟩, rfl, Nat.one_pos⟩

/-- A writer before its failing write, with nothing else in the strand. -/
def Retrying (s : State Msg) : Prop :=
  s.tasks = [] ∧ (∃ left, s.inFlight = [left]) ∧ s.writeQueue ≠ []

/-- **One failure later a client session tries the same frame again.** -/
theorem retrying_round (serialize : Msg → Str) (h : Retrying s) :
    ∃ t, DeadRun clientLoop serialize [.fail 0, .run, .run] s t ∧ Retrying t
      ∧ t.attempts = s.attempts + 1 := by
  obtain ⟨tasks, queue, flag, inFlight, wire, sent, queued, attempts⟩ := s
  obtain ⟨htasks, ⟨left, hfly⟩, hqueue⟩ := h
  dsimp only at htasks hfly hqueue
  subst htasks hfly
  obtain ⟨msg, rest, rfl⟩ := List.exists_cons_of_ne_nil hqueue
  refine ⟨⟨[], msg :: rest, true, [msg], wire, sent, queued, attempts + 1⟩, ⟨?_, rfl⟩,
    ⟨rfl, ⟨msg, rfl⟩, hqueue⟩, rfl⟩
  intro a ha
  simp only [List.mem_cons, List.not_mem_nil, or_false] at ha
  rcases ha with rfl | rfl | rfl
  all_goals trivial

theorem DeadRun.append {acts acts' : List (Action Msg)} (h : DeadRun w serialize acts s t)
    (h' : DeadRun w serialize acts' t u) : DeadRun w serialize (acts ++ acts') s u :=
  ⟨List.forall_mem_append.mpr ⟨h.1, h'.1⟩, runFrom_append.mpr ⟨t, h.2, h'.2⟩⟩

/-- And so on. -/
theorem retrying_for_ever (serialize : Msg → Str) (n : ℕ) (h : Retrying s) :
    ∃ acts t, DeadRun clientLoop serialize acts s t ∧ t.attempts = s.attempts + n := by
  suffices hgen : ∃ acts t, DeadRun clientLoop serialize acts s t ∧ Retrying t
      ∧ t.attempts = s.attempts + n by
    obtain ⟨acts, t, hrun, -, hn⟩ := hgen
    exact ⟨acts, t, hrun, hn⟩
  induction n with
  | zero => exact ⟨[], s, DeadRun.nil s, h, rfl⟩
  | succ n ih =>
    obtain ⟨acts, t, hrun, ht, hn⟩ := ih
    obtain ⟨u, hround, hu, hattempts⟩ := retrying_round serialize ht
    exact ⟨_, u, hrun.append hround, hu, by rw [hattempts, hn, Nat.add_assoc]⟩

/-- How much a handler leaves in the strand. -/
def Task.rank : Task Msg → ℕ
  | .push _ => 3
  | .resume _ => 2
  | .startWriter => 1

def State.rank (s : State Msg) : ℕ := (s.tasks.map Task.rank).sum

theorem rank_finish (s : State Msg) : s.finish.rank ≤ s.rank + 1 := by
  unfold State.finish
  split_ifs
  · simp [State.rank, Task.rank]
  · exact Nat.le_add_right _ _

theorem rank_loopTop (w : WriterLoop) (s : State Msg) :
    (s.loopTop w).rank = s.rank ∧ s.attempts ≤ (s.loopTop w).attempts := by
  unfold State.loopTop
  rcases hq : s.writeQueue with _ | ⟨msg, rest⟩
  · rw [State.finish, if_neg (not_not.mpr hq)]
    exact ⟨rfl, le_rfl⟩
  · exact ⟨rfl, Nat.le_add_right _ _⟩

theorem rank_push (serialize : Msg → Str) (msg : Msg) (s : State Msg) :
    (s.push serialize msg).rank ≤ s.rank + 1 := by
  unfold State.push
  dsimp only
  split_ifs
  · exact Nat.le_add_right _ _
  · simp [State.rank, Task.rank]

/-- Something is left to write in all stages but two. -/
theorem not_allWritten_of_stage (h : Staged clientLoop s stage) (hidle : stage ≠ .idle)
    (hdone : stage ≠ .resuming true []) : ¬ AllWritten s := fun hall =>
  (allWritten_stage h hall).elim hidle hdone

theorem next_ne {queue : List Str} (h : queue ≠ []) :
    Stage.next queue ≠ .idle ∧ Stage.next queue ≠ .resuming true [] := by
  obtain ⟨msg, rest, rfl⟩ := List.exists_cons_of_ne_nil h
  exact ⟨nofun, nofun⟩

/-- With one more message queued, there is one left to write. -/
theorem push_ne (msg : Str) (stage : Stage) :
    Stage.push msg stage ≠ .idle ∧ Stage.push msg stage ≠ .resuming true [] := by
  cases stage <;> simp [Stage.push]

/-- **What is left to write is left by every handler**, and handlers run out. -/
theorem unwritten_run (serialize : Msg → Str) (h : Staged clientLoop s stage)
    (hall : ¬ AllWritten s) {task : Task Msg} {tasks : List (Task Msg)}
    (htasks : s.tasks = task :: tasks) :
    ¬ AllWritten ({ s with tasks := tasks }.runTask clientLoop serialize task)
      ∧ ({ s with tasks := tasks }.runTask clientLoop serialize task).rank < s.rank
      ∧ s.attempts ≤ ({ s with tasks := tasks }.runTask clientLoop serialize task).attempts := by
  have hrank : s.rank = task.rank + { s with tasks := tasks }.rank := by
    rw [State.rank, htasks]
    rfl
  rw [hrank]
  cases task with
  | push msg =>
    have hsame : { s with tasks := tasks }.writerTasks = s.writerTasks := by
      rw [State.writerTasks, State.writerTasks, htasks]
      rfl
    have h' : Staged clientLoop { s with tasks := tasks } stage := h.congr rfl hsame rfl rfl
    have hpushed : Staged clientLoop ({ s with tasks := tasks }.push serialize msg) _ :=
      staged_push msg h'
    have hle := rank_push serialize msg { s with tasks := tasks }
    refine ⟨?_, Nat.lt_of_le_of_lt hle (by rw [Task.rank]; omega), ?_⟩
    · exact not_allWritten_of_stage hpushed (push_ne ..).1 (push_ne ..).2
    · exact (push_frame serialize msg { s with tasks := tasks }).2.2.2.2.2.ge
  | startWriter =>
    obtain ⟨hle, hattempts⟩ := rank_loopTop clientLoop { s with tasks := tasks }
    refine ⟨?_, by rw [State.runTask, hle, Task.rank]; omega, hattempts⟩
    have hcons := writerTasks_cons htasks rfl
    cases stage with
    | idle => cases hcons.symm.trans h.2.1
    | writing left rest => cases hcons.symm.trans h.2.1
    | resuming ok rest => cases hcons.symm.trans h.2.1
    | starting =>
      obtain ⟨hflag, hone, hfly, hqueue⟩ := h
      have hnext := staged_loopTop clientLoop_pops (s := { s with tasks := tasks }) hflag
        (List.cons.inj (hcons.symm.trans hone)).2 hfly
      exact not_allWritten_of_stage hnext (next_ne hqueue).1 (next_ne hqueue).2
  | resume ok =>
    have hcons := writerTasks_cons htasks rfl
    cases stage with
    | idle => cases hcons.symm.trans h.2.1
    | writing left rest => cases hcons.symm.trans h.2.1
    | starting => cases hcons.symm.trans h.2.1
    | resuming ok' rest =>
      have hremaining := remaining_of_staged h
      obtain ⟨hflag, hone, hfly, hqueue⟩ := h
      obtain ⟨hok, hnone⟩ := List.cons.inj (hcons.symm.trans hone)
      obtain rfl := Task.resume.inj hok
      cases ok with
      | false =>
        have hfinish := staged_finish (w := clientLoop) (s := { s with tasks := tasks }) hnone hfly
        rw [if_neg (queue_ne_nil hqueue)] at hfinish
        refine ⟨not_allWritten_of_stage hfinish (by simp) (by simp), ?_, ?_⟩
        · exact Nat.lt_of_le_of_lt (rank_finish { s with tasks := tasks })
            (by rw [Task.rank]; omega)
        · exact (finish_frame { s with tasks := tasks }).2.2.2.2.2.ge
      | true =>
        obtain ⟨hle, hattempts⟩ := rank_loopTop clientLoop
          { s with tasks := tasks, writeQueue := clientLoop.written s.writeQueue }
        refine ⟨?_, ?_, hattempts⟩
        · have hrest : clientLoop.written s.writeQueue = rest := by
            have := hqueue []
            rwa [List.append_nil, List.append_nil] at this
          have hnext := staged_loopTop clientLoop_pops
            (s := { s with tasks := tasks, writeQueue := clientLoop.written s.writeQueue })
            hflag hnone hfly
          by_cases hnil : rest = []
          · rintro ⟨hpushes, -⟩
            rw [State.runTask, loopTop_pushes] at hpushes
            refine hall ⟨?_, hremaining.trans hnil⟩
            rw [State.pushes, htasks]
            exact hpushes
          · have hne : clientLoop.written s.writeQueue ≠ [] := by rwa [hrest]
            exact not_allWritten_of_stage hnext (next_ne hne).1 (next_ne hne).2
        · rw [State.runTask, hle, Task.rank]
          exact Nat.lt_add_of_pos_left (by decide)

/-- So something is in the end tried to be written, with nothing else in the strand. -/
theorem reaches_retrying (serialize : Msg → Str) (n : ℕ) (hn : s.rank < n)
    (h : Staged clientLoop s stage) (hall : ¬ AllWritten s) :
    ∃ acts t, DeadRun clientLoop serialize acts s t ∧ Retrying t ∧ s.attempts ≤ t.attempts := by
  induction n generalizing s stage with
  | zero => exact absurd hn (Nat.not_lt_zero _)
  | succ n ih =>
    rcases htasks : s.tasks with _ | ⟨task, tasks⟩
    · have hnone : s.writerTasks = [] := by rw [State.writerTasks, htasks, List.filter_nil]
      cases stage with
      | idle =>
        have hpushes : s.pushes = [] := by rw [State.pushes, htasks, List.filterMap_nil]
        exact absurd ⟨hpushes, remaining_of_staged h⟩ hall
      | starting => cases hnone.symm.trans h.2.1
      | resuming ok rest => cases hnone.symm.trans h.2.1
      | writing left rest =>
        exact ⟨[], s, DeadRun.nil s, ⟨htasks, ⟨left, h.2.2.1⟩, queue_ne_nil h.2.2.2⟩, le_rfl⟩
    · obtain ⟨hall', hlt, hattempts⟩ := unwritten_run serialize h hall htasks
      obtain ⟨stage', h', -⟩ := staged_run serialize clientLoop_pops h htasks
      obtain ⟨acts, t, hrun, ht, hle⟩ := ih (Nat.lt_of_lt_of_le hlt (Nat.le_of_lt_succ hn)) h' hall'
      have hstep : step clientLoop serialize .run s
          = some ({ s with tasks := tasks }.runTask clientLoop serialize task) := by
        rw [step, htasks]
      exact ⟨.run :: acts, t, hrun.cons trivial hstep, ht, hattempts.trans hle⟩

/-- **A client session's writer stops exactly if nothing was left to write.** -/
theorem client_stops_iff (h : Staged clientLoop s stage) :
    StopsOnDeadSocket clientLoop serialize s ↔ AllWritten s := by
  constructor
  · intro hstops
    by_contra hall
    obtain ⟨acts, t, hrun, ht, hle⟩ := reaches_retrying serialize _ (Nat.lt_succ_self _) h hall
    obtain ⟨acts', u, hrun', hn⟩ :=
      retrying_for_ever serialize (s.writeQueue.length + s.pushes.length + 1) ht
    have := hstops.attempts _ u (hrun.append hrun')
    omega
  · intro hall
    have hstep : ∀ a u v, a.Dead → step clientLoop serialize a u = some v →
        ((∃ stage, Staged clientLoop u stage) ∧ AllWritten u ∧ u.attempts = s.attempts) →
        ((∃ stage, Staged clientLoop v stage) ∧ AllWritten v ∧ v.attempts = s.attempts)
          ∧ v.tasks.length < u.tasks.length := by
      rintro a u v ha hs ⟨⟨stage, hu⟩, hall, hattempts⟩
      obtain ⟨⟨hv, hall'⟩, hsame, hlt⟩ := allWritten_step ha hu hall hs
      exact ⟨⟨⟨_, hv⟩, hall', hsame.trans hattempts⟩, hlt⟩
    refine ⟨fun acts t hrun => ?_, ⟨s.tasks.length, fun acts t hrun => ?_⟩,
      fun acts t hrun hstuck => hrun.ended clientLoop_pops h hstuck⟩
    · have hinv := hrun.invariant (fun a u v ha hs hu => (hstep a u v ha hs hu).1)
        ⟨⟨stage, h⟩, hall, rfl⟩
      exact hinv.2.2.le.trans (Nat.le_add_right _ _)
    · exact hrun.length_le hstep ⟨⟨stage, h⟩, hall, rfl⟩

/-! ## Both sessions -/

/-- The state is reached from the start, by any sends, writes and failures. -/
def Reachable (w : WriterLoop) (serialize : Msg → Str) (s : State Msg) : Prop :=
  ∃ acts, runFrom (step w serialize) acts start = some s

/-- **On a dead socket a server session's writer stops, and a client session's exactly if nothing
was left to write.** -/
theorem writer_stops_iff (serialize : Msg → Str) (s : State Msg) :
    (Reachable serverLoop serialize s → StopsOnDeadSocket serverLoop serialize s)
      ∧ (Reachable clientLoop serialize s →
          (StopsOnDeadSocket clientLoop serialize s ↔ AllWritten s)) := by
  constructor
  · rintro ⟨acts, hrun⟩
    obtain ⟨stage, h⟩ := reachable_staged serverLoop_pops hrun
    exact server_stops h
  · rintro ⟨acts, hrun⟩
    obtain ⟨stage, h⟩ := reachable_staged clientLoop_pops hrun
    exact client_stops_iff h

/-- One message, whose write is in flight. -/
def oneInFlight : List (Action Str) := [.send (str "a"), .run, .run]

/-- After it a server session's writer stops. -/
theorem oneInFlight_server_stops :
    ∃ s : State Str, s.inFlight ≠ [] ∧ StopsOnDeadSocket serverLoop id s := by
  have hrun : (runFrom (step serverLoop id) oneInFlight start).map (fun s =>
      decide (s.inFlight ≠ [])) = some true := by decide +kernel
  obtain ⟨s, hs, hfly⟩ := Option.map_eq_some_iff.mp hrun
  exact ⟨s, of_decide_eq_true hfly, (writer_stops_iff id s).1 ⟨_, hs⟩⟩

/-- A client session's does not. -/
theorem oneInFlight_client_retries :
    ¬ ∀ s : State Str, Reachable clientLoop id s → StopsOnDeadSocket clientLoop id s := by
  intro hstops
  have hrun : (runFrom (step clientLoop id) oneInFlight start).map (fun s =>
      decide (s.remaining ≠ [])) = some true := by decide +kernel
  obtain ⟨s, hs, hleft⟩ := Option.map_eq_some_iff.mp hrun
  obtain ⟨stage, h⟩ := reachable_staged clientLoop_pops hs
  exact of_decide_eq_true hleft ((client_stops_iff h).mp (hstops s ⟨_, hs⟩)).2

end

end Writer

end DistBuild
