import DistBuild.Machinery.Run
import DistBuild.Machinery.Codec

/-!
# Transport/Writer — the send queue of a session and its writer

    send_msg ─dispatch─▸ strand: push ─▸ _write_queue ─▸ writer ─async_write─▸ wire
                            │              ▲    not in progress: flag, spawn
                            └── resume ◂───┘    loop: front, write, pop

The strand runs one handler at a time, first in first out.  A handler pushes a frame, starts a
writer, or goes on with a writer whose write has ended.  The two sessions' writers differ in when
the front leaves the queue: a client session pops it after the write, a server session before it
(`WriterLoop`).  In every state there is at most one writer, and the stage it is in says what is
still unwritten (`Staged`); without failures the wire holds the frames in the order of the queue
(`Intact`).
-/

namespace DistBuild

namespace Writer

/-- When a writer's loop removes the front of the queue. -/
structure WriterLoop where
  /-- The queue once the loop has taken its front to write. -/
  taken : List Str → List Str
  /-- The queue once that write is done. -/
  written : List Str → List Str

/-- `ClientSession::_writer_loop`: the front is written where it stands, and popped after. -/
def clientLoop : WriterLoop := ⟨id, List.tail⟩

/-- `ServerSession::_writer_loop`: the front is moved out and popped, and written after. -/
def serverLoop : WriterLoop := ⟨List.tail, id⟩

/-- A handler that waits in the strand. -/
inductive Task (Msg : Type*)
  /-- The handler `send_msg` dispatches. -/
  | push (msg : Msg)
  /-- A spawned writer. -/
  | startWriter
  /-- A writer whose write has ended; `false` throws. -/
  | resume (ok : Bool)
deriving DecidableEq

namespace Task

variable {Msg : Type*}

/-- A handler that is part of a writer. -/
def isWriter : Task Msg → Bool
  | push _ => false
  | startWriter => true
  | resume _ => true

/-- The message a handler pushes. -/
def msg? : Task Msg → Option Msg
  | push msg => some msg
  | startWriter => none
  | resume _ => none

end Task

/-- A session's socket side.  `sent`, `queued` and `attempts` record the calls of `send_msg`, the
messages in the order they were pushed, and the calls of `async_write`. -/
structure State (Msg : Type*) where
  tasks : List (Task Msg)
  writeQueue : List Str
  writeInProgress : Bool
  /-- What each write that is outstanding has still to write. -/
  inFlight : List Str
  wire : Str
  sent : List Msg
  queued : List Msg
  attempts : ℕ
deriving DecidableEq

variable {Msg : Type*}

def start : State Msg := ⟨[], [], false, [], [], [], [], 0⟩

inductive Action (Msg : Type*)
  /-- `send_msg` outside the strand. -/
  | send (msg : Msg)
  /-- `send_msg` in a handler of the strand, whose dispatch runs at once. -/
  | sendInline (msg : Msg)
  /-- The strand runs its next handler. -/
  | run
  /-- The socket takes the next byte of a write. -/
  | transfer (i : ℕ)
  /-- A write that has written all of its buffer completes. -/
  | complete (i : ℕ)
  /-- A write fails. -/
  | fail (i : ℕ)
deriving DecidableEq

namespace State

/-- The end of the loop, also after an exception: the flag is cleared, and set again for a new
writer if anything is queued. -/
def finish (s : State Msg) : State Msg :=
  if s.writeQueue ≠ [] then
    { s with writeInProgress := true, tasks := s.tasks ++ [.startWriter] }
  else { s with writeInProgress := false }

/-- The loop up to its next write, or to its end. -/
def loopTop (w : WriterLoop) (s : State Msg) : State Msg :=
  match s.writeQueue with
  | [] => s.finish
  | msg :: _ => { s with
      writeQueue := w.taken s.writeQueue
      inFlight := s.inFlight ++ [msg]
      attempts := s.attempts + 1 }

/-- The handler of `send_msg`. -/
def push (serialize : Msg → Str) (msg : Msg) (s : State Msg) : State Msg :=
  let s := { s with
    writeQueue := s.writeQueue ++ [frame (serialize msg)]
    queued := s.queued ++ [msg] }
  if s.writeInProgress then s
  else { s with writeInProgress := true, tasks := s.tasks ++ [.startWriter] }

def runTask (w : WriterLoop) (serialize : Msg → Str) (s : State Msg) : Task Msg → State Msg
  | .push msg => s.push serialize msg
  | .startWriter => s.loopTop w
  | .resume true => { s with writeQueue := w.written s.writeQueue }.loopTop w
  | .resume false => s.finish

end State

open State

def step (w : WriterLoop) (serialize : Msg → Str) : Action Msg → State Msg → Option (State Msg)
  | .send msg, s => some { s with tasks := s.tasks ++ [.push msg], sent := s.sent ++ [msg] }
  | .sendInline msg, s => some ({ s with sent := s.sent ++ [msg] }.push serialize msg)
  | .run, s =>
    match s.tasks with
    | [] => none
    | task :: tasks => some ({ s with tasks := tasks }.runTask w serialize task)
  | .transfer i, s =>
    match s.inFlight[i]? with
    | some (b :: rest) => some { s with inFlight := s.inFlight.set i rest, wire := s.wire ++ [b] }
    | _ => none
  | .complete i, s =>
    if s.inFlight[i]? = some [] then
      some { s with inFlight := s.inFlight.eraseIdx i, tasks := s.tasks ++ [.resume true] }
    else none
  | .fail i, s =>
    if i < s.inFlight.length then
      some { s with inFlight := s.inFlight.eraseIdx i, tasks := s.tasks ++ [.resume false] }
    else none

section

variable {w : WriterLoop} {serialize : Msg → Str} {s t : State Msg} {i : ℕ}

theorem step_run (h : step w serialize .run s = some t) : ∃ task tasks,
    s.tasks = task :: tasks ∧ t = { s with tasks := tasks }.runTask w serialize task := by
  rw [step] at h
  split at h
  · cases h
  · rename_i task tasks htasks
    exact ⟨task, tasks, htasks, (Option.some.inj h).symm⟩

theorem step_transfer (h : step w serialize (.transfer i) s = some t) : ∃ b rest,
    s.inFlight[i]? = some (b :: rest)
      ∧ t = { s with inFlight := s.inFlight.set i rest, wire := s.wire ++ [b] } := by
  rw [step] at h
  split at h
  · rename_i b rest hget
    exact ⟨b, rest, hget, (Option.some.inj h).symm⟩
  · cases h

theorem step_complete (h : step w serialize (.complete i) s = some t) :
    s.inFlight[i]? = some []
      ∧ t = { s with
        inFlight := s.inFlight.eraseIdx i, tasks := s.tasks ++ [.resume true] } := by
  rw [step] at h
  split_ifs at h with hget
  exact ⟨hget, (Option.some.inj h).symm⟩

theorem step_fail (h : step w serialize (.fail i) s = some t) :
    i < s.inFlight.length
      ∧ t = { s with
        inFlight := s.inFlight.eraseIdx i, tasks := s.tasks ++ [.resume false] } := by
  rw [step] at h
  split_ifs at h with hlt
  exact ⟨hlt, (Option.some.inj h).symm⟩

end

/-! ## The stage of the writer -/

/-- Where the session's writer is. -/
inductive Stage
  | idle
  | starting
  /-- A write of which `left` is outstanding; `rest` is the queue after it. -/
  | writing (left : Str) (rest : List Str)
  | resuming (ok : Bool) (rest : List Str)

/-- The handlers of the strand that are part of a writer. -/
def State.writerTasks (s : State Msg) : List (Task Msg) := s.tasks.filter Task.isWriter

/-- The state is in that stage, with no writer besides. -/
def Staged (w : WriterLoop) (s : State Msg) : Stage → Prop
  | .idle => s.writeInProgress = false ∧ s.writerTasks = [] ∧ s.inFlight = [] ∧ s.writeQueue = []
  | .starting => s.writeInProgress = true ∧ s.writerTasks = [.startWriter] ∧ s.inFlight = []
      ∧ s.writeQueue ≠ []
  | .writing left rest => s.writeInProgress = true ∧ s.writerTasks = [] ∧ s.inFlight = [left]
      ∧ ∀ more, w.written (s.writeQueue ++ more) = rest ++ more
  | .resuming ok rest => s.writeInProgress = true ∧ s.writerTasks = [.resume ok] ∧ s.inFlight = []
      ∧ ∀ more, w.written (s.writeQueue ++ more) = rest ++ more

/-- What is queued and not written. -/
def Stage.unwritten (s : State Msg) : Stage → Str
  | .idle => []
  | .starting => s.writeQueue.flatten
  | .writing left rest => left ++ rest.flatten
  | .resuming _ rest => rest.flatten

/-- The frames of the messages pushed so far. -/
def State.frames (serialize : Msg → Str) (s : State Msg) : Str :=
  (s.queued.map fun msg => frame (serialize msg)).flatten

/-- No write has failed, and the wire is short of nothing but what is unwritten. -/
def Intact (serialize : Msg → Str) (s : State Msg) (stage : Stage) : Prop :=
  (∀ rest, stage ≠ .resuming false rest) ∧ s.wire ++ stage.unwritten s = s.frames serialize

/-- Taking the front and having written it pops it, whatever is pushed between. -/
def WriterLoop.Pops (w : WriterLoop) : Prop :=
  ∀ msg queue more, w.written (w.taken (msg :: queue) ++ more) = queue ++ more

theorem clientLoop_pops : clientLoop.Pops := fun _ _ _ => rfl

theorem serverLoop_pops : serverLoop.Pops := fun _ _ _ => rfl

/-! ## What the handlers do to the stage -/

/-- The stage after a push. -/
def Stage.push (f : Str) : Stage → Stage
  | .idle => .starting
  | .starting => .starting
  | .writing left rest => .writing left (rest ++ [f])
  | .resuming ok rest => .resuming ok (rest ++ [f])

section

variable {w : WriterLoop} {serialize : Msg → Str} {s t : State Msg} {stage : Stage}

theorem writerTasks_append (s : State Msg) (task : Task Msg) :
    { s with tasks := s.tasks ++ [task] }.writerTasks
      = s.writerTasks ++ [task].filter Task.isWriter :=
  List.filter_append ..

theorem frames_push (s : State Msg) (msg : Msg) :
    { s with queued := s.queued ++ [msg] }.frames serialize
      = s.frames serialize ++ frame (serialize msg) := by
  simp [State.frames]

/-- A push leaves everything but the queue, and starts a writer if none is there. -/
theorem staged_push (msg : Msg) (h : Staged w s stage) :
    Staged w (s.push serialize msg) (stage.push (frame (serialize msg))) := by
  cases stage with
  | idle =>
    obtain ⟨hflag, htasks, hfly, -⟩ := h
    rw [State.push]
    simp only [hflag, Bool.false_eq_true, if_false]
    refine ⟨rfl, ?_, hfly, List.append_ne_nil_of_right_ne_nil _ (List.cons_ne_nil _ _)⟩
    exact (writerTasks_append _ _).trans (congrArg (· ++ _) htasks)
  | starting =>
    obtain ⟨hflag, htasks, hfly, -⟩ := h
    rw [State.push]
    simp only [hflag, if_true]
    exact ⟨rfl, htasks, hfly, List.append_ne_nil_of_right_ne_nil _ (List.cons_ne_nil _ _)⟩
  | writing left rest =>
    obtain ⟨hflag, htasks, hfly, hqueue⟩ := h
    rw [State.push]
    simp only [hflag, if_true]
    refine ⟨rfl, htasks, hfly, fun more => ?_⟩
    dsimp only
    rw [List.append_assoc, hqueue, List.append_assoc]
  | resuming ok rest =>
    obtain ⟨hflag, htasks, hfly, hqueue⟩ := h
    rw [State.push]
    simp only [hflag, if_true]
    refine ⟨rfl, htasks, hfly, fun more => ?_⟩
    dsimp only
    rw [List.append_assoc, hqueue, List.append_assoc]

theorem push_frame (serialize : Msg → Str) (msg : Msg) (s : State Msg) :
    (s.push serialize msg).wire = s.wire ∧ (s.push serialize msg).inFlight = s.inFlight
      ∧ (s.push serialize msg).writeQueue = s.writeQueue ++ [frame (serialize msg)]
      ∧ (s.push serialize msg).queued = s.queued ++ [msg]
      ∧ (s.push serialize msg).sent = s.sent
      ∧ (s.push serialize msg).attempts = s.attempts := by
  unfold State.push
  dsimp only
  split_ifs <;> exact ⟨rfl, rfl, rfl, rfl, rfl, rfl⟩

theorem intact_push (msg : Msg) (h : Staged w s stage) (hi : Intact serialize s stage) :
    Intact serialize (s.push serialize msg) (stage.push (frame (serialize msg))) := by
  obtain ⟨hwire, -, hqueue, hqueued, -⟩ := push_frame serialize msg s
  obtain ⟨hok, hi⟩ := hi
  have hframes : (s.push serialize msg).frames serialize
      = s.frames serialize ++ frame (serialize msg) := by
    rw [State.frames, hqueued]
    exact frames_push s msg
  have hunwritten : (stage.push (frame (serialize msg))).unwritten (s.push serialize msg)
      = stage.unwritten s ++ frame (serialize msg) := by
    cases stage with
    | idle =>
      obtain ⟨-, -, -, hnil⟩ := h
      simp [Stage.push, Stage.unwritten, hqueue, hnil]
    | starting => simp [Stage.push, Stage.unwritten, hqueue]
    | writing left rest => simp [Stage.push, Stage.unwritten]
    | resuming ok rest => simp [Stage.push, Stage.unwritten]
  refine ⟨fun rest hstage => ?_, by rw [hwire, hunwritten, hframes, ← hi, List.append_assoc]⟩
  cases stage with
  | idle => cases hstage
  | starting => cases hstage
  | writing left rest => cases hstage
  | resuming ok rest =>
    cases hstage
    exact hok _ rfl

theorem finish_frame (s : State Msg) :
    s.finish.wire = s.wire ∧ s.finish.inFlight = s.inFlight ∧ s.finish.writeQueue = s.writeQueue
      ∧ s.finish.queued = s.queued ∧ s.finish.sent = s.sent ∧ s.finish.attempts = s.attempts := by
  unfold State.finish
  split_ifs <;> exact ⟨rfl, rfl, rfl, rfl, rfl, rfl⟩

/-- At its end a writer leaves nothing queued, or another writer. -/
theorem staged_finish (htasks : s.writerTasks = []) (hfly : s.inFlight = []) :
    Staged w s.finish (if s.writeQueue = [] then .idle else .starting) := by
  unfold State.finish
  by_cases hqueue : s.writeQueue = []
  · rw [if_pos hqueue, if_neg (not_not.mpr hqueue)]
    exact ⟨rfl, htasks, hfly, hqueue⟩
  · rw [if_neg hqueue, if_pos hqueue]
    exact ⟨rfl, (writerTasks_append _ _).trans (congrArg (· ++ _) htasks), hfly, hqueue⟩

/-- The stage after the loop has gone on with a queue. -/
def Stage.next : List Str → Stage
  | [] => .idle
  | msg :: rest => .writing msg rest

theorem staged_loopTop (hw : w.Pops) (hflag : s.writeInProgress = true)
    (htasks : s.writerTasks = []) (hfly : s.inFlight = []) :
    Staged w (s.loopTop w) (.next s.writeQueue) := by
  unfold State.loopTop
  cases hqueue : s.writeQueue with
  | nil =>
    have := staged_finish (w := w) htasks hfly
    rwa [if_pos hqueue] at this
  | cons msg rest =>
    refine ⟨hflag, htasks, ?_, hw msg rest⟩
    dsimp only
    rw [hfly]
    rfl

theorem loopTop_frame (w : WriterLoop) (s : State Msg) :
    (s.loopTop w).wire = s.wire ∧ (s.loopTop w).queued = s.queued
      ∧ (s.loopTop w).sent = s.sent := by
  unfold State.loopTop
  cases s.writeQueue with
  | nil => exact ⟨(finish_frame s).1, (finish_frame s).2.2.2.1, (finish_frame s).2.2.2.2.1⟩
  | cons msg rest => exact ⟨rfl, rfl, rfl⟩

theorem unwritten_next (s : State Msg) (queue : List Str) :
    (Stage.next queue).unwritten s = queue.flatten := by
  cases queue <;> rfl

/-- A writer goes on with what is queued. -/
theorem intact_loopTop (hi : s.wire ++ s.writeQueue.flatten = s.frames serialize) :
    Intact serialize (s.loopTop w) (.next s.writeQueue) := by
  obtain ⟨hwire, hqueued, -⟩ := loopTop_frame w s
  refine ⟨fun rest hstage => ?_, ?_⟩
  · cases hq : s.writeQueue with
    | nil =>
      rw [hq] at hstage
      cases hstage
    | cons msg rest =>
      rw [hq] at hstage
      cases hstage
  · rw [unwritten_next, hwire, hi, State.frames, State.frames, hqueued]

/-- A write is outstanding in one stage only, and it is the only one. -/
theorem stage_of_inFlight (h : Staged w s stage) {i : ℕ} {left : Str}
    (hget : s.inFlight[i]? = some left) : i = 0 ∧ ∃ rest, stage = .writing left rest := by
  have hne : s.inFlight ≠ [] := List.ne_nil_of_mem (List.mem_of_getElem? hget)
  cases stage with
  | idle => exact absurd h.2.2.1 hne
  | starting => exact absurd h.2.2.1 hne
  | resuming ok rest => exact absurd h.2.2.1 hne
  | writing left' rest =>
    rw [h.2.2.1] at hget
    obtain ⟨hi, hget⟩ := List.getElem?_eq_some_iff.mp hget
    obtain rfl : i = 0 := by simpa using hi
    obtain rfl : left' = left := hget
    exact ⟨rfl, rest, rfl⟩

/-- The stage of a state is read off its flag, its writers and its queue. -/
theorem Staged.congr {s' : State Msg} (h : Staged w s stage)
    (hflag : s'.writeInProgress = s.writeInProgress) (htasks : s'.writerTasks = s.writerTasks)
    (hfly : s'.inFlight = s.inFlight) (hqueue : s'.writeQueue = s.writeQueue) :
    Staged w s' stage := by
  cases stage <;> simpa only [Staged, hflag, htasks, hfly, hqueue] using h

/-- So is what is unwritten in it. -/
theorem Intact.congr {s' : State Msg} (h : Intact serialize s stage) (hwire : s'.wire = s.wire)
    (hqueue : s'.writeQueue = s.writeQueue) (hqueued : s'.queued = s.queued) :
    Intact serialize s' stage := by
  refine ⟨h.1, ?_⟩
  have hunwritten : stage.unwritten s' = stage.unwritten s := by
    cases stage with
    | starting => exact congrArg List.flatten hqueue
    | idle => rfl
    | writing left rest => rfl
    | resuming ok rest => rfl
  rw [hwire, hunwritten, h.2, State.frames, State.frames, hqueued]

/-- The rest of the strand after a handler that is part of a writer. -/
theorem writerTasks_cons {task : Task Msg} {tasks : List (Task Msg)}
    (htasks : s.tasks = task :: tasks) (hwriter : task.isWriter = true) :
    s.writerTasks = task :: { s with tasks := tasks }.writerTasks := by
  rw [State.writerTasks, htasks]
  exact List.filter_cons_of_pos hwriter

/-- A stage whose writer is a handler of the strand is left when the handler runs. -/
theorem staged_run_writer (serialize : Msg → Str) (hw : w.Pops) {task : Task Msg}
    {tasks : List (Task Msg)} (h : Staged w s stage) (htasks : s.tasks = task :: tasks)
    (hwriter : task.isWriter = true) :
    ∃ stage', Staged w ({ s with tasks := tasks }.runTask w serialize task) stage'
      ∧ (Intact serialize s stage →
          Intact serialize ({ s with tasks := tasks }.runTask w serialize task) stage') := by
  have hcons := writerTasks_cons htasks hwriter
  cases stage with
  | idle => cases hcons.symm.trans h.2.1
  | writing left rest => cases hcons.symm.trans h.2.1
  | starting =>
    obtain ⟨hflag, hone, hfly, -⟩ := h
    obtain ⟨rfl, hnone⟩ := List.cons.inj (hcons.symm.trans hone)
    exact ⟨_, staged_loopTop hw hflag hnone hfly, fun hi => intact_loopTop hi.2⟩
  | resuming ok rest =>
    obtain ⟨hflag, hone, hfly, hqueue⟩ := h
    obtain ⟨rfl, hnone⟩ := List.cons.inj (hcons.symm.trans hone)
    have hrest : w.written s.writeQueue = rest := by
      have := hqueue []
      rwa [List.append_nil, List.append_nil] at this
    cases ok with
    | false =>
      refine ⟨_, staged_finish hnone hfly, fun hi => absurd rfl (hi.1 rest)⟩
    | true =>
      refine ⟨_, staged_loopTop hw hflag hnone hfly, fun hi => intact_loopTop ?_⟩
      dsimp only
      rw [hrest]
      exact hi.2

/-- The strand runs a handler. -/
theorem staged_run (serialize : Msg → Str) (hw : w.Pops) {task : Task Msg} {tasks : List (Task Msg)}
    (h : Staged w s stage) (htasks : s.tasks = task :: tasks) :
    ∃ stage', Staged w ({ s with tasks := tasks }.runTask w serialize task) stage'
      ∧ (Intact serialize s stage →
          Intact serialize ({ s with tasks := tasks }.runTask w serialize task) stage') := by
  cases hwriter : task.isWriter with
  | true => exact staged_run_writer serialize hw h htasks hwriter
  | false =>
    obtain ⟨msg, rfl⟩ : ∃ msg, task = .push msg := by
      cases task with
      | push msg => exact ⟨msg, rfl⟩
      | startWriter => cases hwriter
      | resume ok => cases hwriter
    have hsame : { s with tasks := tasks }.writerTasks = s.writerTasks := by
      rw [State.writerTasks, State.writerTasks, htasks]
      rfl
    have h' : Staged w { s with tasks := tasks } stage := h.congr rfl hsame rfl rfl
    exact ⟨_, staged_push msg h', fun hi => intact_push msg h' (hi.congr rfl rfl rfl)⟩

/-- The actions in which no write fails. -/
def Action.Succeeds : Action Msg → Prop
  | .fail _ => False
  | _ => True

instance : DecidablePred (@Action.Succeeds Msg)
  | .fail _ => inferInstanceAs (Decidable False)
  | .send _ | .sendInline _ | .run | .transfer _ | .complete _ => inferInstanceAs (Decidable True)

/-- **The step lemma**: after a step there is again at most one writer, and if no write fails
nothing is lost. -/
theorem staged_step (hw : w.Pops) {a : Action Msg} (h : Staged w s stage)
    (hs : step w serialize a s = some t) :
    ∃ stage', Staged w t stage'
      ∧ (a.Succeeds → Intact serialize s stage → Intact serialize t stage') := by
  cases a with
  | send msg =>
    cases hs
    have hsame : { s with tasks := s.tasks ++ [Task.push msg] }.writerTasks = s.writerTasks :=
      (writerTasks_append s _).trans (List.append_nil _)
    exact ⟨stage, h.congr rfl hsame rfl rfl, fun _ hi => hi.congr rfl rfl rfl⟩
  | sendInline msg =>
    cases hs
    have h' : Staged w { s with sent := s.sent ++ [msg] } stage := h.congr rfl rfl rfl rfl
    exact ⟨_, staged_push msg h', fun _ hi => intact_push msg h' (hi.congr rfl rfl rfl)⟩
  | run =>
    obtain ⟨task, tasks, htasks, rfl⟩ := step_run hs
    obtain ⟨stage', hstaged, hintact⟩ := staged_run serialize hw h htasks
    exact ⟨stage', hstaged, fun _ => hintact⟩
  | transfer i =>
    obtain ⟨b, left', hget, rfl⟩ := step_transfer hs
    obtain ⟨rfl, rest, rfl⟩ := stage_of_inFlight h hget
    obtain ⟨hflag, htasks, hfly, hqueue⟩ := h
    refine ⟨.writing left' rest, ⟨hflag, htasks, by rw [hfly]; rfl, hqueue⟩, fun _ hi => ?_⟩
    refine ⟨fun rest' hstage => (by cases hstage), ?_⟩
    have hwire := hi.2
    rw [Stage.unwritten, List.cons_append] at hwire
    rw [Stage.unwritten, List.append_assoc]
    exact hwire
  | complete i =>
    obtain ⟨hget, rfl⟩ := step_complete hs
    obtain ⟨rfl, rest, rfl⟩ := stage_of_inFlight h hget
    obtain ⟨hflag, htasks, hfly, hqueue⟩ := h
    refine ⟨.resuming true rest, ⟨hflag, ?_, by rw [hfly]; rfl, hqueue⟩, fun _ hi => ?_⟩
    · exact (writerTasks_append s _).trans (congrArg (· ++ _) htasks)
    · exact ⟨fun rest' hstage => (by cases hstage), hi.2⟩
  | fail i =>
    obtain ⟨hlt, rfl⟩ := step_fail hs
    obtain ⟨rfl, rest, rfl⟩ := stage_of_inFlight h (List.getElem?_eq_getElem hlt)
    obtain ⟨hflag, htasks, hfly, hqueue⟩ := h
    refine ⟨.resuming false rest, ⟨hflag, ?_, by rw [hfly]; rfl, hqueue⟩, fun hok => hok.elim⟩
    exact (writerTasks_append s _).trans (congrArg (· ++ _) htasks)

end

end Writer

end DistBuild
