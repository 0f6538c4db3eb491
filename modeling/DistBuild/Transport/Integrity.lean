import DistBuild.Transport.Writer

/-!
# Transport/Integrity — what is sent is received

    sent ─strand─▸ queued ─writer─▸ wire = frame m₁ ++ frame m₂ ++ …  ─receive_msg─▸ m₁, m₂, …

While no write fails the wire holds the frames of the queued messages, up to what the one write in
flight has left (`Intact`).  A reader of frames gets the messages back one by one, and from a wire
that is not yet complete a first part of them (`receiveMsgs_prefix`).  Both writers have this
(`stream_integrity`), as each pops what it has written.
-/

namespace DistBuild

namespace Writer

variable {Msg : Type}

/-! ## The peer -/

/-- `proto_io::receive_msg`; `none` waits for more bytes. -/
def receiveMsg (parse : Str → Option Msg) (stream : Str) : Option (Msg × Str) := do
  let (payload, rest) ← readFrame stream
  let msg ← parse payload
  return (msg, rest)

/-- The messages of `n` calls, fewer if one of them waits, and what they leave on the stream. -/
def receiveMsgs (parse : Str → Option Msg) : ℕ → Str → List Msg × Str
  | 0, stream => ([], stream)
  | n + 1, stream =>
    match receiveMsg parse stream with
    | none => ([], stream)
    | some (msg, rest) => ((msg :: (receiveMsgs parse n rest).1), (receiveMsgs parse n rest).2)

section

variable {serialize : Msg → Str} {parse : Str → Option Msg}

/-- The bytes of messages, framed one after the other. -/
def framesOf (serialize : Msg → Str) (msgs : List Msg) : Str :=
  (msgs.map fun msg => frame (serialize msg)).flatten

theorem framesOf_cons (msg : Msg) (msgs : List Msg) :
    framesOf serialize (msg :: msgs) = frame (serialize msg) ++ framesOf serialize msgs := rfl

theorem receiveMsg_frame (hparse : ∀ msg, parse (serialize msg) = some msg) {msg : Msg}
    (hsize : (serialize msg).length < 2 ^ 32) (rest : Str) :
    receiveMsg parse (frame (serialize msg) ++ rest) = some (msg, rest) := by
  simp [receiveMsg, readFrame_frame _ rest hsize, hparse]

/-- **Framed messages are received one after the other.** -/
theorem receiveMsgs_frames (hparse : ∀ msg, parse (serialize msg) = some msg) {msgs : List Msg}
    (hsize : ∀ msg ∈ msgs, (serialize msg).length < 2 ^ 32) (rest : Str) :
    receiveMsgs parse msgs.length (framesOf serialize msgs ++ rest) = (msgs, rest) := by
  induction msgs with
  | nil => rfl
  | cons msg msgs ih =>
    obtain ⟨hmsg, hmsgs⟩ := List.forall_mem_cons.mp hsize
    rw [List.length_cons, receiveMsgs, framesOf_cons, List.append_assoc,
      receiveMsg_frame hparse hmsg]
    dsimp only
    rw [ih hmsgs]

/-- **From a first part of the frames a first part of the messages is received.** -/
theorem receiveMsgs_prefix (hparse : ∀ msg, parse (serialize msg) = some msg) {msgs : List Msg}
    (hsize : ∀ msg ∈ msgs, (serialize msg).length < 2 ^ 32) {stream : Str}
    (h : stream <+: framesOf serialize msgs) (n : ℕ) : (receiveMsgs parse n stream).1 <+: msgs := by
  induction n generalizing stream msgs with
  | zero => exact List.nil_prefix
  | succ n ih =>
    obtain ⟨more, hmore⟩ := h
    rw [receiveMsgs]
    cases hrecv : receiveMsg parse stream with
    | none => exact List.nil_prefix
    | some r =>
      simp only [receiveMsg, Option.bind_eq_bind, Option.bind_eq_some_iff, Option.pure_def,
        Option.some.injEq] at hrecv
      obtain ⟨⟨payload, rest⟩, hread, msg, hmsg, rfl⟩ := hrecv
      have hread := readFrame_append more hread
      rw [hmore] at hread
      cases msgs with
      | nil => cases hread
      | cons msg' msgs =>
        obtain ⟨hmsg', hmsgs⟩ := List.forall_mem_cons.mp hsize
        rw [framesOf_cons, readFrame_frame _ _ hmsg'] at hread
        obtain ⟨rfl, hrest⟩ := Prod.mk.inj (Option.some.inj hread)
        obtain rfl : msg' = msg := Option.some.inj ((hparse msg').symm.trans hmsg)
        exact List.cons_prefix_cons.mpr ⟨rfl, ih hmsgs ⟨more, hrest.symm⟩⟩

end

/-! ## What has been sent -/

/-- The messages whose handlers wait in the strand. -/
def State.pushes (s : State Msg) : List Msg := s.tasks.filterMap Task.msg?

/-- Every message sent is pushed once or about to be. -/
def Accounted (s : State Msg) : Prop := (s.queued ++ s.pushes).Perm s.sent

section

variable {w : WriterLoop} {serialize : Msg → Str} {s t : State Msg}

theorem pushes_append (s : State Msg) (task : Task Msg) :
    { s with tasks := s.tasks ++ [task] }.pushes = s.pushes ++ [task].filterMap Task.msg? :=
  List.filterMap_append ..

theorem pushes_resume (s : State Msg) (inFlight : List Str) (ok : Bool) :
    { s with inFlight := inFlight, tasks := s.tasks ++ [Task.resume ok] }.pushes = s.pushes :=
  (pushes_append { s with inFlight := inFlight } _).trans (List.append_nil _)

theorem finish_pushes (s : State Msg) : s.finish.pushes = s.pushes := by
  unfold State.finish
  split_ifs
  · exact (pushes_append _ _).trans (List.append_nil _)
  · rfl

theorem loopTop_pushes (w : WriterLoop) (s : State Msg) : (s.loopTop w).pushes = s.pushes := by
  unfold State.loopTop
  cases s.writeQueue with
  | nil => exact finish_pushes s
  | cons msg rest => rfl

theorem push_pushes (msg : Msg) (s : State Msg) : (s.push serialize msg).pushes = s.pushes := by
  unfold State.push
  dsimp only
  split_ifs
  · rfl
  · exact (pushes_append _ _).trans (List.append_nil _)

/-- A handler pushes its message, and no other. -/
theorem runTask_pushes (w : WriterLoop) (serialize : Msg → Str) (s : State Msg) (task : Task Msg) :
    (s.runTask w serialize task).pushes = s.pushes
      ∧ (s.runTask w serialize task).queued = s.queued ++ [task].filterMap Task.msg?
      ∧ (s.runTask w serialize task).sent = s.sent := by
  cases task with
  | push msg =>
    obtain ⟨-, -, -, hqueued, hsent, -⟩ := push_frame serialize msg s
    exact ⟨push_pushes msg s, hqueued, hsent⟩
  | startWriter =>
    obtain ⟨-, hqueued, hsent⟩ := loopTop_frame w s
    exact ⟨loopTop_pushes w s, hqueued.trans (List.append_nil _).symm, hsent⟩
  | resume ok =>
    cases ok with
    | true =>
      obtain ⟨-, hqueued, hsent⟩ := loopTop_frame w { s with writeQueue := w.written s.writeQueue }
      exact ⟨loopTop_pushes w _, hqueued.trans (List.append_nil _).symm, hsent⟩
    | false =>
      obtain ⟨-, -, -, hqueued, hsent, -⟩ := finish_frame s
      exact ⟨finish_pushes s, hqueued.trans (List.append_nil _).symm, hsent⟩

theorem accounted_step {a : Action Msg} (h : Accounted s) (hs : step w serialize a s = some t) :
    Accounted t := by
  cases a with
  | send msg =>
    cases hs
    show (s.queued ++ { s with tasks := s.tasks ++ [Task.push msg] }.pushes).Perm (s.sent ++ [msg])
    rw [pushes_append, ← List.append_assoc]
    exact h.append_right [msg]
  | sendInline msg =>
    cases hs
    obtain ⟨-, -, -, hqueued, hsent, -⟩ :=
      push_frame serialize msg { s with sent := s.sent ++ [msg] }
    rw [Accounted, hqueued, hsent, push_pushes]
    calc (s.queued ++ [msg] ++ s.pushes).Perm (s.queued ++ s.pushes ++ [msg]) := by
          rw [List.append_assoc, List.append_assoc]
          exact List.perm_append_comm.append_left s.queued
      _ |>.Perm (s.sent ++ [msg]) := h.append_right [msg]
  | run =>
    obtain ⟨task, tasks, htasks, rfl⟩ := step_run hs
    obtain ⟨hpushes, hqueued, hsent⟩ :=
      runTask_pushes w serialize { s with tasks := tasks } task
    have hhead : s.pushes = [task].filterMap Task.msg? ++ { s with tasks := tasks }.pushes := by
      rw [State.pushes, htasks]
      exact List.filterMap_append (l := [task])
    rw [Accounted, hpushes, hqueued, hsent, List.append_assoc, ← hhead]
    exact h
  | transfer i =>
    obtain ⟨_, _, -, rfl⟩ := step_transfer hs
    exact h
  | complete i =>
    obtain ⟨-, rfl⟩ := step_complete hs
    rw [Accounted, pushes_resume s]
    exact h
  | fail i =>
    obtain ⟨-, rfl⟩ := step_fail hs
    rw [Accounted, pushes_resume s]
    exact h

end

/-! ## Integrity -/

/-- What the two ends of the socket can rely on. -/
structure Delivers (serialize : Msg → Str) (parse : Str → Option Msg) (s : State Msg) : Prop where
  one_write : s.inFlight.length ≤ 1
  /-- Nothing queued is left without a writer. -/
  writer : s.writeQueue ≠ [] → s.writerTasks.length + s.inFlight.length = 1
  /-- The wire holds a first part of the frames in the order of the queue. -/
  wire : s.wire <+: framesOf serialize s.queued
  /-- Each message sent is pushed once or about to be. -/
  sent : (s.queued ++ s.pushes).Perm s.sent
  received : ∀ n, (receiveMsgs parse n s.wire).1 <+: s.queued
  /-- When nothing is left to run or to write, the peer gets exactly the messages sent. -/
  quiet : s.tasks = [] → s.inFlight = [] → s.wire = framesOf serialize s.queued
    ∧ s.queued.Perm s.sent ∧ receiveMsgs parse s.queued.length s.wire = (s.queued, [])

theorem staged_start (w : WriterLoop) : Staged w (start : State Msg) .idle := ⟨rfl, rfl, rfl, rfl⟩

theorem intact_start (serialize : Msg → Str) : Intact serialize start .idle :=
  ⟨fun _ hstage => (by cases hstage), rfl⟩

section

variable {w : WriterLoop} {serialize : Msg → Str} {acts : List (Action Msg)} {s : State Msg}

/-- **The run lemma**: at most one writer, in every reachable state. -/
theorem reachable_staged (hw : w.Pops) (hrun : runFrom (step w serialize) acts start = some s) :
    ∃ stage, Staged w s stage :=
  runFrom_invariant (I := fun s => ∃ stage, Staged w s stage)
    (fun _ _ _ hs ⟨_, h⟩ => (staged_step hw h hs).imp fun _ h => h.1) hrun ⟨_, staged_start w⟩

/-- The run lemma for runs without a failure. -/
theorem reachable_intact (hw : w.Pops) (hrun : runFrom (step w serialize) acts start = some s)
    (hok : ∀ a ∈ acts, a.Succeeds) : ∃ stage, Staged w s stage ∧ Intact serialize s stage := by
  refine Meets.invariant (I := fun s => ∃ stage, Staged w s stage ∧ Intact serialize s stage)
    ?_ (Meets.of_labels hok start) hrun ⟨_, staged_start w, intact_start serialize⟩
  rintro a s t ha hs ⟨stage, h, hi⟩
  obtain ⟨stage', h', hi'⟩ := staged_step hw h hs
  exact ⟨stage', h', hi' ha hi⟩

theorem reachable_accounted (hrun : runFrom (step w serialize) acts start = some s) :
    Accounted s :=
  runFrom_invariant (fun _ _ _ hs h => accounted_step h hs) hrun (List.Perm.refl _)

/-- A stage has one writer, but if idle. -/
theorem Staged.writers {stage : Stage} (h : Staged w s stage) :
    s.inFlight.length ≤ 1
      ∧ (s.writeQueue ≠ [] → s.writerTasks.length + s.inFlight.length = 1) := by
  cases stage with
  | idle =>
    obtain ⟨-, -, hfly, hqueue⟩ := h
    exact ⟨by rw [hfly]; exact Nat.zero_le _, fun hne => absurd hqueue hne⟩
  | starting =>
    obtain ⟨-, htasks, hfly, -⟩ := h
    rw [htasks, hfly]
    exact ⟨Nat.zero_le _, fun _ => rfl⟩
  | writing left rest =>
    obtain ⟨-, htasks, hfly, -⟩ := h
    rw [htasks, hfly]
    exact ⟨le_rfl, fun _ => rfl⟩
  | resuming ok rest =>
    obtain ⟨-, htasks, hfly, -⟩ := h
    rw [htasks, hfly]
    exact ⟨Nat.zero_le _, fun _ => rfl⟩

/-- Without handlers and writes the writer is idle. -/
theorem Staged.idle_of_quiet {stage : Stage} (h : Staged w s stage) (htasks : s.tasks = [])
    (hfly : s.inFlight = []) : stage = .idle := by
  have hnone : s.writerTasks = [] := by rw [State.writerTasks, htasks, List.filter_nil]
  cases stage with
  | idle => rfl
  | starting => cases hnone.symm.trans h.2.1
  | writing left rest => cases hfly.symm.trans h.2.2.1
  | resuming ok rest => cases hnone.symm.trans h.2.1

/-- **The stream between two sessions**: with either writer, for every interleaving of calls and
completions. -/
theorem stream_integrity (w : WriterLoop) (hw : w = clientLoop ∨ w = serverLoop)
    (serialize : Msg → Str) (parse : Str → Option Msg)
    (hparse : ∀ msg, parse (serialize msg) = some msg) (acts : List (Action Msg)) (s : State Msg)
    (hrun : runFrom (step w serialize) acts start = some s) (hok : ∀ a ∈ acts, a.Succeeds)
    (hsize : ∀ msg ∈ s.sent, (serialize msg).length < 2 ^ 32) : Delivers serialize parse s := by
  have hpops : w.Pops := by
    rcases hw with rfl | rfl
    · exact clientLoop_pops
    · exact serverLoop_pops
  obtain ⟨stage, hstaged, -, hwire⟩ := reachable_intact hpops hrun hok
  have hsent := reachable_accounted hrun
  have hqueued : ∀ msg ∈ s.queued, (serialize msg).length < 2 ^ 32 := fun msg hmsg =>
    hsize msg (hsent.subset (List.mem_append_left _ hmsg))
  have hprefix : s.wire <+: framesOf serialize s.queued := ⟨_, hwire⟩
  obtain ⟨hone, hwriter⟩ := hstaged.writers
  refine ⟨hone, hwriter, hprefix, hsent, receiveMsgs_prefix hparse hqueued hprefix,
    fun htasks hfly => ?_⟩
  obtain rfl := hstaged.idle_of_quiet htasks hfly
  have hall : s.wire = framesOf serialize s.queued := (List.append_nil _).symm.trans hwire
  have hnone : s.pushes = [] := by rw [State.pushes, htasks, List.filterMap_nil]
  rw [Accounted, hnone, List.append_nil] at hsent
  refine ⟨hall, hsent, ?_⟩
  have := receiveMsgs_frames hparse hqueued []
  rwa [List.append_nil, ← hall] at this

/-- Two messages, the second sent while the first is written. -/
def twoMessages : List (Action Str) :=
  [.send (str "a"), .run, .run, .transfer 0, .send (str "b"), .transfer 0, .transfer 0, .transfer 0,
    .transfer 0, .complete 0, .run, .run, .transfer 0, .transfer 0, .transfer 0, .transfer 0,
    .transfer 0, .complete 0, .run]

/-- They reach the peer. -/
theorem twoMessages_delivered :
    ∃ s : State Str, s.sent = [str "a", str "b"]
      ∧ receiveMsgs some 2 s.wire = ([str "a", str "b"], []) := by
  have hrun : (runFrom (step clientLoop id) twoMessages start).map (fun s =>
      decide (s.sent = [str "a", str "b"] ∧ s.queued = [str "a", str "b"] ∧ s.tasks = []
        ∧ s.inFlight = [])) = some true := by decide +kernel
  obtain ⟨s, hs, hfin⟩ := Option.map_eq_some_iff.mp hrun
  obtain ⟨hsent, hqueued, htasks, hfly⟩ := of_decide_eq_true hfin
  have hdelivers := stream_integrity clientLoop (Or.inl rfl) id some (fun _ => rfl) _ s hs
    (by decide) (by rw [hsent]; decide)
  have := (hdelivers.quiet htasks hfly).2.2
  rw [hqueued] at this
  exact ⟨s, hsent, this⟩

end

end Writer

end DistBuild
