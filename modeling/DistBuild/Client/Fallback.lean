import DistBuild.Client.IpcRequest
import DistBuild.Machinery.Run

/-!
# Client/Fallback — what the wrapper is answered

    confirmed    neutral messages …, then one that answers ─▸ channel ─▸ wrapper
    refused      a local run ─▸ channel ─▸ wrapper
    else         an exception, silence, or a local run that does not return: nobody answers

A message answers if the session handler publishes because of it: a last chunk, or whatever makes it
compile locally.  A request that can be answered (`Answerable`) is, whenever nothing moves any more
(`request_answered`); in any case a response that is delivered is one of the two promised
(`delivered_sound`).
-/

namespace DistBuild

namespace Ipc

/-! ## What can be answered -/

/-- The result of a remote compilation that succeeded, or of a local one. -/
def Answer.Sound : Answer → Prop
  | .remote r => r.compilerExitCode = 0
  | .compiled _ => True

instance (a : Answer) : Decidable a.Sound := by
  unfold Answer.Sound
  cases a <;> infer_instance

/-- The session handler publishes because of this message. -/
def RemoteMessage.answers (uuid : SessionId) : RemoteMessage → Bool
  | .server (.sessionAbort _) => true
  | .server (.fileUpComplete m) => !(m.sessionId = uuid ∧ m.success = true : Bool)
  | .server (.objFileChunk msg) => decide (msg.sessionId ≠ uuid) || msg.isLastChunk
  | _ => false

variable (c : Circumstances)

/-- The request handler can answer with `r`, or with a local run instead, which starts and
returns. -/
def Settles (r : UnixIpcResponse) : Prop :=
  r.compilerExitCode ≠ 0 → ∃ r' ∈ c.wrapperCompiler, c.Returns r'

/-- A local run of the session starts and returns, and can be answered with. -/
def LocalSettles : Prop := ∃ r ∈ c.sessionCompiler, c.Returns r ∧ Settles c r

/-- What the message is answered with can be. -/
def MessageSettles (uuid : SessionId) : RemoteMessage → Prop
  | .server (.objFileChunk msg) =>
    if msg.sessionId = uuid then Settles c msg.response else LocalSettles c
  | _ => LocalSettles c

/-- Before any receive error comes a message that answers, and that can be answered with. -/
def Answers (uuid : SessionId) : List (Option RemoteMessage) → Prop
  | some m :: events => if m.answers uuid then MessageSettles c uuid m else Answers uuid events
  | _ => False

variable (parseUuid : Str → Option SessionId)

/-- The first reply either does not confirm, and a local run can be answered with, or it confirms a
fresh session and an answer comes. -/
def FirstReplySettles : List (Option RemoteMessage) → Prop
  | some (.server (.sessionConfirmed sessionId _)) :: events =>
    ∃ uuid ∈ parseUuid sessionId, c.outputObjFile.isSome = true ∧ uuid ∉ c.clientSessions
      ∧ Answers c uuid events
  | some _ :: _ => LocalSettles c ∧ nilUuid ∉ c.clientSessions
  | _ => False

/-- The source can be read, the server accepts, and its first reply is one that can be settled. -/
def Answerable : Prop :=
  c.sourceReads = true ∧ c.accepts = true ∧ FirstReplySettles c parseUuid c.events

/-- The session handler removes its session when the request handler does not use it. -/
def KeepsSession : Action → State → Prop
  | .terminate, s => s.request.usesSession = false
  | _, _ => True

instance KeepsSession.decidable : ∀ a s, Decidable (KeepsSession a s)
  | .terminate, s => inferInstanceAs (Decidable (s.request.usesSession = false))
  | .prepare, _ | .connect, _ | .confirm, _ | .compileRefused, _ | .register, _ | .await, _
  | .retrieve, _ | .abort, _ | .dispose, _ | .decide, _ | .deliver, _ | .start, _ | .check, _
  | .receive, _ | .compile, _ | .publish, _ => inferInstanceAs (Decidable True)

/-! ## The invariant -/

/-- The transfer of the result is open. -/
def State.Collects (s : State) : Prop :=
  ∃ t, s.receiver.transfer = some t ∧ t.isFinished = false ∧ t.sessionId = s.upload.sessionUuid

/-- The session handler is going to publish. -/
def Pending (s : State) : Prop :=
  match s.handler with
  | .starting | .checking | .receiving =>
    s.terminated = false ∧ s.Collects ∧ Answers c s.upload.sessionUuid s.events
  | .compiling _ => LocalSettles c
  | .publishing a _ => Settles c a.response
  | .absent | .terminating _ | .ended => False

/-- An answer is in the channel, or on its way there. -/
def Awaited (s : State) : Prop :=
  match s.unixIpcChannel with
  | some a => Settles c a.response
  | none => Pending c s

/-- Nothing has happened to the session yet. -/
structure Untouched (s : State) : Prop where
  handler : s.handler = .absent
  channel : s.unixIpcChannel = none
  terminated : s.terminated = false
  events : s.events = c.events
  uuid : s.sessionUuid = nilUuid

/-- **The invariant**: one line for each place the request handler can be at. -/
def OnCourse (s : State) : Prop :=
  match s.request with
  | .preparing | .connecting | .confirming => Untouched c s
  | .refused => s.handler = .absent ∧ LocalSettles c ∧ s.sessionUuid ∉ c.clientSessions
  | .registering => Awaited c s ∧ s.sessionUuid ∉ c.clientSessions
  | .retrieving | .awaiting => Awaited c s ∧ s.registered = true
  | .retrieved a | .aborted a => Settles c a.response ∧ s.registered = true
  | .deciding a => Settles c a.response
  | .answering _ | .answered => True
  | .failed | .misdirected | .dangling => False

/-- What has been delivered, and what is about to be. -/
def DeliversSound (s : State) : Prop :=
  match s.request with
  | .answering a => a.Sound ∧ s.delivered = []
  | .answered => ∃ a, a.Sound ∧ s.delivered = [a]
  | _ => s.delivered = []

variable {c parseUuid}

/-! ## Only sound responses are delivered -/

/-- **What a step delivers is sound**, whatever the remote side does. -/
theorem DeliversSound.step {a : Action} {s t : State} (h : Step parseUuid c s a t)
    (hs : DeliversSound s) : DeliversSound t := by
  unfold DeliversSound at hs
  have hframe : t.request = s.request → t.delivered = s.delivered → DeliversSound t := by
    intro hreq hdel
    unfold DeliversSound
    rw [hreq, hdel]
    exact hs
  cases h with
  | prepare h =>
    rw [h] at hs
    unfold DeliversSound
    cases c.sourceReads <;> exact hs
  | connect h =>
    rw [h] at hs
    unfold DeliversSound
    cases c.accepts <;> exact hs
  | @confirm m events h he =>
    rw [h] at hs
    rcases firstReply_cases parseUuid c { s with events := events } m with
      ⟨_, _, _, _, -, -, -, hr⟩ | ⟨_, _, -, -, hr⟩ | ⟨-, hr⟩
    all_goals
      rw [hr]
      exact hs
  | confirmError h he =>
    rw [h] at hs
    exact hs
  | refusedThrows h hc =>
    rw [h] at hs
    exact hs
  | compileRefused h hc =>
    rw [h] at hs
    exact hs
  | registerTaken h hid =>
    rw [h] at hs
    exact hs
  | register h hid =>
    rw [h] at hs
    exact hs
  | await h =>
    rw [h] at hs
    unfold DeliversSound
    dsimp only
    split_ifs <;> exact hs
  | retrieve h ha =>
    rw [h] at hs
    exact hs
  | abort h hlive =>
    rw [h] at hs
    exact hs
  | abortDead h hdead =>
    rw [h] at hs
    exact hs
  | dispose h hlive =>
    rw [h] at hs
    exact hs
  | disposeDead h hdead =>
    rw [h] at hs
    exact hs
  | decideThrows h ha hc =>
    rw [h] at hs
    exact hs
  | decideLocal h ha hc =>
    rw [h] at hs
    exact ⟨trivial, hs⟩
  | @decide a h ha =>
    rw [h] at hs
    refine ⟨?_, hs⟩
    cases a with
    | remote r => exact ha
    | compiled r => exact trivial
  | @deliver a h =>
    rw [h] at hs
    exact ⟨a, hs.1, by simp [hs.2]⟩
  | start h => exact hframe rfl rfl
  | check h => exact hframe rfl rfl
  | receiveError h he => exact hframe rfl rfl
  | @receive m events h he =>
    obtain ⟨hreq, -, -, -, -, hdel, -⟩ := State.handle_frame { s with events := events } m
    exact hframe hreq hdel
  | compileThrows h hc => exact hframe rfl rfl
  | compile h hc => exact hframe rfl rfl
  | publish h hc => exact hframe rfl rfl
  | @terminate abort h => exact hframe (by cases abort <;> rfl) (by cases abort <;> rfl)

/-! ## An answer stays on its way -/

/-- A result chunk of the open transfer: the last one is published, any other written. -/
theorem State.Collects.receiveObjFileChunk {s : State} (h : s.Collects) (msg : ObjFileChunk)
    (hid : msg.sessionId = s.upload.sessionUuid) :
    (msg.isLastChunk = true
        ∧ (s.receiveObjFileChunk msg).handler = .publishing (.remote msg.response) .listen)
      ∨ (msg.isLastChunk = false ∧ (s.receiveObjFileChunk msg).handler = .checking
        ∧ (s.receiveObjFileChunk msg).Collects) := by
  obtain ⟨t, ht, hopen, hown⟩ := h
  unfold State.receiveObjFileChunk processObjFileChunk
  rw [if_neg (not_not.mpr hid), ht]
  simp only [hopen, hown, Bool.false_eq_true, if_false, ne_eq, not_true_eq_false]
  cases hlast : msg.isLastChunk with
  | true => exact Or.inl ⟨rfl, by simp⟩
  | false => exact Or.inr ⟨rfl, by simp, _, rfl, rfl, rfl⟩

/-- A chunk of another session makes the session handler compile locally. -/
theorem State.receiveObjFileChunk_of_ne {s : State} {msg : ObjFileChunk}
    (hid : msg.sessionId ≠ s.upload.sessionUuid) :
    (s.receiveObjFileChunk msg).handler = .compiling true := by
  simp [State.receiveObjFileChunk, processObjFileChunk, hid]

/-- **A message either answers, or leaves the session handler listening for the rest.** -/
theorem Pending.handle {s : State} {m : RemoteMessage} (hterm : s.terminated = false)
    (hcol : s.Collects) (h : Answers c s.upload.sessionUuid (some m :: s.events)) :
    Pending c (s.handle m) := by
  obtain ⟨-, -, hterm', -, hev, -, -, huuid⟩ := s.handle_frame m
  have hneutral : m.answers s.upload.sessionUuid = false → (s.handle m).handler = .checking →
      (s.handle m).Collects → Pending c (s.handle m) := by
    intro hm hh hcol'
    unfold Pending
    rw [hh]
    refine ⟨hterm'.trans hterm, hcol', ?_⟩
    rw [huuid, hev]
    simpa [Answers, hm] using h
  cases m with
  | server m =>
    cases m with
    | sessionConfirmed sessionId requiredFiles => exact hneutral rfl rfl hcol
    | sessionAbort sessionId => exact h
    | fileUpComplete m =>
      by_cases hm : m.sessionId = s.upload.sessionUuid ∧ m.success = true
      · refine hneutral (by simp [RemoteMessage.answers, hm]) ?_ ?_
        · simp [State.handle, hm]
        · obtain ⟨t, ht, hopen, hown⟩ := hcol
          refine ⟨t, ?_, hopen, hown.trans huuid.symm⟩
          simpa [State.handle, hm, State.sendRequired] using ht
      · have hset : LocalSettles c := by
          have hans : (RemoteMessage.server (.fileUpComplete m)).answers s.upload.sessionUuid
              = true := by
            simp only [RemoteMessage.answers, hm, decide_false, Bool.not_false]
          simpa [Answers, hans, MessageSettles] using h
        simpa [Pending, State.handle, hm] using hset
    | objFileChunk msg =>
      by_cases hid : msg.sessionId = s.upload.sessionUuid
      · rcases hcol.receiveObjFileChunk msg hid with ⟨hlast, hh⟩ | ⟨hlast, hh, hcol'⟩
        · have hset : Settles c msg.response := by
            simpa [Answers, RemoteMessage.answers, hlast, MessageSettles, hid] using h
          show Pending c (s.receiveObjFileChunk msg)
          unfold Pending
          rw [hh]
          exact hset
        · exact hneutral (by simp [RemoteMessage.answers, hid, hlast]) hh hcol'
      · have hset : LocalSettles c := by
          simpa [Answers, RemoteMessage.answers, MessageSettles, hid] using h
        show Pending c (s.receiveObjFileChunk msg)
        unfold Pending
        rw [State.receiveObjFileChunk_of_ne hid]
        exact hset
  | allReqUpComplete => exact hneutral rfl rfl hcol
  | other => exact hneutral rfl rfl hcol

/-- A step of the session handler keeps the request on its course, if it keeps the answer on its
way. -/
theorem OnCourse.of_handler {s t : State} (hs : OnCourse c s) (hh : s.handler ≠ .absent)
    (hreq : t.request = s.request) (huuid : t.sessionUuid = s.sessionUuid)
    (hreg : s.request.usesSession = true → t.registered = s.registered)
    (hA : Awaited c s → Awaited c t) : OnCourse c t := by
  unfold OnCourse at hs ⊢
  rw [hreq]
  cases hr : s.request with
  | preparing =>
    rw [hr] at hs
    exact absurd hs.handler hh
  | connecting =>
    rw [hr] at hs
    exact absurd hs.handler hh
  | confirming =>
    rw [hr] at hs
    exact absurd hs.handler hh
  | refused =>
    rw [hr] at hs
    exact absurd hs.1 hh
  | registering =>
    rw [hr] at hs
    exact ⟨hA hs.1, huuid ▸ hs.2⟩
  | retrieving =>
    rw [hr] at hs
    exact ⟨hA hs.1, (hreg (by rw [hr]; rfl)).trans hs.2⟩
  | awaiting =>
    rw [hr] at hs
    exact ⟨hA hs.1, (hreg (by rw [hr]; rfl)).trans hs.2⟩
  | retrieved a =>
    rw [hr] at hs
    exact ⟨hs.1, (hreg (by rw [hr]; rfl)).trans hs.2⟩
  | aborted a =>
    rw [hr] at hs
    exact ⟨hs.1, (hreg (by rw [hr]; rfl)).trans hs.2⟩
  | _ =>
    rw [hr] at hs
    exact hs

/-- An answer in the channel is not lost by a step that leaves the channel alone. -/
theorem Awaited.of_pending {s t : State} (h : Awaited c s)
    (hch : t.unixIpcChannel = s.unixIpcChannel) (hp : Pending c s → Pending c t) :
    Awaited c t := by
  unfold Awaited at h ⊢
  rw [hch]
  cases hc : s.unixIpcChannel with
  | some a =>
    rw [hc] at h
    exact h
  | none =>
    rw [hc] at h
    exact hp h

/-- A first reply that does not confirm. -/
theorem FirstReplySettles.of_refused {m : RemoteMessage} {events : List (Option RemoteMessage)}
    (h : FirstReplySettles c parseUuid (some m :: events))
    (hm : ∀ sessionId requiredFiles, m ≠ .server (.sessionConfirmed sessionId requiredFiles)) :
    LocalSettles c ∧ nilUuid ∉ c.clientSessions := by
  unfold FirstReplySettles at h
  split at h
  · rename_i heq
    obtain ⟨rfl, -⟩ := List.cons.inj heq |>.imp Option.some.inj id
    exact absurd rfl (hm _ _)
  · exact h
  · exact h.elim

/-- The first reply confirms the session, and the result is awaited, or it does not, and the request
is refused. -/
theorem Untouched.confirm {s : State} {m : RemoteMessage} {events : List (Option RemoteMessage)}
    (hs : Untouched c s) (hreply : FirstReplySettles c parseUuid (some m :: events)) :
    OnCourse c (firstReply parseUuid c { s with events := events } m) := by
  rcases firstReply_cases parseUuid c { s with events := events } m with
    ⟨sessionId, requiredFiles, uuid, path, rfl, hid, hpath, hr⟩
      | ⟨sessionId, requiredFiles, rfl, hthrow, -⟩ | ⟨hne, hr⟩
  · obtain ⟨uuid', huuid, -, hfresh, hans⟩ := hreply
    obtain rfl := Option.some.inj (hid.symm.trans huuid)
    rw [hr]
    refine ⟨?_, hfresh⟩
    show Awaited c _
    unfold Awaited
    simp only [hs.channel]
    exact ⟨hs.terminated, ⟨_, rfl, rfl, rfl⟩, hans⟩
  · obtain ⟨uuid, huuid, hout, -, -⟩ := hreply
    rcases hthrow with hid | hpath
    · exact absurd (hid.symm.trans huuid) nofun
    · rw [hpath] at hout
      cases hout
  · rw [hr]
    have hreply' := hreply.of_refused hne
    refine ⟨hs.handler, hreply'.1, ?_⟩
    show s.sessionUuid ∉ _
    rw [hs.uuid]
    exact hreply'.2

/-- **The request stays on its course**: every step that keeps the session keeps the answer
coming. -/
theorem OnCourse.step {a : Action} {s t : State} (hc : Answerable c parseUuid)
    (hg : KeepsSession a s) (h : Step parseUuid c s a t) (hs : OnCourse c s) : OnCourse c t := by
  obtain ⟨hsrc, hacc, hreply⟩ := hc
  have hcourse := hs
  unfold OnCourse at hs
  cases h with
  | prepare h =>
    rw [h] at hs
    simp only [hsrc, if_true]
    exact ⟨hs.handler, hs.channel, hs.terminated, hs.events, hs.uuid⟩
  | connect h =>
    rw [h] at hs
    simp only [hacc, if_true]
    exact ⟨hs.handler, hs.channel, hs.terminated, hs.events, hs.uuid⟩
  | confirmError h he =>
    rw [h] at hs
    rw [← hs.events, he] at hreply
    exact hreply.elim
  | @confirm m events h he =>
    rw [h] at hs
    rw [← hs.events, he] at hreply
    exact hs.confirm hreply
  | refusedThrows h hc =>
    rw [h] at hs
    obtain ⟨r, hr, -⟩ := hs.2.1
    exact absurd (hc.symm.trans hr) nofun
  | @compileRefused r h hc hret =>
    rw [h] at hs
    obtain ⟨r', hr', -, hset⟩ := hs.2.1
    obtain rfl := Option.some.inj (hc.symm.trans hr')
    exact ⟨hset, hs.2.2⟩
  | registerTaken h hid =>
    rw [h] at hs
    exact absurd hid hs.2
  | register h hid =>
    rw [h] at hs
    exact ⟨hs.1, rfl⟩
  | await h =>
    rw [h] at hs
    have hlive : s.Alive := Or.inl hs.2
    simp only [if_pos hlive]
    exact hs
  | @retrieve a h ha =>
    rw [h] at hs
    have hset := hs.1
    rw [Awaited, ha] at hset
    exact ⟨hset, hs.2⟩
  | abort h hlive =>
    rw [h] at hs
    exact hs
  | abortDead h hdead =>
    rw [h] at hs
    exact absurd (Or.inl hs.2) hdead
  | dispose h hlive =>
    rw [h] at hs
    exact hs.1
  | disposeDead h hdead =>
    rw [h] at hs
    exact absurd (Or.inl hs.2) hdead
  | decideThrows h ha hc =>
    rw [h] at hs
    obtain ⟨r, hr, -⟩ := hs ha
    exact absurd (hc.symm.trans hr) nofun
  | decideLocal h ha hc hret => exact trivial
  | decide h ha => exact trivial
  | deliver h => exact trivial
  | start h =>
    refine hcourse.of_handler (by rw [h]; nofun) rfl rfl (fun _ => rfl) fun hA =>
      hA.of_pending rfl fun hp => ?_
    rw [Pending, h] at hp
    obtain ⟨hterm, ⟨t, ht, hopen, hown⟩, hans⟩ := hp
    exact ⟨hterm, ⟨t, ht, hopen, hown.trans s.sendRequired_uuid.symm⟩,
      s.sendRequired_uuid.symm ▸ hans⟩
  | check h =>
    refine hcourse.of_handler (by rw [h]; nofun) rfl rfl (fun _ => rfl) fun hA =>
      hA.of_pending rfl fun hp => ?_
    rw [Pending, h] at hp
    unfold Pending
    simp only [hp.1, Bool.false_eq_true, if_false]
    exact ⟨trivial, hp.2⟩
  | @receiveError events h he =>
    refine hcourse.of_handler (by rw [h]; nofun) rfl rfl (fun _ => rfl) fun hA =>
      hA.of_pending rfl fun hp => ?_
    rw [Pending, h] at hp
    obtain ⟨-, -, hans⟩ := hp
    rw [he] at hans
    exact hans.elim
  | @receive m events h he =>
    obtain ⟨hreq, hch, -, hreg, -, -, huuid, -⟩ := State.handle_frame { s with events := events } m
    refine hcourse.of_handler (by rw [h]; nofun) hreq huuid (fun _ => hreg) fun hA =>
      hA.of_pending hch fun hp => ?_
    rw [Pending, h] at hp
    obtain ⟨hterm, hcol, hans⟩ := hp
    rw [he] at hans
    exact Pending.handle (s := { s with events := events }) hterm hcol hans
  | compileThrows h hc =>
    refine hcourse.of_handler (by rw [h]; nofun) rfl rfl (fun _ => rfl) fun hA =>
      hA.of_pending rfl fun hp => ?_
    rw [Pending, h] at hp
    obtain ⟨r, hr, -⟩ := hp
    exact absurd (hc.symm.trans hr) nofun
  | @compile abort r h hc =>
    refine hcourse.of_handler (by rw [h]; nofun) rfl rfl (fun _ => rfl) fun hA =>
      hA.of_pending rfl fun hp => ?_
    rw [Pending, h] at hp
    obtain ⟨r', hr', -, hset⟩ := hp
    obtain rfl := Option.some.inj (hc.symm.trans hr')
    exact hset
  | publish h hc =>
    refine hcourse.of_handler (by rw [h]; nofun) rfl rfl (fun _ => rfl) fun hA => ?_
    rw [Awaited, hc, Pending, h] at hA
    exact hA
  | @terminate abort h =>
    obtain ⟨hreq, -, hch, -, huuid⟩ := s.sendAbort_frame abort
    refine hcourse.of_handler (by rw [h]; nofun) hreq huuid
      (fun hu => absurd (hg.symm.trans hu) nofun) fun hA => hA.of_pending hch fun hp => ?_
    rw [Pending, h] at hp
    exact hp.elim

/-! ## Nothing is left unanswered -/

/-- While an answer is on its way the session handler moves. -/
theorem Pending.moves {s : State} (h : Pending c s) (hch : s.unixIpcChannel = none) :
    ∃ a, (step parseUuid c a s).isSome = true := by
  unfold Pending at h
  cases hh : s.handler with
  | absent =>
    rw [hh] at h
    exact h.elim
  | starting => exact ⟨.start, by simp [Ipc.step, hh]⟩
  | checking => exact ⟨.check, by simp [Ipc.step, hh]⟩
  | receiving =>
    rw [hh] at h
    refine ⟨.receive, ?_⟩
    cases he : s.events with
    | nil =>
      rw [he] at h
      exact h.2.2.elim
    | cons event events => cases event <;> simp [Ipc.step, hh, he]
  | compiling abort =>
    rw [hh] at h
    obtain ⟨r, hr, hret, -⟩ := h
    exact ⟨.compile, by simp [Ipc.step, hh, Option.mem_def.mp hr, hret]⟩
  | publishing a next => exact ⟨.publish, by simp [Ipc.step, hh, hch]⟩
  | terminating abort =>
    rw [hh] at h
    exact h.elim
  | ended =>
    rw [hh] at h
    exact h.elim

/-- **A request on its course moves until it is answered.** -/
theorem OnCourse.moves {s : State} (hc : Answerable c parseUuid) (hs : OnCourse c s)
    (h : s.request ≠ .answered) : ∃ a, (Ipc.step parseUuid c a s).isSome = true := by
  unfold OnCourse at hs
  cases hr : s.request with
  | preparing => exact ⟨.prepare, by simp [Ipc.step, hr]⟩
  | connecting => exact ⟨.connect, by simp [Ipc.step, hr]⟩
  | confirming =>
    rw [hr] at hs
    have hreply := hc.2.2
    rw [← hs.events] at hreply
    refine ⟨.confirm, ?_⟩
    cases he : s.events with
    | nil =>
      rw [he] at hreply
      exact hreply.elim
    | cons event events => cases event <;> simp [Ipc.step, hr, he]
  | refused =>
    rw [hr] at hs
    obtain ⟨r, hcomp, hret, -⟩ := hs.2.1
    exact ⟨.compileRefused, by simp [Ipc.step, hr, Option.mem_def.mp hcomp, hret]⟩
  | registering =>
    refine ⟨.register, ?_⟩
    by_cases hid : s.sessionUuid ∈ c.clientSessions <;> simp [Ipc.step, hr, hid]
  | retrieving => exact ⟨.await, by simp [Ipc.step, hr]⟩
  | awaiting =>
    rw [hr] at hs
    cases hch : s.unixIpcChannel with
    | some a => exact ⟨.retrieve, by simp [Ipc.step, hr, hch]⟩
    | none =>
      have hA := hs.1
      rw [Awaited, hch] at hA
      exact hA.moves hch
  | retrieved a =>
    rw [hr] at hs
    exact ⟨.abort, by simp [Ipc.step, hr, State.Alive, hs.2]⟩
  | aborted a =>
    rw [hr] at hs
    exact ⟨.dispose, by simp [Ipc.step, hr, State.Alive, hs.2]⟩
  | deciding a =>
    rw [hr] at hs
    refine ⟨.decide, ?_⟩
    by_cases ha : a.response.compilerExitCode = 0
    · simp [Ipc.step, hr, ha]
    · obtain ⟨r, hw, hret⟩ := hs ha
      simp [Ipc.step, hr, ha, Option.mem_def.mp hw, hret]
  | answering a => exact ⟨.deliver, by simp [Ipc.step, hr]⟩
  | answered => exact absurd hr h
  | failed =>
    rw [hr] at hs
    exact hs.elim
  | misdirected =>
    rw [hr] at hs
    exact hs.elim
  | dangling =>
    rw [hr] at hs
    exact hs.elim

/-- Whatever is delivered in a run is the answer the wrapper was promised. -/
theorem delivered_sound {as : List Action} {s : State}
    (hr : runFrom (step parseUuid c) as (initial c) = some s) : DeliversSound s :=
  runFrom_invariant (fun _ _ _ hs hd => hd.step (step_cases hs)) hr rfl

/-- An id as a server chooses it. -/
def sampleUuid : SessionId := str "6ba7b810-9dad-11d1-80b4-00c04fd430c8"

/-- Of all ids the sample server sends the one it chose. -/
def sampleParse (id : Str) : Option SessionId := if id = sampleUuid then some id else none

/-- A request whose session is confirmed, and what happens then. -/
def sampleRequest (events : List (Option RemoteMessage)) : Circumstances where
  sourceReads := true
  accepts := true
  events := some (.server (.sessionConfirmed sampleUuid [])) :: events
  outputObjFile := some (str "/w/m.o")
  disk := .empty
  sessionCompiler := some ⟨0, [], []⟩
  wrapperCompiler := some ⟨0, [], []⟩
  pipeCapacity := 65536
  clientSessions := []
  unsetUuid := nilUuid

/-- The result of the sample request. -/
def sampleResult : ObjFileChunk :=
  objFileMsg sampleUuid ⟨str "out", str "err", 1, 0⟩ 3 (str "obj")

/-- The session handler publishes the result; then the request handler takes it. -/
def answeredRun : List Action :=
  [.prepare, .connect, .confirm, .start, .check, .receive, .publish, .register, .await, .retrieve,
    .abort, .dispose, .check, .decide, .deliver]

/-- Every step there is. -/
def Action.all : List Action :=
  [.prepare, .connect, .confirm, .compileRefused, .register, .await, .retrieve, .abort, .dispose,
    .decide, .deliver, .start, .check, .receive, .compile, .publish, .terminate]

instance (s : State) : Decidable (Stuck parseUuid c s) :=
  decidable_of_iff (∀ a ∈ Action.all, (step parseUuid c a s).isNone = true) <| by
    refine ⟨fun h a => Option.isNone_iff_eq_none.mp (h a (by cases a <;> decide)), fun h a _ => ?_⟩
    rw [h a]
    rfl

end Ipc

end DistBuild
