import DistBuild.Client.Sessions

/-!
# Client/Lifetime — who owns a session, and who still uses it

    ClientSession   ◂── _client_sessions, the session handler      used by the request handler
    CompilerCall    ◂── connect_to_server, then the other map      used by the session handler

Both entries go at once, when either handler terminates the session.  The request handler may then
be left with a pointer to a session that its handler was the last to own, and the session handler
with a reference to a compiler call that nobody owns.  Neither happens as long as the session
handler terminates only after the request handler has, and falls back on no message once that is
done (`uses_live`).

A request that shares no id runs as if it were alone, so the invariant is one of a single request.
-/

namespace DistBuild

namespace Ipc

/-! ## Uses -/

/-- The session handler is in `perform_local_compilation`, or about to note the result that a last
chunk carries. -/
def State.UsesCall (s : State) : Prop :=
  match s.handler, s.events with
  | .compiling _, _ => True
  | .receiving, some (.server (.objFileChunk msg)) :: _ =>
    msg.sessionId = s.upload.sessionUuid ∧ msg.isLastChunk = true
      ∧ ∃ t ∈ s.receiver.transfer, t.isFinished = false ∧ t.sessionId = s.upload.sessionUuid
  | _, _ => False

/-- The session handler falls back to a local compilation because of this message. -/
def RemoteMessage.fallsBack (uuid : SessionId) : RemoteMessage → Bool
  | .server (.sessionAbort _) => true
  | .server (.fileUpComplete m) => !(m.sessionId = uuid ∧ m.success = true : Bool)
  | .server (.objFileChunk msg) => decide (msg.sessionId ≠ uuid)
  | _ => false

def SessionHandler.isCompiling : SessionHandler → Bool
  | .compiling _ => true
  | _ => false

/-- The session handler terminates only when the request handler does not use the session, and falls
back on no message once the session is terminated; the request handler terminates only when the
session handler does not compile. -/
def Careful : Action → State → Prop
  | .terminate, s => s.request.usesSession = false
  | .receive, s =>
    ∀ m ∈ s.nextMessage, s.terminated = true → m.fallsBack s.upload.sessionUuid = false
  | .dispose, s => s.handler.isCompiling = false
  | _, _ => True

/-! ## The invariant of one request -/

/-- The result has arrived. -/
def State.Finished (s : State) : Prop :=
  ∃ t, s.receiver.transfer = some t ∧ t.isFinished = true

/-- The compiler call is there. -/
def State.CallLive (s : State) : Prop := s.request.inConnect = true ∨ s.registered = true

/-- The request has no session handler, and no response. -/
def RequestHandler.unstarted : RequestHandler → Bool
  | .preparing | .connecting | .confirming | .refused => true
  | _ => false

def RequestHandler.hasAnswer : RequestHandler → Bool
  | .retrieved _ | .aborted _ => true
  | _ => false

/-- The session handler has no more use for the compiler call. -/
def SessionHandler.done : SessionHandler → Bool
  | .absent | .publishing _ (.terminate _) | .terminating _ | .ended => true
  | _ => false

/-- The session handler may come to use the compiler call. -/
def State.NeedsCall (s : State) : Prop :=
  match s.handler with
  | .compiling _ => True
  | .starting | .checking | .receiving => s.terminated = false ∨ ¬ s.Finished
  | .publishing _ .listen => s.terminated = false
  | _ => False

/-- **The invariant**: who uses the session or the compiler call finds it owned.  Before a response
is there, the session handler is done or the result has arrived. -/
structure Owned (s : State) : Prop where
  unstarted : s.request.unstarted = true → s.handler = .absent ∧ s.unixIpcChannel = none
  listening : ∀ a, s.handler = .publishing a .listen → s.Finished
  answered : s.unixIpcChannel.isSome = true ∨ s.request.hasAnswer = true →
    s.handler.done = true ∨ s.Finished
  session : s.request.usesSession = true → s.registered = true
  call : s.NeedsCall → s.CallLive

variable {parseUuid : Str → Option SessionId} {c : Circumstances} {a : Action} {s t : State}

/-- A session handler that is done has no use for the call. -/
theorem State.not_needsCall_of_done (h : s.handler.done = true) : ¬ s.NeedsCall := by
  unfold NeedsCall
  cases hh : s.handler with
  | absent | terminating | ended => exact id
  | publishing a next =>
    rw [hh] at h
    cases next with
    | listen => cases h
    | terminate abort => exact id
  | starting | checking | receiving | compiling =>
    rw [hh] at h
    cases h

/-- Nor has one whose session is terminated once the result is there, unless it compiles. -/
theorem State.not_needsCall_of_finished (hterm : s.terminated = true) (hfin : s.Finished)
    (hcomp : s.handler.isCompiling = false) : ¬ s.NeedsCall := by
  unfold NeedsCall
  cases hh : s.handler with
  | absent | terminating | ended => exact id
  | publishing a next =>
    cases next with
    | listen => simp [hterm]
    | terminate abort => exact id
  | starting | checking | receiving => simp [hterm, hfin]
  | compiling =>
    rw [hh] at hcomp
    cases hcomp

/-- Without a session handler there is little to own. -/
theorem Owned.of_absent (hh : t.handler = .absent)
    (hch : t.request.unstarted = true → t.unixIpcChannel = none)
    (hreg : t.request.usesSession = true → t.registered = true) : Owned t where
  unstarted h := ⟨hh, hch h⟩
  listening a h := absurd (hh.symm.trans h) nofun
  answered _ := Or.inl (by rw [hh]; rfl)
  session := hreg
  call h := by
    rw [State.NeedsCall, hh] at h
    exact h.elim

/-- What a result chunk leads to. -/
theorem State.receiveObjFileChunk_cases (s : State) (msg : ObjFileChunk) :
    (s.Finished → (s.receiveObjFileChunk msg).Finished)
      ∧ ((s.receiveObjFileChunk msg).handler = .checking
        ∨ (∃ abort, (s.receiveObjFileChunk msg).handler = .compiling abort
          ∧ (msg.sessionId ≠ s.upload.sessionUuid ∨ ¬ s.Finished))
        ∨ ∃ a, (s.receiveObjFileChunk msg).handler = .publishing a .listen
          ∧ (s.receiveObjFileChunk msg).Finished) := by
  by_cases hid : msg.sessionId = s.upload.sessionUuid
  · cases ht : s.receiver.transfer with
    | none =>
      have hnot : ¬ s.Finished := by
        rintro ⟨t, h, -⟩
        cases ht.symm.trans h
      exact ⟨fun h => absurd h hnot, Or.inr (Or.inl ⟨true, by
        simp [receiveObjFileChunk, processObjFileChunk, hid, ht], Or.inr hnot⟩)⟩
    | some t =>
      cases hfin : t.isFinished with
      | true =>
        have hsame : processObjFileChunk s.upload.sessionUuid s.receiver msg
            = (true, s.receiver) := by
          simp [processObjFileChunk, hid, ht, hfin]
        exact ⟨fun h => by simpa only [Finished, receiveObjFileChunk, hsame] using h,
          Or.inl (by simp [receiveObjFileChunk, hsame])⟩
      | false =>
        have hnot : ¬ s.Finished := by
          rintro ⟨u, h, hu⟩
          obtain rfl := Option.some.inj (ht.symm.trans h)
          cases hfin.symm.trans hu
        refine ⟨fun h => absurd h hnot, ?_⟩
        by_cases hown : t.sessionId = s.upload.sessionUuid
        · cases hlast : msg.isLastChunk with
          | true =>
            refine Or.inr (Or.inr ⟨.remote msg.response, ?_, ?_⟩)
            · simp [receiveObjFileChunk, processObjFileChunk, hid, ht, hfin, hown, hlast]
            · simp [Finished, receiveObjFileChunk, processObjFileChunk, hid, ht, hfin, hown, hlast,
                ObjFileTransferState.finish]
          | false =>
            exact Or.inl (by
              simp [receiveObjFileChunk, processObjFileChunk, hid, ht, hfin, hown, hlast])
        · exact Or.inr (Or.inl ⟨true, by
            simp [receiveObjFileChunk, processObjFileChunk, hid, ht, hfin, hown], Or.inr hnot⟩)
  · have hsame : processObjFileChunk s.upload.sessionUuid s.receiver msg = (false, s.receiver) := by
      simp [processObjFileChunk, hid]
    exact ⟨fun h => by simpa only [Finished, receiveObjFileChunk, hsame] using h,
      Or.inr (Or.inl ⟨true, State.receiveObjFileChunk_of_ne hid, Or.inl hid⟩)⟩

/-- What the `switch` of the session handler leads to. -/
theorem State.handle_cases (s : State) (m : RemoteMessage) :
    (s.Finished → (s.handle m).Finished)
      ∧ ((s.handle m).handler = .checking
        ∨ (∃ abort, (s.handle m).handler = .compiling abort
          ∧ (m.fallsBack s.upload.sessionUuid = true ∨ ¬ s.Finished))
        ∨ ∃ a, (s.handle m).handler = .publishing a .listen ∧ (s.handle m).Finished) := by
  cases m with
  | server m =>
    cases m with
    | sessionConfirmed sessionId requiredFiles => exact ⟨id, Or.inl rfl⟩
    | sessionAbort sessionId => exact ⟨id, Or.inr (Or.inl ⟨false, rfl, Or.inl rfl⟩)⟩
    | fileUpComplete m =>
      by_cases hm : m.sessionId = s.upload.sessionUuid ∧ m.success = true
      · have hs : s.handle (.server (.fileUpComplete m))
            = { s.sendRequired with handler := .checking } :=
          if_pos hm
        rw [hs]
        exact ⟨id, Or.inl rfl⟩
      · have hs : s.handle (.server (.fileUpComplete m)) = { s with handler := .compiling true } :=
          if_neg hm
        rw [hs]
        refine ⟨id, Or.inr (Or.inl ⟨true, rfl, Or.inl ?_⟩)⟩
        simp only [RemoteMessage.fallsBack, hm, decide_false, Bool.not_false]
    | objFileChunk msg =>
      obtain ⟨hfin, hh⟩ := s.receiveObjFileChunk_cases msg
      refine ⟨hfin, hh.imp_right (Or.imp_left ?_)⟩
      rintro ⟨abort, hcomp, hwhy⟩
      exact ⟨abort, hcomp, hwhy.imp_left fun hne => decide_eq_true hne⟩
  | allReqUpComplete => exact ⟨id, Or.inl rfl⟩
  | other => exact ⟨id, Or.inl rfl⟩

/-- A step of the request handler that leaves the session handler and its session alone. -/
theorem Owned.of_request (hs : Owned s) (hh : t.handler = s.handler)
    (hterm : t.terminated = s.terminated) (hrec : t.receiver = s.receiver)
    (hreq : t.request.unstarted = false)
    (hans : t.unixIpcChannel.isSome = true ∨ t.request.hasAnswer = true →
      s.unixIpcChannel.isSome = true ∨ s.request.hasAnswer = true)
    (hses : t.request.usesSession = true → t.registered = true)
    (hcall : s.CallLive → t.CallLive) : Owned t := by
  have hfin : t.Finished ↔ s.Finished := by
    unfold State.Finished
    rw [hrec]
  refine ⟨fun h => absurd (hreq.symm.trans h) nofun, fun a h => ?_, fun h => ?_, hses, fun h => ?_⟩
  · exact hfin.mpr (hs.listening a (hh.symm.trans h))
  · rw [hh, hfin]
    exact hs.answered (hans h)
  · refine hcall (hs.call ?_)
    rwa [State.NeedsCall, hh, hterm, hfin] at h

/-- A step of the session handler. -/
theorem Owned.of_handler (hs : Owned s) (hh : s.handler ≠ .absent) (hreq : t.request = s.request)
    (hreg : s.request.usesSession = true → t.registered = s.registered)
    (hlist : ∀ a, t.handler = .publishing a .listen → t.Finished)
    (hans : t.unixIpcChannel.isSome = true ∨ s.request.hasAnswer = true →
      t.handler.done = true ∨ t.Finished)
    (hcall : t.NeedsCall → t.CallLive) : Owned t := by
  refine ⟨fun h => ?_, hlist, fun h => hans (by rwa [← hreq]), fun h => ?_, hcall⟩
  · rw [hreq] at h
    exact absurd (hs.unstarted h).1 hh
  · rw [hreq] at h
    rw [hreg h]
    exact hs.session h

/-- The session is there as long as the request handler uses it. -/
theorem Owned.alive (hs : Owned s) (h : s.request.usesSession = true) : s.Alive :=
  Or.inl (hs.session h)

/-- The handler of a message: the call stays as long as it is needed, since a terminated session
does not fall back. -/
theorem Owned.receive {m : RemoteMessage} {events : List (Option RemoteMessage)} (hs : Owned s)
    (h : s.handler = .receiving)
    (hcareful : s.terminated = true → m.fallsBack s.upload.sessionUuid = false) :
    Owned (State.handle { s with events := events } m) := by
  obtain ⟨hreq, hch, hterm, hreg, -⟩ := State.handle_frame { s with events := events } m
  obtain ⟨hfin, hh⟩ := State.handle_cases { s with events := events } m
  have hcall : s.terminated = false ∨ ¬ s.Finished → s.CallLive := fun hopen =>
    hs.call (by rw [State.NeedsCall, h]; exact hopen)
  have hkeep : s.CallLive → (State.handle { s with events := events } m).CallLive := by
    unfold State.CallLive
    rw [hreq, hreg]
    exact id
  refine hs.of_handler (by rw [h]; nofun) hreq (fun _ => hreg) (fun a ha => ?_) (fun hans => ?_)
    fun hneeds => hkeep ?_
  · rcases hh with hh | ⟨_, hh, -⟩ | ⟨_, hh, hf⟩
    · cases hh.symm.trans ha
    · cases hh.symm.trans ha
    · exact hf
  · rw [hch] at hans
    have hans' := hs.answered hans
    rw [h] at hans'
    exact Or.inr (hfin (hans'.resolve_left nofun))
  · unfold State.NeedsCall at hneeds
    rcases hh with hh | ⟨_, hh, hwhy⟩ | ⟨_, hh, -⟩
    · rw [hh] at hneeds
      exact hcall (hneeds.imp (hterm.symm.trans ·) fun hnot hf => hnot (hfin hf))
    · rcases hwhy with hfall | hnot
      · refine hcall (Or.inl ?_)
        cases ht : s.terminated with
        | false => rfl
        | true => exact absurd (hfall.symm.trans (hcareful ht)) Bool.true_eq_false.mp
      · exact hcall (Or.inr hnot)
    · rw [hh] at hneeds
      exact hcall (Or.inl (hterm.symm.trans hneeds))

/-- **Owners outlive users** in every careful step of a request that finds its key free: the
response that is in when the request handler terminates was the last use of the call. -/
theorem Owned.step (hc : c.clientSessions = []) (hg : Careful a s) (h : Step parseUuid c s a t)
    (hs : Owned s) : Owned t := by
  cases h with
  | prepare h =>
    obtain ⟨hh, hch⟩ := hs.unstarted (by rw [h]; rfl)
    exact .of_absent hh (fun _ => hch) (by cases c.sourceReads <;> nofun)
  | connect h =>
    obtain ⟨hh, hch⟩ := hs.unstarted (by rw [h]; rfl)
    exact .of_absent hh (fun _ => hch) (by cases c.accepts <;> nofun)
  | confirmError h he =>
    obtain ⟨hh, hch⟩ := hs.unstarted (by rw [h]; rfl)
    exact .of_absent hh (fun _ => hch) nofun
  | @confirm m events h he =>
    obtain ⟨hh, hch⟩ := hs.unstarted (by rw [h]; rfl)
    rcases firstReply_cases parseUuid c { s with events := events } m with
      ⟨_, _, uuid, path, -, -, -, hr⟩ | ⟨_, _, -, -, hr⟩ | ⟨-, hr⟩
    · rw [hr]
      refine ⟨nofun, nofun, fun h => ?_, nofun, fun _ => Or.inl rfl⟩
      rw [hch] at h
      exact absurd (h.resolve_right nofun) nofun
    · rw [hr]
      exact .of_absent hh (fun _ => hch) nofun
    · rw [hr]
      exact .of_absent hh (fun _ => hch) nofun
  | refusedThrows h hcomp =>
    obtain ⟨hh, -⟩ := hs.unstarted (by rw [h]; rfl)
    exact .of_absent hh nofun nofun
  | compileRefused h hcomp =>
    obtain ⟨hh, -⟩ := hs.unstarted (by rw [h]; rfl)
    exact .of_absent hh nofun nofun
  | registerTaken h hid =>
    rw [hc] at hid
    cases hid
  | register h hid =>
    exact hs.of_request rfl rfl rfl rfl (Or.imp_right nofun) (fun _ => rfl) fun _ => Or.inr rfl
  | await h =>
    have huse : s.request.usesSession = true := by
      rw [h]
      rfl
    rw [if_pos (hs.alive huse)]
    exact hs.of_request rfl rfl rfl rfl (Or.imp_right nofun) (fun _ => hs.session huse)
      fun _ => Or.inr (hs.session huse)
  | retrieve h ha =>
    have huse : s.request.usesSession = true := by
      rw [h]
      rfl
    exact hs.of_request rfl rfl rfl rfl (fun _ => Or.inl (by rw [ha]; rfl))
      (fun _ => hs.session huse) fun _ => Or.inr (hs.session huse)
  | abort h hlive =>
    have huse : s.request.usesSession = true := by
      rw [h]
      rfl
    exact hs.of_request rfl rfl rfl rfl (fun _ => Or.inr (by rw [h]; rfl))
      (fun _ => hs.session huse) fun _ => Or.inr (hs.session huse)
  | dispose h hlive =>
    have hdone := hs.answered (Or.inr (by rw [h]; rfl))
    refine ⟨nofun, hs.listening, fun _ => hdone, nofun, fun hneeds => absurd hneeds ?_⟩
    rcases hdone with hdone | hfin
    · exact State.not_needsCall_of_done hdone
    · exact State.not_needsCall_of_finished rfl hfin hg
  | abortDead h hdead | disposeDead h hdead =>
    exact absurd (hs.alive (by rw [h]; rfl)) hdead
  | decideThrows h | decideLocal h | decide h | deliver h =>
    exact hs.of_request rfl rfl rfl rfl (Or.imp_right nofun) nofun fun hcall =>
      Or.inr (hcall.resolve_left (by rw [h]; nofun))
  | start h =>
    refine hs.of_handler (by rw [h]; nofun) rfl (fun _ => rfl) nofun (fun hans => ?_) fun hneeds =>
      hs.call (by rw [State.NeedsCall, h]; exact hneeds)
    have hans' := hs.answered hans
    rw [h] at hans'
    exact Or.inr (hans'.resolve_left nofun)
  | check h =>
    refine hs.of_handler (by rw [h]; nofun) rfl (fun _ => rfl) (by split_ifs <;> nofun)
      (fun hans => ?_) fun hneeds => ?_
    · have hans' := hs.answered hans
      rw [h] at hans'
      exact Or.inr (hans'.resolve_left nofun)
    · refine hs.call ?_
      rw [State.NeedsCall, h]
      unfold State.NeedsCall at hneeds
      dsimp only at hneeds
      split_ifs at hneeds
      · exact hneeds.elim
      · exact hneeds
  | receiveError h he =>
    exact hs.of_handler (by rw [h]; nofun) rfl (fun _ => rfl) nofun (fun _ => Or.inl rfl)
      fun hneeds => absurd hneeds (State.not_needsCall_of_done rfl)
  | @receive m events h he =>
    exact hs.receive h fun hterm => hg m (State.nextMessage_of_cons he) hterm
  | compileThrows h hcomp =>
    exact hs.of_handler (by rw [h]; nofun) rfl (fun _ => rfl) nofun (fun _ => Or.inl rfl)
      fun hneeds => absurd hneeds (State.not_needsCall_of_done rfl)
  | compile h hcomp =>
    exact hs.of_handler (by rw [h]; nofun) rfl (fun _ => rfl) nofun (fun _ => Or.inl rfl)
      fun hneeds => absurd hneeds (State.not_needsCall_of_done rfl)
  | @publish a next h hch =>
    cases next with
    | listen =>
      have hfin := hs.listening a h
      refine hs.of_handler (by rw [h]; nofun) rfl (fun _ => rfl) nofun (fun _ => Or.inr hfin)
        fun hneeds => ?_
      refine hs.call ?_
      rw [State.NeedsCall, h]
      exact hneeds.resolve_right (not_not.mpr hfin)
    | terminate abort =>
      exact hs.of_handler (by rw [h]; nofun) rfl (fun _ => rfl) nofun (fun _ => Or.inl rfl)
        fun hneeds => absurd hneeds (State.not_needsCall_of_done rfl)
  | @terminate abort h =>
    refine hs.of_handler (by rw [h]; nofun) (by cases abort <;> rfl)
      (fun huse => absurd (hg.symm.trans huse) nofun) nofun (fun _ => Or.inl rfl)
      fun hneeds => absurd hneeds (State.not_needsCall_of_done rfl)

/-- A use of the compiler call needs it. -/
theorem State.UsesCall.needsCall (h : s.UsesCall) : s.NeedsCall := by
  unfold UsesCall at h
  unfold NeedsCall
  split at h
  · rename_i hh
    rw [hh]
    trivial
  · rename_i hh _
    obtain ⟨-, -, t, ht, hopen, -⟩ := h
    rw [hh]
    refine Or.inr ?_
    rintro ⟨u, hu, hfin⟩
    obtain rfl := Option.some.inj (hu.symm.trans ht)
    cases hfin.symm.trans hopen
  · exact h.elim

theorem owned_initial : Owned (initial c) := .of_absent rfl (fun _ => rfl) nofun

instance Careful.decidable : ∀ a s, Decidable (Careful a s)
  | .terminate, s => inferInstanceAs (Decidable (s.request.usesSession = false))
  | .receive, s =>
    inferInstanceAs (Decidable
      (∀ m ∈ s.nextMessage, s.terminated = true → m.fallsBack s.upload.sessionUuid = false))
  | .dispose, s => inferInstanceAs (Decidable (s.handler.isCompiling = false))
  | .prepare, _ | .connect, _ | .confirm, _ | .compileRefused, _ | .register, _ | .await, _
  | .retrieve, _ | .abort, _ | .decide, _ | .deliver, _ | .start, _ | .check, _ | .compile, _
  | .publish, _ => inferInstanceAs (Decidable True)

/-! ## The requests of a client -/

namespace Client

variable {ι : Type*} [DecidableEq ι]

/-- Somebody owns the session: its entry, or its handler.  A write in progress owns it too, for as
long as it lasts, and is not counted. -/
def SessionLive (s : Client ι) (i : ι) : Prop :=
  s.Stored i ∨ (s.requests i).handler.holdsSelf = true

/-- Somebody owns the compiler call: the `connect_to_server` it was given to, or its entry. -/
def CallLive (s : Client ι) (i : ι) : Prop :=
  (s.requests i).request.inConnect = true
    ∨ s.compilerCalls (s.requests i).sessionUuid = some i

instance (s : Client ι) (i : ι) : Decidable (s.SessionLive i) := by
  unfold SessionLive
  infer_instance

instance (s : Client ι) (i : ι) : Decidable (s.CallLive i) := by
  unfold CallLive
  infer_instance

/-- No id is shared, and each request is careful. -/
def Orderly (parseUuid : Str → Option SessionId) (x : ι × Action) (s : Client ι) : Prop :=
  UnsharedIds parseUuid x s ∧ Careful x.2 (s.view x.1 x.1)

instance [Fintype ι] (parseUuid : Str → Option SessionId) (x : ι × Action) (s : Client ι) :
    Decidable (Orderly parseUuid x s) := by
  unfold Orderly
  infer_instance

variable {parseUuid : Str → Option SessionId} {c : ι → Circumstances} {s t : Client ι}

/-- In an orderly step of one request, owners outlive users in every request. -/
theorem owned_step {x : ι × Action} (hg : Orderly parseUuid x s)
    (h : Client.step parseUuid c x s = some t)
    (hs : s.Separate ∧ ∀ i, Owned (s.view i i)) : t.Separate ∧ ∀ i, Owned (t.view i i) := by
  obtain ⟨n, a⟩ := x
  refine ⟨hs.1.step hg.1 h, fun i => ?_⟩
  by_cases hi : i = n
  · subst hi
    exact (hs.2 i).step rfl hg.2 (Ipc.step_cases (hs.1.view_step h))
  · rw [hs.1.view_of_ne h hi]
    exact hs.2 i

/-- **Owners outlive users**: the session that a request handler calls, or waits in, is owned, and
so is the compiler call that a session handler uses, in every orderly run. -/
theorem uses_live {as : List (ι × Action)}
    (hm : Meets (Client.step parseUuid c) (Orderly parseUuid) as (initial c))
    (hr : runFrom (Client.step parseUuid c) as (initial c) = some s) (i : ι) :
    ((s.requests i).request.usesSession = true → s.SessionLive (s.session i))
      ∧ ((s.requests i).UsesCall → s.CallLive i) := by
  obtain ⟨hs, howned⟩ :=
    hm.invariant (I := fun s => s.Separate ∧ ∀ i, Owned (s.view i i))
      (fun _ _ _ hg h hs => owned_step hg h hs) hr ⟨separate_initial, fun i => owned_initial⟩
  have hstored : (s.view i i).registered = true → s.Stored i := of_decide_eq_true
  refine ⟨fun h => ?_, fun h => ?_⟩
  · rw [hs.session i]
    exact Or.inl (hstored ((howned i).session h))
  · have hcall : (s.view i i).CallLive := (howned i).call (State.UsesCall.needsCall h)
    exact hcall.imp_right fun hreg => (hs.calls _).trans (hstored hreg)

/-! ### An abort of the server -/

/-- The server aborts the session that it confirmed. -/
def abortedRequest : Fin 1 → Circumstances := fun _ =>
  sampleRequest [some (.server (.sessionAbort sampleUuid))]

/-- The session handler compiles, and the request handler is about to wait for it. -/
def compilesLocally : List (Fin 1 × Action) :=
  [(0, .prepare), (0, .connect), (0, .confirm), (0, .start), (0, .check), (0, .receive),
    (0, .register)]

/-- Both are there: the session for the one, the call for the other. -/
theorem compilesLocally_uses_live :
    ∃ s, runFrom (Client.step sampleParse abortedRequest) compilesLocally (initial abortedRequest)
        = some s
      ∧ s.SessionLive (s.session 0) ∧ s.CallLive 0 := by
  have hrun : ((runFrom (Client.step sampleParse abortedRequest) compilesLocally
      (initial abortedRequest)).map fun s =>
        decide ((s.requests 0).request.usesSession = true
          ∧ (s.requests 0).handler = .compiling false)) = some true := by decide +kernel
  obtain ⟨s, hr, hend⟩ := Option.map_eq_some_iff.mp hrun
  obtain ⟨huse, hh⟩ := of_decide_eq_true hend
  obtain ⟨hsession, hcall⟩ := uses_live (by decide +kernel) hr 0
  refine ⟨s, hr, hsession huse, hcall ?_⟩
  rw [State.UsesCall, hh]
  trivial

/-- The session handler compiles, publishes and terminates; then the request handler goes on. -/
def sessionGone : List (Fin 1 × Action) :=
  compilesLocally ++ [(0, .await), (0, .compile), (0, .publish), (0, .terminate), (0, .retrieve)]

/-- The result comes first, and the abort once the request handler has terminated. -/
def abortedLate : Fin 1 → Circumstances := fun _ =>
  sampleRequest [some (.server (.objFileChunk sampleResult)),
    some (.server (.sessionAbort sampleUuid))]

def callGone : List (Fin 1 × Action) :=
  [(0, .prepare), (0, .connect), (0, .confirm), (0, .register), (0, .await), (0, .start),
    (0, .check), (0, .receive), (0, .publish), (0, .check), (0, .retrieve), (0, .abort),
    (0, .dispose), (0, .receive)]

/-- The request handler is about to send an abort for a session that is gone, and the session
handler compiles with a call that is gone. -/
theorem uses_dead :
    (¬ ∀ as s, runFrom (Client.step sampleParse abortedRequest) as (initial abortedRequest)
      = some s →
      ∀ i, (s.requests i).request.usesSession = true → s.SessionLive (s.session i))
    ∧ ¬ ∀ as s, runFrom (Client.step sampleParse abortedLate) as (initial abortedLate) = some s →
      ∀ i, (s.requests i).UsesCall → s.CallLive i := by
  constructor
  · intro h
    have hrun : ((runFrom (Client.step sampleParse abortedRequest) sessionGone
        (initial abortedRequest)).map fun s =>
          decide ((s.requests 0).request.usesSession = true ∧ ¬ s.SessionLive (s.session 0)))
        = some true := by decide +kernel
    obtain ⟨s, hr, hbad⟩ := Option.map_eq_some_iff.mp hrun
    obtain ⟨huse, hdead⟩ := of_decide_eq_true hbad
    exact hdead (h _ s hr 0 huse)
  · intro h
    have hrun : ((runFrom (Client.step sampleParse abortedLate) callGone
        (initial abortedLate)).map fun s =>
          decide ((s.requests 0).handler = .compiling false ∧ ¬ s.CallLive 0))
        = some true := by decide +kernel
    obtain ⟨s, hr, hbad⟩ := Option.map_eq_some_iff.mp hrun
    obtain ⟨hh, hdead⟩ := of_decide_eq_true hbad
    refine hdead (h _ s hr 0 ?_)
    rw [State.UsesCall, hh]
    trivial

end Client

end Ipc

end DistBuild
