import DistBuild.Client.Fallback

/-!
# Client/Sessions — many requests, and the two maps they share

    connect_to_server ──try_emplace──▸ _client_sessions, _client_compiler_calls  under session_uuid
                      ◂──pointer─────  _client_sessions[session_uuid]
    terminate_client_session ─erase─▸  both maps                                 under _session_uuid

Each request calls `connect_to_server` once, which makes one session for its one compiler call; the
three go by one name `i : ι`.  What a request does is a step of `Client/IpcRequest`, on the session
its pointer leads to; the maps say which sessions are registered.  The key is `session_uuid`, which
is nil unless a server confirmed the session; what is erased is the session's `_session_uuid`, which
nobody has set then.

Requests that are refused all get the same key.  As long as an id is in use by one request at a
time, each gets its own session (`each_own_session`), and runs as if it were alone (`view_run`).
-/

namespace DistBuild

namespace Ipc

variable {ι : Type*} [DecidableEq ι]

/-- The requests, what `connect_to_server` returned to each, and the maps. -/
structure Client (ι : Type*) where
  requests : ι → State
  returned : ι → Option ι
  clientSessions : SessionId → Option ι
  compilerCalls : SessionId → Option ι

/-- `std::unordered_map::try_emplace`: what is there stays. -/
def tryEmplace (m : SessionId → Option ι) (key : SessionId) (i : ι) : SessionId → Option ι :=
  match m key with
  | some _ => m
  | none => Function.update m key (some i)

/-- The step ends in `terminate_client_session`. -/
def Action.terminates : Action → Bool
  | .compileRefused | .dispose | .terminate => true
  | _ => false

namespace Client

/-- The session a request works on: its own, until `connect_to_server` returns one. -/
def session (s : Client ι) (i : ι) : ι := (s.returned i).getD i

/-- `_client_sessions` owns the session. -/
def Stored (s : Client ι) (i : ι) : Prop := s.clientSessions (s.requests i).sessionUuid = some i

instance (s : Client ι) (i : ι) : Decidable (s.Stored i) := by
  unfold Stored
  infer_instance

/-- The request handler of `i`, at work on the session of `j`. -/
def view (s : Client ι) (i j : ι) : State :=
  { s.requests j with
    request := (s.requests i).request
    delivered := (s.requests i).delivered
    registered := decide (s.Stored j) }

/-- Both of them, put back. -/
def put (s : Client ι) (i j : ι) (t : State) : Client ι :=
  { s with
    requests := fun n =>
      { (if n = j then t else s.requests n) with
        request := (if n = i then t else s.requests n).request
        delivered := (if n = i then t else s.requests n).delivered } }

/-- `remove_client_session`. -/
def removeClientSession (s : Client ι) (sessionUuid : SessionId) : Client ι :=
  { s with
    clientSessions := Function.update s.clientSessions sessionUuid none
    compilerCalls := Function.update s.compilerCalls sessionUuid none }

/-- What the two have become, and whether `terminate_client_session` was among it. -/
def advance (s : Client ι) (i j : ι) (a : Action) (t : State) : Client ι :=
  if a.terminates then (s.put i j t).removeClientSession t.upload.sessionUuid else s.put i j t

/-- The end of `connect_to_server`, in either branch. -/
def register (s : Client ι) (i : ι) : Client ι :=
  let key := (s.requests i).sessionUuid
  let sessions := tryEmplace s.clientSessions key i
  { requests := Function.update s.requests i { s.requests i with request := .retrieving }
    returned := Function.update s.returned i (sessions key)
    clientSessions := sessions
    compilerCalls := tryEmplace s.compilerCalls key i }

/-- The session a step works on: the session handler works on its own. -/
def target (s : Client ι) (i : ι) : Action → ι
  | .start | .check | .receive | .compile | .publish | .terminate => i
  | _ => s.session i

variable (parseUuid : Str → Option SessionId) (c : ι → Circumstances)

/-- One step of one of the coroutines of one of the requests. -/
def step : ι × Action → Client ι → Option (Client ι)
  | (i, .register), s =>
    match (s.requests i).request with
    | .registering => some (s.register i)
    | _ => none
  | (i, a), s =>
    (Ipc.step parseUuid (c i) a (s.view i (s.target i a))).map (s.advance i (s.target i a) a)

/-- No request has done anything yet. -/
def initial : Client ι where
  requests i := Ipc.initial (c i)
  returned _ := none
  clientSessions _ := none
  compilerCalls _ := none

end Client

/-! ## Which ids are in use -/

/-- The request has its first reply, and its pointer is still to be used. -/
def RequestHandler.inPlay : RequestHandler → Bool
  | .refused | .registering => true
  | r => r.usesSession

/-- The request may still store its session, or erase it, under this id. -/
def State.Uses (s : State) (k : SessionId) : Prop :=
  (s.request.inPlay = true ∨ s.handler.holdsSelf = true)
    ∧ (k = s.sessionUuid ∨ k = s.upload.sessionUuid)

instance (s : State) (k : SessionId) : Decidable (s.Uses k) := by
  unfold State.Uses
  infer_instance

/-- The message that is received next, unless it is an error or silence. -/
def State.nextMessage (s : State) : Option RemoteMessage := s.events.head?.join

/-- The ids in use once this reply is there: the one it confirms, or those the request has. -/
def State.replyIds (parseUuid : Str → Option SessionId) (s : State) : RemoteMessage → List SessionId
  | .server (.sessionConfirmed sessionId _) => (parseUuid sessionId).toList
  | _ => [s.sessionUuid, s.upload.sessionUuid]

namespace Client

/-- The request is stored under this id, or may still be stored or erased under it. -/
def Holds (s : Client ι) (i : ι) (k : SessionId) : Prop :=
  (s.requests i).Uses k ∨ s.clientSessions k = some i

instance (s : Client ι) (i : ι) (k : SessionId) : Decidable (s.Holds i k) := by
  unfold Holds
  infer_instance

variable (parseUuid : Str → Option SessionId)

/-- A first reply gives a request only ids that no other request holds. -/
def UnsharedIds : ι × Action → Client ι → Prop
  | (i, .confirm), s =>
    ∀ m ∈ (s.requests i).nextMessage, ∀ k ∈ (s.requests i).replyIds parseUuid m,
      ∀ j, j ≠ i → ¬ s.Holds j k
  | _, _ => True

instance UnsharedIds.decidable [Fintype ι] :
    ∀ x (s : Client ι), Decidable (UnsharedIds parseUuid x s)
  | (i, .confirm), s =>
    inferInstanceAs (Decidable (∀ m ∈ (s.requests i).nextMessage,
      ∀ k ∈ (s.requests i).replyIds parseUuid m, ∀ j, j ≠ i → ¬ s.Holds j k))
  | (_, .prepare), _ | (_, .connect), _ | (_, .compileRefused), _ | (_, .register), _
  | (_, .await), _ | (_, .retrieve), _ | (_, .abort), _ | (_, .dispose), _ | (_, .decide), _
  | (_, .deliver), _ | (_, .start), _ | (_, .check), _ | (_, .receive), _ | (_, .compile), _
  | (_, .publish), _ | (_, .terminate), _ => inferInstanceAs (Decidable True)

end Client

/-! ## What a step of one request can do -/

/-- `connect_to_server` has not returned yet. -/
def RequestHandler.inConnect : RequestHandler → Bool
  | .preparing | .connecting | .confirming | .refused | .registering => true
  | _ => false

section Local

variable {parseUuid : Str → Option SessionId} {c : Circumstances} {a : Action} {s t : State}

/-- Only the confirmation sets an id. -/
theorem Step.uuids (h : Step parseUuid c s a t) (ha : a ≠ .confirm) :
    t.sessionUuid = s.sessionUuid ∧ t.upload.sessionUuid = s.upload.sessionUuid := by
  cases h with
  | confirm | confirmError => exact absurd rfl ha
  | start h => exact ⟨rfl, s.sendRequired_uuid⟩
  | @receive m events h he =>
    obtain ⟨-, -, -, -, -, -, huuid, hup⟩ := State.handle_frame { s with events := events } m
    exact ⟨huuid, hup⟩
  | @terminate abort h => cases abort <;> exact ⟨rfl, rfl⟩
  | _ => exact ⟨rfl, rfl⟩

theorem Step.confirming (h : Step parseUuid c s .confirm t) : s.request = .confirming := by
  cases h with
  | confirmError h | confirm h => exact h

/-- Only `register` ends `connect_to_server`, and nothing leads back into it. -/
theorem Step.inConnect (h : Step parseUuid c s a t) (ht : t.request.inConnect = true) :
    s.request.inConnect = true := by
  cases h with
  | prepare h | connect h | confirmError h | confirm h | refusedThrows h | compileRefused h
  | registerTaken h | register h =>
    rw [h]
    rfl
  | await h =>
    dsimp only at ht
    split_ifs at ht <;> cases ht
  | @receive m events h he =>
    obtain ⟨hreq, -⟩ := State.handle_frame { s with events := events } m
    rwa [hreq] at ht
  | @terminate abort h => cases abort <;> exact ht
  | start | check | receiveError | compileThrows | compile | publish => exact ht
  | _ => cases ht

/-- A request in play was so before, unless this is its first reply. -/
theorem Step.inPlay (h : Step parseUuid c s a t) (ha : a ≠ .confirm)
    (ht : t.request.inPlay = true ∨ t.handler.holdsSelf = true) :
    s.request.inPlay = true ∨ s.handler.holdsSelf = true := by
  cases h with
  | confirm | confirmError => exact absurd rfl ha
  | prepare h =>
    refine Or.inr (ht.resolve_left ?_)
    cases c.sourceReads <;> nofun
  | connect h =>
    refine Or.inr (ht.resolve_left ?_)
    cases c.accepts <;> nofun
  | decideThrows | decideLocal | decide | deliver => exact Or.inr (ht.resolve_left nofun)
  | refusedThrows h | compileRefused h | registerTaken h | register h | await h | retrieve h
  | abort h | abortDead h | dispose h | disposeDead h =>
    left
    rw [h]
    rfl
  | start h | check h | receiveError h | receive h | compileThrows h | compile h | publish h
  | terminate h =>
    right
    rw [h]
    rfl

theorem State.nextMessage_of_cons {m : RemoteMessage} {events : List (Option RemoteMessage)}
    (h : s.events = some m :: events) : m ∈ s.nextMessage := by
  simp [nextMessage, h]

/-- **A request comes into use of an id by its first reply only.** -/
theorem Step.uses {k : SessionId} (h : Step parseUuid c s a t) (hk : t.Uses k) :
    s.Uses k ∨ (a = .confirm ∧ ∃ m ∈ s.nextMessage, k ∈ s.replyIds parseUuid m) := by
  by_cases ha : a = .confirm
  · subst ha
    cases h with
    | confirmError h he =>
      obtain ⟨hplay, hk⟩ := hk
      exact Or.inl ⟨Or.inr (hplay.resolve_left nofun), hk⟩
    | @confirm m events h he =>
      rcases firstReply_cases parseUuid c { s with events := events } m with
        ⟨sessionId, requiredFiles, uuid, path, rfl, hid, -, hr⟩ | ⟨_, _, -, -, hr⟩ | ⟨hne, hr⟩
      · rw [hr] at hk
        refine Or.inr ⟨rfl, _, State.nextMessage_of_cons he, ?_⟩
        rcases hk.2 with rfl | rfl <;> simp [State.replyIds, hid]
      · rw [hr] at hk
        exact Or.inl ⟨Or.inr (hk.1.resolve_left nofun), hk.2⟩
      · rw [hr] at hk
        refine Or.inr ⟨rfl, m, State.nextMessage_of_cons he, ?_⟩
        have hids : s.replyIds parseUuid m = [s.sessionUuid, s.upload.sessionUuid] := by
          unfold State.replyIds
          split
          · exact absurd rfl (hne _ _)
          · rfl
        simpa [hids] using hk.2
  · obtain ⟨hid, hup⟩ := h.uuids ha
    exact Or.inl ⟨h.inPlay ha hk.1, by simpa only [hid, hup] using hk.2⟩

/-- Where a session stays registered: `terminate_client_session` takes out its own id only. -/
theorem Step.registered_iff (h : Step parseUuid c s a t) (ha : a ≠ .register) :
    t.registered = true
      ↔ s.registered = true ∧ ¬ (a.terminates = true ∧ s.sessionUuid = s.upload.sessionUuid) := by
  cases h with
  | register | registerTaken => exact absurd rfl ha
  | refusedThrows | compileRefused | dispose =>
    simp [State.terminateClientSession, State.sendAbort, Action.terminates]
  | @terminate abort h =>
    cases abort <;> simp [State.terminateClientSession, State.sendAbort, Action.terminates]
  | disposeDead h hdead =>
    have hreg : ¬ s.registered = true := fun hreg => hdead (Or.inl hreg)
    simp [hreg]
  | @confirm m events h he =>
    rcases firstReply_cases parseUuid c { s with events := events } m with
      ⟨_, _, _, _, -, -, -, hr⟩ | ⟨_, _, -, -, hr⟩ | ⟨-, hr⟩
    all_goals
      rw [hr]
      simp [Action.terminates]
  | @receive m events h he =>
    obtain ⟨-, -, -, hreg, -⟩ := State.handle_frame { s with events := events } m
    rw [hreg]
    simp [Action.terminates]
  | _ => simp [Action.terminates, State.sendRequired, State.sendAbort]

end Local

/-! ## What a step of the client can do -/

namespace Client

variable {parseUuid : Str → Option SessionId} {c : ι → Circumstances} {s t : Client ι} {i : ι}
  {a : Action}

omit [DecidableEq ι] in
theorem target_of_own (hown : s.session i = i) (a : Action) : s.target i a = i := by
  cases a <;> first | rfl | exact hown

theorem put_self (s : Client ι) (i : ι) (u : State) :
    s.put i i u = { s with requests := Function.update s.requests i u } := by
  unfold put
  congr 1
  funext n
  by_cases hn : n = i
  · subst hn
    simp
  · simp [hn]

theorem advance_requests (s : Client ι) (i : ι) (a : Action) (u : State) :
    (s.advance i i a u).requests = Function.update s.requests i u := by
  unfold advance
  split <;> simp [removeClientSession, put_self]

theorem advance_returned (s : Client ι) (i j : ι) (a : Action) (u : State) :
    (s.advance i j a u).returned = s.returned := by
  unfold advance
  split <;> rfl

theorem advance_clientSessions (s : Client ι) (i j : ι) (a : Action) (u : State) (k : SessionId) :
    (s.advance i j a u).clientSessions k
      = if a.terminates = true ∧ k = u.upload.sessionUuid then none else s.clientSessions k := by
  unfold advance
  split <;> simp_all [removeClientSession, put, Function.update_apply]

theorem advance_compilerCalls (s : Client ι) (i j : ι) (a : Action) (u : State) (k : SessionId) :
    (s.advance i j a u).compilerCalls k
      = if a.terminates = true ∧ k = u.upload.sessionUuid then none else s.compilerCalls k := by
  unfold advance
  split <;> simp_all [removeClientSession, put, Function.update_apply]

/-- **What a step can do**, where the request works on its own session. -/
theorem step_cases (hown : s.session i = i) (h : step parseUuid c (i, a) s = some t) :
    (a = .register ∧ (s.requests i).request = .registering ∧ t = s.register i)
      ∨ (a ≠ .register ∧ ∃ u, Ipc.step parseUuid (c i) a (s.view i i) = some u
        ∧ t = s.advance i i a u) := by
  by_cases ha : a = .register
  · subst ha
    simp only [step] at h
    split at h
    · cases h
      exact Or.inl ⟨rfl, ‹_›, rfl⟩
    · cases h
  · have hstep : step parseUuid c (i, a) s
        = (Ipc.step parseUuid (c i) a (s.view i i)).map (s.advance i i a) := by
      rw [← congrArg (s.view i) (target_of_own hown a),
        ← congrArg (s.advance i) (target_of_own hown a)]
      cases a <;> first | rfl | exact absurd rfl ha
    rw [hstep] at h
    obtain ⟨u, hu, rfl⟩ := Option.map_eq_some_iff.mp h
    exact Or.inr ⟨ha, u, hu, rfl⟩

/-! ## Each request its own session -/

/-- **The invariant**: pointers and entries are own, and no two requests hold one id. -/
structure Separate (s : Client ι) : Prop where
  own : ∀ i j, s.returned i = some j → j = i
  calls : ∀ k, s.compilerCalls k = s.clientSessions k
  stored : ∀ k i, s.clientSessions k = some i →
    k = (s.requests i).sessionUuid ∧ (s.requests i).request.inConnect = false
  apart : ∀ i j k, s.Holds i k → s.Holds j k → i = j

omit [DecidableEq ι] in
theorem separate_initial : Separate (initial c) where
  own i j h := by cases h
  calls k := rfl
  stored k i h := by cases h
  apart i j k hi hj := by
    rcases hi with ⟨hplay, -⟩ | hi
    · rcases hplay with h | h <;> cases h
    · cases hi

omit [DecidableEq ι] in
theorem Separate.session (hs : s.Separate) (i : ι) : s.session i = i := by
  unfold Client.session
  cases h : s.returned i with
  | none => rfl
  | some j => exact hs.own i j h

omit [DecidableEq ι] in
/-- Nobody else is stored under an id that a request has in use. -/
theorem Separate.stored_eq (hs : s.Separate) {k : SessionId} {j : ι}
    (hi : (s.requests i).Uses k) (hj : s.clientSessions k = some j) : j = i :=
  hs.apart j i k (Or.inr hj) (Or.inl hi)

omit [DecidableEq ι] in
/-- The key of a request that is about to be stored is free. -/
theorem Separate.key_free (hs : s.Separate) (h : (s.requests i).request = .registering) :
    s.clientSessions (s.requests i).sessionUuid = none := by
  by_contra hne
  obtain ⟨j, hj⟩ := Option.ne_none_iff_exists'.mp hne
  have huses : (s.requests i).Uses (s.requests i).sessionUuid :=
    ⟨Or.inl (by rw [h]; rfl), Or.inl rfl⟩
  obtain rfl := hs.stored_eq huses hj
  have := (hs.stored _ _ hj).2
  rw [h] at this
  cases this

/-- **A free key stores the request's own session**, and its own call. -/
theorem Separate.register_eq (hs : s.Separate) (h : (s.requests i).request = .registering) :
    s.register i =
      { requests := Function.update s.requests i { s.requests i with request := .retrieving }
        returned := Function.update s.returned i (some i)
        clientSessions := Function.update s.clientSessions (s.requests i).sessionUuid (some i)
        compilerCalls := Function.update s.compilerCalls (s.requests i).sessionUuid (some i) } := by
  have hfree := hs.key_free h
  simp [register, tryEmplace, hfree, hs.calls]

/-- What `terminate_client_session` erases is the request's own. -/
theorem Separate.erased_own (hs : s.Separate) {u : State} {k : SessionId} {j : ι}
    (h : Step parseUuid (c i) (s.view i i) a u) (ha : a.terminates = true)
    (hk : k = u.upload.sessionUuid) (hj : s.clientSessions k = some j) : j = i := by
  have hne : a ≠ .confirm := by
    rintro rfl
    cases ha
  obtain ⟨-, hup⟩ := h.uuids hne
  refine hs.stored_eq ⟨?_, Or.inr (hk.trans hup)⟩ hj
  cases h with
  | refusedThrows h | compileRefused h | dispose h | disposeDead h =>
    left
    rw [show (s.requests i).request = _ from h]
    rfl
  | terminate h =>
    right
    rw [show (s.requests i).handler = _ from h]
    rfl
  | _ => cases ha

/-- A step of a request brings it into use of ids by its first reply only. -/
theorem holds_advance {u : State} (h : Step parseUuid (c i) (s.view i i) a u) {n : ι}
    {k : SessionId} (hk : (s.advance i i a u).Holds n k) :
    s.Holds n k ∨ (n = i ∧ a = .confirm ∧ ∃ m ∈ (s.requests i).nextMessage,
      k ∈ (s.requests i).replyIds parseUuid m) := by
  rcases hk with huse | hentry
  · rw [advance_requests] at huse
    by_cases hn : n = i
    · subst hn
      rw [Function.update_self] at huse
      rcases h.uses huse with hold | hnew
      · exact Or.inl (Or.inl hold)
      · exact Or.inr ⟨rfl, hnew⟩
    · rw [Function.update_of_ne hn] at huse
      exact Or.inl (Or.inl huse)
  · rw [advance_clientSessions] at hentry
    split_ifs at hentry
    exact Or.inl (Or.inr hentry)

/-- What a request holds once it is stored, it held before. -/
theorem Separate.holds_register (hs : s.Separate) (h : (s.requests i).request = .registering)
    {n : ι} {k : SessionId} (hk : (s.register i).Holds n k) : s.Holds n k := by
  have hplay : (s.requests i).request.inPlay = true := by
    rw [h]
    rfl
  rw [hs.register_eq h] at hk
  simp only [Holds, Function.update_apply] at hk
  rcases hk with huse | hentry
  · left
    split_ifs at huse with hn
    · subst hn
      exact ⟨Or.inl hplay, huse.2⟩
    · exact huse
  · split_ifs at hentry with hk
    · cases hentry
      exact Or.inl ⟨Or.inl hplay, Or.inl hk⟩
    · exact Or.inr hentry

theorem Separate.register (hs : s.Separate) (h : (s.requests i).request = .registering) :
    (s.register i).Separate := by
  have hapart : ∀ n j k, (s.register i).Holds n k → (s.register i).Holds j k → n = j :=
    fun n j k hn hj => hs.apart n j k (hs.holds_register h hn) (hs.holds_register h hj)
  rw [hs.register_eq h] at hapart ⊢
  refine ⟨fun n j hj => ?_, fun k => ?_, fun k n hk => ?_, hapart⟩
  · simp only [Function.update_apply] at hj
    split_ifs at hj with hn
    · rw [hn]
      exact (Option.some.inj hj).symm
    · exact hs.own n j hj
  · simp only [Function.update_apply, hs.calls]
  · simp only [Function.update_apply] at hk ⊢
    split_ifs at hk with hkey
    · cases hk
      rw [if_pos rfl]
      exact ⟨hkey, rfl⟩
    · have hn : n ≠ i := by
        rintro rfl
        exact hkey (hs.stored k n hk).1
      rw [if_neg hn]
      exact hs.stored k n hk

/-- An entry stays under the key of its request, which is past its confirmation. -/
theorem Separate.stored_advance (hs : s.Separate) {u : State}
    (h : Step parseUuid (c i) (s.view i i) a u) {k : SessionId} {n : ι}
    (hk : (s.advance i i a u).clientSessions k = some n) :
    k = ((s.advance i i a u).requests n).sessionUuid
      ∧ ((s.advance i i a u).requests n).request.inConnect = false := by
  rw [advance_clientSessions] at hk
  split_ifs at hk
  obtain ⟨hkey, hreq⟩ := hs.stored k n hk
  rw [advance_requests]
  by_cases hn : n = i
  · subst hn
    rw [Function.update_self]
    have hconf : a ≠ .confirm := by
      rintro rfl
      have hreq' : (s.requests n).request = .confirming := h.confirming
      rw [hreq'] at hreq
      cases hreq
    refine ⟨hkey.trans (h.uuids hconf).1.symm, ?_⟩
    cases hin : u.request.inConnect with
    | false => rfl
    | true => exact (h.inConnect hin).symm.trans hreq
  · rw [Function.update_of_ne hn]
    exact ⟨hkey, hreq⟩

/-- The two maps change together. -/
theorem Separate.calls_step (hs : s.Separate) (h : Client.step parseUuid c (i, a) s = some t)
    (k : SessionId) : t.compilerCalls k = t.clientSessions k := by
  rcases step_cases (hs.session i) h with ⟨rfl, hreq, rfl⟩ | ⟨-, u, -, rfl⟩
  · exact (hs.register hreq).calls k
  · rw [advance_compilerCalls, advance_clientSessions, hs.calls]

/-- **Sessions stay separate** in a step that shares no id. -/
theorem Separate.step (hs : s.Separate) (hg : UnsharedIds parseUuid (i, a) s)
    (h : Client.step parseUuid c (i, a) s = some t) : t.Separate := by
  rcases step_cases (hs.session i) h with ⟨rfl, hreq, rfl⟩ | ⟨hne, u, hu, rfl⟩
  · exact hs.register hreq
  · have hstep := Ipc.step_cases hu
    have hnew : ∀ m ∈ (s.requests i).nextMessage, ∀ k ∈ (s.requests i).replyIds parseUuid m,
        a = .confirm → ∀ n, s.Holds n k → n = i := by
      rintro m hm k hk rfl n hn
      by_contra hni
      exact hg m hm k hk n hni hn
    refine ⟨?_, hs.calls_step h, fun k n hk => hs.stored_advance hstep hk, fun n j k hn hj => ?_⟩
    · rw [advance_returned]
      exact hs.own
    · rcases holds_advance hstep hn with hn | ⟨hni, ha, m, hm, hk⟩
      · rcases holds_advance hstep hj with hj | ⟨hji, ha, m, hm, hk⟩
        · exact hs.apart n j k hn hj
        · exact (hnew m hm k hk ha n hn).trans hji.symm
      · rcases holds_advance hstep hj with hj | ⟨hji, -⟩
        · exact hni.trans (hnew m hm k hk ha j hj).symm
        · exact hni.trans hji.symm

/-- **A step erases no entry of another request**, and makes none. -/
theorem Separate.entry_iff (hs : s.Separate) (h : Client.step parseUuid c (i, a) s = some t) {j : ι}
    (hj : j ≠ i) (k : SessionId) : t.clientSessions k = some j ↔ s.clientSessions k = some j := by
  rcases step_cases (hs.session i) h with ⟨rfl, hreq, rfl⟩ | ⟨-, u, hu, rfl⟩
  · rw [hs.register_eq hreq]
    simp only [Function.update_apply]
    split_ifs with hk
    · subst hk
      simp [hs.key_free hreq, hj.symm]
    · rfl
  · rw [advance_clientSessions]
    split_ifs with her
    · refine ⟨nofun, fun hk => ?_⟩
      exact absurd (hs.erased_own (Ipc.step_cases hu) her.1 her.2 hk) hj
    · rfl

theorem separate_run {as : List (ι × Action)}
    (hm : Meets (Client.step parseUuid c) (UnsharedIds parseUuid) as (initial c))
    (hr : runFrom (Client.step parseUuid c) as (initial c) = some s) : s.Separate :=
  hm.invariant (fun _ _ _ hg h hs => hs.step hg h) hr separate_initial

/-- **Each request gets its own session**: what `connect_to_server` returns is the session that call
made, what it stores is that session and its compiler call, which stay together, and no step of one
request erases the entry of another; in every run that shares no id. -/
theorem each_own_session {as : List (ι × Action)}
    (hm : Meets (Client.step parseUuid c) (UnsharedIds parseUuid) as (initial c))
    (hr : runFrom (Client.step parseUuid c) as (initial c) = some s) :
    (∀ i j, s.returned i = some j → j = i)
      ∧ (∀ i t, Client.step parseUuid c (i, .register) s = some t → t.returned i = some i
        ∧ t.clientSessions (t.requests i).sessionUuid = some i
        ∧ t.compilerCalls (t.requests i).sessionUuid = some i)
      ∧ (∀ k, s.compilerCalls k = s.clientSessions k)
      ∧ ∀ i a t, Client.step parseUuid c (i, a) s = some t → ∀ j, j ≠ i → ∀ k,
        s.clientSessions k = some j → t.clientSessions k = some j ∧ t.compilerCalls k = some j := by
  have hs : s.Separate := separate_run hm hr
  refine ⟨hs.own, fun i t ht => ?_, hs.calls, fun i a t ht j hj k hk => ?_⟩
  · rcases step_cases (hs.session i) ht with ⟨-, hreq, rfl⟩ | ⟨hne, -⟩
    · rw [hs.register_eq hreq]
      simp
    · exact absurd rfl hne
  · have hkept := (hs.entry_iff ht hj k).mpr hk
    exact ⟨hkept, (hs.calls_step ht k).trans hkept⟩

/-! ### Two requests -/

/-- A request whose server does not confirm. -/
def refusedRequest : Circumstances := { sampleRequest [] with events := [some .other] }

/-- The first is confirmed, the second refused, and both get a session. -/
def confirmedAndRefused : List (Fin 2 × Action) :=
  [(0, .prepare), (1, .prepare), (0, .connect), (1, .connect), (1, .confirm), (0, .confirm),
    (0, .register), (1, .compileRefused), (1, .register), (0, .await), (1, .await), (1, .retrieve),
    (1, .abort), (1, .dispose)]

/-- Each works on its own. -/
theorem confirmedAndRefused_own_session :
    ∃ s, runFrom (Client.step sampleParse ![sampleRequest [], refusedRequest]) confirmedAndRefused
        (initial ![sampleRequest [], refusedRequest]) = some s
      ∧ s.returned 1 = some 1 ∧ ∀ k, s.compilerCalls k = s.clientSessions k := by
  set c : Fin 2 → Circumstances := ![sampleRequest [], refusedRequest]
  have hrun : ((runFrom (Client.step sampleParse c) confirmedAndRefused (initial c)).map fun s =>
      decide (s.returned 1 = some 1)) = some true := by decide +kernel
  obtain ⟨s, hr, hret⟩ := Option.map_eq_some_iff.mp hrun
  obtain ⟨-, -, hcalls, -⟩ := each_own_session (c := c) (by decide +kernel) hr
  exact ⟨s, hr, of_decide_eq_true hret, hcalls⟩

/-- Two refused requests at once: the second is returned the session of the first, or erases it. -/
theorem bothRefused_share_session :
    (¬ ∀ as s, runFrom (Client.step sampleParse fun _ : Fin 2 => refusedRequest) as
        (initial fun _ => refusedRequest) = some s → ∀ i j, s.returned i = some j → j = i)
      ∧ ¬ ∀ as s, runFrom (Client.step sampleParse fun _ : Fin 2 => refusedRequest) as
          (initial fun _ => refusedRequest) = some s →
        ∀ i a t, Client.step sampleParse (fun _ => refusedRequest) (i, a) s = some t →
          ∀ j, j ≠ i → ∀ k, s.clientSessions k = some j → t.clientSessions k = some j := by
  constructor
  · intro h
    have hrun : ((runFrom (Client.step sampleParse fun _ : Fin 2 => refusedRequest)
        [(0, .prepare), (0, .connect), (0, .confirm), (0, .compileRefused),
          (1, .prepare), (1, .connect), (1, .confirm), (1, .compileRefused),
          (0, .register), (1, .register)] (initial fun _ => refusedRequest)).map fun s =>
        decide (s.returned 1 = some 0)) = some true := by decide +kernel
    obtain ⟨s, hr, hret⟩ := Option.map_eq_some_iff.mp hrun
    cases h _ s hr 1 0 (of_decide_eq_true hret)
  · intro h
    have hrun : ((runFrom (Client.step sampleParse fun _ : Fin 2 => refusedRequest)
        [(0, .prepare), (0, .connect), (0, .confirm), (0, .compileRefused), (0, .register),
          (1, .prepare), (1, .connect), (1, .confirm)] (initial fun _ => refusedRequest)).bind
        fun s => (Client.step sampleParse (fun _ => refusedRequest) (1, .compileRefused) s).map
          fun t => decide (s.clientSessions nilUuid = some 0 ∧ t.clientSessions nilUuid = none))
        = some true := by decide +kernel
    obtain ⟨s, hr, hstep⟩ := Option.bind_eq_some_iff.mp hrun
    obtain ⟨t, ht, hbad⟩ := Option.map_eq_some_iff.mp hstep
    obtain ⟨hthere, hgone⟩ := of_decide_eq_true hbad
    cases hgone.symm.trans (h _ s hr 1 _ t ht 0 (by decide) nilUuid hthere)

/-! ## Each request as if it were alone -/

/-- The other requests leave a request and its entry alone. -/
theorem Separate.view_of_ne (hs : s.Separate) (h : Client.step parseUuid c (i, a) s = some t)
    {n : ι} (hn : n ≠ i) : t.view n n = s.view n n := by
  have hreq : t.requests n = s.requests n := by
    rcases step_cases (hs.session i) h with ⟨rfl, hreq, rfl⟩ | ⟨-, u, -, rfl⟩
    · exact Function.update_of_ne hn ..
    · rw [advance_requests]
      exact Function.update_of_ne hn ..
  have hstored : t.Stored n ↔ s.Stored n := by
    unfold Stored
    rw [hreq]
    exact hs.entry_iff h hn _
  simp only [view, hreq, hstored]

/-- A step of a request shows in its own view as it is. -/
theorem Separate.view_advance (hs : s.Separate) {u : State}
    (h : Step parseUuid (c i) (s.view i i) a u) (ha : a ≠ .register) :
    (s.advance i i a u).view i i = u := by
  have hreq : (s.advance i i a u).requests i = u := by
    rw [advance_requests, Function.update_self]
  have hstored : (s.advance i i a u).Stored i ↔ u.registered = true := by
    rw [h.registered_iff ha]
    unfold Stored
    rw [hreq, advance_clientSessions]
    have hview : (s.view i i).registered = true ↔ s.Stored i := by simp [view]
    rw [hview]
    by_cases hconf : a = .confirm
    · subst hconf
      have hnone : ∀ k, s.clientSessions k ≠ some i := by
        intro k hk
        have := (hs.stored k i hk).2
        rw [show (s.requests i).request = _ from h.confirming] at this
        cases this
      simp [Action.terminates, Stored, hnone]
    · obtain ⟨hid, hup⟩ := h.uuids hconf
      rw [hid, hup]
      by_cases her : a.terminates = true
        ∧ (s.view i i).sessionUuid = (s.view i i).upload.sessionUuid
      · simp [her]
      · rw [if_neg her]
        exact ⟨fun hk => ⟨hk, her⟩, fun hk => hk.1⟩
  unfold view
  rw [hreq]
  simp [hstored]

/-- **A step is one of the request alone**, which finds its key free. -/
theorem Separate.view_step (hs : s.Separate) (h : Client.step parseUuid c (i, a) s = some t) :
    Ipc.step parseUuid { c i with clientSessions := [] } a (s.view i i) = some (t.view i i) := by
  rcases step_cases (hs.session i) h with ⟨rfl, hreq, rfl⟩ | ⟨ha, u, hu, rfl⟩
  · rw [hs.register_eq hreq]
    simp [Ipc.step, view, hreq, Stored]
  · rw [hs.view_advance (Ipc.step_cases hu) ha, ← hu]
    cases a <;> first | rfl | exact absurd rfl ha

/-- The steps of one request. -/
def stepsOf (i : ι) (as : List (ι × Action)) : List Action :=
  as.filterMap fun x => if x.1 = i then some x.2 else none

/-- **Each request runs as if it were alone**, in every run that shares no id. -/
theorem view_run {as : List (ι × Action)}
    (hm : Meets (Client.step parseUuid c) (UnsharedIds parseUuid) as s)
    (hr : runFrom (Client.step parseUuid c) as s = some t) (hs : s.Separate) (i : ι) :
    runFrom (Ipc.step parseUuid { c i with clientSessions := [] }) (stepsOf i as) (s.view i i)
      = some (t.view i i) := by
  induction as generalizing s with
  | nil =>
    cases hr
    rfl
  | cons x as ih =>
    obtain ⟨n, a⟩ := x
    obtain ⟨u, hu, hr⟩ := runFrom_cons.mp hr
    obtain ⟨hg, hm⟩ := hm.cons_of_step hu
    have hrest := ih hm hr (hs.step hg hu)
    by_cases hn : n = i
    · subst hn
      have hown : stepsOf n ((n, a) :: as) = a :: stepsOf n as := by simp [stepsOf]
      rw [hown]
      exact runFrom_cons.mpr ⟨_, hs.view_step hu, hrest⟩
    · have hother : stepsOf i ((n, a) :: as) = stepsOf i as := by simp [stepsOf, hn]
      rw [hother, ← hs.view_of_ne hu (Ne.symm hn)]
      exact hrest

end Client

end Ipc

end DistBuild
