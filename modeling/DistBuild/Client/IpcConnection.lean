import DistBuild.Client.IpcCodec
import DistBuild.Machinery.Framing

/-!
# Client/IpcConnection — one wrapper and its session, over the Unix socket

    wrapper   connect ─▸ write the request ─────────────▸ read the response ─▸ print it, exit
                 │             │                                 ▴
    session      └──▸ accept ─▸ read ─▸ _request_handler ─▸ write ─▸ shutdown, close

Both sides write and read in pieces, through a socket of any size, and either may fail at any
moment.  How far the exchange has come is a `Stage`, and the log of the connection says which
(`Served.step`); without a failure somebody can go on until the wrapper has its answer
(`Stage.progress`).
-/

namespace DistBuild.IpcSocket

/-! ## The two sides -/

/-- Where the wrapper is in `send_request_to_distbuild`. -/
inductive WrapperPhase
  | writing (rest : Str)
  | reading (reader : Framing.Reader)
  | finished (response : UnixIpcResponse)
deriving DecidableEq, Repr

/-- Where the daemon is in `_handle_session`; `queued` is before its start. -/
inductive SessionPhase
  | queued
  | reading (reader : Framing.Reader)
  | handling (request : UnixIpcRequest)
  | writing (rest : Str)
  | closed
deriving DecidableEq, Repr

structure Connection where
  request : UnixIpcRequest
  wrapper : WrapperPhase
  toSession : Str
  toWrapper : Str
  session : SessionPhase
deriving DecidableEq, Repr

/-- What the wrapper returns from its `catch`. -/
def errorResponse (what : Str) : UnixIpcResponse := ⟨1, [], str "distbuild: " ++ what⟩

/-- What the wrapper and the session of a connection do. -/
inductive Move
  | write (k : ℕ)
  | await
  | read (k : ℕ)
  | finish
  | fail (what : Str)
  | accept
  | receive (k : ℕ)
  | call
  | answer (response : UnixIpcResponse)
  | send (k : ℕ)
  | close
  | throw
deriving DecidableEq

/-- What is logged of a connection. -/
inductive Event
  | called (request : UnixIpcRequest)
  | answered (response : UnixIpcResponse)
  | failed
deriving DecidableEq

/-- The wrapper has returned, and closed its socket. -/
def WrapperPhase.over : WrapperPhase → Bool
  | .finished _ => true
  | _ => false

/-- The session goes on, and is counted. -/
def SessionPhase.active : SessionPhase → Bool
  | .queued => false
  | .closed => false
  | _ => true

section

variable (r : Framing.Reader) (request : UnixIpcRequest) (rest : Str)

@[simp] theorem SessionPhase.active_queued : queued.active = false := rfl

@[simp] theorem SessionPhase.active_reading : (reading r).active = true := rfl

@[simp] theorem SessionPhase.active_handling : (handling request).active = true := rfl

@[simp] theorem SessionPhase.active_writing : (writing rest).active = true := rfl

@[simp] theorem SessionPhase.active_closed : closed.active = false := rfl

end

/-- The session ends, in one way or the other. -/
def Move.ends : Move → Bool
  | .close => true
  | .throw => true
  | _ => false

/-- Nothing goes wrong, and it is not the accept loop's. -/
def Move.Works : Move → Prop
  | .accept => False
  | .fail _ => False
  | .throw => False
  | _ => True

namespace Connection

/-- The wrapper has connected. -/
def start (request : UnixIpcRequest) : Connection :=
  ⟨request, .writing (sendRequest request), [], [], .queued⟩

/-- Its `connect` has thrown. -/
def refused (request : UnixIpcRequest) (what : Str) : Connection :=
  ⟨request, .finished (errorResponse what), [], [], .closed⟩

/-- What the wrapper does next, in `send_request_to_distbuild`; a socket that the other side has
closed takes no more. -/
def wrapperStep (cap : ℕ) (a : Move) (x : Connection) : Option Connection :=
  match a, x.wrapper with
  | .write k, .writing rest =>
    if x.session = .closed then none
    else (Framing.write cap k rest x.toSession).map fun p =>
      { x with wrapper := .writing p.1, toSession := p.2 }
  | .await, .writing [] => some { x with wrapper := .reading .start }
  | .read k, .reading reader =>
    (Framing.read k x.toWrapper reader).map fun p =>
      { x with wrapper := .reading p.2, toWrapper := p.1 }
  | .finish, .reading reader => do
    let responsePayload ← reader.done
    let response ← deserializeResponse responsePayload
    return { x with wrapper := .finished response }
  | .fail what, w =>
    if w.over then none else some { x with wrapper := .finished (errorResponse what) }
  | _, _ => none

/-- The request, once its payload has been read. -/
def decoded (x : Connection) : Option UnixIpcRequest :=
  match x.session with
  | .reading reader => do
    let payload ← reader.done
    let (request, _) ← deserializeRequest payload
    return request
  | _ => none

/-- What the session does next, in `_handle_session`. -/
def sessionStep (cap : ℕ) (a : Move) (x : Connection) : Option Connection :=
  match a, x.session with
  | .accept, .queued => some { x with session := .reading .start }
  | .receive k, .reading reader =>
    (Framing.read k x.toSession reader).map fun p =>
      { x with session := .reading p.2, toSession := p.1 }
  | .call, .reading _ => x.decoded.map fun request => { x with session := .handling request }
  | .answer response, .handling _ => some { x with session := .writing (sendResponse response) }
  | .send k, .writing rest =>
    if x.wrapper.over then none
    else (Framing.write cap k rest x.toWrapper).map fun p =>
      { x with session := .writing p.1, toWrapper := p.2 }
  | .close, .writing [] => some { x with session := .closed }
  | .throw, session => if session.active then some { x with session := .closed } else none
  | _, _ => none

def step (cap : ℕ) (a : Move) (x : Connection) : Option Connection :=
  match a with
  | .write _ | .await | .read _ | .finish | .fail _ => wrapperStep cap a x
  | _ => sessionStep cap a x

/-- What is logged of a new connection. -/
def born (x : Connection) : List Event := if x.wrapper.over then [.failed] else []

/-- What is logged of a step. -/
def does (a : Move) (x : Connection) : List Event :=
  match a with
  | .call => x.decoded.toList.map .called
  | .answer response => [.answered response]
  | .fail _ | .throw => [.failed]
  | _ => []

end Connection

/-! ## What a step can do -/

namespace Connection

/-- `step` as a relation. -/
inductive Moves (cap : ℕ) : Move → Connection → Connection → Prop
  | write {req k rest toS toW s p} (hopen : s ≠ .closed)
      (h : Framing.write cap k rest toS = some p) :
    Moves cap (.write k) ⟨req, .writing rest, toS, toW, s⟩ ⟨req, .writing p.1, p.2, toW, s⟩
  | await {req toS toW s} :
    Moves cap .await ⟨req, .writing [], toS, toW, s⟩ ⟨req, .reading .start, toS, toW, s⟩
  | read {req k r toS toW s p} (h : Framing.read k toW r = some p) :
    Moves cap (.read k) ⟨req, .reading r, toS, toW, s⟩ ⟨req, .reading p.2, toS, p.1, s⟩
  | finish {req r toS toW s payload resp} (hdone : r.done = some payload)
      (h : deserializeResponse payload = some resp) :
    Moves cap .finish ⟨req, .reading r, toS, toW, s⟩ ⟨req, .finished resp, toS, toW, s⟩
  | fail {req w toS toW s what} (h : w.over = false) :
    Moves cap (.fail what) ⟨req, w, toS, toW, s⟩ ⟨req, .finished (errorResponse what), toS, toW, s⟩
  | accept {req w toS toW} :
    Moves cap .accept ⟨req, w, toS, toW, .queued⟩ ⟨req, w, toS, toW, .reading .start⟩
  | receive {req w k r toS toW p} (h : Framing.read k toS r = some p) :
    Moves cap (.receive k) ⟨req, w, toS, toW, .reading r⟩ ⟨req, w, p.1, toW, .reading p.2⟩
  | call {req w r toS toW request} (h : decoded ⟨req, w, toS, toW, .reading r⟩ = some request) :
    Moves cap .call ⟨req, w, toS, toW, .reading r⟩ ⟨req, w, toS, toW, .handling request⟩
  | answer {req w toS toW request resp} :
    Moves cap (.answer resp) ⟨req, w, toS, toW, .handling request⟩
      ⟨req, w, toS, toW, .writing (sendResponse resp)⟩
  | send {req w k rest toS toW p} (hopen : w.over = false)
      (h : Framing.write cap k rest toW = some p) :
    Moves cap (.send k) ⟨req, w, toS, toW, .writing rest⟩ ⟨req, w, toS, p.2, .writing p.1⟩
  | close {req w toS toW} :
    Moves cap .close ⟨req, w, toS, toW, .writing []⟩ ⟨req, w, toS, toW, .closed⟩
  | throw {req w toS toW s} (h : s.active = true) :
    Moves cap .throw ⟨req, w, toS, toW, s⟩ ⟨req, w, toS, toW, .closed⟩

variable {cap : ℕ} {a : Move} {x y : Connection}

/-- **What a step of a connection can do.** -/
theorem step_cases (h : step cap a x = some y) : Moves cap a x y := by
  obtain ⟨req, w, toS, toW, s⟩ := x
  cases a with
  | write k =>
    cases w with
    | writing rest =>
      simp only [step, wrapperStep] at h
      split_ifs at h with hs
      obtain ⟨p, hp, rfl⟩ := Option.map_eq_some_iff.mp h
      exact .write hs hp
    | _ => exact absurd h.symm (Option.some_ne_none y)
  | await =>
    rcases w with (_ | ⟨b, rest⟩) | _ | _
    · obtain rfl := Option.some.inj h
      exact .await
    all_goals exact absurd h.symm (Option.some_ne_none y)
  | read k =>
    cases w with
    | reading r =>
      obtain ⟨p, hp, rfl⟩ := Option.map_eq_some_iff.mp h
      exact .read hp
    | _ => exact absurd h.symm (Option.some_ne_none y)
  | finish =>
    cases w with
    | reading r =>
      obtain ⟨payload, hdone, h⟩ := Option.bind_eq_some_iff.mp h
      obtain ⟨resp, hresp, h⟩ := Option.bind_eq_some_iff.mp h
      obtain rfl := Option.some.inj h
      exact .finish hdone hresp
    | _ => exact absurd h.symm (Option.some_ne_none y)
  | fail what =>
    simp only [step, wrapperStep] at h
    split_ifs at h with hover
    obtain rfl := Option.some.inj h
    exact .fail (Bool.eq_false_of_not_eq_true hover)
  | accept =>
    cases s with
    | queued =>
      obtain rfl := Option.some.inj h
      exact .accept
    | _ => exact absurd h.symm (Option.some_ne_none y)
  | receive k =>
    cases s with
    | reading r =>
      obtain ⟨p, hp, rfl⟩ := Option.map_eq_some_iff.mp h
      exact .receive hp
    | _ => exact absurd h.symm (Option.some_ne_none y)
  | call =>
    cases s with
    | reading r =>
      obtain ⟨request, hreq, rfl⟩ := Option.map_eq_some_iff.mp h
      exact .call hreq
    | _ => exact absurd h.symm (Option.some_ne_none y)
  | answer resp =>
    cases s with
    | handling request =>
      obtain rfl := Option.some.inj h
      exact .answer
    | _ => exact absurd h.symm (Option.some_ne_none y)
  | send k =>
    cases s with
    | writing rest =>
      simp only [step, sessionStep] at h
      split_ifs at h with hover
      obtain ⟨p, hp, rfl⟩ := Option.map_eq_some_iff.mp h
      exact .send (Bool.eq_false_of_not_eq_true hover) hp
    | _ => exact absurd h.symm (Option.some_ne_none y)
  | close =>
    rcases s with _ | _ | _ | (_ | ⟨b, rest⟩) | _
    case writing.nil =>
      obtain rfl := Option.some.inj h
      exact .close
    all_goals exact absurd h.symm (Option.some_ne_none y)
  | throw =>
    simp only [step, sessionStep] at h
    split_ifs at h with hactive
    obtain rfl := Option.some.inj h
    exact .throw hactive

end Connection

/-! ## What holds of a connection -/

namespace WrapperPhase

variable (failed : Prop)

/-- The wrapper has still to write `unsent`. -/
def Sends (unsent : Str) : WrapperPhase → Prop
  | .writing rest => rest = unsent
  | .reading _ => unsent = []
  | .finished _ => failed

/-- The wrapper has read nothing yet. -/
def Awaits : WrapperPhase → Prop
  | .writing _ => True
  | .reading r => r = .start
  | .finished _ => failed

/-- The wrapper is getting the response, or has got it. -/
def Takes (resp : UnixIpcResponse) (unsent pipe : Str) : WrapperPhase → Prop
  | .writing rest => rest = [] ∧ Framing.Carries (serializeResponse resp) unsent pipe .start
  | .reading r => Framing.Carries (serializeResponse resp) unsent pipe r
  | .finished resp' => failed ∨ resp' = resp ∧ unsent = []

variable {failed} {failed' : Prop} {unsent pipe : Str} {resp : UnixIpcResponse} {w : WrapperPhase}

theorem Sends.imp (h : failed → failed') (hw : w.Sends failed unsent) : w.Sends failed' unsent := by
  cases w with
  | finished => exact h hw
  | _ => exact hw

theorem Awaits.imp (h : failed → failed') (hw : w.Awaits failed) : w.Awaits failed' := by
  cases w with
  | finished => exact h hw
  | _ => exact hw

theorem Takes.imp (h : failed → failed') (hw : w.Takes failed resp unsent pipe) :
    w.Takes failed' resp unsent pipe := by
  cases w with
  | finished => exact hw.imp_left h
  | _ => exact hw

/-- The response begins where the request has been sent, and nothing has been read. -/
theorem Takes.start (hs : w.Sends failed []) (ha : w.Awaits failed) :
    w.Takes failed resp (sendResponse resp) [] := by
  cases w with
  | writing rest => exact ⟨hs, Framing.carries_start _⟩
  | reading r =>
    obtain rfl : r = .start := ha
    exact Framing.carries_start _
  | finished => exact Or.inl hs

end WrapperPhase

namespace Connection

/-- How far the exchange of a connection is: its log without failures, and the session. -/
inductive Stage (failed : Prop) (req : UnixIpcRequest) (w : WrapperPhase) (toS toW : Str) :
    List Event → SessionPhase → Prop
  | queued {unsent} (hs : w.Sends failed unsent) (ha : w.Awaits failed) (hpipe : toW = [])
    (hc : Framing.Carries (serializeRequest req) unsent toS .start) :
    Stage failed req w toS toW [] .queued
  | reading {unsent r} (hs : w.Sends failed unsent) (ha : w.Awaits failed) (hpipe : toW = [])
    (hc : Framing.Carries (serializeRequest req) unsent toS r) :
    Stage failed req w toS toW [] (.reading r)
  | handling (hs : w.Sends failed []) (ha : w.Awaits failed) (hpipe : toW = []) :
    Stage failed req w toS toW [.called req] (.handling req)
  | writing {resp unsent} (ht : w.Takes failed resp unsent toW) :
    Stage failed req w toS toW [.called req, .answered resp] (.writing unsent)
  | closed {resp unsent} (ht : w.Takes failed resp unsent toW) (hend : failed ∨ unsent = []) :
    Stage failed req w toS toW [.called req, .answered resp] .closed
  /-- The session has thrown before it had an answer. -/
  | broken {events} (hfailed : failed) (hev : events <+: [.called req]) (ha : w.Awaits failed)
    (hpipe : toW = []) : Stage failed req w toS toW events .closed

/-- What is logged but the failures. -/
def exchange (events : List Event) : List Event := events.filter (· ≠ .failed)

/-- The connection is as its log says. -/
structure Served (events : List Event) (x : Connection) : Prop where
  stage : Stage (.failed ∈ events) x.request x.wrapper x.toSession x.toWrapper (exchange events)
    x.session
  result : ∀ resp, x.wrapper = .finished resp →
    .answered resp ∈ events ∨ .failed ∈ events ∧ ∃ what, resp = errorResponse what

theorem exchange_append (events : List Event) (e : Event) :
    exchange (events ++ [e]) = exchange events ++ if e = .failed then [] else [e] := by
  rw [exchange, List.filter_append]
  by_cases he : e = .failed <;> simp [he, exchange]

theorem served_start (req : UnixIpcRequest) : Served [] (start req) where
  stage := .queued rfl trivial rfl (Framing.carries_start _)
  result _ h := by cases h

theorem served_refused (req : UnixIpcRequest) (what : Str) :
    Served [.failed] (refused req what) where
  stage := .broken (List.mem_singleton_self _) List.nil_prefix (List.mem_singleton_self _) rfl
  result _ h := by
    cases h
    exact Or.inr ⟨List.mem_singleton_self _, what, rfl⟩

section Steps

variable {cap : ℕ} {failed failed' : Prop} {req : UnixIpcRequest} {w : WrapperPhase}
  {toS toW : Str} {s : SessionPhase} {events : List Event}

/-- The wrapper writes, or has written. -/
theorem Stage.write {k : ℕ} {rest : Str} {p : Str × Str}
    (hst : Stage failed req (.writing rest) toS toW events s) (hopen : s ≠ .closed)
    (h : Framing.write cap k rest toS = some p) :
    Stage failed req (.writing p.1) p.2 toW events s := by
  have hrest := Framing.write_ne_nil h
  cases hst with
  | queued hs _ hpipe hc =>
    obtain rfl := hs
    exact .queued rfl trivial hpipe (hc.write h)
  | reading hs _ hpipe hc =>
    obtain rfl := hs
    exact .reading rfl trivial hpipe (hc.write h)
  | handling hs => exact absurd hs hrest
  | writing ht => exact absurd ht.1 hrest
  | closed | broken => exact absurd rfl hopen

theorem Stage.await (hst : Stage failed req (.writing []) toS toW events s) :
    Stage failed req (.reading .start) toS toW events s := by
  cases hst with
  | queued hs _ hpipe hc => exact .queued hs.symm rfl hpipe hc
  | reading hs _ hpipe hc => exact .reading hs.symm rfl hpipe hc
  | handling _ _ hpipe => exact .handling rfl rfl hpipe
  | writing ht => exact .writing ht.2
  | closed ht hend => exact .closed ht.2 hend
  | broken hf hev _ hpipe => exact .broken hf hev rfl hpipe

theorem Stage.read {k : ℕ} {r : Framing.Reader} {p : Str × Framing.Reader}
    (hst : Stage failed req (.reading r) toS toW events s)
    (h : Framing.read k toW r = some p) :
    Stage failed req (.reading p.2) toS p.1 events s := by
  have hne := Framing.read_ne_nil h
  cases hst with
  | queued _ _ hpipe _ => exact absurd hpipe hne
  | reading _ _ hpipe _ => exact absurd hpipe hne
  | handling _ _ hpipe => exact absurd hpipe hne
  | writing ht => exact .writing (ht.read h)
  | closed ht hend => exact .closed (ht.read h) hend
  | broken _ _ _ hpipe => exact absurd hpipe hne

/-- A wrapper that is done reading has the answer. -/
theorem Stage.finish {r : Framing.Reader} {payload : Str} {resp : UnixIpcResponse}
    (hst : Stage failed req (.reading r) toS toW events s) (hdone : r.done = some payload)
    (hdec : deserializeResponse payload = some resp)
    (hfits : ∀ resp, .answered resp ∈ events → (serializeResponse resp).length < 2 ^ 32) :
    .answered resp ∈ events ∧ Stage failed req (.finished resp) toS toW events s := by
  have hnot : r ≠ .start := by
    rintro rfl
    exact absurd hdone.symm (Option.some_ne_none payload)
  have hdecoded : ∀ resp' unsent, (serializeResponse resp').length < 2 ^ 32 →
      Framing.Carries (serializeResponse resp') unsent toW r → resp = resp' ∧ unsent = [] := by
    intro resp' unsent hlen hc
    obtain ⟨rfl, -, hunsent⟩ := hc.done hlen hdone
    have hround :=
      (deserialize_serialize_response_iff resp').mpr (UnixIpcResponse.fits_of_length hlen)
    exact ⟨Option.some.inj (hdec.symm.trans hround), hunsent⟩
  cases hst with
  | queued _ ha => exact absurd ha hnot
  | reading _ ha => exact absurd ha hnot
  | handling _ ha => exact absurd ha hnot
  | @writing resp' unsent ht =>
    obtain ⟨rfl, rfl⟩ := hdecoded resp' unsent (hfits resp' (by simp)) ht
    exact ⟨by simp, .writing (Or.inr ⟨rfl, rfl⟩)⟩
  | @closed resp' unsent ht hend =>
    obtain ⟨rfl, rfl⟩ := hdecoded resp' unsent (hfits resp' (by simp)) ht
    exact ⟨by simp, .closed (Or.inr ⟨rfl, rfl⟩) hend⟩
  | broken _ _ ha => exact absurd ha hnot

theorem Stage.fail {resp : UnixIpcResponse} (hst : Stage failed req w toS toW events s) :
    Stage True req (.finished resp) toS toW events s := by
  cases hst with
  | queued _ _ hpipe hc => exact .queued trivial trivial hpipe hc
  | reading _ _ hpipe hc => exact .reading trivial trivial hpipe hc
  | handling _ _ hpipe => exact .handling trivial trivial hpipe
  | writing => exact .writing (Or.inl trivial)
  | closed => exact @Stage.closed _ _ _ _ _ _ [] (Or.inl trivial) (Or.inl trivial)
  | broken _ hev _ hpipe => exact .broken trivial hev trivial hpipe

theorem Stage.throw (hst : Stage failed req w toS toW events s) (h : s.active = true) :
    Stage True req w toS toW events .closed := by
  cases hst with
  | queued => exact absurd h Bool.false_ne_true
  | reading _ ha hpipe _ => exact .broken trivial List.nil_prefix (ha.imp fun _ => trivial) hpipe
  | handling _ ha hpipe => exact .broken trivial List.prefix_rfl (ha.imp fun _ => trivial) hpipe
  | writing ht => exact .closed (ht.imp fun _ => trivial) (Or.inl trivial)
  | closed => exact absurd h Bool.false_ne_true
  | broken => exact absurd h Bool.false_ne_true

theorem Stage.accept (hst : Stage failed req w toS toW events .queued) :
    Stage failed req w toS toW events (.reading .start) := by
  cases hst with
  | queued hs ha hpipe hc => exact .reading hs ha hpipe hc

theorem Stage.receive {k : ℕ} {r : Framing.Reader} {p : Str × Framing.Reader}
    (hst : Stage failed req w toS toW events (.reading r)) (h : Framing.read k toS r = some p) :
    Stage failed req w p.1 toW events (.reading p.2) := by
  cases hst with
  | reading hs ha hpipe hc => exact .reading hs ha hpipe (hc.read h)

/-- A session that is done reading has the wrapper's own request. -/
theorem Stage.call {r : Framing.Reader} {request : UnixIpcRequest}
    (hst : Stage failed req w toS toW events (.reading r))
    (hdec : decoded ⟨req, w, toS, toW, .reading r⟩ = some request)
    (hlen : (serializeRequest req).length < 2 ^ 32) :
    request = req
      ∧ Stage failed req w toS toW (events ++ [.called request]) (.handling request) := by
  cases hst with
  | reading hs ha hpipe hc =>
    obtain ⟨payload, hdone, hdec⟩ := Option.bind_eq_some_iff.mp hdec
    obtain ⟨⟨request', n⟩, hreq, heq⟩ := Option.bind_eq_some_iff.mp hdec
    obtain rfl := Option.some.inj heq
    obtain ⟨rfl, -, rfl⟩ := hc.done hlen hdone
    have hround := deserialize_serialize_request [] (UnixIpcRequest.fits_of_length hlen)
    rw [List.append_nil] at hround
    obtain rfl := (Prod.mk.inj (Option.some.inj (hreq.symm.trans hround))).1
    exact ⟨rfl, .handling hs ha hpipe⟩

theorem Stage.answer {request : UnixIpcRequest} {resp : UnixIpcResponse}
    (hst : Stage failed req w toS toW events (.handling request)) :
    Stage failed req w toS toW (events ++ [.answered resp]) (.writing (sendResponse resp)) := by
  cases hst with
  | handling hs ha hpipe =>
    subst hpipe
    exact .writing (.start hs ha)

theorem Stage.send {k : ℕ} {rest : Str} {p : Str × Str}
    (hst : Stage failed req w toS toW events (.writing rest)) (hopen : w.over = false)
    (h : Framing.write cap k rest toW = some p) :
    Stage failed req w toS p.2 events (.writing p.1) := by
  cases hst with
  | writing ht =>
    refine .writing ?_
    cases w with
    | writing => exact ⟨ht.1, ht.2.write h⟩
    | reading => exact Framing.Carries.write ht h
    | finished => exact absurd hopen.symm Bool.false_ne_true

theorem Stage.close (hst : Stage failed req w toS toW events (.writing [])) :
    Stage failed req w toS toW events .closed := by
  cases hst with
  | writing ht => exact .closed ht (Or.inr rfl)

theorem Stage.imp (h : failed ↔ failed') (hst : Stage failed req w toS toW events s) :
    Stage failed' req w toS toW events s := by
  obtain rfl := propext h
  exact hst

end Steps

variable {cap : ℕ} {a : Move} {x y : Connection} {events : List Event}

/-- **What one step keeps.** -/
theorem Served.step (hx : Served events x) (h : Connection.step cap a x = some y)
    (hreq : (serializeRequest x.request).length < 2 ^ 32)
    (hresp : ∀ resp, .answered resp ∈ events ++ does a x →
      (serializeResponse resp).length < 2 ^ 32) :
    Served (events ++ does a x) y := by
  obtain ⟨hst, hres⟩ := hx
  have hlogged : ∀ e, e ≠ .failed → (.failed ∈ events ↔ .failed ∈ events ++ [e]) := by
    intro e he
    simp [he.symm]
  have hexchange : ∀ e, e ≠ .failed → exchange (events ++ [e]) = exchange events ++ [e] := by
    intro e he
    rw [exchange_append, if_neg he]
  have hfail : exchange (events ++ [.failed]) = exchange events := by
    rw [exchange_append, if_pos rfl, List.append_nil]
  have htrue : True ↔ .failed ∈ events ++ [.failed] := by simp
  have hkept : ∀ l resp, x.wrapper = .finished resp →
      .answered resp ∈ events ++ l ∨ .failed ∈ events ++ l ∧ ∃ what, resp = errorResponse what :=
    fun l resp hw =>
      (hres resp hw).imp (List.mem_append_left l) (And.imp_left (List.mem_append_left l))
  cases step_cases h with
  | write hopen hp =>
    rw [show does _ _ = [] from rfl, List.append_nil]
    exact ⟨hst.write hopen hp, fun _ hw => by cases hw⟩
  | await =>
    rw [show does _ _ = [] from rfl, List.append_nil]
    exact ⟨hst.await, fun _ hw => by cases hw⟩
  | read hp =>
    rw [show does _ _ = [] from rfl, List.append_nil]
    exact ⟨hst.read hp, fun _ hw => by cases hw⟩
  | finish hdone hdec =>
    have hmem : ∀ resp, .answered resp ∈ exchange events → .answered resp ∈ events :=
      fun resp hmem => (List.mem_filter.mp hmem).1
    obtain ⟨hans, hst⟩ := hst.finish hdone hdec fun resp hans =>
      hresp resp (List.mem_append_left _ (hmem resp hans))
    rw [show does _ _ = [] from rfl, List.append_nil]
    refine ⟨hst, fun resp' hw => ?_⟩
    cases hw
    exact Or.inl (hmem _ hans)
  | @fail req w toS toW s what hover =>
    rw [show does _ _ = [.failed] from rfl]
    refine ⟨?_, fun resp hw => ?_⟩
    · rw [hfail]
      exact hst.fail.imp htrue
    · cases hw
      exact Or.inr ⟨htrue.mp trivial, what, rfl⟩
  | accept =>
    rw [show does _ _ = [] from rfl, List.append_nil]
    exact ⟨hst.accept, hres⟩
  | receive hp =>
    rw [show does _ _ = [] from rfl, List.append_nil]
    exact ⟨hst.receive hp, hres⟩
  | @call req w r toS toW request hdec =>
    have hdoes : does .call ⟨req, w, toS, toW, .reading r⟩ = [.called request] := by
      rw [does, hdec]
      rfl
    rw [hdoes]
    refine ⟨?_, hkept _⟩
    rw [hexchange _ (by simp)]
    exact ((hst.call hdec hreq).2).imp (hlogged _ (by simp))
  | @answer req w toS toW request resp =>
    rw [show does _ _ = [.answered resp] from rfl]
    refine ⟨?_, hkept _⟩
    rw [hexchange _ (by simp)]
    exact hst.answer.imp (hlogged _ (by simp))
  | send hopen hp =>
    rw [show does _ _ = [] from rfl, List.append_nil]
    exact ⟨hst.send hopen hp, hres⟩
  | close =>
    rw [show does _ _ = [] from rfl, List.append_nil]
    exact ⟨hst.close, hres⟩
  | throw hactive =>
    rw [show does _ _ = [.failed] from rfl]
    refine ⟨?_, hkept _⟩
    rw [hfail]
    exact (hst.throw hactive).imp htrue

/-! ## Nobody waits for ever -/

section Progress

variable {failed : Prop} {req : UnixIpcRequest} {w : WrapperPhase} {toS toW unsent : Str}
  {s : SessionPhase} {resp : UnixIpcResponse}

/-- A wrapper that reads can go on, or the session can write. -/
theorem reads_progress {r : Framing.Reader}
    (hc : Framing.Carries (serializeResponse resp) unsent toW r)
    (hlen : (serializeResponse resp).length < 2 ^ 32) (hcap : 0 < cap) :
    (∃ a, a.Works ∧ (Connection.step cap a ⟨req, .reading r, toS, toW, s⟩).isSome)
      ∨ ∃ p, Framing.write cap 1 unsent toW = some p := by
  cases hdone : r.done with
  | some payload =>
    obtain ⟨rfl, -⟩ := hc.done hlen hdone
    have hround :=
      (deserialize_serialize_response_iff resp).mpr (UnixIpcResponse.fits_of_length hlen)
    exact Or.inl ⟨.finish, trivial, by simp [Connection.step, wrapperStep, hdone, hround]⟩
  | none =>
    rcases hc.progress hlen hcap hdone with ⟨p, hp⟩ | hwrite
    · exact Or.inl ⟨.read 1, trivial, by simp [Connection.step, wrapperStep, hp]⟩
    · exact Or.inr hwrite

/-- A session that reads can go on, or its wrapper can write. -/
theorem receives_progress {r : Framing.Reader}
    (hc : Framing.Carries (serializeRequest req) unsent toS r)
    (hlen : (serializeRequest req).length < 2 ^ 32) (hcap : 0 < cap) :
    (∃ a, a.Works ∧ (Connection.step cap a ⟨req, w, toS, toW, .reading r⟩).isSome)
      ∨ ∃ p, Framing.write cap 1 unsent toS = some p := by
  cases hdone : r.done with
  | some payload =>
    obtain ⟨rfl, -⟩ := hc.done hlen hdone
    have hround := deserialize_serialize_request [] (UnixIpcRequest.fits_of_length hlen)
    rw [List.append_nil] at hround
    exact Or.inl ⟨.call, trivial, by simp [Connection.step, sessionStep, decoded, hdone, hround]⟩
  | none =>
    rcases hc.progress hlen hcap hdone with ⟨p, hp⟩ | hwrite
    · exact Or.inl ⟨.receive 1, trivial, by simp [Connection.step, sessionStep, hp]⟩
    · exact Or.inr hwrite

/-- **Without a failure somebody can go on**, until the wrapper has its answer. -/
theorem Stage.progress (hst : Stage failed req w toS toW events s) (hfailed : ¬ failed)
    (hreq : (serializeRequest req).length < 2 ^ 32)
    (hresp : ∀ resp, .answered resp ∈ events → (serializeResponse resp).length < 2 ^ 32)
    (hcap : 0 < cap) :
    s = .queued ∨ (∃ a, a.Works ∧ (Connection.step cap a ⟨req, w, toS, toW, s⟩).isSome)
      ∨ ∃ resp, .answered resp ∈ events ∧ w = .finished resp ∧ s = .closed := by
  cases hst with
  | queued => exact Or.inl rfl
  | @reading unsent r hs ha hpipe hc =>
    right; left
    rcases receives_progress hc hreq hcap with hgo | ⟨p, hp⟩
    · exact hgo
    · have hne := Framing.write_ne_nil hp
      cases w with
      | writing rest =>
        obtain rfl := hs
        exact ⟨.write 1, trivial, by simp [Connection.step, wrapperStep, hp]⟩
      | reading => exact absurd hs hne
      | finished => exact absurd hs hfailed
  | handling => exact Or.inr (Or.inl ⟨.answer ⟨0, [], []⟩, trivial, rfl⟩)
  | @writing resp unsent ht =>
    right; left
    cases w with
    | writing rest =>
      obtain rfl := ht.1
      exact ⟨.await, trivial, rfl⟩
    | reading r =>
      rcases reads_progress ht (hresp resp (by simp)) hcap with hgo | ⟨p, hp⟩
      · exact hgo
      · exact ⟨.send 1, trivial, by simp [Connection.step, sessionStep, hp, WrapperPhase.over]⟩
    | finished =>
      obtain rfl := (ht.resolve_left hfailed).2
      exact ⟨.close, trivial, rfl⟩
  | @closed resp unsent ht hend =>
    right
    obtain rfl := hend.resolve_left hfailed
    cases w with
    | writing rest =>
      obtain rfl := ht.1
      exact Or.inl ⟨.await, trivial, rfl⟩
    | reading r =>
      rcases reads_progress ht (hresp resp (by simp)) hcap with hgo | ⟨p, hp⟩
      · exact Or.inl hgo
      · exact absurd rfl (Framing.write_ne_nil hp)
    | finished =>
      obtain rfl := (ht.resolve_left hfailed).1
      exact Or.inr ⟨_, by simp, rfl, rfl⟩
  | broken hf => exact absurd hf hfailed

end Progress

/-- A step leaves the connection queued, or waiting to be accepted as it was. -/
theorem step_queued (h : step cap a x = some y) (ha : a ≠ .accept) :
    y.session = .queued ↔ x.session = .queued := by
  cases step_cases h with
  | accept => exact absurd rfl ha
  | throw hs => exact iff_of_false (by simp) (by rintro rfl; exact absurd hs Bool.false_ne_true)
  | _ => simp

theorem step_active (h : step cap a x = some y) :
    y.session.active.toNat + a.ends.toNat
      = x.session.active.toNat + (decide (a = .accept)).toNat := by
  cases step_cases h with
  | throw hs => simp [hs, Move.ends]
  | _ => simp [Move.ends]

end Connection

end DistBuild.IpcSocket
