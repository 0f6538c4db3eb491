import DistBuild.Client.IpcConnection
import DistBuild.Machinery.Family

/-!
# Client/IpcService — all wrappers and the daemon

    connect ─▸ backlog ─accept─▸ a session of its own ─▸ close        _active_connections

Wrappers come at any time and the accept loop takes them in their order; what a wrapper and its
session do is of their own connection (`Client/IpcConnection`).  So a wrapper that finishes has what
the handler answered to its own request, or its own error, and nobody waits for ever
(`wrappers_answered`).
-/

namespace DistBuild.IpcSocket

structure State where
  connections : List Connection
  /-- Who waits to be accepted. -/
  backlog : List ℕ
  activeConnections : UInt32

/-- The daemon listens. -/
def State.listening : State := ⟨[], [], 0⟩

inductive Action
  | connect (request : UnixIpcRequest)
  | refuse (request : UnixIpcRequest) (what : Str)
  | accept
  | move (c : ℕ) (a : Move)
deriving DecidableEq

/-- What an action does to the connections.  `main` returns before it connects, if there is no
compiler with an argument to run. -/
def change : Action → State → Option (Change Connection Move)
  | .connect request, _ =>
    if 2 ≤ request.cmdLineArgs.length then some (.create (.start request)) else none
  | .refuse request what, _ =>
    if 2 ≤ request.cmdLineArgs.length then some (.create (.refused request what)) else none
  | .accept, s => s.backlog.head?.map fun c => .act c .accept
  | .move c a, _ => if a = .accept then none else some (.act c a)

/-- Who waits to be accepted, after an action. -/
def backlogAfter (a : Action) (s : State) : List ℕ :=
  match a with
  | .connect _ => s.backlog ++ [s.connections.length]
  | .accept => s.backlog.tail
  | _ => s.backlog

/-- `_active_connections` after an action. -/
def activeAfter (a : Action) (s : State) : UInt32 :=
  match a with
  | .accept => s.activeConnections + 1
  | .move _ a => if a.ends then s.activeConnections - 1 else s.activeConnections
  | _ => s.activeConnections

/-- `_accept_loop`, the sessions it has spawned, and the wrappers. -/
def step (cap : ℕ) (a : Action) (s : State) : Option State := do
  let ch ← change a s
  let connections ← ch.apply (Connection.step cap) s.connections
  return ⟨connections, backlogAfter a s, activeAfter a s⟩

/-- What a step logs, of the connection it is about. -/
def logged (a : Action) (s : State) : List (ℕ × Event) :=
  (change a s).elim [] fun ch => ch.log Connection.born Connection.does s.connections

/-! ## What a step can do -/

variable {cap : ℕ} {a : Action} {s t : State}

/-- **What a step can do.** -/
inductive Steps (cap : ℕ) (s : State) : Action → State → Prop
  | connect {request} (h : 2 ≤ request.cmdLineArgs.length) : Steps cap s (.connect request)
    ⟨s.connections ++ [.start request], s.backlog ++ [s.connections.length], s.activeConnections⟩
  | refuse {request what} (h : 2 ≤ request.cmdLineArgs.length) : Steps cap s (.refuse request what)
    ⟨s.connections ++ [.refused request what], s.backlog, s.activeConnections⟩
  | accept {c rest x y} (hb : s.backlog = c :: rest) (hx : s.connections[c]? = some x)
    (h : x.step cap .accept = some y) :
    Steps cap s .accept ⟨s.connections.set c y, rest, s.activeConnections + 1⟩
  | move {c a x y} (ha : a ≠ .accept) (hx : s.connections[c]? = some x)
    (h : Connection.step cap a x = some y) : Steps cap s (.move c a)
      ⟨s.connections.set c y, s.backlog,
        if a.ends then s.activeConnections - 1 else s.activeConnections⟩

theorem step_cases (h : step cap a s = some t) : Steps cap s a t := by
  obtain ⟨ch, hch, h⟩ := Option.bind_eq_some_iff.mp h
  obtain ⟨xs, hxs, h⟩ := Option.bind_eq_some_iff.mp h
  obtain rfl := Option.some.inj h
  cases a with
  | connect request =>
    rw [change] at hch
    split_ifs at hch with hargs
    obtain rfl := Option.some.inj hch
    obtain rfl := Option.some.inj hxs
    exact .connect hargs
  | refuse request what =>
    rw [change] at hch
    split_ifs at hch with hargs
    obtain rfl := Option.some.inj hch
    obtain rfl := Option.some.inj hxs
    exact .refuse hargs
  | accept =>
    obtain ⟨c, hc, rfl⟩ := Option.map_eq_some_iff.mp hch
    obtain ⟨x, y, hx, hy, rfl⟩ := Change.apply_act_eq_some.mp hxs
    obtain ⟨rest, hb⟩ := List.head?_eq_some_iff.mp hc
    rw [backlogAfter, hb]
    exact .accept hb hx hy
  | move c a =>
    rw [change] at hch
    split_ifs at hch with ha
    obtain rfl := Option.some.inj hch
    obtain ⟨x, y, hx, hy, rfl⟩ := Change.apply_act_eq_some.mp hxs
    exact .move ha hx hy

/-- A connection that sends no more than a frame holds is as its log says. -/
def Connection.Good (events : List Event) (x : Connection) : Prop :=
  (serializeRequest x.request).length < 2 ^ 32 →
  (∀ resp, .answered resp ∈ events → (serializeResponse resp).length < 2 ^ 32) → x.Served events

theorem Connection.Good.step {x y : Connection} {a : Move} {events : List Event}
    (h : Connection.step cap a x = some y) (hx : x.Good events) : y.Good (events ++ x.does a) := by
  intro hreq hresp
  have heq : y.request = x.request := by
    cases Connection.step_cases h <;> rfl
  rw [heq] at hreq
  exact (hx hreq fun resp hmem => hresp resp (List.mem_append_left _ hmem)).step h hreq hresp

structure Serving (l : List (ℕ × Event)) (s : State) : Prop where
  each : Family.Each Connection.Good l s.connections
  nodup : s.backlog.Nodup
  waiting : ∀ c, c ∈ s.backlog ↔ Family.Has (·.session = .queued) s.connections c
  active : s.activeConnections = UInt32.ofNat (s.connections.countP (·.session.active))

theorem serving_listening : Serving [] .listening where
  each := Family.each_nil
  nodup := List.nodup_nil
  waiting c := by simp [State.listening, Family.Has]
  active := rfl

variable {l : List (ℕ × Event)}

theorem Serving.each_step (hs : Serving l s) (h : step cap a s = some t) :
    Family.Each Connection.Good (l ++ logged a s) t.connections := by
  obtain ⟨ch, hch, h⟩ := Option.bind_eq_some_iff.mp h
  obtain ⟨xs, hxs, h⟩ := Option.bind_eq_some_iff.mp h
  obtain rfl := Option.some.inj h
  rw [logged, hch]
  refine hs.each.apply (fun x hx => ?_) (fun a x y l h hx => hx.step h) hxs
  subst hx
  intro _ _
  cases a with
  | connect request =>
    rw [change] at hch
    split_ifs at hch
    cases hch
    exact Connection.served_start request
  | refuse request what =>
    rw [change] at hch
    split_ifs at hch
    cases hch
    exact Connection.served_refused request what
  | accept =>
    obtain ⟨c, -, hc⟩ := Option.map_eq_some_iff.mp hch
    cases hc
  | move c a =>
    rw [change] at hch
    split_ifs at hch
    cases hch

theorem Serving.nodup_step (hs : Serving l s) (h : IpcSocket.step cap a s = some t) :
    t.backlog.Nodup := by
  cases step_cases h with
  | connect =>
    refine List.nodup_append.mpr ⟨hs.nodup, List.nodup_singleton _, ?_⟩
    rintro c hc _ hlen rfl
    obtain ⟨x, hx, -⟩ := (hs.waiting c).mp hc
    have := (List.getElem?_eq_some_iff.mp hx).1
    rw [List.mem_singleton] at hlen
    omega
  | accept hb => exact (List.nodup_cons.mp (hb ▸ hs.nodup)).2
  | refuse | move => exact hs.nodup

theorem Serving.waiting_step (hs : Serving l s) (h : IpcSocket.step cap a s = some t) (c : ℕ) :
    c ∈ t.backlog ↔ Family.Has (·.session = .queued) t.connections c := by
  cases step_cases h with
  | connect =>
    rw [Family.has_concat, ← hs.waiting, List.mem_append, List.mem_singleton]
    simp [Connection.start]
  | refuse =>
    rw [Family.has_concat, ← hs.waiting]
    simp [Connection.refused]
  | @accept c₀ rest x y hb hx hy =>
    have hcons := List.nodup_cons.mp (hb ▸ hs.nodup)
    have hy' : y.session ≠ .queued := by
      cases Connection.step_cases hy
      simp
    rw [Family.has_set hx, ← hs.waiting, hb, List.mem_cons]
    constructor
    · intro hc
      exact Or.inr ⟨fun heq => hcons.1 (heq ▸ hc), Or.inr hc⟩
    · rintro (⟨-, hq⟩ | ⟨hne, rfl | hc⟩)
      · exact absurd hq hy'
      · exact absurd rfl hne
      · exact hc
  | @move c₀ a x y ha hx hy =>
    rw [Family.has_set hx, hs.waiting, Connection.step_queued hy ha]
    constructor
    · rintro ⟨z, hz, hq⟩
      by_cases hc : c = c₀
      · subst hc
        exact Or.inl ⟨rfl, Option.some.inj (hx.symm.trans hz) ▸ hq⟩
      · exact Or.inr ⟨hc, z, hz, hq⟩
    · rintro (⟨rfl, hq⟩ | ⟨-, hhas⟩)
      · exact ⟨x, hx, hq⟩
      · exact hhas

theorem Serving.active_step (hs : Serving l s) (h : IpcSocket.step cap a s = some t) :
    t.activeConnections = UInt32.ofNat (t.connections.countP (·.session.active)) := by
  have hactive := hs.active
  cases step_cases h with
  | connect => simpa [Connection.start] using hactive
  | refuse => simpa [Connection.refused] using hactive
  | @accept c₀ rest x y hb hx hy =>
    have hcount := Family.countP_set (p := (·.session.active)) hx y
    have hstep := Connection.step_active hy
    simp only [Move.ends, decide_true, Bool.toNat_true, Bool.toNat_false, Nat.add_zero] at hstep
    have hsum : (s.connections.set c₀ y).countP (·.session.active)
        = s.connections.countP (·.session.active) + 1 := by omega
    show s.activeConnections + 1 = _
    rw [hsum, hactive, UInt32.ofNat_add]
    rfl
  | @move c₀ a x y ha hx hy =>
    have hcount := Family.countP_set (p := (·.session.active)) hx y
    have hstep := Connection.step_active hy
    simp only [ha, decide_false, Bool.toNat_false, Nat.add_zero] at hstep
    show (if a.ends then s.activeConnections - 1 else s.activeConnections) = _
    have hsum : s.connections.countP (·.session.active)
        = (s.connections.set c₀ y).countP (·.session.active) + a.ends.toNat := by omega
    rw [hactive, hsum]
    cases a.ends with
    | false => rfl
    | true =>
      rw [Bool.toNat_true, UInt32.ofNat_add, if_pos rfl]
      exact UInt32.add_sub_cancel _ _

theorem Serving.step (hs : Serving l s) (h : IpcSocket.step cap a s = some t) :
    Serving (l ++ logged a s) t :=
  ⟨hs.each_step h, hs.nodup_step h, hs.waiting_step h, hs.active_step h⟩

/-- The handler's answers are logged, and no others. -/
theorem answer_of_logged {c : ℕ} {resp : UnixIpcResponse} (h : (c, .answered resp) ∈ logged a s) :
    a = .move c (.answer resp) := by
  rw [logged] at h
  cases hch : change a s with
  | none =>
    rw [hch] at h
    exact absurd h List.not_mem_nil
  | some ch =>
    rw [hch] at h
    cases ch with
    | create x =>
      obtain ⟨e, he, heq⟩ := List.mem_map.mp h
      rw [Connection.born] at he
      split_ifs at he
      · rw [List.mem_singleton.mp he] at heq
        cases heq
      · exact absurd he List.not_mem_nil
    | act c' b =>
      obtain ⟨e, he, heq⟩ := List.mem_map.mp h
      obtain ⟨rfl, rfl⟩ := Prod.mk.inj heq
      cases hx : s.connections[c']? with
      | none =>
        rw [hx] at he
        exact absurd he List.not_mem_nil
      | some x =>
        rw [hx] at he
        have hb : b = .answer resp := by
          cases b <;> simp_all [Connection.does]
        subst hb
        cases a with
        | move c a =>
          rw [change] at hch
          split_ifs at hch
          cases hch
          rfl
        | accept =>
          obtain ⟨c, -, hc⟩ := Option.map_eq_some_iff.mp hch
          cases hc
        | _ =>
          rw [change] at hch
          split_ifs at hch
          cases hch

theorem Connection.Stage.exchange {failed : Prop} {req : UnixIpcRequest} {w : WrapperPhase}
    {toS toW : Str} {events : List Event} {ses : SessionPhase}
    (h : Connection.Stage failed req w toS toW events ses) :
    ∃ resp, events <+: [.called req, .answered resp] := by
  have hnone : ([] : List Event) <+: [.called req, .answered ⟨0, [], []⟩] := List.nil_prefix
  cases h with
  | queued => exact ⟨_, hnone⟩
  | reading => exact ⟨_, hnone⟩
  | handling => exact ⟨⟨0, [], []⟩, List.prefix_append [Event.called req] _⟩
  | writing => exact ⟨_, List.prefix_rfl⟩
  | closed => exact ⟨_, List.prefix_rfl⟩
  | broken _ hev =>
    exact ⟨⟨0, [], []⟩, hev.trans (List.prefix_append [Event.called req] _)⟩

/-- Who waits to be accepted will be, unless the accept loop is busy. -/
theorem Serving.not_queued (hs : Serving l s)
    (haccept : IpcSocket.step cap .accept s = none) {c : ℕ}
    {x : Connection} (hx : s.connections[c]? = some x) : x.session ≠ .queued := by
  intro hq
  have hmem := (hs.waiting c).mpr ⟨x, hx, hq⟩
  obtain ⟨c₀, rest, hb⟩ := List.exists_cons_of_ne_nil (List.ne_nil_of_mem hmem)
  obtain ⟨⟨req, w, toS, toW, ses⟩, hx₀, rfl⟩ := (hs.waiting c₀).mp (hb ▸ List.mem_cons_self)
  have happly : (Change.act c₀ .accept).apply (Connection.step cap) s.connections = some _ :=
    Change.apply_act_eq_some.mpr ⟨_, _, hx₀, rfl, rfl⟩
  simp [IpcSocket.step, change, hb, happly] at haccept

/-- **Wrappers are answered**, in every run: a connection's handler is called once, with the
wrapper's own request, and answers once; a wrapper that has finished has that answer, unless
something has failed, when it may have its own error instead; and where nothing has failed and
nobody can go on, it has the answer.  The sessions that go on are counted. -/
theorem wrappers_answered {as : List Action} (hcap : 0 < cap)
    (hr : runFrom (step cap) as .listening = some s)
    (hreq : ∀ x ∈ s.connections, (serializeRequest x.request).length < 2 ^ 32)
    (hresp : ∀ c resp, .move c (.answer resp) ∈ as → (serializeResponse resp).length < 2 ^ 32) :
    s.activeConnections = UInt32.ofNat (s.connections.countP (·.session.active))
      ∧ ∀ c x, s.connections[c]? = some x →
        let events := Family.logOf c (history (step cap) logged as .listening)
        (∃ resp, Connection.exchange events <+: [.called x.request, .answered resp])
          ∧ (∀ resp, x.wrapper = .finished resp →
            .answered resp ∈ events ∨ .failed ∈ events ∧ ∃ what, resp = errorResponse what)
          ∧ (.failed ∉ events → step cap .accept s = none →
            (∀ a, a.Works → step cap (.move c a) s = none) →
            ∃ resp, .answered resp ∈ events ∧ x.wrapper = .finished resp
              ∧ x.session = .closed) := by
  have hserving : Serving (history (step cap) logged as .listening) s :=
    history_invariant (fun _ _ _ _ h hs => hs.step h) hr serving_listening
  refine ⟨hserving.active, fun c x hx => ?_⟩
  have hfits : ∀ resp, .answered resp ∈ Family.logOf c (history (step cap) logged as .listening) →
      (serializeResponse resp).length < 2 ^ 32 := by
    intro resp hmem
    obtain ⟨a, ha, t, hlog⟩ := exists_of_mem_history (Family.mem_logOf.mp hmem)
    exact hresp c resp (answer_of_logged hlog ▸ ha)
  have hlen := hreq x (List.mem_of_getElem? hx)
  have hserved := hserving.each.each c x hx hlen hfits
  refine ⟨hserved.stage.exchange, hserved.result, fun hfailed haccept hstuck => ?_⟩
  have hmem : ∀ resp, .answered resp ∈ Connection.exchange
      (Family.logOf c (history (step cap) logged as .listening)) →
      .answered resp ∈ Family.logOf c (history (step cap) logged as .listening) :=
    fun resp h => (List.mem_filter.mp h).1
  rcases hserved.stage.progress hfailed hlen (fun resp h => hfits resp (hmem resp h)) hcap with
    hq | ⟨a, hworks, hgo⟩ | ⟨resp, hans, hw, hclosed⟩
  · exact absurd hq (hserving.not_queued haccept hx)
  · obtain ⟨y, hy⟩ := Option.isSome_iff_exists.mp hgo
    have hne : a ≠ .accept := by
      rintro rfl
      exact hworks
    have happly := Change.apply_act_eq_some.mpr ⟨x, y, hx, hy, rfl⟩
    have hnone := hstuck a hworks
    simp [step, change, hne, happly] at hnone
  · exact ⟨resp, hmem resp hans, hw, hclosed⟩

/-- Two compiler runs. -/
def compileOf (src : Str) : UnixIpcRequest := ⟨str "/", [str "gcc", src]⟩

/-- What the handler answers to the first. -/
def warned : UnixIpcResponse := ⟨0, [], str "w"⟩

/-- One wrapper is answered, in pieces, while another one fails. -/
def answeredOnce : List Action :=
  [.connect (compileOf (str "a")), .connect (compileOf (str "b")), .move 0 (.write 20), .accept,
    .move 0 (.receive 4), .move 1 (.fail (str "connection reset")), .move 0 (.write 5),
    .move 0 (.receive 21), .move 0 .call, .move 0 .await, .move 0 (.answer warned),
    .move 0 (.send 17), .accept, .move 0 (.read 4), .move 0 .close, .move 0 (.read 13),
    .move 0 .finish]

/-- The first wrapper has its answer, and one session goes on. -/
theorem answeredOnce_answered :
    ∃ s, runFrom (step 24) answeredOnce .listening = some s ∧ s.activeConnections = 1
      ∧ ∀ x, s.connections[0]? = some x → x.wrapper = .finished warned
        ∧ .answered warned ∈ Family.logOf 0 (history (step 24) logged answeredOnce .listening) := by
  have hrun : (runFrom (step 24) answeredOnce .listening).map (fun s => decide
      ((∀ x ∈ s.connections, (serializeRequest x.request).length < 2 ^ 32)
        ∧ s.connections.countP (·.session.active) = 1
        ∧ s.connections[0]?.map (·.wrapper) = some (.finished warned)
        ∧ .failed ∉ Family.logOf 0 (history (step 24) logged answeredOnce .listening)))
      = some true := by
    decide +kernel
  obtain ⟨s, hr, hs⟩ := Option.map_eq_some_iff.mp hrun
  obtain ⟨hreq, hcount, hwrapper, hfailed⟩ := of_decide_eq_true hs
  have hresp : ∀ c resp, .move c (.answer resp) ∈ answeredOnce →
      (serializeResponse resp).length < 2 ^ 32 := by
    intro c resp h
    obtain ⟨rfl, rfl⟩ : c = 0 ∧ resp = warned := by simpa [answeredOnce] using h
    decide +kernel
  obtain ⟨hactive, hserved⟩ := wrappers_answered (by decide) hr hreq hresp
  refine ⟨s, hr, ?_, fun x hx => ?_⟩
  · rw [hactive, hcount]
    rfl
  · rw [hx] at hwrapper
    have hw := Option.some.inj hwrapper
    obtain ⟨-, hresult, -⟩ := hserved 0 x hx
    exact ⟨hw, (hresult warned hw).resolve_right fun h => hfailed h.1⟩

end DistBuild.IpcSocket
