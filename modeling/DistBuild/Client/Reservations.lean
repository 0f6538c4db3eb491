import DistBuild.Machinery.Posix
import DistBuild.Machinery.Run

/-!
# Client/Reservations — a slot that is picked, and the next advertisement

    server   pool − running ──advertise──▸ in flight ──receive──▸ _server_nodes[uuid]
    client   pick: _server_nodes[uuid].available_jobs − 1, and a session
    server   the session uploads its files ─▸ waiting ─▸ running ─▸ done

`pick_compilation_server` reserves a slot by counting the advertised number down; the next
advertisement overwrites it with what the server counts, and the server does not count a session
before its job runs.  As long as what is received offers no slot of an open session, no more
sessions are open than the pool has threads; once something else is received, the client can pick
more (`reservations_kept`).
-/

namespace DistBuild

namespace Reserve

/-! ## The listener -/

structure ResourceAdvMessage where
  serverUuid : Str
  serverHost : Str
  serverPort : UInt32
  availableJobs : UInt32
deriving DecidableEq, Repr

structure ServerInfo where
  serverUuid : Str
  serverIp : Str
  serverPort : UInt32
  availableJobs : UInt32
  lastSeen : ℕ
deriving DecidableEq, Repr

/-- `_server_nodes`. -/
abbrev ServerNodes := Str → Option ServerInfo

/-- The body of `_receive_loop`, at the time `now` (in milliseconds). -/
def receiveAdv (nodes : ServerNodes) (msg : ResourceAdvMessage) (now : ℕ) : ServerNodes :=
  Function.update nodes msg.serverUuid
    (some ⟨msg.serverUuid, msg.serverHost, msg.serverPort, msg.availableJobs, now⟩)

/-- `pick_compilation_server`, where the node of `uuid` is the candidate it chooses. -/
def pickCompilationServer (nodes : ServerNodes) (uuid : Str) : Option (ServerInfo × ServerNodes) :=
  (nodes uuid).bind fun info =>
    if 0 < info.availableJobs then
      some ({ info with availableJobs := info.availableJobs - 1 },
        Function.update nodes uuid (some { info with availableJobs := info.availableJobs - 1 }))
    else none

/-- The body of `_cleanup_loop`: nodes that were not heard of for more than 4 s are erased. -/
def cleanup (nodes : ServerNodes) (now : ℕ) : ServerNodes :=
  fun uuid => (nodes uuid).filter fun info => (now - info.lastSeen) / 1000 ≤ 4

/-! ## A client and a server -/

structure Server where
  uuid : Str
  host : Str
  port : UInt32
  threadPoolSz : ℕ
deriving DecidableEq, Repr

inductive JobPhase
  | waiting
  | running
  | done
deriving DecidableEq, Repr

/-- A session the client has picked a server for; its job waits until all its files are there. -/
structure PickedSession where
  serverUuid : Str
  job : JobPhase
  ended : Bool
deriving DecidableEq, Repr

/-- The client's nodes, the advertisements in flight, and the sessions. -/
structure State where
  serverNodes : ServerNodes
  inFlight : List ResourceAdvMessage
  sessions : List PickedSession

def State.start : State where
  serverNodes := fun _ => none
  inFlight := []
  sessions := []

variable (server : Server)

/-- The compilations the server runs. -/
def State.running (s : State) : ℕ :=
  s.sessions.countP fun p => p.serverUuid = server.uuid ∧ p.job = .running

/-- The client has picked the server for the session, and it has not ended. -/
def PickedSession.isOpen (session : PickedSession) : Bool :=
  session.serverUuid = server.uuid ∧ session.ended = false

def State.openSessions (s : State) : ℕ := s.sessions.countP (PickedSession.isOpen server)

inductive Action
  /-- The server sends what it has. -/
  | advertise
  /-- The `i`-th advertisement in flight arrives; others may be late, or lost. -/
  | receive (i now : ℕ)
  /-- An advertisement of another server arrives. -/
  | hear (msg : ResourceAdvMessage) (now : ℕ)
  | pick (uuid : Str)
  | startJob (k : ℕ)
  | endJob (k : ℕ)
  | endSession (k : ℕ)
  | cleanup (now : ℕ)
deriving DecidableEq, Repr

/-- The `k`-th session changes, where `p` says that it can. -/
def State.update (s : State) (k : ℕ) (p : PickedSession → Bool)
    (f : PickedSession → PickedSession) : Option State :=
  (s.sessions[k]?.filter p).map fun session => { s with sessions := s.sessions.set k (f session) }

def step : Action → State → Option State
  | .advertise, s => some { s with
      inFlight := s.inFlight ++ [⟨server.uuid, server.host, server.port,
        UInt32.ofNat (server.threadPoolSz - s.running server)⟩] }
  | .receive i now, s => s.inFlight[i]?.map fun msg => { s with
      serverNodes := receiveAdv s.serverNodes msg now
      inFlight := s.inFlight.eraseIdx i }
  | .hear msg now, s =>
    if msg.serverUuid = server.uuid then none
    else some { s with serverNodes := receiveAdv s.serverNodes msg now }
  | .pick uuid, s => (pickCompilationServer s.serverNodes uuid).map fun r => { s with
      serverNodes := r.2
      sessions := s.sessions ++ [⟨uuid, .waiting, false⟩] }
  | .startJob k, s =>
    if s.running server < server.threadPoolSz then
      s.update k (fun p => p.serverUuid = server.uuid ∧ p.job = .waiting)
        fun p => { p with job := .running }
    else none
  | .endJob k, s => s.update k (fun p => p.job = .running) fun p => { p with job := .done }
  | .endSession k, s => s.update k (fun p => p.ended = false) fun p => { p with ended := true }
  | .cleanup now, s => some { s with serverNodes := cleanup s.serverNodes now }

/-- What is received offers no slot of an open session. -/
def Fits : Action → State → Prop
  | .receive i _, s => ∀ msg ∈ s.inFlight[i]?, msg.serverUuid = server.uuid →
      msg.availableJobs.toNat + s.openSessions server ≤ server.threadPoolSz
  | _, _ => True

/-! ## What a step does to the open sessions -/

variable {server} {s t : State}

/-- Changing a session opens none. -/
theorem update_openSessions {k : ℕ} {p : PickedSession → Bool} {f : PickedSession → PickedSession}
    (hf : ∀ session, (f session).isOpen server = true → session.isOpen server = true)
    (h : s.update k p f = some t) :
    t.serverNodes = s.serverNodes ∧ t.openSessions server ≤ s.openSessions server := by
  obtain ⟨session, hsession, rfl⟩ := Option.map_eq_some_iff.mp h
  obtain ⟨hk, hget⟩ := List.getElem?_eq_some_iff.mp (Option.filter_eq_some_iff.mp hsession).1
  refine ⟨rfl, ?_⟩
  unfold State.openSessions
  rw [List.countP_set hk, hget]
  cases hopen : session.isOpen server with
  | false =>
    rw [Bool.eq_false_of_not_eq_true fun hnew => Bool.eq_false_iff.mp hopen (hf session hnew)]
    exact le_rfl
  | true =>
    have hpos : 0 < s.sessions.countP (PickedSession.isOpen server) :=
      List.countP_pos_iff.mpr ⟨session, hget ▸ List.getElem_mem hk, hopen⟩
    simp only [if_true]
    split <;> omega

theorem receiveAdv_self (nodes : ServerNodes) (msg : ResourceAdvMessage) (now : ℕ) :
    receiveAdv nodes msg now msg.serverUuid = some ⟨msg.serverUuid, msg.serverHost, msg.serverPort,
      msg.availableJobs, now⟩ :=
  Function.update_self ..

theorem receiveAdv_of_ne (nodes : ServerNodes) {msg : ResourceAdvMessage} {uuid : Str}
    (h : msg.serverUuid ≠ uuid) (now : ℕ) : receiveAdv nodes msg now uuid = nodes uuid :=
  Function.update_of_ne h.symm ..

/-- What a pick takes is a slot that is offered. -/
theorem pickCompilationServer_eq_some {nodes : ServerNodes} {uuid : Str}
    {r : ServerInfo × ServerNodes} (h : pickCompilationServer nodes uuid = some r) :
    ∃ info, nodes uuid = some info ∧ 0 < info.availableJobs
      ∧ r.2 = Function.update nodes uuid
        (some { info with availableJobs := info.availableJobs - 1 }) := by
  obtain ⟨info, hinfo, hr⟩ := Option.bind_eq_some_iff.mp h
  split_ifs at hr with hpos
  cases hr
  exact ⟨info, hinfo, hpos, rfl⟩

theorem toNat_sub_one {n : UInt32} (h : 0 < n) : (n - 1).toNat = n.toNat - 1 := by
  have hlt : 0 < n.toNat := UInt32.lt_iff_toNat_lt.mp h
  exact UInt32.toNat_sub_of_le n 1 (UInt32.le_iff_toNat_le.mpr hlt)

/-- A pick of the server opens a session. -/
theorem openSessions_pick {nodes : ServerNodes} {uuid : Str} :
    State.openSessions server
        { s with serverNodes := nodes, sessions := s.sessions ++ [⟨uuid, .waiting, false⟩] }
      = s.openSessions server + if uuid = server.uuid then 1 else 0 := by
  unfold State.openSessions
  rw [List.countP_append, List.countP_singleton]
  simp [PickedSession.isOpen]

/-! ## The invariant -/

/-- **The slots the client has, and the sessions it has open, fit into the pool.** -/
structure Reserved (server : Server) (s : State) : Prop where
  sessions : s.openSessions server ≤ server.threadPoolSz
  slots : ∀ info, s.serverNodes server.uuid = some info →
    info.availableJobs.toNat + s.openSessions server ≤ server.threadPoolSz

theorem Reserved.of_update {k : ℕ} {p : PickedSession → Bool} {f : PickedSession → PickedSession}
    (hs : Reserved server s) (h : s.update k p f = some t)
    (hf : ∀ session, (f session).isOpen server = true → session.isOpen server = true) :
    Reserved server t := by
  obtain ⟨hnodes, hle⟩ := update_openSessions hf h
  refine ⟨hle.trans hs.sessions, fun info hinfo => ?_⟩
  have := hs.slots info (hnodes ▸ hinfo)
  omega

/-- A pick takes a slot for the session it opens. -/
theorem Reserved.pick (hs : Reserved server s) {uuid : Str} {r : ServerInfo × ServerNodes}
    (h : pickCompilationServer s.serverNodes uuid = some r) :
    Reserved server
      { s with serverNodes := r.2, sessions := s.sessions ++ [⟨uuid, .waiting, false⟩] } := by
  obtain ⟨node, hnode, hpos, hnodes⟩ := pickCompilationServer_eq_some h
  by_cases huuid : uuid = server.uuid
  · subst huuid
    have hlt : 0 < node.availableJobs.toNat := UInt32.lt_iff_toNat_lt.mp hpos
    have hslots := hs.slots node hnode
    refine ⟨?_, fun info hinfo => ?_⟩
    · rw [openSessions_pick, if_pos rfl]
      omega
    · rw [openSessions_pick, if_pos rfl]
      simp only [hnodes, Function.update_self, Option.some.injEq] at hinfo
      rw [← hinfo]
      show (node.availableJobs - 1).toNat + _ ≤ _
      rw [toNat_sub_one hpos]
      omega
  · refine ⟨?_, fun info hinfo => ?_⟩
    · rw [openSessions_pick, if_neg huuid]
      exact hs.sessions
    · rw [openSessions_pick, if_neg huuid]
      refine hs.slots info ?_
      simpa only [hnodes, Function.update_of_ne (Ne.symm huuid)] using hinfo

/-- **One step keeps the slots and the open sessions inside the pool**, if what it receives fits. -/
theorem Reserved.step {a : Action} (hfits : Fits server a s) (h : Reserve.step server a s = some t)
    (hs : Reserved server s) : Reserved server t := by
  cases a with
  | advertise =>
    cases h
    exact ⟨hs.sessions, hs.slots⟩
  | receive i now =>
    obtain ⟨msg, hmsg, rfl⟩ := Option.map_eq_some_iff.mp h
    refine ⟨hs.sessions, fun info hinfo => ?_⟩
    by_cases huuid : msg.serverUuid = server.uuid
    · have hnode := receiveAdv_self s.serverNodes msg now
      rw [huuid] at hnode
      obtain rfl := Option.some.inj (hnode.symm.trans hinfo)
      exact hfits msg hmsg huuid
    · exact hs.slots info ((receiveAdv_of_ne s.serverNodes huuid now).symm.trans hinfo)
  | hear msg now =>
    rw [Reserve.step] at h
    split_ifs at h with huuid
    cases h
    refine ⟨hs.sessions, fun info hinfo => hs.slots info ?_⟩
    exact (receiveAdv_of_ne s.serverNodes huuid now).symm.trans hinfo
  | pick uuid =>
    obtain ⟨r, hr, rfl⟩ := Option.map_eq_some_iff.mp h
    exact hs.pick hr
  | startJob k =>
    rw [Reserve.step] at h
    split_ifs at h
    exact hs.of_update h fun _ hopen => hopen
  | endJob k => exact hs.of_update h fun _ hopen => hopen
  | endSession k =>
    refine hs.of_update h fun session hopen => ?_
    simp [PickedSession.isOpen] at hopen
  | cleanup now =>
    cases h
    exact ⟨hs.sessions, fun info hinfo => hs.slots info (Option.filter_eq_some_iff.mp hinfo).1⟩

theorem Reserved.start (server : Server) : Reserved server State.start where
  sessions := Nat.zero_le _
  slots := fun _ hinfo => by cases hinfo

/-! ## A slot that is offered twice -/

/-- **Slots that do not fit can be picked**, one after the other, until more sessions are open than
the pool has threads. -/
theorem exists_overcommitted {info : ServerInfo} (hinfo : s.serverNodes server.uuid = some info)
    (hover : server.threadPoolSz < info.availableJobs.toNat + s.openSessions server) :
    ∃ as t, runFrom (Reserve.step server) as s = some t
      ∧ server.threadPoolSz < t.openSessions server := by
  induction hn : info.availableJobs.toNat generalizing s info with
  | zero => exact ⟨[], s, rfl, by omega⟩
  | succ n ih =>
    have hpos : 0 < info.availableJobs :=
      UInt32.lt_iff_toNat_lt.mpr (by rw [hn]; exact Nat.succ_pos n)
    set next : State := { s with
      serverNodes := Function.update s.serverNodes server.uuid
        (some { info with availableJobs := info.availableJobs - 1 })
      sessions := s.sessions ++ [⟨server.uuid, .waiting, false⟩] } with hnext
    have hstep : Reserve.step server (.pick server.uuid) s = some next := by
      rw [Reserve.step, pickCompilationServer, hinfo, Option.bind_some, if_pos hpos]
      rfl
    have hopen : next.openSessions server = s.openSessions server + 1 := by
      rw [hnext, openSessions_pick, if_pos rfl]
    have hjobs : (info.availableJobs - 1).toNat = n := by
      rw [toNat_sub_one hpos, hn, Nat.add_sub_cancel]
    have hslot : next.serverNodes server.uuid
        = some { info with availableJobs := info.availableJobs - 1 } := Function.update_self ..
    obtain ⟨as, t, hrun, hlt⟩ := ih hslot (by rw [hopen, hjobs]; omega) hjobs
    exact ⟨.pick server.uuid :: as, t, runFrom_cons.mpr ⟨next, hstep, hrun⟩, hlt⟩

/-- **Reservations are kept** in every run that receives only what fits: no more sessions are open
than the pool has threads.  Whenever something else is received, picks can follow that open more. -/
theorem reservations_kept (server : Server) :
    (∀ as s, Meets (Reserve.step server) (Fits server) as State.start →
        runFrom (Reserve.step server) as State.start = some s →
        s.openSessions server ≤ server.threadPoolSz)
      ∧ ∀ i now s t, Reserve.step server (.receive i now) s = some t →
        ¬ Fits server (.receive i now) s →
        ∃ as u, runFrom (Reserve.step server) as t = some u
          ∧ server.threadPoolSz < u.openSessions server := by
  constructor
  · intro as s hm hr
    exact (hm.invariant (fun _ _ _ hg hs hc => Reserved.step hg hs hc) hr (.start server)).sessions
  · intro i now s t hs hnot
    obtain ⟨msg, hmsg, rfl⟩ := Option.map_eq_some_iff.mp hs
    have hover : msg.serverUuid = server.uuid
        ∧ server.threadPoolSz < msg.availableJobs.toNat + s.openSessions server := by
      by_contra hfits
      refine hnot fun msg' hmsg' huuid => ?_
      obtain rfl := Option.some.inj (hmsg.symm.trans hmsg')
      exact Nat.le_of_not_lt fun hlt => hfits ⟨huuid, hlt⟩
    have hslot : receiveAdv s.serverNodes msg now server.uuid = some ⟨msg.serverUuid,
        msg.serverHost, msg.serverPort, msg.availableJobs, now⟩ := by
      rw [← hover.1]
      exact receiveAdv_self s.serverNodes msg now
    exact exists_overcommitted hslot hover.2

/-- A server with one thread, advertised before each of two picks. -/
theorem slot_picked_twice :
    ¬ ∀ (server : Server) (as : List Action) (s : State),
      runFrom (Reserve.step server) as State.start = some s →
      s.openSessions server ≤ server.threadPoolSz := by
  intro h
  have hrun : (runFrom (Reserve.step ⟨str "u", str "h", 5000, 1⟩)
      [.advertise, .receive 0 0, .pick (str "u"), .advertise, .receive 0 100, .pick (str "u")]
      State.start).map (State.openSessions ⟨str "u", str "h", 5000, 1⟩) = some 2 := by
    decide +kernel
  obtain ⟨s, hs, hopen⟩ := Option.map_eq_some_iff.mp hrun
  have hle := h _ _ s hs
  rw [hopen] at hle
  exact absurd hle (by decide)

end Reserve

end DistBuild
