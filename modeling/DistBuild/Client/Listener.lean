import DistBuild.Client.Reservations
import DistBuild.Machinery.History
import DistBuild.Machinery.Tables
import DistBuild.Transport.Trip

/-!
# Client/Listener — which servers a client knows of, and how recently it heard of them

    datagram ──2048 bytes──▸ ParseFromArray ──▸ _server_nodes[uuid]          receive
    timer, 2 s after the last cleanup ──▸ nodes older than 4 s go            cleanup
    _handle_ipc_request ──▸ a node with a free slot, one slot less           pick

The two loops share a strand, so their clock readings come in order; picks come from any thread.
What a node holds is the last advertisement of its server less the picks since (`listener_table`);
with a timer that is at most `ε` late, a server is listed while it was heard of in the last five
seconds, and not after seven (`listed_window`).
-/

namespace DistBuild

namespace Wire

def resourceAdvMessage (rt : WireRuntime) : MessageType Reserve.ResourceAdvMessage where
  fields := [
    stringField rt 1 (·.serverUuid) fun s m => { m with serverUuid := s },
    stringField rt 2 (·.serverHost) fun s m => { m with serverHost := s },
    uint32Field 3 (·.serverPort) fun v m => { m with serverPort := v },
    uint32Field 4 (·.availableJobs) fun v m => { m with availableJobs := v }]
  empty := ⟨[], [], 0, 0⟩

end Wire

namespace Listener

open Wire Reserve

/-- The size of the buffer `_receive_loop` receives into. -/
abbrev bufferSize : ℕ := 2048

variable (rt : WireRuntime)

/-- What `_receive_loop` makes of a datagram, of which it sees what fits its buffer. -/
def parseDatagram (bytes : Str) : Option ResourceAdvMessage :=
  match (resourceAdvMessage rt).read rt (bytes.take bufferSize) with
  | .complete m => some m
  | .invalid _ => none
  | .malformed => none

/-- `_cleanup_timer` expires at `timer`; `clock` is when the strand last looked at the clock. -/
structure State where
  serverNodes : ServerNodes
  clock : ℕ
  timer : ℕ

/-- The loops are started when the clock shows `now`. -/
def State.start (now : ℕ) : State where
  serverNodes := fun _ => none
  clock := now
  timer := now + 2000

inductive Action
  | receive (bytes : Str) (now : ℕ)
  | cleanup (now : ℕ)
  /-- `pick_compilation_server` chooses the candidate `uuid`. -/
  | pick (uuid : Str)
deriving DecidableEq, Repr

/-- One round of a loop, or one pick; the clock does not go back. -/
def step : Action → State → Option State
  | .receive bytes now, s =>
    if s.clock ≤ now then
      some { s with
        serverNodes := (parseDatagram rt bytes).elim s.serverNodes fun m =>
          receiveAdv s.serverNodes m now
        clock := now }
    else none
  | .cleanup now, s =>
    if s.clock ≤ now ∧ s.timer ≤ now then
      some { s with
        serverNodes := Reserve.cleanup s.serverNodes now
        clock := now
        timer := now + 2000 }
    else none
  | .pick uuid, s =>
    (pickCompilationServer s.serverNodes uuid).map fun r => { s with serverNodes := r.2 }

/-- The server an action brings news of. -/
def Action.heardOf : Action → Option Str
  | .receive bytes _ => (parseDatagram rt bytes).map (·.serverUuid)
  | _ => none

/-- How often the server was picked. -/
def picks (uuid : Str) (as : List Action) : ℕ := as.count (.pick uuid)

/-- What `m`, received at `now`, leaves in the table. -/
def nodeOf (m : ResourceAdvMessage) (now : ℕ) : ServerInfo :=
  ⟨m.serverUuid, m.serverHost, m.serverPort, m.availableJobs, now⟩

/-! ## What a server broadcasts -/

/-- What `ResourceBroadcaster` sends of itself. -/
structure Broadcaster where
  serverUuid : Str
  serverIp : Str
  serverPort : UInt16
  availableJobs : ℕ

/-- The message of one round of `_run`; the number of jobs is cut to 32 bits. -/
def Broadcaster.advertisement (b : Broadcaster) : ResourceAdvMessage :=
  ⟨b.serverUuid, b.serverIp, b.serverPort.toUInt32, UInt32.ofNat b.availableJobs⟩

def Broadcaster.payload (b : Broadcaster) : Str :=
  serializeToString rt (resourceAdvMessage rt) b.advertisement

variable {rt} in
theorem read_resourceAdv {m : ResourceAdvMessage}
    (h : (resourceAdvMessage rt).byteSize rt m ≤ maxSize) :
    (resourceAdvMessage rt).read rt ((resourceAdvMessage rt).write rt m)
      = (rt.checked m.serverUuid ⟨m.serverUuid, [], 0, 0⟩).andThen fun _ =>
        (rt.checked m.serverHost ⟨m.serverUuid, m.serverHost, 0, 0⟩).andThen fun _ =>
        .complete m := by
  refine (MessageType.mergeFrom_write (MessageType.honest h) _).trans ?_
  show replay [_, _, _, _] m ⟨[], [], 0, 0⟩ = _
  rw [replay_stringField, replay_stringField, replay_uint32Field, replay_uint32Field]
  all_goals rfl

variable {rt} in
/-- **A server's datagram is read as it was sent**, if it fits the buffer and its strings are
UTF-8. -/
theorem parseDatagram_payload {b : Broadcaster}
    (h : (resourceAdvMessage rt).byteSize rt b.advertisement ≤ bufferSize)
    (huuid : rt.verifyUtf8 b.serverUuid = true) (hip : rt.verifyUtf8 b.serverIp = true) :
    parseDatagram rt (b.payload rt) = some b.advertisement := by
  have hmax : (resourceAdvMessage rt).byteSize rt b.advertisement ≤ maxSize :=
    h.trans (by decide)
  have hlen : (b.payload rt).length ≤ bufferSize := by
    rw [Broadcaster.payload, serializeToString_eq hmax,
      MessageType.length_write (MessageType.honest hmax)]
    exact h
  rw [parseDatagram, List.take_of_length_le hlen, Broadcaster.payload, serializeToString_eq hmax,
    read_resourceAdv hmax]
  simp [WireRuntime.checked, Broadcaster.advertisement, huuid, hip]

/-! ## The table as puts and changes -/

/-- An action, as what it does to a table. -/
def Action.event : Action → Tables.Event Str ServerInfo
  | .receive bytes now =>
    match parseDatagram rt bytes with
    | some m => .put m.serverUuid (nodeOf m now)
    | none => .act fun _ info => some info
  | .cleanup now => .act fun _ info => if (now - info.lastSeen) / 1000 ≤ 4 then some info else none
  | .pick uuid => .act fun k info =>
    if k = uuid then
      if 0 < info.availableJobs then some { info with availableJobs := info.availableJobs - 1 }
      else none
    else some info

variable {rt} {s t : State}

theorem event_receive {bytes : Str} {m : ResourceAdvMessage} (h : parseDatagram rt bytes = some m)
    (now : ℕ) : (Action.receive bytes now).event rt = .put m.serverUuid (nodeOf m now) := by
  rw [Action.event, h]

theorem event_receive_none {bytes : Str} (h : parseDatagram rt bytes = none) (now : ℕ) :
    (Action.receive bytes now).event rt = .act fun _ info => some info := by
  rw [Action.event, h]

/-- **An action does to the nodes what its event does.** -/
theorem step_serverNodes {a : Action} (h : step rt a s = some t) :
    t.serverNodes = (a.event rt).apply s.serverNodes := by
  cases a with
  | receive bytes now =>
    rw [step] at h
    split_ifs at h
    obtain rfl := Option.some.inj h
    cases hm : parseDatagram rt bytes with
    | none =>
      rw [event_receive_none hm]
      funext k
      exact (Option.bind_fun_some _).symm
    | some m =>
      rw [event_receive hm]
      rfl
  | cleanup now =>
    rw [step] at h
    split_ifs at h
    obtain rfl := Option.some.inj h
    funext k
    show (s.serverNodes k).filter _ = (s.serverNodes k).bind _
    cases s.serverNodes k with
    | none => rfl
    | some info => simp [Option.filter]
  | pick uuid =>
    obtain ⟨r, hr, rfl⟩ := Option.map_eq_some_iff.mp h
    obtain ⟨info, hinfo, hpos, hnodes⟩ := pickCompilationServer_eq_some hr
    funext k
    show r.2 k = (s.serverNodes k).bind _
    rw [hnodes]
    by_cases hk : k = uuid
    · rw [hk, Function.update_self, hinfo]
      simp [hpos]
    · rw [Function.update_of_ne hk]
      simp [hk]

/-- The nodes after a run are those its actions put there. -/
theorem serverNodes_run {now : ℕ} {as : List Action}
    (hr : runFrom (step rt) as (State.start now) = some s) :
    s.serverNodes = Tables.run (as.map (Action.event rt)) := by
  refine labels_invariant (I := fun as s => s.serverNodes = Tables.run (as.map (Action.event rt)))
    (fun a s t as hstep hs => ?_) hr rfl
  rw [List.map_append, List.map_singleton, Tables.run_concat, ← hs]
  exact step_serverNodes hstep

/-! ## What survives -/

/-- No news of the server came. -/
def Silent (rt : WireRuntime) (uuid : Str) (as : List Action) : Prop :=
  ∀ a ∈ as, a.heardOf rt ≠ some uuid

/-- No cleanup found the time `now` more than four seconds ago. -/
def Spared (now : ℕ) (as : List Action) : Prop :=
  ∀ t, .cleanup t ∈ as → (t - now) / 1000 ≤ 4

/-- News of a server is what is put there. -/
theorem heardOf_eq_some {a : Action} {uuid : Str} :
    a.heardOf rt = some uuid ↔ ∃ info, a.event rt = .put uuid info := by
  cases a with
  | receive bytes now =>
    rw [Action.heardOf]
    cases hm : parseDatagram rt bytes with
    | none => simp [event_receive_none hm]
    | some m =>
      rw [event_receive hm]
      simp
  | cleanup now => simp [Action.heardOf, Action.event]
  | pick k => simp [Action.heardOf, Action.event]

theorem silent_iff {uuid : Str} {as : List Action} :
    Silent rt uuid as ↔ Tables.Spares uuid (as.map (Action.event rt)) := by
  constructor
  · intro h info hinfo
    obtain ⟨a, ha, hput⟩ := List.mem_map.mp hinfo
    exact h a ha (heardOf_eq_some.mpr ⟨info, hput⟩)
  · intro h a ha hheard
    obtain ⟨info, hput⟩ := heardOf_eq_some.mp hheard
    exact h info (List.mem_map.mpr ⟨a, ha, hput⟩)

/-- **A node that is not heard of again** loses a slot with each pick, and is gone with the first
cleanup that finds it old. -/
theorem survives_iff {uuid : Str} {as : List Action} {info info' : ServerInfo}
    (hsilent : Silent rt uuid as) :
    Tables.survives uuid (as.map (Action.event rt)) info = some info'
      ↔ Spared info.lastSeen as ∧ picks uuid as ≤ info.availableJobs.toNat
        ∧ info' = { info with
          availableJobs := info.availableJobs - UInt32.ofNat (picks uuid as) } := by
  induction as generalizing info with
  | nil => simp [Spared, picks, Tables.survives, eq_comm]
  | cons a as ih =>
    obtain ⟨-, has⟩ := List.forall_mem_cons.mp hsilent
    cases a with
    | receive bytes now =>
      have hrest : Tables.survives uuid ((.receive bytes now :: as).map (Action.event rt)) info
          = Tables.survives uuid (as.map (Action.event rt)) info := by
        rw [List.map_cons]
        cases hm : parseDatagram rt bytes with
        | none =>
          rw [event_receive_none hm]
          rfl
        | some m =>
          rw [event_receive hm]
          rfl
      rw [hrest, ih has]
      simp [Spared, picks]
    | cleanup now =>
      by_cases hold : (now - info.lastSeen) / 1000 ≤ 4
      · have hrest : Tables.survives uuid ((.cleanup now :: as).map (Action.event rt)) info
            = Tables.survives uuid (as.map (Action.event rt)) info := by
          simp [Action.event, Tables.survives, hold]
        rw [hrest, ih has]
        simp [Spared, picks, hold]
      · have hgone :
            Tables.survives uuid ((.cleanup now :: as).map (Action.event rt)) info = none := by
          simp [Action.event, Tables.survives, hold]
        rw [hgone]
        exact iff_of_false (Option.some_ne_none _).symm fun h => hold (h.1 now List.mem_cons_self)
    | pick k =>
      by_cases hk : k = uuid
      · subst hk
        have hcount : picks k (.pick k :: as) = picks k as + 1 := List.count_cons_self
        by_cases hpos : 0 < info.availableJobs
        · have hrest : Tables.survives k ((.pick k :: as).map (Action.event rt)) info
              = Tables.survives k (as.map (Action.event rt))
                { info with availableJobs := info.availableJobs - 1 } := by
            simp [Action.event, Tables.survives, hpos]
          have hjobs := toNat_sub_one hpos
          have hlt : 0 < info.availableJobs.toNat := UInt32.lt_iff_toNat_lt.mp hpos
          have hsub : info.availableJobs - 1 - UInt32.ofNat (picks k as)
              = info.availableJobs - UInt32.ofNat (picks k as + 1) := by
            rw [UInt32.ofNat_add]
            grind
          rw [hrest, ih has, hcount, ← hsub]
          simp only [hjobs]
          have hspared : Spared info.lastSeen (.pick k :: as) ↔ Spared info.lastSeen as := by
            simp [Spared]
          rw [hspared]
          have hle : picks k as ≤ info.availableJobs.toNat - 1
              ↔ picks k as + 1 ≤ info.availableJobs.toNat := by omega
          rw [hle]
        · have hgone : Tables.survives k ((.pick k :: as).map (Action.event rt)) info = none := by
            simp [Action.event, Tables.survives, hpos]
          have hzero : info.availableJobs.toNat = 0 := by
            by_contra h
            exact hpos (UInt32.lt_iff_toNat_lt.mpr (Nat.pos_of_ne_zero h))
          rw [hgone, hcount, hzero]
          exact iff_of_false (Option.some_ne_none _).symm fun h =>
            absurd h.2.1 (Nat.not_succ_le_zero _)
      · have hrest : Tables.survives uuid ((.pick k :: as).map (Action.event rt)) info
            = Tables.survives uuid (as.map (Action.event rt)) info := by
          simp [Action.event, Tables.survives, Ne.symm hk]
        have hcount : picks uuid (.pick k :: as) = picks uuid as := by
          simp [picks, hk]
        rw [hrest, ih has, hcount]
        simp [Spared]

/-- **A node is the last advertisement of its server, less the picks since**, and there as long as
no cleanup has found it old. -/
theorem listener_table {start : ℕ} {as : List Action}
    (hr : runFrom (step rt) as (State.start start) = some s) (uuid : Str) (info : ServerInfo) :
    s.serverNodes uuid = some info
      ↔ ∃ before bytes now m after, as = before ++ .receive bytes now :: after
        ∧ parseDatagram rt bytes = some m ∧ m.serverUuid = uuid ∧ Silent rt uuid after
        ∧ Spared now after ∧ picks uuid after ≤ m.availableJobs.toNat
        ∧ info = ⟨uuid, m.serverHost, m.serverPort,
          m.availableJobs - UInt32.ofNat (picks uuid after), now⟩ := by
  rw [serverNodes_run hr, Tables.run_eq_some_iff]
  constructor
  · rintro ⟨before, v₀, after, heq, hspares, hv⟩
    obtain ⟨before, rest, rfl, rfl, hrest⟩ := List.map_eq_append_iff.mp heq
    obtain ⟨a, after, rfl, ha, rfl⟩ := List.map_eq_cons_iff.mp hrest
    have hheard := heardOf_eq_some.mpr ⟨v₀, ha⟩
    have hsilent := silent_iff.mpr hspares
    cases a with
    | receive bytes now =>
      obtain ⟨m, hm, huuid⟩ := Option.map_eq_some_iff.mp hheard
      rw [event_receive hm] at ha
      obtain ⟨-, rfl⟩ := Tables.Event.put.inj ha
      obtain ⟨hspared, hpicks, rfl⟩ := (survives_iff hsilent).mp hv
      refine ⟨before, bytes, now, m, after, rfl, hm, huuid, hsilent, hspared, hpicks, ?_⟩
      rw [← huuid]
      rfl
    | cleanup now => exact absurd hheard nofun
    | pick k => exact absurd hheard nofun
  · rintro ⟨before, bytes, now, m, after, rfl, hm, rfl, hsilent, hspared, hpicks, rfl⟩
    refine ⟨before.map (Action.event rt), nodeOf m now, after.map (Action.event rt), ?_,
      silent_iff.mp hsilent, (survives_iff hsilent).mpr ⟨hspared, hpicks, rfl⟩⟩
    rw [List.map_append, List.map_cons, event_receive hm]

/-- A server with eight threads. -/
def eightThreads : Broadcaster := ⟨str "u", str "h", 5000, 8⟩

theorem eightThreads_heard :
    parseDatagram base128 (eightThreads.payload base128) = some ⟨str "u", str "h", 5000, 8⟩ :=
  parseDatagram_payload (by decide +kernel) (by decide +kernel) (by decide +kernel)

/-- It is heard of, and picked once. -/
def pickedOnce : List Action :=
  [.receive (eightThreads.payload base128) 100, .pick (str "u"), .cleanup 2000]

/-- Seven slots are left. -/
theorem pickedOnce_table :
    ∃ s, runFrom (step base128) pickedOnce (State.start 0) = some s
      ∧ s.serverNodes (str "u") = some ⟨str "u", str "h", 5000, 7, 100⟩ := by
  obtain ⟨s, hr⟩ : ∃ s, runFrom (step base128) pickedOnce (State.start 0) = some s :=
    Option.isSome_iff_exists.mp (by decide +kernel)
  refine ⟨s, hr, (listener_table hr _ _).mpr
    ⟨[], _, _, _, _, rfl, eightThreads_heard, rfl, ?_, ?_, by decide +kernel, rfl⟩⟩
  · intro a ha
    fin_cases ha <;> nofun
  · intro t ht
    obtain rfl : t = 2000 := by simpa using ht
    decide

/-! ## How old a node can be -/

/-- The timer is looked at no later than `ε` after it expires. -/
def Punctual (ε : ℕ) : Action → State → Prop
  | .receive _ now, s => now ≤ s.timer + ε
  | .cleanup now, s => now ≤ s.timer + ε
  | .pick _, _ => True

instance Punctual.decidable (ε : ℕ) : ∀ a s, Decidable (Punctual ε a s)
  | .receive _ now, s => inferInstanceAs (Decidable (now ≤ s.timer + ε))
  | .cleanup now, s => inferInstanceAs (Decidable (now ≤ s.timer + ε))
  | .pick _, _ => inferInstanceAs (Decidable True)

/-- Every node was seen before now, and not long before the last cleanup. -/
structure Recent (ε : ℕ) (s : State) : Prop where
  timer : s.timer ≤ s.clock + 2000
  clock : s.clock ≤ s.timer + ε
  seen : ∀ uuid info, s.serverNodes uuid = some info → info.lastSeen ≤ s.clock
  recent : ∀ uuid info, s.serverNodes uuid = some info → s.timer < info.lastSeen + 7000

/-- The clock and the timer after an action. -/
theorem step_clock {a : Action} (h : step rt a s = some t) :
    s.clock ≤ t.clock ∧ (t.timer = s.timer ∨ a = .cleanup t.clock ∧ t.timer = t.clock + 2000) := by
  cases a with
  | receive bytes now =>
    rw [step] at h
    split_ifs at h with hnow
    obtain rfl := Option.some.inj h
    exact ⟨hnow, Or.inl rfl⟩
  | cleanup now =>
    rw [step] at h
    split_ifs at h with hnow
    obtain rfl := Option.some.inj h
    exact ⟨hnow.1, Or.inr ⟨rfl, rfl⟩⟩
  | pick uuid =>
    obtain ⟨r, -, rfl⟩ := Option.map_eq_some_iff.mp h
    exact ⟨le_rfl, Or.inl rfl⟩

/-- **Where a node comes from**: it was there, as it is or with a slot more, and a cleanup found it
young; or it was heard of now. -/
theorem step_node {a : Action} (h : step rt a s = some t) {uuid : Str} {info : ServerInfo}
    (hinfo : t.serverNodes uuid = some info) :
    (∃ info', s.serverNodes uuid = some info' ∧ info'.lastSeen = info.lastSeen
        ∧ (a = .cleanup t.clock → (t.clock - info.lastSeen) / 1000 ≤ 4))
      ∨ info.lastSeen = t.clock := by
  cases a with
  | receive bytes now =>
    rw [step] at h
    split_ifs at h
    obtain rfl := Option.some.inj h
    cases hm : parseDatagram rt bytes with
    | none =>
      rw [hm] at hinfo
      exact Or.inl ⟨info, hinfo, rfl, nofun⟩
    | some m =>
      rw [hm] at hinfo
      by_cases hk : m.serverUuid = uuid
      · subst hk
        obtain rfl := Option.some.inj ((receiveAdv_self s.serverNodes m now).symm.trans hinfo)
        exact Or.inr rfl
      · exact Or.inl ⟨info, (receiveAdv_of_ne s.serverNodes hk now).symm.trans hinfo, rfl, nofun⟩
  | cleanup now =>
    rw [step] at h
    split_ifs at h
    obtain rfl := Option.some.inj h
    obtain ⟨hinfo, hage⟩ := Option.filter_eq_some_iff.mp hinfo
    exact Or.inl ⟨info, hinfo, rfl, fun _ => of_decide_eq_true hage⟩
  | pick k =>
    obtain ⟨r, hr, rfl⟩ := Option.map_eq_some_iff.mp h
    obtain ⟨node, hnode, -, hnodes⟩ := pickCompilationServer_eq_some hr
    dsimp only at hinfo
    rw [hnodes] at hinfo
    by_cases hk : uuid = k
    · subst hk
      rw [Function.update_self] at hinfo
      obtain rfl := Option.some.inj hinfo
      exact Or.inl ⟨node, hnode, rfl, nofun⟩
    · rw [Function.update_of_ne hk] at hinfo
      exact Or.inl ⟨info, hinfo, rfl, nofun⟩

/-- **A node that is young stays**, or is heard of once more. -/
theorem step_keeps {a : Action} (h : step rt a s = some t) {uuid : Str} {info : ServerInfo}
    (hinfo : s.serverNodes uuid = some info) (hseen : info.lastSeen ≤ s.clock)
    (hyoung : t.clock < info.lastSeen + 5000) :
    ∃ info', t.serverNodes uuid = some info' ∧ info.lastSeen ≤ info'.lastSeen := by
  cases a with
  | receive bytes now =>
    rw [step] at h
    split_ifs at h with hnow
    obtain rfl := Option.some.inj h
    cases hm : parseDatagram rt bytes with
    | none => exact ⟨info, hinfo, le_rfl⟩
    | some m =>
      by_cases hk : m.serverUuid = uuid
      · subst hk
        exact ⟨nodeOf m now, receiveAdv_self s.serverNodes m now, hseen.trans hnow⟩
      · exact ⟨info, (receiveAdv_of_ne s.serverNodes hk now).trans hinfo, le_rfl⟩
  | cleanup now =>
    rw [step] at h
    split_ifs at h
    obtain rfl := Option.some.inj h
    dsimp only at hyoung
    refine ⟨info, Option.filter_eq_some_iff.mpr ⟨hinfo, decide_eq_true ?_⟩, le_rfl⟩
    omega
  | pick k =>
    obtain ⟨r, hr, rfl⟩ := Option.map_eq_some_iff.mp h
    obtain ⟨node, hnode, -, hnodes⟩ := pickCompilationServer_eq_some hr
    dsimp only
    rw [hnodes]
    by_cases hk : uuid = k
    · subst hk
      obtain rfl := Option.some.inj (hnode.symm.trans hinfo)
      exact ⟨_, Function.update_self .., le_rfl⟩
    · exact ⟨info, (Function.update_of_ne hk ..).trans hinfo, le_rfl⟩

theorem seen_step {a : Action} (h : step rt a s = some t)
    (hs : ∀ uuid info, s.serverNodes uuid = some info → info.lastSeen ≤ s.clock) :
    ∀ uuid info, t.serverNodes uuid = some info → info.lastSeen ≤ t.clock := by
  intro uuid info hinfo
  rcases step_node h hinfo with ⟨info', hinfo', heq, -⟩ | heq
  · exact heq ▸ (hs uuid info' hinfo').trans (step_clock h).1
  · exact heq.le

theorem Recent.step {ε : ℕ} {a : Action} (hg : Punctual ε a s) (h : Listener.step rt a s = some t)
    (hs : Recent ε s) : Recent ε t := by
  obtain ⟨htimer, hclock, hseen, hrecent⟩ := hs
  obtain ⟨hle, htimer'⟩ := step_clock h
  have hlate : t.clock ≤ t.timer + ε := by
    cases a with
    | receive bytes now =>
      rw [Listener.step] at h
      split_ifs at h
      obtain rfl := Option.some.inj h
      exact hg
    | cleanup now =>
      rw [Listener.step] at h
      split_ifs at h
      obtain rfl := Option.some.inj h
      dsimp only
      omega
    | pick k =>
      obtain ⟨r, -, rfl⟩ := Option.map_eq_some_iff.mp h
      exact hclock
  refine ⟨by omega, hlate, seen_step h hseen, fun uuid info hinfo => ?_⟩
  rcases step_node h hinfo with ⟨info', hinfo', heq, hage⟩ | heq
  · have hrec := hrecent uuid info' hinfo'
    rcases htimer' with htimer' | ⟨hcleanup, htimer'⟩
    · omega
    · have := hage hcleanup
      omega
  · omega

/-- Whoever was heard of less than five seconds ago is listed. -/
structure Kept (rt : WireRuntime) (as : List Action) (s : State) : Prop where
  seen : ∀ uuid info, s.serverNodes uuid = some info → info.lastSeen ≤ s.clock
  kept : ∀ bytes now uuid, .receive bytes now ∈ as →
    (Action.receive bytes now).heardOf rt = some uuid → s.clock < now + 5000 →
    ∃ info, s.serverNodes uuid = some info ∧ now ≤ info.lastSeen

theorem Kept.step {as : List Action} {a : Action} (h : Listener.step rt a s = some t)
    (hs : Kept rt as s) : Kept rt (as ++ [a]) t where
  seen := seen_step h hs.seen
  kept := by
    intro bytes now uuid hmem hheard hyoung
    have hle := (step_clock h).1
    rcases List.mem_append.mp hmem with hmem | hmem
    · obtain ⟨info, hinfo, hnow⟩ := hs.kept bytes now uuid hmem hheard (by omega)
      obtain ⟨info', hinfo', hle'⟩ := step_keeps h hinfo (hs.seen uuid info hinfo) (by omega)
      exact ⟨info', hinfo', hnow.trans hle'⟩
    · obtain rfl := List.mem_singleton.mp hmem
      obtain ⟨m, hm, rfl⟩ := Option.map_eq_some_iff.mp hheard
      rw [Listener.step] at h
      split_ifs at h
      obtain rfl := Option.some.inj h
      rw [hm]
      exact ⟨nodeOf m now, receiveAdv_self s.serverNodes m now, le_rfl⟩

/-- **Who is listed was heard of lately, and who was heard of just now is listed**: a node is less
than seven seconds old, and as much as the timer is late, and a server that was heard of in the last
five seconds has one. -/
theorem listed_window {ε start : ℕ} {as : List Action}
    (hm : Meets (step rt) (Punctual ε) as (State.start start))
    (hr : runFrom (step rt) as (State.start start) = some s) (uuid : Str) :
    (∀ info, s.serverNodes uuid = some info → s.clock < info.lastSeen + 7000 + ε)
      ∧ ∀ bytes now, .receive bytes now ∈ as →
        (Action.receive bytes now).heardOf rt = some uuid → s.clock < now + 5000 →
        ∃ info, s.serverNodes uuid = some info ∧ now ≤ info.lastSeen := by
  have hrecent : Recent ε s := by
    refine hm.invariant (I := Recent ε) (fun _ _ _ hg h hs => hs.step hg h) hr ⟨le_rfl, ?_, ?_, ?_⟩
    · exact Nat.le_add_right_of_le (Nat.le_add_right start 2000)
    · exact fun _ _ hinfo => absurd hinfo nofun
    · exact fun _ _ hinfo => absurd hinfo nofun
  have hkept : Kept rt as s := by
    refine labels_invariant (I := Kept rt) (fun _ _ _ _ h hs => hs.step h) hr ⟨?_, ?_⟩
    · exact fun _ _ hinfo => absurd hinfo nofun
    · exact fun _ _ _ hmem => absurd hmem List.not_mem_nil
  refine ⟨fun info hinfo => ?_, fun bytes now => hkept.kept bytes now uuid⟩
  have hrec := hrecent.recent uuid info hinfo
  have hclock := hrecent.clock
  omega

/-- The node of that run is listed. -/
theorem pickedOnce_listed :
    ∃ s, runFrom (step base128) pickedOnce (State.start 0) = some s
      ∧ ∃ info, s.serverNodes (str "u") = some info ∧ 100 ≤ info.lastSeen := by
  have hrun : (runFrom (step base128) pickedOnce (State.start 0)).map
      (fun s => decide (s.clock = 2000)) = some true := by
    decide +kernel
  obtain ⟨s, hr, hclock⟩ := Option.map_eq_some_iff.mp hrun
  have hm : Meets (step base128) (Punctual 0) pickedOnce (State.start 0) := by decide +kernel
  refine ⟨s, hr, (listed_window hm hr _).2 _ _ List.mem_cons_self ?_ ?_⟩
  · rw [Action.heardOf, eightThreads_heard]
    rfl
  · rw [of_decide_eq_true hclock]
    decide

end Listener

end DistBuild
