import DistBuild.Machinery.History
import DistBuild.Machinery.Registry
import DistBuild.Server.Containment
import DistBuild.Transport.Messages

/-!
# Server/FrontDoor — from a connection to the view of its client

    accept ─▸ receive ─▸ lookUp ──────────────────────────────▸ add_session
                 │           └─▸ createDirectories ─▸ emplace ──▴
                 └─▸ closed

`add_client_view` looks for the view under the lock, makes the workspace without it, and emplaces
under the lock again, so other connections of the same client may come in between.  The calls are
served as those of an atomic get-or-create: a client has one view, which is what lets the server be
taken as a family of views, one for each client id (`Server/System`).
-/

namespace DistBuild

namespace FrontDoor

/-- What is written into a `ClientView` when it is made. -/
structure View where
  clientUuid : SessionId
  currentWorkingDir : Str
deriving DecidableEq

/-- Where `handle_new_connection` is; the last three it does not leave. -/
inductive Phase
  | receiving
  | lookingUp (m : SessionStartRequest)
  | creating (m : SessionStartRequest)
  | emplacing (m : SessionStartRequest)
  | handedOver
  | closed
  | failed

/-- A call of `add_session`, for the view that was made as the `viewNumber`-th. -/
structure Call where
  connection : ℕ
  request : SessionStartRequest
  viewNumber : ℕ
  view : View

/-- `_client_views`, the directories that were made, the connections, and the calls of
`add_session`. -/
structure State where
  clientViews : Registry ClientId View
  directories : List Str
  phases : ℕ → Option Phase
  calls : List Call

def State.start : State where
  clientViews := .empty
  directories := []
  phases := fun _ => none
  calls := []

inductive Action
  | accept (j : ℕ)
  /-- `receive_msg` returns, or throws. -/
  | receive (j : ℕ) (m : Option ClientContent)
  | lookUp (j : ℕ)
  /-- `create_directories` returns, or throws. -/
  | createDirectories (j : ℕ) (ok : Bool)
  | emplace (j : ℕ)

namespace State

def move (s : State) (j : ℕ) (p : Phase) : State :=
  { s with phases := Function.update s.phases j (some p) }

/-- `add_client_view` returns the view `e`, or its constructor throws. -/
def handOver (s : State) (j : ℕ) (m : SessionStartRequest) : Option (ℕ × View) → State
  | some e => { s.move j .handedOver with calls := s.calls ++ [⟨j, m, e.1, e.2⟩] }
  | none => s.move j .failed

end State

variable (parseUuid : Str → Option SessionId)

/-- The constructor of a view, where `parseUuid` is the `string_generator` that reads an id, or
throws. -/
def viewOf (client : ClientId) : Option View :=
  (parseUuid client).map fun uuid => ⟨uuid, workspaceOf client⟩

def step : Action → State → Option State
  | .accept j, s =>
    match s.phases j with
    | none => some (s.move j .receiving)
    | some _ => none
  | .receive j m, s =>
    match s.phases j, m with
    | some .receiving, some (.sessionStart m) => some (s.move j (.lookingUp m))
    | some .receiving, some _ => some (s.move j .closed)
    | some .receiving, none => some (s.move j .failed)
    | _, _ => none
  | .lookUp j, s =>
    match s.phases j with
    | some (.lookingUp m) =>
      match s.clientViews.entries m.clientId with
      | some e => some (s.handOver j m (some e))
      | none => some (s.move j (.creating m))
    | _ => none
  | .createDirectories j ok, s =>
    match s.phases j with
    | some (.creating m) =>
      if ok then
        some { s.move j (.emplacing m) with
          directories := s.directories ++ [workspaceOf m.clientId] }
      else some (s.move j .failed)
    | _ => none
  | .emplace j, s =>
    match s.phases j with
    | some (.emplacing m) =>
      let r := Registry.getOrCreate (viewOf parseUuid) m.clientId s.clientViews
      some ({ s with clientViews := r.2 }.handOver j m r.1)
    | _ => none

/-- The calls of `add_client_view` that are decided in this step, with their results. -/
def decided : Action → State → List (ClientId × Option (ℕ × View))
  | .lookUp j, s =>
    match s.phases j with
    | some (.lookingUp m) =>
      ((s.clientViews.entries m.clientId).map fun e => (m.clientId, some e)).toList
    | _ => []
  | .emplace j, s =>
    match s.phases j with
    | some (.emplacing m) =>
      [(m.clientId, (Registry.getOrCreate (viewOf parseUuid) m.clientId s.clientViews).1)]
    | _ => []
  | _, _ => []

/-! ## What a step can do -/

/-- The request of a connection that is not decided yet. -/
def Phase.pending : Phase → Option SessionStartRequest
  | .lookingUp m | .creating m | .emplacing m => some m
  | _ => none

/-- `step` as a relation. -/
inductive Step (s : State) : Action → State → Prop
  | accept {j} (h : s.phases j = none) : Step s (.accept j) (s.move j .receiving)
  | receiveStart {j m} (h : s.phases j = some .receiving) :
    Step s (.receive j (some (.sessionStart m))) (s.move j (.lookingUp m))
  | receiveOther {j m} (h : s.phases j = some .receiving) (hm : m.sessionStart? = none) :
    Step s (.receive j (some m)) (s.move j .closed)
  | receiveError {j} (h : s.phases j = some .receiving) :
    Step s (.receive j none) (s.move j .failed)
  | found {j m e} (h : s.phases j = some (.lookingUp m))
    (he : s.clientViews.entries m.clientId = some e) :
    Step s (.lookUp j) (s.handOver j m (some e))
  | missing {j m} (h : s.phases j = some (.lookingUp m))
    (he : s.clientViews.entries m.clientId = none) :
    Step s (.lookUp j) (s.move j (.creating m))
  | createDirectories {j m} (h : s.phases j = some (.creating m)) :
    Step s (.createDirectories j true) { s.move j (.emplacing m) with
      directories := s.directories ++ [workspaceOf m.clientId] }
  | createThrows {j m} (h : s.phases j = some (.creating m)) :
    Step s (.createDirectories j false) (s.move j .failed)
  | emplace {j m r} (h : s.phases j = some (.emplacing m))
    (hr : r = Registry.getOrCreate (viewOf parseUuid) m.clientId s.clientViews) :
    Step s (.emplace j) ({ s with clientViews := r.2 }.handOver j m r.1)

variable {parseUuid} {s t : State}

/-- **What a step can do**, once and for all. -/
theorem step_cases {a : Action} (h : step parseUuid a s = some t) : Step parseUuid s a t := by
  cases a with
  | accept j =>
    simp only [step] at h
    split at h
    · obtain rfl := Option.some.inj h
      exact .accept ‹_›
    · exact absurd h nofun
  | receive j m =>
    simp only [step] at h
    split at h
    · obtain rfl := Option.some.inj h
      exact .receiveStart ‹_›
    · rename_i m' hm hphase
      obtain rfl := Option.some.inj h
      refine .receiveOther ‹_› ?_
      cases m' with
      | sessionStart m => exact (hm m rfl).elim
      | _ => rfl
    · obtain rfl := Option.some.inj h
      exact .receiveError ‹_›
    · exact absurd h nofun
  | lookUp j =>
    simp only [step] at h
    split at h
    · split at h
      · obtain rfl := Option.some.inj h
        exact .found ‹_› ‹_›
      · obtain rfl := Option.some.inj h
        exact .missing ‹_› ‹_›
    · exact absurd h nofun
  | createDirectories j ok =>
    simp only [step] at h
    split at h
    · split_ifs at h with hok
      · obtain rfl := Option.some.inj h
        subst hok
        exact .createDirectories ‹_›
      · obtain rfl := Option.some.inj h
        obtain rfl : ok = false := Bool.eq_false_of_not_eq_true hok
        exact .createThrows ‹_›
    · exact absurd h nofun
  | emplace j =>
    simp only [step] at h
    split at h
    · obtain rfl := Option.some.inj h
      exact .emplace ‹_› rfl
    · exact absurd h nofun

/-! ## Who is handed over -/

/-- Requests are those the connections received, and a connection is handed over once. -/
structure Announced (as : List Action) (phases : ℕ → Option Phase) (calls : List Call) : Prop where
  pending : ∀ j p, phases j = some p → ∀ m, p.pending = some m →
    .receive j (some (.sessionStart m)) ∈ as
  received : ∀ x ∈ calls, .receive x.connection (some (.sessionStart x.request)) ∈ as
  handedOver : ∀ x ∈ calls, phases x.connection = some .handedOver
  once : (calls.map Call.connection).Nodup

section Announced

variable {as as' : List Action} {phases : ℕ → Option Phase} {calls : List Call}

/-- A connection that is not handed over moves on. -/
theorem Announced.move (hs : Announced as phases calls) (has : as ⊆ as') {j : ℕ} {p : Phase}
    (hj : phases j ≠ some .handedOver)
    (hp : ∀ m, p.pending = some m → .receive j (some (.sessionStart m)) ∈ as') :
    Announced as' (Function.update phases j (some p)) calls where
  pending := forall_update (fun k q hq m hm => has (hs.pending k q hq m hm)) hp
  received := fun x hx => has (hs.received x hx)
  handedOver := by
    intro x hx
    refine (Function.update_of_ne ?_ ..).trans (hs.handedOver x hx)
    rintro rfl
    exact hj (hs.handedOver x hx)
  once := hs.once

/-- A connection that has received its request is handed over. -/
theorem Announced.call (hs : Announced as phases calls) (has : as ⊆ as') {j n : ℕ} {p : Phase}
    {m : SessionStartRequest} {v : View} (hj : phases j = some p) (hp : p.pending = some m) :
    Announced as' (Function.update phases j (some .handedOver)) (calls ++ [⟨j, m, n, v⟩]) := by
  have hne : phases j ≠ some .handedOver := by
    rw [hj]
    rintro ⟨⟩
    exact absurd hp nofun
  have hmoved := hs.move (p := .handedOver) has hne nofun
  refine ⟨hmoved.pending, fun x hx => ?_, fun x hx => ?_, ?_⟩
  · rcases List.mem_append.mp hx with hx | hx
    · exact hmoved.received x hx
    · obtain rfl := List.mem_singleton.mp hx
      exact has (hs.pending j p hj m hp)
  · rcases List.mem_append.mp hx with hx | hx
    · exact hmoved.handedOver x hx
    · obtain rfl := List.mem_singleton.mp hx
      exact Function.update_self ..
  · rw [List.map_append, List.map_singleton, List.nodup_append]
    refine ⟨hs.once, List.nodup_singleton _, fun k hk k' hk' => ?_⟩
    obtain ⟨x, hx, rfl⟩ := List.mem_map.mp hk
    obtain rfl := List.mem_singleton.mp hk'
    intro heq
    exact hne (heq ▸ hs.handedOver x hx)

end Announced

theorem announced_start : Announced [] State.start.phases State.start.calls where
  pending _ _ hj := absurd hj nofun
  received _ hx := absurd hx List.not_mem_nil
  handedOver _ hx := absurd hx List.not_mem_nil
  once := List.nodup_nil

theorem Announced.step {as : List Action} {a : Action} (h : FrontDoor.step parseUuid a s = some t)
    (hs : Announced as s.phases s.calls) : Announced (as ++ [a]) t.phases t.calls := by
  have has : as ⊆ as ++ [a] := List.subset_append_left _ _
  have hnot : ∀ {j : ℕ} {p : Phase}, s.phases j = some p → p ≠ .handedOver →
      s.phases j ≠ some .handedOver := by
    intro j p hj hp heq
    exact hp (Option.some.inj (hj.symm.trans heq))
  cases step_cases h with
  | accept hj => exact hs.move has (by rw [hj]; nofun) nofun
  | receiveStart hj =>
    refine hs.move has (hnot hj nofun) fun m hm => ?_
    obtain rfl := Option.some.inj hm
    simp
  | receiveOther hj hm => exact hs.move has (hnot hj nofun) nofun
  | receiveError hj => exact hs.move has (hnot hj nofun) nofun
  | found hj he => exact hs.call has hj rfl
  | @missing j m hj he =>
    exact hs.move has (hnot hj nofun) fun m' hm => has (hs.pending j _ hj m' hm)
  | @createDirectories j m hj =>
    exact hs.move has (hnot hj nofun) fun m' hm => has (hs.pending j _ hj m' hm)
  | createThrows hj => exact hs.move has (hnot hj nofun) nofun
  | @emplace j m r hj hr =>
    rcases r with ⟨_ | e, R⟩
    · exact hs.move has (hnot hj nofun) nofun
    · exact hs.call has hj rfl

/-! ## What they are handed -/

/-- The calls were served, and what is handed over is what they returned. -/
structure Served (parseUuid : Str → Option SessionId)
    (log : List (ClientId × Option (ℕ × View))) (s : State) : Prop where
  serves : Registry.Serves (viewOf parseUuid) log s.clientViews
  calls : ∀ x ∈ s.calls, (x.request.clientId, some (x.viewNumber, x.view)) ∈ log

theorem Served.step {log : List (ClientId × Option (ℕ × View))} {a : Action}
    (h : FrontDoor.step parseUuid a s = some t) (hs : Served parseUuid log s) :
    Served parseUuid (log ++ decided parseUuid a s) t := by
  have hcall : ∀ {j : ℕ} {m : SessionStartRequest} {e : ℕ × View}
      {log' : List (ClientId × Option (ℕ × View))}, (m.clientId, some e) ∈ log' →
      ∀ x ∈ s.calls ++ [⟨j, m, e.1, e.2⟩],
        (x.request.clientId, some (x.viewNumber, x.view)) ∈ log ++ log' := by
    intro j m e log' he x hx
    rcases List.mem_append.mp hx with hx | hx
    · exact List.mem_append_left _ (hs.calls x hx)
    · obtain rfl := List.mem_singleton.mp hx
      exact List.mem_append_right _ he
  have hquiet : decided parseUuid a s = [] → t.clientViews = s.clientViews → t.calls = s.calls →
      Served parseUuid (log ++ decided parseUuid a s) t := by
    intro hlog hviews hcalls
    rw [hlog, List.append_nil]
    exact ⟨hviews ▸ hs.serves, hcalls ▸ hs.calls⟩
  cases step_cases h with
  | @found j m e hj he =>
    have hlog : decided parseUuid (.lookUp j) s = [(m.clientId, some e)] := by
      simp [decided, hj, he]
    have hserve := hs.serves.concat m.clientId
    rw [Registry.getOrCreate_found he] at hserve
    rw [hlog]
    exact ⟨hserve, hcall List.mem_cons_self⟩
  | @emplace j m r hj hr =>
    have hlog : decided parseUuid (.emplace j) s = [(m.clientId, r.1)] := by
      simp [decided, hj, hr]
    have hserve := hs.serves.concat m.clientId
    rw [← hr] at hserve
    rw [hlog]
    rcases r with ⟨_ | e, R⟩
    · exact ⟨hserve, fun x hx => List.mem_append_left _ (hs.calls x hx)⟩
    · exact ⟨hserve, hcall List.mem_cons_self⟩
  | missing hj he => exact hquiet (by simp [decided, hj, he]) rfl rfl
  | _ => exact hquiet rfl rfl rfl

/-! ## One view for each client -/

/-- The characters of a UUID's text, in any of the forms that are read. -/
def uuidChars : Str := str "0123456789abcdefABCDEF-{}"

/-- Nothing else is read as a UUID. -/
def ReadsUuids (parseUuid : Str → Option SessionId) : Prop :=
  ∀ c uuid, parseUuid c = some uuid → c ≠ [] ∧ ∀ b ∈ c, b ∈ uuidChars

/-- The text of a UUID is the name of a directory. -/
theorem plainComponent_of_parseUuid (hparse : ReadsUuids parseUuid) {c : ClientId}
    {uuid : SessionId} (h : parseUuid c = some uuid) : PlainComponent c := by
  obtain ⟨hne, hchars⟩ := hparse c uuid h
  have hdot : ∀ rest, c ≠ str "." ++ rest := by
    rintro rest rfl
    have hmem : 46 ∈ str "." ++ rest := List.mem_append_left _ (by decide)
    exact absurd (hchars 46 hmem) (by decide)
  refine ⟨hne, fun hslash => absurd (hchars slash hslash) (by decide), hdot [], hdot (str ".")⟩

/-- **Every client has one view**, in every run: the calls of `add_client_view` are served as those
of an atomic get-or-create; a connection whose first message is a session start is handed over once
at most, and no other is; two of them share their view exactly if they are of one client, and else
their workspaces have no file in common. -/
theorem front_door_safe (hparse : ReadsUuids parseUuid) {as : List Action}
    (hr : runFrom (step parseUuid) as State.start = some s) :
    Registry.Serves (viewOf parseUuid)
        (history (step parseUuid) (decided parseUuid) as State.start) s.clientViews
      ∧ (s.calls.map Call.connection).Nodup
      ∧ (∀ x ∈ s.calls, .receive x.connection (some (.sessionStart x.request)) ∈ as
        ∧ viewOf parseUuid x.request.clientId = some x.view)
      ∧ ∀ x ∈ s.calls, ∀ y ∈ s.calls,
        (x.viewNumber = y.viewNumber ↔ x.request.clientId = y.request.clientId)
          ∧ (x.request.clientId ≠ y.request.clientId → ∀ p, Inside x.view.currentWorkingDir p →
            ¬ Inside y.view.currentWorkingDir p) := by
  have hserved : Served parseUuid (history (step parseUuid) (decided parseUuid) as State.start) s :=
    history_invariant (fun _ _ _ _ h hs => hs.step h) hr
      ⟨.nil, fun _ hx => absurd hx List.not_mem_nil⟩
  have hannounced : Announced as s.phases s.calls :=
    labels_invariant (I := fun as s => Announced as s.phases s.calls)
      (fun _ _ _ _ h hs => hs.step h) hr announced_start
  have hentry := fun x hx => hserved.serves.found (hserved.calls x hx)
  have hview : ∀ x ∈ s.calls, viewOf parseUuid x.request.clientId = some x.view :=
    fun x hx => (hserved.serves.made (hentry x hx)).1
  refine ⟨hserved.serves, hannounced.once,
    fun x hx => ⟨hannounced.received x hx, hview x hx⟩, fun x hx y hy =>
      ⟨⟨fun hn => ?_, fun hc => ?_⟩, ?_⟩⟩
  · exact hserved.serves.eq_of_number_eq (hentry x hx) (hentry y hy) hn
  · have hsame := (hentry x hx).symm.trans ((congrArg _ hc).trans (hentry y hy))
    exact congrArg Prod.fst (Option.some.inj hsame)
  · intro hne p hp
    obtain ⟨uuid, huuid, heq⟩ := Option.map_eq_some_iff.mp (hview x hx)
    obtain ⟨uuid', huuid', heq'⟩ := Option.map_eq_some_iff.mp (hview y hy)
    rw [← heq] at hp
    rw [← heq']
    exact not_inside_other (plainComponent_of_parseUuid hparse huuid)
      (plainComponent_of_parseUuid hparse huuid') hne hp

/-- What reads one UUID. -/
def readsOne : Str → Option SessionId := fun c =>
  if c = str "00000000-0000-0000-0000-000000000001" then some c else none

theorem readsOne_readsUuids : ReadsUuids readsOne := by
  intro c uuid h
  unfold readsOne at h
  split_ifs at h with hc
  subst hc
  decide +kernel

/-- Two connections of one client, each looking before the other emplaces. -/
def twoAtOnce : List Action :=
  let m : SessionStartRequest :=
    ⟨str "00000000-0000-0000-0000-000000000001", str "/w", str "/w/a.c", [], [], [], []⟩
  [.accept 0, .accept 1, .receive 0 (some (.sessionStart m)), .receive 1 (some (.sessionStart m)),
    .lookUp 0, .lookUp 1, .createDirectories 1 true, .createDirectories 0 true, .emplace 1,
    .emplace 0]

/-- They share a view. -/
theorem twoAtOnce_share :
    ∃ s, runFrom (step readsOne) twoAtOnce State.start = some s ∧ s.calls.length = 2
      ∧ ∀ x ∈ s.calls, ∀ y ∈ s.calls, x.viewNumber = y.viewNumber := by
  have hrun : (runFrom (step readsOne) twoAtOnce State.start).map (fun s => decide
      (s.calls.length = 2 ∧ ∀ x ∈ s.calls, ∀ y ∈ s.calls,
        x.request.clientId = y.request.clientId)) = some true := by
    decide +kernel
  obtain ⟨s, hr, hs⟩ := Option.map_eq_some_iff.mp hrun
  obtain ⟨hlen, hclient⟩ := of_decide_eq_true hs
  refine ⟨s, hr, hlen, fun x hx y hy => ?_⟩
  exact ((front_door_safe readsOne_readsUuids hr).2.2.2 x hx y hy).1.mpr (hclient x hx y hy)

end FrontDoor

end DistBuild
