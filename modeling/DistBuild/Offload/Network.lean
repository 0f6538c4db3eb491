import DistBuild.Offload.Client
import DistBuild.Server.Jobs
import DistBuild.Server.Places

/-!
# Offload/Network — the server and the clients of all its sessions

    client ──toServer──▸ handler of its session          deliver: the handler takes the next message
           ◂──sentBy──── the session, and the workers    read: the client takes the next message

Both directions of a connection keep their order.  A client starts a session with the files as it
has them (`connect`); every other step is one of the client's, or of one of the server's threads.
No connection breaks here, and no call of the file system throws.
-/

namespace DistBuild

/-- The server, and the client at the other end of each session there has been. -/
structure Network where
  server : System
  ends : ClientId × SessionId → Option ClientEnd

inductive NetAction
  | connect (c : ClientId) (sid : SessionId) (names : List Str)
  | read (c : ClientId) (sid : SessionId)
  | deliver (c : ClientId) (sid : SessionId)
  | server (a : Action)

/-- A step of the server that takes nothing from a connection. -/
def Action.internal : Action → Bool
  | .client _ (.start _ _) | .client _ (.session _ (.receive _))
  | .client _ (.session _ .disconnect) | .client _ (.terminate _) => false
  | _ => true

/-- What the handler of the session `sid` does with a message. -/
def ClientMessage.delivered (sid : SessionId) : ClientMessage → ClientAction
  | .fileChunkUpload m => .session sid (.receive m)
  | .sessionAbort => .terminate sid

variable (sha1 : Str → Str)

/-- A file as `connect_to_server` declares it. -/
def declaration (fs : Str → Option Str) (f : Str) : FileInfo where
  filename := f
  filesize := UInt64.ofNat ((fs f).getD []).length
  filehash := sha1 ((fs f).getD [])

/-- A file that arrives: the client has it, its name is in normal form, comes back from the server
as it is and is put below the client's workspace, and its end is marked. -/
structure Transferable (c : ClientId) (fs : Str → Option Str) (f : Str) : Prop where
  plain : PlainComponent c
  normal : NormalForm f
  survives : SurvivesMapping (workspaceOf c) f
  relocated : isSystemPath f = false
  content : ∃ content, fs f = some content ∧ content.length < 2 ^ 64 ∧ EndsShort content

/-- A result that arrives: the compilation failed, or left an object file whose end is marked. -/
def Sendable (out : CompilationOutput) (objFile : Option Str) : Prop :=
  out.exitCode ≠ 0 ∨ ∃ content ∈ objFile, ¬ chunkSize ∣ content.length

instance (c : ClientId) (fs : Str → Option Str) (f : Str) : Decidable (Transferable c fs f) :=
  decidable_of_iff (PlainComponent c ∧ NormalForm f ∧ SurvivesMapping (workspaceOf c) f
      ∧ isSystemPath f = false ∧ ∃ content ∈ fs f, content.length < 2 ^ 64
        ∧ (content = [] ∨ ¬ chunkSize ∣ content.length))
    ⟨fun h => ⟨h.1, h.2.1, h.2.2.1, h.2.2.2.1, h.2.2.2.2⟩, fun h => ⟨h.1, h.2, h.3, h.4, h.5⟩⟩

instance (out : CompilationOutput) (objFile : Option Str) : Decidable (Sendable out objFile) := by
  unfold Sendable
  infer_instance

/-- What a worker is about to publish. -/
def Worker.result : Worker → Option CompilationOutput
  | .publishing _ out => some out
  | _ => none

namespace Network

variable (fs : ClientId → Str → Option Str)

/-- What the session `r` has sent that its client has not read. -/
def unread (s : Network) (r : ClientId × SessionId) (e : ClientEnd) : List ServerMessage :=
  (s.server.sentBy r).drop e.read

/-- One step of somebody. -/
def step : NetAction → Network → Option Network
  | .connect c sid names, s =>
    (System.step sha1 (.client c (.start sid (names.map (declaration sha1 (fs c))))) s.server).map
      fun t => ⟨t, Function.update s.ends (c, sid) (some .start)⟩
  | .read c sid, s => do
    let e ← s.ends (c, sid)
    let m ← (s.unread (c, sid) e).head?
    let e' ← e.receive (fs c) m
    pure { s with ends := Function.update s.ends (c, sid) (some e') }
  | .deliver c sid, s => do
    let e ← s.ends (c, sid)
    let m ← e.toServer.head?
    let t ← System.step sha1 (.client c (m.delivered sid)) s.server
    pure ⟨t, Function.update s.ends (c, sid) (some { e with toServer := e.toServer.tail })⟩
  | .server a, s =>
    if a.internal then (System.step sha1 a s.server).map fun t => { s with server := t } else none

/-- Nobody has connected yet. -/
def initial (threadPoolSz : ℕ) (disk : Disk) : Network where
  server := .initial threadPoolSz disk
  ends := fun _ => none

/-- The jobs a step ends. -/
def jobEnds : NetAction → Network → List ((ClientId × SessionId) × JobEnd)
  | .server a, s => System.jobEnds a s.server
  | _, _ => []

/-- Clients declare files that arrive; a claim finds its entry still INITIAL; and compilers leave
results that arrive. -/
def Sound : NetAction → Network → Prop
  | .connect c _ names, _ => ∀ f ∈ names, Transferable c (fs c) f
  | .server (.client c (.session sid .claim)), s =>
    ∀ x ∈ (s.server.views c).sessions sid, ∀ u ∈ x.starting.claimed,
      ∀ v ∈ (s.server.views c).files (cnvtServerToClientPath (workspaceOf c) u.serverFilePath),
        v.fileStatus = .initial
  | .server (.worker i (.publish objFile)), s =>
    ∀ k ∈ s.server.workers[i]?, ∀ out ∈ k.result, Sendable out objFile
  | _, _ => True

instance Sound.decidable : ∀ a s, Decidable (Sound fs a s)
  | .connect c _ names, _ => inferInstanceAs (Decidable (∀ f ∈ names, Transferable c (fs c) f))
  | .server (.client c (.session sid .claim)), s => by
    unfold Sound
    infer_instance
  | .server (.worker i (.publish objFile)), s => by
    unfold Sound
    infer_instance
  | .read _ _, _ | .deliver _ _, _ | .server (.client _ (.start _ _)), _
  | .server (.client _ (.session _ .prepare)), _ | .server (.client _ (.session _ (.scan _))), _
  | .server (.client _ (.session _ .confirm)), _ | .server (.client _ (.session _ (.receive _))), _
  | .server (.client _ (.session _ .transfer)), _ | .server (.client _ (.session _ .measure)), _
  | .server (.client _ (.session _ .hash)), _ | .server (.client _ (.session _ .copy)), _
  | .server (.client _ (.session _ .write)), _ | .server (.client _ (.session _ .notify)), _
  | .server (.client _ (.session _ .disconnect)), _ | .server (.client _ (.sweepStart _ _)), _
  | .server (.client _ (.sweepChunk _ _)), _ | .server (.client _ (.terminate _)), _
  | .server (.client _ (.remove _)), _ | .server (.client _ (.release _)), _
  | .server (.worker _ .dequeue), _ | .server (.worker _ .advertise), _
  | .server (.worker _ (.compile _)), _ | .server (.worker _ .advertiseEnd), _ =>
    inferInstanceAs (Decidable True)

/-- Nobody can take a step, unless a new session is started. -/
def AtRest (s : Network) : Prop :=
  (∀ c sid, step sha1 fs (.read c sid) s = none) ∧ (∀ c sid, step sha1 fs (.deliver c sid) s = none)
    ∧ ∀ a, step sha1 fs (.server a) s = none

/-! ## What a step can do -/

/-- `step` as a relation. -/
inductive Steps (s : Network) : NetAction → Network → Prop
  | connect {c sid names t}
    (h : System.step sha1 (.client c (.start sid (names.map (declaration sha1 (fs c))))) s.server
      = some t) :
    Steps s (.connect c sid names) ⟨t, Function.update s.ends (c, sid) (some .start)⟩
  | read {c sid e m rest e'} (he : s.ends (c, sid) = some e) (hm : s.unread (c, sid) e = m :: rest)
    (h : e.receive (fs c) m = some e') :
    Steps s (.read c sid) { s with ends := Function.update s.ends (c, sid) (some e') }
  | deliver {c sid e m rest t} (he : s.ends (c, sid) = some e) (hm : e.toServer = m :: rest)
    (h : System.step sha1 (.client c (m.delivered sid)) s.server = some t) :
    Steps s (.deliver c sid)
      ⟨t, Function.update s.ends (c, sid) (some { e with toServer := rest })⟩
  | server {a t} (ha : a.internal = true) (h : System.step sha1 a s.server = some t) :
    Steps s (.server a) { s with server := t }

variable {sha1 fs} {s t : Network}

/-- **What a step of the network can do**, once and for all. -/
theorem step_cases {a : NetAction} (h : step sha1 fs a s = some t) : Steps sha1 fs s a t := by
  cases a with
  | connect c sid names =>
    obtain ⟨u, hu, rfl⟩ := Option.map_eq_some_iff.mp h
    exact .connect hu
  | read c sid =>
    simp only [step, Option.bind_eq_bind, Option.bind_eq_some_iff, Option.pure_def,
      Option.some.injEq] at h
    obtain ⟨e, he, m, hm, e', he', rfl⟩ := h
    obtain ⟨rest, hrest⟩ := List.head?_eq_some_iff.mp hm
    exact .read he hrest he'
  | deliver c sid =>
    simp only [step, Option.bind_eq_bind, Option.bind_eq_some_iff, Option.pure_def,
      Option.some.injEq] at h
    obtain ⟨e, he, m, hm, u, hu, rfl⟩ := h
    obtain ⟨rest, hrest⟩ := List.head?_eq_some_iff.mp hm
    rw [hrest, List.tail_cons]
    exact .deliver he hrest hu
  | server a =>
    simp only [step] at h
    split_ifs at h with ha
    obtain ⟨u, hu, rfl⟩ := Option.map_eq_some_iff.mp h
    exact .server ha hu

/-- **What a step does to the server**: one of its own steps, or nothing. -/
theorem Steps.server_cases {a : NetAction} (h : Steps sha1 fs s a t) :
    (t.server = s.server ∧ jobEnds a s = [])
      ∨ ∃ b, System.step sha1 b s.server = some t.server
        ∧ jobEnds a s = System.jobEnds b s.server := by
  cases h with
  | connect h => exact Or.inr ⟨_, h, rfl⟩
  | read he hm h => exact Or.inl ⟨rfl, rfl⟩
  | deliver he hm h => exact Or.inr ⟨_, h, rfl⟩
  | server ha h => exact Or.inr ⟨_, h, rfl⟩

end Network

end DistBuild
