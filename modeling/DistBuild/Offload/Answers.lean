import DistBuild.Offload.Consistency
import DistBuild.Result.Response

/-!
# Offload/Answers — whoever asks is answered

    at rest ⟹ every session idle or left ⟹ no file UPLOADING ⟹ every session ready
            ⟹ requested ⟹ its job ended ⟹ its result read ⟹ nobody idle

The chain is the proof of the last field of `Network.Offloads`: a network in which nobody can take a
step has no client that waits.
-/

namespace DistBuild

namespace Offload

variable {sha1 : Str → Str} {fs : ClientId → Str → Option Str} {s : Network} {c : ClientId}

/-! ## Where sessions are at rest -/

/-- At rest no section of a client's threads is enabled. -/
theorem rested_client (h : s.AtRest sha1 fs) {a : ClientAction}
    (ha : (Action.client c a).internal = true) :
    ClientView.step sha1 (workspaceOf c) a s.server.disk (s.server.views c) = none := by
  have hstep := h.2.2 (.client c a)
  rw [Network.step, if_pos ha, Option.map_eq_none_iff, System.step, Option.map_eq_none_iff] at hstep
  exact hstep

/-- Nor one of its sessions. -/
theorem rested_session (h : s.AtRest sha1 fs) {sid : SessionId} {x : Session}
    (hx : (s.server.views c).sessions sid = some x) {a : SessionAction}
    (ha : (Action.client c (.session sid a)).internal = true) :
    sessionStep sha1 (workspaceOf c) sid a (s.server.views c).files s.server.disk x = none := by
  have hstep := rested_client h ha
  rw [ClientView.step, hx] at hstep
  cases hs : sessionStep sha1 (workspaceOf c) sid a (s.server.views c).files s.server.disk x with
  | none => rfl
  | some E =>
    rw [Option.bind_eq_bind, Option.bind_some, hs] at hstep
    exact absurd hstep (Option.some_ne_none _)

/-- **At rest every `add_session` has returned.** -/
theorem rested_starting (h : s.AtRest sha1 fs) {sid : SessionId} {x : Session}
    (hx : (s.server.views c).sessions sid = some x)
    (he : Engaged sha1 c (fs c) (s.server.views c).files x) : x.starting = .started := by
  cases hst : x.starting with
  | started => rfl
  | preparing =>
    have hstep := rested_session h hx (a := .prepare) rfl
    rw [sessionStep, hst] at hstep
    exact absurd hstep (Option.some_ne_none _)
  | scanning todo =>
    cases todo with
    | nil =>
      have hstep := rested_session h hx (a := .confirm) rfl
      rw [sessionStep, hst] at hstep
      exact absurd hstep (Option.some_ne_none _)
    | cons k todo =>
      obtain ⟨v, hv⟩ := he.known k (he.pending k (by rw [Session.pending, hst]; simp))
      have hstep := rested_session h hx (a := .scan 0) rfl
      simp only [sessionStep, hst, hv, Option.map_some] at hstep
      exact absurd hstep (Option.some_ne_none _)
  | claiming u todo =>
    have hstep := rested_session h hx (a := .claim) rfl
    rw [sessionStep, hst] at hstep
    exact absurd hstep (Option.some_ne_none _)
  | sweeping =>
    have hstep := rested_client h (c := c)
      (a := .sweepStart sid (s.server.views c).associatedSessions) rfl
    simp [ClientView.step, hx, hst] at hstep

/-- **At rest every handler waits for its client, or is over.** -/
theorem rested_handling (h : s.AtRest sha1 fs) {sid : SessionId} {x : Session} {e : ClientEnd}
    {unread : List ServerMessage} (hx : (s.server.views c).sessions sid = some x)
    (hs : Stage sha1 c (fs c) sid (s.server.views c).files s.server.disk x e unread)
    (hns : x.starting.unconfirmed = true → x.handling = .notStarted) :
    x.handling = .notStarted ∨ x.handling = .receiving ∨ x.handling = .ended := by
  have hjudged : ∀ f, x.handling.judging = some f → (∃ v, (s.server.views c).files f = some v)
      ∧ Judges sha1 c (fs c) f x.handling := by
    intro f hf
    obtain ⟨-, -, -, -, ⟨v, hv, -⟩, -, -, hj, -⟩ := hs.of_judging hf hns
    exact ⟨⟨v, hv⟩, hj⟩
  cases hh : x.handling with
  | notStarted => exact Or.inl rfl
  | receiving => exact Or.inr (Or.inl rfl)
  | ended => exact Or.inr (Or.inr rfl)
  | transferring m p =>
    have hstep := rested_session h hx (a := .transfer) rfl
    rw [sessionStep, hh] at hstep
    exact absurd hstep (Option.some_ne_none _)
  | measuring m p =>
    obtain ⟨⟨v, hv⟩, -⟩ := hjudged m.filename (by rw [hh]; rfl)
    have hstep := rested_session h hx (a := .measure) rfl
    simp only [sessionStep, hh, hv, Option.map_some] at hstep
    exact absurd hstep (Option.some_ne_none _)
  | hashing m p =>
    obtain ⟨⟨v, hv⟩, -⟩ := hjudged m.filename (by rw [hh]; rfl)
    have hstep := rested_session h hx (a := .hash) rfl
    simp only [sessionStep, hh, hv, Option.map_some] at hstep
    exact absurd hstep (Option.some_ne_none _)
  | copying m marks ok =>
    obtain ⟨⟨v, hv⟩, hj⟩ := hjudged m.filename (by rw [hh]; rfl)
    rw [hh] at hj
    obtain ⟨-, rfl, -⟩ := hj
    have hstep := rested_session h hx (a := .copy) rfl
    simp only [sessionStep, hh, hv, Option.map_some] at hstep
    exact absurd hstep (Option.some_ne_none _)
  | writing m u marks ok =>
    have hstep := rested_session h hx (a := .write) rfl
    rw [sessionStep, hh] at hstep
    exact absurd hstep (Option.some_ne_none _)
  | sweeping m =>
    have hstep := rested_client h (c := c)
      (a := .sweepChunk sid (s.server.views c).associatedSessions) rfl
    simp [ClientView.step, hx, hh] at hstep
  | notifying m =>
    have hstep := rested_session h hx (a := .notify) rfl
    rw [sessionStep, hh] at hstep
    exact absurd hstep (Option.some_ne_none _)
  | removing =>
    have hstep := rested_client h (c := c) (a := .remove sid) rfl
    simp [ClientView.step, hx, hh] at hstep
  | releasing =>
    have hstep := rested_client h (c := c) (a := .release sid) rfl
    simp [ClientView.step, hx, hh] at hstep

/-- **At rest a session is idle, or its client has left.** -/
theorem Stage.rested {sid : SessionId} {files : FileTable} {disk : Disk} {x : Session}
    {e : ClientEnd} {unread : List ServerMessage}
    (hs : Stage sha1 c (fs c) sid files disk x e unread) (hst : x.starting = .started)
    (hh : x.handling = .notStarted ∨ x.handling = .receiving ∨ x.handling = .ended)
    (hread : unread ≠ [] → e.Over)
    (hdeliver : ∀ m ms, e.toServer = .fileChunkUpload m :: ms → x.handling ≠ .receiving) :
    (e.phase = .handling ∧ unread = [] ∧ ∀ k ∈ x.requested, Has files k .available)
      ∨ e.Over ∧ ∀ k ∈ x.requiredFilesState, Has files k .available := by
  have hone : ∀ {m}, control unread = [m] → e.Over := fun hin => hread (by rintro rfl; cases hin)
  have hloop : e.phase = .handling → ¬ e.Over := by
    rintro hphase (hp | ⟨r, hp⟩)
    · exact ClientPhase.noConfusion (hphase.symm.trans hp)
    · exact ClientPhase.noConfusion (hphase.symm.trans hp)
  cases hs with
  | opening _ _ hopen =>
    rw [hst] at hopen
    exact Bool.noConfusion hopen
  | confirmed hphase _ _ _ hin =>
    rcases hone hin with hp | ⟨r, hp⟩
    · exact ClientPhase.noConfusion (hphase.symm.trans hp)
    · exact ClientPhase.noConfusion (hphase.symm.trans hp)
  | sending hunder hdone hf hin hp =>
    obtain ⟨unsent, hout, hstream⟩ := hp.stream
    obtain ⟨b, post, rfl⟩ := List.exists_cons_of_ne_nil hp.more
    rcases hp.handling with hr | ⟨m, hm⟩
    · rw [hr, inHand_receiving, List.nil_append, chunkMessages] at hstream
      rw [hstream, List.map_cons] at hout
      exact absurd hr (hdeliver _ _ hout)
    · rw [hm] at hh
      exact absurd hh (by simp)
  | judging hunder hdone hf hin hout hj =>
    rcases hh with hh | hh | hh <;> rw [hh] at hj <;> exact hj.elim
  | judged hunder hdone hin hout hj =>
    rcases hj with hj | hj <;> rw [hj] at hh <;> exact absurd hh (by simp)
  | acked hunder _ hin => exact absurd (hone hin) (hloop hunder.phase)
  | idle hunder hdone hin hout =>
    exact Or.inl ⟨hunder.phase, by_contra fun hne => hloop hunder.phase (hread hne), hdone⟩
  | left hover hdone => exact Or.inr ⟨hover, hdone⟩

variable {ends : List ((ClientId × SessionId) × JobEnd)}

/-- What is known at rest of a session and the client at its other end: a client in its loop would
read, and a handler in its loop would take the chunk. -/
theorem Consistent.rested (hs : Consistent sha1 fs ends s) (h : s.AtRest sha1 fs)
    {sid : SessionId} {x : Session} (hx : (s.server.views c).sessions sid = some x) :
    ∃ e, s.ends (c, sid) = some e
      ∧ Attended sha1 c (fs c) sid (s.server.views c).files s.server.disk x e
          (s.server.sentBy (c, sid))
      ∧ x.starting = .started
      ∧ (x.handling = .notStarted ∨ x.handling = .receiving ∨ x.handling = .ended)
      ∧ ((e.phase = .handling ∧ s.unread (c, sid) e = []
            ∧ ∀ k ∈ x.requested, Has (s.server.views c).files k .available)
          ∨ e.Over ∧ ∀ k ∈ x.requiredFilesState, Has (s.server.views c).files k .available) := by
  obtain ⟨e, he, hatt⟩ := (hs.hosted c).attended sid x hx
  have hst := rested_starting h hx hatt.engaged
  have hh := rested_handling h hx hatt.stage ((hs.hosted c).registered sid x hx).unconfirmed
  refine ⟨e, he, hatt, hst, hh, hatt.stage.rested hst hh (fun hne => ?_) fun m ms hout hr => ?_⟩
  · by_contra hover
    obtain ⟨m, rest, hm⟩ := List.exists_cons_of_ne_nil hne
    obtain ⟨e', he'⟩ := receive_isSome (fs c) m hover
    have hstep := h.1 c sid
    have hunread : (s.unread (c, sid) e).head? = some m := by
      rw [Network.unread, hm]
      rfl
    simp [Network.step, show s.ends (c, sid) = some e from he, hunread, he'] at hstep
  · have hstep := h.2.1 c sid
    simp [Network.step, show s.ends (c, sid) = some e from he, hout, System.step,
      ClientMessage.delivered, ClientView.step, hx, sessionStep, hr] at hstep

/-- What the ends of a session's jobs send it. -/
theorem chunks_eq_filter (l : List ((ClientId × SessionId) × JobEnd)) (r : ClientId × SessionId) :
    (l.flatMap fun e => if e.1 = r then e.2.chunks r.2 else [])
      = (l.filter (·.1 = r)).flatMap fun e => e.2.chunks r.2 := by
  induction l with
  | nil => rfl
  | cons e l ih =>
    by_cases he : e.1 = r
    · simp [he, ih]
    · simp [he, ih]

/-- **The one end of a job** is all that its session is sent. -/
theorem Consistent.published (hs : Consistent sha1 fs ends s) {r : ClientId × SessionId}
    {out : CompilationOutput} {objFile : Option Str}
    (h : (r, JobEnd.published out objFile) ∈ ends) :
    ends.filter (·.1 = r) = [(r, .published out objFile)]
      ∧ s.server.resultChunks r = sendCompilationResult r.2 out objFile := by
  have hmem : (r, JobEnd.published out objFile) ∈ ends.filter (·.1 = r) :=
    List.mem_filter.mpr ⟨h, decide_eq_true rfl⟩
  have hone : (ends.filter (·.1 = r)).length ≤ 1 := by
    have hbal := hs.accounted.balance r
    have hle : ((s.server.views r.1).isCompilerRunning r.2).toNat ≤ 1 := Bool.toNat_le _
    rw [List.countP_eq_length_filter] at hbal
    omega
  have hfilter : ends.filter (·.1 = r) = [(r, .published out objFile)] := by
    obtain ⟨q, hq⟩ := List.length_eq_one_iff.mp (le_antisymm hone (List.length_pos_of_mem hmem))
    rw [hq] at hmem ⊢
    rw [List.mem_singleton.mp hmem]
  refine ⟨hfilter, ?_⟩
  rw [hs.accounted.chunks r, chunks_eq_filter, hfilter]
  simp [JobEnd.chunks]

/-- A result that can be sent arrives wherever its object file can be written. -/
theorem arrives_of_sendable {out : CompilationOutput} {objFile : Option Str}
    (h : Sendable out objFile) (sid : SessionId) {d : Disk} {path : Str}
    (hw : d.writable path = true) : ResultArrives sid out objFile d path := by
  by_cases hexit : out.exitCode = 0
  · obtain hne | ⟨content, hc, hshort⟩ := h
    · exact absurd hexit hne
    · obtain rfl : objFile = some content := hc
      exact (result_arrives_of_short hexit hshort).mpr (if_pos hw)
  · exact result_arrives_of_failure hexit

/-- **At rest no file is UPLOADING**: what a session requires is AVAILABLE.  One session was asked
for it, and that one is idle, or its client has left. -/
theorem Consistent.required_available (hs : Consistent sha1 fs ends s) (h : s.AtRest sha1 fs)
    {sid : SessionId} {x : Session} (hx : (s.server.views c).sessions sid = some x) :
    ∀ k ∈ x.requiredFilesState, Has (s.server.views c).files k .available := by
  intro k hk
  have hV := hs.hosted c
  obtain ⟨_, -, hatt, hst, -⟩ := hs.rested h hx
  obtain ⟨v, hv⟩ := hatt.engaged.known k hk
  cases hvst : v.fileStatus with
  | available => exact ⟨v, hv, hvst⟩
  | fault => exact absurd hvst (hV.described k v hv).2
  | initial =>
    have hpend := (hV.initial k ⟨v, hv, hvst⟩ sid x hx).2 hk
    rw [Session.pending, hst] at hpend
    exact absurd hpend List.not_mem_nil
  | uploading =>
    obtain ⟨t, y, hy, hmem⟩ := hV.uploading k ⟨v, hv, hvst⟩
    obtain ⟨_, -, hatt', -, -, hidle⟩ := hs.rested h hy
    rcases hidle with ⟨-, -, hdone⟩ | ⟨-, hdone⟩
    · exact hdone k hmem
    · exact hdone k (hatt'.engaged.asked k hmem)

/-- **So its compilation is requested**, unless its client has left. -/
theorem Consistent.compiler_running (hs : Consistent sha1 fs ends s) (h : s.AtRest sha1 fs)
    {sid : SessionId} {x : Session} (hx : (s.server.views c).sessions sid = some x)
    (hterm : x.terminated = false) : (s.server.views c).isCompilerRunning sid = true := by
  have hV := hs.hosted c
  obtain ⟨_, -, hatt, hst, -⟩ := hs.rested h hx
  refine hV.woken.flagged (fun t y hy => ?_) ((hV.registered sid x hx).associated hterm) hx hst
    ⟨hatt.engaged.prepared ?_, hs.required_available h hx⟩
  · obtain ⟨-, -, -, -, hh, -⟩ := hs.rested h hy
    rcases hh with hh | hh | hh <;> rw [hh] <;> rfl
  · simp [hst]

/-- **And its job has ended**, if there are workers. -/
theorem Consistent.job_ended (hs : Consistent sha1 fs ends s) (h : s.AtRest sha1 fs)
    (hpool : s.server.workers ≠ []) {r : ClientId × SessionId}
    (hflag : (s.server.views r.1).isCompilerRunning r.2 = true) : ∃ je, (r, je) ∈ ends := by
  have hquiet : s.server.Idle sha1 := fun i a => by
    have hstep := h.2.2 (.worker i a)
    rwa [Network.step, if_pos (show (Action.worker i a).internal = true from rfl),
      Option.map_eq_none_iff] at hstep
  have hended : 0 < ends.countP (·.1 = r) := by
    have hbal := hs.accounted.balance r
    rw [hs.accounted.pending_eq_zero hquiet hpool, hflag] at hbal
    simp only [Bool.toNat_true, Nat.zero_add] at hbal
    omega
  obtain ⟨⟨q, je⟩, hend, hq⟩ := List.countP_pos_iff.mp hended
  obtain rfl : q = r := of_decide_eq_true hq
  exact ⟨je, hend⟩

/-- **At rest every client has its answer**, if there are workers. -/
theorem Consistent.over (hs : Consistent sha1 fs ends s) (h : s.AtRest sha1 fs)
    (hpool : s.server.workers ≠ []) {r : ClientId × SessionId} {e : ClientEnd}
    (he : s.ends r = some e) : e.Over := by
  obtain ⟨c, sid⟩ := r
  obtain ⟨x, hx⟩ := (hs.hosted c).hosts sid e he
  obtain ⟨f, hf, hatt, -, -, hidle⟩ := hs.rested h hx
  obtain rfl : e = f := Option.some.inj (he.symm.trans hf)
  by_contra hover
  obtain ⟨hphase, hunread, -⟩ := hidle.resolve_right fun h => hover h.1
  have hflag := hs.compiler_running h hx
    (Bool.eq_false_of_not_eq_true fun ht => hover (hatt.terminated ht))
  obtain ⟨je, hend⟩ := hs.job_ended h hpool (r := (c, sid)) hflag
  cases je with
  | dropped =>
    obtain ⟨y, hy, hterm⟩ := hs.accounted.dropped _ hend
    obtain rfl : x = y := Option.some.inj (hx.symm.trans hy)
    exact hover (hatt.terminated hterm)
  | published out objFile =>
    have hans := hs.answering _ e he
    have harrives : ResultArrives sid out objFile .empty [] :=
      arrives_of_sendable (hs.sendable _ out objFile hend) sid rfl
    obtain ⟨init, last, heq, hlast, -⟩ := harrives.1
    have hall : e.chunks = sendCompilationResult sid out objFile := by
      refine Eq.trans ?_ (hs.published hend).2
      have htake : (s.server.sentBy (c, sid)).take e.read = s.server.sentBy (c, sid) :=
        List.take_of_length_le (List.drop_eq_nil_iff.mp hunread)
      rw [hans.handled (by simp [hphase]), htake]
      rfl
    have hmem : last ∈ e.chunks := by
      rw [hall, heq]
      simp
    exact Bool.noConfusion (hlast.symm.trans (hans.waiting hphase last hmem))

/-- **A client's answer is the result of its job**, all of it: what it has handled is the first part
of what was sent, and of a result only the last chunk is marked. -/
theorem Consistent.answered (hs : Consistent sha1 fs ends s) {r : ClientId × SessionId}
    {e : ClientEnd} {resp : UnixIpcResponse} (he : s.ends r = some e)
    (hp : e.phase = .answered resp) :
    ∃ out objFile, (r, JobEnd.published out objFile) ∈ ends
      ∧ e.chunks = sendCompilationResult r.2 out objFile
      ∧ resp = ⟨out.exitCode, out.stderrData, out.stdoutData⟩ := by
  have hans := hs.answering r e he
  obtain ⟨init, last, hchunks, hlast, hresp⟩ := hans.answered resp hp
  obtain ⟨rest, hrest⟩ : ∃ rest, s.server.resultChunks r = e.chunks ++ rest := by
    refine ⟨((s.server.sentBy r).drop e.read).filterMap ServerMessage.objFileChunk?, ?_⟩
    rw [hans.handled (by rw [hp]; exact nofun), ← List.filterMap_append, List.take_append_drop]
    rfl
  have hsent : .objFileChunk last ∈ s.server.sentBy r := by
    have hmem : last ∈ s.server.resultChunks r := by simp [hrest, hchunks]
    obtain ⟨m, hm, hm'⟩ := List.mem_filterMap.mp hmem
    cases m with
    | objFileChunk a => exact Option.some.inj hm' ▸ hm
    | _ => exact absurd hm' nofun
  obtain ⟨out, objFile, hend, hmem⟩ := hs.sent_chunk hsent
  have hall := (hs.published hend).2
  have harrives : ResultArrives r.2 out objFile .empty [] :=
    arrives_of_sendable (hs.sendable _ out objFile hend) r.2 rfl
  obtain ⟨init', last', heq, hlast', hinit'⟩ := harrives.1
  have hnil : rest = [] := by
    obtain rfl | ⟨rest', m, rfl⟩ := List.eq_nil_or_concat rest
    · rfl
    · have hboth : (init ++ [last] ++ rest') ++ [m] = init' ++ [last'] := by
        rw [← heq, ← hall, hrest, hchunks]
        simp
      obtain ⟨hinit, -⟩ := List.append_inj' hboth rfl
      have hmark := hinit' last (by rw [← hinit]; simp)
      exact absurd (hlast.symm.trans hmark) nofun
  refine ⟨out, objFile, hend, ?_, ?_⟩
  · rw [← hall, hrest, hnil, List.append_nil]
  · obtain ⟨hcode, hstdout, hstderr⟩ := last_message_carries hmem hlast
    rw [← hresp, ObjFileChunk.response, hcode, hstdout, hstderr]

end Offload

variable (sha1 : Str → Str) (fs : ClientId → Str → Option Str)

/-- What a network in the state `s`, in which the jobs `ends` have ended, does for its clients. -/
structure Network.Offloads (ends : List ((ClientId × SessionId) × JobEnd)) (s : Network) :
    Prop where
  /-- A worker finds the files of its session as the client has them. -/
  compiled : ∀ k ∈ s.server.workers, ∀ r ∈ k.requester, ∃ x ∈ (s.server.views r.1).sessions r.2,
    ∀ f ∈ x.requiredFilesState, ∃ content, fs r.1 f = some content
      ∧ s.server.disk.files (cnvtClientToServerPath (workspaceOf r.1) f) = some content
  /-- The files of the server are those of one client and one name each. -/
  separate : ∀ c c' k k' v v', (s.server.views c).files k = some v →
    (s.server.views c').files k' = some v' → SameFile v.serverFilePath v'.serverFilePath →
    c = c' ∧ k = k'
  /-- A response of the server is the result of the one job of its session, from the first chunk to
  the last, and that is a success. -/
  answered : ∀ r e resp, s.ends r = some e → e.phase.outcome = some (.response resp) →
    ∃ out objFile, ends.filter (·.1 = r) = [(r, .published out objFile)]
      ∧ out.exitCode = 0
      ∧ resp = ⟨out.exitCode, out.stderrData, out.stdoutData⟩
      ∧ e.chunks = sendCompilationResult r.2 out objFile
      ∧ ∀ d path, d.writable path = true → ResultArrives r.2 out objFile d path
  /-- A client compiles for itself only if the result was in front of the confirmation, or the one
  job of its session failed. -/
  compiledLocally : ∀ r e, s.ends r = some e → e.phase.outcome = some .compiledLocally →
    (∃ a, (s.server.sentBy r).head? = some (.objFileChunk a))
      ∨ ∃ out objFile, ends.filter (·.1 = r) = [(r, .published out objFile)] ∧ out.exitCode ≠ 0
  /-- When nobody can take a step, every client is done. -/
  rests : s.AtRest sha1 fs → ∀ r e, s.ends r = some e → e.phase.outcome.isSome = true

variable {sha1 fs}

/-- The client has one file, of one byte. -/
def oneFile : ClientId → Str → Option Str := fun _ f =>
  if f = str "/a.c" then some (str "a") else none

/-- Its session is confirmed, and uploads the file. -/
def connectAndUpload : List NetAction :=
  let c := str "c"
  let s := str "s"
  [.connect c s [str "/a.c"]]
    ++ (onSession c s [.prepare, .scan 0, .claim, .confirm]).map .server
    ++ [.server (.client c (.sweepStart s [s])), .read c s, .deliver c s]
    ++ (onSession c s [.transfer, .measure, .hash, .copy, .write]).map .server
    ++ [.server (.client c (.sweepChunk s [s]))]
    ++ (onSession c s [.notify]).map .server

/-- The file is compiled, and the client reads the acknowledgement and the result. -/
def offloaded : List NetAction :=
  let c := str "c"
  let s := str "s"
  connectAndUpload ++ (compileAndPublish (str "o")).map .server
    ++ [.read c s, .read c s, .deliver c s, .server (.client c (.remove s)),
      .server (.client c (.release s))]

end DistBuild
