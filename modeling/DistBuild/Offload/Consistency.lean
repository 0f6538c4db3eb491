import DistBuild.Offload.Hosting
import DistBuild.Result.OverWire

/-!
# Offload/Consistency — the whole network

    each client     Hosted        its sessions, its files on the server, its ends
    the compiler    Accounted     every job pending or ended, once
    each end        Answering     what the client has made of what it has read

The three meet where a client reads an object chunk: its session has been sent one, so its job was
requested, so its files are all there.
-/

namespace DistBuild.Offload

/-! ## What a client has made of what it has read -/

/-- The client `e`, to which its session has sent `sent`. -/
structure Answering (sent : List ServerMessage) (e : ClientEnd) : Prop where
  read : e.read ≤ sent.length
  handled : e.phase ≠ .fallenBack →
    e.chunks = (sent.take e.read).filterMap ServerMessage.objFileChunk?
  connecting : e.phase = .connecting → e.read = 0
  waiting : e.phase = .handling → ∀ m ∈ e.chunks, m.isLastChunk = false
  answered : ∀ r, e.phase = .answered r →
    ∃ init last, e.chunks = init ++ [last] ∧ last.isLastChunk = true ∧ last.response = r
  overtaken : e.phase = .fallenBack → ∃ a, sent.head? = some (.objFileChunk a)

theorem answering_start (sent : List ServerMessage) : Answering sent .start where
  read := Nat.zero_le _
  handled _ := rfl
  connecting _ := rfl
  waiting := nofun
  answered := nofun
  overtaken := nofun

variable {sent : List ServerMessage} {e e' : ClientEnd}

/-- More may have been sent. -/
theorem Answering.grows (h : Answering sent e) (l : List ServerMessage) : Answering (sent ++ l) e :=
  { h with
    read := h.read.trans (by simp)
    handled := fun hp => by rw [List.take_append_of_le_length h.read, h.handled hp]
    overtaken := fun hp => by
      obtain ⟨a, ha⟩ := h.overtaken hp
      exact ⟨a, by rw [List.head?_append, ha]; rfl⟩ }

/-- The messages to the server are another matter. -/
theorem Answering.sends (h : Answering sent e) (ms : List ClientMessage) :
    Answering sent { e with toServer := ms } := { h with }

/-- **The next message.** -/
theorem Answering.reads {fs : Str → Option Str} {sid : SessionId} {m : ServerMessage}
    {rest : List ServerMessage} (h : Answering sent e) (hm : sent.drop e.read = m :: rest)
    (hr : Reads fs sid e m e') : Answering sent e' := by
  have hlt : e.read + 1 ≤ sent.length := by
    by_contra hge
    rw [List.drop_eq_nil_of_le (by omega)] at hm
    exact absurd hm nofun
  have htake : sent.take (e.read + 1) = sent.take e.read ++ [m] := by
    rw [List.take_add_one, ← List.head?_drop, hm]
    rfl
  have hnil : e.phase = .connecting → e.chunks = [] := fun hp => by
    rw [h.handled (by rw [hp]; exact nofun), h.connecting hp]
    rfl
  have hhandled : e.phase ≠ .fallenBack → e.chunks ++ m.objFileChunk?.toList
      = (sent.take (e.read + 1)).filterMap ServerMessage.objFileChunk? := fun hp => by
    rw [htake, List.filterMap_append, ← h.handled hp]
    cases m <;> rfl
  cases hr with
  | confirmation hphase =>
    refine ⟨hlt, fun _ => ?_, nofun, fun _ m' hm' => ?_, nofun, nofun⟩
    · exact (List.append_nil _).symm.trans (hhandled (by rw [hphase]; exact nofun))
    · exact absurd (hnil hphase ▸ hm' : m' ∈ []) List.not_mem_nil
  | @overtaken a hphase =>
    refine ⟨hlt, fun hp => absurd rfl hp, nofun, nofun, nofun, fun _ => ⟨a, ?_⟩⟩
    rw [h.connecting hphase, List.drop_zero] at hm
    rw [hm]
    rfl
  | acknowledgement hphase =>
    have hphase' : ((next e).sendNext fs).phase = .handling := hphase
    refine ⟨hlt, fun _ => ?_, fun hp => absurd (hphase'.symm.trans hp) nofun,
      fun _ => h.waiting hphase, fun r hp => absurd (hphase'.symm.trans hp) nofun,
      fun hp => absurd (hphase'.symm.trans hp) nofun⟩
    exact (List.append_nil _).symm.trans (hhandled (by rw [hphase]; exact nofun))
  | @chunk a hphase hlast =>
    refine ⟨hlt, fun _ => hhandled (by rw [hphase]; exact nofun),
      fun hp => absurd (hphase.symm.trans hp) nofun, fun _ m' hm' => ?_,
      fun r hp => absurd (hphase.symm.trans hp) nofun, fun hp =>
        absurd (hphase.symm.trans hp) nofun⟩
    rcases List.mem_append.mp hm' with hm' | hm'
    · exact h.waiting hphase m' hm'
    · rw [List.mem_singleton.mp hm']
      exact hlast
  | @last a hphase hlast =>
    refine ⟨hlt, fun _ => hhandled (by rw [hphase]; exact nofun), nofun, nofun, ?_, nofun⟩
    intro r hp
    exact ⟨e.chunks, a, rfl, hlast, ClientPhase.answered.inj hp⟩

/-! ## Workspaces -/

/-- **Files of different clients have different server paths**: the client's name is what comes
before the next slash. -/
theorem pathOf_ne_of_client {c c' : ClientId} {fs fs' : Str → Option Str} {k k' : Str}
    (h : Transferable c fs k) (h' : Transferable c' fs' k') (hne : c ≠ c') :
    pathOf c k ≠ pathOf c' k' := by
  have hname : ∀ {c : Str} (r : Str), slash ∉ c → (c ++ slash :: r).takeWhile (· ≠ slash) = c := by
    intro c r hc
    rw [List.takeWhile_append_of_pos fun x hx => by simpa using ne_of_mem_of_not_mem hx hc]
    simp
  intro heq
  rw [pathOf, pathOf, cnvtClientToServerPath_of_not_system h.relocated,
    cnvtClientToServerPath_of_not_system h'.relocated, separator_workspaceOf h.plain,
    separator_workspaceOf h'.plain, workspaceOf_eq h.plain, workspaceOf_eq h'.plain] at heq
  simp only [List.append_assoc, List.cons_append, List.nil_append, List.append_cancel_left_eq,
    List.cons.injEq, true_and] at heq
  refine hne ?_
  rw [← hname (relativePath k) h.plain.2.1, heq, hname _ h'.plain.2.1]

/-! ## The network -/

/-- **The invariant** of the network, where `ends` are the jobs ended so far. -/
structure Consistent (sha1 : Str → Str) (fs : ClientId → Str → Option Str)
    (ends : List ((ClientId × SessionId) × JobEnd)) (s : Network) : Prop where
  hosted : ∀ c, Hosted sha1 c (fs c) s.server.disk (s.server.views c) (fun t => s.ends (c, t))
    fun t => s.server.sentBy (c, t)
  accounted : s.server.Accounted ends
  sendable : ∀ r out objFile, (r, JobEnd.published out objFile) ∈ ends → Sendable out objFile
  answering : ∀ r e, s.ends r = some e → Answering (s.server.sentBy r) e
  writable : ∀ c k, Transferable c (fs c) k → s.server.disk.writable (pathOf c k) = true

variable {sha1 : Str → Str} {fs : ClientId → Str → Option Str}
  {ends : List ((ClientId × SessionId) × JobEnd)} {s : Network} {t : System}

theorem consistent_initial {n : ℕ} {disk : Disk}
    (hw : ∀ c k, Transferable c (fs c) k → disk.writable (pathOf c k) = true) :
    Consistent sha1 fs [] (Network.initial n disk) where
  hosted _ := hosted_empty disk
  accounted := System.accounted_initial n disk
  sendable _ _ _ h := absurd h List.not_mem_nil
  answering _ _ h := absurd h nofun
  writable := hw

/-- **A job that is pending, or has been ended**, is of a session whose files are all there. -/
theorem Consistent.flag (hs : Consistent sha1 fs ends s) {r : ClientId × SessionId}
    (h : 0 < s.server.pending r + ends.countP (·.1 = r)) :
    (s.server.views r.1).isCompilerRunning r.2 = true := by
  rw [hs.accounted.balance r] at h
  exact Bool.eq_true_of_not_eq_false fun hf => by simp [hf] at h

/-- So is the job that a worker holds. -/
theorem Consistent.held (hs : Consistent sha1 fs ends s) {k : Worker} {r : ClientId × SessionId}
    (hk : k ∈ s.server.workers) (hr : k.requester = some r) :
    ∃ x, (s.server.views r.1).sessions r.2 = some x
      ∧ ∀ f ∈ x.requiredFilesState, Has (s.server.views r.1).files f .available := by
  have hheld : 0 < s.server.workers.countP (·.requester = some r) :=
    List.countP_pos_iff.mpr ⟨k, hk, decide_eq_true hr⟩
  have hpending : 0 < s.server.pending r + ends.countP (·.1 = r) := by
    unfold System.pending
    omega
  exact (hs.hosted r.1).flagged r.2 (hs.flag hpending)

/-- An object chunk that a session has sent is one of a job's result. -/
theorem Consistent.sent_chunk (hs : Consistent sha1 fs ends s) {r : ClientId × SessionId}
    {a : ObjFileChunk} (h : .objFileChunk a ∈ s.server.sentBy r) :
    ∃ out objFile, (r, JobEnd.published out objFile) ∈ ends
      ∧ a ∈ sendCompilationResult r.2 out objFile := by
  have hmem : a ∈ s.server.resultChunks r := List.mem_filterMap.mpr ⟨_, h, rfl⟩
  rw [hs.accounted.chunks r] at hmem
  obtain ⟨⟨q, je⟩, hend, ha⟩ := List.mem_flatMap.mp hmem
  dsimp only at ha
  split_ifs at ha with hq
  · subst hq
    cases je with
    | published out objFile => exact ⟨out, objFile, hend, ha⟩
    | dropped => exact absurd ha List.not_mem_nil
  · exact absurd ha List.not_mem_nil

/-- A step of the client `c` at the server sends to its own session, and to nobody else. -/
theorem sentBy_client {c : ClientId} {a : ClientAction} {E : ViewEffect} {s t : System}
    (ht : t.sent = s.sent ++ E.sent.map fun m => ((c, a.actor), m)) (r : ClientId × SessionId) :
    t.sentBy r = s.sentBy r ++ if (c, a.actor) = r then E.sent else [] := by
  rw [System.sentBy_append s t ht, System.filterMap_sender]

/-- **A step of one client leaves the network consistent**, if it leaves that client hosted. -/
theorem Consistent.client {c : ClientId} {a : ClientAction} {E : ViewEffect}
    {ends' : ClientId × SessionId → Option ClientEnd} (hs : Consistent sha1 fs ends s)
    (h : System.step sha1 (.client c a) s.server = some t)
    (hviews : t.views = Function.update s.server.views c E.view) (hdisk : t.disk = E.disk)
    (hsent : t.sent = s.server.sent ++ E.sent.map fun m => ((c, a.actor), m))
    (hhosted : Hosted sha1 c (fs c) E.disk E.view (fun u => ends' (c, u)) fun u => t.sentBy (c, u))
    (hconf : Confined c (fs c) s.server.disk E.disk)
    (hends : ∀ r, r.1 ≠ c → ends' r = s.ends r)
    (hanswering : ∀ r e, ends' r = some e → Answering (t.sentBy r) e) :
    Consistent sha1 fs ends ⟨t, ends'⟩ where
  hosted c' := by
    by_cases hc : c' = c
    · subst hc
      show Hosted sha1 c' (fs c') t.disk (t.views c') _ _
      rw [hviews, hdisk, Function.update_self]
      exact hhosted
    · have hview : t.views c' = s.server.views c' := by rw [hviews, Function.update_of_ne hc]
      have hback : (fun u => ends' (c', u)) = fun u => s.ends (c', u) :=
        funext fun u => hends _ hc
      show Hosted sha1 c' (fs c') t.disk (t.views c') _ _
      rw [hview, hdisk, hback]
      refine (hs.hosted c').frame (fun k hk => hconf.files _ fun k' hk' => ?_) hconf.writable
        (fun u e he => (hs.answering _ e he).read) fun u => ⟨[], ?_, fun _ => rfl⟩
      · exact pathOf_ne_of_client hk hk' hc
      · show t.sentBy (c', u) = _
        rw [sentBy_client hsent, if_neg fun hcc => hc (Prod.mk.inj hcc).1.symm]
        rfl
  accounted := hs.accounted.client h
  sendable := hs.sendable
  answering := hanswering
  writable c' k hk := by
    show t.disk.writable _ = true
    rw [hdisk, hconf.writable]
    exact hs.writable c' k hk

/-- A job is published by the worker that holds its output. -/
theorem published_of_mem_workerEnds {a : WorkerAction} {k : Worker} {s : System}
    {r : ClientId × SessionId} {out : CompilationOutput} {objFile : Option Str}
    (h : (r, JobEnd.published out objFile) ∈ System.workerEnds a k s) :
    a = .publish objFile ∧ k = .publishing r out := by
  unfold System.workerEnds at h
  split at h
  · obtain ⟨q, -, hq⟩ := Option.map_eq_some_iff.mp (Option.mem_toList.mp h)
    exact JobEnd.noConfusion (Prod.mk.inj hq).2
  · obtain ⟨rfl, hje⟩ := Prod.mk.inj (List.mem_singleton.mp h)
    obtain ⟨rfl, rfl⟩ := JobEnd.published.inj hje
    exact ⟨rfl, rfl⟩
  · exact absurd h List.not_mem_nil

/-- **A worker's step**: what it sends is a result, of a session that has been requested. -/
theorem Consistent.worker {i : ℕ} {a : WorkerAction} (hs : Consistent sha1 fs ends s)
    (hg : Network.Sound fs (.server (.worker i a)) s)
    (h : System.step sha1 (.worker i a) s.server = some t) :
    Consistent sha1 fs (ends ++ System.jobEnds (.worker i a) s.server) ⟨t, s.ends⟩ := by
  have hacc := hs.accounted.step h
  obtain ⟨k, hk, hstep⟩ := Option.bind_eq_some_iff.mp h
  obtain ⟨hviews, hdisk⟩ := System.workerStep_views hstep
  have hsent : ∀ r, ∃ chunks : List ObjFileChunk,
      t.sentBy r = s.server.sentBy r ++ chunks.map .objFileChunk
        ∧ ((s.server.views r.1).sessions r.2 = none → chunks = []) := by
    intro r
    rcases System.workerStep_sent hstep with hsent | ⟨q, chunks, hq, hsent⟩
    · exact ⟨[], by rw [System.sentBy, hsent, List.map_nil, List.append_nil, System.sentBy],
        fun _ => rfl⟩
    · have hmap : chunks.map (fun m => (q, ServerMessage.objFileChunk m))
          = (chunks.map ServerMessage.objFileChunk).map fun m => (q, m) := by
        rw [List.map_map]
        rfl
      have hq' := System.sentBy_append s.server t hsent r
      rw [hmap, System.filterMap_sender] at hq'
      by_cases hqr : q = r
      · subst hqr
        refine ⟨chunks, by rw [hq', if_pos rfl], fun hnone => ?_⟩
        obtain ⟨x, hx, -⟩ := hs.held (List.mem_of_getElem? hk) hq
        exact absurd (hx.symm.trans hnone) (Option.some_ne_none x)
      · exact ⟨[], by rw [hq', if_neg hqr]; rfl, fun _ => rfl⟩
  refine ⟨fun c => ?_, hacc, fun r out objFile hr => ?_, fun r e he => ?_, fun c k hk => ?_⟩
  · show Hosted sha1 c (fs c) t.disk (t.views c) _ _
    rw [hviews, hdisk]
    exact (hs.hosted c).frame (fun _ _ => rfl) rfl (fun u e he => (hs.answering _ e he).read)
      fun u => hsent (c, u)
  · rcases List.mem_append.mp hr with hr | hr
    · exact hs.sendable r out objFile hr
    · rw [System.jobEnds, hk] at hr
      obtain ⟨rfl, rfl⟩ := published_of_mem_workerEnds hr
      exact hg _ hk out rfl
  · obtain ⟨chunks, hchunks, -⟩ := hsent r
    exact hchunks ▸ (hs.answering r e he).grows _
  · show t.disk.writable _ = true
    rw [hdisk]
    exact hs.writable c k hk

/-- **A client's step that sends nothing**, with what it makes of its own end. -/
theorem Consistent.client_end {c : ClientId} {sid : SessionId} {a : ClientAction} {E : ViewEffect}
    {e' : ClientEnd} (hs : Consistent sha1 fs ends s)
    (hE : ClientView.step sha1 (workspaceOf c) a s.server.disk (s.server.views c) = some E)
    (ht : { s.server with
      views := Function.update s.server.views c E.view
      disk := E.disk
      compileTaskQueue := System.requeue s.server.compileTaskQueue c a E.enqueued
      sent := s.server.sent ++ E.sent.map fun m => ((c, a.actor), m) } = t)
    (h : E.sent = [] ∧ Hosted sha1 c (fs c) E.disk E.view
        (fun u => Function.update s.ends (c, sid) (some e') (c, u))
        (fun u => s.server.sentBy (c, u)) ∧ Confined c (fs c) s.server.disk E.disk)
    (he' : Answering (s.server.sentBy (c, sid)) e') :
    Consistent sha1 fs ends ⟨t, Function.update s.ends (c, sid) (some e')⟩ := by
  obtain ⟨hnil, hhosted, hconf⟩ := h
  have hstep : System.step sha1 (.client c a) s.server = some t := by
    rw [System.step, hE, Option.map_some, ht]
  subst ht
  have hsame : ∀ r, System.sentBy { s.server with
      views := Function.update s.server.views c E.view
      disk := E.disk
      compileTaskQueue := System.requeue s.server.compileTaskQueue c a E.enqueued
      sent := s.server.sent ++ E.sent.map fun m => ((c, a.actor), m) } r = s.server.sentBy r := by
    intro r
    rw [sentBy_client rfl, hnil, ite_self, List.append_nil]
  refine hs.client hstep rfl rfl rfl ?_ hconf (fun r hr => Function.update_of_ne ?_ ..)
    fun r e he => ?_
  · simp only [hsame]
    exact hhosted
  · rintro rfl
    exact hr rfl
  · rw [hsame]
    rcases update_eq_some.mp he with ⟨rfl, rfl⟩ | ⟨-, he⟩
    · exact he'
    · exact hs.answering r e he

/-- Other ends of the client stay as they are. -/
theorem update_end_of_ne {c : ClientId} {sid u : SessionId} {e' : ClientEnd} (h : u ≠ sid) :
    Function.update s.ends (c, sid) (some e') (c, u) = s.ends (c, u) :=
  Function.update_of_ne (fun hcu => h (Prod.mk.inj hcu).2) ..

/-- **Every step of anybody leaves the network consistent.** -/
theorem Consistent.step {a : NetAction} {u : Network} (hg : Network.Sound fs a s)
    (h : Network.step sha1 fs a s = some u) (hs : Consistent sha1 fs ends s) :
    Consistent sha1 fs (ends ++ Network.jobEnds a s) u := by
  cases Network.step_cases h with
  | @connect c sid names t hstep =>
    obtain ⟨E, hE, ht⟩ := Option.map_eq_some_iff.mp hstep
    rw [show Network.jobEnds (.connect c sid names) s = [] from rfl, List.append_nil]
    exact hs.client_end hE ht
      ((hs.hosted c).start hE hg (Function.update_self ..) fun u hu => update_end_of_ne hu)
      (answering_start _)
  | @read c sid e m rest e' he hm hrecv =>
    rw [show Network.jobEnds (.read c sid) s = [] from rfl, List.append_nil]
    have hmem : m ∈ s.server.sentBy (c, sid) := List.mem_of_mem_drop (hm ▸ List.mem_cons_self)
    have hchunk : ∀ b, m = .objFileChunk b →
        b.sessionId = sid ∧ (s.server.views c).isCompilerRunning sid = true := by
      rintro b rfl
      obtain ⟨out, objFile, hend, hb⟩ := hs.sent_chunk hmem
      have hcount : 0 < ends.countP (·.1 = (c, sid)) :=
        List.countP_pos_iff.mpr ⟨_, hend, decide_eq_true rfl⟩
      have hflag : (s.server.views (c, sid).1).isCompilerRunning (c, sid).2 = true :=
        hs.flag (by omega)
      exact ⟨(chunk_logs hb).1, hflag⟩
    have hboth : Reads (fs c) sid e m e' ∧ Hosted sha1 c (fs c) s.server.disk (s.server.views c)
        (fun u => Function.update s.ends (c, sid) (some e') (c, u))
        fun u => s.server.sentBy (c, u) :=
      (hs.hosted c).read (hs.writable c) he hm hchunk hrecv (Function.update_self ..)
        fun u hu => update_end_of_ne hu
    obtain ⟨hreads, hhosted⟩ := hboth
    refine { hs with
      hosted := fun c' => ?_
      answering := fun r f hf => ?_ }
    · by_cases hc : c' = c
      · subst hc
        exact hhosted
      · have hback : (fun u => Function.update s.ends (c, sid) (some e') (c', u))
            = fun u => s.ends (c', u) :=
          funext fun u => Function.update_of_ne (fun hcu => hc (Prod.mk.inj hcu).1) ..
        rw [hback]
        exact hs.hosted c'
    · rcases update_eq_some.mp hf with ⟨rfl, rfl⟩ | ⟨-, hf⟩
      · exact (hs.answering _ e he).reads hm hreads
      · exact hs.answering r f hf
  | @deliver c sid e m rest t he hm hstep =>
    obtain ⟨E, hE, ht⟩ := Option.map_eq_some_iff.mp hstep
    rw [show Network.jobEnds (.deliver c sid) s = [] from rfl, List.append_nil]
    exact hs.client_end hE ht
      ((hs.hosted c).deliver hE he hm (Function.update_self ..) fun u hu => update_end_of_ne hu)
      ((hs.answering _ e he).sends rest)
  | @server a t ha hstep =>
    cases a with
    | worker i a => exact hs.worker hg hstep
    | client c a =>
      rw [show Network.jobEnds (.server (.client c a)) s = [] from rfl, List.append_nil]
      obtain ⟨E, hE, ht⟩ := Option.map_eq_some_iff.mp hstep
      have hsent : ∀ r, t.sentBy r
          = s.server.sentBy r ++ if (c, a.actor) = r then E.sent else [] :=
        fun r => sentBy_client (by rw [← ht]) r
      have hboth : Hosted sha1 c (fs c) E.disk E.view (fun u => s.ends (c, u))
          (fun u => t.sentBy (c, u)) ∧ Confined c (fs c) s.server.disk E.disk := by
        refine (hs.hosted c).internal hE ha ?_
          (fun u e he => (hs.answering _ e he).read) fun u => ?_
        · rintro sid rfl
          exact hg
        · simp [hsent]
      obtain ⟨hhosted, hconf⟩ := hboth
      refine hs.client hstep (by rw [← ht]) (by rw [← ht]) (by rw [← ht]) hhosted hconf
        (fun _ _ => rfl) fun r e he => ?_
      rw [hsent]
      exact (hs.answering r e he).grows _

end DistBuild.Offload
