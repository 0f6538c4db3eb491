import DistBuild.Server.Scheduling
import DistBuild.Server.Workers

/-!
# Server/Confirmation — the first message of a session is its confirmation

    add_session:   start ─▸ prepare ─▸ scan … ─▸ confirm ─▸ sweep
                            └── another thread's sweep may enqueue it here ──▸ worker publishes

The client takes any other first message for a failure.  The handler starts with the confirmation,
so only a worker can come before it, and it needs a request: one that a sweep of another thread
enqueued for a session it met ready and unconfirmed.  Where no sweep meets one, the confirmation
comes first (`confirmation_first`).
-/

namespace DistBuild

def ServerMessage.isConfirmation : ServerMessage → Bool
  | .sessionConfirmed _ _ => true
  | _ => false

namespace ClientView

/-- The session has sent its confirmation. -/
def Confirmed (V : ClientView) (sid : SessionId) : Prop :=
  ∃ x ∈ V.sessions sid, x.starting.unconfirmed = false

/-- No associated session that is unconfirmed is ready and still to be compiled. -/
def SweepsConfirmed (V : ClientView) : Prop :=
  ∀ t ∈ V.associatedSessions, ∀ x ∈ V.sessions t, x.starting.unconfirmed = true →
    V.isCompilerRunning t = true ∨ ¬ V.Ready x

instance (V : ClientView) : Decidable V.SweepsConfirmed := by
  unfold SweepsConfirmed
  infer_instance

/-- The step is no sweep that meets such a session. -/
def MeetsConfirmed : ClientAction → ClientView → Prop
  | .sweepStart _ _, V | .sweepChunk _ _, V => V.SweepsConfirmed
  | _, _ => True

instance MeetsConfirmed.decidable : ∀ a V, Decidable (MeetsConfirmed a V)
  | .sweepStart _ _, V | .sweepChunk _ _, V => inferInstanceAs (Decidable V.SweepsConfirmed)
  | .start _ _, _ | .session _ _, _ | .terminate _, _ | .remove _, _ | .release _, _ =>
    inferInstanceAs (Decidable True)

variable {sha1 : Str → Str} {w : Str} {disk : Disk} {V : ClientView} {a : ClientAction}
  {e : ViewEffect}

/-- **A confirmed session stays confirmed.** -/
theorem Confirmed.step (h : Step sha1 w disk V a e) {t : SessionId} (ht : V.Confirmed t) :
    e.view.Confirmed t := by
  obtain ⟨y, hy, hconf⟩ := ht
  have hmove : ∀ {sid x x'}, V.sessions sid = some x →
      (x.starting.unconfirmed = false → x'.starting.unconfirmed = false) →
      ∃ z ∈ Function.update V.sessions sid (some x') t, z.starting.unconfirmed = false := by
    intro sid x x' hx hx'
    by_cases hts : t = sid
    · subst hts
      obtain rfl : x = y := Option.some.inj (hx.symm.trans hy)
      exact ⟨x', Function.update_self .., hx' hconf⟩
    · exact ⟨y, (Function.update_of_ne hts ..).trans hy, hconf⟩
  cases h with
  | @start sid infos h =>
    refine ⟨y, (V.addSession_of_ne w infos ?_).trans hy, hconf⟩
    rintro rfl
    exact absurd (h.symm.trans hy) nofun
  | session hx h =>
    refine hmove hx fun hc => ?_
    rcases h.threads with ⟨hu, -⟩ | ⟨-, -, -, -, he⟩ | ⟨-, hst, -⟩
    · rw [hc] at hu
      cases hu
    · rw [he]
      rfl
    · exact hst ▸ hc
  | sweepStart hx h hnew => exact hmove hx fun _ => rfl
  | sweepChunk hx h hnew => exact hmove hx id
  | terminate hx h => exact hmove hx id
  | remove hx h => exact hmove hx id
  | release hx h => exact hmove hx id

/-- **Only its own confirmation confirms a session.** -/
theorem Confirmed.of_step (h : Step sha1 w disk V a e) {t : SessionId} (ht : e.view.Confirmed t) :
    V.Confirmed t ∨ a = .session t .confirm := by
  obtain ⟨y, hy, hconf⟩ := ht
  have hmove : ∀ {sid x x'}, V.sessions sid = some x →
      Function.update V.sessions sid (some x') t = some y →
      (x'.starting.unconfirmed = false → x.starting.unconfirmed = false) → V.Confirmed t := by
    intro sid x x' hx hy hx'
    rcases update_eq_some.mp hy with ⟨rfl, rfl⟩ | ⟨-, hy⟩
    · exact ⟨x, hx, hx' hconf⟩
    · exact ⟨y, hy, hconf⟩
  cases h with
  | @start sid infos h =>
    by_cases hts : t = sid
    · subst hts
      rw [addSession_self] at hy
      obtain rfl := Option.some.inj hy
      cases hconf
    · exact Or.inl ⟨y, (V.addSession_of_ne w infos hts).symm.trans hy, hconf⟩
  | @session sid a x e hx h =>
    rcases h.threads with ⟨hu, hu', -⟩ | ⟨rfl, -⟩ | ⟨-, hst, -⟩
    · exact Or.inl (hmove hx hy fun h0 => by rw [hu'] at h0; cases h0)
    · by_cases hts : t = sid
      · exact Or.inr (hts ▸ rfl)
      · exact Or.inl ⟨y, (Function.update_of_ne hts ..).symm.trans hy, hconf⟩
    · exact Or.inl (hmove hx hy fun h0 => hst ▸ h0)
  | sweepStart hx h hnew => exact Or.inl (hmove hx hy fun _ => by rw [h]; rfl)
  | sweepChunk hx h hnew => exact Or.inl (hmove hx hy id)
  | terminate hx h => exact Or.inl (hmove hx hy id)
  | remove hx h => exact Or.inl (hmove hx hy id)
  | release hx h => exact Or.inl (hmove hx hy id)

/-- What a sweep enqueues is confirmed, if it meets no session that is ready before that. -/
theorem Confirmed.of_enqueued (h : Step sha1 w disk V a e) (hg : MeetsConfirmed a V)
    {t : SessionId} (ht : t ∈ e.enqueued) : V.Confirmed t := by
  have hready := h.readyToCompile ht
  have hno : V.SweepsConfirmed → t ∈ V.associatedSessions → V.isCompilerRunning t = false →
      V.Confirmed t := by
    intro hV hmem hflag
    obtain ⟨x, hx, hr⟩ := hready
    refine ⟨x, hx, Bool.eq_false_of_not_eq_true fun hu => ?_⟩
    rcases hV t hmem x hx hu with h0 | h0
    · exact absurd (hflag.symm.trans h0) nofun
    · exact h0 hr
  cases h with
  | sweepStart hx h hnew => exact hno hg (hnew t ht).1 (hnew t ht).2.1
  | sweepChunk hx h hnew => exact hno hg (hnew t ht).1 (hnew t ht).2.1
  | start _ => cases ht
  | session _ _ => cases ht
  | terminate _ _ => cases ht
  | remove _ _ => cases ht
  | release _ _ => cases ht

/-- **What a session sends**: its confirmation in the step that confirms it, and else nothing unless
it is confirmed. -/
theorem Step.sent_cases (h : Step sha1 w disk V a e) (hV : Registered V) :
    (e.sent = [] ∧ ∀ t, e.view.Confirmed t → V.Confirmed t)
      ∨ (a = .session a.actor .confirm ∧ ∃ m, e.sent = [m] ∧ m.isConfirmation = true
          ∧ e.view.Confirmed a.actor)
      ∨ V.Confirmed a.actor := by
  by_cases ha : a = .session a.actor .confirm
  · refine Or.inr (Or.inl ⟨ha, ?_⟩)
    rw [ha] at h
    cases h with
    | session hx h =>
      cases h with
      | confirm h => exact ⟨_, rfl, rfl, _, Function.update_self .., rfl⟩
  · have hkept : ∀ t, e.view.Confirmed t → V.Confirmed t := by
      intro t ht
      refine (Confirmed.of_step h ht).resolve_right ?_
      rintro rfl
      exact ha rfl
    cases h with
    | @session sid a x e hx h =>
      cases h with
      | confirm h => exact absurd rfl ha
      | prepare h => exact Or.inl ⟨rfl, hkept⟩
      | scan h hv => exact Or.inl ⟨rfl, hkept⟩
      | claim h => exact Or.inl ⟨rfl, hkept⟩
      | _ h =>
        refine Or.inr (Or.inr ⟨x, hx, Bool.eq_false_of_not_eq_true fun hu => ?_⟩)
        exact absurd (h.symm.trans ((hV sid x hx).unconfirmed hu)) nofun
    | _ => exact Or.inl ⟨rfl, hkept⟩

end ClientView

namespace System

/-- What the session `r` has sent so far. -/
def sentBy (s : System) (r : ClientId × SessionId) : List ServerMessage :=
  s.sent.filterMap fun m => if m.1 = r then some m.2 else none

variable {sha1 : Str → Str}

theorem sentBy_append (s t : System) {l : List ((ClientId × SessionId) × ServerMessage)}
    (h : t.sent = s.sent ++ l) (r : ClientId × SessionId) :
    t.sentBy r = s.sentBy r ++ l.filterMap fun m => if m.1 = r then some m.2 else none := by
  rw [sentBy, h, List.filterMap_append, sentBy]

/-- What one session sends is none of another's. -/
theorem filterMap_sender (q r : ClientId × SessionId) (ms : List ServerMessage) :
    ((ms.map fun m => (q, m)).filterMap fun m => if m.1 = r then some m.2 else none)
      = if q = r then ms else [] := by
  split_ifs with h
  · induction ms with
    | nil => rfl
    | cons m ms ih => simp [h]
  · simp [h]

/-- **A worker sends object chunks, for the session whose request it holds**, if anything. -/
theorem workerStep_sent {i : ℕ} {a : WorkerAction} {k : Worker} {s t : System}
    (h : workerStep i a k s = some t) :
    t.sent = s.sent ∨ ∃ (r : ClientId × SessionId) (chunks : List ObjFileChunk),
      k.requester = some r ∧ t.sent = s.sent ++ chunks.map fun m => (r, .objFileChunk m) := by
  unfold workerStep at h
  split at h
  · split at h
    · cases h
    · split_ifs at h
      · cases h
        exact Or.inl rfl
      · cases h
        exact Or.inl rfl
  · cases h
    exact Or.inl rfl
  · cases h
    exact Or.inl rfl
  · cases h
    exact Or.inl rfl
  · rename_i objFile r out
    cases h
    exact Or.inr ⟨r, sendCompilationResult r.2 out objFile, rfl, rfl⟩
  · cases h

/-- A request in the queue after a step of a client is one of those before, invalidated or not, or a
sweep enqueued it. -/
theorem mem_requeue_requester {queue : List CompilationRequest} {c : ClientId} {a : ClientAction}
    {enqueued : List SessionId} {r : CompilationRequest} (h : r ∈ requeue queue c a enqueued) :
    (∃ q ∈ queue, q.requesterSession = r.requesterSession)
      ∨ ∃ sid ∈ enqueued, r.requesterSession = (c, sid) := by
  cases a with
  | terminate sid =>
    obtain ⟨q, hq, rfl⟩ := List.mem_map.mp h
    exact Or.inl ⟨q, hq, by split_ifs <;> rfl⟩
  | _ =>
    rcases List.mem_append.mp h with h | h
    · exact Or.inl ⟨r, h, rfl⟩
    · obtain ⟨sid, hsid, rfl⟩ := List.mem_map.mp h
      exact Or.inr ⟨sid, hsid, rfl⟩

/-- **The invariant**, for the client `c`: requests are of confirmed sessions; a session that is not
confirmed has sent nothing, and one that is sent its confirmation first. -/
structure ConfirmedFirst (c : ClientId) (s : System) : Prop where
  registered : (s.views c).Registered
  queued : ∀ r ∈ s.compileTaskQueue, ∀ sid, r.requesterSession = (c, sid) →
    (s.views c).Confirmed sid
  held : ∀ k ∈ s.workers, ∀ sid, k.requester = some (c, sid) → (s.views c).Confirmed sid
  silent : ∀ sid, ¬ (s.views c).Confirmed sid → s.sentBy (c, sid) = []
  first : ∀ sid, (s.views c).Confirmed sid → ∃ m ∈ (s.sentBy (c, sid)).head?,
    m.isConfirmation = true

/-- What a step adds to what the session `sid` has sent: nothing; or it is confirmed; or this is its
confirmation. -/
inductive Says (c : ClientId) (sid : SessionId) (s t : System) : Prop
  | nothing (hsent : t.sentBy (c, sid) = s.sentBy (c, sid))
    (hkept : (t.views c).Confirmed sid → (s.views c).Confirmed sid)
  | more (ms : List ServerMessage) (hsent : t.sentBy (c, sid) = s.sentBy (c, sid) ++ ms)
    (hconf : (s.views c).Confirmed sid)
  | confirms (m : ServerMessage) (hsent : t.sentBy (c, sid) = s.sentBy (c, sid) ++ [m])
    (hm : m.isConfirmation = true) (hconf : (t.views c).Confirmed sid)

/-- A confirmed session of the server stays confirmed. -/
theorem confirmed_of_step {a : Action} {s t : System} (h : step sha1 a s = some t) {c : ClientId}
    {sid : SessionId} (hc : (s.views c).Confirmed sid) : (t.views c).Confirmed sid := by
  rcases step_view c h with hv | ⟨va, e, -, hstep, hv⟩
  · exact hv ▸ hc
  · exact hv ▸ hc.step hstep

/-- **A step says only what it may.** -/
theorem ConfirmedFirst.says {c : ClientId} {a : Action} {s t : System}
    (h : step sha1 a s = some t) (hs : ConfirmedFirst c s) (sid : SessionId) :
    Says c sid s t := by
  cases a with
  | worker i a =>
    obtain ⟨k, hk, hk'⟩ := Option.bind_eq_some_iff.mp h
    have hviews := (workerStep_views hk').1
    rcases workerStep_sent hk' with hsent | ⟨r, chunks, hr, hsent⟩
    · exact .nothing (by rw [sentBy, hsent, sentBy]) fun hc => hviews ▸ hc
    · have hby : t.sentBy (c, sid) = s.sentBy (c, sid)
          ++ if r = (c, sid) then chunks.map ServerMessage.objFileChunk else [] := by
        rw [← filterMap_sender, List.map_map]
        exact sentBy_append s t hsent (c, sid)
      split_ifs at hby with hrc
      · exact .more _ hby (hs.held k (List.mem_of_getElem? hk) sid (hr.trans (congrArg some hrc)))
      · exact .nothing (by rw [hby, List.append_nil]) fun hc => hviews ▸ hc
  | client c' a =>
    obtain ⟨e, he, ht⟩ := Option.map_eq_some_iff.mp h
    have hstep := ClientView.step_cases he
    have hviews : t.views = Function.update s.views c' e.view := by rw [← ht]
    have hby : t.sentBy (c, sid) = s.sentBy (c, sid)
        ++ if (c', a.actor) = (c, sid) then e.sent else [] := by
      rw [← filterMap_sender]
      exact sentBy_append s t (by rw [← ht]) (c, sid)
    by_cases hc : c' = c
    · subst hc
      have hview : t.views c' = e.view := by rw [hviews, Function.update_self]
      by_cases hsid : a.actor = sid
      · subst hsid
        rw [if_pos rfl] at hby
        rcases hstep.sent_cases hs.registered with ⟨hnil, hkept⟩ | ⟨-, m, hm, hmc, hconf⟩ | hconf
        · exact .nothing (by rw [hby, hnil, List.append_nil]) fun h0 => hkept _ (hview ▸ h0)
        · exact .confirms m (by rw [hby, hm]) hmc (hview ▸ hconf)
        · exact .more e.sent hby hconf
      · rw [if_neg fun h0 => hsid (Prod.mk.inj h0).2, List.append_nil] at hby
        refine .nothing hby fun h0 => ?_
        refine (ClientView.Confirmed.of_step hstep (hview ▸ h0)).resolve_right fun ha => ?_
        rw [ha] at hsid
        exact hsid rfl
    · have hview : t.views c = s.views c := by rw [hviews, Function.update_of_ne (Ne.symm hc)]
      rw [if_neg fun h0 => hc (Prod.mk.inj h0).1, List.append_nil] at hby
      exact .nothing hby fun hconf => hview ▸ hconf

/-- **Every step that sweeps no unconfirmed session keeps the confirmation first.** -/
theorem ConfirmedFirst.step {c : ClientId} {a : Action} {s t : System}
    (hg : onClient c (fun a _ => ClientView.MeetsConfirmed a) a s)
    (h : System.step sha1 a s = some t)
    (hs : ConfirmedFirst c s) : ConfirmedFirst c t := by
  have hkeep : ∀ {sid}, (s.views c).Confirmed sid → (t.views c).Confirmed sid :=
    fun hc => confirmed_of_step h hc
  refine ⟨?_, fun r hr sid hrc => ?_, fun k hk sid hkc => ?_, fun sid hnc => ?_, fun sid hc => ?_⟩
  · rcases step_view c h with hv | ⟨va, e, -, hstep, hv⟩
    · exact hv ▸ hs.registered
    · exact hv ▸ hs.registered.step hstep
  · cases a with
    | worker i a =>
      obtain ⟨k, hk, hk'⟩ := Option.bind_eq_some_iff.mp h
      exact hkeep (hs.queued r ((workerStep_requests hk hk').1 hr) sid hrc)
    | client c' a =>
      obtain ⟨e, he, -, -, hq⟩ := client_cases h
      rw [hq] at hr
      rcases mem_requeue_requester hr with ⟨q, hq, hqr⟩ | ⟨sid', hsid', hreq⟩
      · exact hkeep (hs.queued q hq sid (hqr.trans hrc))
      · obtain ⟨rfl, rfl⟩ := Prod.mk.inj (hreq.symm.trans hrc)
        exact hkeep (.of_enqueued he (hg rfl) hsid')
  · cases a with
    | worker i a =>
      obtain ⟨k₀, hk₀, hk₀'⟩ := Option.bind_eq_some_iff.mp h
      rcases (workerStep_requests hk₀ hk₀').2 k hk _ hkc with ⟨k', hk', hr'⟩ | ⟨q, hq, -, hqr⟩
      · exact hkeep (hs.held k' hk' sid hr')
      · exact hkeep (hs.queued q hq sid hqr)
    | client c' a =>
      rw [client_workers h] at hk
      exact hkeep (hs.held k hk sid hkc)
  · cases hs.says h sid with
    | nothing hsent hkept => exact hsent.trans (hs.silent sid fun hc => hnc (hkeep hc))
    | more ms hsent hconf => exact absurd (hkeep hconf) hnc
    | confirms m hsent hm hconf => exact absurd hconf hnc
  · cases hs.says h sid with
    | nothing hsent hkept => exact hsent ▸ hs.first sid (hkept hc)
    | more ms hsent hconf =>
      obtain ⟨m, hm, hmc⟩ := hs.first sid hconf
      exact ⟨m, by rw [hsent, List.head?_append, hm]; rfl, hmc⟩
    | confirms m hsent hm hconf =>
      by_cases hc : (s.views c).Confirmed sid
      · obtain ⟨m', hm', hmc⟩ := hs.first sid hc
        exact ⟨m', by rw [hsent, List.head?_append, hm']; rfl, hmc⟩
      · exact ⟨m, by rw [hsent, hs.silent sid hc]; rfl, hm⟩

theorem confirmedFirst_initial (c : ClientId) (n : ℕ) (disk : Disk) :
    ConfirmedFirst c (initial n disk) where
  registered := ClientView.registered_empty
  queued := nofun
  held k hk sid hkc := by
    rw [List.eq_of_mem_replicate hk] at hkc
    cases hkc
  silent _ _ := rfl
  first sid hc := by
    obtain ⟨x, hx, -⟩ := hc
    cases hx

end System

/-- **The first message of every session of a client is its confirmation**, in every run in which no
sweep of the client meets a session that is ready, not enqueued and not confirmed. -/
theorem confirmation_first {sha1 : Str → Str} {c : ClientId} {n : ℕ} {disk : Disk}
    {as : List Action} {s : System}
    (hm : Meets (System.step sha1) (System.onClient c fun a _ => ClientView.MeetsConfirmed a) as
      (System.initial n disk))
    (hr : runFrom (System.step sha1) as (System.initial n disk) = some s) (sid : SessionId) :
    ∀ m ∈ (s.sentBy (c, sid)).head?, m.isConfirmation = true := by
  have hs : s.ConfirmedFirst c :=
    hm.invariant (fun _ _ _ hg h hs => hs.step hg h) hr (System.confirmedFirst_initial c n disk)
  intro m hmem
  by_cases hc : (s.views c).Confirmed sid
  · obtain ⟨m', hm', hmc⟩ := hs.first sid hc
    exact Option.some.inj (hm'.symm.trans hmem) ▸ hmc
  · rw [hs.silent sid hc] at hmem
    cases hmem

/-! ### Enqueued before it is confirmed -/

/-- What a worker does with a request, up to the results. -/
def compileAndPublish (objFile : Str) : List Action :=
  [.worker 0 .dequeue, .worker 0 .advertise, .worker 0 (.compile ⟨[], [], 0, 0⟩),
    .worker 0 .advertiseEnd, .worker 0 (.publish (some objFile))]

/-- A session alone, up to its results. -/
def publishedAlone : List Action := uploadSwept ++ compileAndPublish (str "o")

/-- It has sent its confirmation, then the file's completion and the object file. -/
theorem publishedAlone_confirmation_first :
    ∃ s, runFrom (System.step sampleSha1) publishedAlone (System.initial 1 .empty) = some s
      ∧ (s.sentBy (str "c", str "s")).length = 3
      ∧ ∀ m ∈ (s.sentBy (str "c", str "s")).head?, m.isConfirmation = true := by
  have hrun : ((runFrom (System.step sampleSha1) publishedAlone (System.initial 1 .empty)).map
      fun s => decide ((s.sentBy (str "c", str "s")).length = 3)) = some true := by
    decide +kernel
  obtain ⟨s, hr, hlen⟩ := Option.map_eq_some_iff.mp hrun
  exact ⟨s, hr, of_decide_eq_true hlen, confirmation_first (by decide +kernel) hr (str "s")⟩

/-- A second session declares the file that is there; the sweep of the first one enqueues it while
its `add_session` is under way, and the worker is faster. -/
def publishedEarly : List Action :=
  firstUpload ++ startFile (str "c") (str "t") oneByte
    ++ [.client (str "c") (.sweepChunk (str "s") [str "t", str "s"])]
    ++ compileAndPublish (str "o")

/-- Its first message is a chunk of the object file. -/
theorem publishedEarly_object_first :
    ¬ ∀ as s, runFrom (System.step sampleSha1) as (System.initial 1 .empty) = some s →
      ∀ r, ∀ m ∈ (s.sentBy r).head?, m.isConfirmation = true := by
  intro h
  have hrun : ((runFrom (System.step sampleSha1) publishedEarly (System.initial 1 .empty)).map
      fun s => decide (∀ m ∈ (s.sentBy (str "c", str "t")).head?, m.isConfirmation = true))
        = some false := by
    decide +kernel
  obtain ⟨s, hr, hbad⟩ := Option.map_eq_some_iff.mp hrun
  exact of_decide_eq_false hbad (h _ s hr _)

end DistBuild
