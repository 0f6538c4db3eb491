import DistBuild.Server.System

/-!
# Server/Workers — compiler workers and the sessions they call

    enqueue ─▸ queued ─▸ dequeue ─▸ advertise ─▸ compile ─▸ advertiseEnd ─▸ publish
                 ▴                      └───────── calls on the session ────────┘
             terminate invalidates what is queued, and nothing else

A request holds its session by a bare pointer.  Termination reaches the requests that are queued at
that moment: neither one that a worker holds, nor one that a sweep of another session enqueues
before the terminated session is removed.  Where there are none of these (`Undisturbed`), every call
is on a session that is there and not terminated (`workers_touch_live`).
-/

namespace DistBuild

/-- The session on which a worker at this point calls a method, in the section `a`. -/
def Worker.calls : Worker → WorkerAction → Option (ClientId × SessionId)
  | .taken r, .advertise => some r
  | .compiled r _, .advertiseEnd => some r
  | .publishing r _, .publish _ => some r
  | _, _ => none

theorem Worker.requester_of_calls {k : Worker} {a : WorkerAction} {r : ClientId × SessionId}
    (h : k.calls a = some r) : k.requester = some r := by
  unfold Worker.calls at h
  split at h
  · exact h
  · exact h
  · exact h
  · cases h

namespace ClientView

/-- The session is there, and not terminated. -/
def Serving (V : ClientView) (sid : SessionId) : Prop :=
  ∃ x ∈ V.sessions sid, x.terminated = false

instance (V : ClientView) (sid : SessionId) : Decidable (V.Serving sid) := by
  unfold Serving
  infer_instance

/-- No associated session that is terminated is still to be compiled. -/
def SweepsServing (V : ClientView) : Prop :=
  ∀ t ∈ V.associatedSessions, ∀ x ∈ V.sessions t, x.terminated = true →
    V.isCompilerRunning t = true ∨ ¬ V.Ready x

instance (V : ClientView) : Decidable V.SweepsServing := by
  unfold SweepsServing
  infer_instance

/-- A session that serves is live. -/
theorem Registered.live {V : ClientView} (hV : V.Registered) {sid : SessionId}
    (h : V.Serving sid) : V.Live sid := by
  obtain ⟨x, hx, hterm⟩ := h
  exact ⟨x, hx, Or.inl ((hV sid x hx).associated hterm)⟩

variable {sha1 : Str → Str} {w : Str}

/-- **Only its own termination stops a session from serving.** -/
theorem serving_of_step {disk : Disk} {V : ClientView} {a : ClientAction} {e : ViewEffect}
    (h : Step sha1 w disk V a e) {t : SessionId} (ha : a ≠ .terminate t) (ht : V.Serving t) :
    e.view.Serving t := by
  have hmove : ∀ {sid x x'}, V.sessions sid = some x → x'.terminated = x.terminated →
      ∃ y ∈ Function.update V.sessions sid (some x') t, y.terminated = false := by
    obtain ⟨y, hy, hterm⟩ := ht
    intro sid x x' hx hx'
    by_cases hts : t = sid
    · subst hts
      obtain rfl : x = y := Option.some.inj (hx.symm.trans hy)
      exact ⟨x', Function.update_self .., hx'.trans hterm⟩
    · exact ⟨y, (Function.update_of_ne hts ..).trans hy, hterm⟩
  cases h with
  | @start sid infos h =>
    obtain ⟨y, hy, hterm⟩ := ht
    refine ⟨y, (V.addSession_of_ne w infos ?_).trans hy, hterm⟩
    rintro rfl
    exact absurd (h.symm.trans hy) nofun
  | session hx h => exact hmove hx h.frame.2.2
  | sweepStart hx h hnew => exact hmove hx rfl
  | sweepChunk hx h hnew => exact hmove hx rfl
  | @terminate sid x hx h =>
    obtain ⟨y, hy, hterm⟩ := ht
    refine ⟨y, (Function.update_of_ne ?_ ..).trans hy, hterm⟩
    rintro rfl
    exact ha rfl
  | remove hx h => exact hmove hx rfl
  | release hx h => exact hmove hx rfl

/-- What a sweep enqueues serves, if it meets no terminated session that is still to be compiled. -/
theorem serving_of_enqueued {disk : Disk} {V : ClientView} {a : ClientAction} {e : ViewEffect}
    (h : Step sha1 w disk V a e) (hV : V.SweepsServing) {t : SessionId} (ht : t ∈ e.enqueued) :
    e.view.Serving t := by
  have hmove : ∀ {sid x x'}, V.sessions sid = some x → x'.terminated = x.terminated →
      x'.requiredFilesState = x.requiredFilesState → x'.areArgsReady = x.areArgsReady →
      t ∈ V.associatedSessions → V.isCompilerRunning t = false →
      (∃ y, Function.update V.sessions sid (some x') t = some y ∧ V.Ready y) →
      ∃ y ∈ Function.update V.sessions sid (some x') t, y.terminated = false := by
    rintro sid x x' hx hterm hreq hargs hmem hflag ⟨y, hy, hr⟩
    refine ⟨y, hy, ?_⟩
    have hno : ∀ z, V.sessions t = some z → V.Ready z → z.terminated = false := by
      intro z hz hrz
      by_contra hne
      rcases hV t hmem z hz (Bool.not_eq_false _ ▸ hne) with h0 | h0
      · exact absurd (hflag.symm.trans h0) nofun
      · exact h0 hrz
    rcases update_eq_some.mp hy with ⟨rfl, rfl⟩ | ⟨-, hy⟩
    · exact hterm.trans (hno x hx ⟨hargs ▸ hr.1, hreq ▸ hr.2⟩)
    · exact hno y hy hr
  cases h with
  | sweepStart hx h hnew =>
    obtain ⟨hmem, hflag, hready⟩ := hnew t ht
    exact hmove hx rfl rfl rfl hmem hflag hready
  | sweepChunk hx h hnew =>
    obtain ⟨hmem, hflag, hready⟩ := hnew t ht
    exact hmove hx rfl rfl rfl hmem hflag hready
  | start _ => cases ht
  | session _ _ => cases ht
  | terminate _ _ => cases ht
  | remove _ _ => cases ht
  | release _ _ => cases ht

end ClientView

namespace System

/-- The session is there, and not terminated. -/
def Serving (s : System) (r : ClientId × SessionId) : Prop := (s.views r.1).Serving r.2

/-- A session is terminated when no worker holds a request of it, and no sweep meets a terminated
session that is still to be compiled. -/
def Undisturbed : Action → System → Prop
  | .client c (.terminate sid), s => ∀ k ∈ s.workers, k.requester ≠ some (c, sid)
  | .client c (.sweepStart _ _), s => (s.views c).SweepsServing
  | .client c (.sweepChunk _ _), s => (s.views c).SweepsServing
  | _, _ => True

instance Undisturbed.decidable : ∀ a s, Decidable (Undisturbed a s)
  | .client c (.terminate sid), s =>
    inferInstanceAs (Decidable (∀ k ∈ s.workers, k.requester ≠ some (c, sid)))
  | .client c (.sweepStart _ _), s => inferInstanceAs (Decidable (s.views c).SweepsServing)
  | .client c (.sweepChunk _ _), s => inferInstanceAs (Decidable (s.views c).SweepsServing)
  | .client _ (.start _ _), _ | .client _ (.session _ _), _ | .client _ (.remove _), _
  | .client _ (.release _), _ | .worker _ _, _ => inferInstanceAs (Decidable True)

/-- **The invariant**: requests, where a worker may still use them, are of sessions that serve. -/
structure Attached (s : System) : Prop where
  registered : ∀ c, (s.views c).Registered
  queued : ∀ r ∈ s.compileTaskQueue, r.invalidated = false → s.Serving r.requesterSession
  held : ∀ k ∈ s.workers, ∀ r ∈ k.requester, s.Serving r

variable {sha1 : Str → Str}

/-- A worker's step leaves requests of the queue, and with the workers what they held or took. -/
theorem workerStep_requests {i : ℕ} {a : WorkerAction} {k : Worker} {s t : System}
    (hk : s.workers[i]? = some k) (h : workerStep i a k s = some t) :
    t.compileTaskQueue ⊆ s.compileTaskQueue
      ∧ ∀ k' ∈ t.workers, ∀ r ∈ k'.requester, (∃ k ∈ s.workers, k.requester = some r)
        ∨ ∃ q ∈ s.compileTaskQueue, q.invalidated = false ∧ q.requesterSession = r := by
  have hset : ∀ k₁, ∀ k' ∈ s.workers.set i k₁, (∀ r ∈ k₁.requester, k.requester = some r) →
      ∀ r ∈ k'.requester, ∃ k ∈ s.workers, k.requester = some r := by
    intro k₁ k' hk' h₁ r hr
    rcases List.mem_or_eq_of_mem_set hk' with hmem | rfl
    · exact ⟨k', hmem, hr⟩
    · exact ⟨k, List.mem_of_getElem? hk, h₁ r hr⟩
  unfold workerStep at h
  split at h
  · split at h
    · cases h
    · rename_i q queue hq
      split_ifs at h with hjobs hinv
      · cases h
        exact ⟨hq ▸ List.subset_cons_self .., fun k' hk' r hr => Or.inl ⟨k', hk', hr⟩⟩
      · cases h
        refine ⟨hq ▸ List.subset_cons_self .., fun k' hk' r hr => ?_⟩
        rcases List.mem_or_eq_of_mem_set hk' with hmem | rfl
        · exact Or.inl ⟨k', hmem, hr⟩
        · exact Or.inr ⟨q, hq ▸ List.mem_cons_self, Bool.not_eq_true _ ▸ hinv, Option.some.inj hr⟩
  · cases h
    exact ⟨List.Subset.refl _, fun k' hk' r hr => Or.inl (hset _ k' hk' (fun _ h0 => h0) r hr)⟩
  · cases h
    exact ⟨List.Subset.refl _, fun k' hk' r hr => Or.inl (hset _ k' hk' (fun _ h0 => h0) r hr)⟩
  · cases h
    exact ⟨List.Subset.refl _, fun k' hk' r hr => Or.inl (hset _ k' hk' (fun _ h0 => h0) r hr)⟩
  · cases h
    exact ⟨List.Subset.refl _, fun k' hk' r hr =>
      Or.inl (hset _ k' hk' (fun _ h0 => nomatch h0) r hr)⟩
  · cases h

/-- A step of a client leaves the workers alone. -/
theorem client_workers {c : ClientId} {a : ClientAction} {s t : System}
    (h : step sha1 (.client c a) s = some t) : t.workers = s.workers := by
  obtain ⟨e, -, rfl⟩ := Option.map_eq_some_iff.mp h
  rfl

/-- Only its own termination stops a session of the server from serving. -/
theorem serving_of_step {a : Action} {s t : System} (h : step sha1 a s = some t)
    {r : ClientId × SessionId} (ha : a ≠ .client r.1 (.terminate r.2)) (hr : s.Serving r) :
    t.Serving r := by
  unfold Serving
  rcases step_view r.1 h with hv | ⟨va, e, rfl, hstep, hv⟩
  · exact hv ▸ hr
  · exact hv ▸ ClientView.serving_of_step hstep (fun hva => ha (by rw [hva])) hr

/-- What is in the queue after a step of a client, and not invalidated, was there before and is not
of a session that terminates, or a sweep enqueued it. -/
theorem mem_requeue {queue : List CompilationRequest} {c : ClientId} {a : ClientAction}
    {enqueued : List SessionId} {r : CompilationRequest} (h : r ∈ requeue queue c a enqueued)
    (hr : r.invalidated = false) :
    (r ∈ queue ∧ ∀ sid, a = .terminate sid → r.requesterSession ≠ (c, sid))
      ∨ ∃ sid ∈ enqueued, r.requesterSession = (c, sid) := by
  cases a with
  | terminate sid =>
    obtain ⟨q, hq, hqr⟩ := List.mem_map.mp h
    split_ifs at hqr with hsid
    · rw [← hqr] at hr
      cases hr
    · subst hqr
      refine Or.inl ⟨hq, ?_⟩
      rintro sid' ⟨⟩
      exact hsid
  | _ =>
    rcases List.mem_append.mp h with h | h
    · exact Or.inl ⟨h, nofun⟩
    · obtain ⟨sid, hsid, rfl⟩ := List.mem_map.mp h
      exact Or.inr ⟨sid, hsid, rfl⟩

/-- No sweep of this step meets a terminated session that is still to be compiled. -/
def SweepsServing : Action → System → Prop
  | .client c (.sweepStart _ _), s => (s.views c).SweepsServing
  | .client c (.sweepChunk _ _), s => (s.views c).SweepsServing
  | _, _ => True

instance SweepsServing.decidable : ∀ a s, Decidable (SweepsServing a s)
  | .client c (.sweepStart _ _), s => inferInstanceAs (Decidable (s.views c).SweepsServing)
  | .client c (.sweepChunk _ _), s => inferInstanceAs (Decidable (s.views c).SweepsServing)
  | .client _ (.start _ _), _ | .client _ (.session _ _), _ | .client _ (.terminate _), _
  | .client _ (.remove _), _ | .client _ (.release _), _ | .worker _ _, _ =>
    inferInstanceAs (Decidable True)

theorem Undisturbed.sweeps {a : Action} {s : System} (hg : Undisturbed a s) :
    SweepsServing a s := by
  cases a with
  | worker i a => trivial
  | client c a =>
    cases a with
    | sweepStart sid order => exact hg
    | sweepChunk sid order => exact hg
    | _ => trivial

/-- A step whose sweeps are guarded enqueues for sessions that serve. -/
theorem SweepsServing.enqueued {c : ClientId} {a : ClientAction} {s : System}
    (hg : SweepsServing (.client c a) s) {disk : Disk} {w : Str} {e : ViewEffect}
    (h : ClientView.Step sha1 w disk (s.views c) a e) {sid : SessionId} (hsid : sid ∈ e.enqueued) :
    e.view.Serving sid := by
  cases a with
  | sweepStart _ _ => exact ClientView.serving_of_enqueued h hg hsid
  | sweepChunk _ _ => exact ClientView.serving_of_enqueued h hg hsid
  | _ =>
    cases h
    cases hsid

/-- **What is queued and not invalidated is of sessions that serve**, from one step to the next. -/
theorem SweepsServing.queued {a : Action} {s t : System} (hg : SweepsServing a s)
    (h : System.step sha1 a s = some t)
    (hs : ∀ r ∈ s.compileTaskQueue, r.invalidated = false → s.Serving r.requesterSession) :
    ∀ r ∈ t.compileTaskQueue, r.invalidated = false → t.Serving r.requesterSession := by
  intro r hr hinv
  cases a with
  | worker i a =>
    obtain ⟨k, hk, hk'⟩ := Option.bind_eq_some_iff.mp h
    exact serving_of_step h nofun (hs r ((workerStep_requests hk hk').1 hr) hinv)
  | client c a =>
    obtain ⟨e, he, hv, -, hq⟩ := client_cases h
    rw [hq] at hr
    rcases mem_requeue hr hinv with ⟨hr, hne⟩ | ⟨sid, hsid, hreq⟩
    · refine serving_of_step h ?_ (hs r hr hinv)
      rintro ⟨⟩
      exact hne _ rfl rfl
    · rw [hreq, Serving, hv]
      exact hg.enqueued he hsid

/-- **Every undisturbed step leaves the requests attached.** -/
theorem Attached.step {a : Action} {s t : System} (hg : Undisturbed a s)
    (h : System.step sha1 a s = some t) (hs : s.Attached) : t.Attached := by
  refine ⟨fun c => ?_, hg.sweeps.queued h hs.queued, ?_⟩
  · rcases step_view c h with hv | ⟨va, e, -, hstep, hv⟩
    · exact hv ▸ hs.registered c
    · exact hv ▸ (hs.registered c).step hstep
  · intro k hk r hr
    cases a with
    | worker i a =>
      obtain ⟨k₀, hk₀, hk₀'⟩ := Option.bind_eq_some_iff.mp h
      refine serving_of_step h nofun ?_
      rcases (workerStep_requests hk₀ hk₀').2 k hk r hr with ⟨k', hk', hr'⟩ | ⟨q, hq, hinv, rfl⟩
      · exact hs.held k' hk' r hr'
      · exact hs.queued q hq hinv
    | client c a =>
      rw [client_workers h] at hk
      refine serving_of_step h ?_ (hs.held k hk r hr)
      rintro ⟨⟩
      exact hg k hk hr

theorem attached_initial (n : ℕ) (disk : Disk) : (initial n disk).Attached where
  registered _ := ClientView.registered_empty
  queued := nofun
  held k hk r hr := by
    rw [List.eq_of_mem_replicate hk] at hr
    cases hr

/-- The session on which the worker `i` calls a method, in the section `a`. -/
def calls (s : System) (i : ℕ) (a : WorkerAction) : Option (ClientId × SessionId) :=
  s.workers[i]?.bind fun k => k.calls a

/-- **Whatever session a worker calls is there, and not terminated.** -/
theorem Attached.calls {s : System} (hs : s.Attached) {i : ℕ} {a : WorkerAction}
    {r : ClientId × SessionId} (h : s.calls i a = some r) :
    (s.views r.1).Live r.2 ∧ s.Serving r := by
  obtain ⟨k, hk, hr⟩ := Option.bind_eq_some_iff.mp h
  have hserves := hs.held k (List.mem_of_getElem? hk) r (k.requester_of_calls hr)
  exact ⟨(hs.registered r.1).live hserves, hserves⟩

end System

/-- **Workers call live sessions only**, and none that is terminated, in every run in which a
session is terminated when no worker holds a request of it, and no sweep meets a terminated session
that is still to be compiled. -/
theorem workers_touch_live {sha1 : Str → Str} {n : ℕ} {disk : Disk} {as : List Action} {s : System}
    (hm : Meets (System.step sha1) System.Undisturbed as (System.initial n disk))
    (hr : runFrom (System.step sha1) as (System.initial n disk) = some s) :
    ∀ i a r, s.calls i a = some r → (s.views r.1).Live r.2 ∧ s.Serving r := by
  have hs : s.Attached :=
    hm.invariant (fun _ _ _ hg h hs => hs.step hg h) hr (System.attached_initial n disk)
  exact fun i a r h => hs.calls h

/-! ### An abort while the compiler runs -/

/-- The file is there, and a worker takes the request. -/
def compilationStarts : List Action :=
  firstUpload ++ [.client (str "c") (.sweepStart (str "s") [str "s"]),
    .client (str "c") (.sweepChunk (str "s") [str "s"]), .worker 0 .dequeue]

/-- It is about to call the session, which is live. -/
theorem compilationStarts_calls_live :
    ∃ s, runFrom (System.step sampleSha1) compilationStarts (System.initial 1 .empty) = some s
      ∧ s.calls 0 .advertise = some (str "c", str "s")
      ∧ (s.views (str "c")).Live (str "s") ∧ s.Serving (str "c", str "s") := by
  have hrun : ((runFrom (System.step sampleSha1) compilationStarts (System.initial 1 .empty)).map
      fun s => decide (s.calls 0 .advertise = some (str "c", str "s"))) = some true := by
    decide +kernel
  obtain ⟨s, hr, hcalls⟩ := Option.map_eq_some_iff.mp hrun
  have hcalls' := of_decide_eq_true hcalls
  exact ⟨s, hr, hcalls', workers_touch_live (by decide +kernel) hr 0 .advertise _ hcalls'⟩

/-- The client aborts while the compiler runs, and the session is gone when it ends. -/
def abortedWhileCompiling : List Action :=
  compilationStarts ++ [.worker 0 .advertise]
    ++ onSession (str "c") (str "s") [.notify]
    ++ [.client (str "c") (.terminate (str "s")), .client (str "c") (.remove (str "s")),
      .client (str "c") (.release (str "s")), .worker 0 (.compile ⟨[], [], 0, 0⟩)]

/-- The worker then calls it all the same. -/
theorem abortedWhileCompiling_calls_dead :
    ¬ ∀ as s, runFrom (System.step sampleSha1) as (System.initial 1 .empty) = some s →
      ∀ i a r, s.calls i a = some r → (s.views r.1).Live r.2 := by
  intro h
  have hrun : ((runFrom (System.step sampleSha1) abortedWhileCompiling
      (System.initial 1 .empty)).map fun s =>
        decide (s.calls 0 .advertiseEnd = some (str "c", str "s")
          ∧ ¬ (s.views (str "c")).Live (str "s"))) = some true := by
    decide +kernel
  obtain ⟨s, hr, hbad⟩ := Option.map_eq_some_iff.mp hrun
  obtain ⟨hcalls, hdead⟩ := of_decide_eq_true hbad
  exact hdead (h _ s hr 0 .advertiseEnd _ hcalls)

end DistBuild
