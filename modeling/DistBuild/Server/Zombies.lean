import DistBuild.Server.Workers

/-!
# Server/Zombies — what is left of a session whose handler has ended

    kSessionAbort, an unknown message ─▸ terminate ─▸ remove ─▸ release ─▸ ended
    receive_msg or file_size throws ──────────────────────────────────────▸ ended

The handler cleans up on two of its exits; the exceptions are caught and dropped.  On the clean way
out the requests are invalidated before the session is removed, so a sweep of another session in
between may enqueue it once more.
-/

namespace DistBuild

/-- The handler has ended. -/
def Handling.hasEnded : Handling → Bool
  | .ended => true
  | _ => false

/-- The handler is past the removal of its session. -/
def Handling.removed : Handling → Bool
  | .releasing | .ended => true
  | _ => false

/-- The file whose size the handler is about to read. -/
def Handling.measured : Handling → Option Str
  | .measuring _ path => some path
  | _ => none

theorem Handling.removed_of_hasEnded {k : Handling} (h : k.hasEnded = true) :
    k.removed = true := by
  cases k with
  | ended => rfl
  | _ => cases h

/-- **A handler in its loop leaves it by an exception only.** -/
theorem SessionStep.removed_cases {sha1 : Str → Str} {w : Str} {sessionUuid : SessionId}
    {files : FileTable} {disk : Disk} {x : Session} {a : SessionAction} {e : Effect}
    (h : SessionStep sha1 w sessionUuid files disk x a e)
    (hr : e.session.handling.removed = true) :
    x.handling.removed = true ∨ a = .disconnect
      ∨ a = .measure ∧ ∃ path ∈ x.handling.measured, disk.files path = none := by
  cases h with
  | prepare h => exact .inl hr
  | scan h hv =>
    unfold Session.scan at hr
    split at hr <;> exact .inl hr
  | claim h => exact .inl hr
  | confirm h => cases hr
  | receive h =>
    unfold Session.receive at hr
    split at hr
    · cases hr
    · split at hr <;> cases hr
  | transfer h =>
    simp only [Session.transferred] at hr
    split at hr <;> cases hr
  | @measure msg path v h hv =>
    refine .inr (.inr ⟨rfl, path, by rw [h]; rfl, ?_⟩)
    unfold Session.measured at hr
    split at hr
    · assumption
    · split at hr <;> cases hr
  | hash h hv =>
    unfold Session.hashed at hr
    split at hr <;> cases hr
  | copy h hv => cases hr
  | write h =>
    unfold Session.marked at hr
    split at hr <;> cases hr
  | notify h => cases hr
  | disconnect h => exact .inr (.inl rfl)

namespace ClientView

/-- The steps that leave a handler by an exception. -/
def NoException (disk : Disk) (V : ClientView) : ClientAction → Prop
  | .session _ .disconnect => False
  | .session sid .measure =>
    ∀ x ∈ V.sessions sid, ∀ path ∈ x.handling.measured, (disk.files path).isSome = true
  | _ => True

instance NoException.decidable (disk : Disk) (V : ClientView) :
    ∀ a, Decidable (NoException disk V a)
  | .session _ .disconnect => inferInstanceAs (Decidable False)
  | .session sid .measure =>
    inferInstanceAs (Decidable (∀ x ∈ V.sessions sid, ∀ path ∈ x.handling.measured,
      (disk.files path).isSome = true))
  | .session _ .prepare | .session _ (.scan _) | .session _ .claim | .session _ .confirm
  | .session _ (.receive _) | .session _ .transfer | .session _ .hash | .session _ .copy
  | .session _ .write | .session _ .notify | .start _ _ | .sweepStart _ _ | .sweepChunk _ _
  | .terminate _ | .remove _ | .release _ => inferInstanceAs (Decidable True)

/-- The sessions of the client are listed once, and a removed one is terminated and not listed. -/
structure Listing (V : ClientView) : Prop where
  nodup : V.associatedSessions.Nodup
  known : ∀ sid ∈ V.associatedSessions, ∃ x, V.sessions sid = some x
  removed : ∀ sid x, V.sessions sid = some x → x.handling.removed = true →
    x.terminated = true ∧ sid ∉ V.associatedSessions

variable {sha1 : Str → Str} {w : Str}

theorem listing_empty : Listing .empty where
  nodup := List.nodup_nil
  known _ h := absurd h List.not_mem_nil
  removed := forall_sessions_empty

/-- Storing a session forgets none. -/
theorem known_update {sessions : SessionId → Option Session} {sid t : SessionId} (x : Session)
    (h : ∃ y, sessions t = some y) : ∃ y, Function.update sessions sid (some x) t = some y := by
  by_cases heq : t = sid
  · subst heq
    exact ⟨x, Function.update_self ..⟩
  · obtain ⟨y, hy⟩ := h
    exact ⟨y, (Function.update_of_ne heq ..).trans hy⟩

/-- A step of one session, which stays listed as it is. -/
theorem Listing.move {V W : ClientView} (hV : V.Listing) {sid : SessionId} {x x' : Session}
    (hx : V.sessions sid = some x) (hs : W.sessions = Function.update V.sessions sid (some x'))
    (ha : W.associatedSessions = V.associatedSessions) (ht : x'.terminated = x.terminated)
    (hr : x'.handling.removed = true → x.handling.removed = true) : W.Listing := by
  refine ⟨ha ▸ hV.nodup, ?_, ?_⟩
  · rw [hs, ha]
    exact fun t ht => known_update x' (hV.known t ht)
  · rw [hs, ha]
    refine forall_update (P := fun t (y : Session) => y.handling.removed = true →
      y.terminated = true ∧ t ∉ V.associatedSessions) hV.removed fun hr' => ?_
    exact ht ▸ hV.removed sid x hx (hr hr')

theorem Listing.step {disk : Disk} {V : ClientView} {a : ClientAction} {e : ViewEffect}
    (h : Step sha1 w disk V a e) (hg : NoException disk V a) (hR : V.Registered) (hV : V.Listing) :
    e.view.Listing := by
  cases h with
  | @start sid infos h =>
    have hnew : sid ∉ V.associatedSessions := by
      intro hmem
      obtain ⟨x, hx⟩ := hV.known sid hmem
      exact absurd (h.symm.trans hx) nofun
    refine ⟨List.nodup_cons.mpr ⟨hnew, hV.nodup⟩, ?_, ?_⟩
    · intro t ht
      by_cases heq : t = sid
      · subst heq
        exact ⟨_, V.addSession_self w t infos⟩
      · obtain ⟨y, hy⟩ := hV.known t ((List.mem_cons.mp ht).resolve_left heq)
        exact ⟨y, (V.addSession_of_ne w infos heq).trans hy⟩
    · intro t y hy hr
      by_cases heq : t = sid
      · subst heq
        rw [V.addSession_self] at hy
        cases hy
        cases hr
      · rw [V.addSession_of_ne w infos heq] at hy
        obtain ⟨hterm, hmem⟩ := hV.removed t y hy hr
        exact ⟨hterm, fun h0 => (List.mem_cons.mp h0).elim heq hmem⟩
  | @session sid a x e hx h =>
    refine hV.move hx rfl rfl h.frame.2.2 fun hr => ?_
    rcases h.removed_cases hr with hr | rfl | ⟨rfl, path, hpath, hnone⟩
    · exact hr
    · exact absurd hg id
    · have := hg x hx path hpath
      rw [hnone] at this
      cases this
  | sweepStart hx h hnew => exact hV.move hx rfl rfl rfl id
  | sweepChunk hx h hnew => exact hV.move hx rfl rfl rfl nofun
  | @terminate sid x hx h =>
    refine ⟨hV.nodup, fun t ht => known_update _ (hV.known t ht), ?_⟩
    exact forall_update (P := fun t (y : Session) => y.handling.removed = true →
      y.terminated = true ∧ t ∉ V.associatedSessions) hV.removed nofun
  | @remove sid x hx h =>
    have hterm : x.terminated = true := by
      by_contra h0
      exact ((hR sid x hx).leaving (Bool.not_eq_true _ ▸ h0)).1 h
    refine ⟨hV.nodup.erase _, ?_, ?_⟩
    · exact fun t ht => known_update _ (hV.known t (List.mem_of_mem_erase ht))
    · refine forall_update (P := fun t (y : Session) => y.handling.removed = true →
        y.terminated = true ∧ t ∉ V.associatedSessions.erase sid) ?_ fun _ => ?_
      · intro t y hy hr
        exact (hV.removed t y hy hr).imp_right fun h0 h1 => h0 (List.mem_of_mem_erase h1)
      · exact ⟨hterm, hV.nodup.not_mem_erase⟩
  | @release sid x hx h => exact hV.move hx rfl rfl rfl fun _ => by rw [h]; rfl

end ClientView

namespace System

/-- No handler is left by an exception, and no sweep meets a terminated session that is still to be
compiled. -/
def CleansUp : Action → System → Prop
  | .client c a, s => ClientView.NoException s.disk (s.views c) a ∧ SweepsServing (.client c a) s
  | .worker _ _, _ => True

instance CleansUp.decidable : ∀ a s, Decidable (CleansUp a s)
  | .client c a, s => inferInstanceAs
    (Decidable (ClientView.NoException s.disk (s.views c) a ∧ SweepsServing (.client c a) s))
  | .worker _ _, _ => inferInstanceAs (Decidable True)

theorem CleansUp.sweeps {a : Action} {s : System} (hg : CleansUp a s) : SweepsServing a s := by
  cases a with
  | client c a => exact hg.2
  | worker i a => trivial

/-- The handler of the session has ended. -/
def Ended (s : System) (c : ClientId) (sid : SessionId) : Prop :=
  ∃ x ∈ (s.views c).sessions sid, x.handling.hasEnded = true

instance (s : System) (c : ClientId) (sid : SessionId) : Decidable (s.Ended c sid) := by
  unfold Ended
  infer_instance

/-- The session is off its client's list, and none of its requests is queued but invalidated
ones. -/
def Gone (s : System) (c : ClientId) (sid : SessionId) : Prop :=
  sid ∉ (s.views c).associatedSessions
    ∧ ∀ r ∈ s.compileTaskQueue, r.requesterSession = (c, sid) → r.invalidated = true

instance (s : System) (c : ClientId) (sid : SessionId) : Decidable (s.Gone c sid) := by
  unfold Gone
  infer_instance

/-- The invariant behind it. -/
structure Clean (s : System) : Prop where
  registered : ∀ c, (s.views c).Registered
  listing : ∀ c, (s.views c).Listing
  queued : ∀ r ∈ s.compileTaskQueue, r.invalidated = false → s.Serving r.requesterSession

variable {sha1 : Str → Str}

theorem Clean.step {a : Action} {s t : System} (hg : CleansUp a s)
    (h : System.step sha1 a s = some t) (hs : s.Clean) : t.Clean := by
  refine ⟨fun c => ?_, fun c => ?_, hg.sweeps.queued h hs.queued⟩
  · rcases step_view c h with hv | ⟨a, e, -, hstep, hv⟩
    · exact hv ▸ hs.registered c
    · exact hv ▸ (hs.registered c).step hstep
  · rcases step_view c h with hv | ⟨a, e, rfl, hstep, hv⟩
    · exact hv ▸ hs.listing c
    · exact hv ▸ (hs.listing c).step hstep hg.1 (hs.registered c)

theorem clean_initial (n : ℕ) (disk : Disk) : (initial n disk).Clean where
  registered _ := ClientView.registered_empty
  listing _ := ClientView.listing_empty
  queued _ h := absurd h List.not_mem_nil

/-- **A session whose handler has ended is gone.** -/
theorem Clean.gone {s : System} (hs : s.Clean) {c : ClientId} {sid : SessionId} {x : Session}
    (hx : (s.views c).sessions sid = some x) (hended : x.handling.hasEnded = true) :
    s.Gone c sid := by
  obtain ⟨hterm, hmem⟩ := (hs.listing c).removed sid x hx (Handling.removed_of_hasEnded hended)
  refine ⟨hmem, fun r hr hreq => ?_⟩
  by_contra hinv
  obtain ⟨y, hy, hserving⟩ := hs.queued r hr (Bool.not_eq_true _ ▸ hinv)
  rw [hreq] at hy
  obtain rfl : x = y := Option.some.inj (hx.symm.trans hy)
  rw [hterm] at hserving
  cases hserving

/-- A session off its client's list is enqueued by no step, guarded or not. -/
theorem not_added_of_removed {a : Action} {s t : System} (h : System.step sha1 a s = some t)
    {c : ClientId} {sid : SessionId} (hmem : sid ∉ (s.views c).associatedSessions)
    {r : CompilationRequest} (hr : r ∈ added s t) :
    r.requesterSession ≠ (c, sid) := by
  obtain ⟨c', va, e, sid', rfl, rfl, hsid, hstep, -⟩ := mem_added h hr
  rintro ⟨⟩
  cases hstep with
  | sweepStart hx' h' hnew => exact hmem (hnew sid hsid).1
  | sweepChunk hx' h' hnew => exact hmem (hnew sid hsid).1
  | _ => cases hsid

end System

/-- **No zombies**: once its handler has ended, a session is off its client's list, no request of it
is queued but invalidated ones, and no step enqueues it again, in every run in which no handler is
left by an exception and no sweep meets a terminated session that is still to be compiled. -/
theorem ended_session_gone {sha1 : Str → Str} {n : ℕ} {disk : Disk} {as : List Action} {s : System}
    (hm : Meets (System.step sha1) System.CleansUp as (System.initial n disk))
    (hr : runFrom (System.step sha1) as (System.initial n disk) = some s) :
    ∀ c sid, s.Ended c sid →
      s.Gone c sid ∧ ∀ a t, System.step sha1 a s = some t →
        ∀ r ∈ System.added s t, r.requesterSession ≠ (c, sid) := by
  rintro c sid ⟨x, hx, hended⟩
  have hs : s.Clean :=
    hm.invariant (fun _ _ _ hg h hs => hs.step hg h) hr (System.clean_initial n disk)
  have hgone := hs.gone hx hended
  exact ⟨hgone, fun a t h r hr => System.not_added_of_removed h hgone.1 hr⟩

/-! ### A client that closes its connection -/

/-- A session is confirmed. -/
def confirmed : List Action :=
  startFile (str "c") (str "s") oneByte ++ onSession (str "c") (str "s") [.claim, .confirm]

/-- The client aborts it. -/
def aborted : List Action :=
  confirmed ++ [.client (str "c") (.terminate (str "s")), .client (str "c") (.remove (str "s")),
    .client (str "c") (.release (str "s"))]

theorem aborted_gone :
    ∃ s, runFrom (System.step sampleSha1) aborted (System.initial 1 .empty) = some s
      ∧ s.Ended (str "c") (str "s") ∧ s.Gone (str "c") (str "s") := by
  have hrun : ((runFrom (System.step sampleSha1) aborted (System.initial 1 .empty)).map
      fun s => decide (s.Ended (str "c") (str "s"))) = some true := by
    decide +kernel
  obtain ⟨s, hr, hended⟩ := Option.map_eq_some_iff.mp hrun
  have hended' := of_decide_eq_true hended
  exact ⟨s, hr, hended', (ended_session_gone (by decide +kernel) hr _ _ hended').1⟩

/-- Its connection is closed instead. -/
def closed : List Action := confirmed ++ onSession (str "c") (str "s") [.disconnect]

/-- A second session waits for the same file; its client aborts it once the file is there, and the
first session's sweep comes before its removal. -/
def sweptWhileLeaving : List Action :=
  List.flatten [confirmed, startFile (str "c") (str "t") oneByte,
    onSession (str "c") (str "t") [.confirm],
    uploadFile (str "c") (str "s") (str "/a.c") (str "a"),
    [.client (str "c") (.terminate (str "t")),
      .client (str "c") (.sweepChunk (str "s") [str "t", str "s"]),
      .client (str "c") (.remove (str "t")), .client (str "c") (.release (str "t"))]]

/-- The session of a closed connection stays listed, and a session may leave a request behind. -/
theorem closed_listed_and_swept_queued :
    (¬ ∀ as s, runFrom (System.step sampleSha1) as (System.initial 1 .empty) = some s →
      ∀ c sid, s.Ended c sid → sid ∉ (s.views c).associatedSessions)
    ∧ ¬ ∀ as s, runFrom (System.step sampleSha1) as (System.initial 1 .empty) = some s →
      ∀ c sid, s.Ended c sid →
        ∀ r ∈ s.compileTaskQueue, r.requesterSession = (c, sid) → r.invalidated = true := by
  refine ⟨fun h => ?_, fun h => ?_⟩
  · have hrun : ((runFrom (System.step sampleSha1) closed (System.initial 1 .empty)).map
        fun s => decide (s.Ended (str "c") (str "s")
          ∧ str "s" ∈ (s.views (str "c")).associatedSessions)) = some true := by
      decide +kernel
    obtain ⟨s, hr, hbad⟩ := Option.map_eq_some_iff.mp hrun
    obtain ⟨hended, hlisted⟩ := of_decide_eq_true hbad
    exact h _ s hr _ _ hended hlisted
  · have hrun : ((runFrom (System.step sampleSha1) sweptWhileLeaving
        (System.initial 1 .empty)).map fun s => decide (s.Ended (str "c") (str "t")
          ∧ ⟨false, (str "c", str "t")⟩ ∈ s.compileTaskQueue)) = some true := by
      decide +kernel
    obtain ⟨s, hr, hbad⟩ := Option.map_eq_some_iff.mp hrun
    obtain ⟨hended, hqueued⟩ := of_decide_eq_true hbad
    exact absurd (h _ s hr _ _ hended _ hqueued rfl) Bool.false_ne_true

end DistBuild
