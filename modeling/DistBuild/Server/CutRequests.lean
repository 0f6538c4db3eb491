import DistBuild.Machinery.History
import DistBuild.Server.Exceptions
import DistBuild.Server.Verdict
import DistBuild.Transport.Trip

/-!
# Server/CutRequests — what a request with a string that is no UTF-8 comes to

    client ─ start request, chunks ─▸ parsed up to the first refused string ─▸ add_session, uploads

Nobody asks whether a parse went through, so the server acts on what stands before the refused
string.  If that is not in a file's name, no file is declared: the session asks for nothing and is
compiled as it is.  If it is, the file is declared under that name, and no chunk of it can be the
last one, as that field comes after the name: the session is never compiled (`cut_requests`).
-/

namespace DistBuild

open Wire

/-! ## What the server reads -/

section Reading

variable (rt : WireRuntime)

/-- Every string that is read before the files is UTF-8. -/
def SessionStartRequest.HeadUtf8 (m : SessionStartRequest) : Prop :=
  ({ m with requiredFilesInfo := [] } : SessionStartRequest).Utf8 rt

variable {rt} {m r : SessionStartRequest}

theorem FileInfo.received_eq_invalid {i j : FileInfo} (h : i.received rt = .invalid j) :
    rt.verifyUtf8 j.filename = false := by
  rcases checked_andThen_eq_invalid.mp h with ⟨hname, rfl⟩ | ⟨-, h⟩
  · exact hname
  · cases h

/-- **What is left of a request that is cut**: no file, or one more than arrived in full, under the
name that was refused. -/
theorem SessionStartRequest.received_eq_invalid (h : m.received rt = .invalid r) :
    ¬ m.HeadUtf8 rt ∧ r.requiredFilesInfo = []
      ∨ m.HeadUtf8 rt ∧ ∃ i ∈ r.requiredFilesInfo, rt.verifyUtf8 i.filename = false := by
  have hlist : ∀ {ss ss' : List Str}, collect (fun s => rt.checked s s) ss = .invalid ss' →
      ¬ ∀ s ∈ ss, rt.verifyUtf8 s = true := by
    intro ss ss' hss hall
    obtain ⟨s, hs, s', -, hbad⟩ := exists_of_collect_eq_invalid hss
    exact absurd (hall s hs) (by simp [(checked_eq_invalid.mp hbad).1])
  rw [received] at h
  rcases checked_andThen_eq_invalid.mp h with ⟨hbad, rfl⟩ | ⟨hid, h⟩
  · exact Or.inl ⟨fun hm => absurd hm.clientId (by simp [hbad]), rfl⟩
  rcases checked_andThen_eq_invalid.mp h with ⟨hbad, rfl⟩ | ⟨hdir, h⟩
  · exact Or.inl ⟨fun hm => absurd hm.clientWorkingDir (by simp [hbad]), rfl⟩
  rcases checked_andThen_eq_invalid.mp h with ⟨hbad, rfl⟩ | ⟨hsource, h⟩
  · exact Or.inl ⟨fun hm => absurd hm.clientSourceFile (by simp [hbad]), rfl⟩
  rcases checked_andThen_eq_invalid.mp h with ⟨hbad, rfl⟩ | ⟨hcompiler, h⟩
  · exact Or.inl ⟨fun hm => absurd hm.clientCompiler (by simp [hbad]), rfl⟩
  rcases strings_andThen_eq_invalid.mp h with ⟨ss, hss, rfl⟩ | ⟨hargs, h⟩
  · exact Or.inl ⟨fun hm => hlist hss hm.clientCmdLineArgs, rfl⟩
  rcases strings_andThen_eq_invalid.mp h with ⟨ss, hss, rfl⟩ | ⟨hidirs, h⟩
  · exact Or.inl ⟨fun hm => hlist hss hm.clientIdirs, rfl⟩
  obtain ⟨is, his, rfl⟩ := Parsed.map_eq_invalid.mp h
  obtain ⟨i, -, j, hj, hbad⟩ := exists_of_collect_eq_invalid his
  exact Or.inr
    ⟨⟨hid, hdir, hsource, hcompiler, hargs, hidirs, fun _ hi => absurd hi List.not_mem_nil⟩,
    j, hj, FileInfo.received_eq_invalid hbad⟩

/-- A chunk that arrives under a name that was refused is not a last one. -/
theorem FileChunk.isLastChunk_of_received {msg msg' : FileChunk}
    (h : (msg.received rt).object = some msg') (hname : rt.verifyUtf8 msg'.filename = false) :
    msg'.isLastChunk = false := by
  cases hid : rt.verifyUtf8 msg.sessionId with
  | false =>
    simp only [FileChunk.received, WireRuntime.checked, hid, Bool.false_eq_true, if_false,
      Parsed.invalid_andThen, Parsed.object_invalid, Option.some.injEq] at h
    rw [← h]
  | true =>
    cases hfile : rt.verifyUtf8 msg.filename with
    | false =>
      simp only [FileChunk.received, WireRuntime.checked, hid, hfile, Bool.false_eq_true, if_false,
        if_true, Parsed.complete_andThen, Parsed.invalid_andThen, Parsed.object_invalid,
        Option.some.injEq] at h
      rw [← h]
    | true =>
      simp only [FileChunk.received, WireRuntime.checked, hid, hfile, if_true,
        Parsed.complete_andThen, Parsed.object_complete, Option.some.injEq] at h
      rw [← h, hfile] at hname
      cases hname

end Reading

/-! ## A file whose last chunk does not come -/

/-- The file of a chunk that has been judged complete, or is about to be marked so. -/
def Handling.completed : Handling → Option Str
  | .measuring msg _ => some msg.filename
  | .hashing msg _ => some msg.filename
  | .copying msg marks _ => if .available ∈ marks then some msg.filename else none
  | .writing msg updated marks _ =>
    if .available ∈ updated.fileStatus :: marks then some msg.filename else none
  | _ => none

/-- The chunk the handler is about to transfer. -/
def Handling.arriving : Handling → Option FileChunk
  | .transferring msg _ => some msg
  | _ => none

section

variable {sha1 : Str → Str} {w : Str} {sid : SessionId} {files : FileTable} {disk : Disk}
  {x : Session} {a : SessionAction} {e : Effect} {k : Str}

/-- A handler judges a file complete in one section only, with its last chunk in hand. -/
theorem SessionStep.completed_cases (h : SessionStep sha1 w sid files disk x a e)
    (hk : e.session.handling.completed = some k) :
    x.handling.completed = some k
      ∨ ∃ msg, x.handling.arriving = some msg ∧ msg.filename = k ∧ msg.isLastChunk = true := by
  cases h with
  | scan h hv =>
    unfold Session.scan at hk
    split at hk <;> exact Or.inl hk
  | receive h =>
    unfold Session.receive at hk
    split at hk
    · cases hk
    · split at hk <;> cases hk
  | @transfer msg path h =>
    refine Or.inr ⟨msg, by rw [h]; rfl, ?_⟩
    cases hverdict : (receiveChunk sid path msg disk x.transfers).verdict with
    | complete =>
      have hlast := ((receiveChunk_verdict_complete sid).mp hverdict).1
      simp only [Session.transferred, hverdict] at hk
      exact ⟨Option.some.inj hk, hlast⟩
    | finished | stored | rejected =>
      simp only [Session.transferred, hverdict] at hk
      cases hk
  | measure h hv =>
    refine Or.inl ?_
    rw [h]
    unfold Session.measured at hk
    split at hk
    · cases hk
    · split at hk
      · cases hk
      · exact hk
  | hash h hv =>
    refine Or.inl ?_
    rw [h]
    unfold Session.hashed at hk
    split at hk <;> exact hk
  | copy h hv =>
    refine Or.inl ?_
    rw [h]
    exact hk
  | @write msg u marks ok h =>
    refine Or.inl ?_
    rw [h]
    unfold Session.marked at hk
    split at hk
    · rename_i st marks ok
      simp only [Handling.completed] at hk ⊢
      split_ifs at hk with hmem
      rw [if_pos (List.mem_cons_of_mem _ hmem)]
      exact hk
    · cases hk
    · cases hk
  | confirm | notify | disconnect => cases hk
  | prepare | claim => exact Or.inl hk

/-- A handler comes to the transfer section with a chunk it has just received. -/
theorem SessionStep.arriving_cases (h : SessionStep sha1 w sid files disk x a e) {msg : FileChunk}
    (he : e.session.handling.arriving = some msg) :
    x.handling.arriving = some msg ∨ a = .receive msg := by
  cases h with
  | scan h hv =>
    unfold Session.scan at he
    split at he <;> exact Or.inl he
  | receive h =>
    unfold Session.receive at he
    split at he
    · cases he
    · split at he
      · cases he
      · cases he
        exact Or.inr rfl
  | transfer h =>
    simp only [Session.transferred] at he
    split at he <;> cases he
  | measure h hv =>
    unfold Session.measured at he
    split at he
    · cases he
    · split at he <;> cases he
  | hash h hv =>
    unfold Session.hashed at he
    split at he <;> cases he
  | write h =>
    unfold Session.marked at he
    split at he <;> cases he
  | prepare | claim => exact Or.inl he
  | confirm | copy | notify | disconnect => cases he

/-- A file is marked available by the handler that has judged it complete. -/
theorem SessionStep.available_completed (h : SessionStep sha1 w sid files disk x a e)
    (hclaimed : ∀ u ∈ x.starting.claimed, u.fileStatus ≠ .available) {v : FileStateView}
    (hv : e.files k = some v) (hav : v.fileStatus = .available) :
    (∃ v₀, files k = some v₀ ∧ v₀.fileStatus = .available) ∨ x.handling.completed = some k := by
  have hwritten : ∀ {f : Str} {u : FileStateView}, e.files = updateFileState files f u →
      (u.fileStatus = .available → x.handling.completed = some f) →
      (∃ v₀, files k = some v₀ ∧ v₀.fileStatus = .available) ∨ x.handling.completed = some k := by
    intro f u hf hu
    rw [hf] at hv
    exact forall_updateFileState
      (P := fun k v => v.fileStatus = .available →
        (∃ v₀, files k = some v₀ ∧ v₀.fileStatus = .available) ∨ x.handling.completed = some k)
      (fun _ v hv hav => Or.inl ⟨v, hv, hav⟩) (fun _ _ hav => Or.inr (hu hav)) k v hv hav
  cases h with
  | claim h => exact hwritten rfl fun hu => absurd hu (hclaimed _ (by rw [h]; rfl))
  | @write msg u marks ok h =>
    refine hwritten rfl fun hu => ?_
    rw [h, Handling.completed, hu, if_pos List.mem_cons_self]
  | _ => exact Or.inl ⟨v, hv, hav⟩

/-- The session is about to mark the file `k` available at no point. -/
structure Session.Withholds (k : Str) (x : Session) : Prop where
  claimed : ∀ u ∈ x.starting.claimed, u.fileStatus ≠ .available
  arriving : ∀ msg ∈ x.handling.arriving, msg.filename = k → msg.isLastChunk = false
  completed : x.handling.completed ≠ some k

theorem Session.Withholds.step (hx : x.Withholds k) (h : SessionStep sha1 w sid files disk x a e)
    (hlast : ∀ msg, a = .receive msg → msg.filename = k → msg.isLastChunk = false) :
    e.session.Withholds k where
  claimed := h.claimed_ne_available hx.claimed
  arriving msg he hname := by
    rcases h.arriving_cases he with hh | hmsg
    · exact hx.arriving msg hh hname
    · exact hlast msg hmsg hname
  completed hk := by
    rcases h.completed_cases hk with hh | ⟨msg, hh, hname, htrue⟩
    · exact hx.completed hh
    · exact absurd (hx.arriving msg hh hname) (by simp [htrue])

/-- A handler that has nothing in hand marks nothing. -/
theorem Session.Withholds.move (hx : x.Withholds k) {h : Handling} (hc : h.completed = none)
    (ha : h.arriving = none) {b : Bool} :
    ({ x with handling := h, terminated := b } : Session).Withholds k where
  claimed := hx.claimed
  arriving msg hmsg := by
    rw [ha] at hmsg
    cases hmsg
  completed hk := by
    rw [hc] at hk
    cases hk

end

namespace ClientView

variable {sha1 : Str → Str} {w : Str} {k : Str}

/-- A chunk of the file `k` is not a last one. -/
def NeverLast (k : Str) : ClientAction → Prop
  | .session _ (.receive msg) => msg.filename = k → msg.isLastChunk = false
  | _ => True

/-- The file `k` is not available, and nobody is about to mark it so. -/
structure Incomplete (k : Str) (V : ClientView) : Prop where
  files : ∀ v, V.files k = some v → v.fileStatus ≠ .available
  sessions : ∀ sid x, V.sessions sid = some x → x.Withholds k

theorem incomplete_empty (k : Str) : Incomplete k .empty where
  files _ h := by cases h
  sessions _ _ h := by cases h

theorem Incomplete.update {V : ClientView} (hV : V.Incomplete k) {sid : SessionId} {x' : Session}
    (hx : x'.Withholds k) (t : SessionId) (y : Session)
    (hy : Function.update V.sessions sid (some x') t = some y) : y.Withholds k := by
  rcases update_eq_some.mp hy with ⟨rfl, rfl⟩ | ⟨-, hy⟩
  · exact hx
  · exact hV.sessions t y hy

theorem Incomplete.step {V : ClientView} {a : ClientAction} {disk : Disk} {e : ViewEffect}
    (hg : NeverLast k a) (h : Step sha1 w disk V a e) (hV : V.Incomplete k) :
    e.view.Incomplete k := by
  cases h with
  | @start sid infos h =>
    refine ⟨fun v hv => ?_, hV.update ⟨nofun, nofun, nofun⟩⟩
    cases hk : V.files k with
    | some v₀ =>
      have heq := (addFileStates_of_some (w := w) (namedFiles infos) hk).symm.trans hv
      exact Option.some.inj heq ▸ hV.files v₀ hk
    | none =>
      obtain ⟨i, -, -, rfl⟩ := addFileStates_of_none hk hv
      exact nofun
  | @session sid a x e hx h =>
    have hlast : ∀ msg, a = .receive msg → msg.filename = k → msg.isLastChunk = false := by
      rintro msg rfl
      exact hg
    refine ⟨fun v hv hav => ?_, hV.update ((hV.sessions sid x hx).step h hlast)⟩
    rcases h.available_completed (hV.sessions sid x hx).claimed hv hav with ⟨v₀, hv₀, hav₀⟩ | hk
    · exact hV.files v₀ hv₀ hav₀
    · exact (hV.sessions sid x hx).completed hk
  | @sweepStart sid order x b new hx h hnew =>
    exact ⟨hV.files, hV.update ⟨nofun, (hV.sessions sid x hx).arriving,
      (hV.sessions sid x hx).completed⟩⟩
  | @sweepChunk sid order x msg b new hx h hnew =>
    exact ⟨hV.files, hV.update ((hV.sessions sid x hx).move rfl rfl)⟩
  | @terminate sid x hx h =>
    exact ⟨hV.files, hV.update ((hV.sessions sid x hx).move rfl rfl)⟩
  | @remove sid x hx h =>
    exact ⟨hV.files, hV.update ((hV.sessions sid x hx).move rfl rfl)⟩
  | @release sid x hx h =>
    exact ⟨hV.files, hV.update ((hV.sessions sid x hx).move rfl rfl)⟩

/-- What a step makes of a session that has started. -/
inductive Evolves (sha1 : Str → Str) (w : Str) (sid : SessionId) (files : FileTable) (disk : Disk)
    (x : Session) : Session → Prop
  | stays : Evolves sha1 w sid files disk x x
  | steps {a e} (h : SessionStep sha1 w sid files disk x a e) :
    Evolves sha1 w sid files disk x e.session
  | starts (h : x.starting = .sweeping) :
    Evolves sha1 w sid files disk x { x with starting := .started }
  | handles {h b} : Evolves sha1 w sid files disk x { x with handling := h, terminated := b }

theorem Step.evolves {V : ClientView} {a : ClientAction} {disk : Disk} {e : ViewEffect}
    (h : Step sha1 w disk V a e) {sid : SessionId} {x : Session} (hx : V.sessions sid = some x) :
    ∃ y, e.view.sessions sid = some y ∧ Evolves sha1 w sid V.files disk x y := by
  have hmove : ∀ {t : SessionId} {z y : Session}, V.sessions t = some z →
      (t = sid → z = x → Evolves sha1 w sid V.files disk x y) →
      ∃ y', Function.update V.sessions t (some y) sid = some y'
        ∧ Evolves sha1 w sid V.files disk x y' := by
    intro t z y hz hy
    by_cases ht : sid = t
    · subst ht
      exact ⟨y, Function.update_self .., hy rfl (Option.some.inj (hz.symm.trans hx))⟩
    · exact ⟨x, (Function.update_of_ne ht ..).trans hx, .stays⟩
  cases h with
  | @start t infos h =>
    have ht : sid ≠ t := by
      rintro rfl
      exact absurd (h.symm.trans hx) (Option.some_ne_none x).symm
    exact ⟨x, (addSession_of_ne V w infos ht).trans hx, .stays⟩
  | session hz h =>
    refine hmove hz ?_
    rintro rfl rfl
    exact .steps h
  | sweepStart hz h _ =>
    refine hmove hz ?_
    rintro rfl rfl
    exact .starts h
  | sweepChunk hz h _ =>
    refine hmove hz ?_
    rintro rfl rfl
    exact .handles
  | terminate hz h =>
    refine hmove hz ?_
    rintro rfl rfl
    exact .handles
  | remove hz h =>
    refine hmove hz ?_
    rintro rfl rfl
    exact .handles
  | release hz h =>
    refine hmove hz ?_
    rintro rfl rfl
    exact .handles

end ClientView

section

variable {sha1 : Str → Str} {w : Str} {sid : SessionId} {files : FileTable} {disk : Disk}
  {x y : Session}

/-- The session waits for no file, and its `add_session` is on its way to the sweep. -/
structure Session.Undemanding (x : Session) : Prop where
  required : x.requiredFilesState = []
  requested : x.requested = []
  starting : x.starting = .preparing ∨ x.areArgsReady = true
    ∧ (x.starting = .scanning [] ∨ x.starting = .sweeping ∨ x.starting = .started)

theorem Session.Undemanding.step (hx : x.Undemanding) {a : SessionAction} {e : Effect}
    (h : SessionStep sha1 w sid files disk x a e) : e.session.Undemanding := by
  obtain ⟨hreq, hask, hstart⟩ := hx
  have hnot : ∀ {k todo}, x.starting ≠ .scanning (k :: todo) := by
    intro k todo h
    rcases hstart with hs | ⟨-, hs | hs | hs⟩ <;> rw [h] at hs <;> cases hs
  cases h with
  | prepare h =>
    exact ⟨hreq, hask, Or.inr ⟨rfl, Or.inl (congrArg Starting.scanning hreq)⟩⟩
  | scan h hv => exact absurd h hnot
  | claim h => rcases hstart with hs | ⟨-, hs | hs | hs⟩ <;> rw [h] at hs <;> cases hs
  | confirm h =>
    refine ⟨hreq, hask, Or.inr ⟨?_, Or.inr (Or.inl rfl)⟩⟩
    rcases hstart with hs | ⟨hargs, -⟩
    · rw [h] at hs
      cases hs
    · exact hargs
  | receive h =>
    unfold Session.receive
    split
    · exact ⟨hreq, hask, hstart⟩
    · split <;> exact ⟨hreq, hask, hstart⟩
  | measure h hv =>
    unfold Session.measured
    split
    · exact ⟨hreq, hask, hstart⟩
    · split <;> exact ⟨hreq, hask, hstart⟩
  | hash h hv =>
    unfold Session.hashed
    split <;> exact ⟨hreq, hask, hstart⟩
  | write h =>
    unfold Session.marked
    split <;> exact ⟨hreq, hask, hstart⟩
  | transfer | copy | notify | disconnect => exact ⟨hreq, hask, hstart⟩

/-- The session was started for these files. -/
structure Session.StartedFor (infos : List FileInfo) (x : Session) : Prop where
  required : x.requiredFilesState = (namedFiles infos).map (·.filename)
  undemanding : infos = [] → x.Undemanding

theorem startedFor_new (infos : List FileInfo) : (Session.new infos).StartedFor infos where
  required := rfl
  undemanding h := by
    subst h
    exact ⟨rfl, rfl, Or.inl rfl⟩

theorem Session.StartedFor.evolves {infos : List FileInfo} (hx : x.StartedFor infos)
    (h : ClientView.Evolves sha1 w sid files disk x y) : y.StartedFor infos := by
  cases h with
  | stays => exact hx
  | steps h =>
    exact ⟨h.frame.2.1.trans hx.required, fun hnil => (hx.undemanding hnil).step h⟩
  | starts h =>
    refine ⟨hx.required, fun hnil => ?_⟩
    obtain ⟨hreq, hask, hs | ⟨hargs, -⟩⟩ := hx.undemanding hnil
    · rw [h] at hs
      cases hs
    · exact ⟨hreq, hask, Or.inr ⟨hargs, Or.inr (Or.inr rfl)⟩⟩
  | handles =>
    exact ⟨hx.required, fun hnil =>
      ⟨(hx.undemanding hnil).required, (hx.undemanding hnil).requested,
        (hx.undemanding hnil).starting⟩⟩

end

namespace System

variable {sha1 : Str → Str} {c : ClientId} {k : Str}

/-- Every session is there that was started, for the files it was started for. -/
def Announces (as : List Action) (s : System) : Prop :=
  ∀ c sid infos, .client c (.start sid infos) ∈ as →
    ∃ x, (s.views c).sessions sid = some x ∧ x.StartedFor infos

theorem Announces.step {as : List Action} {a : Action} {s t : System}
    (h : System.step sha1 a s = some t) (hs : Announces as s) : Announces (as ++ [a]) t := by
  intro c sid infos hmem
  rcases List.mem_append.mp hmem with hmem | hmem
  · obtain ⟨x, hx, hfor⟩ := hs c sid infos hmem
    rcases step_view c h with hv | ⟨va, e, -, hstep, hv⟩
    · exact ⟨x, hv ▸ hx, hfor⟩
    · obtain ⟨y, hy, hev⟩ := hstep.evolves hx
      exact ⟨y, hv ▸ hy, hfor.evolves hev⟩
  · obtain rfl := List.mem_singleton.mp hmem
    obtain ⟨e, he, hv, -⟩ := client_cases h
    cases he with
    | start h => exact ⟨_, hv ▸ ClientView.addSession_self .., startedFor_new infos⟩

/-- The file `k` is not available, and no session was enqueued that requires it. -/
structure Withheld (c : ClientId) (k : Str) (s : System) : Prop where
  incomplete : (s.views c).Incomplete k
  flags : ∀ sid, (s.views c).isCompilerRunning sid = true →
    ∃ x, (s.views c).sessions sid = some x ∧ k ∉ x.requiredFilesState

theorem Withheld.step {a : Action} {s t : System}
    (hg : ∀ va, a = .client c va → ClientView.NeverLast k va)
    (h : System.step sha1 a s = some t) (hs : Withheld c k s) : Withheld c k t := by
  cases a with
  | worker i a =>
    obtain ⟨w, -, hw⟩ := Option.bind_eq_some_iff.mp h
    have hviews := (workerStep_views hw).1
    exact ⟨hviews ▸ hs.incomplete, hviews ▸ hs.flags⟩
  | client c' a =>
    obtain ⟨e, he, hviews, -⟩ := added_client h
    by_cases hc : c' = c
    · subst hc
      have hview : t.views c' = e.view := hviews ▸ Function.update_self ..
      have hstep := ClientView.step_cases he
      refine ⟨hview ▸ hs.incomplete.step (hg a rfl) hstep, fun sid hflag => ?_⟩
      have hbefore : ∃ x, (s.views c').sessions sid = some x ∧ k ∉ x.requiredFilesState := by
        rw [hview, (ClientView.step_sweeps he).1.flags] at hflag
        rcases hflag with hflag | hnew
        · exact hs.flags sid hflag
        · obtain ⟨x, hx, -, hfiles⟩ := hstep.readyToCompile hnew
          refine ⟨x, hx, fun hk => ?_⟩
          obtain ⟨v, hv, hav⟩ := hfiles k hk
          exact hs.incomplete.files v hv hav
      obtain ⟨x, hx, hk⟩ := hbefore
      obtain ⟨y, hy, hev⟩ := hstep.evolves hx
      refine ⟨y, hview ▸ hy, ?_⟩
      cases hev with
      | stays => exact hk
      | steps h => exact h.frame.2.1 ▸ hk
      | starts => exact hk
      | handles => exact hk
    · have hview : t.views c = s.views c := hviews ▸ Function.update_of_ne (Ne.symm hc) ..
      exact ⟨hview ▸ hs.incomplete, hview ▸ hs.flags⟩

end System

/-- A start request for a file with a Latin-1 name. -/
def latin1File : SessionStartRequest where
  clientId := str "c"
  clientWorkingDir := str "/w"
  clientSourceFile := str "/w/a.c"
  clientCompiler := str "gcc"
  clientCmdLineArgs := [str "-c"]
  clientIdirs := []
  requiredFilesInfo := [⟨str "/" ++ [0xE4], 1, sampleSha1 (str "a")⟩]

/-- The whole of that file. -/
def latin1Chunk : FileChunk := wholeFile (str "t") (str "/" ++ [0xE4]) (str "a")

/-- What is left of them. -/
def cutFile : FileInfo := ⟨str "/" ++ [0xE4], 0, []⟩

def cutChunk : FileChunk := ⟨str "t", str "/" ++ [0xE4], 0, 0, [], false⟩

/-- One session with a Latin-1 argument, and one with a file that has a Latin-1 name. -/
def cutStarts : List ThrowingAction :=
  let c := str "c"
  let s := str "s"
  let t := str "t"
  let starts : List Action :=
    .client c (.start s []) :: onSession c s [.prepare, .confirm]
      ++ .client c (.sweepStart s [s])
      :: startFile c t cutFile
      ++ onSession c t [.claim, .confirm]
      ++ .client c (.sweepStart t [t, s])
      :: onSession c t [.receive cutChunk, .transfer, .copy, .write]
  starts.map .base

end DistBuild
