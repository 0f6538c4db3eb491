import DistBuild.Server.Places

/-!
# Server/Containment — uploads stay inside the client's workspace

    declared f ──cnvt──▸ server path ──▸ entry ──▸ copies, open transfers ──▸ the files written

Nothing but the mapping of declared names makes server paths, so the files a client can write are
the images of the names it declares.  The image of a name lies inside the workspace unless the name
is a system path, or leads up further than down (`inside_cnvt_iff`): nothing normalises a name
before it is mapped.
-/

namespace DistBuild

/-- The normal form of the path lies in the directory `dir`. -/
def Inside (dir p : Str) : Prop := normalized dir <+: normalized p

instance (dir p : Str) : Decidable (Inside dir p) := inferInstanceAs (Decidable (_ <+: _))

/-- The name leads no level up from the workspace, or then back into it by its name; a system path,
which is taken as it is, should lead there from the root. -/
def StaysInside (w f : Str) : Prop :=
  let n := lexicallyNormal (components f)
  if isSystemPath f then normalized w <+: n.names
  else (normalized w).drop ((normalized w).length - n.up) <+: n.names

instance (w f : Str) : Decidable (StaysInside w f) := by
  unfold StaysInside
  infer_instance

/-- **Which names are mapped into the workspace.** -/
theorem inside_cnvt_iff (w f : Str) :
    Inside w (cnvtClientToServerPath w f) ↔ StaysInside w f := by
  unfold Inside StaysInside cnvtClientToServerPath
  split_ifs with hsys
  · rw [normalized, normalized, walk_root (components f)]
  · rw [normalized_join (isAbsolute_relativePath f), components_relativePath, prefix_walk_iff]

/-- **Workspaces are disjoint.** -/
theorem not_inside_other {c c' : ClientId} (hc : PlainComponent c) (hc' : PlainComponent c')
    (hne : c ≠ c') {q : Str} (h : Inside (workspaceOf c) q) : ¬ Inside (workspaceOf c') q := by
  intro h'
  unfold Inside at h h'
  rw [normalized_workspaceOf hc] at h
  rw [normalized_workspaceOf hc'] at h'
  have heq := (List.prefix_of_prefix_length_le h h' le_rfl).eq_of_length rfl
  simp [hne] at heq

/-! ## Where server paths come from -/

section SessionStep

variable {sha1 : Str → Str} {w : Str} {sid : SessionId} {files : FileTable} {disk : Disk}
  {x : Session} {a : SessionAction} {e : Effect}

/-- A transfer is for the server path of an entry. -/
theorem SessionStep.transferring_cases (h : SessionStep sha1 w sid files disk x a e)
    {msg : FileChunk} {p : Str} (ht : e.session.handling = .transferring msg p) :
    x.handling = .transferring msg p ∨ ∃ v, files msg.filename = some v ∧ p = v.serverFilePath := by
  cases h with
  | scan h hv =>
    unfold Session.scan at ht
    split at ht <;> exact Or.inl ht
  | @receive m h =>
    cases hv : files m.filename with
    | none =>
      rw [hv] at ht
      cases ht
    | some v =>
      simp only [hv, Session.receive] at ht
      split_ifs at ht
      cases ht
      exact Or.inr ⟨v, hv, rfl⟩
  | transfer h =>
    simp only [Session.transferred] at ht
    split at ht <;> cases ht
  | measure h hv =>
    unfold Session.measured at ht
    split at ht
    · cases ht
    · split at ht <;> cases ht
  | hash h hv =>
    unfold Session.hashed at ht
    split at ht <;> cases ht
  | write h =>
    unfold Session.marked at ht
    split at ht <;> cases ht
  | prepare h => exact Or.inl ht
  | claim h => exact Or.inl ht
  | confirm h => cases ht
  | copy h hv => cases ht
  | notify h => cases ht
  | disconnect h => cases ht

/-- **Files are written in one section only.** -/
theorem SessionStep.transfers_cases (h : SessionStep sha1 w sid files disk x a e) :
    (e.session.transfers = x.transfers ∧ e.disk = disk)
      ∨ ∃ msg p, x.handling = .transferring msg p
          ∧ e.session.transfers = (receiveChunk sid p msg disk x.transfers).transfers
          ∧ e.disk = (receiveChunk sid p msg disk x.transfers).disk := by
  cases h with
  | transfer h => exact Or.inr ⟨_, _, h, rfl, rfl⟩
  | scan h hv =>
    unfold Session.scan
    split <;> exact Or.inl ⟨rfl, rfl⟩
  | receive h =>
    unfold Session.receive
    split
    · exact Or.inl ⟨rfl, rfl⟩
    · split <;> exact Or.inl ⟨rfl, rfl⟩
  | measure h hv =>
    unfold Session.measured
    split
    · exact Or.inl ⟨rfl, rfl⟩
    · split <;> exact Or.inl ⟨rfl, rfl⟩
  | hash h hv =>
    unfold Session.hashed
    split <;> exact Or.inl ⟨rfl, rfl⟩
  | write h =>
    unfold Session.marked
    split <;> exact Or.inl ⟨rfl, rfl⟩
  | _ => exact Or.inl ⟨rfl, rfl⟩

/-- What holds of every server path a session has in hand. -/
structure Session.PathsIn (P : Str → Prop) (x : Session) : Prop where
  claimed : ∀ u ∈ x.starting.claimed, P u.serverFilePath
  writing : ∀ msg u marks ok, x.handling = .writing msg u marks ok → P u.serverFilePath
  transferring : ∀ msg p, x.handling = .transferring msg p → P p
  opened : ∀ p, x.transfers p ≠ none → P p
  streams : StreamsOwn x.transfers

variable {P : Str → Prop}

/-- A step takes its server paths from the entries. -/
theorem Session.PathsIn.step (hfiles : ∀ k v, files k = some v → P v.serverFilePath)
    (h : SessionStep sha1 w sid files disk x a e) (hx : x.PathsIn P) : e.session.PathsIn P where
  claimed := by
    rcases h.starting_cases with hst | hst | ⟨_, _, -, hst⟩ | ⟨_, _, _, v, -, hv, hst⟩
      | ⟨_, _, -, hst⟩ | hst <;> rw [hst]
    · exact hx.claimed
    · exact nofun
    · exact nofun
    · intro u hu
      cases hu
      exact hfiles _ v hv
    · exact nofun
    · exact nofun
  writing msg u marks ok hw := by
    rcases h.writing_cases hw with hw | ⟨v, st, -, -, hv, rfl⟩
    · exact hx.writing msg u marks ok hw
    · exact hfiles _ v hv
  transferring msg p ht := by
    rcases h.transferring_cases ht with ht | ⟨v, hv, rfl⟩
    · exact hx.transferring msg p ht
    · exact hfiles _ v hv
  opened q hq := by
    rcases h.transfers_cases with ⟨ht, -⟩ | ⟨msg, p, hp, ht, -⟩
    · exact hx.opened q (ht ▸ hq)
    · by_cases hqp : q = p
      · exact hqp ▸ hx.transferring msg p hp
      · rw [ht, receiveChunk_transfers_of_ne _ _ _ _ hqp] at hq
        exact hx.opened q hq
  streams := by
    rcases h.transfers_cases with ⟨ht, -⟩ | ⟨msg, p, -, ht, -⟩
    · exact ht ▸ hx.streams
    · exact ht ▸ hx.streams.receiveChunk sid p msg disk

/-- A step writes only what it transfers. -/
theorem Session.PathsIn.disk_changes (h : SessionStep sha1 w sid files disk x a e)
    (hx : x.PathsIn P) {q : Str} (hq : e.disk.files q ≠ disk.files q) : P q := by
  rcases h.transfers_cases with ⟨-, hd⟩ | ⟨msg, p, hp, -, hd⟩
  · exact absurd (congrFun (congrArg Disk.files hd) q) hq
  · by_cases hqp : q = p
    · exact hqp ▸ hx.transferring msg p hp
    · rw [hd] at hq
      exact absurd (hx.streams.receiveChunk_files_of_ne sid msg disk hqp) hq

end SessionStep

namespace ClientView

/-- What holds of the server path of every name that is declared. -/
def NamesIn (P : Str → Prop) (w : Str) : ClientAction → Prop
  | .start _ infos => ∀ i ∈ namedFiles infos, P (cnvtClientToServerPath w i.filename)
  | _ => True

/-- **Whatever holds of the server paths of all declared names** holds of all there are. -/
structure PathsIn (P : Str → Prop) (V : ClientView) : Prop where
  files : ∀ k v, V.files k = some v → P v.serverFilePath
  sessions : ∀ t x, V.sessions t = some x → x.PathsIn P

variable {sha1 : Str → Str} {w : Str} {disk : Disk} {V : ClientView} {P : Str → Prop}

theorem PathsIn.step {a : ClientAction} {e : ViewEffect} (hg : NamesIn P w a)
    (h : Step sha1 w disk V a e) (hV : V.PathsIn P) : e.view.PathsIn P := by
  have hmove : ∀ {sid x} (x' : Session), V.sessions sid = some x → x'.transfers = x.transfers →
      x'.starting = x.starting ∨ x'.starting = .started →
      x'.handling = x.handling ∨ x'.handling.marks = []
        ∧ (∀ msg p, x'.handling ≠ .transferring msg p) →
      ∀ t y, Function.update V.sessions sid (some x') t = some y → y.PathsIn P := by
    intro sid x x' hx ht hst hh
    obtain ⟨hclaimed, hwriting, htransferring, hopened, hstreams⟩ := hV.sessions sid x hx
    refine forall_update hV.sessions ⟨?_, fun msg u marks ok hw => ?_, fun msg p hp => ?_,
      ht ▸ hopened, ht ▸ hstreams⟩
    · rcases hst with hst | hst
      · exact hst ▸ hclaimed
      · rw [hst]
        exact nofun
    · rcases hh with hh | ⟨hh, -⟩
      · exact hwriting msg u marks ok (hh ▸ hw)
      · rw [hw] at hh
        cases hh
    · rcases hh with hh | ⟨-, hh⟩
      · exact htransferring msg p (hh ▸ hp)
      · exact absurd hp (hh msg p)
  cases h with
  | @start sid infos h =>
    refine ⟨fun k v hv => ?_,
      forall_update hV.sessions ⟨nofun, nofun, nofun, fun p hp => ?_, nofun⟩⟩
    · cases hk : V.files k with
      | some v₀ =>
        obtain rfl := Option.some.inj ((addFileStates_of_some _ hk).symm.trans hv)
        exact hV.files k _ hk
      | none =>
        obtain ⟨i, hi, rfl, rfl⟩ := addFileStates_of_none hk hv
        exact hg i hi
    · exact absurd rfl hp
  | @session sid a x e hx h =>
    have hpaths := hV.sessions sid x hx
    refine ⟨?_, forall_update hV.sessions (hpaths.step hV.files h)⟩
    have hwritten : ∀ {f u}, e.files = updateFileState V.files f u → P u.serverFilePath →
        ∀ k v, e.files k = some v → P v.serverFilePath := by
      intro f u hf hu
      rw [hf]
      exact forall_updateFileState (P := fun _ v => P v.serverFilePath) hV.files fun _ _ => hu
    rcases h.files_cases with hf | ⟨u, todo, -, hst, hf⟩ | ⟨msg, u, marks, ok, -, hh, hf⟩
    · exact hf ▸ hV.files
    · exact hwritten hf (hpaths.claimed u (by rw [hst]; rfl))
    · exact hwritten hf (hpaths.writing msg u marks ok hh)
  | sweepStart hx h hnew => exact ⟨hV.files, hmove _ hx rfl (Or.inr rfl) (Or.inl rfl)⟩
  | sweepChunk hx h hnew => exact ⟨hV.files, hmove _ hx rfl (Or.inl rfl) (Or.inr ⟨rfl, nofun⟩)⟩
  | terminate hx h => exact ⟨hV.files, hmove _ hx rfl (Or.inl rfl) (Or.inr ⟨rfl, nofun⟩)⟩
  | remove hx h => exact ⟨hV.files, hmove _ hx rfl (Or.inl rfl) (Or.inr ⟨rfl, nofun⟩)⟩
  | release hx h => exact ⟨hV.files, hmove _ hx rfl (Or.inl rfl) (Or.inr ⟨rfl, nofun⟩)⟩

theorem pathsIn_empty : PathsIn P .empty := ⟨nofun, forall_sessions_empty⟩

/-- What a step of a client changes on the disk has such a path. -/
theorem PathsIn.disk_changes {a : ClientAction} {e : ViewEffect} (h : Step sha1 w disk V a e)
    (hV : V.PathsIn P) {q : Str} (hq : e.disk.files q ≠ disk.files q) : P q := by
  cases h with
  | @session sid a x e hx h => exact (hV.sessions sid x hx).disk_changes h hq
  | _ => exact absurd rfl hq

end ClientView

/-- Every declared name stays inside. -/
def ClientView.NamesStayInside (w : Str) : ClientAction → Prop
  | .start _ infos => ∀ i ∈ namedFiles infos, StaysInside w i.filename
  | _ => True

instance ClientView.NamesStayInside.decidable (w : Str) : ∀ a, Decidable (NamesStayInside w a)
  | .start _ infos => by
    unfold NamesStayInside
    infer_instance
  | .session _ _ | .sweepStart _ _ | .sweepChunk _ _ | .terminate _ | .remove _ | .release _ =>
    inferInstanceAs (Decidable True)

theorem ClientView.NamesStayInside.namesIn {w : Str} {a : ClientAction}
    (h : NamesStayInside w a) : NamesIn (Inside w) w a := by
  cases a with
  | start sid infos => exact fun i hi => (inside_cnvt_iff w i.filename).mpr (h i hi)
  | _ => trivial

/-- The files a client's sessions have open, or had, and those its next step changes. -/
structure System.UploadsInside (sha1 : Str → Str) (c : ClientId) (s : System) : Prop where
  opened : ∀ sid x p, (s.views c).sessions sid = some x → x.transfers p ≠ none →
    Inside (workspaceOf c) p
  changed : ∀ a t q, System.step sha1 (.client c a) s = some t → t.disk.files q ≠ s.disk.files q →
    Inside (workspaceOf c) q

/-- **Uploads are contained where the declared names are**: a name is mapped into the workspace if
and only if it stays inside; where a client declares only such names, it opens and changes files in
its own workspace only, and thus in no other's. -/
theorem uploads_contained (sha1 : Str → Str) (c : ClientId) (n : ℕ) (disk : Disk) :
    (∀ w f, Inside w (cnvtClientToServerPath w f) ↔ StaysInside w f)
      ∧ (∀ as s,
          Meets (System.step sha1)
            (System.onClient c fun a _ _ => ClientView.NamesStayInside (workspaceOf c) a) as
            (System.initial n disk) →
          runFrom (System.step sha1) as (System.initial n disk) = some s →
          s.UploadsInside sha1 c)
      ∧ ∀ c' q, PlainComponent c → PlainComponent c' → c ≠ c' → Inside (workspaceOf c) q →
          ¬ Inside (workspaceOf c') q := by
  refine ⟨inside_cnvt_iff, fun as s hm hr => ?_,
    fun c' q hc hc' hne h => not_inside_other hc hc' hne h⟩
  have hpaths : (s.views c).PathsIn (Inside (workspaceOf c)) :=
    System.view_invariant ClientView.pathsIn_empty
      (fun _ _ _ _ hg h hV => hV.step hg.namesIn h) hm hr
  refine ⟨fun sid x p hx hp => (hpaths.sessions sid x hx).opened p hp, fun a t q h hq => ?_⟩
  obtain ⟨e, hstep, -, hd, -⟩ := System.client_cases h
  exact hpaths.disk_changes hstep (hd ▸ hq)

/-- The upload of `/a.c` is contained. -/
theorem firstUpload_contained :
    ∃ s, runFrom (System.step sampleSha1) firstUpload (System.initial 1 .empty) = some s
      ∧ s.UploadsInside sampleSha1 (str "c") := by
  have hrun : ((runFrom (System.step sampleSha1) firstUpload (System.initial 1 .empty)).map
      fun _ => true) = some true := by
    decide +kernel
  obtain ⟨s, hr, -⟩ := Option.map_eq_some_iff.mp hrun
  exact ⟨s, hr, (uploads_contained _ _ _ _).2.1 _ s (by decide +kernel) hr⟩

/-- A client declares a file of the workspace next to its own, and uploads it. -/
def uploadOutside : List Action :=
  startFile (str "c") (str "s") ⟨str "/../t/a.c", 1, sampleSha1 (str "a")⟩
    ++ onSession (str "c") (str "s") [.claim, .confirm]
    ++ onSession (str "c") (str "s")
      [.receive (wholeFile (str "s") (str "/../t/a.c") (str "a")), .transfer]

/-- The server opens it. -/
theorem uploadOutside_opens :
    ¬ ∀ as s, runFrom (System.step sampleSha1) as (System.initial 1 .empty) = some s →
      ∀ c sid x p, (s.views c).sessions sid = some x → x.transfers p ≠ none →
        Inside (workspaceOf c) p := by
  intro h
  have hrun : ((runFrom (System.step sampleSha1) uploadOutside (System.initial 1 .empty)).bind
      fun s => ((s.views (str "c")).sessions (str "s")).map fun x =>
        decide (x.transfers (workspaceOf (str "c") ++ str "/../t/a.c") = none)) = some false := by
    decide +kernel
  obtain ⟨s, hr, hrest⟩ := Option.bind_eq_some_iff.mp hrun
  obtain ⟨x, hx, hopen⟩ := Option.map_eq_some_iff.mp hrest
  exact absurd (h _ s hr _ _ x _ hx (of_decide_eq_false hopen)) (by decide)

end DistBuild
