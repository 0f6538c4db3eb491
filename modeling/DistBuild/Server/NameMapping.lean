import DistBuild.Server.Confirmation
import DistBuild.Server.Places
import DistBuild.Server.Waiting

/-!
# Server/NameMapping — the server asks for files by the names they were declared by

    declared f ──▸ W/f ──▸ f     one slash in front: asked for as declared
    declared f ──▸ W/f ──▸ /f    none, or several:   asked for by a name nobody declared

`add_session` recovers a file's name from its server path, to ask for it and to find its entry
again.  Which names come back is `survivesMapping_iff`; where all declared names do, every name in a
confirmation is a declared one, and every write-back of `add_session` finds the entry it was copied
from (`requested_names_declared`).  Names that come back have server paths of their own; files of
their own they have only if no two of them lead to one place, as `/p/a.h` and `/p//a.h` do.
-/

namespace DistBuild

namespace ClientView

/-- The declared names come back. -/
def NamesMapBack (w : Str) : ClientAction → Prop
  | .start _ infos => ∀ i ∈ namedFiles infos, MapsBack w i.filename
  | _ => True

instance NamesMapBack.decidable (w : Str) : ∀ a, Decidable (NamesMapBack w a)
  | .start _ infos => by
    unfold NamesMapBack
    infer_instance
  | .session _ _ | .sweepStart _ _ | .sweepChunk _ _ | .terminate _ | .remove _ | .release _ =>
    inferInstanceAs (Decidable True)

/-- A session waits for, looks for and asks for files it declared. -/
structure AsksDeclared (w : Str) (x : Session) : Prop where
  required : ∀ k ∈ x.requiredFilesState, ∃ i ∈ x.declared, i.filename = k
  pending : x.pending w ⊆ x.requiredFilesState
  requested : x.requested ⊆ x.requiredFilesState

variable {sha1 : Str → Str} {w : Str} {disk : Disk} {V : ClientView}

theorem NamesMapBack.survive {a : ClientAction} (h : NamesMapBack w a) : NamesSurvive w a := by
  cases a with
  | start sid infos => exact fun i hi => (survivesMapping_iff w i.filename).mpr (h i hi)
  | _ => trivial

/-- The name recovered from the entry at `k` is `k`. -/
theorem Catalogued.recovered (hV : Catalogued w V) {k : Str} {v : FileStateView}
    (hv : V.files k = some v) : cnvtServerToClientPath w v.serverFilePath = k := by
  obtain ⟨hk, hp⟩ := hV.filed k v hv
  exact cnvt_of_survives hk hp

theorem AsksDeclared.session {sid : SessionId} {a : SessionAction} {x : Session} {e : Effect}
    (hV : Catalogued w V) (hx : AsksDeclared w x) (h : SessionStep sha1 w sid V.files disk x a e) :
    AsksDeclared w e.session where
  required := by
    rw [h.frame.1, h.frame.2.1]
    exact hx.required
  pending := by
    rw [h.frame.2.1]
    have hpend := hx.pending
    unfold Session.pending at hpend ⊢
    rcases h.starting_cases with hst | hst | ⟨k, todo, hx', hst⟩ | ⟨now, k, todo, v, hx', hv, hst⟩
      | ⟨u, todo, hx', hst⟩ | hst <;> rw [hst]
    · rwa [h.frame.2.1]
    · exact List.Subset.refl _
    · rw [hx'] at hpend
      exact fun k hk => hpend (List.mem_cons_of_mem _ hk)
    · rw [hx'] at hpend
      refine List.cons_subset.mpr ⟨?_, fun k hk => hpend (List.mem_cons_of_mem _ hk)⟩
      exact hpend (by rw [hV.recovered hv]; exact List.mem_cons_self)
    · rw [hx'] at hpend
      exact fun k hk => hpend (List.mem_cons_of_mem _ hk)
    · exact List.nil_subset _
  requested := by
    rw [h.frame.2.1]
    rcases h.requested_cases with hr | ⟨u, todo, -, hst, hr⟩ | ⟨now, k, todo, v, -, hst, hv, -, hr⟩
    · exact hr ▸ hx.requested
    · rw [hr]
      refine List.append_subset.mpr ⟨hx.requested, List.cons_subset.mpr ⟨?_, List.nil_subset _⟩⟩
      exact hx.pending (by rw [Session.pending, hst]; exact List.mem_cons_self)
    · rw [hr, hV.recovered hv]
      refine List.append_subset.mpr ⟨hx.requested, List.cons_subset.mpr ⟨?_, List.nil_subset _⟩⟩
      exact hx.pending (by rw [Session.pending, hst]; exact List.mem_cons_self)

/-- Every session of the client asks for what it declared. -/
structure Asking (w : Str) (V : ClientView) : Prop where
  catalogued : Catalogued w V
  asks : ∀ t x, V.sessions t = some x → AsksDeclared w x

theorem Asking.step {a : ClientAction} {e : ViewEffect} (hg : NamesMapBack w a)
    (h : Step sha1 w disk V a e) (hV : Asking w V) : Asking w e.view := by
  refine ⟨hV.catalogued.step hg.survive h, ?_⟩
  have hmove : ∀ {sid x} (x' : Session), V.sessions sid = some x → x'.declared = x.declared →
      x'.requiredFilesState = x.requiredFilesState → x'.requested = x.requested →
      x'.starting = x.starting ∨ x'.starting = .started →
      ∀ t y, Function.update V.sessions sid (some x') t = some y → AsksDeclared w y := by
    intro sid x x' hx hdecl hreq hasked hst
    obtain ⟨hrequired, hpending, hrequested⟩ := hV.asks sid x hx
    refine forall_update hV.asks ⟨hdecl ▸ hreq ▸ hrequired, ?_, hasked ▸ hreq ▸ hrequested⟩
    unfold Session.pending at hpending ⊢
    rcases hst with hst | hst
    · rw [hst, hreq]
      exact hpending
    · rw [hst]
      exact List.nil_subset _
  cases h with
  | @start sid infos h =>
    refine forall_update hV.asks ⟨fun k hk => ?_, List.Subset.refl _, List.nil_subset _⟩
    obtain ⟨i, hi, rfl⟩ := List.mem_map.mp hk
    exact ⟨i, List.mem_of_mem_filter hi, rfl⟩
  | @session sid a x e hx h =>
    exact forall_update hV.asks ((hV.asks sid x hx).session hV.catalogued h)
  | sweepStart hx h hnew => exact hmove _ hx rfl rfl rfl (Or.inr rfl)
  | sweepChunk hx h hnew => exact hmove _ hx rfl rfl rfl (Or.inl rfl)
  | terminate hx h => exact hmove _ hx rfl rfl rfl (Or.inl rfl)
  | remove hx h => exact hmove _ hx rfl rfl rfl (Or.inl rfl)
  | release hx h => exact hmove _ hx rfl rfl rfl (Or.inl rfl)

theorem asking_empty : Asking w .empty := ⟨catalogued_empty, forall_sessions_empty⟩

/-- A session keeps what it declared. -/
theorem Step.declared {a : ClientAction} {e : ViewEffect} (h : Step sha1 w disk V a e)
    {t : SessionId} {x : Session} (hx : V.sessions t = some x) :
    ∃ x', e.view.sessions t = some x' ∧ x'.declared = x.declared := by
  have hmove : ∀ {sid y} (y' : Session), V.sessions sid = some y → y'.declared = y.declared →
      ∃ x', Function.update V.sessions sid (some y') t = some x' ∧ x'.declared = x.declared := by
    intro sid y y' hy hdecl
    by_cases hts : t = sid
    · subst hts
      obtain rfl := Option.some.inj (hx.symm.trans hy)
      exact ⟨y', Function.update_self .., hdecl⟩
    · exact ⟨x, (Function.update_of_ne hts ..).trans hx, rfl⟩
  cases h with
  | @start sid infos h =>
    refine ⟨x, (V.addSession_of_ne w infos ?_).trans hx, rfl⟩
    rintro rfl
    exact absurd (h.symm.trans hx) nofun
  | session hy h => exact hmove _ hy h.frame.1
  | sweepStart hy h hnew => exact hmove _ hy rfl
  | sweepChunk hy h hnew => exact hmove _ hy rfl
  | terminate hy h => exact hmove _ hy rfl
  | remove hy h => exact hmove _ hy rfl
  | release hy h => exact hmove _ hy rfl

/-- A confirmation carries what the session was asked for. -/
theorem Step.confirmation {a : ClientAction} {e : ViewEffect} (h : Step sha1 w disk V a e)
    {id : SessionId} {names : List Str} (hm : .sessionConfirmed id names ∈ e.sent) :
    ∃ x, V.sessions a.actor = some x ∧ names = x.requested := by
  have hanswer : ∀ {sid ok}, .sessionConfirmed id names ∉ answer sid ok := by
    intro sid ok
    unfold answer
    split <;> simp
  cases h with
  | @session sid a x e hx h =>
    cases h with
    | confirm h =>
      obtain ⟨rfl, rfl⟩ := ServerMessage.sessionConfirmed.inj (List.mem_singleton.mp hm)
      exact ⟨x, hx, rfl⟩
    | receive h => exact absurd hm hanswer
    | write h => exact absurd hm hanswer
    | notify h => cases List.mem_singleton.mp hm
    | _ => cases hm
  | _ => cases hm

end ClientView

namespace System

/-- **What `add_session` asks its client for**, in the state `s` and in the step after it: a
confirmation names declared files; the name recovered from a scanned entry is the file's own; and a
write-back finds an entry, which is UPLOADING then. -/
structure RequestsDeclared (sha1 : Str → Str) (c : ClientId) (s : System) : Prop where
  confirmed : ∀ sid id names, ((c, sid), .sessionConfirmed id names) ∈ s.sent →
    ∃ x, (s.views c).sessions sid = some x ∧ ∀ k ∈ names, ∃ i ∈ x.declared, i.filename = k
  scans : ∀ sid x k todo v, (s.views c).sessions sid = some x → x.starting = .scanning (k :: todo) →
    (s.views c).files k = some v → cnvtServerToClientPath (workspaceOf c) v.serverFilePath = k
  claims : ∀ sid t, step sha1 (.client c (.session sid .claim)) s = some t →
    ∃ x u, (s.views c).sessions sid = some x ∧ u ∈ x.starting.claimed
      ∧ (∃ v, (s.views c).files (cnvtServerToClientPath (workspaceOf c) u.serverFilePath) = some v)
      ∧ ∃ v, (t.views c).files (cnvtServerToClientPath (workspaceOf c) u.serverFilePath) = some v
          ∧ v.fileStatus = .uploading

variable {sha1 : Str → Str} {c : ClientId}

/-- The invariant behind it. -/
structure Asking (c : ClientId) (s : System) : Prop where
  view : (s.views c).Asking (workspaceOf c)
  confirmed : ∀ sid id names, ((c, sid), .sessionConfirmed id names) ∈ s.sent →
    ∃ x, (s.views c).sessions sid = some x ∧ ∀ k ∈ names, ∃ i ∈ x.declared, i.filename = k

/-- A session of the server keeps what it declared. -/
theorem declared_of_step {a : Action} {s t : System} (h : step sha1 a s = some t)
    {sid : SessionId} {x : Session} (hx : (s.views c).sessions sid = some x) :
    ∃ x', (t.views c).sessions sid = some x' ∧ x'.declared = x.declared := by
  rcases step_view c h with hv | ⟨va, e, -, hstep, hv⟩
  · exact ⟨x, hv ▸ hx, rfl⟩
  · exact hv ▸ hstep.declared hx

theorem Asking.step {a : Action} {s t : System}
    (hg : onClient c (fun a _ _ => ClientView.NamesMapBack (workspaceOf c) a) a s)
    (h : System.step sha1 a s = some t) (hs : Asking c s) : Asking c t := by
  refine ⟨?_, fun sid id names hm => ?_⟩
  · rcases step_view c h with hv | ⟨va, e, rfl, hstep, hv⟩
    · exact hv ▸ hs.view
    · exact hv ▸ hs.view.step (hg rfl) hstep
  · have hkept : ((c, sid), .sessionConfirmed id names) ∈ s.sent →
        ∃ x, (t.views c).sessions sid = some x ∧ ∀ k ∈ names, ∃ i ∈ x.declared, i.filename = k := by
      intro hm
      obtain ⟨x, hx, hnames⟩ := hs.confirmed sid id names hm
      obtain ⟨x', hx', hdecl⟩ := declared_of_step h hx
      exact ⟨x', hx', hdecl ▸ hnames⟩
    cases a with
    | worker i a =>
      obtain ⟨k, -, hk⟩ := Option.bind_eq_some_iff.mp h
      rcases workerStep_sent hk with hsent | ⟨r, chunks, -, hsent⟩
      · exact hkept (hsent ▸ hm)
      · rcases List.mem_append.mp (hsent ▸ hm) with hm | hm
        · exact hkept hm
        · obtain ⟨m, -, heq⟩ := List.mem_map.mp hm
          cases (Prod.mk.inj heq).2
    | client c' a =>
      obtain ⟨e, he, ht⟩ := Option.map_eq_some_iff.mp h
      have hsent : t.sent = s.sent ++ e.sent.map fun m => ((c', a.actor), m) := by rw [← ht]
      rcases List.mem_append.mp (hsent ▸ hm) with hm | hm
      · exact hkept hm
      · obtain ⟨m, hsent, heq⟩ := List.mem_map.mp hm
        obtain ⟨hsid, rfl⟩ := Prod.mk.inj heq
        obtain ⟨rfl, rfl⟩ := Prod.mk.inj hsid
        obtain ⟨x, hx, rfl⟩ := (ClientView.step_cases he).confirmation hsent
        obtain ⟨x', hx', hdecl⟩ := declared_of_step h hx
        obtain ⟨hrequired, -, hrequested⟩ := hs.view.asks _ x hx
        exact ⟨x', hx', fun k hk => hdecl ▸ hrequired k (hrequested hk)⟩

theorem Asking.requestsDeclared {s : System} (hs : Asking c s) : RequestsDeclared sha1 c s where
  confirmed := hs.confirmed
  scans _ _ _ _ _ _ _ hv := hs.view.catalogued.recovered hv
  claims sid t h := by
    obtain ⟨e, hstep, hv, -⟩ := client_cases h
    rw [hv]
    cases hstep with
    | @session _ _ x e hx h =>
      cases h with
      | @claim u todo hst =>
        obtain ⟨hup, k, v, hk, hsurv, hp⟩ :=
          (hs.view.catalogued.keyed sid x hx).claimed u (by rw [hst]; rfl)
        have hfound := (ClientView.cnvt_of_survives hsurv hp).symm ▸ hk
        have hwritten : updateFileState (s.views c).files
            (cnvtServerToClientPath (workspaceOf c) u.serverFilePath) u
            (cnvtServerToClientPath (workspaceOf c) u.serverFilePath) = some u := by
          rw [updateFileState_of_some hfound, Function.update_self]
        exact ⟨x, u, hx, by rw [hst]; rfl, ⟨v, hfound⟩, u, hwritten, hup⟩

end System

/-- **Requested names are declared names**: the names that come back are those with one slash in
front; they have server paths of their own; they share a server file exactly if they lead to one
place, which names in normal form do not; and where a client declares only names that come back, its
confirmations name declared files, `add_session` finds every entry again, and entries are of
different files if no two declared names lead to one. -/
theorem requested_names_declared (sha1 : Str → Str) (c : ClientId) (n : ℕ) (disk : Disk) :
    (∀ w f, SurvivesMapping w f ↔ MapsBack w f)
      ∧ (∀ w f g, MapsBack w f → MapsBack w g →
          cnvtClientToServerPath w f = cnvtClientToServerPath w g → f = g)
      ∧ (∀ w f g, SameFile (cnvtClientToServerPath w f) (cnvtClientToServerPath w g)
          ↔ walk (baseOf w f) (components f) = walk (baseOf w g) (components g))
      ∧ (∀ c f g, PlainComponent c → NormalForm f → NormalForm g →
          (SameFile (cnvtClientToServerPath (workspaceOf c) f)
            (cnvtClientToServerPath (workspaceOf c) g) ↔ f = g))
      ∧ ∀ as s,
          Meets (System.step sha1)
            (System.onClient c fun a _ _ => ClientView.NamesMapBack (workspaceOf c) a) as
            (System.initial n disk) →
          runFrom (System.step sha1) as (System.initial n disk) = some s →
          s.RequestsDeclared sha1 c
            ∧ (Apart (workspaceOf c) (declaredNames c as) → (s.views c).Separate) := by
  refine ⟨survivesMapping_iff, fun w f g hf hg => ?_, sameFile_server_iff,
    fun c f g hc hf hg => sameFile_normal_iff hc hf hg, fun as s hm hr => ?_⟩
  · exact SurvivesMapping.injective ((survivesMapping_iff w f).mpr hf)
      ((survivesMapping_iff w g).mpr hg)
  · have hs : s.Asking c := hm.invariant (fun _ _ _ hg h hs => hs.step hg h) hr
      ⟨ClientView.asking_empty, nofun⟩
    exact ⟨hs.requestsDeclared, System.separate hr hs.view.catalogued⟩

/-- The client that uploads `/a.c` is asked for declared files only. -/
theorem firstUpload_requests_declared :
    ∃ s, runFrom (System.step sampleSha1) firstUpload (System.initial 1 .empty) = some s
      ∧ s.RequestsDeclared sampleSha1 (str "c") ∧ (s.views (str "c")).Separate := by
  have hrun : ((runFrom (System.step sampleSha1) firstUpload (System.initial 1 .empty)).map
      fun _ => true) = some true := by
    decide +kernel
  obtain ⟨s, hr, -⟩ := Option.map_eq_some_iff.mp hrun
  obtain ⟨hdeclared, hseparate⟩ := (requested_names_declared sampleSha1 (str "c") 1 .empty).2.2.2.2
    firstUpload s (by decide +kernel) hr
  exact ⟨s, hr, hdeclared, hseparate (by decide +kernel)⟩

/-- Three spellings come back each as it is, and have one server file. -/
example : ∀ f ∈ [str "/p/a.h", str "/p//a.h", str "/p/q/../a.h"],
    MapsBack (workspaceOf (str "c")) f
      ∧ SameFile (cnvtClientToServerPath (workspaceOf (str "c")) f)
          (cnvtClientToServerPath (workspaceOf (str "c")) (str "/p/a.h")) := by decide

/-- A source file given relative to the working directory is asked for as another file. -/
theorem relative_source_renamed : ¬ ∀ c f, f ≠ [] → SurvivesMapping (workspaceOf c) f := by
  intro h
  exact absurd (h (str "c") (str "a.cpp") (by decide)) (by decide)

end DistBuild
