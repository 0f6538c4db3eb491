import DistBuild.Server.System

/-!
# Server/Declarations — a compilation starts against what its session declared

    declared (name, size, digest) ──add_file_state──▸ the entry at that name
                                                      (an older one, if the name is known)

`add_file_state` means to reuse an entry only if size and digest agree, but the `try_emplace` it
falls back to keeps an older entry all the same.  As long as no start declares a known name anew and
no write-back of `add_session` lands on another file's entry, entries keep their size and digest,
and every compilation starts against what its session declared (`compilations_start_fresh`).
-/

namespace DistBuild

/-- The entry of a declared file as it was declared. -/
def FileStateView.Declares (v : FileStateView) (i : FileInfo) : Prop :=
  v.fileSzBytes = i.filesize ∧ v.fileSha1 = i.filehash

/-- Same size and digest. -/
def SameDigest (v v' : FileStateView) : Prop :=
  v'.fileSzBytes = v.fileSzBytes ∧ v'.fileSha1 = v.fileSha1

instance (v : FileStateView) (i : FileInfo) : Decidable (v.Declares i) := by
  unfold FileStateView.Declares
  infer_instance

instance (v v' : FileStateView) : Decidable (SameDigest v v') := by
  unfold SameDigest
  infer_instance

namespace ClientView

/-- **Everything the session declared is there as declared**: it waits on the entry of every file it
named, and each has the declared size and digest and is AVAILABLE. -/
def StartsFresh (V : ClientView) (sid : SessionId) : Prop :=
  ∃ x ∈ V.sessions sid, ∀ i ∈ namedFiles x.declared, i.filename ∈ x.requiredFilesState
    ∧ ∃ v ∈ V.files i.filename, v.Declares i ∧ v.fileStatus = .available

instance (V : ClientView) (sid : SessionId) : Decidable (V.StartsFresh sid) := by
  unfold StartsFresh
  infer_instance

/-- No declaration goes against an entry or another one of the same start, and no claim lands on an
entry with another size or digest. -/
def Redeclares (w : Str) : ClientAction → ClientView → Prop
  | .start _ infos, V =>
    (∀ i ∈ namedFiles infos, ∀ v ∈ V.files i.filename, v.Declares i)
      ∧ ∀ i ∈ namedFiles infos, ∀ j ∈ namedFiles infos, i.filename = j.filename →
        i.filesize = j.filesize ∧ i.filehash = j.filehash
  | .session sid .claim, V =>
    ∀ x ∈ V.sessions sid, ∀ u ∈ x.starting.claimed,
      ∀ v ∈ V.files (cnvtServerToClientPath w u.serverFilePath), SameDigest v u
  | _, _ => True

instance Redeclares.decidable (w : Str) : ∀ a V, Decidable (Redeclares w a V)
  | .start _ infos, V => by
    unfold Redeclares
    infer_instance
  | .session sid .claim, V => by
    unfold Redeclares
    infer_instance
  | .session _ .prepare, _ | .session _ (.scan _), _ | .session _ .confirm, _
  | .session _ (.receive _), _ | .session _ .transfer, _ | .session _ .measure, _
  | .session _ .hash, _ | .session _ .copy, _ | .session _ .write, _ | .session _ .notify, _
  | .session _ .disconnect, _ | .sweepStart _ _, _ | .sweepChunk _ _, _ | .terminate _, _
  | .remove _, _ | .release _, _ => inferInstanceAs (Decidable True)

/-! ## Entries keep their size and digest -/

/-- Every entry stays, with its size and digest. -/
def KeepsDigests (files files' : FileTable) : Prop :=
  ∀ f v, files f = some v → ∃ v', files' f = some v' ∧ SameDigest v v'

theorem KeepsDigests.refl (files : FileTable) : KeepsDigests files files :=
  fun _ v hv => ⟨v, hv, rfl, rfl⟩

theorem KeepsDigests.updateFileState {files : FileTable} {f : Str} {u : FileStateView}
    (h : ∀ v, files f = some v → SameDigest v u) :
    KeepsDigests files (updateFileState files f u) := by
  intro g v hv
  by_cases hg : g = f
  · subst hg
    exact ⟨u, by rw [updateFileState_of_some hv, Function.update_self], h v hv⟩
  · exact ⟨v, (updateFileState_of_ne files u hg).trans hv, rfl, rfl⟩

/-- What the entries are to one session: as it declared them, and equal in size and digest to the
copy its handler is about to write back. -/
structure Declared (files : FileTable) (x : Session) : Prop where
  declared : ∀ i ∈ namedFiles x.declared, i.filename ∈ x.requiredFilesState
    ∧ ∃ v, files i.filename = some v ∧ v.Declares i
  writing : ∀ msg updated marks ok, x.handling = .writing msg updated marks ok →
    ∃ v, files msg.filename = some v ∧ SameDigest v updated

theorem Declared.of_keeps {files files' : FileTable} {x : Session} (h : Declared files x)
    (hk : KeepsDigests files files') : Declared files' x where
  declared i hi := by
    obtain ⟨hreq, v, hv, hd⟩ := h.declared i hi
    obtain ⟨v', hv', hs⟩ := hk _ v hv
    exact ⟨hreq, v', hv', hs.1.trans hd.1, hs.2.trans hd.2⟩
  writing msg updated marks ok hw := by
    obtain ⟨v, hv, hs⟩ := h.writing msg updated marks ok hw
    obtain ⟨v', hv', hs'⟩ := hk _ v hv
    exact ⟨v', hv', hs.1.trans hs'.1.symm, hs.2.trans hs'.2.symm⟩

/-- Every session finds the entries as it declared them. -/
def Declarations (V : ClientView) : Prop :=
  ∀ sid x, V.sessions sid = some x → Declared V.files x

variable {sha1 : Str → Str} {w : Str}

/-- A step of one session keeps sizes and digests. -/
theorem keepsDigests_session {V : ClientView} {sid : SessionId} {a : SessionAction} {x : Session}
    {disk : Disk} {e : Effect} (hg : Redeclares w (.session sid a) V) (hV : Declarations V)
    (hx : V.sessions sid = some x) (h : SessionStep sha1 w sid V.files disk x a e) :
    KeepsDigests V.files e.files := by
  rcases h.files_cases with hf | ⟨updated, todo, rfl, hst, hf⟩ |
    ⟨msg, updated, marks, ok, rfl, hh, hf⟩
  · exact hf ▸ .refl _
  · rw [hf]
    exact .updateFileState fun v hv => hg x hx updated (by rw [hst]; rfl) v hv
  · rw [hf]
    obtain ⟨v, hv, hs⟩ := (hV sid x hx).writing msg updated marks ok hh
    exact .updateFileState fun v' hv' => Option.some.inj (hv.symm.trans hv') ▸ hs

/-- **Every step keeps the declarations true.** -/
theorem Declarations.step {disk : Disk} {V : ClientView} {a : ClientAction} {e : ViewEffect}
    (hg : Redeclares w a V) (h : Step sha1 w disk V a e) (hV : Declarations V) :
    Declarations e.view := by
  have hmove : ∀ {sid x x'}, V.sessions sid = some x → x'.declared = x.declared →
      x'.requiredFilesState = x.requiredFilesState →
      (∀ msg updated marks ok, x'.handling ≠ .writing msg updated marks ok
        ∨ x'.handling = x.handling) →
      ∀ t y, Function.update V.sessions sid (some x') t = some y → Declared V.files y := by
    intro sid x x' hx hd hr hh
    refine forall_update hV ⟨?_, fun msg updated marks ok hw => ?_⟩
    · rw [hd, hr]
      exact (hV sid x hx).declared
    · rcases hh msg updated marks ok with hne | he
      · exact absurd hw hne
      · exact (hV sid x hx).writing msg updated marks ok (he ▸ hw)
  cases h with
  | @start sid infos h =>
    have hk : KeepsDigests V.files (addFileStates w V.files (namedFiles infos)) :=
      fun f v hv => ⟨v, addFileStates_of_some _ hv, rfl, rfl⟩
    refine forall_update (fun t y hy => (hV t y hy).of_keeps hk) ⟨fun i hi => ?_, ?_⟩
    · refine ⟨List.mem_map_of_mem hi, ?_⟩
      obtain ⟨v, hv⟩ : ∃ v, addFileStates w V.files (namedFiles infos) i.filename = some v :=
        addFileStates_isSome hi
      refine ⟨v, hv, ?_⟩
      cases hf : V.files i.filename with
      | some v₀ =>
        obtain rfl : v₀ = v := Option.some.inj ((addFileStates_of_some _ hf).symm.trans hv)
        exact hg.1 i hi v₀ hf
      | none =>
        obtain ⟨j, hj, hname, rfl⟩ := addFileStates_of_none hf hv
        exact hg.2 j hj i hi hname
    · intro msg updated marks ok hw
      cases hw
  | @session sid a x e hx h =>
    have hk := keepsDigests_session hg hV hx h
    refine forall_update (fun t y hy => (hV t y hy).of_keeps hk) ⟨?_, ?_⟩
    · rw [h.frame.1, h.frame.2.1]
      exact ((hV sid x hx).of_keeps hk).declared
    · intro msg updated marks ok hw
      rcases h.writing_cases hw with hw | ⟨v, st, rfl, -, hv, rfl⟩
      · exact ((hV sid x hx).of_keeps hk).writing msg updated marks ok hw
      · obtain ⟨v', hv', hs⟩ := hk _ v hv
        exact ⟨v', hv', hs.1.symm, hs.2.symm⟩
  | sweepStart hx h hnew => exact hmove hx rfl rfl fun _ _ _ _ => Or.inr rfl
  | sweepChunk hx h hnew => exact hmove hx rfl rfl fun _ _ _ _ => Or.inl nofun
  | terminate hx h => exact hmove hx rfl rfl fun _ _ _ _ => Or.inl nofun
  | remove hx h => exact hmove hx rfl rfl fun _ _ _ _ => Or.inl nofun
  | release hx h => exact hmove hx rfl rfl fun _ _ _ _ => Or.inl nofun

/-- What a sweep enqueues starts fresh. -/
theorem Declarations.startsFresh {disk : Disk} {V : ClientView} {a : ClientAction} {e : ViewEffect}
    (h : Step sha1 w disk V a e) (hV : Declarations e.view) {sid : SessionId}
    (hsid : sid ∈ e.enqueued) : e.view.StartsFresh sid := by
  have hready : ∀ y, e.view.sessions sid = some y → e.view.Ready y → e.view.StartsFresh sid := by
    refine fun y hy hr => ⟨y, hy, fun i hi => ?_⟩
    obtain ⟨hreq, v, hv, hd⟩ := (hV sid y hy).declared i hi
    obtain ⟨v', hv', hav⟩ := hr.2 _ hreq
    obtain rfl : v = v' := Option.some.inj (hv.symm.trans hv')
    exact ⟨hreq, v, hv, hd, hav⟩
  cases h with
  | sweepStart hx h hnew =>
    obtain ⟨-, -, y, hy, hr⟩ := hnew sid hsid
    exact hready y hy hr
  | sweepChunk hx h hnew =>
    obtain ⟨-, -, y, hy, hr⟩ := hnew sid hsid
    exact hready y hy hr
  | start _ => cases hsid
  | session _ _ => cases hsid
  | terminate _ _ => cases hsid
  | remove _ _ => cases hsid
  | release _ _ => cases hsid

end ClientView

variable {sha1 : Str → Str}

/-- **Every compilation of a client starts against what its session declared**, in every run in
which no start of the client declares a known file anew and no claim lands on another file. -/
theorem compilations_start_fresh {c : ClientId} {n : ℕ} {disk : Disk} {as : List Action}
    {a : Action} {s t : System}
    (hm : Meets (System.step sha1)
      (System.onClient c fun a _ => ClientView.Redeclares (workspaceOf c) a) (as ++ [a])
      (System.initial n disk))
    (hr : runFrom (System.step sha1) as (System.initial n disk) = some s)
    (hs : System.step sha1 a s = some t) :
    ∀ r ∈ System.added s t, r.requesterSession.1 = c →
      (t.views c).StartsFresh r.requesterSession.2 := by
  intro r hmem hc
  have hV : ClientView.Declarations (t.views c) :=
    System.view_invariant (fun _ _ h => nomatch h) (fun _ _ _ _ hg h hV => hV.step hg h) hm
      (runFrom_append.mpr ⟨s, hr, runFrom_cons.mpr ⟨t, hs, rfl⟩⟩)
  obtain ⟨c', va, e, sid, -, rfl, hsid, hstep, hv⟩ := System.mem_added hs hmem
  obtain rfl : c' = c := hc
  rw [hv] at hV ⊢
  exact hV.startsFresh hstep hsid

/-! ### A known file, declared anew -/

/-- Its compilation starts against that byte. -/
theorem firstUpload_starts_fresh :
    ∃ s t, runFrom (System.step sampleSha1) firstUpload (System.initial 1 .empty) = some s
      ∧ System.step sampleSha1 (.client (str "c") (.sweepChunk (str "s") [str "s"])) s = some t
      ∧ System.added s t = [⟨false, (str "c", str "s")⟩]
      ∧ (t.views (str "c")).StartsFresh (str "s") := by
  have hrun : ((runFrom (System.step sampleSha1) firstUpload (System.initial 1 .empty)).bind
      fun s => (System.step sampleSha1 (.client (str "c") (.sweepChunk (str "s") [str "s"])) s).map
        fun t => decide (System.added s t = [⟨false, (str "c", str "s")⟩])) = some true := by
    decide +kernel
  obtain ⟨s, hr, hrest⟩ := Option.bind_eq_some_iff.mp hrun
  obtain ⟨t, hs, hadded⟩ := Option.map_eq_some_iff.mp hrest
  have hadded' := of_decide_eq_true hadded
  refine ⟨s, t, hr, hs, hadded', ?_⟩
  exact compilations_start_fresh (c := str "c") (by decide +kernel) hr hs
    ⟨false, (str "c", str "s")⟩
    (by rw [hadded']; exact List.mem_singleton_self _) rfl

/-- A second session declares `/a.c` as the byte `b`; nothing is asked of it. -/
def secondStart : List Action :=
  startFile (str "c") (str "t") ⟨str "/a.c", 1, sampleSha1 (str "b")⟩
    ++ onSession (str "c") (str "t") [.confirm]

/-- Its compilation starts at once, against the byte `a`. -/
theorem secondStart_compiles_older_file :
    ¬ ∀ as a s t, runFrom (System.step sampleSha1) as (System.initial 1 .empty) = some s →
      System.step sampleSha1 a s = some t → ∀ r ∈ System.added s t,
        (t.views r.requesterSession.1).StartsFresh r.requesterSession.2 := by
  intro h
  have hrun : ((runFrom (System.step sampleSha1) (firstUpload ++ secondStart)
      (System.initial 1 .empty)).bind
      fun s => (System.step sampleSha1
        (.client (str "c") (.sweepStart (str "t") [str "t", str "s"])) s).map
        fun t => decide (∀ r ∈ System.added s t,
          (t.views r.requesterSession.1).StartsFresh r.requesterSession.2)) = some false := by
    decide +kernel
  obtain ⟨s, hr, hrest⟩ := Option.bind_eq_some_iff.mp hrun
  obtain ⟨t, hs, hbad⟩ := Option.map_eq_some_iff.mp hrest
  exact of_decide_eq_false hbad (h _ _ s t hr hs)

end DistBuild
