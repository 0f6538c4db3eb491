import DistBuild.Server.System

/-!
# Server/Filing — entries are filed under the names of their files

    declared name ──▸ entry ──▸ server path ──▸ requested name = declared name

`add_session` writes back, and asks for, the name it recovers from an entry's server path.  If the
declared names survive that (`NamesSurvive`), an entry is always found under its own name, what a
session was asked for has an entry that has left its initial status, and server paths tell the files
of a client apart.
-/

namespace DistBuild

namespace ClientView

variable (w : Str)

/-- Declared names come back from the server as they are. -/
def NamesSurvive : ClientAction → Prop
  | .start _ infos => ∀ i ∈ namedFiles infos, SurvivesMapping w i.filename
  | _ => True

/-- Every entry is filed under a name that survives, with the server path of that name. -/
def Filed (files : FileTable) : Prop :=
  ∀ k v, files k = some v → SurvivesMapping w k ∧ v.serverFilePath = cnvtClientToServerPath w k

/-- The upload of `k` has begun. -/
def Begun (files : FileTable) (k : Str) : Prop :=
  ∃ v, files k = some v ∧ v.fileStatus ≠ .initial

/-- What one session has in hand is in the table, under the name it goes by. -/
structure Keyed (files : FileTable) (x : Session) : Prop where
  claimed : ∀ u ∈ x.starting.claimed, u.fileStatus = .uploading
    ∧ ∃ k v, files k = some v ∧ SurvivesMapping w k ∧ u.serverFilePath = cnvtClientToServerPath w k
  asked : ∀ k ∈ x.requested, Begun files k
  streams : StreamsOwn x.transfers
  transferring : ∀ msg p, x.handling = .transferring msg p →
    p = cnvtClientToServerPath w msg.filename ∧ ∃ v, files msg.filename = some v
  marks : FileStatus.initial ∉ x.handling.marks
  writing : ∀ msg u marks ok, x.handling = .writing msg u marks ok →
    u.serverFilePath = cnvtClientToServerPath w msg.filename

/-- **The table is filed, and every session keyed to it.** -/
structure Catalogued (V : ClientView) : Prop where
  registered : V.Registered
  filed : Filed w V.files
  keyed : ∀ t x, V.sessions t = some x → Keyed w V.files x

variable {w}

/-- The name recovered from the server path of a filed name. -/
theorem cnvt_of_survives {k p : Str} (h : SurvivesMapping w k)
    (hp : p = cnvtClientToServerPath w k) : cnvtServerToClientPath w p = k :=
  hp ▸ h

/-! ## Tables only grow -/

theorem Begun.updateFileState {files : FileTable} {k f : Str} {u : FileStateView}
    (h : Begun files k) (hu : u.fileStatus ≠ .initial) : Begun (updateFileState files f u) k := by
  obtain ⟨v, hv, hst⟩ := h
  obtain ⟨v', hv', rfl | rfl⟩ := updateFileState_isSome (f := f) (u := u) hv
  · exact ⟨v', hv', hst⟩
  · exact ⟨v', hv', hu⟩

/-- A table with more in it, and no file back in its initial status. -/
structure Grows (files files' : FileTable) : Prop where
  isSome : ∀ k v, files k = some v → ∃ v', files' k = some v'
  begun : ∀ k, Begun files k → Begun files' k

theorem Grows.refl (files : FileTable) : Grows files files :=
  ⟨fun _ v hv => ⟨v, hv⟩, fun _ h => h⟩

theorem Grows.updateFileState {files : FileTable} {f : Str} {u : FileStateView}
    (hu : u.fileStatus ≠ .initial) : Grows files (updateFileState files f u) where
  isSome k v hv := by
    obtain ⟨v', hv', -⟩ := updateFileState_isSome (f := f) (u := u) hv
    exact ⟨v', hv'⟩
  begun _ h := h.updateFileState hu

theorem Grows.addFileStates (files : FileTable) (infos : List FileInfo) :
    Grows files (addFileStates w files infos) where
  isSome _ v hv := ⟨v, addFileStates_of_some _ hv⟩
  begun _ := fun ⟨v, hv, hst⟩ => ⟨v, addFileStates_of_some _ hv, hst⟩

/-! ## Keyed sessions -/

theorem Keyed.of_grows {files files' : FileTable} {x : Session} (h : Keyed w files x)
    (hg : Grows files files') : Keyed w files' x :=
  { h with
    claimed := fun u hu => by
      obtain ⟨hst, k, v, hv, hk⟩ := h.claimed u hu
      obtain ⟨v', hv'⟩ := hg.isSome k v hv
      exact ⟨hst, k, v', hv', hk⟩
    asked := fun k hk => hg.begun k (h.asked k hk)
    transferring := fun msg p hm => by
      obtain ⟨hp, v, hv⟩ := h.transferring msg p hm
      exact ⟨hp, hg.isSome _ v hv⟩ }

/-- A step that leaves the handler without a file in hand. -/
theorem Keyed.move {files : FileTable} {x : Session} (h : Keyed w files x) {k : Handling}
    (hm : k.marks = []) (ht : ∀ msg p, k ≠ .transferring msg p) :
    Keyed w files { x with handling := k } where
  claimed := h.claimed
  asked := h.asked
  streams := h.streams
  transferring := fun msg p hk => absurd hk (ht msg p)
  marks := by
    show FileStatus.initial ∉ k.marks
    rw [hm]
    exact List.not_mem_nil
  writing := fun msg u marks ok hk => by
    cases (show k = _ from hk)
    cases hm

/-- A step that leaves the handler with statuses to set. -/
theorem Keyed.judge {files : FileTable} {x : Session} (h : Keyed w files x) (msg : FileChunk)
    {marks : List FileStatus} (ok : Bool) (hm : FileStatus.initial ∉ marks) :
    Keyed w files { x with handling := .copying msg marks ok } :=
  { claimed := h.claimed, asked := h.asked, streams := h.streams, transferring := nofun,
    marks := hm, writing := nofun }

variable {sha1 : Str → Str}

/-- **The table of a catalogued client stays filed, and grows.** -/
theorem Catalogued.files_session {V : ClientView} {sid : SessionId} {a : SessionAction}
    {x : Session} {disk : Disk} {e : Effect} (hV : Catalogued w V) (hx : V.sessions sid = some x)
    (h : SessionStep sha1 w sid V.files disk x a e) : Filed w e.files ∧ Grows V.files e.files := by
  have hkeyed := hV.keyed sid x hx
  rcases h.files_cases with hf | ⟨u, todo, -, hst, hf⟩ | ⟨msg, u, marks, ok, -, hh, hf⟩
  · rw [hf]
    exact ⟨hV.filed, .refl _⟩
  · obtain ⟨hup, k, v, -, hk, hp⟩ := hkeyed.claimed u (by rw [hst]; rfl)
    rw [hf, cnvt_of_survives hk hp]
    exact ⟨forall_updateFileState hV.filed fun _ _ => ⟨hk, hp⟩,
      .updateFileState (by rw [hup]; decide)⟩
  · rw [hf]
    refine ⟨forall_updateFileState hV.filed fun v hv => ?_, .updateFileState fun h0 => ?_⟩
    · exact ⟨(hV.filed _ v hv).1, hkeyed.writing msg u marks ok hh⟩
    · refine hkeyed.marks ?_
      rw [hh, Handling.marks, h0]
      exact List.mem_cons_self

/-- What a session was asked for has begun. -/
theorem Catalogued.asked_session {V : ClientView} {sid : SessionId} {a : SessionAction}
    {x : Session} {disk : Disk} {e : Effect} (hV : Catalogued w V) (hx : V.sessions sid = some x)
    (h : SessionStep sha1 w sid V.files disk x a e) :
    ∀ k ∈ e.session.requested, Begun e.files k := by
  have hkeyed := hV.keyed sid x hx
  have hold : ∀ k ∈ x.requested, Begun e.files k := fun k hk =>
    (hV.files_session hx h).2.begun k (hkeyed.asked k hk)
  rcases h.requested_cases with hr | ⟨u, todo, rfl, hst, hr⟩ |
    ⟨now, k', todo, v, rfl, hst, hv, hf, hr⟩
  · exact fun k hk => hold k (hr ▸ hk)
  · obtain ⟨hup, k', v, hv, hk', hp⟩ := hkeyed.claimed u (by rw [hst]; rfl)
    intro k hk
    rw [hr, cnvt_of_survives hk' hp] at hk
    rcases List.mem_append.mp hk with hk | hk
    · exact hold k hk
    · rw [List.mem_singleton.mp hk]
      refine ⟨u, ?_, by rw [hup]; decide⟩
      cases h with
      | claim h =>
        rw [hst] at h
        cases h
        simp only
        rw [cnvt_of_survives hk' hp, updateFileState_of_some hv, Function.update_self]
  · obtain ⟨hk', hp⟩ := hV.filed k' v hv
    intro k hk
    rw [hr, cnvt_of_survives hk' hp] at hk
    rcases List.mem_append.mp hk with hk | hk
    · exact hold k hk
    · rw [List.mem_singleton.mp hk]
      exact (hV.files_session hx h).2.begun k' ⟨v, hv, by rw [hf]; decide⟩

/-- Every step of a session leaves it keyed. -/
theorem Catalogued.keyed_session {V : ClientView} {sid : SessionId} {a : SessionAction}
    {x : Session} {disk : Disk} {e : Effect} (hV : Catalogued w V) (hx : V.sessions sid = some x)
    (h : SessionStep sha1 w sid V.files disk x a e) : Keyed w e.files e.session := by
  have hasked := hV.asked_session hx h
  have hkeyed := (hV.keyed sid x hx).of_grows (hV.files_session hx h).2
  cases h with
  | prepare h => exact { hkeyed with claimed := fun u hu => by cases hu }
  | @scan now k todo v h hv =>
    obtain ⟨hk, hp⟩ := hV.filed k v hv
    unfold Session.scan at hasked ⊢
    split
    · refine { hkeyed with claimed := fun u hu => ?_ }
      cases hu
      exact ⟨rfl, k, v, hv, hk, hp⟩
    · exact { hkeyed with claimed := fun u hu => by cases hu }
    · exact { hkeyed with claimed := fun u hu => by cases hu }
    · rename_i hst
      rw [hst] at hasked
      exact { hkeyed with asked := hasked, claimed := fun u hu => by cases hu }
  | claim h => exact { hkeyed with asked := hasked, claimed := fun u hu => by cases hu }
  | confirm h =>
    have hmoved := hkeyed.move (k := .receiving) rfl (by simp)
    exact { hmoved with claimed := fun u hu => by cases hu }
  | @receive msg h =>
    unfold Session.receive
    cases hv : V.files msg.filename with
    | none => exact hkeyed.move rfl (by simp)
    | some v =>
      by_cases hid : msg.sessionId = sid
      · simp only [hid, ne_eq, not_true_eq_false, if_false]
        refine { hkeyed with
          transferring := fun m p hm => ?_
          marks := List.not_mem_nil
          writing := fun m u ms o hm => by cases hm }
        cases hm
        exact ⟨(hV.filed _ v hv).2, v, hv⟩
      · simp only [hid, ne_eq, not_false_eq_true, if_true]
        exact hkeyed.judge msg false (by decide)
  | @transfer msg p h =>
    have hmoved : ∀ k : Handling, FileStatus.initial ∉ k.marks → (∀ m q, k ≠ .transferring m q) →
        (∀ m u ms ok, k ≠ .writing m u ms ok) →
        Keyed w V.files { x with
          transfers := (receiveChunk sid p msg disk x.transfers).transfers, handling := k } :=
      fun k hm ht hw =>
        { claimed := hkeyed.claimed, asked := hkeyed.asked
          streams := hkeyed.streams.receiveChunk sid p msg disk
          transferring := fun m q hk => absurd hk (ht m q), marks := hm
          writing := fun m u ms ok hk => absurd hk (hw m u ms ok) }
    unfold Session.transferred
    split
    · exact hmoved _ List.not_mem_nil (by simp) (by simp)
    · exact hmoved _ List.not_mem_nil (by simp) (by simp)
    · exact hmoved _ (by simp [Handling.marks]) (by simp) (by simp)
    · exact hmoved _ List.not_mem_nil (by simp) (by simp)
  | measure h hv =>
    unfold Session.measured
    split
    · exact hkeyed.move rfl (by simp)
    · split
      · exact hkeyed.judge _ false (by decide)
      · exact hkeyed.move rfl (by simp)
  | hash h hv =>
    unfold Session.hashed
    split
    · exact hkeyed.judge _ true (by decide)
    · exact hkeyed.judge _ true (by decide)
  | @copy msg st marks ok v h hv =>
    refine { hkeyed with
      transferring := fun m q hm => by cases hm
      marks := ?_
      writing := fun m u ms o hm => ?_ }
    · have := hkeyed.marks
      rwa [h] at this
    · cases hm
      exact (hV.filed _ v hv).2
  | @write msg u marks ok h =>
    unfold Session.marked
    split
    · refine hkeyed.judge _ _ fun h0 => hkeyed.marks ?_
      rw [h]
      exact List.mem_cons_of_mem _ h0
    · exact hkeyed.move rfl (by simp)
    · exact hkeyed.move rfl (by simp)
  | notify h => exact hkeyed.move rfl (by simp)
  | disconnect h => exact hkeyed.move rfl (by simp)

/-- **Every step leaves the client catalogued.** -/
theorem Catalogued.step {disk : Disk} {V : ClientView} {a : ClientAction} {e : ViewEffect}
    (hg : NamesSurvive w a) (h : Step sha1 w disk V a e) (hV : Catalogued w V) :
    Catalogued w e.view := by
  have hreg := hV.registered.step h
  cases h with
  | @start sid infos h =>
    refine ⟨hreg, fun k v hv => ?_, ?_⟩
    · cases hk : V.files k with
      | some v₀ =>
        obtain rfl := Option.some.inj ((addFileStates_of_some _ hk).symm.trans hv)
        exact hV.filed k _ hk
      | none =>
        obtain ⟨i, hi, rfl, rfl⟩ := addFileStates_of_none hk hv
        exact ⟨hg i hi, rfl⟩
    · refine forall_update (fun t y hy => (hV.keyed t y hy).of_grows (.addFileStates _ _)) ?_
      exact
        { claimed := fun u hu => nomatch hu
          asked := fun k hk => absurd hk List.not_mem_nil
          streams := nofun
          transferring := nofun
          marks := List.not_mem_nil
          writing := nofun }
  | @session sid a x e hx h =>
    refine ⟨hreg, (hV.files_session hx h).1, ?_⟩
    exact forall_update (fun t y hy => (hV.keyed t y hy).of_grows (hV.files_session hx h).2)
      (hV.keyed_session hx h)
  | @sweepStart sid order x b new hx h hnew =>
    refine ⟨hreg, hV.filed, forall_update hV.keyed ?_⟩
    exact { hV.keyed sid x hx with claimed := fun u hu => nomatch hu }
  | @sweepChunk sid order x msg b new hx h hnew =>
    exact ⟨hreg, hV.filed, forall_update hV.keyed ((hV.keyed sid x hx).move rfl nofun)⟩
  | @terminate sid x hx h =>
    have hmoved := (hV.keyed sid x hx).move (k := .removing) rfl nofun
    exact ⟨hreg, hV.filed, forall_update hV.keyed { hmoved with }⟩
  | @remove sid x hx h =>
    exact ⟨hreg, hV.filed, forall_update hV.keyed ((hV.keyed sid x hx).move rfl nofun)⟩
  | @release sid x hx h =>
    exact ⟨hreg, hV.filed, forall_update hV.keyed ((hV.keyed sid x hx).move rfl nofun)⟩

theorem catalogued_empty : Catalogued w .empty where
  registered := registered_empty
  filed := nofun
  keyed := forall_sessions_empty

end ClientView

end DistBuild
