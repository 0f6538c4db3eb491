import DistBuild.Server.Filing
import DistBuild.Machinery.History

/-!
# Server/Places — which names lead to one file of the server

    /p/a.h      ──▸ W/p/a.h        one file: a server path is a text, and the disk goes by places
    /p/q/../a.h ──▸ W/p/q/../a.h

A client's name leads from the workspace, or from the root if it is a system path, one component
after the other (`sameFile_server_iff`).  Names in normal form, those without `.`, `..` and double
slashes, have files of their own (`sameFile_normal_iff`); of other names it has to be said
(`Apart`).
-/

namespace DistBuild

/-- The directory a client's name leads from, on the server. -/
def baseOf (w f : Str) : List Str := if isSystemPath f then [] else normalized w

/-- Where a name leads on the server. -/
theorem normalized_server (w f : Str) :
    normalized (cnvtClientToServerPath w f) = walk (baseOf w f) (components f) := by
  unfold cnvtClientToServerPath baseOf
  split_ifs with hsys
  · rfl
  · rw [normalized_join (isAbsolute_relativePath f), components_relativePath]

/-- **Which names share a server file**: those that lead to one place. -/
theorem sameFile_server_iff (w f g : Str) :
    SameFile (cnvtClientToServerPath w f) (cnvtClientToServerPath w g)
      ↔ walk (baseOf w f) (components f) = walk (baseOf w g) (components g) := by
  rw [SameFile, normalized_server, normalized_server]

/-! ## Names in normal form -/

/-- An absolute name without `.`, `..`, double slashes and a final slash: the text of the place it
leads to. -/
def NormalForm (f : Str) : Prop := f = (normalized f).flatMap (slash :: ·)

instance (f : Str) : Decidable (NormalForm f) := inferInstanceAs (Decidable (_ = _))

theorem proper_of_mem_normalized {f c : Str} (h : c ∈ normalized f) :
    c ∈ components f ∧ c ≠ str "." ∧ c ≠ str ".." :=
  (proper_of_mem_walk h).resolve_left List.not_mem_nil

variable {f g : Str}

/-- The components of a name in normal form are its place. -/
theorem NormalForm.components (h : NormalForm f) : components f = normalized f := by
  conv_lhs => rw [h]
  refine components_flatMap fun c hc => ?_
  have hmem := (proper_of_mem_normalized hc).1
  exact ⟨ne_nil_of_mem_components hmem, slash_not_mem_of_mem_components hmem⟩

/-- So the name leads straight down. -/
theorem NormalForm.normalized_server (h : NormalForm f) (w : Str) :
    normalized (cnvtClientToServerPath w f) = baseOf w f ++ normalized f := by
  rw [DistBuild.normalized_server, h.components]
  exact walk_of_proper fun c hc => (proper_of_mem_normalized hc).2

/-- Names in normal form are known by their place. -/
theorem NormalForm.injective (hf : NormalForm f) (hg : NormalForm g)
    (h : normalized f = normalized g) : f = g := by
  rw [hf, hg, h]

/-- The place of a client's workspace. -/
theorem normalized_workspaceOf {c : ClientId} (hc : PlainComponent c) :
    normalized (workspaceOf c) = [str "tmp", str "distbuild", str "client_storage", c] := by
  obtain ⟨hne, hslash, hdot, hup⟩ := hc
  have hname := components_name hne hslash
  rw [workspaceOf, normalized_join (PlainComponent.isAbsolute ⟨hne, hslash, hdot, hup⟩), hname]
  have hbase : normalized clientsWorkspace
      = [str "tmp", str "distbuild", str "client_storage"] := by
    decide
  rw [hbase, walk_of_proper (by simpa using ⟨hdot, hup⟩)]
  rfl

/-- No system path leads there. -/
theorem head_normalized_of_system (hf : NormalForm f) (hsys : isSystemPath f = true) :
    ∀ names, normalized f ≠ str "tmp" :: names := by
  intro names h
  rw [← hf.components] at h
  have hother : ∀ {head : Str} {rest : List Str}, components f = head :: rest → head ≠ str "tmp" →
      False := fun hf' hne => hne (List.cons.inj (hf'.symm.trans h)).1
  rcases isSystemPath_iff.mp hsys with ⟨r, rfl⟩ | ⟨r, rfl⟩ | ⟨r, rfl⟩
  · exact hother (components_append_slash (str "/usr") (str "src" ++ r)) (by decide)
  · exact hother (components_append_slash (str "/usr") (str "local" ++ r)) (by decide)
  · obtain ⟨rest, hrest⟩ := components_cons_name (c := 'L'.toUInt8) (by decide) (str "ibrary" ++ r)
    refine hother ((components_cons_slash _).trans hrest) fun h => ?_
    exact absurd (List.cons.inj h).1 (by decide)

/-- **In a client's workspace, names in normal form have files of their own.** -/
theorem sameFile_normal_iff {c : ClientId} (hc : PlainComponent c) (hf : NormalForm f)
    (hg : NormalForm g) :
    SameFile (cnvtClientToServerPath (workspaceOf c) f) (cnvtClientToServerPath (workspaceOf c) g)
      ↔ f = g := by
  refine ⟨fun h => ?_, fun h => h ▸ rfl⟩
  rw [SameFile, hf.normalized_server, hg.normalized_server, baseOf, baseOf,
    normalized_workspaceOf hc] at h
  split_ifs at h with hfsys hgsys hgsys
  · exact hf.injective hg h
  · exact absurd h (head_normalized_of_system hf hfsys _)
  · exact absurd h.symm (head_normalized_of_system hg hgsys _)
  · exact hf.injective hg (List.append_cancel_left h)

/-- Those of different clients too, if they are relocated. -/
theorem client_eq_of_sameFile {c c' : ClientId} (hc : PlainComponent c) (hc' : PlainComponent c')
    (hf : NormalForm f) (hg : NormalForm g) (hfsys : isSystemPath f = false)
    (hgsys : isSystemPath g = false)
    (h : SameFile (cnvtClientToServerPath (workspaceOf c) f)
      (cnvtClientToServerPath (workspaceOf c') g)) : c = c' := by
  rw [SameFile, hf.normalized_server, hg.normalized_server, baseOf, baseOf,
    normalized_workspaceOf hc, normalized_workspaceOf hc', hfsys, hgsys] at h
  simpa using (List.append_inj h rfl).1

/-! ## The names of a run -/

/-- The names the client `c` declares in a run. -/
def declaredNames (c : ClientId) (as : List Action) : List Str :=
  as.flatMap fun
    | .client c' (.start _ infos) => if c' = c then (namedFiles infos).map (·.filename) else []
    | _ => []

/-- No two of the names lead to one file of the server. -/
def Apart (w : Str) (names : List Str) : Prop :=
  ∀ f ∈ names, ∀ g ∈ names,
    SameFile (cnvtClientToServerPath w f) (cnvtClientToServerPath w g) → f = g

instance (w : Str) (names : List Str) : Decidable (Apart w names) := by
  unfold Apart
  infer_instance

/-- Names in normal form are apart. -/
theorem apart_of_normalForm {c : ClientId} (hc : PlainComponent c) {names : List Str}
    (h : ∀ f ∈ names, NormalForm f) : Apart (workspaceOf c) names :=
  fun f hf g hg => (sameFile_normal_iff hc (h f hf) (h g hg)).mp

/-- Entries of different names are of different server files. -/
def ClientView.Separate (V : ClientView) : Prop :=
  ∀ k v k' v', V.files k = some v → V.files k' = some v' →
    SameFile v.serverFilePath v'.serverFilePath → k = k'

/-- **An entry is of a name declared in the run.** -/
theorem System.declared_of_known {sha1 : Str → Str} {c : ClientId} {n : ℕ} {disk : Disk}
    {as : List Action} {s : System}
    (hr : runFrom (System.step sha1) as (System.initial n disk) = some s) :
    ∀ k v, (s.views c).files k = some v → k ∈ declaredNames c as := by
  refine labels_invariant (I := fun as s => ∀ k v, (s.views c).files k = some v →
    k ∈ declaredNames c as) (fun a s t as h hs k v hv => ?_) hr fun k v hv => ?_
  · have hold : ∀ v, (s.views c).files k = some v → k ∈ declaredNames c (as ++ [a]) := by
      intro v hv
      rw [declaredNames, List.flatMap_append]
      exact List.mem_append_left _ (hs k v hv)
    rcases System.step_view c h with hsame | ⟨va, e, rfl, hstep, hview⟩
    · exact hold v (hsame ▸ hv)
    · rw [hview] at hv
      cases hstep with
      | @start sid infos hnone =>
        cases hk : (s.views c).files k with
        | some v₀ => exact hold v₀ hk
        | none =>
          obtain ⟨i, hi, rfl, -⟩ := addFileStates_of_none hk hv
          rw [declaredNames, List.flatMap_append]
          refine List.mem_append_right _ ?_
          simpa using ⟨i, hi, rfl⟩
      | session hx hsession =>
        obtain ⟨v₀, hv₀⟩ := hsession.known hv
        exact hold v₀ hv₀
      | _ => exact hold v hv
  · cases hv

/-- **Where declared names are apart, and survive the mapping, entries are of different files.** -/
theorem System.separate {sha1 : Str → Str} {c : ClientId} {n : ℕ} {disk : Disk} {as : List Action}
    {s : System} (hr : runFrom (System.step sha1) as (System.initial n disk) = some s)
    (hcat : (s.views c).Catalogued (workspaceOf c))
    (happart : Apart (workspaceOf c) (declaredNames c as)) : (s.views c).Separate := by
  intro k v k' v' hv hv' hsame
  rw [(hcat.filed k v hv).2, (hcat.filed k' v' hv').2] at hsame
  exact happart k (System.declared_of_known hr k v hv) k' (System.declared_of_known hr k' v' hv')
    hsame

end DistBuild
