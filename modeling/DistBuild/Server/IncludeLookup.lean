import DistBuild.Server.FileState

/-!
# Server/IncludeLookup — the server's compiler looks where the header was uploaded

    client    d      ── join n ──▸   d/n
              │ map                   │ map
    server   map d   ── join n ──▸   the file of d/n ?

The square commutes unless the system-path exception applies to the header and not to its directory,
which takes one of the directories `/`, `/usr` and `/usr/` (`entersSystem_iff`); and even then the
two paths meet again if the header name leads up, out of everything.
-/

namespace DistBuild

/-- The header name leads from a directory that is no system path into one that is. -/
def EntersSystem (d n : Str) : Prop :=
  (d = str "/" ∧ (str "usr/src" <+: n ∨ str "usr/local" <+: n ∨ str "Library" <+: n))
    ∨ ((d = str "/usr" ∨ d = str "/usr/") ∧ (str "src" <+: n ∨ str "local" <+: n))

instance (d n : Str) : Decidable (EntersSystem d n) := by
  unfold EntersSystem
  infer_instance

/-- What is below a system path is one. -/
theorem isSystemPath_join {d n : Str} (hn : isAbsolute n = false) (hd : isSystemPath d = true) :
    isSystemPath (join d n) = true := by
  rw [join_eq hn, List.append_assoc, isSystemPath_iff]
  have hpre := List.prefix_append d (separator d ++ n)
  exact (isSystemPath_iff.mp hd).imp (·.trans hpre) (Or.imp (·.trans hpre) (·.trans hpre))

/-- **Three directories are no system paths and have system paths below them.** -/
theorem entersSystem_iff {d n : Str} (hd : isAbsolute d = true) (hn : isAbsolute n = false) :
    isSystemPath (join d n) = true ∧ isSystemPath d = false ↔ EntersSystem d n := by
  have hne : d ≠ [] := ne_nil_of_isAbsolute hd
  have hsrc : cuts (str "/usr/src") = [([], str "/usr/src"), (str "/", str "usr/src"),
      (str "/usr", str "src"), (str "/usr/", str "src")] := by decide
  have hlocal : cuts (str "/usr/local") = [([], str "/usr/local"), (str "/", str "usr/local"),
      (str "/usr", str "local"), (str "/usr/", str "local")] := by decide
  have hlib : cuts (str "/Library") = [([], str "/Library"), (str "/", str "Library")] := by decide
  have hdir : ∀ {d'}, d = d' → isSystemPath d' = false →
    isSystemPath d = false := fun h h' => h ▸ h'
  rw [isSystemPath_iff, prefix_join_iff hn, prefix_join_iff hn, prefix_join_iff hn, hsrc, hlocal,
    hlib]
  simp only [List.mem_cons, Prod.mk.injEq, List.not_mem_nil, or_false, hne, false_and, false_or]
  constructor
  · rintro ⟨h, hsys⟩
    have hnot : ¬ (str "/usr/src" <+: d ∨ str "/usr/local" <+: d ∨ str "/Library" <+: d) := by
      rw [← isSystemPath_iff, hsys]
      exact Bool.false_ne_true
    obtain ⟨hsrc, hlocal, hlib⟩ := by simpa only [not_or] using hnot
    rcases h with (h | ⟨r, ⟨hd, rfl⟩ | ⟨hd, rfl⟩ | ⟨hd, rfl⟩, hr⟩)
      | (h | ⟨r, ⟨hd, rfl⟩ | ⟨hd, rfl⟩ | ⟨hd, rfl⟩, hr⟩) | (h | ⟨r, ⟨hd, rfl⟩, hr⟩)
    · exact absurd h hsrc
    · exact Or.inl ⟨hd, Or.inl hr⟩
    · exact Or.inr ⟨Or.inl hd, Or.inl hr⟩
    · exact Or.inr ⟨Or.inr hd, Or.inl hr⟩
    · exact absurd h hlocal
    · exact Or.inl ⟨hd, Or.inr (Or.inl hr)⟩
    · exact Or.inr ⟨Or.inl hd, Or.inr hr⟩
    · exact Or.inr ⟨Or.inr hd, Or.inr hr⟩
    · exact absurd h hlib
    · exact Or.inl ⟨hd, Or.inr (Or.inr hr)⟩
  · rintro (⟨hd, hr | hr | hr⟩ | ⟨hd | hd, hr | hr⟩)
    · exact ⟨Or.inl (Or.inr ⟨_, Or.inl ⟨hd, rfl⟩, hr⟩), hdir hd (by decide)⟩
    · exact ⟨Or.inr (Or.inl (Or.inr ⟨_, Or.inl ⟨hd, rfl⟩, hr⟩)), hdir hd (by decide)⟩
    · exact ⟨Or.inr (Or.inr (Or.inr ⟨_, ⟨hd, rfl⟩, hr⟩)), hdir hd (by decide)⟩
    · exact ⟨Or.inl (Or.inr ⟨_, Or.inr (Or.inl ⟨hd, rfl⟩), hr⟩), hdir hd (by decide)⟩
    · exact ⟨Or.inr (Or.inl (Or.inr ⟨_, Or.inr (Or.inl ⟨hd, rfl⟩), hr⟩)), hdir hd (by decide)⟩
    · exact ⟨Or.inl (Or.inr ⟨_, Or.inr (Or.inr ⟨hd, rfl⟩), hr⟩), hdir hd (by decide)⟩
    · exact ⟨Or.inr (Or.inl (Or.inr ⟨_, Or.inr (Or.inr ⟨hd, rfl⟩), hr⟩)), hdir hd (by decide)⟩

/-- **The mapping commutes with joining**, text for text, where the exception applies to both or to
neither. -/
theorem cnvt_join {w d n : Str} (hn : isAbsolute n = false)
    (h : isSystemPath (join d n) = isSystemPath d) :
    join (cnvtClientToServerPath w d) n = cnvtClientToServerPath w (join d n) := by
  unfold cnvtClientToServerPath
  rw [h]
  split_ifs
  · rfl
  · rw [join_join (isAbsolute_relativePath d) hn, relativePath_join hn]

/-- **When the compiler finds the uploaded header**: always, unless the header name enters a system
path; and then if it leads out of as many levels as the workspace has. -/
theorem include_lookup_iff {w d n : Str} (hd : isAbsolute d = true) (hn : isAbsolute n = false) :
    SameFile (join (cnvtClientToServerPath w d) n) (cnvtClientToServerPath w (join d n))
      ↔ (EntersSystem d n →
          (normalized w).length ≤ (lexicallyNormal (components (join d n))).up) := by
  by_cases henter : EntersSystem d n
  · obtain ⟨hjoin, hdir⟩ := (entersSystem_iff hd hn).mpr henter
    have htried : normalized (join (cnvtClientToServerPath w d) n)
        = walk (normalized w) (components (join d n)) := by
      rw [cnvtClientToServerPath, hdir, if_neg Bool.false_ne_true, normalized_join hn,
        normalized_join (isAbsolute_relativePath d), components_relativePath, ← walk_append,
        components_join hn]
    have hfiled : normalized (cnvtClientToServerPath w (join d n))
        = walk [] (components (join d n)) := by
      rw [cnvtClientToServerPath, if_pos hjoin, normalized]
    rw [SameFile, htried, hfiled, walk_eq_walk_root_iff]
    exact ⟨fun h _ => h, fun h => h henter⟩
  · have hsame : isSystemPath (join d n) = isSystemPath d := by
      cases hdir : isSystemPath d with
      | true => exact isSystemPath_join hn hdir
      | false =>
        exact Bool.eq_false_of_not_eq_true fun hjoin =>
          henter ((entersSystem_iff hd hn).mp ⟨hjoin, hdir⟩)
    rw [SameFile, cnvt_join hn hsame]
    exact ⟨fun _ h => absurd h henter, fun _ => rfl⟩

/-- A header in a project directory is found. -/
theorem include_lookup_project :
    SameFile (join (cnvtClientToServerPath (workspaceOf (str "c")) (str "/home/p/include"))
        (str "../lib/x.h"))
      (cnvtClientToServerPath (workspaceOf (str "c")) (str "/home/p/include/../lib/x.h")) :=
  (include_lookup_iff (by decide) (by decide)).mpr fun h => absurd h (by decide)

/-- With `-I/usr`, `local/x.h` is uploaded to the system's own place, and looked for in the
workspace. -/
theorem include_lookup_misses :
    ¬ ∀ c d n, isAbsolute d = true → isAbsolute n = false →
      SameFile (join (cnvtClientToServerPath (workspaceOf c) d) n)
        (cnvtClientToServerPath (workspaceOf c) (join d n)) := by
  intro h
  exact absurd (h (str "c") (str "/usr") (str "local/x.h") (by decide) (by decide)) (by decide)

end DistBuild
