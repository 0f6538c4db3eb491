import DistBuild.DepFiles.RoundTrip
import DistBuild.Machinery.Lexical

/-!
# DepFiles/SystemHeaders — which headers count as system headers

    -isystem /usr/include     /usr/include/x.h      in it, and its text is a prefix
                              /usr/include2/x.h     not in it, and its text is a prefix
                              /usr//include/x.h     in it, and its text is no prefix

Both tests compare texts where directories are meant.  They are right if the texts cut no name that
no listed directory accounts for, and no directory is only found under another spelling.
-/

namespace DistBuild

open CmdLine.DepFilesState (ignoreSystemHeaders)

/-- What the two tests are for: the headers in a `-isystem` directory are dropped, and those of them
that are in no `-I` directory are stored. -/
def SystemHeadersFound (dirs : CmdLineIncludeDirs) (headers : List IncludeInfo) : Prop :=
  ignoreSystemHeaders dirs headers
      = headers.filter (fun h => decide (∀ dir ∈ dirs.dashIsystem, ¬ Within dir h.filePath))
    ∧ ∀ h ∈ headers, requiresIncStorage h.filePath dirs = true
        ↔ (∃ dir ∈ dirs.dashIsystem, Within dir h.filePath)
          ∧ ∀ dir ∈ dirs.dashI, ¬ Within dir h.filePath

/-- A directory that ends inside a name of the path has one beside it that holds the path, and one
that holds it under another spelling has one beside it with the path's own. -/
def Accounted (dirs : List Str) (path : Str) : Prop :=
  (∀ dir ∈ dirs, CutsName dir path → ∃ other ∈ dirs, Within other path)
    ∧ ∀ dir ∈ dirs, Respells dir path → ∃ other ∈ dirs, other <+: path

/-- **The text of a list of directories**: some text is a prefix exactly if some directory holds the
path, where all are accounted for. -/
theorem prefix_iff_within_iff {dirs : List Str} {path : Str} :
    ((∃ dir ∈ dirs, dir <+: path) ↔ ∃ dir ∈ dirs, Within dir path) ↔ Accounted dirs path := by
  constructor
  · intro h
    refine ⟨fun dir hdir hcut => ?_, fun dir hdir hspelt => h.mpr ⟨dir, hdir, hspelt.1⟩⟩
    obtain ⟨c, rest, rfl, -⟩ := hcut
    exact h.mp ⟨dir, hdir, List.prefix_append ..⟩
  · rintro ⟨hcut, hspelt⟩
    constructor
    · rintro ⟨dir, hdir, rest, rfl⟩
      by_cases h : CutsName dir (dir ++ rest)
      · exact hcut dir hdir h
      · exact ⟨dir, hdir, (within_append_iff dir rest).mpr h⟩
    · rintro ⟨dir, hdir, hin⟩
      by_cases h : dir <+: path
      · exact ⟨dir, hdir, h⟩
      · exact hspelt dir hdir (respells_iff.mpr ⟨hin, h⟩)

/-- Two tests keep the same of a list if they agree on its elements, and only then. -/
theorem filter_eq_filter_iff {α : Type} {p q : α → Bool} {xs : List α} :
    xs.filter p = xs.filter q ↔ ∀ x ∈ xs, p x = q x := by
  refine ⟨fun h x hx => ?_, List.filter_congr⟩
  have hmem : x ∈ xs.filter p ↔ x ∈ xs.filter q := by rw [h]
  rw [Bool.eq_iff_iff]
  simpa [hx] using hmem

theorem any_startsWith (dirs : List Str) (path : Str) :
    dirs.any path.startsWith = true ↔ ∃ dir ∈ dirs, dir <+: path := by
  rw [List.any_eq_true]
  exact exists_congr fun dir => and_congr_right fun _ => Str.startsWith_iff

/-- **The headers that are dropped.** -/
theorem ignoreSystemHeaders_eq_iff (dirs : CmdLineIncludeDirs) (headers : List IncludeInfo) :
    ignoreSystemHeaders dirs headers
        = headers.filter (fun h => decide (∀ dir ∈ dirs.dashIsystem, ¬ Within dir h.filePath))
      ↔ ∀ h ∈ headers, Accounted dirs.dashIsystem h.filePath := by
  rw [ignoreSystemHeaders, filter_eq_filter_iff]
  refine forall₂_congr fun h _ => ?_
  have hkept : (∀ dir ∈ dirs.dashIsystem, ¬ Within dir h.filePath)
      ↔ ¬ ∃ dir ∈ dirs.dashIsystem, Within dir h.filePath := by simp
  rw [Bool.eq_iff_iff, Bool.not_eq_true', ← Bool.not_eq_true, any_startsWith, decide_eq_true_iff,
    hkept, not_iff_not]
  exact prefix_iff_within_iff

/-- The headers that are stored. -/
theorem requiresIncStorage_iff (dirs : CmdLineIncludeDirs) (path : Str) :
    requiresIncStorage path dirs = true
      ↔ (∃ dir ∈ dirs.dashIsystem, dir <+: path) ∧ ¬ ∃ dir ∈ dirs.dashI, dir <+: path := by
  rw [requiresIncStorage, ← any_startsWith, ← any_startsWith]
  cases dirs.dashI.any path.startsWith <;> simp

/-- **The two tests are right if the directories are accounted for, and only then**: the `-isystem`
directories for every header, and the `-I` directories for the headers in a `-isystem` directory. -/
theorem system_headers_iff (dirs : CmdLineIncludeDirs) (headers : List IncludeInfo) :
    SystemHeadersFound dirs headers
      ↔ ∀ h ∈ headers, Accounted dirs.dashIsystem h.filePath
        ∧ ((∃ dir ∈ dirs.dashIsystem, Within dir h.filePath) →
          Accounted dirs.dashI h.filePath) := by
  rw [SystemHeadersFound, ignoreSystemHeaders_eq_iff, ← forall₂_and]
  refine forall₂_congr fun h _ => and_congr_right fun hsystem => ?_
  have hnone : (∀ dir ∈ dirs.dashI, ¬ Within dir h.filePath)
      ↔ ¬ ∃ dir ∈ dirs.dashI, Within dir h.filePath := by simp
  rw [requiresIncStorage_iff, prefix_iff_within_iff.mpr hsystem, hnone, ← prefix_iff_within_iff,
    and_congr_right_iff, not_iff_not]

/-- A header beside the system directory is dropped, and would be stored. -/
theorem sibling_matched :
    let dirs : CmdLineIncludeDirs := ⟨[], [str "/usr/include"], [], []⟩
    let header : IncludeInfo := ⟨str "/usr/include2/x.h", [], 0, []⟩
    (ignoreSystemHeaders dirs [header] = [] ∧ requiresIncStorage header.filePath dirs = true)
      ∧ ¬ SystemHeadersFound dirs [header] := by
  refine ⟨by decide, fun h => ?_⟩
  exact absurd h.1 (by decide +kernel)

end DistBuild
