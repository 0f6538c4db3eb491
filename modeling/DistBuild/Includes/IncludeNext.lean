import DistBuild.Includes.Closure
import DistBuild.Includes.Scanner

/-!
# Includes/IncludeNext — the header behind the one of the same name

    /i1/a.h   #include_next <a.h>        meant: the search goes on behind /i1, to /i2/a.h
    scanner   ⟨a.h, angle⟩               the search starts again, and finds /i1/a.h

The scanner takes `include_next` for `include`.  The later file is collected if another directive
stands for it, or the search for its name finds it anyway (`include_next_collected_iff`).
-/

namespace DistBuild

open SourceFileParser

section

variable (files : FileSystem) (dirs : CmdLineIncludeDirs) (src : Str)

/-- The directories a directive with a relative name is searched in, in order. -/
def Occurrence.searchDirs (o : Occurrence) : List Str :=
  match o.directive.incType with
  | .quote => parentPath (o.parent src) :: dirs.dashIquote ++ dirs.dashI ++ dirs.dashIsystem
  | .angle => dirs.dashI ++ dirs.dashIsystem

/-- **What an `include_next` means**: the directive `o` found `header` in its `i`-th directory,
`header` has a line with `#include_next <name>`, and `later` is the first file of that name in the
directories behind the `i`-th. -/
structure NextHeader (o : Occurrence) (i : ℕ) (header name later : Str) : Prop where
  met : Met files dirs src o
  relative : o.directive.incContent.startsWith [slash] = false
  found : (o.searchDirs dirs src).findIdx?
    (fun dir => files.isFile (join dir o.directive.incContent))
    = some i
  header_eq : ∀ dir ∈ (o.searchDirs dirs src)[i]?, header = join dir o.directive.incContent
  line : ∃ content, files.node header = some (.file content)
    ∧ ∃ line ∈ textLines content, IncludeLine (str "include_next") line ⟨name, .angle⟩
  later : (((o.searchDirs dirs src).drop (i + 1)).map fun dir => join dir name).find? files.isFile
    = some later

/-- Every header an `include_next` means is collected. -/
def NextCollected (u : SourceFileParser) : Prop :=
  ∀ o i header name later, NextHeader files dirs src o i header name later →
    ∃ e ∈ u.incDirectives, e.2.filePath = later

/-- Every header an `include_next` means is found by the search from the first directory on, or
another directive stands for it. -/
def NextTargeted : Prop :=
  ∀ o i header name later, NextHeader files dirs src o i header name later →
    resolvedHeader files dirs header ⟨name, .angle⟩ = some later
      ∨ ∃ o', Met files dirs src o' ∧ o'.target files dirs src = some later

end

variable {sha1 : Str → Str} {files : FileSystem} {dirs : CmdLineIncludeDirs} {src : Str}

/-- A directive with a relative name is tried in its directories. -/
theorem paths_eq_searchDirs {o : Occurrence}
    (h : o.directive.incContent.startsWith [slash] = false) :
    o.paths dirs src = (o.searchDirs dirs src).map fun dir => join dir o.directive.incContent := by
  unfold Occurrence.paths headerPaths Occurrence.searchDirs
  rw [h]
  cases o.directive.incType <;> simp

/-- The header is what the directive stands for. -/
theorem NextHeader.target {o : Occurrence} {i : ℕ} {header name later : Str}
    (h : NextHeader files dirs src o i header name later) :
    o.target files dirs src = some header := by
  obtain ⟨hi, hfile, hbefore⟩ := List.findIdx?_eq_some_iff_getElem.mp h.found
  have hheader := h.header_eq _ (List.getElem?_eq_getElem hi)
  change (o.paths dirs src).find? files.isFile = some header
  rw [paths_eq_searchDirs h.relative, List.find?_map, Option.map_eq_some_iff]
  refine ⟨_, List.find?_eq_some_iff_getElem.mpr ⟨hfile, i, hi, rfl, fun j hj => ?_⟩, hheader.symm⟩
  simpa using hbefore j hj

/-- The line is an ordinary directive for the parser. -/
theorem mem_findFileIncludes_of_line {content line : Str} {d : IncludeDirective} {keyword : Str}
    (hkey : keyword = str "include_next" ∨ keyword = str "include")
    (hline : line ∈ textLines content)
    (h : IncludeLine keyword line d) : d ∈ findFileIncludes content := by
  rw [← scanText_eq_findFileIncludes, scanText_eq]
  refine List.mem_filterMap.mpr ⟨line, hline, lineInclude_eq_some_iff.mpr ?_⟩
  rcases hkey with rfl | rfl
  · exact Or.inl h
  · exact Or.inr h

/-- **An `include_next` is followed as an `include`.** -/
theorem NextHeader.included_of_resolved {o : Occurrence} {i : ℕ} {header name later : Str}
    (h : NextHeader files dirs src o i header name later)
    (hr : resolvedHeader files dirs header ⟨name, .angle⟩ = some later) :
    Included files dirs src later := by
  obtain ⟨content, hnode, line, hline, hnext⟩ := h.line
  refine .header (h.met.target_included h.target) (d := ⟨name, .angle⟩) ?_ hr
  rw [directivesAt, hnode]
  exact mem_findFileIncludes_of_line (Or.inl rfl) hline hnext

/-- **The later header is collected** only if a directive stands for it, and then it is, unless the
call takes a record of another header out of the cache. -/
theorem include_next_collected_iff (sha1 : Str → Str) (files : FileSystem)
    (dirs : CmdLineIncludeDirs) (src : Str) (hsrc : files.isFile src = true) {fuel : ℕ} {b : Bool}
    {u : SourceFileParser}
    (h : parseSourceFileIncludes sha1 files dirs fuel src dirs.dashInclude ⟨.empty, [], []⟩
      = some (b, u)) :
    (NextCollected files dirs src u → NextTargeted files dirs src)
      ∧ (((∃ o i header name later, NextHeader files dirs src o i header name later) →
          OwnHeaders sha1 files dirs src .empty) →
        (NextCollected files dirs src u ↔ NextTargeted files dirs src)) := by
  obtain ⟨hsound, hcomplete⟩ := dependency_closure sha1 files dirs src hsrc h
  have hmp : NextCollected files dirs src u → NextTargeted files dirs src := by
    intro hcollected o i header name later hnext
    exact Or.inr (hsound later (hcollected o i header name later hnext)).exists_met
  refine ⟨hmp, fun hown => ⟨hmp, fun htargeted o i header name later hnext => ?_⟩⟩
  rw [hcomplete (hown ⟨o, i, header, name, later, hnext⟩)]
  rcases htargeted o i header name later hnext with hr | ⟨o', hmet, htarget⟩
  · exact hnext.included_of_resolved hr
  · exact hmet.target_included htarget

/-! ### A wrapper header in the first directory -/

/-- SHA-1 on the headers below. -/
def wrapperSha1 (content : Str) : Str :=
  if content = str "#include_next <a.h>\n" then
    [0x35, 0x06, 0x79, 0x2b, 0x43, 0x7b, 0x10, 0x8d, 0xe3, 0xd8,
      0x8d, 0x0f, 0x41, 0xdb, 0xf0, 0xe3, 0x71, 0x55, 0xd0, 0x0c]
  else headerSha1 content

/-- `/i1/a.h` wraps the one of `/i2`. -/
def wrapperTree (source : Str) : Tree :=
  [(str "/s/m.c", .file source), (str "/i1/a.h", .file (str "#include_next <a.h>\n")),
    (str "/i2/a.h", .file [])]

/-- `-I /i1 -I /i2`. -/
def wrapperDirs : CmdLineIncludeDirs := ⟨[str "/i1", str "/i2"], [], [], []⟩

/-- The source includes `/i2/a.h` too. -/
theorem include_next_collected_iff_absolute :
    ∃ b u, parseSourceFileIncludes wrapperSha1
        (wrapperTree (str "#include <a.h>\n#include \x22/i2/a.h\x22\n")) wrapperDirs 4
        (str "/s/m.c") wrapperDirs.dashInclude ⟨.empty, [], []⟩ = some (b, u)
      ∧ (NextCollected (wrapperTree (str "#include <a.h>\n#include \x22/i2/a.h\x22\n"))
          wrapperDirs (str "/s/m.c") u
        ↔ NextTargeted (wrapperTree (str "#include <a.h>\n#include \x22/i2/a.h\x22\n"))
          wrapperDirs (str "/s/m.c")) := by
  have hsome : (parseSourceFileIncludes wrapperSha1
      (wrapperTree (str "#include <a.h>\n#include \x22/i2/a.h\x22\n")) wrapperDirs 4
      (str "/s/m.c") wrapperDirs.dashInclude ⟨.empty, [], []⟩).isSome = true := by decide +kernel
  obtain ⟨⟨b, u⟩, h⟩ := Option.isSome_iff_exists.mp hsome
  exact ⟨b, u, h, (include_next_collected_iff wrapperSha1
    (wrapperTree (str "#include <a.h>\n#include \x22/i2/a.h\x22\n")) wrapperDirs (str "/s/m.c")
    (by decide +kernel) h).2 fun _ =>
      ownHeaders_of_checkAlong (str "#include <a.h>\n#include \x22/i2/a.h\x22\n") 4
        (by decide +kernel) (by decide +kernel)⟩

/-- The directive of a source that only includes `<a.h>`. -/
theorem nextHeader_wrapper :
    NextHeader (wrapperTree (str "#include <a.h>\n")) wrapperDirs (str "/s/m.c")
      ⟨none, 0, ⟨str "a.h", .angle⟩⟩ 0 (str "/i1/a.h") (str "a.h") (str "/i2/a.h") where
  met := ⟨by decide +kernel, fun _ hplace => by cases hplace⟩
  relative := by decide +kernel
  found := by decide +kernel
  header_eq := by decide +kernel
  line := ⟨str "#include_next <a.h>\n", by decide +kernel, str "#include_next <a.h>",
    by decide +kernel, [], [], str " ", [], by decide +kernel, by decide +kernel, by decide +kernel,
    by decide +kernel, by decide +kernel⟩
  later := by decide +kernel

/-- Then `/i2/a.h` is not collected. -/
theorem wrapper_hides_header :
    ¬ ∀ (sha1 : Str → Str) (files : FileSystem) (dirs : CmdLineIncludeDirs) (src : Str) (fuel : ℕ)
      (b : Bool) (u : SourceFileParser), files.isFile src = true →
      parseSourceFileIncludes sha1 files dirs fuel src dirs.dashInclude ⟨.empty, [], []⟩
        = some (b, u) → NextCollected files dirs src u := by
  intro h
  have hrun :
    (parseSourceFileIncludes wrapperSha1 (wrapperTree (str "#include <a.h>\n")) wrapperDirs
      4 (str "/s/m.c") wrapperDirs.dashInclude ⟨.empty, [], []⟩).map
        (fun r => r.2.incDirectives.map (·.2.filePath)) = some [str "/i1/a.h"] := by decide +kernel
  obtain ⟨⟨b, u⟩, hr, hpaths⟩ := Option.map_eq_some_iff.mp hrun
  obtain ⟨e, he, hpath⟩ := h wrapperSha1 (wrapperTree (str "#include <a.h>\n")) wrapperDirs
    (str "/s/m.c") 4 b u (by decide +kernel) hr _ _ _ _ _ nextHeader_wrapper
  have hmem : e.2.filePath ∈ u.incDirectives.map (·.2.filePath) := List.mem_map_of_mem he
  rw [hpath, hpaths] at hmem
  exact absurd hmem (by decide)

end DistBuild
