import DistBuild.Includes.Traversal

/-!
# Includes/Included — the headers a source file includes

    source ──<a.h>──▸ /i/a.h ──"b.h"──▸ /i/b.h ──▸ …

`Included` is the least set with the headers the directives of the command line and of the source
stand for, and those the directives of its headers stand for.  Whatever is in the cache, a traversal
meets no other directives (`forall_met_handle`), and from an empty cache it collects no other header
(`collected_included`).
-/

namespace DistBuild

open SourceFileParser

section

variable (files : FileSystem) (dirs : CmdLineIncludeDirs) (src : Str)

/-- The directives at a place. -/
def directivesAt : Option Str → List IncludeDirective
  | none => dirs.dashInclude.map (fun name => ⟨name, .angle⟩)
      ++ (files.read src).elim [] findFileIncludes
  | some header =>
    match files.node header with
    | some (.file content) => findFileIncludes content
    | _ => []

/-- **The headers of a source file**, the least set closed under its directives. -/
inductive Included : Str → Prop
  | source {d path} (hd : d ∈ directivesAt files dirs src none)
    (h : resolvedHeader files dirs src d = some path) : Included path
  | header {header d path} (hheader : Included header)
    (hd : d ∈ directivesAt files dirs src (some header))
    (h : resolvedHeader files dirs header d = some path) : Included path

/-- The occurrence is one of the source, or of one of its headers. -/
structure Met (o : Occurrence) : Prop where
  mem : o ∈ occurrences o.place (directivesAt files dirs src o.place)
  included : ∀ header, o.place = some header → Included files dirs src header

/-- The header the occurrence stands for. -/
def Occurrence.target (o : Occurrence) : Option Str :=
  resolvedHeader files dirs (o.parent src) o.directive

/-- The paths the occurrence is tried at. -/
def Occurrence.paths (o : Occurrence) : List Str := headerPaths dirs (o.parent src) o.directive

end

variable {sha1 : Str → Str} {files : FileSystem} {dirs : CmdLineIncludeDirs} {src : Str}

theorem isFile_of_resolved {parent path : Str} {d : IncludeDirective}
    (h : resolvedHeader files dirs parent d = some path) : files.isFile path = true :=
  List.find?_some h

theorem Included.isFile {path : Str} (h : Included files dirs src path) :
    files.isFile path = true := by
  cases h with
  | source _ h => exact isFile_of_resolved h
  | header _ _ h => exact isFile_of_resolved h

theorem Met.target_included {o : Occurrence} (h : Met files dirs src o) {path : Str}
    (ht : o.target files dirs src = some path) : Included files dirs src path := by
  have hd := directive_mem_of_mem_occurrences h.mem
  unfold Occurrence.target Occurrence.parent at ht
  cases hplace : o.place with
  | none => rw [hplace] at hd ht; exact .source hd ht
  | some header => rw [hplace] at hd ht; exact .header (h.included header hplace) hd ht

/-- A header of the source is one that a directive stands for. -/
theorem Included.exists_met {path : Str} (h : Included files dirs src path) :
    ∃ o, Met files dirs src o ∧ o.target files dirs src = some path := by
  cases h with
  | source hd hr =>
    obtain ⟨o, ho, hplace, rfl⟩ := exists_mem_occurrences none hd
    refine ⟨o, ⟨hplace ▸ ho, fun header hh => ?_⟩, ?_⟩
    · rw [hplace] at hh
      cases hh
    · rw [Occurrence.target, Occurrence.parent, hplace]
      exact hr
  | @header header _ _ hheader hd hr =>
    obtain ⟨o, ho, hplace, rfl⟩ := exists_mem_occurrences (some header) hd
    refine ⟨o, ⟨hplace ▸ ho, fun header' hh => ?_⟩, ?_⟩
    · cases hplace.symm.trans hh
      exact hheader
    · rw [Occurrence.target, Occurrence.parent, hplace]
      exact hr

/-- The directives of a header that was met. -/
theorem met_occurrences {header content : Str} (hheader : Included files dirs src header)
    (hnode : files.node header = some (.file content)) {o : Occurrence}
    (ho : o ∈ occurrences (some header) (findFileIncludes content)) : Met files dirs src o := by
  have hplace := (mem_occurrences.mp ho).1
  refine ⟨?_, fun h hh => ?_⟩
  · rw [hplace, directivesAt, hnode]
    exact ho
  · cases hplace.symm.trans hh
    exact hheader

theorem met_rootOccurrences {content : Str} (hsrc : files.read src = some content) {o : Occurrence}
    (ho : o ∈ rootOccurrences dirs content) : Met files dirs src o := by
  have hplace := (mem_occurrences.mp ho).1
  refine ⟨?_, fun h hh => ?_⟩
  · rw [hplace, directivesAt, hsrc]
    exact ho
  · rw [hplace] at hh
    cases hh

/-! ### A list of all headers -/

section

variable {headers : List Str}

/-- The occurrences of the source and of these headers. -/
def occurrencesIn (files : FileSystem) (dirs : CmdLineIncludeDirs) (src : Str)
    (headers : List Str) : List Occurrence :=
  (none :: headers.map some).flatMap fun place =>
    occurrences place (directivesAt files dirs src place)

/-- A list of headers that is closed under their directives, and those of the source, has all. -/
theorem Included.mem_of_closed
    (hclosed : ∀ o ∈ occurrencesIn files dirs src headers, ∀ path ∈ o.target files dirs src,
      path ∈ headers) {path : Str} (h : Included files dirs src path) : path ∈ headers := by
  have hstep : ∀ place ∈ none :: headers.map some, ∀ d ∈ directivesAt files dirs src place,
      ∀ path, resolvedHeader files dirs (place.getD src) d = some path → path ∈ headers := by
    intro place hplace d hd path hpath
    obtain ⟨o, ho, hop, rfl⟩ := exists_mem_occurrences place hd
    refine hclosed o (List.mem_flatMap.mpr ⟨place, hplace, ho⟩) path ?_
    rw [Option.mem_def, Occurrence.target, Occurrence.parent, hop]
    exact hpath
  induction h with
  | source hd hpath => exact hstep none List.mem_cons_self _ hd _ hpath
  | header _ hd hpath ih =>
    exact hstep _ (List.mem_cons_of_mem _ (List.mem_map_of_mem ih)) _ hd _ hpath

theorem Met.mem_occurrencesIn
    (hclosed : ∀ o ∈ occurrencesIn files dirs src headers, ∀ path ∈ o.target files dirs src,
      path ∈ headers) {o : Occurrence} (h : Met files dirs src o) :
    o ∈ occurrencesIn files dirs src headers := by
  refine List.mem_flatMap.mpr ⟨o.place, ?_, h.mem⟩
  cases hplace : o.place with
  | none => exact List.mem_cons_self
  | some header =>
    exact List.mem_cons_of_mem _
      (List.mem_map_of_mem ((h.included header hplace).mem_of_closed hclosed))

end

/-! ## What any traversal collects -/

/-- Every worklist a traversal goes through has directives that were met. -/
theorem forall_met_handle {o : Occurrence} {l : List Occurrence} {s : SourceFileParser}
    (h : ∀ o' ∈ o :: l, Met files dirs src o') :
    ∀ o' ∈ (handle sha1 files dirs src o s).1 ++ l, Met files dirs src o' := by
  obtain ⟨ho, hl⟩ := List.forall_mem_cons.mp h
  intro o' ho'
  rcases List.mem_append.mp ho' with ho' | ho'
  · generalize hnext : handle sha1 files dirs src o s = next at ho'
    cases hnext ▸ handle_cases o s with
    | taken _ => cases ho'
    | found _ _ => cases ho'
    | unresolved _ => cases ho'
    | opened htarget _ hnode => exact met_occurrences (ho.target_included htarget) hnode ho'
  · exact hl o' ho'

/-- The cache and the parser have records of the source's headers only. -/
structure Sound (files : FileSystem) (dirs : CmdLineIncludeDirs) (src : Str) (l : List Occurrence)
    (s : SourceFileParser) : Prop where
  met : ∀ o ∈ l, Met files dirs src o
  found : ∀ e ∈ s.incDirectives, Included files dirs src e.2.filePath
  cached : ∀ name info, s.includesCache.includeCacheData name = some info →
    Included files dirs src info.filePath

theorem Sound.step {o : Occurrence} {l : List Occurrence} {s : SourceFileParser}
    (h : Sound files dirs src (o :: l) s) :
    Sound files dirs src ((handle sha1 files dirs src o s).1 ++ l)
      (handle sha1 files dirs src o s).2 := by
  have hmet : ∀ o' ∈ (handle sha1 files dirs src o s).1 ++ l, Met files dirs src o' :=
    forall_met_handle h.met
  have ho := h.met o List.mem_cons_self
  generalize hnext : handle sha1 files dirs src o s = next at hmet ⊢
  cases hnext ▸ handle_cases o s with
  | taken htaken =>
    obtain ⟨name, hinfo⟩ := exists_data_of_taken htaken
    refine { h with met := hmet, found := fun e he => ?_ }
    rcases mem_assign he with rfl | he
    · exact h.cached name _ hinfo
    · exact h.found e he
  | found _ _ => exact { h with met := hmet }
  | unresolved _ => exact { h with met := hmet }
  | opened htarget _ hnode =>
    have hpath := ho.target_included htarget
    refine ⟨hmet, fun e he => ?_, fun name info hinfo => ?_⟩
    · rcases mem_openHeader he with rfl | he
      · exact hpath
      · exact h.found e he
    · rcases openHeader_data hinfo with ⟨-, -, rfl⟩ | hinfo
      · exact hpath
      · exact h.cached name info hinfo

/-- **From an empty cache, a call collects headers of the source only.** -/
theorem collected_included {content : Str} {u : SourceFileParser}
    (hsrc : files.read src = some content)
    (h : Finishes (handle sha1 files dirs src) (rootOccurrences dirs content)
      ⟨.empty, [], [src]⟩ u) : ∀ e ∈ u.incDirectives, Included files dirs src e.2.filePath :=
  (h.invariant (I := Sound files dirs src) (fun _ _ _ hs => hs.step)
    ⟨fun _ => met_rootOccurrences hsrc, fun _ he => (by cases he),
      fun _ _ he => (by cases he)⟩).found

end DistBuild
