import DistBuild.Includes.Parser
import DistBuild.Machinery.Worklist

/-!
# Includes/Traversal — the recursion over the headers, as a worklist of directives

    source     <a.h>  "b.h"          ⟨none, 0⟩ ⟨none, 1⟩
    /i/a.h     <c.h>                 ⟨/i/a.h, 0⟩
                                     ──▸  ⟨none, 0⟩ ⟨none, 1⟩  ──▸  ⟨/i/a.h, 0⟩ ⟨none, 1⟩  ──▸ …

A directive that was met is an `Occurrence`: the same text may stand in a file twice.  Processing
one either assigns the record that the cache answers it with (`taken`), or opens a header, the
directives of which are then next, or leaves the parser as it is (`handle_cases`).  The recursion of
the parser is the `visit` of that step (`processIncludeDirective_eq_visit`).  Over a tree it
returns, as a header is opened only if the parser does not have it yet (`collect_returns`).
-/

namespace DistBuild

/-- A directive, where it stands: in a header, or on the command line or in the source. -/
structure Occurrence where
  place : Option Str
  index : ℕ
  directive : IncludeDirective
deriving DecidableEq, Repr

/-- The file it stands in; the command line counts as the source `src`. -/
def Occurrence.parent (src : Str) (o : Occurrence) : Str := o.place.getD src

/-- These directives, at a place. -/
def occurrences (place : Option Str) (ds : List IncludeDirective) : List Occurrence :=
  ds.zipIdx.map fun e => ⟨place, e.2, e.1⟩

theorem mem_occurrences {place : Option Str} {ds : List IncludeDirective} {o : Occurrence} :
    o ∈ occurrences place ds ↔ o.place = place ∧ ds[o.index]? = some o.directive := by
  unfold occurrences
  rw [List.mem_map]
  constructor
  · rintro ⟨⟨d, i⟩, he, rfl⟩
    exact ⟨rfl, List.mem_zipIdx_iff_getElem?.mp he⟩
  · rintro ⟨rfl, hd⟩
    exact ⟨(o.directive, o.index), List.mem_zipIdx_iff_getElem?.mpr hd, rfl⟩

theorem directive_mem_of_mem_occurrences {place : Option Str} {ds : List IncludeDirective}
    {o : Occurrence} (h : o ∈ occurrences place ds) : o.directive ∈ ds :=
  List.mem_of_getElem? (mem_occurrences.mp h).2

theorem map_directive_occurrences (place : Option Str) (ds : List IncludeDirective) :
    (occurrences place ds).map Occurrence.directive = ds := by
  unfold occurrences
  rw [List.map_map, show (Occurrence.directive ∘ fun e : IncludeDirective × ℕ => ⟨place, e.2, e.1⟩)
    = Prod.fst from rfl, List.zipIdx_map_fst]

/-- Every directive of a place has an occurrence there. -/
theorem exists_mem_occurrences (place : Option Str) {ds : List IncludeDirective}
    {d : IncludeDirective} (hd : d ∈ ds) :
    ∃ o ∈ occurrences place ds, o.place = place ∧ o.directive = d := by
  rw [← map_directive_occurrences place ds] at hd
  obtain ⟨o, ho, hod⟩ := List.mem_map.mp hd
  exact ⟨o, ho, (mem_occurrences.mp ho).1, hod⟩

namespace SourceFileParser

variable (sha1 : Str → Str) (files : FileSystem) (dirs : CmdLineIncludeDirs) (src : Str)

/-- A header that was read, with its directives next. -/
def openHeader (s : SourceFileParser) (d : IncludeDirective) (path content : Str) :
    SourceFileParser :=
  ((s.store dirs d path (headerInfo sha1 path content)).assign path
    (headerInfo sha1 path content)).enter path

/-- The paths are tried in turn, up to the first that resolves the directive. -/
def tryPaths (d : IncludeDirective) (s : SourceFileParser) :
    List Str → List Occurrence × SourceFileParser
  | [] => ([], s)
  | path :: paths =>
    if s.Contains path then ([], s)
    else
      match s.includesCache.includeCacheData (cacheKey d path), files.node path with
      | some info, _ => ([], s.assign path info)
      | none, some (.file content) =>
        (occurrences (some path) (findFileIncludes content), s.openHeader sha1 dirs d path content)
      | none, _ => tryPaths d s paths

/-- One directive is processed, without those of the header it may open. -/
def handle (o : Occurrence) (s : SourceFileParser) : List Occurrence × SourceFileParser :=
  match s.cachedInclude o.directive with
  | some (path, info) => ([], s.assign path info)
  | none => tryPaths sha1 files dirs o.directive s (headerPaths dirs (o.parent src) o.directive)

/-- The record the cache has where these paths are tried, and the path it is taken for. -/
def triedRecord (d : IncludeDirective) (s : SourceFileParser) :
    List Str → Option (Str × IncludeInfo)
  | [] => none
  | path :: paths =>
    if s.Contains path then none
    else
      match s.includesCache.includeCacheData (cacheKey d path), files.node path with
      | some info, _ => some (path, info)
      | none, some (.file _) => none
      | none, _ => triedRecord d s paths

/-- **The record the cache answers the directive with**, and the path it is taken for. -/
def taken (o : Occurrence) (s : SourceFileParser) : Option (Str × IncludeInfo) :=
  (s.cachedInclude o.directive).or
    (triedRecord files o.directive s (headerPaths dirs (o.parent src) o.directive))

/-- The header that is opened where these paths are tried and no record is taken: the first that is
a file, unless the parser has one before it. -/
def newHeader (s : SourceFileParser) : List Str → Option (Str × Str)
  | [] => none
  | path :: paths =>
    if s.Contains path then none
    else
      match files.node path with
      | some (.file content) => some (path, content)
      | _ => newHeader s paths

theorem tryPaths_eq (d : IncludeDirective) (s : SourceFileParser) (paths : List Str) :
    tryPaths sha1 files dirs d s paths
      = (triedRecord files d s paths).elim
          ((newHeader files s paths).elim ([], s) fun e =>
            (occurrences (some e.1) (findFileIncludes e.2), s.openHeader sha1 dirs d e.1 e.2))
          fun r => ([], s.assign r.1 r.2) := by
  induction paths with
  | nil => rfl
  | cons path paths ih =>
    unfold tryPaths triedRecord newHeader
    by_cases hc : s.Contains path
    · rw [if_pos hc, if_pos hc, if_pos hc]
      rfl
    rw [if_neg hc, if_neg hc, if_neg hc]
    cases s.includesCache.includeCacheData (cacheKey d path) with
    | some info => rfl
    | none =>
      cases files.node path with
      | none => exact ih
      | some node =>
        cases node with
        | directory => exact ih
        | file content => rfl

/-- **A step takes a record, or opens a header, or neither.** -/
theorem handle_eq (o : Occurrence) (s : SourceFileParser) :
    handle sha1 files dirs src o s
      = (taken files dirs src o s).elim
          ((newHeader files s (headerPaths dirs (o.parent src) o.directive)).elim ([], s) fun e =>
            (occurrences (some e.1) (findFileIncludes e.2),
              s.openHeader sha1 dirs o.directive e.1 e.2))
          fun r => ([], s.assign r.1 r.2) := by
  unfold handle taken
  cases s.cachedInclude o.directive with
  | some r => rfl
  | none => exact tryPaths_eq sha1 files dirs o.directive s _

/-! ## What assigning and opening leave -/

variable {sha1 dirs}

section

variable {s : SourceFileParser} {d : IncludeDirective} {path name content : Str}
  {info : IncludeInfo} {e : Str × IncludeInfo}

theorem cachedInclude_eq_some_iff :
    s.cachedInclude d = some (path, info)
      ↔ d.incType = .angle ∧ s.includesCache.includeAbsPaths d.incContent = some path
        ∧ s.includesCache.includeCacheData path = some info := by
  unfold cachedInclude
  cases d.incType with
  | quote => simp
  | angle =>
    simp only [Option.bind_eq_some_iff, Option.map_eq_some_iff, Prod.mk.injEq, true_and]
    constructor
    · rintro ⟨p, hp, i, hi, rfl, rfl⟩
      exact ⟨hp, hi⟩
    · rintro ⟨hp, hi⟩
      exact ⟨path, hp, info, hi, rfl, rfl⟩

theorem mem_assign (h : e ∈ (s.assign path info).incDirectives) :
    e = (path, info) ∨ e ∈ s.incDirectives := by
  rcases List.mem_cons.mp h with rfl | h
  · exact Or.inl rfl
  · exact Or.inr (List.mem_filter.mp h).1

theorem contains_assign_iff {q : Str} :
    (s.assign path info).Contains q ↔ q = path ∨ s.Contains q := by
  constructor
  · intro h
    obtain ⟨e, he, rfl⟩ := List.mem_map.mp h
    rcases mem_assign he with rfl | he
    · exact Or.inl rfl
    · exact Or.inr (List.mem_map_of_mem he)
  · rintro (rfl | h)
    · exact s.contains_assign q info
    · exact h.assign path info

/-- Assigning keeps one entry for each path. -/
theorem nodup_assign (h : (s.incDirectives.map Prod.fst).Nodup) :
    ((s.assign path info).incDirectives.map Prod.fst).Nodup := by
  refine List.nodup_cons.mpr ⟨fun hmem => ?_, ?_⟩
  · obtain ⟨e, he, rfl⟩ := List.mem_map.mp hmem
    simpa using (List.mem_filter.mp he).2
  · exact h.sublist (List.filter_sublist.map Prod.fst)

theorem store_incDirectives (s : SourceFileParser) (dirs : CmdLineIncludeDirs)
    (d : IncludeDirective)
    (path : Str) (info : IncludeInfo) :
    (s.store dirs d path info).incDirectives = s.incDirectives := by
  unfold store
  split <;> rfl

theorem contains_store (s : SourceFileParser) (d : IncludeDirective) (path : Str)
    (info : IncludeInfo) (q : Str) : (s.store dirs d path info).Contains q ↔ s.Contains q := by
  unfold store
  split <;> exact Iff.rfl

theorem mem_openHeader (h : e ∈ (s.openHeader sha1 dirs d path content).incDirectives) :
    e = (path, headerInfo sha1 path content) ∨ e ∈ s.incDirectives := by
  rcases mem_assign h with he | he
  · exact Or.inl he
  · exact Or.inr (store_incDirectives s dirs d path _ ▸ he)

theorem contains_openHeader_iff {q : Str} :
    (s.openHeader sha1 dirs d path content).Contains q ↔ q = path ∨ s.Contains q := by
  rw [← contains_store s d path (headerInfo sha1 path content) q]
  exact contains_assign_iff

theorem opened_openHeader (s : SourceFileParser) :
    (s.openHeader sha1 dirs d path content).opened = s.opened ++ [path] := by
  change (s.store dirs d path (headerInfo sha1 path content)).opened ++ [path] = _
  unfold store
  split <;> rfl

theorem nodup_openHeader (h : (s.incDirectives.map Prod.fst).Nodup) :
    ((s.openHeader sha1 dirs d path content).incDirectives.map Prod.fst).Nodup :=
  nodup_assign (s := s.store dirs d path (headerInfo sha1 path content))
    (by rwa [store_incDirectives])

/-- A record in the cache was there, or is the one of the header, under its key. -/
theorem openHeader_data
    (h : (s.openHeader sha1 dirs d path content).includesCache.includeCacheData name = some info) :
    requiresIncStorage path dirs = true ∧ name = cacheKey d path
        ∧ info = headerInfo sha1 path content
      ∨ s.includesCache.includeCacheData name = some info := by
  change (s.store dirs d path (headerInfo sha1 path content)).includesCache.includeCacheData name
    = some info at h
  unfold store at h
  split at h
  · rcases update_eq_some.mp h with ⟨hname, rfl⟩ | ⟨-, h⟩
    · exact Or.inl ⟨‹_›, hname, rfl⟩
    · exact Or.inr h
  · exact Or.inr h

/-- So is the path the cache has for a name. -/
theorem openHeader_absPaths {q : Str}
    (h : (s.openHeader sha1 dirs d path content).includesCache.includeAbsPaths name = some q) :
    requiresIncStorage path dirs = true ∧ name = cacheKey d path ∧ q = path
      ∨ s.includesCache.includeAbsPaths name = some q := by
  change (s.store dirs d path (headerInfo sha1 path content)).includesCache.includeAbsPaths name
    = some q at h
  unfold store at h
  split at h
  · rcases update_eq_some.mp h with ⟨hname, rfl⟩ | ⟨-, h⟩
    · exact Or.inl ⟨‹_›, hname, rfl⟩
    · exact Or.inr h
  · exact Or.inr h

end

/-! ## The recursion is the visit -/

variable {files src}

/-- The loop over the directives of a file is the loop over their occurrences. -/
theorem runFrom_occurrences {process : IncludeDirective → SourceFileParser →
    Option SourceFileParser}
    {next : Occurrence → SourceFileParser → Option SourceFileParser} {place : Option Str}
    (hnext : ∀ i d, process d = next ⟨place, i, d⟩) (ds : List IncludeDirective)
    (s : SourceFileParser) : runFrom process ds s = runFrom next (occurrences place ds) s := by
  conv_lhs => rw [← map_directive_occurrences place ds]
  rw [runFrom_map]
  unfold occurrences
  rw [runFrom_map, runFrom_map]
  exact congrArg (runFrom · _ s) (funext fun e => hnext e.2 e.1)

theorem firstOf_tryResolveHeader_map_snd
    {process : Str → IncludeDirective → SourceFileParser → Option (Bool × SourceFileParser)}
    {next : Occurrence → SourceFileParser → Option SourceFileParser}
    (hnext : ∀ path i d, (fun s => (process path d s).map Prod.snd) = next ⟨some path, i, d⟩)
    (d : IncludeDirective) (s : SourceFileParser) (paths : List Str) :
    (firstOf (fun path s => tryResolveHeader sha1 files dirs process path d s) paths s).map Prod.snd
      = runFrom next (tryPaths sha1 files dirs d s paths).1
        (tryPaths sha1 files dirs d s paths).2 := by
  induction paths with
  | nil => rfl
  | cons path paths ih =>
    unfold firstOf tryPaths tryResolveHeader
    by_cases hc : s.Contains path
    · rw [if_pos hc, if_pos hc]
      rfl
    rw [if_neg hc, if_neg hc]
    cases s.includesCache.includeCacheData (cacheKey d path) with
    | some info => rfl
    | none =>
      cases files.node path with
      | none => exact ih
      | some node =>
        cases node with
        | directory => exact ih
        | file content =>
          dsimp only
          rw [← runFrom_occurrences (hnext path)]
          change Option.map Prod.snd ((Option.map (fun s => (true, s))
            (runFrom (fun d s => (process path d s).map Prod.snd) (findFileIncludes content)
              (s.openHeader sha1 dirs d path content))).bind _) = _
          cases runFrom (fun d s => (process path d s).map Prod.snd) (findFileIncludes content)
            (s.openHeader sha1 dirs d path content) <;> rfl

/-- **The recursion is the visit** of the step on one directive. -/
theorem processIncludeDirective_eq_visit (fuel : ℕ) (o : Occurrence) (s : SourceFileParser) :
    (processIncludeDirective sha1 files dirs fuel (o.parent src) o.directive s).map Prod.snd
      = visit (handle sha1 files dirs src) fuel o s := by
  induction fuel generalizing o s with
  | zero => rfl
  | succ fuel ih =>
    unfold processIncludeDirective visit handle
    cases s.cachedInclude o.directive with
    | some r => rfl
    | none =>
      exact firstOf_tryResolveHeader_map_snd (fun path i d => funext (ih ⟨some path, i, d⟩)) ..

/-- The directives of the command line and of the source. -/
def rootOccurrences (dirs : CmdLineIncludeDirs) (content : Str) : List Occurrence :=
  occurrences none (dirs.dashInclude.map (fun name => ⟨name, .angle⟩) ++ findFileIncludes content)

variable {content : Str} {s u : SourceFileParser} {b : Bool}

theorem parseSourceFileIncludes_eq_visit (hsrc : files.read src = some content) (fuel : ℕ)
    (s : SourceFileParser) :
    parseSourceFileIncludes sha1 files dirs fuel src dirs.dashInclude s
      = (runFrom (visit (handle sha1 files dirs src) fuel) (rootOccurrences dirs content)
          (s.enter src)).map (true, ·) := by
  unfold parseSourceFileIncludes rootOccurrences
  rw [hsrc]
  dsimp only
  rw [runFrom_occurrences fun i d => funext (processIncludeDirective_eq_visit fuel ⟨none, i, d⟩)]

/-- **A call returns what the worklist of the source's directives ends with.** -/
theorem exists_parse_iff (hsrc : files.read src = some content) :
    (∃ fuel, parseSourceFileIncludes sha1 files dirs fuel src dirs.dashInclude s = some (b, u))
      ↔ b = true
        ∧ Finishes (handle sha1 files dirs src) (rootOccurrences dirs content) (s.enter src) u := by
  rw [← exists_visit_iff, ← exists_and_left]
  refine exists_congr fun fuel => ?_
  rw [parseSourceFileIncludes_eq_visit hsrc, Option.map_eq_some_iff]
  constructor
  · rintro ⟨u', hu, heq⟩
    cases heq
    exact ⟨rfl, hu⟩
  · rintro ⟨rfl, hu⟩
    exact ⟨u, hu, rfl⟩

/-- **The call comes to the directive**, started with this cache, with the parser in this state. -/
def Processes (sha1 : Str → Str) (files : FileSystem) (dirs : CmdLineIncludeDirs) (src : Str)
    (cache : IncludesCache) (o : Occurrence) (s : SourceFileParser) : Prop :=
  ∃ content l, files.read src = some content
    ∧ ComesTo (handle sha1 files dirs src) (rootOccurrences dirs content)
      ⟨cache, [], [src]⟩ (o :: l) s

/-- What a run of the call checks holds of every directive that it comes to. -/
theorem Processes.of_checkAlong {cache : IncludesCache} {check : Occurrence →
    SourceFileParser → Bool}
    {fuel : ℕ} (hsrc : files.read src = some content)
    (hcheck : checkAlong (handle sha1 files dirs src) check fuel (rootOccurrences dirs content)
      ⟨cache, [], [src]⟩ = true) {o : Occurrence} {s : SourceFileParser}
    (h : Processes sha1 files dirs src cache o s) : check o s = true := by
  obtain ⟨content', l, hsrc', hcomes⟩ := h
  obtain rfl := Option.some.inj (hsrc.symm.trans hsrc')
  exact hcomes.of_checkAlong hcheck

/-! ## What one step does -/

/-- **Where a record that is taken was looked up**: the cache has it at the path it has for the text
of the directive, or under the key of a path that is tried.  The induction is on the paths still to
be tried; those before them are no files, and the cache has nothing under their keys. -/
theorem taken_cases {o : Occurrence} {s : SourceFileParser} {path : Str} {info : IncludeInfo}
    (h : taken files dirs src o s = some (path, info)) :
    (o.directive.incType = .angle
        ∧ s.includesCache.includeAbsPaths o.directive.incContent = some path
        ∧ s.includesCache.includeCacheData path = some info)
      ∨ path ∈ upTo files.isFile (headerPaths dirs (o.parent src) o.directive)
        ∧ (o.directive.incType = .angle →
          (headerPaths dirs (o.parent src) o.directive).head? = some path)
        ∧ ¬ s.Contains path
        ∧ s.includesCache.includeCacheData (cacheKey o.directive path) = some info := by
  unfold taken at h
  cases hcached : s.cachedInclude o.directive with
  | some r =>
    rw [hcached] at h
    cases h
    exact Or.inl (cachedInclude_eq_some_iff.mp hcached)
  | none =>
    rw [hcached, Option.none_or] at h
    refine Or.inr ?_
    suffices htail : ∀ front paths, headerPaths dirs (o.parent src) o.directive = front ++ paths →
        (∀ path ∈ front, files.isFile path = false
          ∧ s.includesCache.includeCacheData (cacheKey o.directive path) = none) →
        triedRecord files o.directive s paths = some (path, info) →
        path ∈ upTo files.isFile (headerPaths dirs (o.parent src) o.directive)
          ∧ (o.directive.incType = .angle →
            (headerPaths dirs (o.parent src) o.directive).head? = some path)
          ∧ ¬ s.Contains path
          ∧ s.includesCache.includeCacheData (cacheKey o.directive path) = some info from
      htail [] _ rfl (by simp) h
    intro front paths hsplit hfront htried
    induction paths generalizing front with
    | nil => cases htried
    | cons first paths ih =>
      unfold triedRecord at htried
      split_ifs at htried with hc
      cases hdata : s.includesCache.includeCacheData (cacheKey o.directive first) with
      | some found =>
        rw [hdata] at htried
        cases htried
        refine ⟨?_, fun hty => ?_, hc, hdata⟩
        · rw [hsplit]
          exact mem_upTo_append fun q hq => (hfront q hq).1
        · cases front with
          | nil => rw [hsplit]; rfl
          | cons q front =>
            have := (hfront q List.mem_cons_self).2
            rw [cacheKey, hty] at this hdata
            rw [this] at hdata
            cases hdata
      | none =>
        have hnext : files.isFile first = false → triedRecord files o.directive s paths
            = some (path, info) → _ := fun hfile => ih (front ++ [first])
          (by rw [hsplit, List.append_assoc]; rfl) (by
            intro q hq
            rcases List.mem_append.mp hq with hq | hq
            · exact hfront q hq
            · rw [List.mem_singleton.mp hq]
              exact ⟨hfile, hdata⟩)
        rw [hdata] at htried
        cases hnode : files.node first with
        | none => exact hnext (by rw [FileSystem.isFile, hnode]) (by rwa [hnode] at htried)
        | some node =>
          cases node with
          | directory => exact hnext (by rw [FileSystem.isFile, hnode]) (by rwa [hnode] at htried)
          | file content =>
            rw [hnode] at htried
            cases htried

/-- A record that is taken is in the cache. -/
theorem exists_data_of_taken {o : Occurrence} {s : SourceFileParser} {path : Str}
    {info : IncludeInfo} (h : taken files dirs src o s = some (path, info)) :
    ∃ name, s.includesCache.includeCacheData name = some info := by
  rcases taken_cases h with ⟨-, -, hdata⟩ | ⟨-, -, -, hdata⟩
  · exact ⟨path, hdata⟩
  · exact ⟨cacheKey o.directive path, hdata⟩

/-- The header that is opened is the first path that is a file, and new to the parser. -/
theorem newHeader_eq_some {s : SourceFileParser} {paths : List Str} {path content : Str}
    (h : newHeader files s paths = some (path, content)) :
    paths.find? files.isFile = some path ∧ ¬ s.Contains path
      ∧ files.node path = some (.file content) := by
  induction paths with
  | nil => cases h
  | cons first paths ih =>
    unfold newHeader at h
    split_ifs at h with hc
    cases hnode : files.node first with
    | none =>
      rw [hnode] at h
      rw [List.find?_cons_of_neg (by simp [FileSystem.isFile, hnode])]
      exact ih h
    | some node =>
      rw [hnode] at h
      cases node with
      | directory =>
        rw [List.find?_cons_of_neg (by simp [FileSystem.isFile, hnode])]
        exact ih h
      | file content' =>
        cases h
        exact ⟨List.find?_cons_of_pos (by simp [FileSystem.isFile, hnode]), hc, hnode⟩

/-- None is opened if the parser has one of the paths, or none of them is a file. -/
theorem newHeader_eq_none {s : SourceFileParser} {paths : List Str}
    (h : newHeader files s paths = none) :
    (∃ path ∈ upTo files.isFile paths, s.Contains path) ∨ paths.find? files.isFile = none := by
  induction paths with
  | nil => exact Or.inr rfl
  | cons first paths ih =>
    by_cases hc : s.Contains first
    · exact Or.inl ⟨first, mem_upTo_cons_self _ first paths, hc⟩
    unfold newHeader at h
    rw [if_neg hc] at h
    have hnext (hfile : files.isFile first = false) (hrest : newHeader files s paths = none) :
        (∃ path ∈ upTo files.isFile (first :: paths), s.Contains path)
          ∨ (first :: paths).find? files.isFile = none := by
      rw [List.find?_cons_of_neg (by simp [hfile]), upTo, if_neg (by simp [hfile])]
      refine (ih hrest).imp_left fun hmem => ?_
      obtain ⟨path, hpath, hcon⟩ := hmem
      exact ⟨path, List.mem_cons_of_mem _ hpath, hcon⟩
    cases hnode : files.node first with
    | none => exact hnext (by rw [FileSystem.isFile, hnode]) (by rwa [hnode] at h)
    | some node =>
      cases node with
      | directory => exact hnext (by rw [FileSystem.isFile, hnode]) (by rwa [hnode] at h)
      | file content =>
        rw [hnode] at h
        cases h

/-- **What processing a directive can do**: it assigns the record that the cache answers it with; it
opens the header it stands for; or it leaves the parser as it is, at a path the parser has, or
because it stands for no header. -/
inductive Handles (sha1 : Str → Str) (files : FileSystem) (dirs : CmdLineIncludeDirs) (src : Str)
    (o : Occurrence) (s : SourceFileParser) : List Occurrence × SourceFileParser → Prop
  | taken {path info} (h : taken files dirs src o s = some (path, info)) :
    Handles sha1 files dirs src o s ([], s.assign path info)
  | opened {path content} (h : resolvedHeader files dirs (o.parent src) o.directive = some path)
    (hc : ¬ s.Contains path) (hnode : files.node path = some (.file content)) :
    Handles sha1 files dirs src o s
      (occurrences (some path) (findFileIncludes content),
        s.openHeader sha1 dirs o.directive path content)
  | found {path} (hpath : path ∈ upTo files.isFile (headerPaths dirs (o.parent src) o.directive))
    (hc : s.Contains path) : Handles sha1 files dirs src o s ([], s)
  | unresolved (h : resolvedHeader files dirs (o.parent src) o.directive = none) :
    Handles sha1 files dirs src o s ([], s)

theorem handle_cases (o : Occurrence) (s : SourceFileParser) :
    Handles sha1 files dirs src o s (handle sha1 files dirs src o s) := by
  rw [handle_eq]
  cases htaken : taken files dirs src o s with
  | some r => exact .taken htaken
  | none =>
    cases hnew : newHeader files s (headerPaths dirs (o.parent src) o.directive) with
    | some e =>
      obtain ⟨hresolved, hc, hnode⟩ := newHeader_eq_some hnew
      exact .opened hresolved hc hnode
    | none =>
      rcases newHeader_eq_none hnew with ⟨path, hpath, hc⟩ | hnone
      · exact .found hpath hc
      · exact .unresolved hnone

/-! ## Over a tree -/

section

variable {tree : Tree}

/-- The files of the tree the parser does not have yet. -/
def unopened (tree : Tree) (s : SourceFileParser) : ℕ :=
  (tree.filter fun e => ¬ s.Contains e.1).length

theorem unopened_sublist {s s' : SourceFileParser} (h : ∀ p, s.Contains p → s'.Contains p) :
    (tree.filter fun e => ¬ s'.Contains e.1).Sublist
      (tree.filter fun e => ¬ s.Contains e.1) := by
  refine List.monotone_filter_right tree fun e he => ?_
  simp only [decide_eq_true_eq] at he ⊢
  exact fun hc => he (h _ hc)

/-- Opening a file leaves fewer to open. -/
theorem unopened_lt {s s' : SourceFileParser} (h : ∀ p, s.Contains p → s'.Contains p) {path : Str}
    {node : Node} (hn : tree.lookup path = some node) (hs : ¬ s.Contains path)
    (hs' : s'.Contains path) : unopened tree s' < unopened tree s := by
  have hsub : (tree.filter fun e => ¬ s'.Contains e.1).Sublist
      (tree.filter fun e => ¬ s.Contains e.1) := unopened_sublist h
  refine hsub.length_le.lt_of_ne fun heq => ?_
  obtain ⟨l₁, l₂, rfl, -⟩ := List.lookup_eq_some_iff.mp hn
  have hmem : (path, node) ∈ (l₁ ++ (path, node) :: l₂).filter fun e => ¬ s.Contains e.1 :=
    List.mem_filter.mpr ⟨by simp, by simpa using hs⟩
  rw [← hsub.eq_of_length heq] at hmem
  exact absurd hs' (by simpa using (List.mem_filter.mp hmem).2)

/-- A step that adds directives has one file less to open, and no step has more. -/
theorem unopened_handle (o : Occurrence) (s : SourceFileParser) :
    (handle sha1 tree dirs src o s).1 = []
        ∧ unopened tree (handle sha1 tree dirs src o s).2 ≤ unopened tree s
      ∨ unopened tree (handle sha1 tree dirs src o s).2 < unopened tree s := by
  generalize hnext : handle sha1 tree dirs src o s = next
  cases hnext ▸ handle_cases o s with
  | taken _ => exact Or.inl ⟨rfl, (unopened_sublist fun _ hp => hp.assign _ _).length_le⟩
  | found _ _ => exact Or.inl ⟨rfl, le_rfl⟩
  | unresolved _ => exact Or.inl ⟨rfl, le_rfl⟩
  | opened _ hc hnode =>
    exact Or.inr (unopened_lt (fun _ hp => contains_openHeader_iff.mpr (Or.inr hp)) hnode hc
      (contains_openHeader_iff.mpr (Or.inl rfl)))

end

end SourceFileParser

open SourceFileParser

/-- **A call returns**, whatever the cache, and whatever fuel it has beyond the size of the tree
makes no difference. -/
theorem CompilerCall.collect_returns (sha1 : Str → Str) {tree : Tree} {fuel fuel' : ℕ}
    (hf : tree.length < fuel) (hf' : tree.length < fuel') (call : CompilerCall)
    (cache : IncludesCache) :
    ∃ r, call.collectSrcFileDependencies sha1 tree fuel cache = some r
      ∧ call.collectSrcFileDependencies sha1 tree fuel' cache = some r := by
  unfold collectSrcFileDependencies
  cases hsrc : tree.files.read call.inputSrcFile with
  | none => exact ⟨([], cache), by simp [parseSourceFileIncludes, hsrc],
      by simp [parseSourceFileIncludes, hsrc]⟩
  | some content =>
    obtain ⟨u, hu, -⟩ := runFrom_visit_returns unopened_handle
      (l := rootOccurrences call.dirs content)
      (s := (⟨cache, [], []⟩ : SourceFileParser).enter call.inputSrcFile)
      (Nat.lt_succ_of_le (List.length_filter_le ..))
    have hparse : ∀ n, tree.length < n →
        parseSourceFileIncludes sha1 tree call.dirs n call.inputSrcFile call.dirs.dashInclude
          ⟨cache, [], []⟩ = some (true, u) := fun n hn => by
      rw [parseSourceFileIncludes_eq_visit hsrc, runFrom_visit_mono (Nat.succ_le_of_lt hn) hu]
      rfl
    exact ⟨_, by rw [hparse fuel hf, Option.map_some], by rw [hparse fuel' hf', Option.map_some]⟩

end DistBuild
