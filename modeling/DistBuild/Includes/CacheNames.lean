import DistBuild.Includes.Included
import DistBuild.Includes.WarmCache

/-!
# Includes/CacheNames — one name of the cache, several paths

    <a.h> found at /i2/a.h         cache   a.h ↦ the record of /i2/a.h
    <a.h> again, tried at /i1/a.h  ──▸  the record under `a.h` is taken for /i1/a.h

The cache keeps the record of an angle directive under the text of the directive, and a later
directive takes what is under its text for the first path it tries.  Where every record that is
taken is the one of its path (`OwnRecords`), so is every entry of `_inc_directives`; and from an
empty cache only there, as an entry with the record of another path stays (`dependency_map_valid`).
-/

namespace DistBuild

open SourceFileParser

/-- **Every record the call takes out of the cache is the one of the file it is taken for.** -/
def OwnRecords (sha1 : Str → Str) (files : FileSystem) (dirs : CmdLineIncludeDirs) (src : Str)
    (cache : IncludesCache) : Prop :=
  ∀ o s, Processes sha1 files dirs src cache o s → ∀ r ∈ taken files dirs src o s,
    r.2.filePath = r.1 ∧ files.isFile r.1 = true

/-- Every entry is the record of the file at its key. -/
def ValidMap (files : FileSystem) (s : SourceFileParser) : Prop :=
  ∀ e ∈ s.incDirectives, e.2.filePath = e.1 ∧ files.isFile e.1 = true

variable {sha1 : Str → Str} {files : FileSystem} {dirs : CmdLineIncludeDirs} {src : Str}
  {cache : IncludesCache} {o : Occurrence} {l : List Occurrence} {s : SourceFileParser}

/-! ## Own records make a valid map -/

/-- **One step keeps every record the one of its path**, if the one that is taken is. -/
theorem ValidMap.step
    (hown : ∀ r ∈ taken files dirs src o s, r.2.filePath = r.1 ∧ files.isFile r.1 = true)
    (h : ValidMap files s) : ValidMap files (handle sha1 files dirs src o s).2 := by
  generalize hnext : handle sha1 files dirs src o s = next
  cases hnext ▸ handle_cases o s with
  | found _ _ => exact h
  | unresolved _ => exact h
  | taken htaken =>
    intro e he
    rcases mem_assign he with rfl | he
    · exact hown _ htaken
    · exact h e he
  | opened htarget _ _ =>
    intro e he
    rcases mem_openHeader he with rfl | he
    · exact ⟨rfl, isFile_of_resolved htarget⟩
    · exact h e he

/-- The parser keeps one entry for each path. -/
theorem nodup_handle (h : (s.incDirectives.map Prod.fst).Nodup) :
    ((handle sha1 files dirs src o s).2.incDirectives.map Prod.fst).Nodup := by
  generalize hnext : handle sha1 files dirs src o s = next
  cases hnext ▸ handle_cases o s with
  | taken _ => exact nodup_assign h
  | opened _ _ _ => exact nodup_openHeader h
  | found _ _ => exact h
  | unresolved _ => exact h

theorem OwnRecords.validMap (hown : OwnRecords sha1 files dirs src cache) {fuel : ℕ} {b : Bool}
    {u : SourceFileParser}
    (h : parseSourceFileIncludes sha1 files dirs fuel src dirs.dashInclude ⟨cache, [], []⟩
      = some (b, u)) : ValidMap files u ∧ (u.incDirectives.map Prod.fst).Nodup := by
  cases hsrc : files.read src with
  | none =>
    rw [parseSourceFileIncludes, hsrc] at h
    cases h
    exact ⟨fun e he => (by cases he), List.nodup_nil⟩
  | some content =>
    obtain ⟨-, hrun⟩ := (exists_parse_iff hsrc).mp ⟨fuel, h⟩
    have hstart : ValidMap files ⟨cache, [], [src]⟩ := fun e he => by cases he
    refine hrun.comesTo.invariant
      (I := fun _ s => ValidMap files s ∧ (s.incDirectives.map Prod.fst).Nodup)
      ⟨hstart, List.nodup_nil⟩ fun o l s hcomes hs => ?_
    exact ⟨hs.1.step (hown o s ⟨content, l, hsrc, hcomes⟩), nodup_handle hs.2⟩

/-! ## A record of another path stays -/

/-- From an empty cache, the records in the cache are of files that were found. -/
structure Fresh (files : FileSystem) (s : SourceFileParser) : Prop where
  keyed : s.includesCache.Keyed
  found : ∀ name info, s.includesCache.includeCacheData name = some info →
    s.Contains info.filePath ∧ files.isFile info.filePath = true

theorem Fresh.step (h : Fresh files s) : Fresh files (handle sha1 files dirs src o s).2 := by
  have hkeyed : (handle sha1 files dirs src o s).2.includesCache.Keyed := keyed_handle h.keyed
  generalize hnext : handle sha1 files dirs src o s = next at hkeyed ⊢
  cases hnext ▸ handle_cases o s with
  | found _ _ => exact h
  | unresolved _ => exact h
  | taken _ =>
    refine ⟨hkeyed, fun name info hinfo => ?_⟩
    obtain ⟨hc, hfile⟩ := h.found name info hinfo
    exact ⟨hc.assign _ _, hfile⟩
  | opened htarget _ _ =>
    refine ⟨hkeyed, fun name info hinfo => ?_⟩
    rw [contains_openHeader_iff]
    rcases openHeader_data hinfo with ⟨-, -, rfl⟩ | hinfo
    · exact ⟨Or.inl rfl, isFile_of_resolved htarget⟩
    · exact ⟨Or.inr (h.found name info hinfo).1, (h.found name info hinfo).2⟩

theorem fresh_empty (files : FileSystem) (opened : List Str) : Fresh files ⟨.empty, [], opened⟩ :=
  ⟨IncludesCache.keyed_empty, fun _ _ hinfo => by cases hinfo⟩

/-- The entry of the path has the record of another one, and so has what the cache could replace it
with. -/
structure Misfiled (path : Str) (s : SourceFileParser) : Prop where
  entry : ∃ info, (path, info) ∈ s.incDirectives ∧ info.filePath ≠ path
  data : ∀ name info, s.includesCache.includeAbsPaths name = some path →
    s.includesCache.includeCacheData path = some info → info.filePath ≠ path

theorem Misfiled.contains {path : Str} (h : Misfiled path s) : s.Contains path := by
  obtain ⟨info, hentry, -⟩ := h.entry
  exact List.mem_map_of_mem hentry

/-- Another entry is assigned. -/
theorem mem_assign_of_ne {path q : Str} {info info' : IncludeInfo} (hne : path ≠ q)
    (h : (path, info) ∈ s.incDirectives) : (path, info) ∈ (s.assign q info').incDirectives :=
  List.mem_cons_of_mem _ (List.mem_filter.mpr ⟨h, by simpa using hne⟩)

/-- **A misfiled entry stays**: it is replaced only by what the cache has for a text. -/
theorem Misfiled.step {path : Str} (h : Misfiled path s) :
    Misfiled path (handle sha1 files dirs src o s).2 := by
  obtain ⟨info, hentry, hother⟩ := h.entry
  generalize hnext : handle sha1 files dirs src o s = next
  cases hnext ▸ handle_cases o s with
  | found _ _ => exact h
  | unresolved _ => exact h
  | @taken q info' htaken =>
    refine ⟨?_, h.data⟩
    by_cases hq : q = path
    · obtain rfl := hq
      rcases taken_cases htaken with ⟨-, habs, hdata⟩ | ⟨-, -, hc, -⟩
      · exact ⟨info', List.mem_cons_self, h.data _ info' habs hdata⟩
      · exact absurd h.contains hc
    · exact ⟨info, mem_assign_of_ne (Ne.symm hq) hentry, hother⟩
  | @opened q content _ hc _ =>
    have hne : q ≠ path := fun hq => hc (hq ▸ h.contains)
    refine ⟨⟨info, ?_, hother⟩, fun name info' habs hdata => ?_⟩
    · refine mem_assign_of_ne (s := s.store dirs o.directive q (headerInfo sha1 q content))
        hne.symm ?_
      rwa [store_incDirectives]
    · rcases openHeader_data hdata with ⟨-, -, rfl⟩ | hdata
      · exact hne
      · rcases openHeader_absPaths habs with ⟨-, -, rfl⟩ | habs
        · exact absurd rfl hne
        · exact h.data name info' habs hdata

/-- A record that is taken for another path is misfiled. -/
theorem Fresh.misfiled (h : Fresh files s) {r : Str × IncludeInfo}
    (htaken : taken files dirs src o s = some r) (hother : r.2.filePath ≠ r.1) :
    Misfiled r.1 (handle sha1 files dirs src o s).2 := by
  obtain ⟨path, info⟩ := r
  rw [handle_eq, htaken]
  refine ⟨⟨info, List.mem_cons_self, hother⟩, fun name info' habs hdata => ?_⟩
  rcases taken_cases htaken with ⟨-, -, hinfo⟩ | ⟨-, -, hc, -⟩
  · obtain rfl := Option.some.inj (hinfo.symm.trans hdata)
    exact hother
  · have hkeyed := (h.keyed name).symm.trans habs
    obtain ⟨info'', hinfo, rfl⟩ := Option.map_eq_some_iff.mp hkeyed
    exact absurd (h.found name info'' hinfo).1 hc

/-- **So a call from an empty cache that ends with a valid map took own records only.** -/
theorem ValidMap.ownRecords {fuel : ℕ} {b : Bool} {u : SourceFileParser}
    (h : parseSourceFileIncludes sha1 files dirs fuel src dirs.dashInclude ⟨.empty, [], []⟩
      = some (b, u)) (hvalid : ValidMap files u) : OwnRecords sha1 files dirs src .empty := by
  rintro o s ⟨content, l, hsrc, hcomes⟩ r hr
  obtain ⟨-, hrun⟩ := (exists_parse_iff hsrc).mp ⟨fuel, h⟩
  have hfresh : Fresh files s := hcomes.invariant (I := fun _ s => Fresh files s)
    (fresh_empty files [src]) fun _ _ _ _ hs => hs.step
  obtain ⟨name, hinfo⟩ := exists_data_of_taken hr
  have hfile := (hfresh.found name r.2 hinfo).2
  by_cases hown : r.2.filePath = r.1
  · exact ⟨hown, hown ▸ hfile⟩
  have hmis : Misfiled r.1 u :=
    (hcomes.next.finishes hrun).invariant (I := fun _ s => Misfiled r.1 s) (fun _ _ _ hs => hs.step)
      (hfresh.misfiled hr hown)
  obtain ⟨info, hentry, hother⟩ := hmis.entry
  exact absurd (hvalid _ hentry).1 hother

/-- **The dependency map is valid**, and a call lists no path twice, where every record that is
taken is the one of the file it is taken for; from an empty cache it is valid only there. -/
theorem dependency_map_valid (sha1 : Str → Str) (files : FileSystem) (call : CompilerCall)
    (cache : IncludesCache) (fuel : ℕ) :
    (OwnRecords sha1 files call.dirs call.inputSrcFile cache →
      (∀ b u, parseSourceFileIncludes sha1 files call.dirs fuel call.inputSrcFile
          call.dirs.dashInclude ⟨cache, [], []⟩ = some (b, u) → ValidMap files u)
        ∧ ∀ r, call.collectSrcFileDependencies sha1 files fuel cache = some r →
          (r.1.map (·.filePath)).Nodup)
      ∧ ∀ b u, parseSourceFileIncludes sha1 files call.dirs fuel call.inputSrcFile
          call.dirs.dashInclude ⟨.empty, [], []⟩ = some (b, u) →
        (ValidMap files u ↔ OwnRecords sha1 files call.dirs call.inputSrcFile .empty) := by
  refine ⟨fun hown => ⟨fun b u h => (hown.validMap h).1, fun r hr => ?_⟩, fun b u h =>
    ⟨fun hvalid => hvalid.ownRecords h, fun hown => (hown.validMap h).1⟩⟩
  obtain ⟨⟨b, u⟩, hparse, rfl⟩ := Option.map_eq_some_iff.mp hr
  obtain ⟨hvalid, hnodup⟩ := hown.validMap hparse
  cases b with
  | false => exact List.nodup_nil
  | true =>
    have hkeys : (u.incDirectives.map Prod.snd).map (·.filePath)
        = u.incDirectives.map Prod.fst := by
      rw [List.map_map]
      exact List.map_congr_left fun e he => (hvalid e he).1
    simpa only [if_true, hkeys] using hnodup

/-! ### The same header twice -/

/-- These directories have `a.h`, which the source includes. -/
def headerTree (source : Str) (dirs : List Str) : Tree :=
  (str "/s/m.c", .file source) :: dirs.map fun dir => (join dir (str "a.h"), .file [])

/-- `/s/m.c` includes `<a.h>` twice. -/
def twiceTree (dirs : List Str) : Tree := headerTree (str "#include <a.h>\n#include <a.h>\n") dirs

/-- `/s/m.c` includes `"/i2/a.h"`, and then `<a.h>` twice. -/
def quotedTree (dirs : List Str) : Tree :=
  headerTree (str "#include \x22/i2/a.h\x22\n#include <a.h>\n#include <a.h>\n") dirs

/-- A call for it, with `-isystem /i1 -isystem /i2`. -/
def twiceCall : CompilerCall where
  inputSrcFile := str "/s/m.c"
  cmdLineIncludeDirs := ⟨[], [str "/i1", str "/i2"], [], []⟩
  systemIncludeDirs := ⟨[], [], [], []⟩

/-- Two calls for the source that includes `"/i2/a.h"` first: the second takes the record of its
path, and nothing is under `a.h`. -/
theorem dependency_map_valid_quoted :
    ∃ cache, runFrom (collectStep headerSha1 (quotedTree [str "/i2"]) 3) [twiceCall] .empty
        = some cache
      ∧ (∀ b u, parseSourceFileIncludes headerSha1 (quotedTree [str "/i2"]) twiceCall.dirs 3
          twiceCall.inputSrcFile twiceCall.dirs.dashInclude ⟨cache, [], []⟩ = some (b, u) →
        ValidMap (quotedTree [str "/i2"]) u)
      ∧ ∀ r, twiceCall.collectSrcFileDependencies headerSha1 (quotedTree [str "/i2"]) 3 cache
          = some r → (r.1.map (·.filePath)).Nodup := by
  have hrun : (runFrom (collectStep headerSha1 (quotedTree [str "/i2"]) 3) [twiceCall] .empty).map
      (fun cache =>
        checkAlong (handle headerSha1 (quotedTree [str "/i2"]) twiceCall.dirs (str "/s/m.c"))
        (fun o s => decide (∀ r ∈ taken (quotedTree [str "/i2"]) twiceCall.dirs (str "/s/m.c") o s,
          r.2.filePath = r.1 ∧ (quotedTree [str "/i2"]).files.isFile r.1 = true)) 4
        (rootOccurrences twiceCall.dirs
          (str "#include \x22/i2/a.h\x22\n#include <a.h>\n#include <a.h>\n"))
        ⟨cache, [], [str "/s/m.c"]⟩) = some true := by
    decide +kernel
  obtain ⟨cache, hcache, hcheck⟩ := Option.map_eq_some_iff.mp hrun
  have hsrc : (quotedTree [str "/i2"]).files.read (str "/s/m.c")
      = some (str "#include \x22/i2/a.h\x22\n#include <a.h>\n#include <a.h>\n") := by decide +kernel
  exact ⟨cache, hcache,
    (dependency_map_valid headerSha1 (quotedTree [str "/i2"]) twiceCall cache 3).1
    fun o s h => of_decide_eq_true (h.of_checkAlong hsrc hcheck)⟩

/-- It is in the second directory: its record is there for `/i1/a.h` too, which is no file. -/
theorem second_directory_twice :
    ¬ ∀ (sha1 : Str → Str) (files : FileSystem) (call : CompilerCall) (fuel : ℕ),
      (∀ b u, parseSourceFileIncludes sha1 files call.dirs fuel call.inputSrcFile
          call.dirs.dashInclude ⟨.empty, [], []⟩ = some (b, u) →
        ∀ e ∈ u.incDirectives, e.2.filePath = e.1 ∧ files.isFile e.1 = true)
        ∧ ∀ r, call.collectSrcFileDependencies sha1 files fuel .empty = some r →
          (r.1.map (·.filePath)).Nodup := by
  intro h
  have hrun : ((twiceCall.collectSrcFileDependencies headerSha1 (twiceTree [str "/i2"]) 3
      .empty).map fun r => r.1.map (·.filePath)) = some [str "/i2/a.h", str "/i2/a.h"] := by
    decide +kernel
  obtain ⟨r, hr, hpaths⟩ := Option.map_eq_some_iff.mp hrun
  have hnodup := (h headerSha1 (twiceTree [str "/i2"]) twiceCall 3).2 r hr
  rw [hpaths] at hnodup
  exact absurd hnodup (by decide)

end DistBuild
