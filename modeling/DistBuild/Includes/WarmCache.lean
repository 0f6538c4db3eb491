import DistBuild.Includes.Traversal

/-!
# Includes/WarmCache — what earlier calls leave in the cache

    cold    <a.h> ─search▸ /i/a.h ─open▸ its directives ─▸ …
    warm    <a.h> ─cache─▸ /i/a.h

A hit skips the search, which may have other directories now, and the directives of the header, so
the headers below it are missing.  A call collects what it collects with an empty cache, if wherever
a record of an earlier call answers one of its directives nothing is skipped (`warm_cache_agrees`):
the warm parser runs in lockstep with the cold one (`Warmed.step`).
-/

namespace DistBuild

open SourceFileParser

/-- The set of paths a call returns. -/
def collectedPaths (r : List IncludeInfo × IncludesCache) : Set Str :=
  {path | path ∈ r.1.map (·.filePath)}

/-- A call, as a step of the cache. -/
def collectStep (sha1 : Str → Str) (tree : Tree) (fuel : ℕ) (call : CompilerCall)
    (cache : IncludesCache) : Option IncludesCache :=
  (call.collectSrcFileDependencies sha1 tree fuel cache).map Prod.snd

/-! ## One cache above another -/

namespace IncludesCache

/-- What a call looks up that has put `own` into the cache, where earlier calls left `earlier`. -/
def above (own earlier : IncludesCache) : IncludesCache where
  includeAbsPaths name := (own.includeAbsPaths name).or (earlier.includeAbsPaths name)
  includeCacheData name := (own.includeCacheData name).or (earlier.includeCacheData name)

/-- The path the cache has for a name is the one of the record it has for it. -/
def Keyed (cache : IncludesCache) : Prop :=
  ∀ name, cache.includeAbsPaths name = (cache.includeCacheData name).map (·.filePath)

theorem keyed_empty : empty.Keyed := fun _ => rfl

theorem Keyed.above {own earlier : IncludesCache} (h : own.Keyed) (h' : earlier.Keyed) :
    (own.above earlier).Keyed := by
  intro name
  simp only [IncludesCache.above, h name, h' name]
  cases own.includeCacheData name <;> rfl

theorem Keyed.addIncludeEntry {cache : IncludesCache} (h : cache.Keyed) (name : Str)
    (info : IncludeInfo) : (cache.addIncludeEntry name info.filePath info).Keyed := by
  intro k
  by_cases hk : k = name
  · simp [IncludesCache.addIncludeEntry, hk]
  · simp [IncludesCache.addIncludeEntry, hk, h k]

end IncludesCache

namespace SourceFileParser

/-- The parser, with what earlier calls left beneath its cache. -/
def above (s : SourceFileParser) (earlier : IncludesCache) : SourceFileParser :=
  { s with includesCache := s.includesCache.above earlier }

variable {sha1 : Str → Str} {files : FileSystem} {dirs : CmdLineIncludeDirs} {src : Str}
  {earlier : IncludesCache} {o : Occurrence} {s t c w : SourceFileParser}

theorem keyed_openHeader (h : s.includesCache.Keyed) (d : IncludeDirective) (path content : Str) :
    (s.openHeader sha1 dirs d path content).includesCache.Keyed := by
  change (s.store dirs d path (headerInfo sha1 path content)).includesCache.Keyed
  unfold store
  split
  · exact h.addIncludeEntry (cacheKey d path) (headerInfo sha1 path content)
  · exact h

theorem keyed_handle (h : s.includesCache.Keyed) :
    (handle sha1 files dirs src o s).2.includesCache.Keyed := by
  generalize hnext : handle sha1 files dirs src o s = next
  cases hnext ▸ handle_cases o s with
  | taken _ => exact h
  | found _ _ => exact h
  | unresolved _ => exact h
  | opened _ _ _ => exact keyed_openHeader h _ _ _

/-- The paths of an entry: the one it is under, and the one of its record. -/
def entryPaths (e : Str × IncludeInfo) : Str × Str := (e.1, e.2.filePath)

/-- The header has been collected, under its own path. -/
def Collected (s : SourceFileParser) (path : Str) : Prop :=
  s.Contains path ∧ ∀ e ∈ s.incDirectives.map entryPaths, e.1 = path → e.2 = path

instance (s : SourceFileParser) (path : Str) : Decidable (s.Collected path) := by
  unfold Collected
  infer_instance

/-- Parsers that agree in the paths are answered alike, up to the rest of the record. -/
theorem taken_congr (hcon : ∀ q, s.Contains q ↔ t.Contains q)
    (hpaths : ∀ name, s.includesCache.includeAbsPaths name = t.includesCache.includeAbsPaths name)
    (hdata : ∀ name, (s.includesCache.includeCacheData name).map (·.filePath)
      = (t.includesCache.includeCacheData name).map (·.filePath)) :
    (taken files dirs src o s).map entryPaths = (taken files dirs src o t).map entryPaths := by
  have hcached : (s.cachedInclude o.directive).map entryPaths
      = (t.cachedInclude o.directive).map entryPaths := by
    unfold cachedInclude
    cases o.directive.incType with
    | quote => rfl
    | angle =>
      dsimp only
      rw [hpaths]
      cases t.includesCache.includeAbsPaths o.directive.incContent with
      | none => rfl
      | some path =>
        have := congrArg (Option.map fun q => (path, q)) (hdata path)
        simpa only [Option.bind_some, Option.map_map, Function.comp_def, entryPaths] using this
  have htried : ∀ paths, (triedRecord files o.directive s paths).map entryPaths
      = (triedRecord files o.directive t paths).map entryPaths := by
    intro paths
    induction paths with
    | nil => rfl
    | cons path paths ih =>
      unfold triedRecord
      by_cases hc : s.Contains path
      · rw [if_pos hc, if_pos ((hcon path).mp hc)]
      rw [if_neg hc, if_neg fun hc' => hc ((hcon path).mpr hc')]
      have hpath := hdata (cacheKey o.directive path)
      cases hs : s.includesCache.includeCacheData (cacheKey o.directive path) with
      | some info =>
        rw [hs] at hpath
        obtain ⟨info', ht, heq⟩ := Option.map_eq_some_iff.mp hpath.symm
        simp only [ht, Option.map_some, entryPaths, heq]
      | none =>
        rw [hs] at hpath
        rw [Option.map_eq_none_iff.mp hpath.symm]
        cases files.node path with
        | none => exact ih
        | some node =>
          cases node with
          | directory => exact ih
          | file content => rfl
  unfold taken
  rw [Option.map_or, Option.map_or, hcached, htried]

theorem newHeader_congr (hcon : ∀ q, s.Contains q ↔ t.Contains q) (paths : List Str) :
    newHeader files s paths = newHeader files t paths := by
  induction paths with
  | nil => rfl
  | cons path paths ih => simp only [newHeader, hcon path, ih]

/-! ## The warm parser and the cold one -/

section

variable (files dirs src)

/-- **Nothing is skipped at the directive**: with what earlier calls left beneath the cache it is
answered as without, or with the own record of a header: of the one that it opens without, if that
has no directives, and where it opens none, of one that has been collected. -/
def SkipsNothing (earlier : IncludesCache) (o : Occurrence) (s : SourceFileParser) : Prop :=
  taken files dirs src o (s.above earlier) = taken files dirs src o s
    ∨ taken files dirs src o s = none
      ∧ ∃ r ∈ taken files dirs src o (s.above earlier), r.2.filePath = r.1
        ∧ ((∃ e ∈ newHeader files s (headerPaths dirs (o.parent src) o.directive),
            e.1 = r.1 ∧ findFileIncludes e.2 = [])
          ∨ newHeader files s (headerPaths dirs (o.parent src) o.directive) = none
            ∧ s.Collected r.1)

instance (earlier : IncludesCache) (o : Occurrence) (s : SourceFileParser) :
    Decidable (SkipsNothing files dirs src earlier o s) := by
  unfold SkipsNothing
  infer_instance

end

/-- **The warm parser has found what the cold one has**, and its cache is the cold one's above that
of the earlier calls; both up to what the records say beside their paths. -/
structure Warmed (earlier : IncludesCache) (c w : SourceFileParser) : Prop where
  found : ∀ e, e ∈ w.incDirectives.map entryPaths ↔ e ∈ c.incDirectives.map entryPaths
  paths : ∀ name, w.includesCache.includeAbsPaths name
    = (c.above earlier).includesCache.includeAbsPaths name
  keyed : w.includesCache.Keyed
  keyed_cold : c.includesCache.Keyed

theorem contains_iff_exists_entryPaths {q : Str} :
    s.Contains q ↔ ∃ e ∈ s.incDirectives.map entryPaths, e.1 = q := by
  simp [Contains, entryPaths]

theorem Warmed.contains_iff (h : Warmed earlier c w) (q : Str) : c.Contains q ↔ w.Contains q := by
  simp only [contains_iff_exists_entryPaths, h.found]

/-- What an assignment leaves: the others, and the new entry. -/
theorem mem_entryPaths_assign {path : Str} {info : IncludeInfo} {e : Str × Str} :
    e ∈ (s.assign path info).incDirectives.map entryPaths
      ↔ e = (path, info.filePath) ∨ e ∈ s.incDirectives.map entryPaths ∧ e.1 ≠ path := by
  have hfilter : (s.incDirectives.filter fun e => e.1 ≠ path).map entryPaths
      = (s.incDirectives.map entryPaths).filter fun e => e.1 ≠ path := by
    rw [List.filter_map]
    rfl
  rw [assign, List.map_cons, hfilter, List.mem_cons, List.mem_filter, decide_eq_true_iff]
  rfl

/-- Both have assigned a record of the same path. -/
theorem Warmed.assign (h : Warmed earlier c w) {path : Str} {info info' : IncludeInfo}
    (heq : info'.filePath = info.filePath) :
    Warmed earlier (c.assign path info) (w.assign path info') :=
  { h with
    found := fun e => by rw [mem_entryPaths_assign, mem_entryPaths_assign, h.found, heq] }

/-- The warm parser has assigned the record of a header that has been collected. -/
theorem Warmed.assign_collected (h : Warmed earlier c w) {path : Str} {info : IncludeInfo}
    (hinfo : info.filePath = path) (hc : c.Collected path) :
    Warmed earlier c (w.assign path info) :=
  { h with
    found := fun e => by
      obtain ⟨hmem, hown⟩ := hc
      obtain ⟨e', he', hkey⟩ := contains_iff_exists_entryPaths.mp hmem
      rw [mem_entryPaths_assign, h.found, hinfo]
      constructor
      · rintro (rfl | ⟨he, -⟩)
        · have heq : e' = (path, path) := Prod.ext hkey (hown e' he' hkey)
          exact heq ▸ he'
        · exact he
      · intro he
        by_cases hpath : e.1 = path
        · exact Or.inl (Prod.ext hpath (hown e he hpath))
        · exact Or.inr ⟨he, hpath⟩ }

theorem absPaths_openHeader (s : SourceFileParser) (d : IncludeDirective)
    (path content name : Str) :
    (s.openHeader sha1 dirs d path content).includesCache.includeAbsPaths name
      = if requiresIncStorage path dirs = true ∧ name = cacheKey d path then some path
        else s.includesCache.includeAbsPaths name := by
  change (s.store dirs d path (headerInfo sha1 path content)).includesCache.includeAbsPaths name = _
  unfold store
  by_cases hstore : requiresIncStorage path dirs = true
  · rw [if_pos hstore]
    by_cases hname : name = cacheKey d path
    · simp [IncludesCache.addIncludeEntry, hstore, hname]
    · simp [IncludesCache.addIncludeEntry, hname]
  · simp [hstore]

theorem mem_entryPaths_openHeader {d : IncludeDirective} {path content : Str} {e : Str × Str} :
    e ∈ (s.openHeader sha1 dirs d path content).incDirectives.map entryPaths
      ↔ e = (path, path) ∨ e ∈ s.incDirectives.map entryPaths ∧ e.1 ≠ path := by
  rw [← store_incDirectives s dirs d path (headerInfo sha1 path content)]
  exact mem_entryPaths_assign

/-- Both have opened the same header. -/
theorem Warmed.openHeader (h : Warmed earlier c w) (d : IncludeDirective) (path content : Str) :
    Warmed earlier (c.openHeader sha1 dirs d path content)
      (w.openHeader sha1 dirs d path content) where
  found e := by rw [mem_entryPaths_openHeader, mem_entryPaths_openHeader, h.found]
  paths name := by
    have hpaths : w.includesCache.includeAbsPaths name
      = (c.includesCache.includeAbsPaths name).or (earlier.includeAbsPaths name) := h.paths name
    change _ = Option.or _ _
    rw [absPaths_openHeader, absPaths_openHeader]
    split
    · rfl
    · exact hpaths
  keyed := keyed_openHeader h.keyed _ _ _
  keyed_cold := keyed_openHeader h.keyed_cold _ _ _

/-- The cold parser has opened a header, the warm one has taken its record. -/
theorem Warmed.open_assign (h : Warmed earlier c w) {d : IncludeDirective} {path content : Str}
    {info : IncludeInfo} (hinfo : info.filePath = path)
    (hkey : w.includesCache.includeAbsPaths (cacheKey d path) = some path) :
    Warmed earlier (c.openHeader sha1 dirs d path content) (w.assign path info) where
  found e := by rw [mem_entryPaths_openHeader, mem_entryPaths_assign, h.found, hinfo]
  paths name := by
    have hpaths : w.includesCache.includeAbsPaths name
      = (c.includesCache.includeAbsPaths name).or (earlier.includeAbsPaths name) := h.paths name
    change w.includesCache.includeAbsPaths name = Option.or _ _
    rw [absPaths_openHeader]
    split_ifs with hname
    · rw [hname.2]
      exact hkey
    · exact hpaths
  keyed := h.keyed
  keyed_cold := keyed_openHeader h.keyed_cold _ _ _

/-- The warm parser is answered as the cold one with the earlier calls' cache beneath its own. -/
theorem Warmed.taken_eq (hearlier : earlier.Keyed) (h : Warmed earlier c w) :
    (taken files dirs src o w).map entryPaths
      = (taken files dirs src o (c.above earlier)).map entryPaths := by
  refine taken_congr (t := c.above earlier)
    (fun q => (h.contains_iff q).symm) h.paths fun name => ?_
  rw [← h.keyed name, h.paths name]
  exact h.keyed_cold.above hearlier name

/-- A record that is taken for its own path is under the key that its header would get. -/
theorem absPaths_of_taken (hs : s.includesCache.Keyed) {r : Str × IncludeInfo}
    (h : taken files dirs src o s = some r) (hown : r.2.filePath = r.1) :
    s.includesCache.includeAbsPaths (cacheKey o.directive r.1) = some r.1 := by
  obtain ⟨path, info⟩ := r
  rcases taken_cases h with ⟨hty, habs, -⟩ | ⟨-, -, -, hdata⟩
  · rw [cacheKey, hty]
    exact habs
  · rw [hs, hdata]
    exact congrArg some hown

/-- **One directive, warm and cold**: both parsers go on with the same directives. -/
theorem Warmed.step (hearlier : earlier.Keyed) (hskips : SkipsNothing files dirs src earlier o c)
    (h : Warmed earlier c w) :
    (handle sha1 files dirs src o w).1 = (handle sha1 files dirs src o c).1
      ∧ Warmed earlier (handle sha1 files dirs src o c).2 (handle sha1 files dirs src o w).2 := by
  have htaken : (taken files dirs src o w).map entryPaths
      = (taken files dirs src o (c.above earlier)).map entryPaths := h.taken_eq hearlier
  have hnew : newHeader files c (headerPaths dirs (o.parent src) o.directive)
      = newHeader files w (headerPaths dirs (o.parent src) o.directive) :=
    newHeader_congr h.contains_iff _
  rw [handle_eq, handle_eq]
  rcases hskips with hsame | ⟨hcold, r, hr, hown, hheader⟩
  · rw [hsame] at htaken
    cases hc : taken files dirs src o c with
    | some r =>
      rw [hc] at htaken
      obtain ⟨r', hr', heq⟩ := Option.map_eq_some_iff.mp htaken
      obtain ⟨hfst, hsnd⟩ := Prod.ext_iff.mp heq
      rw [hr']
      refine ⟨rfl, ?_⟩
      have : r'.1 = r.1 := hfst
      simp only [Option.elim_some, this]
      exact h.assign hsnd
    | none =>
      rw [hc] at htaken
      rw [Option.map_eq_none_iff.mp htaken, ← hnew]
      cases newHeader files c (headerPaths dirs (o.parent src) o.directive) with
      | none => exact ⟨rfl, h⟩
      | some e => exact ⟨rfl, h.openHeader ..⟩
  · rw [Option.mem_def] at hr
    rw [hr] at htaken
    obtain ⟨r', hr', heq⟩ := Option.map_eq_some_iff.mp htaken
    obtain ⟨hfst, hsnd⟩ := Prod.ext_iff.mp heq
    have hfst' : r'.1 = r.1 := hfst
    have hown' : r'.2.filePath = r'.1 := (hsnd.trans hown).trans hfst.symm
    rw [hr', hcold]
    rcases hheader with ⟨e, he, hpath, hleaf⟩ | ⟨hnone, hcollected⟩
    · have hpath' : r'.1 = e.1 := hfst'.trans hpath.symm
      rw [Option.mem_def.mp he]
      simp only [Option.elim_some, Option.elim_none, hleaf, hpath']
      refine ⟨rfl, h.open_assign (hown'.trans hpath') ?_⟩
      rw [← hpath']
      exact absPaths_of_taken h.keyed hr' hown'
    · rw [hnone]
      exact ⟨rfl, h.assign_collected hown' (hfst' ▸ hcollected)⟩

end SourceFileParser

variable {sha1 : Str → Str} {tree : Tree} {fuel : ℕ}

/-- What calls leave has the path of each record. -/
theorem keyed_of_collect {call : CompilerCall} {cache : IncludesCache} (h : cache.Keyed)
    {r : List IncludeInfo × IncludesCache}
    (hr : call.collectSrcFileDependencies sha1 tree fuel cache = some r) : r.2.Keyed := by
  obtain ⟨⟨b, u⟩, hparse, rfl⟩ := Option.map_eq_some_iff.mp hr
  have hu : u.includesCache.Keyed := by
    cases hsrc : tree.files.read call.inputSrcFile with
    | none =>
      rw [parseSourceFileIncludes, hsrc] at hparse
      cases hparse
      exact h
    | some content =>
      obtain ⟨-, hrun⟩ := (exists_parse_iff hsrc).mp ⟨fuel, hparse⟩
      exact hrun.invariant (I := fun _ (s : SourceFileParser) => s.includesCache.Keyed)
        (fun _ _ _ => keyed_handle) h
  cases b <;> exact hu

theorem keyed_of_calls {calls : List CompilerCall} {cache : IncludesCache}
    (h : runFrom (collectStep sha1 tree fuel) calls .empty = some cache) : cache.Keyed :=
  runFrom_invariant (fun _ _ _ hs hk => by
    obtain ⟨r, hr, rfl⟩ := Option.map_eq_some_iff.mp hs
    exact keyed_of_collect hk hr) h IncludesCache.keyed_empty

/-- **A warm cache agrees with a cold one**: after any calls, a call collects what it collects with
an empty cache, if nothing is skipped at the directives that it comes to. -/
theorem warm_cache_agrees (hf : tree.length < fuel) {calls : List CompilerCall}
    {cache : IncludesCache}
    (hcalls : runFrom (collectStep sha1 tree fuel) calls .empty = some cache)
    {call : CompilerCall}
    (h : ∀ o s, Processes sha1 tree call.dirs call.inputSrcFile .empty o s →
      SkipsNothing tree call.dirs call.inputSrcFile cache o s) :
    ∃ warm cold, call.collectSrcFileDependencies sha1 tree fuel cache = some warm
      ∧ call.collectSrcFileDependencies sha1 tree fuel .empty = some cold
      ∧ collectedPaths warm = collectedPaths cold := by
  obtain ⟨cold, hcold, -⟩ := call.collect_returns sha1 hf hf .empty
  obtain ⟨warm, hwarm, -⟩ := call.collect_returns sha1 hf hf cache
  refine ⟨warm, cold, hwarm, hcold, ?_⟩
  obtain ⟨⟨b, c⟩, hparse, rfl⟩ := Option.map_eq_some_iff.mp hcold
  obtain ⟨⟨b', w⟩, hparse', rfl⟩ := Option.map_eq_some_iff.mp hwarm
  cases hsrc : tree.files.read call.inputSrcFile with
  | none =>
    rw [parseSourceFileIncludes, hsrc] at hparse hparse'
    cases hparse
    cases hparse'
    rfl
  | some content =>
    obtain ⟨rfl, hrun⟩ := (exists_parse_iff hsrc).mp ⟨fuel, hparse⟩
    obtain ⟨rfl, hrun'⟩ := (exists_parse_iff hsrc).mp ⟨fuel, hparse'⟩
    have hkeyed := keyed_of_calls hcalls
    have hstart : Warmed cache ⟨.empty, [], [call.inputSrcFile]⟩ ⟨cache, [], [call.inputSrcFile]⟩ :=
      ⟨fun _ => Iff.rfl, fun _ => rfl, hkeyed, IncludesCache.keyed_empty⟩
    obtain ⟨w', hw', hend⟩ := hrun.lockstep (fun o l s t hcomes hst =>
      hst.step hkeyed (h o s ⟨content, l, hsrc, hcomes⟩)) hstart
    obtain rfl : w' = w := hw'.unique hrun'
    have hpaths (s : SourceFileParser) (path : Str) :
        path ∈ (s.incDirectives.map Prod.snd).map (·.filePath)
          ↔ ∃ e ∈ s.incDirectives.map entryPaths, e.2 = path := by
      simp [entryPaths]
    ext path
    simp only [collectedPaths, if_true, Set.mem_ofPred_eq, hpaths, hend.found]

/-! ### A source twice, and after one that includes its headers -/

/-- SHA-1 on the headers below. -/
def headerSha1 (content : Str) : Str :=
  if content = str "#include <b.h>\n" then
    [0x2b, 0xf7, 0x87, 0xda, 0x87, 0x20, 0x89, 0xc8, 0x22, 0xf9,
      0x14, 0x96, 0x76, 0x52, 0xc8, 0xe3, 0xb3, 0xb1, 0x2b, 0x1b]
  else if content = [] then
    [0xda, 0x39, 0xa3, 0xee, 0x5e, 0x6b, 0x4b, 0x0d, 0x32, 0x55,
      0xbf, 0xef, 0x95, 0x60, 0x18, 0x90, 0xaf, 0xd8, 0x07, 0x09]
  else []

/-- `/s/m.c` includes `<a.h>` twice, which includes `<b.h>`; `/i/q.c` includes the same header as
`"a.h"`. -/
def sampleTree : Tree :=
  [(str "/s/m.c", .file (str "#include <a.h>\n#include <a.h>\n")),
    (str "/i/a.h", .file (str "#include <b.h>\n")), (str "/i/b.h", .file []),
    (str "/i/q.c", .file (str "#include \x22a.h\x22\n"))]

/-- A call for `src`, with `-isystem /i`. -/
def sampleCall (src : Str) : CompilerCall where
  inputSrcFile := src
  cmdLineIncludeDirs := ⟨[], [str "/i"], [], []⟩
  systemIncludeDirs := ⟨[], [], [], []⟩

/-- A call for `/s/m.c` after one for `/i/q.c`: `/i/a.h` is in the cache, but under `a.h` only once
the call has collected it, and `/i/b.h`, which is there under `b.h`, has no directives. -/
theorem otherSource_agrees :
    ∃ cache, runFrom (collectStep headerSha1 sampleTree 5) [sampleCall (str "/i/q.c")] .empty
        = some cache
      ∧ ∃ warm cold, (sampleCall (str "/s/m.c")).collectSrcFileDependencies headerSha1 sampleTree 5
          cache = some warm
        ∧ (sampleCall (str "/s/m.c")).collectSrcFileDependencies headerSha1 sampleTree 5 .empty
          = some cold
        ∧ collectedPaths warm = collectedPaths cold := by
  have hrun : (runFrom (collectStep headerSha1 sampleTree 5) [sampleCall (str "/i/q.c")] .empty).map
      (fun cache => checkAlong
        (handle headerSha1 sampleTree (sampleCall (str "/s/m.c")).dirs (str "/s/m.c"))
        (fun o s => decide
          (SkipsNothing sampleTree (sampleCall (str "/s/m.c")).dirs (str "/s/m.c") cache o s)) 4
        (rootOccurrences (sampleCall (str "/s/m.c")).dirs (str "#include <a.h>\n#include <a.h>\n"))
        ⟨.empty, [], [str "/s/m.c"]⟩) = some true := by
    decide +kernel
  obtain ⟨cache, hcache, hcheck⟩ := Option.map_eq_some_iff.mp hrun
  refine ⟨cache, hcache, warm_cache_agrees (by decide) hcache fun o s h => ?_⟩
  have hsrc : sampleTree.files.read (str "/s/m.c")
      = some (str "#include <a.h>\n#include <a.h>\n") := by
    decide +kernel
  exact of_decide_eq_true (h.of_checkAlong hsrc hcheck)

/-- A second call for `/s/m.c` misses `/i/b.h`. -/
theorem sameSource_misses_header :
    ¬ ∀ (tree : Tree) (calls : List CompilerCall) (call : CompilerCall) (cache : IncludesCache),
      runFrom (collectStep headerSha1 tree (tree.length + 1)) calls .empty = some cache →
      ∀ warm cold,
        call.collectSrcFileDependencies headerSha1 tree (tree.length + 1) cache = some warm →
        call.collectSrcFileDependencies headerSha1 tree (tree.length + 1) .empty = some cold →
        collectedPaths warm = collectedPaths cold := by
  intro h
  have hrun :
    ((runFrom (collectStep headerSha1 sampleTree 5) [sampleCall (str "/s/m.c")] .empty).bind
      fun cache =>
        ((sampleCall (str "/s/m.c")).collectSrcFileDependencies headerSha1 sampleTree 5 cache).bind
          fun warm =>
            ((sampleCall (str "/s/m.c")).collectSrcFileDependencies headerSha1 sampleTree 5
            .empty).map fun cold => decide (str "/i/b.h" ∉ warm.1.map (·.filePath)
              ∧ str "/i/b.h" ∈ cold.1.map (·.filePath))) = some true := by
    decide +kernel
  obtain ⟨cache, hr, hrest⟩ := Option.bind_eq_some_iff.mp hrun
  obtain ⟨warm, hwarm, hrest⟩ := Option.bind_eq_some_iff.mp hrest
  obtain ⟨cold, hcold, hdiff⟩ := Option.map_eq_some_iff.mp hrest
  obtain ⟨hmiss, hmem⟩ := of_decide_eq_true hdiff
  have heq :=
    h sampleTree [sampleCall (str "/s/m.c")] (sampleCall (str "/s/m.c")) cache hr warm cold
    hwarm hcold
  exact hmiss (show str "/i/b.h" ∈ collectedPaths warm from heq ▸ hmem)

end DistBuild
