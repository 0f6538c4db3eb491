import DistBuild.Includes.CacheNames

/-!
# Includes/Closure — a call collects the headers of its source

    opened  ├── its directives: done, or still on the worklist ──┤

Where no record of another header is taken out of the cache, a call that starts from an empty cache
collects exactly the headers the source includes (`dependency_closure`): a directive that is done
has its header among the found ones, for a found path holds a file and is then the first that does.
-/

namespace DistBuild

open SourceFileParser

variable {sha1 : Str → Str} {files : FileSystem} {dirs : CmdLineIncludeDirs} {src : Str}
  {o o' : Occurrence} {l : List Occurrence} {s u : SourceFileParser} {path content : Str}

/-- **Every record the call takes out of the cache is the one of the header that the directive
stands for.** -/
def OwnHeaders (sha1 : Str → Str) (files : FileSystem) (dirs : CmdLineIncludeDirs) (src : Str)
    (cache : IncludesCache) : Prop :=
  ∀ o s, Processes sha1 files dirs src cache o s → ∀ r ∈ taken files dirs src o s,
    r.2.filePath = r.1 ∧ o.target files dirs src = some r.1

/-- Nothing is cached that was not found, what was found was opened, and the header of every
directive of an opened file was found, or the directive is next. -/
structure Complete (files : FileSystem) (dirs : CmdLineIncludeDirs) (src : Str)
    (l : List Occurrence) (s : SourceFileParser) : Prop where
  met : ∀ o ∈ l, Met files dirs src o
  entries : ValidMap files s
  fresh : ∀ name info, s.includesCache.includeCacheData name = some info → s.Contains info.filePath
  opened : ∃ headers, s.opened = src :: headers ∧ ∀ q, s.Contains q → q ∈ headers
  closed : ∀ o ∈ occurrences o.place (directivesAt files dirs src o.place),
    (∀ header, o.place = some header → s.Contains header) →
      o ∈ l ∨ ∀ path, o.target files dirs src = some path → s.Contains path

/-- A directive is done once its header was found. -/
theorem Complete.done {s' : SourceFileParser} (h : Complete files dirs src (o :: l) s)
    (hentries : ValidMap files s') (hcache : s'.includesCache = s.includesCache)
    (hopened : s'.opened = s.opened) (hcon : ∀ q, s'.Contains q ↔ s.Contains q)
    (htarget : ∀ q, o.target files dirs src = some q → s.Contains q) :
    Complete files dirs src l s' where
  met := fun o' ho' => h.met o' (List.mem_cons_of_mem _ ho')
  entries := hentries
  fresh := fun name info hinfo => (hcon _).mpr (h.fresh name info (hcache ▸ hinfo))
  opened := by
    obtain ⟨headers, hh, hmem⟩ := h.opened
    exact ⟨headers, hopened.trans hh, fun q hq => hmem q ((hcon q).mp hq)⟩
  closed := fun o' ho' hplace => by
    rcases h.closed o' ho' fun header hh => (hcon header).mp (hplace header hh) with hmem | hdone
    · rcases List.mem_cons.mp hmem with rfl | hmem
      · exact Or.inr fun q hq => (hcon q).mpr (htarget q hq)
      · exact Or.inl hmem
    · exact Or.inr fun q hq => (hcon q).mpr (hdone q hq)

/-- A directive is done once its header was opened, and those of the header are next. -/
theorem Complete.opens (h : Complete files dirs src (o :: l) s)
    (hmet : ∀ o' ∈ occurrences (some path) (findFileIncludes content) ++ l, Met files dirs src o')
    (hentries : ValidMap files (s.openHeader sha1 dirs o.directive path content))
    (htarget : o.target files dirs src = some path)
    (hnode : files.node path = some (.file content)) :
    Complete files dirs src (occurrences (some path) (findFileIncludes content) ++ l)
      (s.openHeader sha1 dirs o.directive path content) where
  met := hmet
  entries := hentries
  fresh := fun name info hinfo => by
    rw [contains_openHeader_iff]
    rcases openHeader_data hinfo with ⟨-, -, rfl⟩ | hinfo
    · exact Or.inl rfl
    · exact Or.inr (h.fresh name info hinfo)
  opened := by
    obtain ⟨headers, hh, hmem⟩ := h.opened
    refine ⟨headers ++ [path], by rw [opened_openHeader, hh, List.cons_append], fun q hq => ?_⟩
    rcases contains_openHeader_iff.mp hq with rfl | hq
    · exact List.mem_append_right _ (List.mem_singleton_self q)
    · exact List.mem_append_left _ (hmem q hq)
  closed := fun o' ho' hplace => by
    by_cases hnew : o'.place = some path
    · rw [hnew, directivesAt, hnode] at ho'
      exact Or.inl (List.mem_append_left _ ho')
    · have hold : ∀ header, o'.place = some header → s.Contains header := fun header hh =>
        (contains_openHeader_iff.mp (hplace header hh)).resolve_left fun heq => hnew (heq ▸ hh)
      rcases h.closed o' ho' hold with hmem | hdone
      · rcases List.mem_cons.mp hmem with rfl | hmem
        · refine Or.inr fun q hq => contains_openHeader_iff.mpr (Or.inl ?_)
          exact Option.some.inj (hq.symm.trans htarget)
        · exact Or.inl (List.mem_append_right _ hmem)
      · exact Or.inr fun q hq => contains_openHeader_iff.mpr (Or.inr (hdone q hq))

/-- **One step keeps the traversal complete**, if the record it takes is the one of its header. -/
theorem Complete.step
    (hown : ∀ r ∈ taken files dirs src o s, r.2.filePath = r.1 ∧ o.target files dirs src = some r.1)
    (h : Complete files dirs src (o :: l) s) :
    Complete files dirs src ((handle sha1 files dirs src o s).1 ++ l)
      (handle sha1 files dirs src o s).2 := by
  have hmet : ∀ o' ∈ (handle sha1 files dirs src o s).1 ++ l, Met files dirs src o' :=
    forall_met_handle h.met
  have hentries : ValidMap files (handle sha1 files dirs src o s).2 :=
    h.entries.step fun r hr => ⟨(hown r hr).1, isFile_of_resolved (hown r hr).2⟩
  generalize hnext : handle sha1 files dirs src o s = next at hmet hentries ⊢
  cases hnext ▸ handle_cases o s with
  | unresolved hnone =>
    refine h.done hentries rfl rfl (fun _ => Iff.rfl) fun q hq => ?_
    cases hnone.symm.trans hq
  | @found path hpath hc =>
    refine h.done hentries rfl rfl (fun _ => Iff.rfl) fun q hq => ?_
    obtain ⟨e, he, rfl⟩ := List.mem_map.mp hc
    obtain rfl := Option.some.inj ((find?_of_mem_upTo hpath (h.entries e he).2).symm.trans hq)
    exact hc
  | @taken path info htaken =>
    obtain ⟨hfile, htarget⟩ := hown _ htaken
    obtain ⟨name, hinfo⟩ := exists_data_of_taken htaken
    have hc : s.Contains path := (show info.filePath = path from hfile) ▸ h.fresh name info hinfo
    refine h.done hentries rfl rfl (fun q => contains_assign_iff.trans (or_iff_right_of_imp ?_))
      fun q hq => ?_
    · rintro rfl
      exact hc
    · obtain rfl := Option.some.inj (htarget.symm.trans hq)
      exact hc
  | opened htarget _ hnode => exact h.opens hmet hentries htarget hnode

theorem Complete.start (hsrc : files.read src = some content) :
    Complete files dirs src (rootOccurrences dirs content) ⟨.empty, [], [src]⟩ where
  met := fun _ => met_rootOccurrences hsrc
  entries := fun e he => by cases he
  fresh := fun _ _ hinfo => by cases hinfo
  opened := ⟨[], rfl, fun q hq => hq⟩
  closed := fun o ho hplace => by
    cases hp : o.place with
    | none =>
      rw [hp, directivesAt, hsrc] at ho
      exact Or.inl ho
    | some header =>
      obtain ⟨e, he, -⟩ := List.mem_map.mp (hplace header hp)
      cases he

/-- When the worklist is empty, the header of every directive of a found header was found. -/
theorem Complete.contains_resolved (h : Complete files dirs src [] s) {place : Option Str}
    (hplace : ∀ header, place = some header → s.Contains header) {d : IncludeDirective}
    (hd : d ∈ directivesAt files dirs src place)
    (hq : resolvedHeader files dirs (place.getD src) d = some path) : s.Contains path := by
  obtain ⟨o, ho, rfl, rfl⟩ := exists_mem_occurrences place hd
  exact (h.closed o ho hplace).resolve_left List.not_mem_nil path hq

/-- Then every header of the source was found. -/
theorem Complete.contains (h : Complete files dirs src [] s) (hi : Included files dirs src path) :
    s.Contains path := by
  induction hi with
  | source hd hq => exact h.contains_resolved (fun _ hh => by cases hh) hd hq
  | header _ hd hq ih =>
    refine h.contains_resolved (fun header hh => ?_) hd hq
    obtain rfl := Option.some.inj hh
    exact ih

/-- A call from an empty cache that takes no record of another header ends complete. -/
theorem Complete.of_finishes (hown : OwnHeaders sha1 files dirs src .empty)
    (hsrc : files.read src = some content)
    (hrun : Finishes (handle sha1 files dirs src) (rootOccurrences dirs content)
      ⟨.empty, [], [src]⟩ u) : Complete files dirs src [] u :=
  hrun.comesTo.invariant (I := Complete files dirs src) (.start hsrc) fun o l s hcomes hs =>
    hs.step (hown o s ⟨content, l, hsrc, hcomes⟩)

/-- **The dependency closure**: a call with an empty cache collects headers of its source only, and,
where it takes no record of another header out of the cache, all of them. -/
theorem dependency_closure (sha1 : Str → Str) (files : FileSystem) (dirs : CmdLineIncludeDirs)
    (src : Str) (hsrc : files.isFile src = true) {fuel : ℕ} {b : Bool} {u : SourceFileParser}
    (h : parseSourceFileIncludes sha1 files dirs fuel src dirs.dashInclude ⟨.empty, [], []⟩
      = some (b, u)) :
    (∀ path, (∃ e ∈ u.incDirectives, e.2.filePath = path) → Included files dirs src path)
      ∧ (OwnHeaders sha1 files dirs src .empty →
        ∀ path, (∃ e ∈ u.incDirectives, e.2.filePath = path) ↔ Included files dirs src path) := by
  obtain ⟨content, hnode⟩ := FileSystem.isFile_iff.mp hsrc
  have hread : files.read src = some content := by rw [FileSystem.read, hnode]
  obtain ⟨-, hrun⟩ := (exists_parse_iff hread).mp ⟨fuel, h⟩
  have hsound : ∀ path, (∃ e ∈ u.incDirectives, e.2.filePath = path) →
      Included files dirs src path := by
    rintro path ⟨e, he, rfl⟩
    exact collected_included hread hrun e he
  refine ⟨hsound, fun hown path => ⟨hsound path, fun hpath => ?_⟩⟩
  have hend : Complete files dirs src [] u := .of_finishes hown hread hrun
  obtain ⟨e, he, rfl⟩ := List.mem_map.mp (hend.contains hpath)
  exact ⟨e, he, (hend.entries e he).1⟩

/-- A run of the call checks what it takes. -/
theorem ownHeaders_of_checkAlong {cache : IncludesCache} (content : Str) (fuel : ℕ)
    (hsrc : files.read src = some content)
    (hcheck : checkAlong (handle sha1 files dirs src)
      (fun o s => decide (∀ r ∈ taken files dirs src o s,
        r.2.filePath = r.1 ∧ o.target files dirs src = some r.1)) fuel
      (rootOccurrences dirs content) ⟨cache, [], [src]⟩ = true) :
    OwnHeaders sha1 files dirs src cache :=
  fun _ _ h => of_decide_eq_true (h.of_checkAlong hsrc hcheck)

/-! ### A header that is taken for another one -/

/-- `/s/m.c` includes `"/i2/a.h"`, and then `<a.h>` twice: nothing is cached under `a.h`. -/
theorem dependency_closure_quoted :
    ∃ b u, parseSourceFileIncludes headerSha1 (quotedTree [str "/i2"]) twiceCall.dirs 3
        twiceCall.inputSrcFile twiceCall.dirs.dashInclude ⟨.empty, [], []⟩ = some (b, u)
      ∧ ∀ path, (∃ e ∈ u.incDirectives, e.2.filePath = path)
        ↔ Included (quotedTree [str "/i2"]) twiceCall.dirs twiceCall.inputSrcFile path := by
  have hsome : (parseSourceFileIncludes headerSha1 (quotedTree [str "/i2"]) twiceCall.dirs 3
      twiceCall.inputSrcFile twiceCall.dirs.dashInclude ⟨.empty, [], []⟩).isSome = true := by
    decide +kernel
  obtain ⟨⟨b, u⟩, h⟩ := Option.isSome_iff_exists.mp hsome
  exact ⟨b, u, h, (dependency_closure headerSha1 (quotedTree [str "/i2"]) twiceCall.dirs
    twiceCall.inputSrcFile (by decide +kernel) h).2
      (ownHeaders_of_checkAlong (str "#include \x22/i2/a.h\x22\n#include <a.h>\n#include <a.h>\n") 4
        (by decide +kernel) (by decide +kernel))⟩

/-- SHA-1 on the headers below. -/
def shadowSha1 (content : Str) : Str :=
  if content = str "#include \x22a.h\x22\n" then
    [0x18, 0x3b, 0xe6, 0xc2, 0xd9, 0x13, 0x8c, 0x74, 0x99, 0x47,
      0x3c, 0x85, 0x52, 0xfb, 0xeb, 0x53, 0xd3, 0xdd, 0x63, 0xb9]
  else headerSha1 content

/-- `/s/m.c` includes `<a.h>` of `/i2` twice, and `<b.h>` of `/i1`, which includes `"a.h"` of
`/q`. -/
def shadowTree : Tree :=
  [(str "/s/m.c", .file (str "#include <a.h>\n#include <a.h>\n#include <b.h>\n")),
    (str "/i2/a.h", .file []), (str "/i1/b.h", .file (str "#include \x22a.h\x22\n")),
    (str "/q/a.h", .file [])]

def shadowDirs : CmdLineIncludeDirs := ⟨[], [str "/i1", str "/i2"], [str "/q"], []⟩

theorem included_shadow : Included shadowTree shadowDirs (str "/s/m.c") (str "/q/a.h") := by
  have hb : Included shadowTree shadowDirs (str "/s/m.c") (str "/i1/b.h") :=
    .source (d := ⟨str "b.h", .angle⟩) (by decide +kernel) (by decide +kernel)
  exact .header (d := ⟨str "a.h", .quote⟩) hb (by decide +kernel) (by decide +kernel)

/-- The record of `/i2/a.h` is there for `/i1/a.h` too, so the search for `"a.h"` ends there. -/
theorem shadow_misses_header :
    ¬ ∀ (sha1 : Str → Str) (files : FileSystem) (dirs : CmdLineIncludeDirs) (src : Str) (fuel : ℕ)
      (b : Bool) (u : SourceFileParser), files.isFile src = true →
      parseSourceFileIncludes sha1 files dirs fuel src dirs.dashInclude ⟨.empty, [], []⟩
        = some (b, u) →
      ∀ path, (∃ e ∈ u.incDirectives, e.2.filePath = path) ↔ Included files dirs src path := by
  intro h
  have hrun : (parseSourceFileIncludes shadowSha1 shadowTree shadowDirs 5 (str "/s/m.c")
      shadowDirs.dashInclude ⟨.empty, [], []⟩).map (fun r => r.2.incDirectives.map (·.2.filePath))
      = some [str "/i1/b.h", str "/i2/a.h", str "/i2/a.h"] := by decide +kernel
  obtain ⟨⟨b, u⟩, hr, hpaths⟩ := Option.map_eq_some_iff.mp hrun
  obtain ⟨e, he, hpath⟩ := (h shadowSha1 shadowTree shadowDirs (str "/s/m.c") 5 b u
    (by decide +kernel) hr _).mpr included_shadow
  have hmem : e.2.filePath ∈ u.incDirectives.map (·.2.filePath) := List.mem_map_of_mem he
  rw [hpath, hpaths] at hmem
  exact absurd hmem (by decide)

end DistBuild
