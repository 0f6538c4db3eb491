import DistBuild.Includes.CacheNames

/-!
# Includes/Digests — the digests a call declares, and the files they are of

    collect   /i/a.h ↦ 1st content        cache  a.h ↦ its digest
    edit      /i/a.h ↦ 2nd content        cache  a.h ↦ the digest of the 1st
    collect   <a.h>  ──cache──▸ the digest of the 1st content

A record that was put into the cache stays there, and a call that finds it does not open the file.
A call declares the digests of the current files if every record the cache has under a name it looks
up is of the current content (`FreshCall`), so in every run of which the calls are so, and in every
run that edits no cached header (`digests_current`).
-/

namespace DistBuild

open SourceFileParser

/-- The record has the size and the digest of what the file holds. -/
def Describes (sha1 : Str → Str) (files : FileSystem) (info : IncludeInfo) : Prop :=
  match files.node info.filePath with
  | some (.file content) =>
    info.includeSzBytes = UInt64.ofNat content.length ∧ info.includeHash = sha1 content
  | _ => False

instance (sha1 : Str → Str) (files : FileSystem) (info : IncludeInfo) :
    Decidable (Describes sha1 files info) := by
  unfold Describes
  split <;> infer_instance

section

variable (files : FileSystem) (dirs : CmdLineIncludeDirs) (src : Str) (cache : IncludesCache)

/-- The names the occurrence looks up in the cache, each with the path it takes the record for: for
an angle directive its text, with the first path it is tried at, and the path that the cache has for
its text; for a quote directive every path it is tried at. -/
def lookups (o : Occurrence) : List (Str × Str) :=
  match o.directive.incType with
  | .angle =>
    (o.paths dirs src).head?.toList.map (o.directive.incContent, ·)
      ++ ((o.target files dirs src).toList
        ++ (cache.includeAbsPaths o.directive.incContent).toList).map
        fun path => (path, path)
  | .quote => (upTo files.isFile (o.paths dirs src)).map fun path => (path, path)

end

/-- Every record the cache has under a name that a directive of the call looks up is of the current
content of its file. -/
def FreshCall (sha1 : Str → Str) (files : FileSystem) (call : CompilerCall)
    (cache : IncludesCache) : Prop :=
  ∀ o name path info, Met files call.dirs call.inputSrcFile o →
    (name, path) ∈ lookups files call.dirs call.inputSrcFile cache o →
    cache.includeCacheData name = some info → Describes sha1 files info

/-- With a list of all headers it is a check of their directives. -/
theorem freshCall_of_closed {sha1 : Str → Str} {files : FileSystem} {call : CompilerCall}
    {cache : IncludesCache} (headers : List Str)
    (hclosed : ∀ o ∈ occurrencesIn files call.dirs call.inputSrcFile headers,
      ∀ path ∈ o.target files call.dirs call.inputSrcFile, path ∈ headers)
    (hfresh : ∀ o ∈ occurrencesIn files call.dirs call.inputSrcFile headers,
      ∀ e ∈ lookups files call.dirs call.inputSrcFile cache o,
        ∀ info ∈ cache.includeCacheData e.1, Describes sha1 files info) :
    FreshCall sha1 files call cache :=
  fun o name path info ho hlooks hinfo =>
    hfresh o (ho.mem_occurrencesIn hclosed) (name, path) hlooks info hinfo

/-! ## One call -/

variable {sha1 : Str → Str} {files : FileSystem} {dirs : CmdLineIncludeDirs} {src : Str}
  {cache : IncludesCache} {o o' : Occurrence} {l : List Occurrence} {s : SourceFileParser}

section

variable {path : Str}

theorem mem_lookups_first (hty : o.directive.incType = .angle)
    (h : (o.paths dirs src).head? = some path) :
    (o.directive.incContent, path) ∈ lookups files dirs src cache o := by
  rw [lookups, hty, h]
  exact List.mem_cons_self

theorem mem_lookups_path (hty : o.directive.incType = .angle)
    (h : o.target files dirs src = some path
      ∨ cache.includeAbsPaths o.directive.incContent = some path) :
    (path, path) ∈ lookups files dirs src cache o := by
  rw [lookups, hty]
  refine List.mem_append_right _ (List.mem_map_of_mem (List.mem_append.mpr ?_))
  exact h.imp Option.mem_toList.mpr Option.mem_toList.mpr

/-- What a tried path is looked up under is looked up for that path. -/
theorem mem_lookups_cacheKey (hpath : path ∈ upTo files.isFile (o.paths dirs src))
    (hfirst : o.directive.incType = .angle → (o.paths dirs src).head? = some path) :
    (cacheKey o.directive path, path) ∈ lookups files dirs src cache o := by
  cases hty : o.directive.incType with
  | angle =>
    rw [cacheKey, hty]
    exact mem_lookups_first hty (hfirst hty)
  | quote =>
    rw [cacheKey, lookups, hty]
    exact List.mem_map_of_mem hpath

end

/-- Where headers are cached there is a system directory, so an angle directive is tried
somewhere. -/
theorem head?_paths_isSome {path : Str} (h : requiresIncStorage path dirs = true)
    (o : Occurrence) : (o.paths dirs src).head?.isSome = true := by
  have hne : dirs.dashIsystem ≠ [] := by
    rintro hnil
    unfold requiresIncStorage at h
    rw [hnil] at h
    split at h <;> cases h
  have : o.paths dirs src ≠ [] := by
    unfold Occurrence.paths headerPaths
    simp [hne]
  rwa [List.isSome_head?]

/-- The header of an angle directive does not depend on where it stands. -/
theorem target_eq_of_angle (hty : o.directive.incType = .angle) (h : o.directive = o'.directive) :
    o.target files dirs src = o'.target files dirs src := by
  have hty' : o'.directive.incType = .angle := h ▸ hty
  unfold Occurrence.target resolvedHeader headerPaths
  rw [hty, hty', h]

/-- **Every record is of the current files**, and so is what a directive can look up. -/
structure Truthful (sha1 : Str → Str) (files : FileSystem) (dirs : CmdLineIncludeDirs) (src : Str)
    (cache : IncludesCache) (l : List Occurrence) (s : SourceFileParser) : Prop where
  met : ∀ o ∈ l, Met files dirs src o
  entries : ∀ e ∈ s.incDirectives, Describes sha1 files e.2
  data : ∀ o, Met files dirs src o → ∀ name path, (name, path) ∈ lookups files dirs src cache o →
    ∀ info, s.includesCache.includeCacheData name = some info → Describes sha1 files info
  absPaths : ∀ o, Met files dirs src o → o.directive.incType = .angle → ∀ path,
    s.includesCache.includeAbsPaths o.directive.incContent = some path →
      ∃ path', (path, path') ∈ lookups files dirs src cache o

theorem describes_headerInfo {path content : Str} (h : files.node path = some (.file content)) :
    Describes sha1 files (headerInfo sha1 path content) := by
  unfold Describes
  rw [show (headerInfo sha1 path content).filePath = path from rfl, h]
  exact ⟨rfl, rfl⟩

theorem Truthful.assign {path : Str} {info : IncludeInfo}
    (h : Truthful sha1 files dirs src cache (o :: l) s) (hinfo : Describes sha1 files info) :
    Truthful sha1 files dirs src cache l (s.assign path info) :=
  { h with
    met := fun o' ho' => h.met o' (List.mem_cons_of_mem _ ho')
    entries := fun e he => by
      rcases mem_assign he with rfl | he
      · exact hinfo
      · exact h.entries e he }

/-- **One step declares the current content**, of a cached record as of a header that is opened: the
key of an angle directive is its text, and every angle directive with it finds the same header. -/
theorem Truthful.step (h : Truthful sha1 files dirs src cache (o :: l) s) :
    Truthful sha1 files dirs src cache ((handle sha1 files dirs src o s).1 ++ l)
      (handle sha1 files dirs src o s).2 := by
  have ho := h.met o List.mem_cons_self
  have hmet : ∀ o' ∈ (handle sha1 files dirs src o s).1 ++ l, Met files dirs src o' :=
    forall_met_handle h.met
  generalize hnext : handle sha1 files dirs src o s = next at hmet ⊢
  cases hnext ▸ handle_cases o s with
  | found _ _ => exact { h with met := hmet }
  | unresolved _ => exact { h with met := hmet }
  | @taken path info htaken =>
    rcases taken_cases htaken with ⟨hty, habs, hdata⟩ | ⟨hpath, hfirst, -, hdata⟩
    · obtain ⟨path', hlooks⟩ := h.absPaths o ho hty path habs
      exact h.assign (h.data o ho path path' hlooks info hdata)
    · exact h.assign (h.data o ho _ path (mem_lookups_cacheKey hpath hfirst) info hdata)
  | @opened path content htarget hc hnode =>
    refine ⟨hmet, fun e he => ?_, ?_, ?_⟩
    · rcases mem_openHeader he with rfl | he
      · exact describes_headerInfo hnode
      · exact h.entries e he
    · intro o' ho' name path' hlooks info hinfo
      rcases openHeader_data hinfo with ⟨-, -, rfl⟩ | hinfo
      · exact describes_headerInfo hnode
      · exact h.data o' ho' name path' hlooks info hinfo
    · intro o' ho' hty' path' habs
      rcases openHeader_absPaths habs with ⟨hstore, hname, rfl⟩ | habs
      · cases hty : o.directive.incType with
        | angle =>
          have heq : o.directive = o'.directive := by
            rw [cacheKey, hty] at hname
            cases hd : o.directive
            cases hd' : o'.directive
            simp_all
          exact ⟨_, mem_lookups_path hty' (Or.inl (target_eq_of_angle hty heq ▸ htarget))⟩
        | quote =>
          obtain ⟨first, hfirst⟩ := Option.isSome_iff_exists.mp (head?_paths_isSome hstore o')
          rw [cacheKey, hty] at hname
          have hkey : o'.directive.incContent = path' := hname
          exact ⟨first, hkey ▸ mem_lookups_first hty' hfirst⟩
      · exact h.absPaths o' ho' hty' path' habs

/-- **A call from a fresh cache declares the current files.** -/
theorem FreshCall.describes {call : CompilerCall} (h : FreshCall sha1 files call cache) {fuel : ℕ}
    {r : List IncludeInfo × IncludesCache}
    (hr : call.collectSrcFileDependencies sha1 files fuel cache = some r) :
    ∀ info ∈ r.1, Describes sha1 files info := by
  obtain ⟨⟨b, u⟩, hparse, rfl⟩ := Option.map_eq_some_iff.mp hr
  cases b with
  | false => exact fun _ hinfo => by cases hinfo
  | true =>
    cases hsrc : files.read call.inputSrcFile with
    | none =>
      rw [parseSourceFileIncludes, hsrc] at hparse
      cases hparse
    | some content =>
      obtain ⟨-, hrun⟩ := (exists_parse_iff hsrc).mp ⟨fuel, hparse⟩
      have hend := hrun.invariant
        (I := Truthful sha1 files call.dirs call.inputSrcFile cache) (fun _ _ _ hs => hs.step)
        ⟨fun _ => met_rootOccurrences hsrc, fun _ he => (by cases he),
          fun o ho name path hlooks info hinfo => h o name path info ho hlooks hinfo,
          fun _ _ hty path habs => ⟨path, mem_lookups_path hty (Or.inr habs)⟩⟩
      intro info hinfo
      obtain ⟨e, he, rfl⟩ := List.mem_map.mp hinfo
      exact hend.entries e he

/-! ## Runs of the daemon -/

/-- The files of the machine, and the cache the calls share. -/
structure DaemonState where
  files : FileSystem
  includesCache : IncludesCache

inductive DaemonAction
  | edit (files : FileSystem)
  | collect (call : CompilerCall) (fuel : ℕ)

def daemonStep (sha1 : Str → Str) : DaemonAction → DaemonState → Option DaemonState
  | .edit files, d => some { d with files := files }
  | .collect call fuel, d =>
    (call.collectSrcFileDependencies sha1 d.files fuel d.includesCache).map fun r =>
      { d with includesCache := r.2 }

/-- The condition on the steps: what a call looks up in the cache is of the current files. -/
def FreshStep (sha1 : Str → Str) : DaemonAction → DaemonState → Prop
  | .edit _, _ => True
  | .collect call _, d => FreshCall sha1 d.files call d.includesCache

/-! ## Edits that spare the cached headers -/

/-- Every record in the cache is of the current content of its file. -/
def CacheCurrent (sha1 : Str → Str) (d : DaemonState) : Prop :=
  ∀ name info, d.includesCache.includeCacheData name = some info → Describes sha1 d.files info

/-- An edit leaves the files with a record in the cache as the record has them. -/
def SparesCached (sha1 : Str → Str) : DaemonAction → DaemonState → Prop
  | .edit files, d => ∀ name info, d.includesCache.includeCacheData name = some info →
      Describes sha1 d.files info → Describes sha1 files info
  | .collect _ _, _ => True

/-- What a step of a traversal puts into the cache is of the current files. -/
theorem handle_cacheCurrent
    (h : ∀ name info, s.includesCache.includeCacheData name = some info →
      Describes sha1 files info) :
    ∀ name info, (handle sha1 files dirs src o s).2.includesCache.includeCacheData name
      = some info →
      Describes sha1 files info := by
  generalize hnext : handle sha1 files dirs src o s = next
  cases hnext ▸ handle_cases o s with
  | taken _ => exact h
  | found _ _ => exact h
  | unresolved _ => exact h
  | opened _ _ hnode =>
    intro name info hinfo
    rcases openHeader_data hinfo with ⟨-, -, rfl⟩ | hinfo
    · exact describes_headerInfo hnode
    · exact h name info hinfo

theorem CacheCurrent.step {a : DaemonAction} {d d' : DaemonState} (hspares : SparesCached sha1 a d)
    (hs : daemonStep sha1 a d = some d') (h : CacheCurrent sha1 d) : CacheCurrent sha1 d' := by
  cases a with
  | edit files =>
    cases hs
    exact fun name info hinfo => hspares name info hinfo (h name info hinfo)
  | collect call fuel =>
    obtain ⟨r, hr, rfl⟩ := Option.map_eq_some_iff.mp hs
    obtain ⟨⟨b, u⟩, hparse, rfl⟩ := Option.map_eq_some_iff.mp hr
    have hcache : ∀ name info, u.includesCache.includeCacheData name = some info →
        Describes sha1 d.files info := by
      cases hsrc : d.files.read call.inputSrcFile with
      | none =>
        rw [parseSourceFileIncludes, hsrc] at hparse
        cases hparse
        exact h
      | some content =>
        obtain ⟨-, hrun⟩ := (exists_parse_iff hsrc).mp ⟨fuel, hparse⟩
        exact hrun.invariant (I := fun _ (s : SourceFileParser) => ∀ name info,
          s.includesCache.includeCacheData name = some info → Describes sha1 d.files info)
          (fun _ _ _ => handle_cacheCurrent) h
    cases b <;> exact hcache

/-- **Digests describe the current files**: in every run of edits and calls from an empty cache,
every call declares the size and the digest that its files have at the call, if no edit changes a
file that has a record in the cache; and also where calls look up no record that an edit has left
behind. -/
theorem digests_current (sha1 : Str → Str) (files : FileSystem) {as : List DaemonAction}
    {call : CompilerCall} {fuel : ℕ} {d : DaemonState}
    (hr : runFrom (daemonStep sha1) as ⟨files, .empty⟩ = some d)
    {r : List IncludeInfo × IncludesCache}
    (hcollect : call.collectSrcFileDependencies sha1 d.files fuel d.includesCache = some r) :
    (Meets (daemonStep sha1) (SparesCached sha1) as ⟨files, .empty⟩ →
        ∀ info ∈ r.1, Describes sha1 d.files info)
      ∧ (Meets (daemonStep sha1) (FreshStep sha1) (as ++ [.collect call fuel]) ⟨files, .empty⟩ →
        ∀ info ∈ r.1, Describes sha1 d.files info) := by
  constructor
  · intro hm
    have hcurrent : CacheCurrent sha1 d := hm.invariant
      (fun _ _ _ hg hs hc => CacheCurrent.step hg hs hc) hr fun _ _ hinfo => by cases hinfo
    exact FreshCall.describes (fun _ name _ info _ _ hinfo => hcurrent name info hinfo) hcollect
  · intro hm
    have hfresh : FreshStep sha1 (.collect call fuel) d := (hm.split hr).2
    exact FreshCall.describes hfresh hcollect

/-- Adding a file spares every record. -/
theorem sparesCached_cons {tree : Tree} {path : Str} {node : Node} (hnew : tree.lookup path = none)
    (cache : IncludesCache) :
    SparesCached sha1 (.edit (Tree.files ((path, node) :: tree))) ⟨tree, cache⟩ := by
  intro name info _ h
  unfold Describes at h ⊢
  have hne : info.filePath ≠ path := by
    rintro rfl
    simp only [Tree.node_files, hnew] at h
  rw [Tree.node_files, List.lookup_cons, beq_false_of_ne hne]
  exact h

/-! ### A system header that is edited -/

/-- `/s/m.c` includes `<a.h>`, which `/i` has. -/
def editTree (header : Str) : Tree :=
  [(str "/s/m.c", .file (str "#include <a.h>\n")), (str "/i/a.h", .file header)]

/-- The tree after another source was added. -/
def addedSource : Tree := (str "/s/n.c", .file (str "#include <a.h>\n")) :: editTree []

/-- A source is added after a call that has cached the header, and it includes that header. -/
theorem digests_current_source_added :
    ∃ d r, runFrom (daemonStep headerSha1)
        [.collect (sampleCall (str "/s/m.c")) 3, .edit addedSource] ⟨editTree [], .empty⟩ = some d
      ∧ (sampleCall (str "/s/n.c")).collectSrcFileDependencies headerSha1 d.files 3 d.includesCache
        = some r
      ∧ (∀ info ∈ r.1, Describes headerSha1 d.files info)
      ∧ ∀ info ∈ r.1, Describes headerSha1 d.files info := by
  have hrun : ((sampleCall (str "/s/m.c")).collectSrcFileDependencies headerSha1 (editTree []) 3
      .empty).bind (fun first =>
        ((sampleCall (str "/s/n.c")).collectSrcFileDependencies headerSha1 addedSource 3
          first.2).map fun _ => decide
            (∀ o ∈ occurrencesIn addedSource (sampleCall (str "/s/n.c")).dirs (str "/s/n.c")
                [str "/i/a.h"],
              ∀ e ∈ lookups addedSource (sampleCall (str "/s/n.c")).dirs (str "/s/n.c") first.2 o,
                ∀ info ∈ first.2.includeCacheData e.1, Describes headerSha1 addedSource info))
      = some true := by
    decide +kernel
  obtain ⟨first, hfirst, hrest⟩ := Option.bind_eq_some_iff.mp hrun
  obtain ⟨r, hr, hfresh⟩ := Option.map_eq_some_iff.mp hrest
  have hcollect : daemonStep headerSha1 (.collect (sampleCall (str "/s/m.c")) 3)
      ⟨editTree [], .empty⟩ = some ⟨editTree [], first.2⟩ := by
    rw [daemonStep, hfirst, Option.map_some]
  have hsteps : runFrom (daemonStep headerSha1)
      [.collect (sampleCall (str "/s/m.c")) 3, .edit addedSource] ⟨editTree [], .empty⟩
      = some ⟨addedSource, first.2⟩ := runFrom_cons.mpr ⟨_, hcollect, rfl⟩
  have hspares : Meets (daemonStep headerSha1) (SparesCached headerSha1)
      [.collect (sampleCall (str "/s/m.c")) 3, .edit addedSource] ⟨editTree [], .empty⟩ := by
    refine ⟨trivial, ?_⟩
    rw [hcollect]
    exact ⟨sparesCached_cons (by decide +kernel) first.2, trivial⟩
  have hclosed : ∀ o ∈ occurrencesIn addedSource (sampleCall (str "/s/n.c")).dirs (str "/s/n.c")
      [str "/i/a.h"], ∀ path ∈ o.target addedSource (sampleCall (str "/s/n.c")).dirs (str "/s/n.c"),
        path ∈ [str "/i/a.h"] := by decide +kernel
  have hmeets : Meets (daemonStep headerSha1) (FreshStep headerSha1)
      ([.collect (sampleCall (str "/s/m.c")) 3, .edit addedSource]
        ++ [.collect (sampleCall (str "/s/n.c")) 3]) ⟨editTree [], .empty⟩ := by
    refine ⟨fun _ _ _ _ _ _ hinfo => (by cases hinfo), ?_⟩
    rw [hcollect]
    refine ⟨trivial, freshCall_of_closed [str "/i/a.h"] hclosed (of_decide_eq_true hfresh), ?_⟩
    cases daemonStep headerSha1 (.collect (sampleCall (str "/s/n.c")) 3) _ <;> trivial
  obtain ⟨hspared, hlooked⟩ := digests_current headerSha1 (editTree []) hsteps hr
  exact ⟨⟨addedSource, first.2⟩, r, hsteps, hr, hspared hspares, hlooked hmeets⟩

/-- A call after an edit of the header declares the old digest. -/
theorem edited_header_declared_old :
    ¬ ∀ (sha1 : Str → Str) (files : FileSystem) (as : List DaemonAction) (call : CompilerCall)
      (fuel : ℕ) (d : DaemonState) (r : List IncludeInfo × IncludesCache),
      runFrom (daemonStep sha1) as ⟨files, .empty⟩ = some d →
      call.collectSrcFileDependencies sha1 d.files fuel d.includesCache = some r →
      ∀ info ∈ r.1, Describes sha1 d.files info := by
  intro h
  have hrun : ((runFrom (daemonStep headerSha1) [.collect (sampleCall (str "/s/m.c")) 3,
      .edit (Tree.files (editTree (str "#include <b.h>\n")))] ⟨editTree [], .empty⟩).bind fun d =>
        ((sampleCall (str "/s/m.c")).collectSrcFileDependencies headerSha1 d.files 3
          d.includesCache).map fun r => decide (∀ info ∈ r.1, Describes headerSha1 d.files info))
      = some false := by
    decide +kernel
  obtain ⟨d, hd, hrest⟩ := Option.bind_eq_some_iff.mp hrun
  obtain ⟨r, hr, hfalse⟩ := Option.map_eq_some_iff.mp hrest
  exact of_decide_eq_false hfalse (h headerSha1 _ _ _ 3 d r hd hr)

end DistBuild
