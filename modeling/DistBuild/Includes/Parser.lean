import DistBuild.Includes.Directives
import DistBuild.Machinery.Loops

/-!
# Includes/Parser — collecting the headers of a source file, through a shared cache

    _process_include_directive ──▸ _try_resolve_header(path), path by path
               ▴                              │
               └──── each child directive ◂───┘

The cache is keyed by the text of an angle directive, and by the path a quote directive is found at.
The recursion carries a fuel.
-/

namespace DistBuild

/-- `IncludesCache`. -/
structure IncludesCache where
  includeAbsPaths : Str → Option Str
  includeCacheData : Str → Option IncludeInfo

namespace IncludesCache

def empty : IncludesCache where
  includeAbsPaths := fun _ => none
  includeCacheData := fun _ => none

def addIncludeEntry (c : IncludesCache) (includeName includeAbsPath : Str)
    (includeInfo : IncludeInfo) : IncludesCache where
  includeAbsPaths := Function.update c.includeAbsPaths includeName (some includeAbsPath)
  includeCacheData := Function.update c.includeCacheData includeName (some includeInfo)

end IncludesCache

/-- `SourceFileParser`: the cache it shares, and `_inc_directives`; `opened` is a ghost, the files
the directives of which it has gone through, in order. -/
structure SourceFileParser where
  includesCache : IncludesCache
  incDirectives : List (Str × IncludeInfo)
  opened : List Str

namespace SourceFileParser

/-- `_inc_directives.contains(path)`. -/
def Contains (s : SourceFileParser) (path : Str) : Prop := path ∈ s.incDirectives.map Prod.fst

instance (s : SourceFileParser) (path : Str) : Decidable (s.Contains path) := by
  unfold Contains
  infer_instance

/-- `_inc_directives[path] = info`. -/
def assign (s : SourceFileParser) (path : Str) (info : IncludeInfo) : SourceFileParser :=
  { s with incDirectives := (path, info) :: s.incDirectives.filter fun e => e.1 ≠ path }

theorem contains_assign (s : SourceFileParser) (path : Str) (info : IncludeInfo) :
    (s.assign path info).Contains path := List.mem_cons_self

theorem Contains.assign {s : SourceFileParser} {q : Str} (h : s.Contains q) (path : Str)
    (info : IncludeInfo) : (s.assign path info).Contains q := by
  obtain ⟨e, he, rfl⟩ := List.mem_map.mp h
  by_cases hq : e.1 = path
  · exact hq ▸ s.contains_assign path info
  · refine List.mem_cons_of_mem _ (List.mem_map_of_mem (List.mem_filter.mpr ⟨he, ?_⟩))
    simpa using hq

/-- The directives of `path` are next. -/
def enter (s : SourceFileParser) (path : Str) : SourceFileParser :=
  { s with opened := s.opened ++ [path] }

@[simp] theorem contains_enter (s : SourceFileParser) (path q : Str) :
    (s.enter path).Contains q ↔ s.Contains q := Iff.rfl

/-- The name under which the cache keeps a header that `d` was found at. -/
def cacheKey (d : IncludeDirective) (headerAbsPath : Str) : Str :=
  match d.incType with
  | .angle => d.incContent
  | .quote => headerAbsPath

/-- What an angle directive finds in the cache before any search. -/
def cachedInclude (s : SourceFileParser) (d : IncludeDirective) : Option (Str × IncludeInfo) :=
  match d.incType with
  | .angle =>
    (s.includesCache.includeAbsPaths d.incContent).bind fun path =>
      (s.includesCache.includeCacheData path).map fun info => (path, info)
  | .quote => none

/-- A header that was read is put into the cache, if it is a system header. -/
def store (s : SourceFileParser) (dirs : CmdLineIncludeDirs) (d : IncludeDirective)
    (headerAbsPath : Str) (info : IncludeInfo) : SourceFileParser :=
  if requiresIncStorage headerAbsPath dirs then
    { s with
      includesCache :=
        s.includesCache.addIncludeEntry (cacheKey d headerAbsPath) headerAbsPath info }
  else s

variable (sha1 : Str → Str) (files : FileSystem) (dirs : CmdLineIncludeDirs)

/-- `_try_resolve_header`, where `process` is `_process_include_directive`. -/
def tryResolveHeader
    (process : Str → IncludeDirective → SourceFileParser → Option (Bool × SourceFileParser))
    (headerAbsPath : Str) (d : IncludeDirective) (s : SourceFileParser) :
    Option (Bool × SourceFileParser) :=
  if s.Contains headerAbsPath then some (true, s)
  else
    match s.includesCache.includeCacheData (cacheKey d headerAbsPath) with
    | some info => some (true, s.assign headerAbsPath info)
    | none =>
      match files.node headerAbsPath with
      | none => some (false, s)
      | some .directory => some (false, s)
      | some (.file content) =>
        let info := headerInfo sha1 headerAbsPath content
        (runFrom (fun child s => (process headerAbsPath child s).map Prod.snd) info.childIncludes
          (((s.store dirs d headerAbsPath info).assign headerAbsPath info).enter headerAbsPath)).map
          fun s => (true, s)

def processIncludeDirective :
    ℕ → Str → IncludeDirective → SourceFileParser → Option (Bool × SourceFileParser)
  | 0 => fun _ _ _ => none
  | fuel + 1 => fun parentSrcAbsPath d s =>
    match s.cachedInclude d with
    | some (path, info) => some (true, s.assign path info)
    | none =>
      firstOf
        (fun path s => tryResolveHeader sha1 files dirs (processIncludeDirective fuel) path d s)
        (headerPaths dirs parentSrcAbsPath d) s

/-- `parse_source_file_includes`: the directives of the command line are angle directives. -/
def parseSourceFileIncludes (fuel : ℕ) (cppAbsPath : Str) (cmdLineIncludes : List Str)
    (s : SourceFileParser) : Option (Bool × SourceFileParser) :=
  match files.read cppAbsPath with
  | none => some (false, s)
  | some content =>
    (runFrom (fun d s => (processIncludeDirective sha1 files dirs fuel cppAbsPath d s).map Prod.snd)
      (cmdLineIncludes.map (fun name => ⟨name, .angle⟩) ++ findFileIncludes content)
      (s.enter cppAbsPath)).map fun s => (true, s)

end SourceFileParser

/-- A call of `collect_src_file_dependencies`: the members of its `CompilerCall`, and its
argument. -/
structure CompilerCall where
  inputSrcFile : Str
  cmdLineIncludeDirs : CmdLineIncludeDirs
  systemIncludeDirs : CmdLineIncludeDirs
deriving DecidableEq, Repr

/-- The directories the call searches. -/
def CompilerCall.dirs (call : CompilerCall) : CmdLineIncludeDirs :=
  call.cmdLineIncludeDirs.appendIncludeDirs call.systemIncludeDirs

/-- `collect_src_file_dependencies`, and the cache it leaves. -/
def CompilerCall.collectSrcFileDependencies (sha1 : Str → Str) (files : FileSystem) (fuel : ℕ)
    (call : CompilerCall) (cache : IncludesCache) : Option (List IncludeInfo × IncludesCache) :=
  (SourceFileParser.parseSourceFileIncludes sha1 files call.dirs fuel call.inputSrcFile
    call.dirs.dashInclude ⟨cache, [], []⟩).map fun r =>
      if r.1 then (r.2.incDirectives.map Prod.snd, r.2.includesCache) else ([], r.2.includesCache)

end DistBuild
