import DistBuild.Includes.Closure
import DistBuild.Machinery.Lexical

/-!
# Includes/Spellings — a header that comes back under another name

    /s/a/x.h     "../b/y.h"  ──▸  /s/a/../b/y.h
                 "../a/x.h"  ──▸  /s/a/../b/../a/x.h  ──▸  …

`_inc_directives` knows a header by the path string it was found at, and every `..` makes a new one,
so two headers that include each other over `..` are opened for ever (`cycle_never_returns`).  A
traversal ends, and goes through each file once, if its directives reach every header under one name
only, and the source under none (`traversal_ends`); from an empty cache it ends so only then.
-/

namespace DistBuild

open SourceFileParser

/-! ## Path strings and files -/

/-- A file system on the files `ι`: which of them a path string names, and what they are. -/
structure FileTree (ι : Type) where
  resolve : Str → Option ι
  node : ι → Node

def FileTree.files {ι : Type} (tree : FileTree ι) : FileSystem :=
  ⟨fun path => (tree.resolve path).map tree.node⟩

/-- Directories and files by their components, and a working directory. -/
structure PosixTree where
  nodes : List (List Str × Node)
  workingDir : List Str

namespace PosixTree

/-- The root is a directory. -/
def isDirectory (tree : PosixTree) (dir : List Str) : Bool :=
  dir = [] ∨ tree.nodes.lookup dir = some .directory

/-- Where a path leads from `dir`; each of its components, an empty one too, is met in a
directory. -/
def resolveFrom (tree : PosixTree) : List Str → List Str → Option (List Str)
  | dir, [] => some dir
  | dir, c :: cs =>
    if tree.isDirectory dir then
      tree.resolveFrom (if c = [] then dir else descend dir c) cs
    else none

/-- The node a path string names, by its number. -/
def resolve (tree : PosixTree) (path : Str) : Option (Fin tree.nodes.length) :=
  (tree.resolveFrom (if isAbsolute path then [] else tree.workingDir) (path.splitOn slash)).bind
    fun cs => tree.nodes.findFinIdx? fun e => e.1 == cs

def fileTree (tree : PosixTree) : FileTree (Fin tree.nodes.length) where
  resolve := tree.resolve
  node i := (tree.nodes.get i).2

end PosixTree

/-! ## Ending -/

section

variable {ι : Type} (tree : FileTree ι) (dirs : CmdLineIncludeDirs) (src : Str)

/-- The call returns, and has gone through the directives of no file twice. -/
def EndsOnce (sha1 : Str → Str) (cache : IncludesCache) : Prop :=
  ∃ fuel b u, parseSourceFileIncludes sha1 tree.files dirs fuel src dirs.dashInclude ⟨cache, [], []⟩
      = some (b, u)
    ∧ (u.opened.map tree.resolve).Nodup

/-- **No file is reached under two names**: a header under one, the source as no header. -/
structure OneSpelling : Prop where
  header : ∀ p q, Included tree.files dirs src p → Included tree.files dirs src q →
    tree.resolve p = tree.resolve q → p = q
  source : ∀ p, Included tree.files dirs src p → tree.resolve p ≠ tree.resolve src

end

variable {ι : Type} {sha1 : Str → Str} {files : FileSystem} {tree : FileTree ι}
  {dirs : CmdLineIncludeDirs} {src : Str} {o : Occurrence} {l : List Occurrence}
  {s : SourceFileParser}

/-- Behind the source, different headers of it were opened, and all of them were found. -/
structure Opens (files : FileSystem) (dirs : CmdLineIncludeDirs) (src : Str) (l : List Occurrence)
    (s : SourceFileParser) : Prop where
  met : ∀ o ∈ l, Met files dirs src o
  opened : ∃ headers, s.opened = src :: headers ∧ headers.Nodup
    ∧ ∀ header ∈ headers, Included files dirs src header ∧ s.Contains header

theorem Opens.assign (h : Opens files dirs src (o :: l) s) (path : Str) (info : IncludeInfo) :
    Opens files dirs src l (s.assign path info) := by
  obtain ⟨headers, heq, hnodup, hall⟩ := h.opened
  exact ⟨fun o' ho' => h.met o' (List.mem_cons_of_mem _ ho'), headers, heq, hnodup,
    fun header hh => ⟨(hall header hh).1, (hall header hh).2.assign path info⟩⟩

/-- **One step opens nothing twice.** -/
theorem Opens.step (h : Opens files dirs src (o :: l) s) :
    Opens files dirs src ((handle sha1 files dirs src o s).1 ++ l)
      (handle sha1 files dirs src o s).2 := by
  have hmet : ∀ o' ∈ (handle sha1 files dirs src o s).1 ++ l, Met files dirs src o' :=
    forall_met_handle h.met
  generalize hnext : handle sha1 files dirs src o s = next at hmet ⊢
  cases hnext ▸ handle_cases o s with
  | taken _ => exact h.assign _ _
  | found _ _ => exact ⟨hmet, h.opened⟩
  | unresolved _ => exact ⟨hmet, h.opened⟩
  | @opened path content htarget hc _ =>
    obtain ⟨headers, heq, hnodup, hall⟩ := h.opened
    have hpath := (h.met o List.mem_cons_self).target_included htarget
    refine ⟨hmet, headers ++ [path], by rw [opened_openHeader, heq, List.cons_append], ?_, ?_⟩
    · refine List.Nodup.append hnodup (List.nodup_singleton path) fun header hh hp => hc ?_
      exact List.mem_singleton.mp hp ▸ (hall header hh).2
    · intro header hh
      rw [contains_openHeader_iff]
      rcases List.mem_append.mp hh with hh | hh
      · exact ⟨(hall header hh).1, Or.inr (hall header hh).2⟩
      · rw [List.mem_singleton.mp hh]
        exact ⟨hpath, Or.inl rfl⟩

/-- So no file was opened twice, if none has two names. -/
theorem Opens.nodup (hone : OneSpelling tree dirs src) (h : Opens tree.files dirs src l s) :
    (s.opened.map tree.resolve).Nodup := by
  obtain ⟨headers, heq, hnodup, hall⟩ := h.opened
  rw [heq, List.map_cons, List.nodup_cons]
  constructor
  · intro hmem
    obtain ⟨p, hp, heq'⟩ := List.mem_map.mp hmem
    exact hone.source p (hall p hp).1 heq'
  · exact hnodup.map_on fun p hp q hq => hone.header p q (hall p hp).1 (hall q hq).1

/-- The step adds items only by opening a header. -/
theorem handle_fst_eq_nil_or (o : Occurrence) (s : SourceFileParser) :
    (handle sha1 files dirs src o s).1 = []
        ∧ (handle sha1 files dirs src o s).2.opened = s.opened
      ∨ ∃ path, (handle sha1 files dirs src o s).2.opened = s.opened ++ [path] := by
  generalize hnext : handle sha1 files dirs src o s = next
  cases hnext ▸ handle_cases o s with
  | taken _ => exact Or.inl ⟨rfl, rfl⟩
  | found _ _ => exact Or.inl ⟨rfl, rfl⟩
  | unresolved _ => exact Or.inl ⟨rfl, rfl⟩
  | opened _ _ _ => exact Or.inr ⟨_, opened_openHeader s⟩

/-- **A traversal ends, and goes through each file once**, whatever is in the cache, if no file is
reached under two names: every header that is opened is one of finitely many. -/
theorem OneSpelling.endsOnce [Fintype ι] (hone : OneSpelling tree dirs src) (sha1 : Str → Str)
    (cache : IncludesCache) : EndsOnce tree dirs src sha1 cache := by
  cases hsrc : tree.files.read src with
  | none =>
    refine ⟨0, false, ⟨cache, [], []⟩, ?_, List.nodup_nil⟩
    rw [parseSourceFileIncludes, hsrc]
  | some content =>
    have hstart : Opens tree.files dirs src (rootOccurrences dirs content) ⟨cache, [], [src]⟩ :=
      ⟨fun _ => met_rootOccurrences hsrc, [], rfl, List.nodup_nil, fun _ hh => by cases hh⟩
    have hlength : ∀ {l s}, Opens tree.files dirs src l s →
        s.opened.length ≤ Fintype.card (Option ι) := fun hs => by
      classical
      have := (hs.nodup hone).length_le_card
      rwa [List.length_map] at this
    obtain ⟨u, hu⟩ : ∃ u, Finishes (handle sha1 tree.files dirs src) (rootOccurrences dirs content)
        ⟨cache, [], [src]⟩ u := exists_finishes
      (m := fun s => Fintype.card (Option ι) - s.opened.length) (fun _ _ _ hs => hs.step)
      (fun o l s hs => by
        have hle := hlength
          (hs.step : Opens tree.files dirs src _ (handle sha1 tree.files dirs src o s).2)
        rcases handle_fst_eq_nil_or o s with ⟨hnil, heq⟩ | ⟨path, heq⟩
        · exact Or.inl ⟨hnil, by rw [heq]⟩
        · rw [heq, List.length_append, List.length_singleton] at hle
          refine Or.inr ?_
          rw [heq, List.length_append, List.length_singleton]
          omega) hstart
    obtain ⟨fuel, hfuel⟩ := (exists_parse_iff (s := ⟨cache, [], []⟩) hsrc).mpr ⟨rfl, hu⟩
    have hend := hu.invariant (I := Opens tree.files dirs src) (fun _ _ _ hs => hs.step) hstart
    exact ⟨fuel, true, u, hfuel, hend.nodup hone⟩

/-- What a call from an empty cache finds is opened, so if it ends, no file has two names. -/
theorem EndsOnce.oneSpelling (hsrc : tree.files.isFile src = true)
    (hown : OwnHeaders sha1 tree.files dirs src .empty) (h : EndsOnce tree dirs src sha1 .empty) :
    OneSpelling tree dirs src := by
  obtain ⟨content, hnode⟩ := FileSystem.isFile_iff.mp hsrc
  have hread : tree.files.read src = some content := by rw [FileSystem.read, hnode]
  obtain ⟨fuel, b, u, hparse, hnodup⟩ := h
  obtain ⟨-, hrun⟩ := (exists_parse_iff hread).mp ⟨fuel, hparse⟩
  have hend : Complete tree.files dirs src [] u := .of_finishes hown hread hrun
  obtain ⟨headers, heq, hmem⟩ := hend.opened
  rw [heq, List.map_cons, List.nodup_cons] at hnodup
  constructor
  · intro p q hp hq hpq
    exact List.inj_on_of_nodup_map hnodup.2 (hmem p (hend.contains hp))
      (hmem q (hend.contains hq)) hpq
  · intro p hp hps
    exact hnodup.1 (List.mem_map.mpr ⟨p, hmem p (hend.contains hp), hps⟩)

/-- **Traversals end**, and go through each file once, if no file is reached under two names; where
it takes no record of another header out of the cache, one from an empty cache ends so only then. -/
theorem traversal_ends (sha1 : Str → Str) {ι : Type} [Fintype ι] (tree : FileTree ι)
    (dirs : CmdLineIncludeDirs) (src : Str) :
    (OneSpelling tree dirs src → ∀ cache, EndsOnce tree dirs src sha1 cache)
      ∧ (tree.files.isFile src = true → OwnHeaders sha1 tree.files dirs src .empty →
        (EndsOnce tree dirs src sha1 .empty ↔ OneSpelling tree dirs src)) :=
  ⟨fun hone => hone.endsOnce sha1,
    fun hsrc hown => ⟨fun h => h.oneSpelling hsrc hown, fun hone => hone.endsOnce sha1 .empty⟩⟩

/-! ### Headers in headers -/

/-- `/s/m.c` includes `<a.h>` of `/i`, which includes `"b.h"`, which includes `<a.h>`. -/
def nestedTree : PosixTree where
  nodes :=
    [([str "s"], .directory), ([str "i"], .directory),
      ([str "s", str "m.c"], .file (str "#include <a.h>\n")),
      ([str "i", str "a.h"], .file (str "#include \x22b.h\x22\n")),
      ([str "i", str "b.h"], .file (str "#include <a.h>\n"))]
  workingDir := [str "s"]

/-- `-isystem /i`. -/
def nestedDirs : CmdLineIncludeDirs := ⟨[], [str "/i"], [], []⟩

/-- Its headers are cached, and reached under one name each. -/
theorem traversal_ends_nested :
    OneSpelling nestedTree.fileTree nestedDirs (str "/s/m.c")
      ∧ OwnHeaders headerSha1 nestedTree.fileTree.files nestedDirs (str "/s/m.c") .empty
      ∧ EndsOnce nestedTree.fileTree nestedDirs (str "/s/m.c") headerSha1 .empty := by
  have hmem : ∀ p, Included nestedTree.fileTree.files nestedDirs (str "/s/m.c") p →
      p ∈ [str "/i/a.h", str "/i/b.h"] := fun p hp => hp.mem_of_closed (by decide +kernel)
  have hone : OneSpelling nestedTree.fileTree nestedDirs (str "/s/m.c") := by
    constructor
    · intro p q hp hq
      exact (by decide +kernel :
        ∀ p ∈ [str "/i/a.h", str "/i/b.h"], ∀ q ∈ [str "/i/a.h", str "/i/b.h"],
        nestedTree.resolve p = nestedTree.resolve q → p = q) p (hmem p hp) q (hmem q hq)
    · intro p hp
      exact (by decide +kernel : ∀ p ∈ [str "/i/a.h", str "/i/b.h"],
        nestedTree.resolve p ≠ nestedTree.resolve (str "/s/m.c")) p (hmem p hp)
  have hown : OwnHeaders headerSha1 nestedTree.fileTree.files nestedDirs (str "/s/m.c") .empty :=
    ownHeaders_of_checkAlong (str "#include <a.h>\n") 4 (by decide +kernel) (by decide +kernel)
  exact ⟨hone, hown, ((traversal_ends headerSha1 nestedTree.fileTree nestedDirs (str "/s/m.c")).2
    (by decide +kernel) hown).mpr hone⟩

/-! ## Two headers that include each other over `..` -/

/-- `/s/m.c` includes `a/x.h`, which includes `b/y.h` of the directory above, which includes
`a/x.h`. -/
def cycleTree : PosixTree where
  nodes :=
    [([str "s"], .directory), ([str "s", str "a"], .directory), ([str "s", str "b"], .directory),
      ([str "s", str "m.c"], .file (str "#include \x22a/x.h\x22\n")),
      ([str "s", str "a", str "x.h"], .file (str "#include \x22../b/y.h\x22\n")),
      ([str "s", str "b", str "y.h"], .file (str "#include \x22../a/x.h\x22\n"))]
  workingDir := [str "s"]

def noDirs : CmdLineIncludeDirs := ⟨[], [], [], []⟩

/-- Nothing is cached without system directories. -/
theorem ownHeaders_noDirs (sha1 : Str → Str) (files : FileSystem) (src : Str) :
    OwnHeaders sha1 files noDirs src .empty := by
  rintro o s ⟨content, l, hsrc, hcomes⟩ r hr
  have hempty : ∀ name info, s.includesCache.includeCacheData name ≠ some info := by
    refine hcomes.invariant (I := fun _ (s : SourceFileParser) =>
      ∀ name info, s.includesCache.includeCacheData name ≠ some info)
        (fun _ _ hinfo => by cases hinfo)
      fun o l s _ hs => ?_
    generalize hnext : handle sha1 files noDirs src o s = next
    cases hnext ▸ handle_cases o s with
    | taken _ => exact hs
    | found _ _ => exact hs
    | unresolved _ => exact hs
    | opened _ _ _ =>
      intro name info hinfo
      rcases openHeader_data hinfo with ⟨hstore, -, -⟩ | hinfo
      · cases hstore
      · exact hs name info hinfo
  obtain ⟨name, hinfo⟩ := exists_data_of_taken hr
  exact absurd hinfo (hempty name r.2)

/-- The directory of the header after `n` rounds. -/
def roundDir : ℕ → Str
  | 0 => str "/s/a"
  | n + 1 => roundDir n ++ slash :: str "../b/../a"

/-- The name of `/s/a/x.h` after `n` rounds. -/
def roundName (n : ℕ) : Str := roundDir n ++ slash :: str "x.h"

theorem length_roundDir (n : ℕ) : (roundDir n).length = 4 + 10 * n := by
  induction n with
  | zero => decide
  | succ n ih =>
    rw [roundDir, List.length_append, ih, List.length_cons,
      show (str "../b/../a").length = 9 by decide]
    omega

theorem roundName_injective : Function.Injective roundName := by
  intro m n h
  have := congrArg List.length h
  simp only [roundName, List.length_append, length_roundDir] at this
  omega

theorem isAbsolute_roundDir (n : ℕ) (p : Str) : isAbsolute (roundDir n ++ p) = true := by
  induction n generalizing p with
  | zero => rfl
  | succ n ih =>
    rw [roundDir, List.append_assoc]
    exact ih _

theorem getLast?_roundDir (n : ℕ) : (roundDir n).getLast? ≠ some slash := by
  cases n with
  | zero => decide
  | succ n =>
    rw [roundDir, List.getLast?_append_cons]
    decide

theorem roundDir_ne_nil (n : ℕ) : roundDir n ≠ [] := by
  intro h
  have := length_roundDir n
  rw [h, List.length_nil] at this
  omega

theorem PosixTree.resolveFrom_append (tree : PosixTree) (dir cs cs' : List Str) :
    tree.resolveFrom dir (cs ++ cs') = (tree.resolveFrom dir cs).bind (tree.resolveFrom · cs') := by
  induction cs generalizing dir with
  | nil => rfl
  | cons c cs ih =>
    rw [List.cons_append, resolveFrom, resolveFrom]
    split
    · exact ih _
    · rfl

/-- Every round leads to the same directory. -/
theorem resolveFrom_roundDir (n : ℕ) :
    cycleTree.resolveFrom [] ((roundDir n).splitOn slash) = some [str "s", str "a"] := by
  induction n with
  | zero => decide +kernel
  | succ n ih =>
    rw [roundDir, splitOn_append_slash, PosixTree.resolveFrom_append, ih]
    decide +kernel

theorem resolve_roundDir (n : ℕ) (p : Str) :
    cycleTree.resolve (roundDir n ++ slash :: p)
      = (cycleTree.resolveFrom [str "s", str "a"] (p.splitOn slash)).bind
          fun cs => cycleTree.nodes.findFinIdx? fun e => e.1 == cs := by
  rw [PosixTree.resolve, isAbsolute_roundDir, if_pos rfl, splitOn_append_slash,
    PosixTree.resolveFrom_append, resolveFrom_roundDir]
  rfl

theorem node_roundName (n : ℕ) : cycleTree.fileTree.files.node (roundName n)
    = some (.file (str "#include \x22../b/y.h\x22\n")) := by
  change (cycleTree.resolve (roundName n)).map cycleTree.fileTree.node = _
  rw [roundName, resolve_roundDir]
  decide +kernel

theorem node_roundDir_y (n : ℕ) :
    cycleTree.fileTree.files.node (roundDir n ++ slash :: str "../b/y.h")
      = some (.file (str "#include \x22../a/x.h\x22\n")) := by
  change (cycleTree.resolve _).map cycleTree.fileTree.node = _
  rw [resolve_roundDir]
  decide +kernel

/-- A quote directive finds the file next to the one it stands in. -/
theorem resolvedHeader_quote {files : FileSystem} {dirs : CmdLineIncludeDirs} {parent content : Str}
    (habs : content.startsWith [slash] = false)
    (hfile : files.isFile (join (parentPath parent) content) = true) :
    resolvedHeader files dirs parent ⟨content, .quote⟩
      = some (join (parentPath parent) content) := by
  unfold resolvedHeader headerPaths
  rw [habs]
  exact List.find?_cons_of_pos hfile

/-- **`/s/a/x.h` is a header of the source under every one of these names.** -/
theorem included_roundName (n : ℕ) :
    Included cycleTree.fileTree.files noDirs (str "/s/m.c") (roundName n) := by
  induction n with
  | zero => exact .source (d := ⟨str "a/x.h", .quote⟩) (by decide +kernel) (by decide +kernel)
  | succ n ih =>
    have hx : parentPath (roundName n) = roundDir n :=
      parentPath_append_slash (roundDir_ne_nil n) (getLast?_roundDir n) (by decide)
    have hy : parentPath (roundDir n ++ slash :: str "../b/y.h")
        = roundDir n ++ slash :: str "../b" := by
      rw [show roundDir n ++ slash :: str "../b/y.h"
        = (roundDir n ++ slash :: str "../b") ++ slash :: str "y.h" by simp [str]]
      exact parentPath_append_slash (by simp) (by rw [List.getLast?_append_cons]; decide)
        (by decide)
    have hjx : join (roundDir n) (str "../b/y.h") = roundDir n ++ slash :: str "../b/y.h" :=
      join_of_relative (roundDir_ne_nil n) (getLast?_roundDir n) (by decide)
    have hjy : join (roundDir n ++ slash :: str "../b") (str "../a/x.h") = roundName (n + 1) := by
      rw [join_of_relative (by simp) (by rw [List.getLast?_append_cons]; decide) (by decide)]
      simp [roundName, roundDir, str]
    have hyIncluded : Included cycleTree.fileTree.files noDirs (str "/s/m.c")
        (roundDir n ++ slash :: str "../b/y.h") := by
      refine .header ih (d := ⟨str "../b/y.h", .quote⟩) ?_ ?_
      · rw [directivesAt, node_roundName]
        decide +kernel
      · have hfile :
            cycleTree.fileTree.files.isFile (roundDir n ++ slash :: str "../b/y.h") = true :=
          FileSystem.isFile_iff.mpr ⟨_, node_roundDir_y n⟩
        rw [← hjx, ← hx] at hfile ⊢
        exact resolvedHeader_quote (by decide) hfile
    refine .header hyIncluded (d := ⟨str "../a/x.h", .quote⟩) ?_ ?_
    · rw [directivesAt, node_roundDir_y]
      decide +kernel
    · have hfile : cycleTree.fileTree.files.isFile (roundName (n + 1)) = true :=
        FileSystem.isFile_iff.mpr ⟨_, node_roundName (n + 1)⟩
      rw [← hjy, ← hy] at hfile ⊢
      exact resolvedHeader_quote (by decide) hfile

/-- **The traversal never ends**: it would have opened `/s/a/x.h` under infinitely many names. -/
theorem cycle_never_returns (sha1 : Str → Str) (fuel : ℕ) :
    parseSourceFileIncludes sha1 cycleTree.fileTree.files noDirs fuel (str "/s/m.c")
      noDirs.dashInclude ⟨.empty, [], []⟩ = none := by
  rw [Option.eq_none_iff_forall_not_mem]
  rintro ⟨b, u⟩ hparse
  have hread : cycleTree.fileTree.files.read (str "/s/m.c")
      = some (str "#include \x22a/x.h\x22\n") := by decide +kernel
  obtain ⟨-, hrun⟩ := (exists_parse_iff hread).mp ⟨fuel, hparse⟩
  have hend : Complete cycleTree.fileTree.files noDirs (str "/s/m.c") [] u :=
    .of_finishes (ownHeaders_noDirs sha1 cycleTree.fileTree.files (str "/s/m.c")) hread hrun
  obtain ⟨headers, -, hmem⟩ := hend.opened
  exact Set.infinite_of_injective_forall_mem roundName_injective
    (fun n => hmem _ (hend.contains (included_roundName n))) (List.finite_toSet headers)

/-- So not every traversal ends. -/
theorem cycle_not_endsOnce :
    ¬ ∀ (sha1 : Str → Str) (ι : Type) (_ : Fintype ι) (tree : FileTree ι)
      (dirs : CmdLineIncludeDirs) (src : Str),
      tree.files.isFile src = true → EndsOnce tree dirs src sha1 .empty := by
  intro h
  obtain ⟨fuel, b, u, hparse, -⟩ := h headerSha1 _ inferInstance cycleTree.fileTree noDirs
    (str "/s/m.c") (by decide +kernel)
  rw [cycle_never_returns] at hparse
  cases hparse

end DistBuild
