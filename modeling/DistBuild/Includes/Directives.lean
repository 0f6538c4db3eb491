import DistBuild.Machinery.Posix

/-!
# Includes/Directives — include directives, the places to look for a header, and the file tree

    line      #include <a.h>   ──▸   ⟨a.h, angle⟩
    places    quote: the including file's directory, -iquote;  both: -I, -isystem

A header is found in the first place that holds a file (`resolvedHeader`).  Where the length of a
path is bounded, the strings that can be opened are finitely many, and a tree lists them.
-/

namespace DistBuild

inductive IncludeType
  | angle
  | quote
deriving DecidableEq, Repr

structure IncludeDirective where
  incContent : Str
  incType : IncludeType
deriving DecidableEq, Repr

structure CmdLineIncludeDirs where
  dashI : List Str
  dashIsystem : List Str
  dashIquote : List Str
  dashInclude : List Str
deriving DecidableEq, Repr

def CmdLineIncludeDirs.appendIncludeDirs (dirs other : CmdLineIncludeDirs) :
    CmdLineIncludeDirs where
  dashI := dirs.dashI ++ other.dashI
  dashIsystem := dirs.dashIsystem ++ other.dashIsystem
  dashIquote := dirs.dashIquote ++ other.dashIquote
  dashInclude := dirs.dashInclude ++ other.dashInclude

structure IncludeInfo where
  filePath : Str
  childIncludes : List IncludeDirective
  includeSzBytes : UInt64
  includeHash : Str
deriving DecidableEq, Repr

/-! ## The directives of a file -/

/-- `std::isspace` in the C locale. -/
def isSpace (c : UInt8) : Bool := c == 32 || (9 ≤ c && c ≤ 13)

/-- What stands before `close`, if it comes. -/
def enclosed (close : UInt8) (rest : Str) : Option Str :=
  if close ∈ rest then some (rest.takeWhile (· != close)) else none

/-- What follows the keyword `include_next` or `include`. -/
def afterKeyword (rest : Str) : Option Str :=
  if rest.startsWith (str "include_next") then some (rest.drop 12)
  else if rest.startsWith (str "include") then some (rest.drop 7)
  else none

/-- One line of `find_file_includes`: what follows its first `#`; 34 is the double quote. -/
def lineInclude (line : Str) : Option IncludeDirective :=
  match line.dropWhile (· != '#'.toUInt8) with
  | [] => none
  | _ :: rest =>
    (afterKeyword (rest.dropWhile isSpace)).bind fun rest =>
      match rest.dropWhile isSpace with
      | [] => none
      | c :: rest =>
        if c = '<'.toUInt8 then (enclosed '>'.toUInt8 rest).map fun name => ⟨name, .angle⟩
        else if c = 34 then (enclosed 34 rest).map fun name => ⟨name, .quote⟩
        else none

/-- `find_file_includes`. -/
def findFileIncludes (content : Str) : List IncludeDirective :=
  (content.splitOn 10).filterMap lineInclude

example : findFileIncludes (str "int x;\n  # include <a.h>\n#include_next \x22b.h\x22")
    = [⟨str "a.h", .angle⟩, ⟨str "b.h", .quote⟩] := by decide +kernel

/-- The `IncludeInfo` of a header that was read. -/
def headerInfo (sha1 : Str → Str) (path content : Str) : IncludeInfo where
  filePath := path
  childIncludes := findFileIncludes content
  includeSzBytes := UInt64.ofNat content.length
  includeHash := sha1 content

/-! ## The file tree -/

inductive Node
  | directory
  | file (content : Str)
deriving DecidableEq, Repr

/-- What each path string opens. -/
structure FileSystem where
  node : Str → Option Node

namespace FileSystem

def isFile (files : FileSystem) (path : Str) : Bool :=
  match files.node path with
  | some (.file _) => true
  | _ => false

/-- What a `std::ifstream` reads; a directory opens, and reads as nothing. -/
def read (files : FileSystem) (path : Str) : Option Str :=
  match files.node path with
  | some (.file content) => some content
  | some .directory => some []
  | none => none

theorem isFile_iff {files : FileSystem} {path : Str} :
    files.isFile path = true ↔ ∃ content, files.node path = some (.file content) := by
  unfold isFile
  split
  · exact ⟨fun _ => ⟨_, ‹_›⟩, fun _ => rfl⟩
  · rename_i hne
    exact ⟨nofun, fun ⟨content, h⟩ => absurd h (hne content)⟩

end FileSystem

/-- The path strings that can be opened, where these are finitely many. -/
abbrev Tree := List (Str × Node)

def Tree.files (tree : Tree) : FileSystem := ⟨fun path => tree.lookup path⟩

instance : Coe Tree FileSystem := ⟨Tree.files⟩

@[simp] theorem Tree.node_files (tree : Tree) (path : Str) :
    tree.files.node path = tree.lookup path := rfl

/-! ## The places to look for a header -/

/-- The paths `_process_include_directive` tries, in order. -/
def headerPaths (dirs : CmdLineIncludeDirs) (parentSrcAbsPath : Str) (d : IncludeDirective) :
    List Str :=
  (if d.incContent.startsWith [slash] then [d.incContent] else [])
    ++ (match d.incType with
      | .quote =>
        join (parentPath parentSrcAbsPath) d.incContent
          :: dirs.dashIquote.map fun dir => join dir d.incContent
      | .angle => [])
    ++ (dirs.dashI.map fun dir => join dir d.incContent)
    ++ dirs.dashIsystem.map fun dir => join dir d.incContent

/-- The file an include directive of `parentSrcAbsPath` stands for. -/
def resolvedHeader (files : FileSystem) (dirs : CmdLineIncludeDirs) (parentSrcAbsPath : Str)
    (d : IncludeDirective) : Option Str :=
  (headerPaths dirs parentSrcAbsPath d).find? files.isFile

/-- `requires_inc_storage`: the path is below a `-isystem` directory, and below no `-I`
directory. -/
def requiresIncStorage (path : Str) (dirs : CmdLineIncludeDirs) : Bool :=
  if dirs.dashI.any fun dir => path.startsWith dir then false
  else dirs.dashIsystem.any fun dir => path.startsWith dir

end DistBuild
