import Mathlib

/-!
# Machinery/Posix — byte strings, lexical paths, and files written through a stream

A `std::string` is its bytes.  The path operations are the lexical ones of `std::filesystem::path`
on a POSIX system: `join` is `operator/`, `relativePath` and `parentPath` the members of those
names.  A `Disk` maps a path string to the bytes stored there; `OutStream` is a `std::ofstream` on
it, whose writes reach the disk at once.
-/

namespace DistBuild

/-- A `std::string`. -/
abbrev Str := List UInt8

instance : LawfulBEq Str := inferInstance

/-- The string a literal denotes (ASCII only). -/
def str (s : String) : Str := s.toList.map Char.toUInt8

/-- The path separator. -/
abbrev slash : UInt8 := '/'.toUInt8

/-- `s.starts_with(pre)`. -/
def Str.startsWith (s pre : Str) : Bool := pre.isPrefixOf s

theorem Str.startsWith_iff {s pre : Str} : s.startsWith pre = true ↔ pre <+: s := by
  rw [Str.startsWith, List.isPrefixOf_iff_prefix]

/-- `s.ends_with(suf)`. -/
def Str.endsWith (s suf : Str) : Bool := suf.isSuffixOf s

theorem Str.endsWith_iff {s suf : Str} : s.endsWith suf = true ↔ suf <:+ s := by
  rw [Str.endsWith, List.isSuffixOf_iff_suffix]

/-! ## Lexical paths -/

/-- `path(p).is_absolute()`. -/
def isAbsolute (p : Str) : Bool := p.head? == some slash

/-- `path(dir) / p`: an absolute right operand replaces the left one, otherwise a separator is put
between them unless `dir` is empty or ends with one. -/
def join (dir p : Str) : Str :=
  if isAbsolute p then p
  else if dir = [] ∨ dir.getLast? = some slash then dir ++ p
  else dir ++ slash :: p

/-- `path(p).relative_path()`: the path without its root. -/
def relativePath (p : Str) : Str := p.dropWhile (· == slash)

/-- `path(p).parent_path()`: everything before the last component, without the separators that end
it; a root stays a root. -/
def parentPath (p : Str) : Str :=
  if relativePath p = [] then p
  else
    let dir := (p.reverse.dropWhile (· != slash)).dropWhile (· == slash)
    if dir = [] ∧ isAbsolute p then [slash] else dir.reverse

theorem isAbsolute_relativePath (p : Str) : isAbsolute (relativePath p) = false := by
  have h := List.head?_dropWhile_not (· == slash) p
  rw [isAbsolute, relativePath]
  cases hh : (p.dropWhile (· == slash)).head? with
  | none => rfl
  | some c =>
    rw [hh] at h
    simpa using h

/-- Only a root is stripped. -/
theorem relativePath_of_not_isAbsolute {p : Str} (h : isAbsolute p = false) :
    relativePath p = p := by
  cases p with
  | nil => rfl
  | cons c p => exact List.dropWhile_cons_of_neg (by simpa [isAbsolute] using h)

theorem relativePath_cons_slash {p : Str} (h : isAbsolute p = false) :
    relativePath (slash :: p) = p := by
  rw [relativePath, List.dropWhile_cons_of_pos (by simp)]
  exact relativePath_of_not_isAbsolute h

/-- A relative operand is put below a proper directory. -/
theorem join_of_relative {dir p : Str} (hd : dir ≠ []) (hs : dir.getLast? ≠ some slash)
    (hp : isAbsolute p = false) : join dir p = dir ++ slash :: p := by
  simp [join, hd, hs, hp]

/-! ## Tables -/

section Tables

variable {ι β : Type*} [DecidableEq ι] {table : ι → Option β} {a k : ι} {b c : β}

/-- An entry of a table is the one that was written last, or another one. -/
theorem update_eq_some : Function.update table a (some b) k = some c
    ↔ k = a ∧ b = c ∨ k ≠ a ∧ table k = some c := by
  rw [Function.update_apply]
  split_ifs with hk <;> simp [hk]

/-- What holds of all entries holds after one is written, if it holds of that one. -/
theorem forall_update {P : ι → β → Prop} (h : ∀ k c, table k = some c → P k c) (hb : P a b) :
    ∀ k c, Function.update table a (some b) k = some c → P k c := by
  intro k c hc
  rcases update_eq_some.mp hc with ⟨rfl, rfl⟩ | ⟨-, hc⟩
  · exact hb
  · exact h k c hc

end Tables

/-! ## Files and streams -/

/-- A file system: what is stored at a path, and which paths can be opened for writing.  It goes by
the text of a path; where two texts can be of one file, results speak of `SameFile`. -/
structure Disk where
  files : Str → Option Str
  writable : Str → Bool

/-- A disk with no files, on which every path can be opened. -/
def Disk.empty : Disk where
  files := fun _ => none
  writable := fun _ => true

namespace Disk

/-- Store `c` at `p`. -/
def put (d : Disk) (p c : Str) : Disk := { d with files := Function.update d.files p (some c) }

@[simp] theorem put_writable (d : Disk) (p c : Str) : (d.put p c).writable = d.writable := rfl

@[simp] theorem put_self (d : Disk) (p c : Str) : (d.put p c).files p = some c :=
  Function.update_self ..

theorem put_of_ne (d : Disk) {p q : Str} (c : Str) (h : q ≠ p) :
    (d.put p c).files q = d.files q := Function.update_of_ne h ..

end Disk

/-- A `std::ofstream` and its write position. -/
structure OutStream where
  path : Str
  isOpen : Bool
  pos : ℕ
deriving DecidableEq, Repr

/-- What a file holds after `data` is written at `pos`; a gap before `pos` reads as zeros. -/
def overwrite (content : Str) (pos : ℕ) (data : Str) : Str :=
  content.take pos ++ List.replicate (pos - content.length) 0 ++ data
    ++ content.drop (pos + data.length)

/-- Writing at the end of a file appends. -/
theorem overwrite_end (content data : Str) :
    overwrite content content.length data = content ++ data := by
  simp [overwrite]

namespace OutStream

/-- `ofstream(path, ios::binary)`: creates the file, or truncates it. -/
def openTrunc (d : Disk) (p : Str) : Disk × OutStream :=
  if d.writable p then (d.put p [], ⟨p, true, 0⟩) else (d, ⟨p, false, 0⟩)

/-- `stream.write(data)`: on a stream that did not open it only sets an error bit. -/
def write (d : Disk) (s : OutStream) (data : Str) : Disk × OutStream :=
  if s.isOpen then
    (d.put s.path (overwrite ((d.files s.path).getD []) s.pos data),
      { s with pos := s.pos + data.length })
  else (d, s)

/-- `stream.close()`. -/
def close (s : OutStream) : OutStream := { s with isOpen := false }

@[simp] theorem openTrunc_writable (d : Disk) (p : Str) :
    (openTrunc d p).1.writable = d.writable := by
  unfold openTrunc
  split <;> rfl

@[simp] theorem write_writable (d : Disk) (s : OutStream) (data : Str) :
    (write d s data).1.writable = d.writable := by
  unfold write
  split <;> rfl

@[simp] theorem openTrunc_path (d : Disk) (p : Str) : (openTrunc d p).2.path = p := by
  unfold openTrunc
  split <;> rfl

@[simp] theorem write_path (d : Disk) (s : OutStream) (data : Str) :
    (write d s data).2.path = s.path := by
  unfold write
  split <;> rfl

/-- Opening a file leaves every other file alone. -/
theorem openTrunc_files_of_ne (d : Disk) {p q : Str} (h : q ≠ p) :
    (openTrunc d p).1.files q = d.files q := by
  unfold openTrunc
  split
  · exact d.put_of_ne _ h
  · rfl

/-- A write leaves every file but the stream's alone. -/
theorem write_files_of_ne (d : Disk) (s : OutStream) (data : Str) {q : Str} (h : q ≠ s.path) :
    (write d s data).1.files q = d.files q := by
  unfold write
  split
  · exact d.put_of_ne _ h
  · rfl

end OutStream

/-- The bytes at `path` once `stored` has gone through a stream opened there. -/
def received (d : Disk) (path stored : Str) : Option Str :=
  if d.writable path then some stored else d.files path

theorem received_of_writable {d : Disk} {path : Str} (h : d.writable path = true) (stored : Str) :
    received d path stored = some stored := if_pos h

theorem received_congr {d d' : Disk} {path : Str} (hw : d'.writable = d.writable)
    (hd : d.writable path = false → d'.files path = d.files path) (stored : Str) :
    received d' path stored = received d path stored := by
  unfold received
  rw [hw]
  cases h : d.writable path with
  | true => rfl
  | false => simp [hd h]

namespace OutStream

/-- The stream that has written `stored` at `path`, if it could be opened. -/
def after (d : Disk) (path stored : Str) : OutStream :=
  ⟨path, d.writable path, if d.writable path then stored.length else 0⟩

theorem openTrunc_received (d : Disk) (path : Str) :
    (openTrunc d path).1.files path = received d path []
      ∧ (openTrunc d path).2 = after d path [] := by
  unfold openTrunc received after
  cases d.writable path <;> simp

/-- **The next bytes go to the end of what is stored.** -/
theorem write_received {d₀ d : Disk} {path stored : Str}
    (hd : d.files path = received d₀ path stored) (b : Str) :
    (write d (after d₀ path stored) b).1.files path = received d₀ path (stored ++ b)
      ∧ (write d (after d₀ path stored) b).2 = after d₀ path (stored ++ b) := by
  unfold received at hd ⊢
  unfold write after
  cases hw : d₀.writable path with
  | true =>
    simp only [hw, if_true] at hd
    simp [hd, overwrite_end]
  | false =>
    simp only [hw] at hd
    simpa using hd

end OutStream

end DistBuild
