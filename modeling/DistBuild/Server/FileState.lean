import DistBuild.Machinery.Lexical

/-!
# Server/FileState — the server's record of a client file, and the path mapping

`FileStateView` is the entry of a `ClientView`'s file table, `FileTransferState` a session's open
upload of one server file.  `cnvtClientToServerPath` relocates a client path under the client's
workspace; `cnvtServerToClientPath` cuts the workspace off again.  A name survives the trip exactly
if it has one slash in front, unless the workspace is an odd one (`survivesMapping_iff`).
-/

namespace DistBuild

/-- The text of a client's uuid. -/
abbrev ClientId := Str

/-- The text of a session's uuid. -/
abbrev SessionId := Str

/-- `FileStateView::Status`. -/
inductive FileStatus
  | initial
  | uploading
  | available
  | fault
deriving DecidableEq, Repr

structure FileStateView where
  fileSzBytes : UInt64
  fileSha1 : Str
  fileStatus : FileStatus
  upStartTime : UInt64
  serverFilePath : Str
deriving DecidableEq, Repr

/-- The constructor of a fresh entry. -/
def FileStateView.new (fileSzBytes : UInt64) (fileSha1 serverFilePath : Str) : FileStateView where
  fileSzBytes := fileSzBytes
  fileSha1 := fileSha1
  fileStatus := .initial
  upStartTime := 0
  serverFilePath := serverFilePath

structure FileTransferState where
  isFinished : Bool
  fileOutStream : OutStream
  sessionId : SessionId
  filename : Str
  lastSeqNo : UInt64
  lastOffset : UInt64
deriving DecidableEq, Repr

/-- The constructor opens the file, which truncates it. -/
def FileTransferState.new (d : Disk) (sessionId : SessionId) (filename : Str) :
    Disk × FileTransferState :=
  let (d', stream) := OutStream.openTrunc d filename
  (d', { isFinished := false, fileOutStream := stream, sessionId, filename,
         lastSeqNo := 0, lastOffset := 0 })

/-! ## The path mapping -/

/-- `ClientViewsStorage::CLIENTS_WORKSPACE`. -/
def clientsWorkspace : Str := str "/tmp/distbuild/client_storage"

/-- The workspace `add_client_view` gives a client. -/
def workspaceOf (client : ClientId) : Str := join clientsWorkspace client

/-- A proper name of one directory, as the text of a uuid is. -/
def PlainComponent (c : Str) : Prop := c ≠ [] ∧ slash ∉ c ∧ c ≠ str "." ∧ c ≠ str ".."

instance (c : Str) : Decidable (PlainComponent c) := by
  unfold PlainComponent
  infer_instance

theorem PlainComponent.isAbsolute {c : Str} (hc : PlainComponent c) : isAbsolute c = false := by
  refine Bool.eq_false_of_not_eq_true fun h => ?_
  obtain ⟨c', rfl⟩ := isAbsolute_iff.mp h
  exact hc.2.1 List.mem_cons_self

theorem workspaceOf_eq {c : ClientId} (hc : PlainComponent c) :
    workspaceOf c = clientsWorkspace ++ slash :: c :=
  join_of_relative (by decide) (by decide) hc.isAbsolute

/-- The workspace of a client does not end with a slash. -/
theorem separator_workspaceOf {c : ClientId} (hc : PlainComponent c) :
    separator (workspaceOf c) = [slash] := by
  rw [workspaceOf_eq hc, ← List.singleton_append, ← List.append_assoc, separator_append _ hc.1,
    separator]
  exact if_neg fun hlast => hc.2.1 (List.mem_of_getLast? (hlast.resolve_left hc.1))

def isSystemPath (path : Str) : Bool :=
  path.startsWith (str "/usr/src") || path.startsWith (str "/usr/local")
    || path.startsWith (str "/Library")

theorem isSystemPath_iff {p : Str} :
    isSystemPath p = true
      ↔ str "/usr/src" <+: p ∨ str "/usr/local" <+: p ∨ str "/Library" <+: p := by
  simp [isSystemPath, Str.startsWith_iff, or_assoc]

def cnvtClientToServerPath (currentWorkingDir clientPath : Str) : Str :=
  if isSystemPath clientPath then clientPath
  else join currentWorkingDir (relativePath clientPath)

def cnvtServerToClientPath (currentWorkingDir serverPath : Str) : Str :=
  if serverPath.startsWith currentWorkingDir then serverPath.drop currentWorkingDir.length
  else serverPath

/-- A client name that comes back from the server as it was sent. -/
def SurvivesMapping (currentWorkingDir clientPath : Str) : Prop :=
  cnvtServerToClientPath currentWorkingDir (cnvtClientToServerPath currentWorkingDir clientPath)
    = clientPath

instance (w p : Str) : Decidable (SurvivesMapping w p) := inferInstanceAs (Decidable (_ = _))

/-- **Names that survive the mapping have their own server files.** -/
theorem SurvivesMapping.injective {w f g : Str} (hf : SurvivesMapping w f)
    (hg : SurvivesMapping w g) (h : cnvtClientToServerPath w f = cnvtClientToServerPath w g) :
    f = g := by
  rw [← hf, ← hg, h]

/-- Below a directory that is not given with a final slash, a name should have exactly one in front;
below another, none.  A system path should not be below the directory. -/
def MapsBack (currentWorkingDir clientPath : Str) : Prop :=
  if isSystemPath clientPath then currentWorkingDir = [] ∨ ¬ currentWorkingDir <+: clientPath
  else if separator currentWorkingDir = [] then isAbsolute clientPath = false
  else isAbsolute clientPath = true ∧ isAbsolute clientPath.tail = false

instance (w p : Str) : Decidable (MapsBack w p) := by
  unfold MapsBack
  infer_instance

theorem cnvtClientToServerPath_of_not_system {w f : Str} (h : isSystemPath f = false) :
    cnvtClientToServerPath w f = w ++ (separator w ++ relativePath f) := by
  rw [cnvtClientToServerPath, h, if_neg Bool.false_ne_true, join_eq (isAbsolute_relativePath f),
    List.append_assoc]

theorem cnvtServerToClientPath_append (w p : Str) : cnvtServerToClientPath w (w ++ p) = p := by
  rw [cnvtServerToClientPath, if_pos (Str.startsWith_iff.mpr (List.prefix_append w p)),
    List.drop_left]

/-- **Which names survive the mapping.** -/
theorem survivesMapping_iff (w f : Str) : SurvivesMapping w f ↔ MapsBack w f := by
  unfold SurvivesMapping MapsBack
  split_ifs with hsys hsep
  · rw [cnvtClientToServerPath, if_pos hsys]
    by_cases hw : w <+: f
    · obtain ⟨p, rfl⟩ := hw
      rw [cnvtServerToClientPath_append]
      simp
    · simp [cnvtServerToClientPath, Str.startsWith_iff, hw]
  · rw [cnvtClientToServerPath_of_not_system (by simpa using hsys), cnvtServerToClientPath_append,
      hsep, List.nil_append]
    exact ⟨fun h => h ▸ isAbsolute_relativePath f, relativePath_of_not_isAbsolute⟩
  · have hslash : separator w = [slash] := by
      unfold separator at hsep ⊢
      split_ifs with h
      · exact absurd (if_pos h) hsep
      · rfl
    rw [cnvtClientToServerPath_of_not_system (by simpa using hsys), cnvtServerToClientPath_append,
      hslash, List.singleton_append]
    constructor
    · intro h
      rw [← h]
      exact ⟨rfl, isAbsolute_relativePath f⟩
    · rintro ⟨habs, htail⟩
      obtain ⟨g, rfl⟩ := isAbsolute_iff.mp habs
      exact congrArg (slash :: ·) (relativePath_cons_slash htail)

/-- **In the workspace of a client**, the names that come back are those with one slash in front:
the workspace does not end with a slash, and no system path starts like it. -/
theorem mapsBack_workspaceOf_iff {c : ClientId} (hc : PlainComponent c) (f : Str) :
    MapsBack (workspaceOf c) f ↔ isAbsolute f = true ∧ isAbsolute f.tail = false := by
  rw [workspaceOf_eq hc]
  unfold MapsBack
  split_ifs with hsys hsep
  · have hnot : ∀ {p : Str} (b : UInt8), b ≠ 't'.toUInt8 → p[1]? = some b →
        ¬ clientsWorkspace ++ slash :: c <+: p := by
      rintro p b hb hp ⟨q, rfl⟩
      exact hb (Option.some.inj hp).symm
    rcases isSystemPath_iff.mp hsys with ⟨r, rfl⟩ | ⟨r, rfl⟩ | ⟨r, rfl⟩
    · exact iff_of_true (Or.inr (hnot 'u'.toUInt8 (by decide) rfl)) ⟨rfl, rfl⟩
    · exact iff_of_true (Or.inr (hnot 'u'.toUInt8 (by decide) rfl)) ⟨rfl, rfl⟩
    · exact iff_of_true (Or.inr (hnot 'L'.toUInt8 (by decide) rfl)) ⟨rfl, rfl⟩
  · rw [← workspaceOf_eq hc, separator_workspaceOf hc] at hsep
    cases hsep
  · rfl

/-- A relative source name does not survive: the server asks for it under an absolute name. -/
example : cnvtServerToClientPath (str "/w") (cnvtClientToServerPath (str "/w") (str "a.cpp"))
    = str "/a.cpp" := by decide

end DistBuild
