import DistBuild.Machinery.Codec
import DistBuild.Result.ObjFile

/-!
# Result/Response — from the compiler's output to the wrapper's

    CompilationOutput ─▸ last chunk ─▸ UnixIpcResponse ─serialize─▸ bytes ─deserialize─▸ wrapper
      stdout, stderr       stdout, stderr    stderr, stdout

The codec is faithful (`deserialize_serialize_response`), and so is every other hop but one: the
client builds its response with the two logs in each other's place, so they reach the wrapper
exchanged (`response_exchanged`), which goes unnoticed only if they are equal
(`response_faithful_iff`).
-/

namespace DistBuild

/-! ## The codec -/

/-- `UnixIpcManager::_serialize_response`. -/
def serializeResponse (resp : UnixIpcResponse) : Str :=
  appendString (appendString (appendU32 [] resp.compilerExitCode.toUInt32) resp.stdoutContent)
    resp.stderrContent

/-- The wrapper's `deserialize_response`; `none` reads outside the payload. -/
def deserializeResponse (data : Str) : Option UnixIpcResponse := do
  let exitCode ← readU32 data 0
  let (stdoutContent, offset) ← readString data 4
  let (stderrContent, _) ← readString data offset
  return ⟨exitCode.toInt32, stdoutContent, stderrContent⟩

/-- A response is laid out as its exit code and its two logs. -/
theorem serializeResponse_append (resp : UnixIpcResponse) (rest : Str) :
    serializeResponse resp ++ rest = u32Bytes resp.compilerExitCode.toUInt32
      ++ (appendString [] resp.stdoutContent ++ (appendString [] resp.stderrContent ++ rest)) := by
  rw [serializeResponse, appendString_append, appendString_append (appendU32 _ _), appendU32,
    List.nil_append, List.append_assoc, List.append_assoc]

/-- The wrapper decodes a response whatever follows it in the payload. -/
theorem deserialize_serialize_response_append (rest : Str) {resp : UnixIpcResponse}
    (hout : resp.stdoutContent.length < 2 ^ 32) (herr : resp.stderrContent.length < 2 ^ 32) :
    deserializeResponse (serializeResponse resp ++ rest) = some resp := by
  obtain ⟨exitCode, stdoutContent, stderrContent⟩ := resp
  set header := appendU32 [] exitCode.toUInt32
  have hpayload : serializeResponse ⟨exitCode, stdoutContent, stderrContent⟩ ++ rest
      = header ++ (appendString [] stdoutContent ++ (appendString [] stderrContent ++ rest)) :=
    serializeResponse_append ⟨exitCode, stdoutContent, stderrContent⟩ rest
  have hcode : readU32 (serializeResponse ⟨exitCode, stdoutContent, stderrContent⟩ ++ rest) 0
      = some exitCode.toUInt32 := by
    rw [hpayload]
    exact readU32_append [] _ _
  have hstdout : readString (serializeResponse ⟨exitCode, stdoutContent, stderrContent⟩ ++ rest) 4
      = some (stdoutContent, (appendString header stdoutContent).length) := by
    rw [hpayload, ← List.append_assoc, ← appendString_append]
    exact readString_append header stdoutContent _ hout
  have hstderr := readString_append (appendString header stdoutContent) stderrContent rest herr
  rw [deserializeResponse, hcode]
  simp only [Option.bind_eq_bind, Option.bind_some, hstdout]
  rw [show serializeResponse ⟨exitCode, stdoutContent, stderrContent⟩
    = appendString (appendString header stdoutContent) stderrContent from rfl, hstderr]
  rfl

/-- **The wrapper decodes what the daemon encodes**, for any exit code. -/
theorem deserialize_serialize_response (resp : UnixIpcResponse)
    (hout : resp.stdoutContent.length < 2 ^ 32) (herr : resp.stderrContent.length < 2 ^ 32) :
    deserializeResponse (serializeResponse resp) = some resp := by
  have := deserialize_serialize_response_append [] hout herr
  rwa [List.append_nil] at this

/-! ## The last message -/

variable {sessionUuid : SessionId} {out : CompilationOutput}

/-- Every last message of a compilation carries its exit code and its logs. -/
theorem last_message_carries {objFile : Option Str} {msg : ObjFileChunk}
    (hmsg : msg ∈ sendCompilationResult sessionUuid out objFile)
    (hlast : msg.isLastChunk = true) :
    msg.compilerExitCode = out.exitCode ∧ msg.compilerStdout = out.stdoutData
      ∧ msg.compilerStderr = out.stderrData := by
  unfold sendCompilationResult at hmsg
  split_ifs at hmsg with hfail
  · obtain rfl := List.mem_singleton.mp hmsg
    exact ⟨rfl, rfl, rfl⟩
  · cases objFile with
    | none => cases hmsg
    | some content =>
      obtain ⟨b, -, rfl⟩ := List.mem_map.mp hmsg
      rw [objFileMsg_isLastChunk] at hlast
      simp [objFileMsg, hlast, buildMsg]

/-- What the client publishes for a message is the response it carries. -/
theorem processObjFileChunk_published {s : ObjReceiver} {msg : ObjFileChunk} {r : UnixIpcResponse}
    (h : (processObjFileChunk sessionUuid s msg).2.published = s.published ++ [r]) :
    r = msg.response := by
  have hsame : s.published ≠ s.published ++ [r] := by simp
  unfold processObjFileChunk at h
  by_cases hid : msg.sessionId = sessionUuid
  · rw [if_neg (not_not.mpr hid)] at h
    cases ht : s.transfer with
    | none =>
      rw [ht] at h
      exact absurd h hsame
    | some t =>
      simp only [ht] at h
      by_cases hfin : t.isFinished = true
      · rw [if_pos hfin] at h
        exact absurd h hsame
      · rw [if_neg hfin] at h
        by_cases hown : t.sessionId = sessionUuid
        · rw [if_neg (not_not.mpr hown)] at h
          cases hlast : msg.isLastChunk with
          | true => simpa [hlast] using h.symm
          | false =>
            rw [hlast] at h
            exact absurd h hsame
        · rw [if_pos hown] at h
          exact absurd h hsame
  · rw [if_pos hid] at h
    exact absurd h hsame

/-- **The wrapper gets the two logs exchanged.** -/
theorem response_exchanged {objFile : Option Str} {s : ObjReceiver} {msg : ObjFileChunk}
    {r : UnixIpcResponse} (hout : out.stdoutData.length < 2 ^ 32)
    (herr : out.stderrData.length < 2 ^ 32)
    (hmsg : msg ∈ sendCompilationResult sessionUuid out objFile) (hlast : msg.isLastChunk = true)
    (hpub : (processObjFileChunk sessionUuid s msg).2.published = s.published ++ [r]) :
    deserializeResponse (serializeResponse r)
      = some ⟨out.exitCode, out.stderrData, out.stdoutData⟩ := by
  obtain rfl := processObjFileChunk_published hpub
  obtain ⟨hcode, hstdout, hstderr⟩ := last_message_carries hmsg hlast
  have hr : msg.response = ⟨out.exitCode, out.stderrData, out.stdoutData⟩ := by
    rw [ObjFileChunk.response, hcode, hstdout, hstderr]
  rw [hr]
  exact deserialize_serialize_response _ herr hout

/-- **The wrapper's response is the compiler's output exactly if the two logs are equal.** -/
theorem response_faithful_iff (sessionUuid : SessionId) (out : CompilationOutput)
    (objFile : Option Str) (s : ObjReceiver) (msg : ObjFileChunk) (r : UnixIpcResponse)
    (hout : out.stdoutData.length < 2 ^ 32) (herr : out.stderrData.length < 2 ^ 32)
    (hmsg : msg ∈ sendCompilationResult sessionUuid out objFile) (hlast : msg.isLastChunk = true)
    (hpub : (processObjFileChunk sessionUuid s msg).2.published = s.published ++ [r]) :
    deserializeResponse (serializeResponse r)
        = some ⟨out.exitCode, out.stdoutData, out.stderrData⟩
      ↔ out.stdoutData = out.stderrData := by
  rw [response_exchanged hout herr hmsg hlast hpub]
  constructor
  · intro h
    injection h with h
    exact congrArg UnixIpcResponse.stderrContent h
  · intro h
    rw [h]

/-! ## A compiler that warns -/

/-- A compilation with something on each of its streams. -/
def warningOutput : CompilationOutput where
  stdoutData := str "note"
  stderrData := str "warning"
  compilingDuration := 1
  exitCode := 0

/-- A failed compilation that says the same on both streams is answered as it was. -/
theorem failed_response_faithful :
    deserializeResponse (serializeResponse ⟨1, str "error", str "error"⟩)
      = some ⟨1, str "error", str "error"⟩ :=
  (response_faithful_iff (str "s") ⟨str "error", str "error", 1, 1⟩ none
    (ObjReceiver.start (str "s") .empty (str "/m.o"))
    (failureMsg (str "s") ⟨str "error", str "error", 1, 1⟩) ⟨1, str "error", str "error"⟩
    (by decide) (by decide) (by decide +kernel) (by decide) (by decide)).mpr rfl

/-- The wrapper prints the warning to its standard output. -/
theorem warning_on_stdout :
    ¬ ∀ (sessionUuid : SessionId) (out : CompilationOutput) (objFile : Option Str) (s : ObjReceiver)
      (msg : ObjFileChunk) (r : UnixIpcResponse), out.stdoutData.length < 2 ^ 32 →
        out.stderrData.length < 2 ^ 32 → msg ∈ sendCompilationResult sessionUuid out objFile →
        msg.isLastChunk = true →
        (processObjFileChunk sessionUuid s msg).2.published = s.published ++ [r] →
        deserializeResponse (serializeResponse r)
          = some ⟨out.exitCode, out.stdoutData, out.stderrData⟩ := by
  intro h
  have := h (str "s") warningOutput (some (str "obj"))
    (ObjReceiver.start (str "s") .empty (str "/m.o"))
      (objFileMsg (str "s") warningOutput 3 (str "obj"))
    ⟨0, str "warning", str "note"⟩ (by decide) (by decide) (by decide +kernel) (by decide)
    (by decide)
  exact absurd this (by decide)

end DistBuild
