import DistBuild.Transport.Delivery

/-!
# Result/OverWire — a result arrives only if the compiler's logs are UTF-8

    sendCompilationResult ─▸ chunks ─wire─▸ delivered chunks ─▸ processObjFileChunk ─▸ response

The logs go with the last chunk, and stand before its mark and its data.  A chunk without logs
arrives as it is, so up to the last one nothing changes; a last chunk whose log is refused arrives
unmarked and without data, and the client waits on.
-/

namespace DistBuild

open Wire

variable (rt : WireRuntime) {sessionUuid : SessionId} {out : CompilationOutput}

/-- The chunk the client handles for `m`. -/
def ObjFileChunk.delivered (m : ObjFileChunk) : Option ObjFileChunk :=
  ((serverMessage rt).read rt (serializeToString rt (serverMessage rt)
    (.objFileChunkTransmit m))).object.bind ServerContent.objFileChunkTransmit?

/-- The chunks the client handles. -/
def deliveredResult (sessionUuid : SessionId) (out : CompilationOutput) (objFile : Option Str) :
    List ObjFileChunk :=
  (sendCompilationResult sessionUuid out objFile).filterMap (ObjFileChunk.delivered rt)

/-- The result as the client's session keeps it. -/
def CompilationOutput.callResult (out : CompilationOutput) : CallResult where
  callDuration := out.compilingDuration
  exitCode := out.exitCode
  stderrContent := out.stderrData
  stdoutContent := out.stdoutData

/-- The result as the client's session publishes it; the two logs change places. -/
def CompilationOutput.response (out : CompilationOutput) : UnixIpcResponse where
  compilerExitCode := out.exitCode
  stdoutContent := out.stderrData
  stderrContent := out.stdoutData

/-- **The result arrives over the wire**: of what the client handles exactly the final message is
marked as the last one, and handling it all finishes the transfer.  The session then keeps this exit
code and these logs, has published them once, and has stored the object file of a success. -/
def ResultDelivered (sessionUuid : SessionId) (out : CompilationOutput) (objFile : Option Str)
    (d : Disk) (path : Str) : Prop :=
  let msgs := deliveredResult rt sessionUuid out objFile
  let s := (ObjReceiver.start sessionUuid d path).feed sessionUuid msgs
  (∃ init last, msgs = init ++ [last] ∧ last.isLastChunk = true
      ∧ ∀ m ∈ init, m.isLastChunk = false)
    ∧ (∃ t, s.transfer = some t ∧ t.isFinished = true)
    ∧ s.call = some out.callResult
    ∧ s.published = [out.response]
    ∧ ∀ content, out.exitCode = 0 → objFile = some content → s.disk.files path = some content

/-- Readers accept every chunk. -/
def ResultFits (sessionUuid : SessionId) (out : CompilationOutput) (objFile : Option Str) : Prop :=
  ∀ m ∈ sendCompilationResult sessionUuid out objFile,
    (serverMessage rt).byteSize rt (.objFileChunkTransmit m) ≤ maxSize

variable {rt}

theorem delivered_chunk {m : ObjFileChunk}
    (h : (serverMessage rt).byteSize rt (.objFileChunkTransmit m) ≤ maxSize) :
    m.delivered rt = (m.received rt).object := by
  rw [ObjFileChunk.delivered, serializeToString_eq h, read_serverMessage h, ServerContent.received]
  cases m.received rt <;> rfl

/-- A chunk of UTF-8 strings arrives as it is. -/
theorem delivered_chunk_of_utf8 {m : ObjFileChunk}
    (h : (serverMessage rt).byteSize rt (.objFileChunkTransmit m) ≤ maxSize) (hm : m.Utf8 rt) :
    m.delivered rt = some m := by
  rw [delivered_chunk h, ObjFileChunk.received_iff.mpr hm]
  rfl

/-- A chunk whose log is refused arrives unmarked. -/
theorem delivered_chunk_of_not_utf8 {m : ObjFileChunk}
    (h : (serverMessage rt).byteSize rt (.objFileChunkTransmit m) ≤ maxSize) (hm : ¬ m.Utf8 rt) :
    ∃ m', m.delivered rt = some m' ∧ m'.isLastChunk = false := by
  rw [delivered_chunk h, ObjFileChunk.received]
  by_cases hid : rt.verifyUtf8 m.sessionId = true
  · by_cases hout : rt.verifyUtf8 m.compilerStdout = true
    · have herr : ¬ rt.verifyUtf8 m.compilerStderr = true := fun herr => hm ⟨hid, hout, herr⟩
      simp [WireRuntime.checked, hid, hout, herr]
    · simp [WireRuntime.checked, hid, hout]
  · simp [WireRuntime.checked, hid]

/-! ## Which chunks carry logs -/

/-- Every chunk is of its session, and carries no logs or those of the compiler. -/
theorem chunk_logs {objFile : Option Str} {m : ObjFileChunk}
    (hm : m ∈ sendCompilationResult sessionUuid out objFile) :
    m.sessionId = sessionUuid ∧ (m.isLastChunk = true →
        m.compilerStdout = out.stdoutData ∧ m.compilerStderr = out.stderrData)
      ∧ (m.isLastChunk = false → m.compilerStdout = [] ∧ m.compilerStderr = []) := by
  unfold sendCompilationResult at hm
  split_ifs at hm
  · obtain rfl := List.mem_singleton.mp hm
    exact ⟨rfl, fun _ => ⟨rfl, rfl⟩, fun h => by cases h⟩
  · cases objFile with
    | none => cases hm
    | some content =>
      obtain ⟨b, -, rfl⟩ := List.mem_map.mp hm
      unfold objFileMsg
      dsimp only
      split_ifs with hlast
      · exact ⟨rfl, fun _ => ⟨rfl, rfl⟩, fun h => absurd (h.symm.trans hlast) (by decide)⟩
      · exact ⟨rfl, fun h => absurd h hlast, fun _ => ⟨rfl, rfl⟩⟩

/-- A last chunk carries the whole result. -/
theorem last_chunk_reports {objFile : Option Str} {m : ObjFileChunk}
    (hm : m ∈ sendCompilationResult sessionUuid out objFile) (hmark : m.isLastChunk = true) :
    m.callResult = out.callResult ∧ m.response = out.response := by
  have hfields : m.compilerExitCode = out.exitCode
      ∧ m.compilerCallDuration = out.compilingDuration := by
    unfold sendCompilationResult at hm
    split_ifs at hm
    · obtain rfl := List.mem_singleton.mp hm
      exact ⟨rfl, rfl⟩
    · cases objFile with
      | none => cases hm
      | some content =>
        obtain ⟨b, -, rfl⟩ := List.mem_map.mp hm
        simp only [objFileMsg]
        split <;> exact ⟨rfl, rfl⟩
  obtain ⟨hcode, hduration⟩ := hfields
  obtain ⟨hstdout, hstderr⟩ := (chunk_logs hm).2.1 hmark
  simp only [ObjFileChunk.callResult, ObjFileChunk.response, CompilationOutput.callResult,
    CompilationOutput.response, hcode, hduration, hstdout, hstderr, and_self]

/-! ## What the session reports -/

/-- The session has reported nothing yet, or this result, once and for all. -/
def ObjReceiver.Reports (out : CompilationOutput) (s : ObjReceiver) : Prop :=
  s.published = [] ∨ s.call = some out.callResult ∧ s.published = [out.response]
    ∧ ∃ t, s.transfer = some t ∧ t.isFinished = true

/-- A chunk of the result keeps the report. -/
theorem ObjReceiver.Reports.step {s : ObjReceiver} {msg : ObjFileChunk} (h : s.Reports out)
    (hmsg : msg.isLastChunk = true → msg.callResult = out.callResult
      ∧ msg.response = out.response) :
    (processObjFileChunk sessionUuid s msg).2.Reports out := by
  by_cases hid : msg.sessionId = sessionUuid
  · rcases h with hnone | ⟨hcall, hpub, t, ht, hfin⟩
    · rw [processObjFileChunk, if_neg (not_not.mpr hid)]
      cases htransfer : s.transfer with
      | none => exact .inl hnone
      | some t =>
        dsimp only
        split_ifs with hfin hown hlast
        · exact .inl hnone
        · exact .inl hnone
        · obtain ⟨hcall, hresponse⟩ := hmsg hlast
          exact .inr ⟨congrArg some hcall, by simp [hnone, hresponse], _, rfl, rfl⟩
        · exact .inl hnone
    · have hsame : (processObjFileChunk sessionUuid s msg).2 = s := by
        simp [processObjFileChunk, hid, ht, hfin]
      rw [hsame]
      exact .inr ⟨hcall, hpub, t, ht, hfin⟩
  · rw [processObjFileChunk, if_pos hid]
    exact h

/-- …and so do all of them. -/
theorem ObjReceiver.Reports.feed {s : ObjReceiver} {msgs : List ObjFileChunk} (h : s.Reports out)
    (hmsgs : ∀ m ∈ msgs, m.isLastChunk = true → m.callResult = out.callResult
      ∧ m.response = out.response) :
    (s.feed sessionUuid msgs).Reports out := by
  induction msgs generalizing s with
  | nil => exact h
  | cons m msgs ih =>
    exact ih (h.step (hmsgs m List.mem_cons_self))
      fun m' hm' => hmsgs m' (List.mem_cons_of_mem m hm')

/-- A session that publishes once has published its result. -/
theorem ObjReceiver.Reports.of_published {s : ObjReceiver} (h : s.Reports out)
    (hone : s.published.length = 1) :
    s.call = some out.callResult ∧ s.published = [out.response] := by
  rcases h with hnone | ⟨hcall, hpub, -⟩
  · rw [hnone] at hone
    cases hone
  · exact ⟨hcall, hpub⟩

/-- The compiler's logs are UTF-8. -/
def CompilationOutput.Utf8 (rt : WireRuntime) (out : CompilationOutput) : Prop :=
  rt.verifyUtf8 out.stdoutData = true ∧ rt.verifyUtf8 out.stderrData = true

/-- With UTF-8 logs every chunk is delivered as it is. -/
theorem deliveredResult_of_utf8 {objFile : Option Str} (hid : rt.verifyUtf8 sessionUuid = true)
    (hout : out.Utf8 rt) (hfits : ResultFits rt sessionUuid out objFile) :
    deliveredResult rt sessionUuid out objFile = sendCompilationResult sessionUuid out objFile := by
  refine (List.filterMap_congr (g := some) fun m hm => ?_).trans (List.filterMap_some)
  obtain ⟨hsession, hlast, hother⟩ := chunk_logs hm
  refine delivered_chunk_of_utf8 (hfits m hm) ⟨by rw [hsession]; exact hid, ?_⟩
  cases hmark : m.isLastChunk with
  | true =>
    obtain ⟨hstdout, hstderr⟩ := hlast hmark
    rw [hstdout, hstderr]
    exact hout
  | false =>
    obtain ⟨hstdout, hstderr⟩ := hother hmark
    rw [hstdout, hstderr]
    exact ⟨rt.verifyUtf8_nil, rt.verifyUtf8_nil⟩

/-- Without UTF-8 logs no chunk is delivered as the last one. -/
theorem deliveredResult_of_not_utf8 {objFile : Option Str} (hout : ¬ out.Utf8 rt)
    (hfits : ResultFits rt sessionUuid out objFile) :
    ∀ m ∈ deliveredResult rt sessionUuid out objFile, m.isLastChunk = false := by
  intro m' hm'
  obtain ⟨m, hm, hdelivered⟩ := List.mem_filterMap.mp hm'
  obtain ⟨-, hlast, -⟩ := chunk_logs hm
  by_cases hutf8 : m.Utf8 rt
  · rw [delivered_chunk_of_utf8 (hfits m hm) hutf8] at hdelivered
    obtain rfl := Option.some.inj hdelivered
    refine Bool.eq_false_iff.mpr fun hmark => hout ?_
    obtain ⟨hstdout, hstderr⟩ := hlast hmark
    rw [CompilationOutput.Utf8, ← hstdout, ← hstderr]
    exact hutf8.2
  · obtain ⟨m'', hm'', hmark⟩ := delivered_chunk_of_not_utf8 (hfits m hm) hutf8
    obtain rfl : m'' = m' := Option.some.inj (hm''.symm.trans hdelivered)
    exact hmark

/-- With UTF-8 logs the wire makes no difference. -/
theorem resultDelivered_iff_of_utf8 {objFile : Option Str} {d : Disk} {path : Str}
    (hid : rt.verifyUtf8 sessionUuid = true) (hout : out.Utf8 rt)
    (hfits : ResultFits rt sessionUuid out objFile) :
    ResultDelivered rt sessionUuid out objFile d path
      ↔ ResultArrives sessionUuid out objFile d path := by
  rw [ResultDelivered, deliveredResult_of_utf8 hid hout hfits, ResultArrives]
  have hreports : ((ObjReceiver.start sessionUuid d path).feed sessionUuid
      (sendCompilationResult sessionUuid out objFile)).Reports out :=
    ObjReceiver.Reports.feed (.inl rfl) fun m hm => last_chunk_reports hm
  constructor
  · rintro ⟨hlast, hfin, -, hpub, hfile⟩
    exact ⟨hlast, hfin, congrArg List.length hpub, hfile⟩
  · rintro ⟨hlast, hfin, hone, hfile⟩
    obtain ⟨hcall, hpub⟩ := hreports.of_published hone
    exact ⟨hlast, hfin, hcall, hpub, hfile⟩

/-- **A result arrives over the wire exactly if the compiler's logs are UTF-8, and it failed or left
an object file that ends on a short buffer** and that the client can store. -/
theorem result_delivered_iff (rt : WireRuntime) (sessionUuid : SessionId) (out : CompilationOutput)
    (objFile : Option Str) (d : Disk) (path : Str) (hid : rt.verifyUtf8 sessionUuid = true)
    (hfits : ResultFits rt sessionUuid out objFile) :
    ResultDelivered rt sessionUuid out objFile d path ↔
      out.Utf8 rt ∧ (out.exitCode ≠ 0 ∨ ∃ content, objFile = some content
        ∧ ¬ chunkSize ∣ content.length
          ∧ (d.writable path = true ∨ d.files path = some content)) := by
  by_cases hout : out.Utf8 rt
  · rw [resultDelivered_iff_of_utf8 hid hout hfits, and_iff_right hout]
    by_cases h : out.exitCode = 0
    · cases objFile with
      | none =>
        have hnone : ¬ ResultArrives sessionUuid out none d path :=
          not_result_arrives_of_full none h fun _ hc => by cases hc
        exact iff_of_false hnone (by simp [h])
      | some content =>
        by_cases hshort : chunkSize ∣ content.length
        · have hfull : ¬ ResultArrives sessionUuid out (some content) d path :=
            not_result_arrives_of_full (some content) h fun c hc => Option.some.inj hc ▸ hshort
          exact iff_of_false hfull (by simp [h, hshort])
        · rw [result_arrives_of_short h hshort, received]
          cases d.writable path <;> simp [h, hshort]
    · exact iff_of_true (result_arrives_of_failure h) (Or.inl h)
  · refine iff_of_false ?_ fun h => hout h.1
    rintro ⟨⟨init, last, hmsgs, hmark, -⟩, -⟩
    have hunmarked := deliveredResult_of_not_utf8 hout hfits last (by rw [hmsgs]; simp)
    exact absurd (hunmarked.symm.trans hmark) (by decide)

/-- A failed compilation whose diagnostics quote a name in Latin-1 never arrives. -/
theorem not_result_delivered_latin1 :
    ¬ ResultDelivered base128 (str "s") ⟨[], str "error: " ++ [0xE4], 0, 1⟩ none Disk.empty
      (str "/out.o") := by
  have hfits : ResultFits base128 (str "s") ⟨[], str "error: " ++ [0xE4], 0, 1⟩ none := by
    intro m hm
    obtain rfl := List.mem_singleton.mp hm
    decide +kernel
  rw [result_delivered_iff base128 _ _ _ _ _ (by decide +kernel) hfits]
  rintro ⟨⟨-, hstderr⟩, -⟩
  exact absurd hstderr (by decide +kernel)

end DistBuild
