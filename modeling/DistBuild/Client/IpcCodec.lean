import DistBuild.Machinery.Reads
import DistBuild.Result.Response

/-!
# Client/IpcCodec — requests and responses on the wrapper's socket

    wrapper ─serializeRequest─▸ frame ─▸ daemon: deserializeRequest
    wrapper: deserializeResponse ◂─ frame ◂─serializeResponse─ daemon

Each end decodes what the other encodes, byte for byte and through the frame
(`ipc_codec_roundTrip`); a response only if both its logs have a size that fits the word
(`deserialize_serialize_response_iff`).  The decoders look at no size but those in the payload, so
on other payloads they read behind it: they stay inside exactly the payloads that begin with an
encoding (`decoders_inside_iff`).
-/

namespace DistBuild

structure UnixIpcRequest where
  currentWorkingDir : Str
  cmdLineArgs : List Str
deriving DecidableEq, Repr

/-- Every size of the request fits the word it is sent in. -/
def UnixIpcRequest.Fits (req : UnixIpcRequest) : Prop :=
  req.currentWorkingDir.length < 2 ^ 32 ∧ req.cmdLineArgs.length < 2 ^ 32
    ∧ ∀ arg ∈ req.cmdLineArgs, arg.length < 2 ^ 32

/-- Every size of the response fits the word it is sent in. -/
def UnixIpcResponse.Fits (resp : UnixIpcResponse) : Prop :=
  resp.stdoutContent.length < 2 ^ 32 ∧ resp.stderrContent.length < 2 ^ 32

/-! ## The two ends -/

/-- The wrapper's `serialize_request`. -/
def serializeRequest (req : UnixIpcRequest) : Str :=
  appendStrings (appendU32 (appendString [] req.currentWorkingDir)
    (UInt32.ofNat req.cmdLineArgs.length)) req.cmdLineArgs

/-- `UnixIpcManager::_deserialize_request` with where its offset ends; `none` reads outside the
payload. -/
def deserializeRequest (data : Str) : Option (UnixIpcRequest × ℕ) := do
  let (cwd, offset) ← readString data 0
  let argc ← readU32 data offset
  let (args, offset) ← readStrings data argc.toNat (offset + 4)
  return (⟨cwd, args⟩, offset)

/-- What `send_request_to_distbuild` writes. -/
def sendRequest (req : UnixIpcRequest) : Str := frame (serializeRequest req)

/-- What `_handle_session` reads. -/
def receiveRequest (stream : Str) : Option (UnixIpcRequest × ℕ) := do
  let (payload, _) ← readFrame stream
  deserializeRequest payload

/-- What `_handle_session` writes. -/
def sendResponse (resp : UnixIpcResponse) : Str := frame (serializeResponse resp)

/-- What `send_request_to_distbuild` reads. -/
def receiveResponse (stream : Str) : Option UnixIpcResponse := do
  let (payload, _) ← readFrame stream
  deserializeResponse payload

/-! ## Round trips -/

variable {req : UnixIpcRequest} {resp : UnixIpcResponse} {data : Str}

/-- A request is laid out as its directory, its argument count and its arguments. -/
theorem serializeRequest_append (req : UnixIpcRequest) (rest : Str) :
    serializeRequest req ++ rest = appendString [] req.currentWorkingDir
      ++ (u32Bytes (UInt32.ofNat req.cmdLineArgs.length)
        ++ (appendStrings [] req.cmdLineArgs ++ rest)) := by
  rw [serializeRequest, appendStrings_append, appendU32, List.append_assoc, List.append_assoc]

/-- The daemon decodes a request whatever follows it in the payload, and stops behind it. -/
theorem deserialize_serialize_request (rest : Str) (h : req.Fits) :
    deserializeRequest (serializeRequest req ++ rest)
      = some (req, (serializeRequest req).length) := by
  obtain ⟨cwd, args⟩ := req
  obtain ⟨hcwd, hargc, hargs⟩ := h
  set header := appendString [] cwd
  set counted := appendU32 header (UInt32.ofNat args.length)
  have hargc' : (UInt32.ofNat args.length).toNat = args.length := UInt32.toNat_ofNat_of_lt' hargc
  have hpayload : serializeRequest ⟨cwd, args⟩ ++ rest
      = header ++ (u32Bytes (UInt32.ofNat args.length) ++ (appendStrings [] args ++ rest)) :=
    serializeRequest_append ⟨cwd, args⟩ rest
  have hhead : readString (serializeRequest ⟨cwd, args⟩ ++ rest) 0 = some (cwd, header.length) := by
    rw [hpayload]
    exact readString_append [] cwd _ hcwd
  have hcount : readU32 (serializeRequest ⟨cwd, args⟩ ++ rest) header.length
      = some (UInt32.ofNat args.length) := by
    rw [hpayload, ← List.append_assoc]
    exact readU32_append header _ _
  have hstrings := readStrings_append counted args rest hargs
  rw [length_appendU32] at hstrings
  rw [deserializeRequest, hhead]
  simp only [Option.bind_eq_bind, Option.bind_some, hcount, hargc']
  rw [show serializeRequest ⟨cwd, args⟩ = appendStrings counted args from rfl, hstrings]
  rfl

/-- The daemon's decoder gives back what stands at the start of the payload. -/
theorem deserializeRequest_eq_some {next : ℕ} (h : deserializeRequest data = some (req, next)) :
    req.Fits ∧ data = serializeRequest req ++ data.drop next := by
  simp only [deserializeRequest, Option.bind_eq_bind, Option.bind_eq_some_iff, Option.pure_def,
    Option.some.injEq, Prod.mk.injEq] at h
  obtain ⟨⟨cwd, off⟩, hcwd, argc, hargc, ⟨args, last⟩, hargs, rfl, rfl⟩ := h
  obtain ⟨hcwdLen, -, hhead⟩ := readString_eq_some hcwd
  obtain ⟨-, hcount⟩ := readU32_eq_some hargc
  obtain ⟨hn, hargsLen, htail⟩ := readStrings_eq_some hargs
  have hargc' : UInt32.ofNat args.length = argc := by rw [hn, UInt32.ofNat_toNat]
  refine ⟨⟨hcwdLen, by rw [hn]; exact argc.toNat_lt, hargsLen⟩, ?_⟩
  calc data = appendString [] cwd
          ++ (u32Bytes argc ++ (appendStrings [] args ++ data.drop last)) := by
        rw [← htail, ← hcount, ← hhead, List.drop_zero]
    _ = serializeRequest ⟨cwd, args⟩ ++ data.drop last := by
        rw [serializeRequest_append, hargc']

/-- The wrapper's decoder gives back what stands at the start of the payload. -/
theorem deserializeResponse_eq_some (h : deserializeResponse data = some resp) :
    resp.Fits ∧ serializeResponse resp <+: data := by
  simp only [deserializeResponse, Option.bind_eq_bind, Option.bind_eq_some_iff, Option.pure_def,
    Option.some.injEq] at h
  obtain ⟨exitCode, hcode, ⟨out, off⟩, hout, ⟨err, last⟩, herr, rfl⟩ := h
  obtain ⟨-, hhead⟩ := readU32_eq_some hcode
  obtain ⟨houtLen, -, hmid⟩ := readString_eq_some hout
  obtain ⟨herrLen, -, htail⟩ := readString_eq_some herr
  refine ⟨⟨houtLen, herrLen⟩, data.drop last, ?_⟩
  have hcode' : exitCode.toInt32.toUInt32 = exitCode := rfl
  calc serializeResponse ⟨exitCode.toInt32, out, err⟩ ++ data.drop last
      = u32Bytes exitCode ++ (appendString [] out ++ (appendString [] err ++ data.drop last)) := by
        rw [serializeResponse_append, hcode']
    _ = data := by rw [← htail, ← hmid, ← hhead, List.drop_zero]

/-- **The wrapper decodes exactly the responses whose sizes fit**: a longer log is sent with its
size modulo 2³². -/
theorem deserialize_serialize_response_iff (resp : UnixIpcResponse) :
    deserializeResponse (serializeResponse resp) = some resp ↔ resp.Fits := by
  refine ⟨fun h => (deserializeResponse_eq_some h).1, fun h => ?_⟩
  exact deserialize_serialize_response resp h.1 h.2

theorem length_appendStrings (out : Str) (ss : List Str) :
    (appendStrings out ss).length = out.length + 4 * ss.length + (ss.map List.length).sum := by
  induction ss generalizing out with
  | nil => rfl
  | cons s ss ih =>
    rw [appendStrings_cons, ih, length_appendString, List.length_cons, List.map_cons, List.sum_cons]
    omega

/-- A request whose payload fits a frame fits. -/
theorem UnixIpcRequest.fits_of_length (h : (serializeRequest req).length < 2 ^ 32) : req.Fits := by
  rw [serializeRequest, length_appendStrings, length_appendU32, length_appendString,
    List.length_nil] at h
  refine ⟨by omega, by omega, fun arg harg => ?_⟩
  have := List.le_sum_of_mem (List.mem_map_of_mem (f := List.length) harg)
  omega

/-- A response whose payload fits a frame fits. -/
theorem UnixIpcResponse.fits_of_length (h : (serializeResponse resp).length < 2 ^ 32) :
    resp.Fits := by
  rw [serializeResponse, length_appendString, length_appendString, length_appendU32,
    List.length_nil] at h
  exact ⟨by omega, by omega⟩

theorem receiveRequest_sendRequest (rest : Str) (h : (serializeRequest req).length < 2 ^ 32) :
    receiveRequest (sendRequest req ++ rest) = some (req, (serializeRequest req).length) := by
  have hreq := deserialize_serialize_request [] (UnixIpcRequest.fits_of_length h)
  rw [List.append_nil] at hreq
  rw [receiveRequest, sendRequest, readFrame_frame _ rest h]
  exact hreq

theorem receiveResponse_sendResponse (rest : Str) (h : (serializeResponse resp).length < 2 ^ 32) :
    receiveResponse (sendResponse resp ++ rest) = some resp := by
  rw [receiveResponse, sendResponse, readFrame_frame _ rest h]
  exact (deserialize_serialize_response_iff resp).mpr (UnixIpcResponse.fits_of_length h)

/-- **The codec's round trips**, plain and through the frame. -/
theorem ipc_codec_roundTrip (req : UnixIpcRequest) (resp : UnixIpcResponse) (rest : Str)
    (hreq : req.Fits) :
    deserializeRequest (serializeRequest req) = some (req, (serializeRequest req).length)
      ∧ (deserializeResponse (serializeResponse resp) = some resp ↔ resp.Fits)
      ∧ ((serializeRequest req).length < 2 ^ 32 →
          receiveRequest (sendRequest req ++ rest) = some (req, (serializeRequest req).length))
      ∧ ((serializeResponse resp).length < 2 ^ 32 →
          receiveResponse (sendResponse resp ++ rest) = some resp) := by
  have hplain := deserialize_serialize_request [] hreq
  rw [List.append_nil] at hplain
  exact ⟨hplain, deserialize_serialize_response_iff resp, receiveRequest_sendRequest rest,
    receiveResponse_sendResponse rest⟩

/-- A call of the compiler in a directory, answered by a negative exit code. -/
theorem compilerCall_codec_roundTrip :
    deserializeRequest (serializeRequest ⟨str "/w", [str "gcc", [], str "m.c"]⟩)
      = some (⟨str "/w", [str "gcc", [], str "m.c"]⟩,
          (serializeRequest ⟨str "/w", [str "gcc", [], str "m.c"]⟩).length)
      ∧ deserializeResponse (serializeResponse ⟨-1, str "out", []⟩) = some ⟨-1, str "out", []⟩
      ∧ receiveResponse (sendResponse ⟨-1, str "out", []⟩ ++ [7]) = some ⟨-1, str "out", []⟩ := by
  have h := ipc_codec_roundTrip ⟨str "/w", [str "gcc", [], str "m.c"]⟩ ⟨-1, str "out", []⟩ [7]
    ⟨by decide, by decide, by decide⟩
  exact ⟨h.1, h.2.1.mpr ⟨by decide, by decide⟩, h.2.2.2 (by decide)⟩

/-- A log of 2³² bytes is not decoded. -/
theorem wordLongLog_not_decoded :
    ¬ ∀ resp : UnixIpcResponse, deserializeResponse (serializeResponse resp) = some resp := by
  intro h
  have hfits := (deserialize_serialize_response_iff _).mp (h ⟨0, List.replicate (2 ^ 32) 0, []⟩)
  have hlen : (List.replicate (2 ^ 32) (0 : UInt8)).length < 2 ^ 32 := hfits.1
  rw [List.length_replicate] at hlen
  exact lt_irrefl _ hlen

/-! ## Payloads of any content

What the code runs is a reader on the memory behind the payload's first byte.
-/

/-- `UnixIpcManager::_deserialize_request` on memory. -/
def deserializeRequestAt (mem : ℕ → UInt8) : Reads (UnixIpcRequest × ℕ) := do
  let (cwd, offset) ← readStringAt mem 0
  let argc ← readU32At mem offset
  let (args, offset) ← readStringsAt mem argc.toNat (offset + 4)
  return (⟨cwd, args⟩, offset)

/-- The wrapper's `deserialize_response` on memory. -/
def deserializeResponseAt (mem : ℕ → UInt8) : Reads UnixIpcResponse := do
  let exitCode ← readU32At mem 0
  let (stdoutContent, offset) ← readStringAt mem 4
  let (stderrContent, _) ← readStringAt mem offset
  return ⟨exitCode.toInt32, stdoutContent, stderrContent⟩

variable (data : Str) (beyond : ℕ → UInt8)

theorem inside_deserializeRequestAt :
    (deserializeRequestAt (memory data beyond)).inside data.length = deserializeRequest data := by
  simp only [deserializeRequestAt, Reads.inside_bind, inside_readStringAt, inside_readU32At,
    inside_readStringsAt, Reads.inside_pure]
  rfl

theorem inside_deserializeResponseAt :
    (deserializeResponseAt (memory data beyond)).inside data.length = deserializeResponse data := by
  simp only [deserializeResponseAt, Reads.inside_bind, inside_readStringAt, inside_readU32At,
    Reads.inside_pure]
  rfl

/-- A request is read off the payload from its start on, each byte once. -/
theorem indices_deserializeRequestAt (mem : ℕ → UInt8) :
    ∃ n, (deserializeRequestAt mem).indices = List.range' 0 n := by
  obtain ⟨k, hk, hcwd⟩ := indices_readStringAt mem 0
  obtain ⟨m, -, hargs⟩ := indices_readStringsAt mem
    (readU32At mem (readStringAt mem 0).value.2).value.toNat ((readStringAt mem 0).value.2 + 4)
  refine ⟨k + (4 + m), ?_⟩
  rw [deserializeRequestAt, Reads.indices_bind, Reads.indices_bind, Reads.indices_bind,
    Reads.indices_pure, List.append_nil, hcwd, indices_readU32At, hargs, hk, List.range'_append_1,
    List.range'_append_1]

/-- A response is read off the payload from its start on, each byte once. -/
theorem indices_deserializeResponseAt (mem : ℕ → UInt8) :
    ∃ n, (deserializeResponseAt mem).indices = List.range' 0 n := by
  obtain ⟨k, hk, hout⟩ := indices_readStringAt mem 4
  obtain ⟨m, -, herr⟩ := indices_readStringAt mem (readStringAt mem 4).value.2
  refine ⟨4 + (k + m), ?_⟩
  rw [deserializeResponseAt, Reads.indices_bind, Reads.indices_bind, Reads.indices_bind,
    Reads.indices_pure, List.append_nil, indices_readU32At, hout, herr, hk, List.range'_append_1]
  exact List.range'_append_1

/-- Readers that read each byte from the start on read no more bytes than they stay inside of. -/
theorem length_le_of_inside {α : Type} {x : Reads α} {size : ℕ}
    (hx : ∃ n, x.indices = List.range' 0 n) (hin : ∀ i ∈ x.indices, i < size) :
    x.indices.length ≤ size := by
  obtain ⟨n, hn⟩ := hx
  rw [hn, List.length_range']
  rw [hn] at hin
  by_contra h
  exact lt_irrefl size (hin size (List.mem_range'_1.mpr ⟨Nat.zero_le _, by omega⟩))

/-- The decoder touches the payload only, no more often than it has bytes, and what it returns
encodes to a prefix of it. -/
def ReadsInside {α : Type} (x : Reads α) (encode : α → Str) : Prop :=
  (∀ i ∈ x.indices, i < data.length) ∧ x.indices.length ≤ data.length ∧ encode x.value <+: data

/-- The daemon's decoder stays inside exactly the payloads that begin with a request. -/
theorem deserializeRequestAt_inside_iff :
    (∀ i ∈ (deserializeRequestAt (memory data beyond)).indices, i < data.length)
      ↔ ∃ req : UnixIpcRequest, req.Fits ∧ serializeRequest req <+: data := by
  rw [← Reads.isSome_inside, inside_deserializeRequestAt]
  constructor
  · intro h
    obtain ⟨⟨req, next⟩, hdata⟩ := Option.isSome_iff_exists.mp h
    obtain ⟨hfits, henc⟩ := deserializeRequest_eq_some hdata
    exact ⟨req, hfits, _, henc.symm⟩
  · rintro ⟨req, hfits, rest, rfl⟩
    rw [deserialize_serialize_request rest hfits]
    rfl

/-- The wrapper's decoder stays inside exactly the payloads that begin with a response. -/
theorem deserializeResponseAt_inside_iff :
    (∀ i ∈ (deserializeResponseAt (memory data beyond)).indices, i < data.length)
      ↔ ∃ resp : UnixIpcResponse, resp.Fits ∧ serializeResponse resp <+: data := by
  rw [← Reads.isSome_inside, inside_deserializeResponseAt]
  constructor
  · intro h
    obtain ⟨resp, hdata⟩ := Option.isSome_iff_exists.mp h
    exact ⟨resp, deserializeResponse_eq_some hdata⟩
  · rintro ⟨resp, hfits, rest, rfl⟩
    rw [deserialize_serialize_response_append rest hfits.1 hfits.2]
    rfl

/-- **The decoders stay inside exactly the payloads that begin with an encoding.** -/
theorem decoders_inside_iff :
    (ReadsInside data (deserializeRequestAt (memory data beyond)) (fun r => serializeRequest r.1)
        ↔ ∃ req : UnixIpcRequest, req.Fits ∧ serializeRequest req <+: data)
      ∧ (ReadsInside data (deserializeResponseAt (memory data beyond)) serializeResponse
        ↔ ∃ resp : UnixIpcResponse, resp.Fits ∧ serializeResponse resp <+: data) := by
  constructor
  · refine ⟨fun h => (deserializeRequestAt_inside_iff data beyond).mp h.1, fun h => ?_⟩
    have hin := (deserializeRequestAt_inside_iff data beyond).mpr h
    have hdata := inside_deserializeRequestAt data beyond
    rw [Reads.inside_eq_some.mpr ⟨hin, rfl⟩] at hdata
    exact ⟨hin, length_le_of_inside (indices_deserializeRequestAt _) hin, _,
      (deserializeRequest_eq_some hdata.symm).2.symm⟩
  · refine ⟨fun h => (deserializeResponseAt_inside_iff data beyond).mp h.1, fun h => ?_⟩
    have hin := (deserializeResponseAt_inside_iff data beyond).mpr h
    have hdata := inside_deserializeResponseAt data beyond
    rw [Reads.inside_eq_some.mpr ⟨hin, rfl⟩] at hdata
    exact ⟨hin, length_le_of_inside (indices_deserializeResponseAt _) hin,
      (deserializeResponse_eq_some hdata.symm).2⟩

/-- Of a payload that says its directory has 255 bytes, and has none, the daemon reads them. -/
theorem truncatedRequest_read_outside :
    ¬ ∀ (data : Str) (beyond : ℕ → UInt8),
      ReadsInside data (deserializeRequestAt (memory data beyond)) (fun r => serializeRequest r.1)
        ∧ ReadsInside data (deserializeResponseAt (memory data beyond)) serializeResponse := by
  intro h
  have hin := (h [0, 0, 0, 255] fun _ => 0).1.1
  exact absurd (hin 4 (by decide +kernel)) (by decide)

end DistBuild
