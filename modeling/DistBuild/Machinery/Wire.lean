import DistBuild.Machinery.Posix

/-!
# Machinery/Wire — tagged fields, and the messages they make up

    scalar field     ─▸ tag byte ++ varint
    payload p        ─▸ tag byte ++ varint of its size ++ p
    message          ─▸ its fields one after the other; a zero and an empty string are left out

A parser reads a tag, looks its number up in the table of fields and merges what follows into the
message, so a message is read back by replaying its fields (`parse_serialize`).  A string the format
refuses ends the parse where it stands: what was merged before stays (`Parsed.invalid`).

The primitives are a parameter, `WireRuntime`, with what a codec relies on; `base128` is the format
itself.
-/

namespace DistBuild

namespace Wire

/-- The largest size a reader accepts for a payload. -/
abbrev maxSize : ℕ := 2147483631

/-- The primitives of the format, with what a codec relies on. -/
structure WireRuntime where
  writeVarint : UInt64 → Str
  readVarint : Str → Option (UInt64 × Str)
  readTag : Str → Option (UInt32 × Str)
  readSize : Str → Option (ℕ × Str)
  /-- Skips a field that has no place in the message. -/
  unknownField : UInt32 → Str → Option Str
  verifyUtf8 : Str → Bool
  readVarint_append : ∀ v rest, readVarint (writeVarint v ++ rest) = some (v, rest)
  readTag_cons : ∀ (b : UInt8) (rest : Str), 0 < b → b < 128 →
    readTag (b :: rest) = some (b.toUInt32, rest)
  readSize_append : ∀ n rest, n ≤ maxSize →
    readSize (writeVarint (UInt64.ofNat n) ++ rest) = some (n, rest)
  verifyUtf8_nil : verifyUtf8 [] = true

/-! ## What a parser leaves -/

variable {M N : Type*}

/-- A message, a message up to a string that was refused, or bytes that are no message. -/
inductive Parsed (M : Type*)
  | complete (m : M)
  | invalid (m : M)
  | malformed
deriving DecidableEq, Repr

namespace Parsed

/-- Merge more into a message that is complete so far. -/
def andThen (r : Parsed M) (f : M → Parsed M) : Parsed M :=
  match r with
  | complete m => f m
  | invalid m => invalid m
  | malformed => malformed

def map (f : M → N) : Parsed M → Parsed N
  | complete m => complete (f m)
  | invalid m => invalid (f m)
  | malformed => malformed

/-- What the receiver holds, who does not ask whether the parse went through. -/
def object : Parsed M → Option M
  | complete m => some m
  | invalid m => some m
  | malformed => none

@[simp] theorem object_complete (m : M) : (complete m).object = some m := rfl

@[simp] theorem object_invalid (m : M) : (invalid m).object = some m := rfl

@[simp] theorem complete_andThen (m : M) (f : M → Parsed M) : (complete m).andThen f = f m := rfl

@[simp] theorem invalid_andThen (m : M) (f : M → Parsed M) :
    (invalid m).andThen f = invalid m := rfl

@[simp] theorem malformed_andThen (f : M → Parsed M) :
    (malformed : Parsed M).andThen f = malformed :=
  rfl

@[simp] theorem map_complete (f : M → N) (m : M) : (complete m).map f = complete (f m) := rfl

@[simp] theorem map_invalid (f : M → N) (m : M) : (invalid m).map f = invalid (f m) := rfl

@[simp] theorem map_malformed (f : M → N) : (malformed : Parsed M).map f = malformed := rfl

theorem andThen_complete (r : Parsed M) : r.andThen complete = r := by cases r <;> rfl

theorem andThen_assoc (r : Parsed M) (f g : M → Parsed M) :
    (r.andThen f).andThen g = r.andThen fun m => (f m).andThen g := by cases r <;> rfl

theorem andThen_eq_complete {r : Parsed M} {f : M → Parsed M} {m : M} :
    r.andThen f = complete m ↔ ∃ m', r = complete m' ∧ f m' = complete m := by
  cases r <;> simp

theorem map_eq_complete {r : Parsed M} {f : M → N} {n : N} :
    r.map f = complete n ↔ ∃ m, r = complete m ∧ f m = n := by
  cases r <;> simp

theorem andThen_eq_invalid {r : Parsed M} {f : M → Parsed M} {m : M} :
    r.andThen f = invalid m ↔ r = invalid m ∨ ∃ m', r = complete m' ∧ f m' = invalid m := by
  cases r <;> simp

theorem map_eq_invalid {r : Parsed M} {f : M → N} {n : N} :
    r.map f = invalid n ↔ ∃ m, r = invalid m ∧ f m = n := by
  cases r <;> simp

/-- The bytes were a message, up to a string at most. -/
def Legible (r : Parsed M) : Prop := r.object.isSome = true

theorem Legible.andThen {r : Parsed M} {f : M → Parsed M} (h : r.Legible)
    (hf : ∀ m, (f m).Legible) : (r.andThen f).Legible := by
  cases r with
  | complete m => exact hf m
  | invalid m => rfl
  | malformed => cases h

theorem Legible.map {r : Parsed M} (h : r.Legible) (f : M → N) : (r.map f).Legible := by
  cases r with
  | complete m => rfl
  | invalid m => rfl
  | malformed => cases h

end Parsed

/-! ## Fields -/

/-- A length-delimited payload: the size written before it, and its bytes. -/
structure Payload where
  size : ℕ
  bytes : Str

/-- The size written is the size, and readers accept it. -/
def Payload.Honest (p : Payload) : Prop := p.size = p.bytes.length ∧ p.size ≤ maxSize

/-- A field of a message: a scalar, or anything that is delimited by its length. -/
inductive Field (M : Type*)
  | scalar (number : ℕ) (get : M → UInt64) (set : UInt64 → M → M)
  | delimited (number : ℕ) (payloads : M → List Payload) (merge : Str → M → Parsed M)

namespace Field

def number : Field M → ℕ
  | scalar n _ _ => n
  | delimited n _ _ => n

/-- The number and the kind of what follows, in one byte. -/
def tag : Field M → UInt8
  | scalar n _ _ => UInt8.ofNat (8 * n)
  | delimited n _ _ => UInt8.ofNat (8 * n + 2)

/-- What the field of `m` writes with a size before it. -/
def sized (f : Field M) (m : M) : List Payload :=
  match f with
  | scalar _ _ _ => []
  | delimited _ payloads _ => payloads m

def Honest (f : Field M) (m : M) : Prop := ∀ p ∈ f.sized m, p.Honest

/-- The sizes written are right as long as readers accept them. -/
def Exact (f : Field M) (m : M) : Prop :=
  ∀ p ∈ f.sized m, p.size ≤ maxSize → p.size = p.bytes.length

end Field

/-- Merge payloads one after the other. -/
def mergeAll (merge : Str → M → Parsed M) : List Payload → M → Parsed M
  | [], m => .complete m
  | p :: ps, m => (merge p.bytes m).andThen (mergeAll merge ps)

/-- What the field of `m` does to a message. -/
def Field.replay (f : Field M) (m acc : M) : Parsed M :=
  match f with
  | .scalar _ get set => .complete (if get m = 0 then acc else set (get m) acc)
  | .delimited _ payloads merge => mergeAll merge (payloads m) acc

/-- What the fields of `m` do to a message, one after the other. -/
def replay (fields : List (Field M)) (m acc : M) : Parsed M :=
  match fields with
  | [] => .complete acc
  | f :: fs => (f.replay m acc).andThen (replay fs m)

variable (rt : WireRuntime)

/-! ## Writing -/

def writePayload (tag : UInt8) (p : Payload) : Str :=
  tag :: (rt.writeVarint (UInt64.ofNat p.size) ++ p.bytes)

def Field.write (f : Field M) (m : M) : Str :=
  match f with
  | .scalar _ get _ => if get m = 0 then [] else f.tag :: rt.writeVarint (get m)
  | .delimited _ payloads _ => (payloads m).flatMap (writePayload rt f.tag)

/-- The fields, one after the other. -/
def serialize (fields : List (Field M)) (m : M) : Str := fields.flatMap fun f => f.write rt m

def Payload.wireSize (p : Payload) : ℕ :=
  1 + (rt.writeVarint (UInt64.ofNat p.size)).length + p.size

def Field.wireSize (f : Field M) (m : M) : ℕ :=
  match f with
  | .scalar _ get _ => if get m = 0 then 0 else 1 + (rt.writeVarint (get m)).length
  | .delimited _ payloads _ => ((payloads m).map (Payload.wireSize rt)).sum

/-- The size of a message, from the sizes it is written with. -/
def byteSizeLong (fields : List (Field M)) (m : M) : ℕ :=
  (fields.map fun f => f.wireSize rt m).sum

/-! ## Reading -/

/-- A field that has no place in the message is skipped; an end tag and the tag 0 end the parse. -/
def readUnusual (tag : UInt32) (rest : Str) (m : M) : Option (Parsed M × Str) :=
  if tag = 0 ∨ tag &&& 7 = 4 then none
  else (rt.unknownField tag rest).map fun rest => (.complete m, rest)

/-- What follows the tag of the field. -/
def Field.read (f : Field M) (tag : UInt32) (rest : Str) (m : M) : Option (Parsed M × Str) :=
  if tag.toUInt8 = f.tag then
    match f with
    | .scalar _ _ set => (rt.readVarint rest).map fun r => (.complete (set r.1 m), r.2)
    | .delimited _ _ merge =>
      (rt.readSize rest).bind fun r =>
        if r.1 ≤ r.2.length then some (merge (r.2.take r.1) m, r.2.drop r.1) else none
  else readUnusual rt tag rest m

/-- One field: its tag, and what follows. -/
def readField (fields : List (Field M)) (data : Str) (m : M) : Option (Parsed M × Str) :=
  (rt.readTag data).bind fun r =>
    match fields.find? fun f => f.number = (r.1 >>> 3).toNat with
    | some f => f.read rt r.1 r.2 m
    | none => readUnusual rt r.1 r.2 m

/-- Fields are merged into the message up to the end of the bytes; each round takes its tag off
them. -/
def parse (fields : List (Field M)) (data : Str) (m : M) : Parsed M :=
  if data = [] then .complete m
  else
    match readField rt fields data m with
    | none => .malformed
    | some (r, rest) =>
      if rest.length < data.length then r.andThen fun m => parse fields rest m else .malformed
termination_by data.length

/-! ## A field is read where it was written -/

variable {rt} {fields : List (Field M)} {f : Field M}

theorem readTag_tag (h : 0 < f.number) (h' : f.number < 16) (rest : Str) :
    rt.readTag (f.tag :: rest) = some (f.tag.toUInt32, rest) := by
  have hbytes : ∀ n < 16, 0 < n → 0 < UInt8.ofNat (8 * n) ∧ UInt8.ofNat (8 * n) < 128
      ∧ 0 < UInt8.ofNat (8 * n + 2) ∧ UInt8.ofNat (8 * n + 2) < 128 := by decide
  obtain ⟨hs, hs', hd, hd'⟩ := hbytes _ h' h
  cases f with
  | scalar => exact rt.readTag_cons _ rest hs hs'
  | delimited => exact rt.readTag_cons _ rest hd hd'

/-- The tag holds the number. -/
theorem number_of_tag (h : f.number < 16) : (f.tag.toUInt32 >>> 3).toNat = f.number := by
  have hnum : ∀ n < 16, ((UInt8.ofNat (8 * n)).toUInt32 >>> 3).toNat = n
      ∧ ((UInt8.ofNat (8 * n + 2)).toUInt32 >>> 3).toNat = n := by decide
  cases f with
  | scalar => exact (hnum _ h).1
  | delimited => exact (hnum _ h).2

/-- Numbers tell the fields apart. -/
theorem find?_number (hnd : (fields.map Field.number).Nodup) (hf : f ∈ fields) :
    (fields.find? fun g => g.number = f.number) = some f := by
  induction fields with
  | nil => cases hf
  | cons g fields ih =>
    obtain ⟨hg, hnd⟩ := List.nodup_cons.mp hnd
    rcases List.mem_cons.mp hf with rfl | hf
    · exact List.find?_cons_of_pos (by simp)
    · have hne : g.number ≠ f.number := fun h => hg (h ▸ List.mem_map_of_mem hf)
      rw [List.find?_cons_of_neg (by simpa using hne)]
      exact ih hnd hf

theorem readField_tag (hnd : (fields.map Field.number).Nodup) (hf : f ∈ fields)
    (h : 0 < f.number) (h' : f.number < 16) (rest : Str) (m : M) :
    readField rt fields (f.tag :: rest) m = f.read rt f.tag.toUInt32 rest m := by
  rw [readField, readTag_tag h h', Option.bind_some]
  dsimp only
  rw [number_of_tag h', find?_number hnd hf]

theorem parse_nil (m : M) : parse rt fields [] m = .complete m := by rw [parse, if_pos rfl]

/-- One round of the parser. -/
theorem parse_cons {b : UInt8} {front rest : Str} {m : M} {r : Parsed M}
    (h : readField rt fields (b :: (front ++ rest)) m = some (r, rest)) :
    parse rt fields (b :: (front ++ rest)) m = r.andThen (parse rt fields rest) := by
  have hlen : rest.length < (b :: (front ++ rest)).length := by
    simp only [List.length_cons, List.length_append]
    omega
  rw [parse, if_neg (List.cons_ne_nil _ _), h]
  dsimp only
  rw [if_pos hlen]

/-- A scalar is read where it was written. -/
theorem read_scalar (n : ℕ) (get : M → UInt64) (set : UInt64 → M → M) (v : UInt64) (rest : Str)
    (m : M) : (Field.scalar n get set).read rt (Field.scalar n get set).tag.toUInt32
      (rt.writeVarint v ++ rest) m = some (.complete (set v m), rest) := by
  rw [Field.read, if_pos (by simp), rt.readVarint_append]
  rfl

/-- A payload is read where it was written. -/
theorem read_delimited (n : ℕ) (payloads : M → List Payload) (merge : Str → M → Parsed M)
    {p : Payload} (hp : p.Honest) (rest : Str) (m : M) :
    (Field.delimited n payloads merge).read rt (Field.delimited n payloads merge).tag.toUInt32
      (rt.writeVarint (UInt64.ofNat p.size) ++ (p.bytes ++ rest)) m
        = some (merge p.bytes m, rest) := by
  obtain ⟨hsize, hmax⟩ := hp
  rw [Field.read, if_pos (by simp), rt.readSize_append _ _ hmax]
  simp [hsize]

/-- **A field is replayed where it was written**, and what follows is parsed after it.  The
induction is on the payloads, which are merged one after the other. -/
theorem parse_write (hnd : (fields.map Field.number).Nodup) (hf : f ∈ fields) (h : 0 < f.number)
    (h' : f.number < 16) {m : M} (hm : f.Honest m) (rest : Str) (acc : M) :
    parse rt fields (f.write rt m ++ rest) acc
      = (f.replay m acc).andThen (parse rt fields rest) := by
  cases f with
  | scalar n get set =>
    unfold Field.write Field.replay
    dsimp only
    split_ifs
    · rfl
    · exact parse_cons ((readField_tag hnd hf h h' _ acc).trans
        (read_scalar n get set (get m) rest acc))
  | delimited n payloads merge =>
    unfold Field.write Field.replay
    dsimp only
    have hall : ∀ p ∈ payloads m, p.Honest := hm
    generalize payloads m = ps at hall
    induction ps generalizing acc with
    | nil => rfl
    | cons p ps ih =>
      obtain ⟨hp, hps⟩ := List.forall_mem_cons.mp hall
      let f := Field.delimited n payloads merge
      have hround : parse rt fields (f.tag :: (rt.writeVarint (UInt64.ofNat p.size) ++ p.bytes
          ++ (ps.flatMap (writePayload rt f.tag) ++ rest))) acc
          = (merge p.bytes acc).andThen
            (parse rt fields (ps.flatMap (writePayload rt f.tag) ++ rest)) := by
        refine parse_cons ((readField_tag hnd hf h h' _ acc).trans ?_)
        rw [List.append_assoc]
        exact read_delimited n payloads merge hp _ acc
      rw [mergeAll, Parsed.andThen_assoc, List.flatMap_cons, writePayload, List.append_assoc,
        List.cons_append]
      refine hround.trans ?_
      exact congrArg _ (funext fun acc => ih acc hps)

/-- What follows the fields of `m` is parsed after them. -/
theorem parse_flatMap_write (hnd : (fields.map Field.number).Nodup) {fs : List (Field M)}
    (hfs : ∀ f ∈ fs, f ∈ fields ∧ 0 < f.number ∧ f.number < 16) {m : M}
    (hm : ∀ f ∈ fs, f.Honest m) (acc : M) :
    parse rt fields (serialize rt fs m) acc = replay fs m acc := by
  induction fs generalizing acc with
  | nil => exact parse_nil acc
  | cons f fs ih =>
    obtain ⟨⟨hf, h, h'⟩, hfs⟩ := List.forall_mem_cons.mp hfs
    obtain ⟨hfm, hm⟩ := List.forall_mem_cons.mp hm
    rw [serialize, List.flatMap_cons, parse_write hnd hf h h' hfm, replay]
    exact congrArg _ (funext fun acc => ih hfs hm acc)

/-! ## Message types -/

/-- A message type: its fields, each with a number of its own that fits a tag of one byte, and the
message a parse starts from. -/
structure MessageType (M : Type*) where
  fields : List (Field M)
  empty : M
  numbers_nodup : (fields.map Field.number).Nodup := by simp
  number_pos : ∀ f ∈ fields, 0 < f.number := by simp
  number_lt : ∀ f ∈ fields, f.number < 16 := by simp
  exact : ∀ m, ∀ f ∈ fields, f.Exact m := by simp

namespace MessageType

variable (rt) (T : MessageType M)

def write (m : M) : Str := serialize rt T.fields m

def byteSize (m : M) : ℕ := byteSizeLong rt T.fields m

/-- Parse into a message that is already there. -/
def mergeFrom (data : Str) (m : M) : Parsed M := parse rt T.fields data m

/-- Parse into a new message. -/
def read (data : Str) : Parsed M := T.mergeFrom rt data T.empty

/-- Every size written in the message is the size of what follows it. -/
def Honest (m : M) : Prop := ∀ f ∈ T.fields, f.Honest m

variable {rt T}

/-- **Reading what was written replays the fields.** -/
theorem mergeFrom_write {m : M} (hm : T.Honest m) (acc : M) :
    T.mergeFrom rt (T.write rt m) acc = replay T.fields m acc :=
  parse_flatMap_write T.numbers_nodup
    (fun f hf => ⟨hf, T.number_pos f hf, T.number_lt f hf⟩) hm acc

end MessageType

/-! ## Sizes -/

theorem length_writePayload {p : Payload} (h : p.Honest) (tag : UInt8) :
    (writePayload rt tag p).length = p.wireSize rt := by
  rw [writePayload, Payload.wireSize, List.length_cons, List.length_append, h.1]
  omega

theorem length_write_field {m : M} (h : f.Honest m) : (f.write rt m).length = f.wireSize rt m := by
  cases f with
  | scalar n get set =>
    unfold Field.write Field.wireSize
    dsimp only
    split_ifs
    · rfl
    · exact Nat.add_comm _ 1
  | delimited n payloads merge =>
    have hall : ∀ p ∈ payloads m, p.Honest := h
    unfold Field.write Field.wireSize
    rw [List.length_flatMap]
    exact congrArg List.sum (List.map_congr_left fun p hp => length_writePayload (hall p hp) _)

/-- **The size of a message is counted right**, if the sizes in it are. -/
theorem MessageType.length_write {T : MessageType M} {m : M} (hm : T.Honest m) :
    (T.write rt m).length = T.byteSize rt m := by
  rw [MessageType.write, serialize, List.length_flatMap]
  exact congrArg List.sum (List.map_congr_left fun f hf => length_write_field (hm f hf))

/-- A payload is smaller than its message. -/
theorem MessageType.size_lt_byteSize {T : MessageType M} {m : M} (hf : f ∈ T.fields) {p : Payload}
    (hp : p ∈ f.sized m) : p.size < T.byteSize rt m := by
  have hfield : p.wireSize rt ≤ f.wireSize rt m := by
    cases f with
    | scalar => cases hp
    | delimited n payloads merge => exact List.le_sum_of_mem (List.mem_map_of_mem hp)
  have hmessage : f.wireSize rt m ≤ T.byteSize rt m :=
    List.le_sum_of_mem (List.mem_map_of_mem (f := fun f => Field.wireSize rt f m) hf)
  have hown : p.size < p.wireSize rt := by
    unfold Payload.wireSize
    omega
  omega

/-- An embedded message is smaller than the message around it. -/
theorem MessageType.embedded_le {T : MessageType M} {m : M} {i k : ℕ} (hi : i < T.fields.length)
    {p : Payload} (hp : p ∈ (T.fields[i]).sized m) (h : T.byteSize rt m ≤ k) : p.size ≤ k :=
  (size_lt_byteSize (List.getElem_mem hi) hp).le.trans h

/-- **A message that readers accept is written with its sizes.** -/
theorem MessageType.honest {T : MessageType M} {m : M} (h : T.byteSize rt m ≤ maxSize) :
    T.Honest m := by
  intro f hf p hp
  have hsize : p.size ≤ maxSize := (size_lt_byteSize hf hp).le.trans h
  exact ⟨T.exact m f hf p hp hsize, hsize⟩

/-! ## Kinds of fields -/

section Kinds

/-- A string that has been stored ends the parse if it is refused. -/
def WireRuntime.checked (rt : WireRuntime) (s : Str) (m : M) : Parsed M :=
  if rt.verifyUtf8 s then .complete m else .invalid m

def stringPayload (s : Str) : Payload := ⟨s.length, s⟩

/-- A string is left out if it is empty. -/
def singlePayload (s : Str) : List Payload := if s = [] then [] else [stringPayload s]

def MessageType.payload (rt : WireRuntime) (T : MessageType N) (n : N) : Payload :=
  ⟨T.byteSize rt n, T.write rt n⟩

/-- Results one after the other, up to the first that is not complete. -/
def collect {α β : Type*} (f : α → Parsed β) : List α → Parsed (List β)
  | [] => .complete []
  | a :: as =>
    match f a with
    | .complete b => (collect f as).map (b :: ·)
    | .invalid b => .invalid [b]
    | .malformed => .malformed

variable (rt) (T : MessageType N) (n : ℕ)

def stringField (get : M → Str) (set : Str → M → M) : Field M :=
  .delimited n (fun m => singlePayload (get m)) fun s m => rt.checked s (set s m)

def bytesField (get : M → Str) (set : Str → M → M) : Field M :=
  .delimited n (fun m => singlePayload (get m)) fun s m => .complete (set s m)

def uint64Field (get : M → UInt64) (set : UInt64 → M → M) : Field M := .scalar n get set

def uint32Field (get : M → UInt32) (set : UInt32 → M → M) : Field M :=
  .scalar n (fun m => (get m).toUInt64) fun v => set v.toUInt32

/-- A negative number takes all ten bytes. -/
def int32Field (get : M → Int32) (set : Int32 → M → M) : Field M :=
  .scalar n (fun m => (get m).toInt64.toUInt64) fun v => set v.toUInt32.toInt32

def boolField (get : M → Bool) (set : Bool → M → M) : Field M :=
  .scalar n (fun m => (get m).toUInt64) fun v => set (v != 0)

def repeatedStringField (get : M → List Str) (set : List Str → M → M) : Field M :=
  .delimited n (fun m => (get m).map stringPayload) fun s m =>
    rt.checked s (set (get m ++ [s]) m)

def repeatedMessageField (get : M → List N) (set : List N → M → M) : Field M :=
  .delimited n (fun m => (get m).map (T.payload rt)) fun s m =>
    (T.read rt s).map fun i => set (get m ++ [i]) m

/-- One of several messages, merged into what is there if it is the same one. -/
def oneofField (get : M → Option N) (put : N → M) : Field M :=
  .delimited n (fun m => (get m).toList.map (T.payload rt)) fun s m =>
    (T.mergeFrom rt s ((get m).getD T.empty)).map put

variable {rt T n}

@[simp] theorem number_stringField (get : M → Str) (set : Str → M → M) :
    (stringField rt n get set).number = n := rfl

@[simp] theorem number_bytesField (get : M → Str) (set : Str → M → M) :
    (bytesField n get set).number = n := rfl

@[simp] theorem number_uint64Field (get : M → UInt64) (set : UInt64 → M → M) :
    (uint64Field n get set).number = n := rfl

@[simp] theorem number_uint32Field (get : M → UInt32) (set : UInt32 → M → M) :
    (uint32Field n get set).number = n := rfl

@[simp] theorem number_int32Field (get : M → Int32) (set : Int32 → M → M) :
    (int32Field n get set).number = n := rfl

@[simp] theorem number_boolField (get : M → Bool) (set : Bool → M → M) :
    (boolField n get set).number = n := rfl

@[simp] theorem number_repeatedStringField (get : M → List Str) (set : List Str → M → M) :
    (repeatedStringField rt n get set).number = n := rfl

@[simp] theorem number_repeatedMessageField (get : M → List N) (set : List N → M → M) :
    (repeatedMessageField rt T n get set).number = n := rfl

@[simp] theorem number_oneofField (get : M → Option N) (put : N → M) :
    (oneofField rt T n get put).number = n := rfl

theorem exact_single (s : Str) :
    ∀ p ∈ singlePayload s, p.size ≤ maxSize → p.size = p.bytes.length := by
  intro p hp _
  unfold singlePayload at hp
  split_ifs at hp
  · cases hp
  · obtain rfl := List.mem_singleton.mp hp
    rfl

@[simp] theorem stringField_exact (get : M → Str) (set : Str → M → M) (m : M) :
    (stringField rt n get set).Exact m := exact_single (get m)

@[simp] theorem bytesField_exact (get : M → Str) (set : Str → M → M) (m : M) :
    (bytesField n get set).Exact m := exact_single (get m)

theorem scalar_exact (get : M → UInt64) (set : UInt64 → M → M) (m : M) :
    (Field.scalar n get set).Exact m := by
  intro p hp
  cases hp

@[simp] theorem uint64Field_exact (get : M → UInt64) (set : UInt64 → M → M) (m : M) :
    (uint64Field n get set).Exact m := scalar_exact get set m

@[simp] theorem uint32Field_exact (get : M → UInt32) (set : UInt32 → M → M) (m : M) :
    (uint32Field n get set).Exact m := scalar_exact _ _ m

@[simp] theorem int32Field_exact (get : M → Int32) (set : Int32 → M → M) (m : M) :
    (int32Field n get set).Exact m := scalar_exact _ _ m

@[simp] theorem boolField_exact (get : M → Bool) (set : Bool → M → M) (m : M) :
    (boolField n get set).Exact m := scalar_exact _ _ m

@[simp] theorem repeatedStringField_exact (get : M → List Str) (set : List Str → M → M) (m : M) :
    (repeatedStringField rt n get set).Exact m := by
  intro p hp _
  obtain ⟨s, -, rfl⟩ := List.mem_map.mp hp
  rfl

theorem payload_exact (i : N) (h : (T.payload rt i).size ≤ maxSize) :
    (T.payload rt i).size = (T.payload rt i).bytes.length :=
  (MessageType.length_write (MessageType.honest h)).symm

@[simp] theorem repeatedMessageField_exact (get : M → List N) (set : List N → M → M) (m : M) :
    (repeatedMessageField rt T n get set).Exact m := by
  intro p hp h
  obtain ⟨i, -, rfl⟩ := List.mem_map.mp hp
  exact payload_exact i h

@[simp] theorem oneofField_exact (get : M → Option N) (put : N → M) (m : M) :
    (oneofField rt T n get put).Exact m := by
  intro p hp h
  obtain ⟨i, -, rfl⟩ := List.mem_map.mp hp
  exact payload_exact i h

/-! ### A field of a message that does not have it yet

Each kind has a rule for the first of the fields that are left: what it merges is known, so the rest
is replayed on a known message. -/

variable {acc m : M} {fs : List (Field M)}

theorem mergeAll_single (merge : Str → M → Parsed M) (s : Str) (m : M) :
    mergeAll merge (singlePayload s) m = if s = [] then .complete m else merge s m := by
  unfold singlePayload
  split_ifs
  · rfl
  · exact Parsed.andThen_complete _

/-- After a string that is not refused comes what follows it. -/
theorem checked_andThen {s : Str} {f : M → Parsed M} {p : Parsed M} (h : p = f m) :
    (rt.checked s m).andThen (fun _ => p) = (rt.checked s m).andThen f := by
  subst h
  unfold WireRuntime.checked
  split_ifs <;> rfl

theorem checked_andThen_self (s : Str) (m : M) :
    (rt.checked s m).andThen (fun _ => .complete m) = rt.checked s m :=
  (checked_andThen rfl).trans (Parsed.andThen_complete _)

@[simp] theorem checked_eq_complete {s : Str} {m m' : M} :
    rt.checked s m = .complete m' ↔ rt.verifyUtf8 s = true ∧ m = m' := by
  unfold WireRuntime.checked
  split_ifs with h <;> simp [h]

@[simp] theorem checked_eq_invalid {s : Str} {m m' : M} :
    rt.checked s m = .invalid m' ↔ rt.verifyUtf8 s = false ∧ m = m' := by
  unfold WireRuntime.checked
  split_ifs with h <;> simp [h]

theorem checked_andThen_eq_invalid {s : Str} {f : M → Parsed M} {m' : M} :
    (rt.checked s m).andThen f = .invalid m'
      ↔ rt.verifyUtf8 s = false ∧ m = m' ∨ rt.verifyUtf8 s = true ∧ f m = .invalid m' := by
  simp [Parsed.andThen_eq_invalid, and_assoc]

theorem legible_checked (s : Str) (m : M) : (rt.checked s m).Legible := by
  unfold WireRuntime.checked
  split_ifs <;> rfl

theorem checked_andThen_eq_complete {s : Str} {f : M → Parsed M} {m' : M} :
    (rt.checked s m).andThen f = .complete m' ↔ rt.verifyUtf8 s = true ∧ f m = .complete m' := by
  simp [Parsed.andThen_eq_complete, and_assoc]

theorem replay_stringField {get : M → Str} {set : Str → M → M} (h : set [] acc = acc) :
    replay (stringField rt n get set :: fs) m acc
      = (rt.checked (get m) (set (get m) acc)).andThen fun _ =>
        replay fs m (set (get m) acc) := by
  refine (congrArg (Parsed.andThen · _) ((mergeAll_single _ (get m) acc).trans ?_)).trans
    (checked_andThen (f := replay fs m) rfl).symm
  split_ifs with hnil
  · rw [hnil, h, WireRuntime.checked, if_pos rt.verifyUtf8_nil]
  · rfl

theorem replay_bytesField {get : M → Str} {set : Str → M → M} (h : set [] acc = acc) :
    replay (bytesField n get set :: fs) m acc = replay fs m (set (get m) acc) := by
  show (mergeAll _ (singlePayload (get m)) acc).andThen (replay fs m) = _
  rw [mergeAll_single]
  split_ifs with hnil
  · rw [hnil, h]
    rfl
  · rfl

theorem replay_scalar {get : M → UInt64} {set : UInt64 → M → M} (h : set 0 acc = acc) :
    replay (.scalar n get set :: fs) m acc = replay fs m (set (get m) acc) := by
  refine congrArg (replay fs m) ?_
  split_ifs with hzero
  · rw [hzero, h]
  · rfl

theorem replay_uint64Field {get : M → UInt64} {set : UInt64 → M → M} (h : set 0 acc = acc) :
    replay (uint64Field n get set :: fs) m acc = replay fs m (set (get m) acc) := replay_scalar h

theorem replay_uint32Field {get : M → UInt32} {set : UInt32 → M → M} (h : set 0 acc = acc) :
    replay (uint32Field n get set :: fs) m acc = replay fs m (set (get m) acc) := by
  rw [uint32Field, replay_scalar h, UInt32.toUInt32_toUInt64]

/-- A sign that is extended is cut off again. -/
theorem toInt32_toUInt64 (i : Int32) : i.toInt64.toUInt64.toUInt32.toInt32 = i := by
  apply Int32.toBitVec_inj.mp
  show BitVec.setWidth 32 (BitVec.signExtend 64 i.toBitVec) = i.toBitVec
  ext k hk
  have hk' : k < 64 := by omega
  rw [BitVec.getElem_setWidth, BitVec.getLsbD_signExtend]
  simp [hk, hk']

theorem replay_int32Field {get : M → Int32} {set : Int32 → M → M} (h : set 0 acc = acc) :
    replay (int32Field n get set :: fs) m acc = replay fs m (set (get m) acc) := by
  rw [int32Field, replay_scalar h, toInt32_toUInt64]

theorem replay_boolField {get : M → Bool} {set : Bool → M → M} (h : set false acc = acc) :
    replay (boolField n get set :: fs) m acc = replay fs m (set (get m) acc) := by
  rw [boolField, replay_scalar h]
  cases get m <;> rfl

/-- Items that are added one after the other are collected. -/
theorem mergeAll_collect {α β : Type*} (payload : α → Payload) (merge : Str → M → Parsed M)
    (f : α → Parsed β) (put : List β → M) (as : List α)
    (h : ∀ a ∈ as, ∀ bs, merge (payload a).bytes (put bs) = (f a).map fun b => put (bs ++ [b]))
    (bs : List β) :
    mergeAll merge (as.map payload) (put bs) = (collect f as).map fun cs => put (bs ++ cs) := by
  induction as generalizing bs with
  | nil => simp [mergeAll, collect]
  | cons a as ih =>
    obtain ⟨ha, has⟩ := List.forall_mem_cons.mp h
    rw [List.map_cons, mergeAll, ha, collect]
    cases hfa : f a with
    | complete b =>
      rw [Parsed.map_complete, Parsed.complete_andThen, ih has]
      cases collect f as <;> simp
    | invalid b => rfl
    | malformed => rfl

theorem collect_congr {α β : Type*} {f g : α → Parsed β} {as : List α}
    (h : ∀ a ∈ as, f a = g a) : collect f as = collect g as := by
  induction as with
  | nil => rfl
  | cons a as ih =>
    obtain ⟨ha, has⟩ := List.forall_mem_cons.mp h
    rw [collect, collect, ha, ih has]

theorem legible_collect {α β : Type*} {f : α → Parsed β} (h : ∀ a, (f a).Legible) (as : List α) :
    (collect f as).Legible := by
  induction as with
  | nil => rfl
  | cons a as ih =>
    have ha := h a
    rw [collect]
    cases hfa : f a with
    | complete b => exact ih.map _
    | invalid b => rfl
    | malformed =>
      rw [hfa] at ha
      cases ha

/-- A list that is cut ends with the element that was refused. -/
theorem exists_of_collect_eq_invalid {α β : Type*} {f : α → Parsed β} {as : List α} {bs : List β}
    (h : collect f as = .invalid bs) : ∃ a ∈ as, ∃ b ∈ bs, f a = .invalid b := by
  induction as generalizing bs with
  | nil => cases h
  | cons a as ih =>
    rw [collect] at h
    cases ha : f a with
    | complete b =>
      rw [ha] at h
      obtain ⟨bs', hbs', rfl⟩ := Parsed.map_eq_invalid.mp h
      obtain ⟨a', ha', b', hb', heq⟩ := ih hbs'
      exact ⟨a', List.mem_cons_of_mem a ha', b', List.mem_cons_of_mem b hb', heq⟩
    | invalid b =>
      rw [ha] at h
      obtain rfl := Parsed.invalid.inj h
      exact ⟨a, List.mem_cons_self, b, List.mem_cons_self, ha⟩
    | malformed =>
      rw [ha] at h
      cases h

/-- A list is collected in full iff each of its items is. -/
theorem collect_eq_complete {α : Type*} {f : α → Parsed α} {as : List α} :
    collect f as = .complete as ↔ ∀ a ∈ as, f a = .complete a := by
  induction as with
  | nil => simp [collect]
  | cons a as ih =>
    rw [List.forall_mem_cons, collect]
    cases hfa : f a with
    | complete b =>
      dsimp only
      rw [Parsed.map_eq_complete, Parsed.complete.injEq]
      constructor
      · rintro ⟨bs, hbs, heq⟩
        obtain ⟨rfl, rfl⟩ := List.cons.inj heq
        exact ⟨rfl, ih.mp hbs⟩
      · rintro ⟨rfl, has⟩
        exact ⟨as, ih.mpr has, rfl⟩
    | invalid b => simp
    | malformed => simp

/-- Strings that are collected in full are the strings. -/
theorem collect_checked {ss ss' : List Str}
    (h : collect (fun s => rt.checked s s) ss = .complete ss') : ss' = ss := by
  induction ss generalizing ss' with
  | nil => exact (Parsed.complete.inj h).symm
  | cons s ss ih =>
    rw [collect] at h
    cases hs : rt.checked s s with
    | complete s' =>
      rw [hs] at h
      obtain ⟨tail, htail, rfl⟩ := Parsed.map_eq_complete.mp h
      rw [ih htail, (checked_eq_complete.mp hs).2]
    | invalid s' =>
      rw [hs] at h
      cases h
    | malformed =>
      rw [hs] at h
      cases h

/-- After strings that are not refused comes what follows them. -/
theorem collect_map_andThen {ss : List Str} {put : List Str → M} {g : M → Parsed M} {p : Parsed M}
    (h : p = g (put ss)) :
    ((collect (fun s => rt.checked s s) ss).map put).andThen (fun _ => p)
      = ((collect (fun s => rt.checked s s) ss).map put).andThen g := by
  subst h
  cases hc : collect (fun s => rt.checked s s) ss with
  | complete ss' =>
    rw [collect_checked hc]
    rfl
  | invalid _ => rfl
  | malformed => rfl

theorem replay_repeatedStringField {get : M → List Str} {set : List Str → M → M}
    (hget : ∀ ss m, get (set ss m) = ss) (hset : ∀ ss ss' m, set ss (set ss' m) = set ss m)
    (h : set [] acc = acc) :
    replay (repeatedStringField rt n get set :: fs) m acc
      = ((collect (fun s => rt.checked s s) (get m)).map fun ss => set ss acc).andThen fun _ =>
        replay fs m (set (get m) acc) := by
  have hadd := mergeAll_collect stringPayload (fun s m => rt.checked s (set (get m ++ [s]) m))
    (fun s => rt.checked s s) (fun ss => set ss acc) (get m) (fun s _ ss => by
      rw [hget, hset, WireRuntime.checked, WireRuntime.checked]
      show (if rt.verifyUtf8 s then _ else _) = _
      split_ifs <;> rfl) []
  rw [h] at hadd
  exact (congrArg (Parsed.andThen · _) hadd).trans (collect_map_andThen (g := replay fs m) rfl).symm

theorem replay_repeatedMessageField {get : M → List N} {set : List N → M → M}
    (hget : ∀ is m, get (set is m) = is) (hset : ∀ is is' m, set is (set is' m) = set is m)
    (h : set [] acc = acc) :
    replay (repeatedMessageField rt T n get set :: fs) m acc
      = ((collect (fun i => T.read rt (T.write rt i)) (get m)).map fun is => set is acc).andThen
        (replay fs m) := by
  have hadd := mergeAll_collect (T.payload rt)
    (fun s m => (T.read rt s).map fun i => set (get m ++ [i]) m)
    (fun i => T.read rt (T.write rt i)) (fun is => set is acc) (get m)
    (fun i _ is => by simp only [hget, hset, MessageType.payload]) []
  rw [h] at hadd
  exact congrArg (Parsed.andThen · _) hadd

theorem replay_oneofField_none {get : M → Option N} {put : N → M} (h : get m = none) :
    replay (oneofField rt T n get put :: fs) m acc = replay fs m acc := by
  rw [replay]
  unfold oneofField Field.replay
  dsimp only
  rw [h]
  rfl

theorem replay_oneofField_some {get : M → Option N} {put : N → M} {i : N} (h : get m = some i)
    (hacc : get acc = none) :
    replay (oneofField rt T n get put :: fs) m acc
      = ((T.read rt (T.write rt i)).map put).andThen (replay fs m) := by
  rw [replay]
  unfold oneofField Field.replay
  dsimp only
  rw [h]
  refine congrArg (Parsed.andThen · _) ((Parsed.andThen_complete _).trans ?_)
  dsimp only
  rw [hacc]
  rfl

theorem strings_andThen_eq_complete {ss : List Str} {put : List Str → M} {g : M → Parsed M}
    {m' : M} : ((collect (fun s => rt.checked s s) ss).map put).andThen g = .complete m'
      ↔ (∀ s ∈ ss, rt.verifyUtf8 s = true) ∧ g (put ss) = .complete m' := by
  have hall : collect (fun s => rt.checked s s) ss = .complete ss
      ↔ ∀ s ∈ ss, rt.verifyUtf8 s = true := by simp [collect_eq_complete]
  simp only [Parsed.andThen_eq_complete, Parsed.map_eq_complete]
  constructor
  · rintro ⟨_, ⟨ss', hss', rfl⟩, hg⟩
    obtain rfl := collect_checked hss'
    exact ⟨hall.mp hss', hg⟩
  · rintro ⟨hss, hg⟩
    exact ⟨_, ⟨ss, hall.mpr hss, rfl⟩, hg⟩

theorem strings_andThen_eq_invalid {ss : List Str} {f : List Str → M} {g : M → Parsed M} {m' : M} :
    ((collect (fun s => rt.checked s s) ss).map f).andThen g = .invalid m'
      ↔ (∃ ss', collect (fun s => rt.checked s s) ss = .invalid ss' ∧ f ss' = m')
        ∨ (∀ s ∈ ss, rt.verifyUtf8 s = true) ∧ g (f ss) = .invalid m' := by
  have hall : collect (fun s => rt.checked s s) ss = .complete ss
      ↔ ∀ s ∈ ss, rt.verifyUtf8 s = true := by simp [collect_eq_complete]
  simp only [Parsed.andThen_eq_invalid, Parsed.map_eq_complete, Parsed.map_eq_invalid]
  refine or_congr_right ⟨?_, ?_⟩
  · rintro ⟨_, ⟨ss', hss', rfl⟩, hg⟩
    obtain rfl := collect_checked hss'
    exact ⟨hall.mp hss', hg⟩
  · rintro ⟨hss, hg⟩
    exact ⟨_, ⟨ss, hall.mpr hss, rfl⟩, hg⟩

end Kinds

end Wire

end DistBuild
