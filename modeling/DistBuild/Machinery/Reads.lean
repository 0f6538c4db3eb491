import DistBuild.Machinery.Codec

/-!
# Machinery/Reads — readers that do not look where the buffer ends

    buffer  │ b₀ b₁ … bₙ₋₁ │ whatever lies behind it
    memory    0  1  …  n-1    n  n+1  …

A reader over the memory behind a pointer always returns; what matters is which indices it has
read.  `Reads α` is a value with those indices, in order.  A reader is **inside** a buffer if all of
them are, and then it is the reader of `Machinery/Codec` on that buffer (`inside_readStringAt`,
`inside_readStringsAt`): running it on memory is running it on the buffer up to the first read
outside.
-/

namespace DistBuild

universe u

variable {α β : Type u}

/-- What a reader returns, and the indices it has read. -/
structure Reads (α : Type u) where
  value : α
  indices : List ℕ

namespace Reads

instance : Monad Reads where
  pure a := ⟨a, []⟩
  bind x f := ⟨(f x.value).value, x.indices ++ (f x.value).indices⟩

@[simp] theorem value_pure (a : α) : (pure a : Reads α).value = a := rfl

@[simp] theorem indices_pure (a : α) : (pure a : Reads α).indices = [] := rfl

@[simp] theorem value_bind (x : Reads α) (f : α → Reads β) :
    (x >>= f).value = (f x.value).value := rfl

@[simp] theorem indices_bind (x : Reads α) (f : α → Reads β) :
    (x >>= f).indices = x.indices ++ (f x.value).indices := rfl

/-- The reader on a buffer of `size` bytes: `none` if it reads outside. -/
def inside (size : ℕ) (x : Reads α) : Option α :=
  if ∀ i ∈ x.indices, i < size then some x.value else none

theorem inside_eq_some {size : ℕ} {x : Reads α} {a : α} :
    x.inside size = some a ↔ (∀ i ∈ x.indices, i < size) ∧ x.value = a := by
  simp [inside]

theorem isSome_inside {size : ℕ} {x : Reads α} :
    (x.inside size).isSome ↔ ∀ i ∈ x.indices, i < size := by
  simp [inside]

@[simp] theorem inside_pure (size : ℕ) (a : α) : (pure a : Reads α).inside size = some a := by
  simp [inside]

/-- **Reading on, inside**: the second reader runs if the first stays inside. -/
@[simp] theorem inside_bind (size : ℕ) (x : Reads α) (f : α → Reads β) :
    (x >>= f).inside size = (x.inside size).bind fun a => (f a).inside size := by
  ext b
  simp only [Option.bind_eq_some_iff, inside_eq_some, indices_bind, value_bind,
    List.forall_mem_append]
  constructor
  · rintro ⟨⟨hx, hf⟩, hb⟩
    exact ⟨x.value, ⟨hx, rfl⟩, hf, hb⟩
  · rintro ⟨a, ⟨hx, rfl⟩, hf, hb⟩
    exact ⟨⟨hx, hf⟩, hb⟩

/-- A reader that reads at some indices, and then does what another one does. -/
theorem inside_of_eq {x : Reads β} {y : Reads α} {f : α → β} {k : List ℕ} {size : ℕ}
    (hvalue : x.value = f y.value) (hindices : x.indices = k ++ y.indices) :
    x.inside size = if ∀ i ∈ k, i < size then (y.inside size).map f else none := by
  ext b
  rw [inside_eq_some, hvalue, hindices, List.forall_mem_append]
  split_ifs with hk
  · simp only [Option.map_eq_some_iff, inside_eq_some]
    exact ⟨fun ⟨⟨_, hy⟩, hb⟩ => ⟨_, ⟨hy, rfl⟩, hb⟩, fun ⟨_, ⟨hy, ha⟩, hb⟩ => ⟨⟨hk, hy⟩, ha ▸ hb⟩⟩
  · exact iff_of_false (fun h => hk h.1.1) (by simp)

/-- All recorded indices are below `n`. -/
def Below (n : ℕ) (x : Reads α) : Prop := ∀ i ∈ x.indices, i < n

/-- A reader, once the index `i` has been read. -/
def after (i : ℕ) (x : Reads α) : Reads α := ⟨x.value, i :: x.indices⟩

@[simp] theorem value_after (i : ℕ) (x : Reads α) : (x.after i).value = x.value := rfl

theorem below_pure (n : ℕ) (a : α) : (pure a : Reads α).Below n := fun _ hi => by cases hi

theorem Below.bind {n : ℕ} {x : Reads α} {f : α → Reads β} (hx : x.Below n)
    (hf : (f x.value).Below n) : (x >>= f).Below n := by
  intro i hi
  rw [indices_bind, List.mem_append] at hi
  exact hi.elim (hx i) (hf i)

theorem Below.after {n i : ℕ} {x : Reads α} (hx : x.Below n) (hi : i < n) : (x.after i).Below n :=
  List.forall_mem_cons.mpr ⟨hi, hx⟩

end Reads

/-! ## Memory -/

/-- The memory from the start of a buffer on; `beyond` is what lies behind it. -/
def memory (data : Str) (beyond : ℕ → UInt8) (i : ℕ) : UInt8 := data.getD i (beyond i)

/-- One access. -/
def readByteAt (mem : ℕ → UInt8) (i : ℕ) : Reads UInt8 := ⟨mem i, [i]⟩

/-- The word at `offset`. -/
def readU32At (mem : ℕ → UInt8) (offset : ℕ) : Reads UInt32 := do
  let b₃ ← readByteAt mem offset
  let b₂ ← readByteAt mem (offset + 1)
  let b₁ ← readByteAt mem (offset + 2)
  let b₀ ← readByteAt mem (offset + 3)
  return b₃.toUInt32 <<< 24 ||| b₂.toUInt32 <<< 16 ||| b₁.toUInt32 <<< 8 ||| b₀.toUInt32

/-- The `n` bytes from `offset`. -/
def readBytesAt (mem : ℕ → UInt8) : ℕ → ℕ → Reads Str
  | 0, _ => return []
  | n + 1, offset => do
    let b ← readByteAt mem offset
    let bs ← readBytesAt mem n (offset + 1)
    return b :: bs

/-- The string at `offset`, and the offset after it. -/
def readStringAt (mem : ℕ → UInt8) (offset : ℕ) : Reads (Str × ℕ) := do
  let len ← readU32At mem offset
  let s ← readBytesAt mem len.toNat (offset + 4)
  return (s, offset + 4 + len.toNat)

/-- The next `n` strings from `offset`, and the offset after them. -/
def readStringsAt (mem : ℕ → UInt8) : ℕ → ℕ → Reads (List Str × ℕ)
  | 0, offset => return ([], offset)
  | n + 1, offset => do
    let (s, offset) ← readStringAt mem offset
    let (ss, offset) ← readStringsAt mem n offset
    return (s :: ss, offset)

/-! ## Which indices are read -/

variable (mem : ℕ → UInt8)

/-- A word is read off its four bytes. -/
theorem indices_readU32At (offset : ℕ) :
    (readU32At mem offset).indices = List.range' offset 4 := rfl

theorem indices_readBytesAt (n offset : ℕ) :
    (readBytesAt mem n offset).indices = List.range' offset n := by
  induction n generalizing offset with
  | zero => rfl
  | succ n ih =>
    rw [readBytesAt, Reads.indices_bind, Reads.indices_bind, ih, Reads.indices_pure,
      List.append_nil, List.range'_succ]
    rfl

/-- **A string is read off its size and its bytes**, up to the offset after it. -/
theorem indices_readStringAt (offset : ℕ) :
    ∃ n, (readStringAt mem offset).value.2 = offset + n
      ∧ (readStringAt mem offset).indices = List.range' offset n := by
  refine ⟨4 + (readU32At mem offset).value.toNat, Nat.add_assoc _ _ _, ?_⟩
  rw [readStringAt, Reads.indices_bind, Reads.indices_bind, indices_readU32At, indices_readBytesAt,
    Reads.indices_pure, List.append_nil, List.range'_append_1]

/-- Strings are read one after the other, up to the offset after the last. -/
theorem indices_readStringsAt (n offset : ℕ) :
    ∃ k, (readStringsAt mem n offset).value.2 = offset + k
      ∧ (readStringsAt mem n offset).indices = List.range' offset k := by
  induction n generalizing offset with
  | zero => exact ⟨0, rfl, rfl⟩
  | succ n ih =>
    obtain ⟨k, hk, hhead⟩ := indices_readStringAt mem offset
    obtain ⟨m, hm, htail⟩ := ih (readStringAt mem offset).value.2
    refine ⟨k + m, ?_, ?_⟩
    · rw [← Nat.add_assoc, ← hk, ← hm]
      rfl
    · rw [readStringsAt, Reads.indices_bind, Reads.indices_bind, Reads.indices_pure,
        List.append_nil, hhead, htail, hk, List.range'_append_1]

/-! ## Inside the buffer -/

variable (data : Str) (beyond : ℕ → UInt8)

theorem inside_readByteAt (i : ℕ) :
    (readByteAt (memory data beyond) i).inside data.length = data[i]? := by
  ext b
  rw [Reads.inside_eq_some, List.getElem?_eq_some_iff]
  simp only [readByteAt, List.mem_singleton, forall_eq]
  constructor
  · rintro ⟨hi, rfl⟩
    exact ⟨hi, (List.getD_eq_getElem data _ hi).symm⟩
  · rintro ⟨hi, rfl⟩
    exact ⟨hi, List.getD_eq_getElem data _ hi⟩

theorem inside_readU32At (offset : ℕ) :
    (readU32At (memory data beyond) offset).inside data.length = readU32 data offset := by
  simp only [readU32At, Reads.inside_bind, inside_readByteAt, Reads.inside_pure]
  rfl

theorem inside_readBytesAt (n : ℕ) {offset : ℕ} (h : offset ≤ data.length) :
    (readBytesAt (memory data beyond) n offset).inside data.length
      = if offset + n ≤ data.length then some ((data.drop offset).take n) else none := by
  induction n generalizing offset with
  | zero => simp [readBytesAt, h]
  | succ n ih =>
    simp only [readBytesAt, Reads.inside_bind, inside_readByteAt, Reads.inside_pure]
    rcases Nat.lt_or_ge offset data.length with hlt | hge
    · rw [List.getElem?_eq_getElem hlt, Option.bind_some, ih hlt, List.drop_eq_getElem_cons hlt,
        List.take_succ_cons, Nat.add_right_comm offset 1 n, Nat.add_assoc offset n 1]
      split_ifs <;> rfl
    · rw [List.getElem?_eq_none hge, if_neg (by omega)]
      rfl

/-- **Reading a string off the memory is reading it off the buffer**, up to the first read
outside. -/
theorem inside_readStringAt (offset : ℕ) :
    (readStringAt (memory data beyond) offset).inside data.length = readString data offset := by
  simp only [readStringAt, Reads.inside_bind, inside_readU32At, Reads.inside_pure]
  cases hlen : readU32 data offset with
  | none => simp [readString, hlen]
  | some len =>
    obtain ⟨hin, -⟩ := readU32_eq_some hlen
    rw [Option.bind_some, inside_readBytesAt data beyond _ hin]
    simp only [readString, hlen, Option.bind_eq_bind, Option.bind_some]
    split_ifs <;> rfl

theorem inside_readStringsAt (n offset : ℕ) :
    (readStringsAt (memory data beyond) n offset).inside data.length
      = readStrings data n offset := by
  induction n generalizing offset with
  | zero => rfl
  | succ n ih =>
    simp only [readStringsAt, Reads.inside_bind, inside_readStringAt, ih, Reads.inside_pure]
    rfl

end DistBuild
