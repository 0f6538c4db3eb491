import DistBuild.Machinery.Codec

/-!
# Machinery/Framing — a frame on its way through a pipe, in pieces

    writer: rest ──write k──▸ pipe ──read k──▸ reader: its size, then as many bytes as it says

A write moves some bytes and a read takes some, as many as there are and as there is room for.  What
the reader holds, what is in the pipe and what is still to be written are the frame, at any moment
(`Carries`); so a reader that is done holds the payload (`Carries.done`), and until then one of the
two can go on (`Carries.progress`).
-/

namespace DistBuild

namespace Framing

/-- Two reads one after the other: of a word, and of as many bytes as it says. -/
inductive Reader
  | size (got : Str)
  | payload (size : ℕ) (got : Str)
deriving DecidableEq, Repr

namespace Reader

def start : Reader := .size []

/-- What the read that is going on still asks for. -/
def wants : Reader → ℕ
  | size got => 4 - got.length
  | payload n got => n - got.length

/-- Some bytes have come. -/
def push (bytes : Str) : Reader → Reader
  | size got => (readU32 (got ++ bytes) 0).elim (size (got ++ bytes)) fun n => payload n.toNat []
  | payload n got => payload n (got ++ bytes)

/-- Both reads are over. -/
def done : Reader → Option Str
  | size _ => none
  | payload n got => if got.length = n then some got else none

@[simp] theorem done_start : start.done = none := rfl

/-- The bytes the reader has read. -/
inductive Holds : Str → Reader → Prop
  | size {got : Str} (h : got.length < 4) : Holds got (.size got)
  | payload {n : UInt32} {got : Str} (h : got.length ≤ n.toNat) :
    Holds (u32Bytes n ++ got) (.payload n.toNat got)

theorem holds_start : Holds [] start := .size (by decide)

end Reader

/-- A word is read off four bytes and no fewer. -/
theorem readU32_eq_none_iff (data : Str) : readU32 data 0 = none ↔ data.length < 4 := by
  constructor
  · intro h
    by_contra hlen
    obtain ⟨b₃, b₂, b₁, b₀, rest, rfl⟩ : ∃ b₃ b₂ b₁ b₀ rest, data
        = b₃ :: b₂ :: b₁ :: b₀ :: rest := by
      rcases data with _ | ⟨b₃, _ | ⟨b₂, _ | ⟨b₁, _ | ⟨b₀, rest⟩⟩⟩⟩
      all_goals first | exact ⟨_, _, _, _, _, rfl⟩ | simp at hlen
    simp [readU32] at h
  · intro h
    refine Option.eq_none_iff_forall_ne_some.mpr fun n hn => ?_
    have := (readU32_eq_some hn).1
    omega

variable {cap k : ℕ} {c bytes rest pipe payload : Str} {r : Reader}

theorem Reader.Holds.push (h : Reader.Holds c r) (hb : bytes.length ≤ r.wants) :
    Reader.Holds (c ++ bytes) (r.push bytes) := by
  cases h with
  | size hlen =>
    rw [Reader.wants] at hb
    rw [Reader.push]
    cases hword : readU32 (c ++ bytes) 0 with
    | none => exact .size ((readU32_eq_none_iff _).mp hword)
    | some n =>
      obtain ⟨hfour, heq⟩ := readU32_eq_some hword
      have hnil : (c ++ bytes).drop (0 + 4) = [] := by
        refine List.drop_eq_nil_of_le ?_
        rw [List.length_append]
        omega
      rw [List.drop_zero, hnil] at heq
      rw [heq]
      exact .payload (Nat.zero_le _)
  | @payload n got hlen =>
    rw [Reader.wants] at hb
    rw [List.append_assoc]
    refine .payload ?_
    rw [List.length_append]
    omega

/-- The frame of `payload` is carried: it is what the reader holds, the pipe and the rest. -/
def Carries (payload rest pipe : Str) (r : Reader) : Prop :=
  ∃ c, r.Holds c ∧ c ++ pipe ++ rest = frame payload

theorem carries_start (payload : Str) : Carries payload (frame payload) [] .start :=
  ⟨[], Reader.holds_start, rfl⟩

/-! ## Writing and reading -/

/-- `k` bytes of `rest` go into a pipe that has room for them. -/
def write (cap k : ℕ) (rest pipe : Str) : Option (Str × Str) :=
  if 0 < k ∧ k ≤ rest.length ∧ pipe.length + k ≤ cap then some (rest.drop k, pipe ++ rest.take k)
  else none

/-- `k` bytes of the pipe go to the reader. -/
def read (k : ℕ) (pipe : Str) (r : Reader) : Option (Str × Reader) :=
  if 0 < k ∧ k ≤ pipe.length ∧ k ≤ r.wants then some (pipe.drop k, r.push (pipe.take k)) else none

theorem write_ne_nil {x : Str × Str} (h : write cap k rest pipe = some x) : rest ≠ [] := by
  rintro rfl
  rw [write] at h
  split_ifs at h with hk
  exact absurd hk.2.1 (Nat.not_le.mpr hk.1)

theorem read_ne_nil {x : Str × Reader} (h : read k pipe r = some x) : pipe ≠ [] := by
  rintro rfl
  rw [read] at h
  split_ifs at h with hk
  exact absurd hk.2.1 (Nat.not_le.mpr hk.1)

theorem Carries.write {x : Str × Str} (hc : Carries payload rest pipe r)
    (h : write cap k rest pipe = some x) : Carries payload x.1 x.2 r := by
  rw [Framing.write] at h
  split_ifs at h
  obtain rfl := Option.some.inj h
  obtain ⟨c, hr, heq⟩ := hc
  refine ⟨c, hr, ?_⟩
  rw [← heq, ← List.append_assoc, List.append_assoc, List.take_append_drop]

theorem Carries.read {x : Str × Reader} (hc : Carries payload rest pipe r)
    (h : read k pipe r = some x) : Carries payload rest x.1 x.2 := by
  rw [Framing.read] at h
  split_ifs at h with hk
  obtain rfl := Option.some.inj h
  obtain ⟨c, hr, heq⟩ := hc
  refine ⟨c ++ pipe.take k, hr.push ?_, ?_⟩
  · exact (List.length_take_le k pipe).trans hk.2.2
  · rw [← heq, List.append_assoc c, List.take_append_drop]

/-! ## The frame arrives -/

/-- What a reader holds of a frame is its size, or a part of it; or its size and a part of the
payload. -/
theorem Carries.cases (hc : Carries payload rest pipe r) (hsize : payload.length < 2 ^ 32) :
    (∃ got, r = .size got ∧ got.length < 4
      ∧ got.length + pipe.length + rest.length = 4 + payload.length)
      ∨ ∃ got, r = .payload payload.length got ∧ got ++ pipe ++ rest = payload := by
  obtain ⟨c, hr, heq⟩ := hc
  cases hr with
  | size hlen =>
    refine Or.inl ⟨c, rfl, hlen, ?_⟩
    have hlength := congrArg List.length heq
    rw [frame, List.length_append, List.length_append, List.length_append,
      length_appendU32] at hlength
    exact hlength.trans (congrArg (· + payload.length) (Nat.zero_add 4))
  | @payload n got hlen =>
    have hword : n = UInt32.ofNat payload.length ∧ got ++ pipe ++ rest = payload := by
      rw [frame, appendU32, List.nil_append, List.append_assoc, List.append_assoc] at heq
      obtain ⟨hbytes, hrest⟩ := List.append_inj heq rfl
      have hn := u32_of_bytes n
      simp only [u32Bytes, List.cons.injEq] at hbytes
      rw [hbytes.1, hbytes.2.1, hbytes.2.2.1, hbytes.2.2.2.1, u32_of_bytes] at hn
      exact ⟨hn.symm, by rw [List.append_assoc, hrest]⟩
    refine Or.inr ⟨got, ?_, hword.2⟩
    rw [hword.1, UInt32.toNat_ofNat_of_lt' hsize]

/-- **A reader that is done holds the payload**, and nothing is left on the way. -/
theorem Carries.done {p : Str} (hc : Carries payload rest pipe r) (hsize : payload.length < 2 ^ 32)
    (h : r.done = some p) : p = payload ∧ pipe = [] ∧ rest = [] := by
  rcases hc.cases hsize with ⟨got, rfl, -⟩ | ⟨got, rfl, heq⟩
  · exact absurd h.symm (Option.some_ne_none p)
  · rw [Reader.done] at h
    split_ifs at h with hlen
    obtain rfl := Option.some.inj h
    have hlength := congrArg List.length heq
    rw [List.length_append, List.length_append] at hlength
    have hpipe : pipe = [] := List.eq_nil_of_length_eq_zero (by omega)
    have hrest : rest = [] := List.eq_nil_of_length_eq_zero (by omega)
    rw [hpipe, hrest, List.append_nil, List.append_nil] at heq
    exact ⟨heq, hpipe, hrest⟩

/-- **Until then one of the two can go on**: the reader, if there is something in the pipe, and else
the writer. -/
theorem Carries.progress (hc : Carries payload rest pipe r) (hsize : payload.length < 2 ^ 32)
    (hcap : 0 < cap) (h : r.done = none) :
    (∃ x, Framing.read 1 pipe r = some x) ∨ ∃ x, Framing.write cap 1 rest pipe = some x := by
  have hwants : 0 < r.wants ∧ 0 < pipe.length + rest.length := by
    rcases hc.cases hsize with ⟨got, rfl, hlen, hsum⟩ | ⟨got, rfl, heq⟩
    · exact ⟨Nat.sub_pos_of_lt hlen, by omega⟩
    · have hlength := congrArg List.length heq
      rw [List.length_append, List.length_append] at hlength
      rw [Reader.done] at h
      split_ifs at h with hlen
      refine ⟨Nat.sub_pos_of_lt ?_, ?_⟩ <;> omega
  rcases Nat.eq_zero_or_pos pipe.length with hpipe | hpipe
  · right
    rw [Framing.write, if_pos ⟨Nat.one_pos, by omega, by omega⟩]
    exact ⟨_, rfl⟩
  · left
    rw [Framing.read, if_pos ⟨Nat.one_pos, hpipe, hwants.1⟩]
    exact ⟨_, rfl⟩

end Framing

end DistBuild
