import DistBuild.Machinery.Wire

/-!
# Machinery/Base128 — the wire format itself

    300 = 10 0101100₂ ─▸ 1·0101100, 0·0000010      seven bits a byte, lowest first

Every byte but the last has its high bit set; a reader takes at most ten bytes for a number, five
for a tag or a size.  A string is UTF-8 if an automaton over its bytes ends where it starts.
-/

namespace DistBuild

namespace Wire

/-- A number below 128 ^ `k` in at most `k` bytes. -/
def varintBytes : ℕ → ℕ → Str
  | 0, _ => []
  | k + 1, n =>
    if n < 128 then [UInt8.ofNat n] else UInt8.ofNat (n % 128 + 128) :: varintBytes k (n / 128)

/-- The number in the next bytes, at most `k` of them, and what follows. -/
def takeVarint : ℕ → Str → Option (ℕ × Str)
  | 0, _ => none
  | _ + 1, [] => none
  | k + 1, b :: rest =>
    if b < 128 then some (b.toNat, rest)
    else (takeVarint k rest).map fun r => (b.toNat - 128 + 128 * r.1, r.2)

theorem takeVarint_one {b : UInt8} (hb : b < 128) (k : ℕ) (rest : Str) :
    takeVarint (k + 1) (b :: rest) = some (b.toNat, rest) := if_pos hb

/-- A number is taken where it was written, by a reader of as many bytes as it has. -/
theorem takeVarint_append {j k n : ℕ} (hjk : j ≤ k) (hn : n < 128 ^ (j + 1)) (rest : Str) :
    takeVarint (j + 1) (varintBytes (k + 1) n ++ rest) = some (n, rest) := by
  induction j generalizing k n with
  | zero =>
    have hlow : n < 128 := hn
    have hbyte : (UInt8.ofNat n).toNat = n := UInt8.toNat_ofNat_of_lt' (by
      show n < 256
      omega)
    rw [varintBytes, if_pos hlow, List.singleton_append,
      takeVarint_one (UInt8.lt_iff_toNat_lt.mpr (by rw [hbyte]; exact hlow)), hbyte]
  | succ j ih =>
    obtain ⟨k, rfl⟩ : ∃ k', k = k' + 1 := ⟨k - 1, by omega⟩
    rw [varintBytes]
    split_ifs with hlow
    · have hbyte : (UInt8.ofNat n).toNat = n := UInt8.toNat_ofNat_of_lt' (by
        show n < 256
        omega)
      rw [List.singleton_append,
        takeVarint_one (UInt8.lt_iff_toNat_lt.mpr (by rw [hbyte]; exact hlow)), hbyte]
    · have hbyte : (UInt8.ofNat (n % 128 + 128)).toNat = n % 128 + 128 :=
        UInt8.toNat_ofNat_of_lt' (by
          show n % 128 + 128 < 256
          omega)
      have hhigh : ¬ UInt8.ofNat (n % 128 + 128) < 128 := by
        rw [UInt8.lt_iff_toNat_lt, hbyte]
        show ¬ n % 128 + 128 < 128
        omega
      have hrest : n / 128 < 128 ^ (j + 1) := by
        rw [pow_succ] at hn
        exact Nat.div_lt_of_lt_mul (by rw [mul_comm]; exact hn)
      rw [List.cons_append, takeVarint, if_neg hhigh, ih (by omega) hrest, Option.map_some, hbyte]
      congr 2
      omega

/-! ## UTF-8 -/

/-- How many bytes of a character are still to come, and the bounds of the next one. -/
structure Utf8State where
  pending : ℕ
  low : UInt8
  high : UInt8
deriving DecidableEq

def Utf8State.start : Utf8State := ⟨0, 0x80, 0xBF⟩

/-- One byte: no overlong form, no surrogate, nothing above U+10FFFF. -/
def utf8Step (s : Utf8State) (b : UInt8) : Option Utf8State :=
  match s.pending with
  | n + 1 => if s.low ≤ b ∧ b ≤ s.high then some ⟨n, 0x80, 0xBF⟩ else none
  | 0 =>
    if b < 0x80 then some .start
    else if b < 0xC2 then none
    else if b < 0xE0 then some ⟨1, 0x80, 0xBF⟩
    else if b = 0xE0 then some ⟨2, 0xA0, 0xBF⟩
    else if b = 0xED then some ⟨2, 0x80, 0x9F⟩
    else if b < 0xF0 then some ⟨2, 0x80, 0xBF⟩
    else if b = 0xF0 then some ⟨3, 0x90, 0xBF⟩
    else if b < 0xF4 then some ⟨3, 0x80, 0xBF⟩
    else if b = 0xF4 then some ⟨3, 0x80, 0x8F⟩
    else none

def isUtf8 (s : Str) : Bool := s.foldlM utf8Step .start == some .start

/-! ## The format -/

/-- A field of an unknown number is skipped by its kind; a group is refused. -/
def skipField (tag : UInt32) (rest : Str) : Option Str :=
  if tag &&& 7 = 0 then (takeVarint 10 rest).map Prod.snd
  else if tag &&& 7 = 1 then if 8 ≤ rest.length then some (rest.drop 8) else none
  else if tag &&& 7 = 2 then
    (takeVarint 5 rest).bind fun r => if r.1 ≤ r.2.length then some (r.2.drop r.1) else none
  else if tag &&& 7 = 5 then if 4 ≤ rest.length then some (rest.drop 4) else none
  else none

theorem readVarint_base128 (v : UInt64) (rest : Str) :
    (takeVarint 10 (varintBytes 10 v.toNat ++ rest)).map (fun r => (UInt64.ofNat r.1, r.2))
      = some (v, rest) := by
  have hv : v.toNat < 128 ^ 10 := v.toNat_lt.trans (by decide)
  rw [takeVarint_append le_rfl hv, Option.map_some, UInt64.ofNat_toNat]

theorem readSize_base128 (n : ℕ) (rest : Str) (h : n ≤ maxSize) :
    (takeVarint 5 (varintBytes 10 (UInt64.ofNat n).toNat ++ rest)).bind
      (fun r => if r.1 ≤ maxSize then some r else none) = some (n, rest) := by
  have hn : (UInt64.ofNat n).toNat = n :=
    UInt64.toNat_ofNat_of_lt' (h.trans_lt (by decide))
  have hfive : n < 128 ^ 5 := h.trans_lt (by decide)
  rw [hn, takeVarint_append (by decide) hfive, Option.bind_some, if_pos h]

/-- Tags and sizes take five bytes, numbers ten. -/
def base128 : WireRuntime where
  writeVarint v := varintBytes 10 v.toNat
  readVarint data := (takeVarint 10 data).map fun r => (UInt64.ofNat r.1, r.2)
  readTag data := (takeVarint 5 data).map fun r => (UInt32.ofNat r.1, r.2)
  readSize data := (takeVarint 5 data).bind fun r => if r.1 ≤ maxSize then some r else none
  unknownField := skipField
  verifyUtf8 := isUtf8
  readVarint_append := readVarint_base128
  readTag_cons b rest _ hb := by
    rw [takeVarint_one hb]
    exact congrArg some (Prod.ext (UInt32.toNat_inj.mp (by simp)) rfl)
  readSize_append n rest h := readSize_base128 n rest h
  verifyUtf8_nil := rfl

/-- Umlauts are two bytes; in Latin-1 they are one, and refused. -/
example : base128.verifyUtf8 [0xC3, 0xA4, 0x62] = true
    ∧ base128.verifyUtf8 [0xE4, 0x62] = false := by
  decide

end Wire

end DistBuild
