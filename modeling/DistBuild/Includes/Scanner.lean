import DistBuild.Includes.Directives
import DistBuild.Machinery.Reads

/-!
# Includes/Scanner — the directive scanner, position by position, and its grammar

    line    before # blanks include_next blanks < name > rest
    pos            ╰──▸──────────────────▸────╯     ╰▸ end

`findFileIncludes` says what is found in the text behind a position; here the scanner moves the
position itself, and each place it looks at is recorded.  Both find the same
(`value_scanLine`), namely what the grammar says (`lineInclude_iff`), and no place lies behind the
end of the line.
-/

namespace DistBuild

/-! ## The operations on a line -/

/-- `line[pos]`. -/
def byteAt (line : Str) (pos : ℕ) : Reads UInt8 := ⟨line.getD pos 0, [pos]⟩

/-- The loop that moves past white space, from `n` bytes before the end. -/
def skipSpaceFrom (line : Str) : ℕ → ℕ → Reads ℕ
  | 0, pos => return pos
  | n + 1, pos => do
    let c ← byteAt line pos
    if isSpace c then skipSpaceFrom line n (pos + 1) else return pos

def skipSpace (line : Str) (pos : ℕ) : Reads ℕ := skipSpaceFrom line (line.length - pos) pos

/-- The search for `c`, from `n` bytes before the end. -/
def findFrom (line : Str) (c : UInt8) : ℕ → ℕ → Reads (Option ℕ)
  | 0, _ => return none
  | n + 1, pos => do
    let b ← byteAt line pos
    if b = c then return some pos else findFrom line c n (pos + 1)

/-- `line.find(c, pos)`. -/
def find (line : Str) (c : UInt8) (pos : ℕ) : Reads (Option ℕ) := do
  let _ ← (⟨(), [pos]⟩ : Reads Unit)
  findFrom line c (line.length - pos) pos

/-- `line.compare(pos, word.size(), word) == 0`. -/
def compareAt (line : Str) (pos : ℕ) (word : Str) : Reads Bool :=
  ⟨(line.drop pos).take word.length == word,
    pos :: List.range' pos (min word.length (line.length - pos))⟩

/-- `line.substr(pos, n)`. -/
def substr (line : Str) (pos n : ℕ) : Reads Str :=
  ⟨(line.drop pos).take n, pos :: List.range' pos (min n (line.length - pos))⟩

/-! ## The scanner -/

/-- The position after the keyword. -/
def scanKeyword (line : Str) (pos : ℕ) : Reads (Option ℕ) := do
  if ← compareAt line pos (str "include_next") then return some (pos + 12)
  else if ← compareAt line pos (str "include") then return some (pos + 7)
  else return none

/-- The name from `pos` to `close`. -/
def scanName (line : Str) (close : UInt8) (type : IncludeType) (pos : ℕ) :
    Reads (Option IncludeDirective) := do
  match ← find line close pos with
  | none => return none
  | some last =>
    let name ← substr line pos (last - pos)
    return some ⟨name, type⟩

/-- What stands between the delimiters at `pos`. -/
def scanDelimited (line : Str) (pos : ℕ) : Reads (Option IncludeDirective) :=
  if line.length ≤ pos then return none
  else do
    let c ← byteAt line pos
    if c = '<'.toUInt8 then scanName line '>'.toUInt8 .angle (pos + 1)
    else
      let c ← byteAt line pos
      if c = 34 then scanName line 34 .quote (pos + 1) else return none

/-- One line of `find_file_includes`. -/
def scanLine (line : Str) : Reads (Option IncludeDirective) := do
  match ← find line '#'.toUInt8 0 with
  | none => return none
  | some pos =>
    let pos ← skipSpace line (pos + 1)
    match ← scanKeyword line pos with
    | none => return none
    | some pos =>
      let pos ← skipSpace line pos
      scanDelimited line pos

/-- The lines `std::getline` reads: there is no line after the last newline. -/
def textLines (text : Str) : List Str :=
  if (text.splitOn 10).getLast? = some [] then (text.splitOn 10).dropLast else text.splitOn 10

/-- `find_file_includes`. -/
def scanText (text : Str) : List IncludeDirective :=
  (textLines text).filterMap fun line => (scanLine line).value

/-! ## The grammar -/

def IncludeType.opening : IncludeType → UInt8
  | .angle => '<'.toUInt8
  | .quote => 34

def IncludeType.closing : IncludeType → UInt8
  | .angle => '>'.toUInt8
  | .quote => 34

/-- `(no '#')* '#' blank* keyword blank*`, and the name between its delimiters, followed by
anything. -/
def IncludeLine (keyword line : Str) (d : IncludeDirective) : Prop :=
  ∃ before blanks blanks' rest : Str,
    line = before ++ '#'.toUInt8 :: (blanks ++ (keyword ++ (blanks'
        ++ d.incType.opening :: (d.incContent ++ d.incType.closing :: rest))))
      ∧ '#'.toUInt8 ∉ before ∧ (∀ c ∈ blanks, isSpace c = true) ∧ (∀ c ∈ blanks', isSpace c = true)
      ∧ d.incType.closing ∉ d.incContent

/-- The line is one of the grammar, with either keyword. -/
def IsDirective (line : Str) (d : IncludeDirective) : Prop :=
  IncludeLine (str "include_next") line d ∨ IncludeLine (str "include") line d

/-- One directive for each line that has one, in line order, and nothing for any other line. -/
inductive ListsDirectives : List Str → List IncludeDirective → Prop
  | nil : ListsDirectives [] []
  | directive {line lines d ds} (h : IsDirective line d) (hs : ListsDirectives lines ds) :
      ListsDirectives (line :: lines) (d :: ds)
  | other {line lines ds} (h : ∀ d, ¬ IsDirective line d) (hs : ListsDirectives lines ds) :
      ListsDirectives (line :: lines) ds

/-! ## What the operations find -/

/-- All recorded positions are at most `n`. -/
def Reads.Within {α : Type} (n : ℕ) (x : Reads α) : Prop := ∀ i ∈ x.indices, i ≤ n

section

variable {α β : Type} {n : ℕ}

theorem Reads.within_pure (n : ℕ) (a : α) : (pure a : Reads α).Within n := fun _ hi => by cases hi

theorem Reads.Within.bind {x : Reads α} {f : α → Reads β} (hx : x.Within n)
    (hf : (f x.value).Within n) : (x >>= f).Within n := by
  intro i hi
  rw [Reads.indices_bind, List.mem_append] at hi
  exact hi.elim (hx i) (hf i)

end

section

variable (line : Str) {p n : ℕ}

theorem within_byteAt (h : p < line.length) : (byteAt line p).Within line.length := by
  intro i hi
  rw [List.mem_singleton.mp hi]
  exact h.le

theorem drop_eq_byteAt (h : p < line.length) :
    line.drop p = (byteAt line p).value :: line.drop (p + 1) := by
  rw [List.drop_eq_getElem_cons h]
  exact congrArg (· :: _) (List.getD_eq_getElem line 0 h).symm

/-- Moving past white space leaves what follows it. -/
theorem skipSpaceFrom_spec (hn : p + n = line.length) :
    (skipSpaceFrom line n p).Within line.length
      ∧ (skipSpaceFrom line n p).value ≤ line.length
      ∧ line.drop (skipSpaceFrom line n p).value = (line.drop p).dropWhile isSpace := by
  induction n generalizing p with
  | zero =>
    have hend : line.drop p = [] := List.drop_eq_nil_of_le (by omega)
    refine ⟨Reads.within_pure _ _, Nat.le_of_eq hn, ?_⟩
    rw [hend, skipSpaceFrom, Reads.value_pure, hend]
    rfl
  | succ n ih =>
    have hlt : p < line.length := by omega
    have hin := within_byteAt line hlt
    rw [drop_eq_byteAt line hlt, skipSpaceFrom, Reads.value_bind]
    cases hc : isSpace (byteAt line p).value with
    | true =>
      obtain ⟨hin', hle, heq⟩ := ih (p := p + 1) (by omega)
      rw [List.dropWhile_cons_of_pos hc, if_pos rfl]
      refine ⟨hin.bind ?_, hle, heq⟩
      rw [hc, if_pos rfl]
      exact hin'
    | false =>
      rw [List.dropWhile_cons_of_neg (by rw [hc]; exact Bool.false_ne_true),
        if_neg Bool.false_ne_true, Reads.value_pure, drop_eq_byteAt line hlt]
      refine ⟨hin.bind ?_, hlt.le, rfl⟩
      rw [hc, if_neg Bool.false_ne_true]
      exact Reads.within_pure _ _

theorem skipSpace_spec (h : p ≤ line.length) :
    (skipSpace line p).Within line.length ∧ (skipSpace line p).value ≤ line.length
      ∧ line.drop (skipSpace line p).value = (line.drop p).dropWhile isSpace :=
  skipSpaceFrom_spec line (by omega)

/-- What a search from `p` says of the text behind `p`. -/
def Finds (c : UInt8) (p : ℕ) : Option ℕ → Prop
  | none => c ∉ line.drop p
  | some last => p ≤ last ∧ last < line.length
      ∧ (line.drop p).take (last - p) = (line.drop p).takeWhile (· != c)
      ∧ (line.drop p).dropWhile (· != c) = c :: line.drop (last + 1)

theorem findFrom_spec (c : UInt8) (hn : p + n = line.length) :
    (findFrom line c n p).Within line.length ∧ Finds line c p (findFrom line c n p).value := by
  induction n generalizing p with
  | zero =>
    refine ⟨Reads.within_pure _ _, ?_⟩
    show c ∉ line.drop p
    rw [List.drop_eq_nil_of_le (by omega)]
    exact List.not_mem_nil
  | succ n ih =>
    have hlt : p < line.length := by omega
    have hin := within_byteAt line hlt
    rw [findFrom, Reads.value_bind]
    by_cases hc : (byteAt line p).value = c
    · refine ⟨hin.bind (by rw [if_pos hc]; exact Reads.within_pure _ _), ?_⟩
      rw [if_pos hc]
      have hneg : ¬ ((byteAt line p).value != c) = true := by simp [hc]
      refine ⟨le_rfl, hlt, ?_, ?_⟩
      · rw [Nat.sub_self, List.take_zero, drop_eq_byteAt line hlt,
          List.takeWhile_cons_of_neg (p := (· != c)) hneg]
      · rw [drop_eq_byteAt line hlt, List.dropWhile_cons_of_neg (p := (· != c)) hneg, hc]
    · obtain ⟨hin', hfinds⟩ := ih (p := p + 1) (by omega)
      have hpos : ((byteAt line p).value != c) = true := by simpa using hc
      refine ⟨hin.bind (by rw [if_neg hc]; exact hin'), ?_⟩
      rw [if_neg hc]
      cases hlast : (findFrom line c n (p + 1)).value with
      | none =>
        rw [hlast] at hfinds
        show c ∉ line.drop p
        rw [drop_eq_byteAt line hlt, List.mem_cons, not_or]
        exact ⟨Ne.symm hc, hfinds⟩
      | some last =>
        rw [hlast] at hfinds
        obtain ⟨hle, hend, htake, hdrop⟩ := hfinds
        refine ⟨by omega, hend, ?_, ?_⟩
        · rw [show last - p = last - (p + 1) + 1 by omega, drop_eq_byteAt line hlt,
            List.take_succ_cons, htake, List.takeWhile_cons_of_pos (p := (· != c)) hpos]
        · rw [drop_eq_byteAt line hlt, List.dropWhile_cons_of_pos (p := (· != c)) hpos, hdrop]

theorem find_spec (c : UInt8) (h : p ≤ line.length) :
    (find line c p).Within line.length ∧ Finds line c p (find line c p).value := by
  obtain ⟨hin, hfinds⟩ := findFrom_spec line c (p := p) (n := line.length - p) (by omega)
  refine ⟨Reads.Within.bind (fun i hi => ?_) hin, hfinds⟩
  rw [List.mem_singleton.mp hi]
  exact h

/-- Comparing and copying reads from `p` on, up to the end of the line. -/
theorem within_range' (m : ℕ) (h : p ≤ line.length) :
    ∀ i ∈ p :: List.range' p (min m (line.length - p)), i ≤ line.length := by
  intro i hi
  rcases List.mem_cons.mp hi with rfl | hi
  · exact h
  · have := List.mem_range'_1.mp hi
    omega

theorem value_compareAt (p : ℕ) (word : Str) :
    (compareAt line p word).value = Str.startsWith (line.drop p) word := by
  have hbeq : (compareAt line p word).value = true ↔ (line.drop p).take word.length = word :=
    beq_iff_eq (α := List UInt8)
  rw [Bool.eq_iff_iff, hbeq, Str.startsWith_iff, List.prefix_iff_eq_take, eq_comm]

/-- **The keyword**, as it stands behind `p`. -/
theorem scanKeyword_spec (h : p ≤ line.length) :
    (scanKeyword line p).Within line.length
      ∧ (scanKeyword line p).value.map (line.drop ·) = afterKeyword (line.drop p)
      ∧ ∀ last ∈ (scanKeyword line p).value, last ≤ line.length := by
  have hnext : (compareAt line p (str "include_next")).Within line.length :=
    within_range' line _ h
  have hword : (compareAt line p (str "include")).Within line.length := within_range' line _ h
  have hle : ∀ {word : Str}, Str.startsWith (line.drop p) word = true →
      p + word.length ≤ line.length := by
    intro word hstart
    have := (Str.startsWith_iff.mp hstart).length_le
    rw [List.length_drop] at this
    omega
  unfold scanKeyword
  rw [afterKeyword, Reads.value_bind, value_compareAt]
  split_ifs with hn hi
  · refine ⟨hnext.bind ?_, ?_, ?_⟩
    · rw [value_compareAt, if_pos hn]
      exact Reads.within_pure _ _
    · rw [Reads.value_pure, Option.map_some, List.drop_drop]
    · rintro last ⟨⟩
      exact hle hn
  · refine ⟨hnext.bind ?_, ?_, ?_⟩
    · rw [value_compareAt, if_neg hn]
      refine hword.bind ?_
      rw [value_compareAt, if_pos hi]
      exact Reads.within_pure _ _
    · rw [Reads.value_bind, value_compareAt, if_pos hi, Reads.value_pure, Option.map_some,
        List.drop_drop]
    · rw [Reads.value_bind, value_compareAt, if_pos hi]
      rintro last ⟨⟩
      exact hle hi
  · refine ⟨hnext.bind ?_, ?_, ?_⟩
    · rw [value_compareAt, if_neg hn]
      refine hword.bind ?_
      rw [value_compareAt, if_neg hi]
      exact Reads.within_pure _ _
    · rw [Reads.value_bind, value_compareAt, if_neg hi]
      rfl
    · rw [Reads.value_bind, value_compareAt, if_neg hi]
      exact fun _ hlast => by cases hlast

/-- **The name**, as it stands behind `p`. -/
theorem scanName_spec (close : UInt8) (type : IncludeType) (h : p ≤ line.length) :
    (scanName line close type p).Within line.length
      ∧ (scanName line close type p).value
        = (enclosed close (line.drop p)).map fun name => ⟨name, type⟩ := by
  obtain ⟨hin, hfinds⟩ := find_spec line close h
  rw [scanName, Reads.value_bind, enclosed]
  cases hlast : (find line close p).value with
  | none =>
    rw [hlast] at hfinds
    refine ⟨hin.bind (by rw [hlast]; exact Reads.within_pure _ _), ?_⟩
    rw [if_neg hfinds]
    rfl
  | some last =>
    rw [hlast] at hfinds
    obtain ⟨-, -, htake, hdrop⟩ := hfinds
    have hmem : close ∈ line.drop p :=
      (List.dropWhile_sublist _).subset (hdrop ▸ List.mem_cons_self)
    refine ⟨hin.bind ?_, ?_⟩
    · rw [hlast]
      exact Reads.Within.bind (within_range' line _ h) (Reads.within_pure _ _)
    · rw [if_pos hmem, Option.map_some, ← htake]
      rfl

/-- What `lineInclude` finds behind the keyword. -/
def delimited (rest : Str) : Option IncludeDirective :=
  match rest with
  | [] => none
  | c :: rest =>
    if c = '<'.toUInt8 then (enclosed '>'.toUInt8 rest).map fun name => ⟨name, .angle⟩
    else if c = 34 then (enclosed 34 rest).map fun name => ⟨name, .quote⟩
    else none

theorem scanDelimited_spec (p : ℕ) :
    (scanDelimited line p).Within line.length
      ∧ (scanDelimited line p).value = delimited (line.drop p) := by
  unfold scanDelimited
  split_ifs with hend
  · rw [List.drop_eq_nil_of_le hend]
    exact ⟨Reads.within_pure _ _, rfl⟩
  · have hlt : p < line.length := Nat.lt_of_not_le hend
    have hin := within_byteAt line hlt
    obtain ⟨hangle, hangle'⟩ := scanName_spec line '>'.toUInt8 .angle (p := p + 1) hlt
    obtain ⟨hquote, hquote'⟩ := scanName_spec line 34 .quote (p := p + 1) hlt
    rw [drop_eq_byteAt line hlt, Reads.value_bind, delimited]
    split_ifs with hc hc'
    · refine ⟨hin.bind ?_, hangle'⟩
      rw [if_pos hc]
      exact hangle
    · refine ⟨hin.bind ?_, ?_⟩
      · rw [if_neg hc]
        refine hin.bind ?_
        rw [if_pos hc']
        exact hquote
      · rw [Reads.value_bind, if_pos hc', hquote']
    · refine ⟨hin.bind ?_, ?_⟩
      · rw [if_neg hc]
        refine hin.bind ?_
        rw [if_neg hc']
        exact Reads.within_pure _ _
      · rw [Reads.value_bind, if_neg hc', Reads.value_pure]

/-- **The scanner finds what `lineInclude` finds, inside the line.** -/
theorem scanLine_spec (line : Str) :
    (scanLine line).Within line.length ∧ (scanLine line).value = lineInclude line := by
  obtain ⟨hin, hfinds⟩ := find_spec line '#'.toUInt8 (p := 0) (Nat.zero_le _)
  rw [scanLine, Reads.value_bind, lineInclude]
  cases hhash : (find line '#'.toUInt8 0).value with
  | none =>
    rw [hhash] at hfinds
    have hnone : line.dropWhile (· != '#'.toUInt8) = [] := by
      refine List.dropWhile_eq_nil_iff.mpr fun c hc => ?_
      exact bne_iff_ne.mpr fun heq => hfinds (heq ▸ hc)
    rw [hnone]
    exact ⟨hin.bind (by rw [hhash]; exact Reads.within_pure _ _), rfl⟩
  | some first =>
    rw [hhash] at hfinds
    obtain ⟨-, hfirst, -, hdrop⟩ := hfinds
    rw [List.drop_zero] at hdrop
    obtain ⟨hskip, hle, hrest⟩ := skipSpace_spec line (p := first + 1) hfirst
    obtain ⟨hkey, hafter, hlast⟩ := scanKeyword_spec line hle
    rw [hdrop]
    dsimp only
    rw [← hrest, ← hafter, Reads.value_bind, Reads.value_bind]
    cases hkw : (scanKeyword line (skipSpace line (first + 1)).value).value with
    | none =>
      refine ⟨hin.bind ?_, rfl⟩
      rw [hhash]
      refine hskip.bind (hkey.bind ?_)
      rw [hkw]
      exact Reads.within_pure _ _
    | some last =>
      obtain ⟨hskip', -, hrest'⟩ := skipSpace_spec line (hlast last hkw)
      obtain ⟨hdel, hvalue⟩ := scanDelimited_spec line _
      refine ⟨hin.bind ?_, ?_⟩
      · rw [hhash]
        refine hskip.bind (hkey.bind ?_)
        rw [hkw]
        exact hskip'.bind hdel
      · rw [Option.map_some, Option.bind_some, ← hrest']
        exact hvalue

end

/-! ## What the grammar says -/

/-- What is left after dropping: it starts where dropping stopped. -/
theorem dropWhile_eq_cons_iff {p : UInt8 → Bool} {l rest : Str} {c : UInt8} :
    l.dropWhile p = c :: rest
      ↔ ∃ front, l = front ++ c :: rest ∧ (∀ b ∈ front, p b = true) ∧ ¬ p c = true := by
  constructor
  · intro h
    refine ⟨l.takeWhile p, ?_, fun b hb => List.mem_takeWhile_imp hb, fun hc => ?_⟩
    · rw [← h, List.takeWhile_append_dropWhile]
    · have hagain : (l.dropWhile p).dropWhile p = l.dropWhile p := List.dropWhile_idempotent p l
      rw [h, List.dropWhile_cons_of_pos hc] at hagain
      have := List.length_dropWhile_le p rest
      rw [hagain, List.length_cons] at this
      omega
  · rintro ⟨front, rfl, hfront, hc⟩
    rw [List.dropWhile_append_of_pos hfront, List.dropWhile_cons_of_neg hc]

theorem not_bne_self (c : UInt8) : ¬ (c != c) = true := by simp

theorem bne_of_not_mem {c : UInt8} {l : Str} (h : c ∉ l) : ∀ b ∈ l, (b != c) = true := by
  intro b hb
  rw [bne_iff_ne]
  rintro rfl
  exact h hb

/-- A name is enclosed if the closing delimiter follows it and does not stand in it. -/
theorem enclosed_eq_some_iff {close : UInt8} {text name : Str} :
    enclosed close text = some name
      ↔ close ∉ name ∧ ∃ rest, text = name ++ close :: rest := by
  unfold enclosed
  constructor
  · intro h
    split_ifs at h with hmem
    obtain rfl := Option.some.inj h
    have hfree : close ∉ text.takeWhile (· != close) := fun hc =>
      not_bne_self close (List.mem_takeWhile_imp (p := (· != close)) hc)
    refine ⟨hfree, ?_⟩
    cases hdrop : text.dropWhile (· != close) with
    | nil => exact absurd (List.dropWhile_eq_nil_iff.mp hdrop close hmem) (not_bne_self close)
    | cons c rest =>
      obtain ⟨-, -, -, hc⟩ := dropWhile_eq_cons_iff.mp hdrop
      obtain rfl : c = close := by simpa using hc
      exact ⟨rest, by rw [← hdrop, List.takeWhile_append_dropWhile]⟩
  · rintro ⟨hfree, rest, rfl⟩
    rw [if_pos (by simp), List.takeWhile_append_of_pos (bne_of_not_mem hfree),
      List.takeWhile_cons_of_neg (p := (· != close)) (not_bne_self close), List.append_nil]

theorem delimited_eq_some_iff {text : Str} {d : IncludeDirective} :
    delimited text = some d
      ↔ d.incType.closing ∉ d.incContent ∧ ∃ rest,
        text = d.incType.opening :: (d.incContent ++ d.incType.closing :: rest) := by
  obtain ⟨name, type⟩ := d
  cases text with
  | nil => exact ⟨fun h => (by cases h), fun ⟨_, _, h⟩ => (by cases h)⟩
  | cons c text =>
    have hname : ∀ {close : UInt8} {type' : IncludeType},
        ((enclosed close text).map fun name => (⟨name, type'⟩ : IncludeDirective))
          = some ⟨name, type⟩
            ↔ type' = type ∧ close ∉ name ∧ ∃ rest, text = name ++ close :: rest := by
      intro close type'
      rw [Option.map_eq_some_iff, ← enclosed_eq_some_iff]
      simp [and_comm]
    have hcons : (∃ rest, c :: text = type.opening :: (name ++ type.closing :: rest))
        ↔ c = type.opening ∧ ∃ rest, text = name ++ type.closing :: rest := by simp
    rw [delimited]
    show _ ↔ type.closing ∉ name
      ∧ ∃ rest, c :: text = type.opening :: (name ++ type.closing :: rest)
    rw [hcons, and_left_comm]
    split_ifs with hangle hquote
    · rw [show '>'.toUInt8 = IncludeType.closing .angle from rfl, hname]
      subst hangle
      cases type with
      | angle => exact and_congr_left fun _ => ⟨fun _ => rfl, fun _ => rfl⟩
      | quote => exact iff_of_false (fun h => (by cases h.1)) fun h => absurd h.1 (by decide)
    · rw [show (34 : UInt8) = IncludeType.closing .quote from rfl, hname]
      subst hquote
      cases type with
      | angle => exact iff_of_false (fun h => (by cases h.1)) fun h => absurd h.1 (by decide)
      | quote => exact and_congr_left fun _ => ⟨fun _ => rfl, fun _ => rfl⟩
    · refine ⟨fun h => (by cases h), fun ⟨hc, _⟩ => ?_⟩
      cases type with
      | angle => exact absurd hc hangle
      | quote => exact absurd hc hquote

/-- The longer keyword is taken where it stands. -/
theorem afterKeyword_eq_some_iff {text rest : Str} :
    afterKeyword text = some rest
      ↔ text = str "include_next" ++ rest
        ∨ ¬ str "include_next" <+: text ∧ text = str "include" ++ rest := by
  have hdrop : ∀ {word : Str}, word <+: text →
      (text.drop word.length = rest ↔ text = word ++ rest) := by
    rintro word ⟨tail, rfl⟩
    rw [List.drop_left, List.append_cancel_left_eq]
  unfold afterKeyword
  split_ifs with hnext hword
  · rw [Str.startsWith_iff] at hnext
    rw [Option.some_inj, show 12 = (str "include_next").length from rfl, hdrop hnext]
    exact ⟨Or.inl, fun h => h.resolve_right fun h' => h'.1 hnext⟩
  · rw [Str.startsWith_iff] at hnext hword
    rw [Option.some_inj, show 7 = (str "include").length from rfl, hdrop hword]
    exact ⟨fun h => Or.inr ⟨hnext, h⟩,
      fun h => h.elim (fun h' => absurd ⟨rest, h'.symm⟩ hnext) And.right⟩
  · rw [Str.startsWith_iff] at hnext hword
    refine ⟨fun h => (by cases h), fun h => ?_⟩
    rcases h with rfl | ⟨-, rfl⟩
    · exact absurd (List.prefix_append _ _) hnext
    · exact absurd (List.prefix_append _ _) hword

theorem lineInclude_eq (line : Str) :
    lineInclude line = match line.dropWhile (· != '#'.toUInt8) with
      | [] => none
      | _ :: rest =>
        (afterKeyword (rest.dropWhile isSpace)).bind fun rest =>
          delimited (rest.dropWhile isSpace) :=
  rfl

theorem not_isSpace_opening (type : IncludeType) : ¬ isSpace type.opening = true := by
  cases type <;> decide

/-- Nothing that may follow the keyword makes it the longer one. -/
theorem not_prefixed_include_next {blanks rest : Str} {type : IncludeType}
    (hblanks : ∀ c ∈ blanks, isSpace c = true) :
    ¬ str "include_next" <+: str "include" ++ (blanks ++ type.opening :: rest) := by
  rw [show str "include_next" = str "include" ++ str "_next" from rfl, List.prefix_append_right_inj]
  rintro ⟨tail, htail⟩
  cases blanks with
  | nil =>
    obtain ⟨hc, -⟩ := List.cons.inj htail
    cases type <;> exact absurd hc (by decide)
  | cons c blanks =>
    obtain ⟨hc, -⟩ := List.cons.inj htail
    have := hblanks c List.mem_cons_self
    rw [← hc] at this
    exact absurd this (by decide)

/-- **What the scanner finds is what the grammar says.** -/
theorem lineInclude_eq_some_iff {line : Str} {d : IncludeDirective} :
    lineInclude line = some d ↔ IsDirective line d := by
  constructor
  · intro h
    rw [lineInclude_eq] at h
    cases hhash : line.dropWhile (· != '#'.toUInt8) with
    | nil => rw [hhash] at h; cases h
    | cons c text =>
      rw [hhash] at h
      obtain ⟨before, rfl, hbefore, hc⟩ := dropWhile_eq_cons_iff.mp hhash
      obtain rfl : c = '#'.toUInt8 := by simpa using hc
      obtain ⟨after, hafter, hd⟩ := Option.bind_eq_some_iff.mp h
      obtain ⟨hname, rest, hrest⟩ := delimited_eq_some_iff.mp hd
      obtain ⟨blanks', rfl, hblanks', -⟩ := dropWhile_eq_cons_iff.mp hrest
      have hfree : '#'.toUInt8 ∉ before := fun hmem => not_bne_self _ (hbefore _ hmem)
      have hblanks : ∀ c ∈ text.takeWhile isSpace, isSpace c = true :=
        fun c hc => List.mem_takeWhile_imp hc
      have hline : ∀ {keyword : Str}, text.dropWhile isSpace = keyword ++ (blanks'
          ++ d.incType.opening :: (d.incContent ++ d.incType.closing :: rest)) →
          IncludeLine keyword (before ++ '#'.toUInt8 :: text) d := fun hkey =>
        ⟨before, text.takeWhile isSpace, blanks', rest,
          by rw [← hkey, List.takeWhile_append_dropWhile], hfree, hblanks, hblanks', hname⟩
      rcases afterKeyword_eq_some_iff.mp hafter with hkey | ⟨-, hkey⟩
      · exact Or.inl (hline hkey)
      · exact Or.inr (hline hkey)
  · intro h
    have hkeyword : ∃ keyword, (keyword = str "include_next" ∨ keyword = str "include")
        ∧ IncludeLine keyword line d := by
      rcases h with h | h
      · exact ⟨_, Or.inl rfl, h⟩
      · exact ⟨_, Or.inr rfl, h⟩
    obtain ⟨keyword, hkw, before, blanks, blanks', rest, rfl, hbefore, hblanks, hblanks', hname⟩ :=
      hkeyword
    set tail := blanks' ++ d.incType.opening :: (d.incContent ++ d.incType.closing :: rest)
      with htail
    have hafter : afterKeyword (keyword ++ tail) = some tail := by
      rw [afterKeyword_eq_some_iff]
      rcases hkw with rfl | rfl
      · exact Or.inl rfl
      · exact Or.inr ⟨not_prefixed_include_next hblanks', rfl⟩
    have hskip : (blanks ++ (keyword ++ tail)).dropWhile isSpace = keyword ++ tail := by
      rw [List.dropWhile_append_of_pos hblanks]
      rcases hkw with rfl | rfl
      · exact List.dropWhile_cons_of_neg (by decide)
      · exact List.dropWhile_cons_of_neg (by decide)
    rw [lineInclude_eq, List.dropWhile_append_of_pos (bne_of_not_mem hbefore),
      List.dropWhile_cons_of_neg (p := (· != '#'.toUInt8)) (not_bne_self _)]
    dsimp only
    rw [hskip, hafter, Option.bind_some, htail, List.dropWhile_append_of_pos hblanks',
      List.dropWhile_cons_of_neg (not_isSpace_opening d.incType)]
    exact delimited_eq_some_iff.mpr ⟨hname, rest, rfl⟩

/-- The listing is the scanner's, line by line. -/
theorem listsDirectives_iff {lines : List Str} {ds : List IncludeDirective} :
    ListsDirectives lines ds ↔ ds = lines.filterMap lineInclude := by
  constructor
  · intro h
    induction h with
    | nil => rfl
    | directive h _ ih => rw [List.filterMap_cons_some (lineInclude_eq_some_iff.mpr h), ih]
    | @other line lines ds h _ ih =>
      have hnone : lineInclude line = none :=
        Option.eq_none_iff_forall_not_mem.mpr fun d hd => h d (lineInclude_eq_some_iff.mp hd)
      rw [List.filterMap_cons_none hnone, ih]
  · rintro rfl
    induction lines with
    | nil => exact .nil
    | cons line lines ih =>
      cases hline : lineInclude line with
      | none =>
        rw [List.filterMap_cons_none hline]
        refine .other (fun d hd => ?_) ih
        rw [lineInclude_eq_some_iff.mpr hd] at hline
        cases hline
      | some d =>
        rw [List.filterMap_cons_some hline]
        exact .directive (lineInclude_eq_some_iff.mp hline) ih

theorem scanText_eq (text : Str) : scanText text = (textLines text).filterMap lineInclude := by
  unfold scanText
  exact List.filterMap_congr fun line _ => (scanLine_spec line).2

/-- The scanner finds what `findFileIncludes` says: there is nothing on the line that is left
out. -/
theorem scanText_eq_findFileIncludes (text : Str) : scanText text = findFileIncludes text := by
  rw [scanText_eq, findFileIncludes, textLines]
  split_ifs with hlast
  · obtain ⟨lines, hlines⟩ := List.getLast?_eq_some_iff.mp hlast
    rw [hlines, List.dropLast_concat, List.filterMap_append]
    exact (List.append_nil _).symm
  · rfl

/-- **The scanner accepts exactly its grammar**, and looks at no place behind the end of a line. -/
theorem scanText_exact (text : Str) :
    (∀ ds, ListsDirectives (textLines text) ds ↔ ds = scanText text)
      ∧ ∀ line ∈ textLines text, (scanLine line).Within line.length :=
  ⟨fun _ => by rw [listsDirectives_iff, scanText_eq], fun line _ => (scanLine_spec line).1⟩

end DistBuild
