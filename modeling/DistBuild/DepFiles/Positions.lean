import DistBuild.DepFiles.Format
import DistBuild.Includes.Scanner

/-!
# DepFiles/Positions — the dep file parser, position by position

    c        target: dep \⏎  dep⏎  ⏎  target:⏎
    offset   ╰──▸──╯ ╰▸─╯ ╰─▸──╯╰──▸──╯             past the end after a backslash, by one

The readers of `DepFiles/Format` say what is read of the text behind an offset; here the offset is
moved, and each place that is looked at is recorded.  Every loop looks at a place before the end and
then goes on behind it, which is why it ends (the recursions are on what is left of the text).
-/

namespace DistBuild

theorem byteAt_bind {α : Type} (line : Str) (i : ℕ) (f : UInt8 → Reads α) :
    (byteAt line i >>= f) = (f (byteAt line i).value).after i := rfl

/-! ## The parser -/

variable (c : Str)

def parseSkipSpacesAt (offset : ℕ) : Reads ℕ :=
  if offset < c.length then do
    let b ← byteAt c offset
    if isSpace b then parseSkipSpacesAt (offset + 1) else return offset
  else return offset
termination_by c.length - offset

/-- What the parser throws. -/
def noColon : Str := str "':' expected after target name"

/-- `parse_target_name` at `offset`, after the characters `targetName`. -/
def parseTargetNameAt (targetName : Str) (offset : ℕ) : Reads (Except Str (Str × ℕ)) :=
  if offset < c.length then do
    let b ← byteAt c offset
    if b = 58 then return .ok (escapeGnuMakeSpaces targetName, offset + 1)
    else if b = 10 then return .error noColon
    else if b = 92 then
      if offset + 1 < c.length then do
        let d ← byteAt c (offset + 1)
        parseTargetNameAt (if d = 10 then targetName else targetName ++ [d]) (offset + 2)
      else parseTargetNameAt targetName (offset + 2)
    else if b = 32 then
      parseTargetNameAt (if targetName.getLast? = some 32 then targetName else targetName ++ [32])
        (offset + 1)
    else parseTargetNameAt (targetName ++ [b]) (offset + 1)
  else return .error noColon
termination_by c.length - offset

/-- The first loop of `parse_next_dep_item`. -/
def skipToItemAt (offset : ℕ) : Reads ℕ :=
  if offset < c.length then do
    let b ← byteAt c offset
    if b = 32 then skipToItemAt (offset + 1)
    else if b = 92 then skipToItemAt (offset + 2)
    else return offset
  else return offset
termination_by c.length - offset

/-- The second loop of `parse_next_dep_item`, after the characters `name`. -/
def depItemNameAt (name : Str) (offset : ℕ) : Reads (Str × ℕ) :=
  if offset < c.length then do
    let b ← byteAt c offset
    if b = 32 ∨ b = 10 then return (name, offset)
    else if b = 92 then
      if offset + 1 < c.length then do
        let d ← byteAt c (offset + 1)
        depItemNameAt (name ++ [d]) (offset + 2)
      else depItemNameAt name (offset + 2)
    else depItemNameAt (name ++ [b]) (offset + 1)
  else return (name, offset)
termination_by c.length - offset

/-- `parse_next_dep_item` after its first loop. -/
def depItemAt (offset : ℕ) : Reads (Str × ℕ) :=
  if offset < c.length then do
    let b ← byteAt c offset
    if b = 10 then return ([], offset + 1) else depItemNameAt c [] offset
  else return ([], offset)

def parseNextDepItemAt (offset : ℕ) : Reads (Str × ℕ) := do
  let offset ← skipToItemAt c offset
  depItemAt c offset

/-! ### What they read -/

variable {c} {offset : ℕ}

theorem parseSkipSpacesAt_spec (offset : ℕ) :
    (parseSkipSpacesAt c offset).Below c.length ∧ offset ≤ (parseSkipSpacesAt c offset).value
      ∧ c.drop (parseSkipSpacesAt c offset).value = parseSkipSpaces (c.drop offset) := by
  rw [parseSkipSpacesAt]
  by_cases h : offset < c.length
  · rw [if_pos h, byteAt_bind, drop_eq_byteAt c h, parseSkipSpaces]
    by_cases hb : isSpace (byteAt c offset).value = true
    · obtain ⟨hin, hle, hdrop⟩ := parseSkipSpacesAt_spec (offset + 1)
      rw [if_pos hb, List.dropWhile_cons_of_pos hb]
      exact ⟨hin.after h, Nat.le_of_succ_le hle, hdrop⟩
    · rw [if_neg hb, List.dropWhile_cons_of_neg hb]
      exact ⟨(Reads.below_pure _ _).after h, le_rfl, drop_eq_byteAt c h⟩
  · rw [if_neg h]
    refine ⟨Reads.below_pure _ _, le_rfl, ?_⟩
    rw [Reads.value_pure, List.drop_eq_nil_of_le (Nat.le_of_not_lt h)]
    rfl
termination_by c.length - offset

/-- The first loop of a dep stays in the text: a backslash takes a character with it, if there is
one left. -/
theorem skipToItemAt_spec (offset : ℕ) :
    (skipToItemAt c offset).Below c.length ∧ offset ≤ (skipToItemAt c offset).value
      ∧ c.drop (skipToItemAt c offset).value = skipToItem (c.drop offset) := by
  rw [skipToItemAt]
  by_cases h : offset < c.length
  · rw [if_pos h, byteAt_bind, drop_eq_byteAt c h]
    by_cases h32 : (byteAt c offset).value = 32
    · obtain ⟨hin, hle, hdrop⟩ := skipToItemAt_spec (offset + 1)
      rw [if_pos h32, h32, skipToItem_space]
      exact ⟨hin.after h, Nat.le_of_succ_le hle, hdrop⟩
    by_cases h92 : (byteAt c offset).value = 92
    · obtain ⟨hin, hle, hdrop⟩ := skipToItemAt_spec (offset + 2)
      rw [if_neg h32, if_pos h92, h92]
      refine ⟨hin.after h, (Nat.le_add_right _ 2).trans hle, hdrop.trans ?_⟩
      rcases Nat.lt_or_ge (offset + 1) c.length with hlt | hge
      · rw [drop_eq_byteAt c hlt, skipToItem_pair]
      · rw [List.drop_eq_nil_of_le hge, List.drop_eq_nil_of_le (Nat.le_succ_of_le hge)]
        rfl
    · rw [if_neg h32, if_neg h92, skipToItem_char h32 h92]
      exact ⟨(Reads.below_pure _ _).after h, le_rfl, drop_eq_byteAt c h⟩
  · rw [if_neg h]
    refine ⟨Reads.below_pure _ _, le_rfl, ?_⟩
    rw [Reads.value_pure, List.drop_eq_nil_of_le (Nat.le_of_not_lt h)]
    rfl
termination_by c.length - offset

theorem depItemNameAt_spec (name : Str) (offset : ℕ) :
    (depItemNameAt c name offset).Below c.length ∧ offset ≤ (depItemNameAt c name offset).value.2
      ∧ (depItemNameAt c name offset).value.1 = name ++ (depItemName (c.drop offset)).1
      ∧ c.drop (depItemNameAt c name offset).value.2 = (depItemName (c.drop offset)).2 := by
  rw [depItemNameAt]
  by_cases h : offset < c.length
  · rw [if_pos h, byteAt_bind, drop_eq_byteAt c h]
    by_cases hend : (byteAt c offset).value = 32 ∨ (byteAt c offset).value = 10
    · rw [if_pos hend, depItemName_stop hend]
      exact ⟨(Reads.below_pure _ _).after h, le_rfl, (List.append_nil name).symm,
        drop_eq_byteAt c h⟩
    obtain ⟨h32, h10⟩ := not_or.mp hend
    by_cases h92 : (byteAt c offset).value = 92
    · rw [if_neg hend, if_pos h92, h92]
      by_cases hlt : offset + 1 < c.length
      · obtain ⟨hin, hle, hname, hdrop⟩ :=
          depItemNameAt_spec (name ++ [(byteAt c (offset + 1)).value]) (offset + 2)
        rw [if_pos hlt, byteAt_bind, drop_eq_byteAt c hlt, depItemName_pair]
        refine ⟨(hin.after hlt).after h, (Nat.le_add_right _ 2).trans hle, hname.trans ?_, hdrop⟩
        rw [List.append_assoc, List.singleton_append]
      · obtain ⟨hin, hle, hname, hdrop⟩ := depItemNameAt_spec name (offset + 2)
        have hend : c.length ≤ offset + 1 := Nat.le_of_not_lt hlt
        rw [List.drop_eq_nil_of_le (Nat.le_succ_of_le hend)] at hname hdrop
        rw [if_neg hlt, List.drop_eq_nil_of_le hend]
        exact ⟨hin.after h, (Nat.le_add_right _ 2).trans hle, hname, hdrop⟩
    · obtain ⟨hin, hle, hname, hdrop⟩ :=
        depItemNameAt_spec (name ++ [(byteAt c offset).value]) (offset + 1)
      rw [if_neg hend, if_neg h92, depItemName_char h32 h10 h92]
      refine ⟨hin.after h, Nat.le_of_succ_le hle, hname.trans ?_, hdrop⟩
      rw [List.append_assoc, List.singleton_append]
  · rw [if_neg h, List.drop_eq_nil_of_le (Nat.le_of_not_lt h)]
    exact ⟨Reads.below_pure _ _, le_rfl, (List.append_nil name).symm,
      List.drop_eq_nil_of_le (Nat.le_of_not_lt h)⟩
termination_by c.length - offset

theorem depItemAt_spec {s : Str} {offset : ℕ} (hs : c.drop offset = skipToItem s) :
    (depItemAt c offset).Below c.length ∧ offset ≤ (depItemAt c offset).value.2
      ∧ (depItemAt c offset).value.1 = (parseNextDepItem s).1
      ∧ c.drop (depItemAt c offset).value.2 = (parseNextDepItem s).2 := by
  rw [depItemAt, parseNextDepItem, ← hs]
  by_cases h : offset < c.length
  · rw [if_pos h, byteAt_bind, drop_eq_byteAt c h]
    dsimp only
    by_cases h10 : (byteAt c offset).value = 10
    · rw [if_pos h10, if_pos h10]
      exact ⟨(Reads.below_pure _ _).after h, Nat.le_succ _, rfl, rfl⟩
    · obtain ⟨hin, hle, hname, hdrop⟩ := depItemNameAt_spec (c := c) [] offset
      rw [if_neg h10, if_neg h10, ← drop_eq_byteAt c h]
      exact ⟨hin.after h, hle, hname, hdrop⟩
  · rw [if_neg h, List.drop_eq_nil_of_le (Nat.le_of_not_lt h)]
    exact ⟨Reads.below_pure _ _, le_rfl, rfl, List.drop_eq_nil_of_le (Nat.le_of_not_lt h)⟩

theorem parseNextDepItemAt_spec (offset : ℕ) :
    (parseNextDepItemAt c offset).Below c.length
      ∧ offset ≤ (parseNextDepItemAt c offset).value.2
      ∧ (parseNextDepItemAt c offset).value.1 = (parseNextDepItem (c.drop offset)).1
      ∧ c.drop (parseNextDepItemAt c offset).value.2 = (parseNextDepItem (c.drop offset)).2 := by
  obtain ⟨hskip, hle, hdrop⟩ := skipToItemAt_spec (c := c) offset
  obtain ⟨hitem, hle', hname, hrest⟩ := depItemAt_spec hdrop
  exact ⟨hskip.bind hitem, hle.trans hle', hname, hrest⟩

/-- An item that is not empty takes part of what is left. -/
theorem lt_parseNextDepItemAt (h : (parseNextDepItemAt c offset).value.1 ≠ []) :
    c.length - (parseNextDepItemAt c offset).value.2 < c.length - offset := by
  obtain ⟨-, -, hname, hrest⟩ := parseNextDepItemAt_spec (c := c) offset
  rw [← List.length_drop, ← List.length_drop, hrest]
  exact length_parseNextDepItem_lt (hname ▸ h)

/-- What `parse_target_name` says of the text it is read from. -/
def TargetRead (c : Str) (offset : ℕ) (read : Option (Str × Str)) :
    Except Str (Str × ℕ) → Prop
  | .error message => message = noColon ∧ read = none
  | .ok (name, last) => offset < last ∧ read = some (name, c.drop last)

theorem TargetRead.mono {offset' : ℕ} {read : Option (Str × Str)} {r : Except Str (Str × ℕ)}
    (h : TargetRead c offset' read r) (hle : offset ≤ offset') : TargetRead c offset read r := by
  cases r with
  | error message => exact h
  | ok result => exact ⟨hle.trans_lt h.1, h.2⟩

theorem parseTargetNameAt_spec (name : Str) (offset : ℕ) :
    (parseTargetNameAt c name offset).Below c.length
      ∧ TargetRead c offset (parseTargetName name (c.drop offset))
        (parseTargetNameAt c name offset).value := by
  rw [parseTargetNameAt]
  by_cases h : offset < c.length
  · rw [if_pos h, byteAt_bind, drop_eq_byteAt c h]
    by_cases h58 : (byteAt c offset).value = 58
    · rw [if_pos h58, h58, parseTargetName_colon]
      exact ⟨(Reads.below_pure _ _).after h, Nat.lt_succ_self _, rfl⟩
    by_cases h10 : (byteAt c offset).value = 10
    · rw [if_neg h58, if_pos h10, h10, parseTargetName_newline]
      exact ⟨(Reads.below_pure _ _).after h, rfl, rfl⟩
    by_cases h92 : (byteAt c offset).value = 92
    · rw [if_neg h58, if_neg h10, if_pos h92, h92]
      by_cases hlt : offset + 1 < c.length
      · obtain ⟨hin, hread⟩ := parseTargetNameAt_spec
          (if (byteAt c (offset + 1)).value = 10 then name
            else name ++ [(byteAt c (offset + 1)).value]) (offset + 2)
        rw [if_pos hlt, byteAt_bind, drop_eq_byteAt c hlt, parseTargetName_pair]
        exact ⟨(hin.after hlt).after h, hread.mono (Nat.le_add_right _ 2)⟩
      · obtain ⟨hin, hread⟩ := parseTargetNameAt_spec name (offset + 2)
        have hend : c.length ≤ offset + 1 := Nat.le_of_not_lt hlt
        rw [List.drop_eq_nil_of_le (Nat.le_succ_of_le hend)] at hread
        rw [if_neg hlt, List.drop_eq_nil_of_le hend]
        exact ⟨hin.after h, hread.mono (Nat.le_add_right _ 2)⟩
    by_cases h32 : (byteAt c offset).value = 32
    · obtain ⟨hin, hread⟩ := parseTargetNameAt_spec
        (if name.getLast? = some 32 then name else name ++ [32]) (offset + 1)
      rw [if_neg h58, if_neg h10, if_neg h92, if_pos h32, h32, parseTargetName_space]
      exact ⟨hin.after h, hread.mono (Nat.le_succ _)⟩
    · obtain ⟨hin, hread⟩ := parseTargetNameAt_spec (name ++ [(byteAt c offset).value]) (offset + 1)
      rw [if_neg h58, if_neg h10, if_neg h92, if_neg h32, parseTargetName_char _ _ h58 h10 h92 h32]
      exact ⟨hin.after h, hread.mono (Nat.le_succ _)⟩
  · rw [if_neg h, List.drop_eq_nil_of_le (Nat.le_of_not_lt h)]
    exact ⟨Reads.below_pure _ _, rfl, rfl⟩
termination_by c.length - offset

/-! ## The two outer loops -/

/-- The loop over the deps of a target. -/
def depItemsAt (c : Str) (offset : ℕ) : Reads (List Str × ℕ) :=
  let item := parseNextDepItemAt c offset
  if item.value.1 = [] then ⟨([], item.value.2), item.indices⟩
  else
    let items := depItemsAt c item.value.2
    ⟨(item.value.1 :: items.value.1, items.value.2), item.indices ++ items.indices⟩
termination_by c.length - offset
decreasing_by exact lt_parseNextDepItemAt ‹_›

theorem depItemsAt_spec (offset : ℕ) :
    (depItemsAt c offset).Below c.length ∧ offset ≤ (depItemsAt c offset).value.2
      ∧ (depItemsAt c offset).value.1 = (depItems (c.drop offset)).1
      ∧ c.drop (depItemsAt c offset).value.2 = (depItems (c.drop offset)).2 := by
  obtain ⟨hin, hle, hname, hrest⟩ := parseNextDepItemAt_spec (c := c) offset
  rw [depItemsAt, depItems_eq, ← hname, ← hrest]
  by_cases h : (parseNextDepItemAt c offset).value.1 = []
  · rw [if_pos h, if_pos h]
    exact ⟨hin, hle, rfl, rfl⟩
  · obtain ⟨hin', hle', hnames, hrest'⟩ := depItemsAt_spec (parseNextDepItemAt c offset).value.2
    rw [if_neg h, if_neg h]
    refine ⟨fun i hi => ?_, hle.trans hle', congrArg _ hnames, hrest'⟩
    exact (List.mem_append.mp hi).elim (hin i) (hin' i)
termination_by c.length - offset
decreasing_by exact lt_parseNextDepItemAt h

/-- The loop of `parse_dep_file_contents`. -/
def parseTargetsAt (c : Str) (offset : ℕ) : Reads (Except Str (List DepTarget)) :=
  let start := parseSkipSpacesAt c offset
  if c.length ≤ start.value then ⟨.ok [], start.indices⟩
  else
    let target := parseTargetNameAt c [] start.value
    match _hread : target.value with
    | .error message => ⟨.error message, start.indices ++ target.indices⟩
    | .ok (name, last) =>
      let items := depItemsAt c last
      let targets := parseTargetsAt c items.value.2
      ⟨targets.value.map (⟨name, items.value.1⟩ :: ·),
        start.indices ++ target.indices ++ items.indices ++ targets.indices⟩
termination_by c.length - offset
decreasing_by
  have hstart : offset ≤ start.value := (parseSkipSpacesAt_spec offset).2.1
  have htarget : TargetRead c start.value _ target.value := (parseTargetNameAt_spec [] _).2
  have hitems : last ≤ items.value.2 := (depItemsAt_spec last).2.1
  rw [_hread] at htarget
  have hlast : start.value < last := htarget.1
  show c.length - items.value.2 < c.length - offset
  omega

def parseDepFileContentsAt (c : Str) : Reads (Except Str (List DepTarget)) := parseTargetsAt c 0

theorem parseTargetsAt_spec (offset : ℕ) :
    (parseTargetsAt c offset).Below c.length
      ∧ (parseTargetsAt c offset).value
        = (parseDepFileContents (c.drop offset)).elim (.error noColon) .ok := by
  obtain ⟨hskip, hle, hdrop⟩ := parseSkipSpacesAt_spec (c := c) offset
  rw [parseTargetsAt, parseDepFileContents_eq, ← hdrop]
  dsimp only
  by_cases hend : c.length ≤ (parseSkipSpacesAt c offset).value
  · rw [if_pos hend, if_pos (List.drop_eq_nil_of_le hend)]
    exact ⟨hskip, rfl⟩
  have hne : c.drop (parseSkipSpacesAt c offset).value ≠ [] :=
    fun h => hend (List.drop_eq_nil_iff.mp h)
  obtain ⟨htarget, hread⟩ := parseTargetNameAt_spec (c := c) [] (parseSkipSpacesAt c offset).value
  rw [if_neg hend, if_neg hne]
  split
  · rename_i message hmessage
    rw [hmessage] at hread
    obtain ⟨rfl, hnone⟩ := hread
    rw [hnone]
    exact ⟨fun i hi => (List.mem_append.mp hi).elim (hskip i) (htarget i), rfl⟩
  · rename_i name last hname
    rw [hname] at hread
    obtain ⟨hlt, hsome⟩ := hread
    obtain ⟨hitems, hle', hdeps, hrest⟩ := depItemsAt_spec (c := c) last
    obtain ⟨htargets, hvalue⟩ := parseTargetsAt_spec (depItemsAt c last).value.2
    rw [hsome, Option.bind_some, hvalue, hrest, hdeps]
    refine ⟨fun i hi => ?_, ?_⟩
    · simp only [List.mem_append] at hi
      rcases hi with ((hi | hi) | hi) | hi
      · exact hskip i hi
      · exact htarget i hi
      · exact hitems i hi
      · exact htargets i hi
    · cases parseDepFileContents (depItems (c.drop last)).2 <;> rfl
termination_by c.length - offset

/-! ## What is stored -/

theorem ne_nil_of_mem_depItems {s dep : Str} (h : dep ∈ (depItems s).1) : dep ≠ [] := by
  induction s using depItems_induction with
  | none s hs =>
    rw [depItems_nil hs] at h
    cases h
  | newline s rest hs =>
    rw [depItems_newline hs] at h
    cases h
  | item s c t hs h10 ih =>
    rw [depItems_item hs h10, List.mem_cons] at h
    rcases h with rfl | h
    · rw [depItemName_head hs h10]
      exact List.cons_ne_nil _ _
    · exact ih h

/-- **No empty dep is stored.** -/
theorem ne_nil_of_parsed {s : Str} {targets : List DepTarget}
    (h : parseDepFileContents s = some targets) {t : DepTarget} (ht : t ∈ targets) {dep : Str}
    (hdep : dep ∈ t.depFiles) : dep ≠ [] := by
  induction hn : s.length using Nat.strong_induction_on generalizing s targets with
  | _ n ih =>
    rw [parseDepFileContents_eq] at h
    split_ifs at h
    · obtain rfl := Option.some.inj h
      cases ht
    · obtain ⟨r, hr, hmap⟩ := Option.bind_eq_some_iff.mp h
      obtain ⟨targets', htargets, rfl⟩ := Option.map_eq_some_iff.mp hmap
      rcases List.mem_cons.mp ht with rfl | ht
      · exact ne_nil_of_mem_depItems hdep
      · exact ih _ (hn ▸ length_after_target_lt hr) htargets ht rfl

/-- **The parser ends, inside the text**: it looks at no place behind the end, and returns targets
without an empty dep, or throws for a missing colon. -/
theorem parser_ends_inside (c : Str) :
    (∀ i ∈ (parseDepFileContentsAt c).indices, i < c.length)
      ∧ ((∃ targets, (parseDepFileContentsAt c).value = .ok targets
            ∧ ∀ t ∈ targets, ∀ dep ∈ t.depFiles, dep ≠ [])
        ∨ (parseDepFileContentsAt c).value = .error (str "':' expected after target name")) := by
  obtain ⟨hin, hvalue⟩ := parseTargetsAt_spec (c := c) 0
  refine ⟨hin, ?_⟩
  rw [parseDepFileContentsAt, hvalue, List.drop_zero]
  cases hparse : parseDepFileContents c with
  | none => exact Or.inr rfl
  | some targets =>
    exact Or.inl ⟨targets, rfl, fun t ht dep hdep => ne_nil_of_parsed hparse ht hdep⟩

end DistBuild
