import DistBuild.Machinery.Posix

/-!
# Machinery/Lexical — suffixes, components and normal forms of joined paths

    dir "/" p     a suffix without a separator is a suffix of p
                  the components are those of dir, then those of p

Components lead somewhere: `..` leads up, and from the root nowhere (`walk`).  A relative path leads
some levels up and then to some names, wherever it starts (`walk_eq`), which says when it stays
below its start, and when two starts lead to one place.
-/

namespace DistBuild

/-! ## Suffixes -/

/-- A suffix without a separator ends before the last one. -/
theorem suffix_after_slash_iff {suf pre p : Str} (hsuf : slash ∉ suf)
    (hpre : pre = [] ∨ pre.getLast? = some slash) : suf <:+ pre ++ p ↔ suf <:+ p := by
  refine ⟨fun h => ?_, fun h => h.trans (List.suffix_append pre p)⟩
  rcases List.suffix_or_suffix_of_suffix h (List.suffix_append pre p) with h' | ⟨q, rfl⟩
  · exact h'
  · rcases List.eq_nil_or_concat q with rfl | ⟨q', c, rfl⟩
    · exact List.suffix_rfl
    · obtain ⟨r, hr⟩ := List.suffix_append_self_iff.mp h
      have hc : pre.getLast? = some c := by
        rw [← hr, List.concat_eq_append, ← List.append_assoc, List.getLast?_concat]
      rcases hpre with rfl | hlast
      · cases hc
      · obtain rfl := Option.some.inj (hc.symm.trans hlast)
        exact absurd (by simp) hsuf

/-- Stripping the root keeps such a suffix. -/
theorem suffix_relativePath_iff {suf p : Str} (hsuf : slash ∉ suf) :
    suf <:+ relativePath p ↔ suf <:+ p := by
  have hroot : p.takeWhile (· == slash) = []
      ∨ (p.takeWhile (· == slash)).getLast? = some slash := by
    rcases List.eq_nil_or_concat (p.takeWhile (· == slash)) with h | ⟨q, c, h⟩
    · exact Or.inl h
    · refine Or.inr ?_
      have hc : c ∈ p.takeWhile (· == slash) := by simp [h]
      rw [h, List.concat_eq_append, List.getLast?_concat]
      exact congrArg some (by simpa using List.mem_takeWhile_imp hc)
  rw [relativePath]
  conv_rhs => rw [← List.takeWhile_append_dropWhile (p := (· == slash)) (l := p)]
  exact (suffix_after_slash_iff hsuf hroot).symm

/-- So does joining. -/
theorem suffix_join_iff {suf dir p : Str} (hsuf : slash ∉ suf) (hp : isAbsolute p = false) :
    suf <:+ join dir p ↔ suf <:+ p := by
  rw [join, hp, if_neg Bool.false_ne_true]
  split_ifs with hdir
  · exact suffix_after_slash_iff hsuf hdir
  · rw [← List.singleton_append, ← List.append_assoc]
    exact suffix_after_slash_iff hsuf (Or.inr (List.getLast?_concat ..))

/-! ## Absolute paths -/

theorem isAbsolute_iff {p : Str} : isAbsolute p = true ↔ ∃ p', p = slash :: p' := by
  cases p with
  | nil => simp [isAbsolute]
  | cons c p => simp [isAbsolute]

theorem ne_nil_of_isAbsolute {p : Str} (h : isAbsolute p = true) : p ≠ [] := by
  rintro rfl
  cases h

/-- What is below an absolute directory is absolute. -/
theorem isAbsolute_join {d p : Str} (hd : isAbsolute d = true) : isAbsolute (join d p) = true := by
  obtain ⟨d', rfl⟩ := isAbsolute_iff.mp hd
  unfold join
  split_ifs with hp
  · exact hp
  · rfl
  · rfl

/-! ## Joining -/

/-- What `join` puts between `dir` and a relative path. -/
def separator (dir : Str) : Str := if dir = [] ∨ dir.getLast? = some slash then [] else [slash]

theorem join_eq {dir p : Str} (hp : isAbsolute p = false) :
    join dir p = dir ++ separator dir ++ p := by
  rw [join, hp, if_neg Bool.false_ne_true, separator]
  split_ifs with hdir
  · rw [List.append_nil]
  · rw [List.append_assoc, List.singleton_append]

theorem separator_append {dir : Str} (pre : Str) (h : dir ≠ []) :
    separator (pre ++ dir) = separator dir := by
  simp [separator, h, List.getLast?_append_of_ne_nil pre h]

/-- One separator is enough. -/
theorem separator_separated (dir : Str) : separator (dir ++ separator dir) = [] := by
  by_cases h : dir = [] ∨ dir.getLast? = some slash
  · simp [separator, h]
  · rw [separator, separator, if_neg h, List.getLast?_concat]
    exact if_pos (Or.inr rfl)

theorem isAbsolute_append_of_ne_nil {a : Str} (h : a ≠ []) (b : Str) :
    isAbsolute (a ++ b) = isAbsolute a := by
  cases a with
  | nil => exact absurd rfl h
  | cons c a => rfl

theorem isAbsolute_join_of_relative {d p : Str} (hd : isAbsolute d = false)
    (hp : isAbsolute p = false) : isAbsolute (join d p) = false := by
  rw [join_eq hp]
  by_cases h : d = []
  · simpa [h, separator] using hp
  · rw [List.append_assoc, isAbsolute_append_of_ne_nil h, hd]

/-- **Joining is associative** on relative paths. -/
theorem join_join {a b c : Str} (hb : isAbsolute b = false) (hc : isAbsolute c = false) :
    join (join a b) c = join a (join b c) := by
  rw [join_eq hc, join_eq (isAbsolute_join_of_relative hb hc), join_eq hb, join_eq hc]
  by_cases h : b = []
  · subst h
    rw [List.append_nil, separator_separated, List.append_nil]
    rfl
  · rw [separator_append _ h]
    simp only [List.append_assoc]

/-- Stripping the root first, or last. -/
theorem relativePath_join {d n : Str} (hn : isAbsolute n = false) :
    relativePath (join d n) = join (relativePath d) n := by
  rw [join_eq hn, join_eq hn]
  by_cases h : relativePath d = []
  · have hroot : separator d = [] := by
      have hd : d = [] ∨ d.getLast? = some slash := by
        rcases List.eq_nil_or_concat d with rfl | ⟨d', c, rfl⟩
        · exact Or.inl rfl
        · refine Or.inr ?_
          rw [List.concat_eq_append, List.getLast?_concat]
          have hc := List.dropWhile_eq_nil_iff.mp h c (by simp)
          exact congrArg some (by simpa using hc)
      exact if_pos hd
    rw [h, hroot, List.append_nil, relativePath, List.dropWhile_append_of_pos
      (List.dropWhile_eq_nil_iff.mp h)]
    exact relativePath_of_not_isAbsolute hn
  · obtain ⟨root, hroot⟩ : relativePath d <:+ d := List.dropWhile_suffix _
    have hsep : separator d = separator (relativePath d) := by
      conv_lhs => rw [← hroot]
      exact separator_append root h
    rw [hsep, List.append_assoc, relativePath, List.dropWhile_append, if_neg, ← relativePath,
      List.append_assoc]
    simpa [relativePath] using h

/-- Where a join can cut the text `p`: the directory, and what is then left for the other path. -/
def cuts (p : Str) : List (Str × Str) :=
  p.inits.filterMap fun d =>
    if d = p then none else ((separator d).isPrefixOf? (p.drop d.length)).map fun r => (d, r)

theorem mem_cuts {p d r : Str} : (d, r) ∈ cuts p ↔ d ≠ p ∧ p = d ++ (separator d ++ r) := by
  simp only [cuts, List.mem_filterMap, List.mem_inits]
  constructor
  · rintro ⟨d', hd', hcut⟩
    split_ifs at hcut with hp
    obtain ⟨r', hr', heq⟩ := Option.map_eq_some_iff.mp hcut
    obtain ⟨rfl, rfl⟩ := Prod.mk.inj heq
    refine ⟨hp, ?_⟩
    rw [List.isPrefixOf?_eq_some_iff_append_eq.mp hr']
    obtain ⟨q, rfl⟩ := hd'
    rw [List.drop_left]
  · rintro ⟨hp, heq⟩
    refine ⟨d, ⟨_, heq.symm⟩, ?_⟩
    rw [if_neg hp, Option.map_eq_some_iff]
    refine ⟨r, List.isPrefixOf?_eq_some_iff_append_eq.mpr ?_, rfl⟩
    conv_rhs => rw [heq, List.drop_left]

/-- **What a joined path starts with**: its directory does already, or a cut of it falls between the
two. -/
theorem prefix_join_iff {p d n : Str} (hn : isAbsolute n = false) :
    p <+: join d n ↔ p <+: d ∨ ∃ r, (d, r) ∈ cuts p ∧ r <+: n := by
  rw [join_eq hn, List.append_assoc]
  constructor
  · intro h
    rcases List.prefix_or_prefix_of_prefix h (List.prefix_append d _) with hp | ⟨r, rfl⟩
    · exact Or.inl hp
    · rcases List.eq_nil_or_concat r with rfl | ⟨r', c, rfl⟩
      · exact Or.inl (by simp)
      · have hr := (List.prefix_append_right_inj d).mp h
        have hsep : separator d <+: r'.concat c := by
          refine List.prefix_of_prefix_length_le (List.prefix_append _ n) hr ?_
          unfold separator
          split_ifs <;> simp
        obtain ⟨q, hq⟩ := hsep
        refine Or.inr ⟨q, mem_cuts.mpr ⟨?_, by rw [hq]⟩, ?_⟩
        · intro hd
          simpa using congrArg List.length hd
        · rw [← hq] at hr
          exact (List.prefix_append_right_inj _).mp hr
  · rintro (h | ⟨r, hr, hrn⟩)
    · exact h.trans (List.prefix_append d _)
    · rw [(mem_cuts.mp hr).2]
      exact (List.prefix_append_right_inj d).mpr ((List.prefix_append_right_inj _).mpr hrn)

/-- What stands before the last separator, if that is a proper directory. -/
theorem parentPath_append_slash {dir name : Str} (hd : dir ≠ []) (hs : dir.getLast? ≠ some slash)
    (hname : slash ∉ name) : parentPath (dir ++ slash :: name) = dir := by
  obtain ⟨front, c, rfl⟩ := (List.eq_nil_or_concat' dir).resolve_left hd
  have hc : c ≠ slash := by simpa using hs
  have hlast :
    ((front ++ [c] ++ slash :: name).reverse.dropWhile (· != slash)).dropWhile (· == slash)
      = c :: front.reverse := by
    have hrev : (front ++ [c] ++ slash :: name).reverse
        = name.reverse ++ slash :: c :: front.reverse := by simp
    rw [hrev, List.dropWhile_append_of_pos, List.dropWhile_cons_of_neg, List.dropWhile_cons_of_pos,
      List.dropWhile_cons_of_neg]
    · simpa using hc
    · simp
    · simp
    · intro b hb
      rw [bne_iff_ne]
      rintro rfl
      exact hname (List.mem_reverse.mp hb)
  have hrel : relativePath (front ++ [c] ++ slash :: name) ≠ [] := by
    intro hnil
    have := List.dropWhile_eq_nil_iff.mp hnil c (by simp)
    exact hc (by simpa using this)
  rw [parentPath, if_neg hrel, hlast]
  simp

/-! ## Components -/

/-- The components of a path: what its separators separate, unless it is empty. -/
def components (p : Str) : List Str := (p.splitOn slash).filter (· ≠ [])

@[simp] theorem components_nil : components [] = [] := rfl

theorem splitOn_append_slash (p q : Str) :
    (p ++ slash :: q).splitOn slash = p.splitOn slash ++ q.splitOn slash := by
  simp only [List.splitOn_eq_splitOnP]
  exact List.splitOnP_append_cons p q (beq_self_eq_true slash)

theorem components_append_slash (p q : Str) :
    components (p ++ slash :: q) = components p ++ components q := by
  rw [components, splitOn_append_slash, List.filter_append, components, components]

theorem components_cons_slash (p : Str) : components (slash :: p) = components p :=
  components_append_slash [] p

/-- What ends with a separator, or is empty, is cut off from what follows. -/
theorem components_append {dir : Str} (h : dir = [] ∨ dir.getLast? = some slash) (p : Str) :
    components (dir ++ p) = components dir ++ components p := by
  rcases h with rfl | h
  · rfl
  · obtain ⟨dir', rfl⟩ := List.getLast?_eq_some_iff.mp h
    rw [List.append_assoc, List.singleton_append, components_append_slash, components_append_slash,
      components_nil, List.append_nil]

/-- Stripping the root keeps the components. -/
theorem components_relativePath (p : Str) : components (relativePath p) = components p := by
  induction p with
  | nil => rfl
  | cons c p ih =>
    by_cases hc : c = slash
    · subst hc
      rw [relativePath, List.dropWhile_cons_of_pos (by simp), components_cons_slash]
      exact ih
    · rw [relativePath, List.dropWhile_cons_of_neg (by simpa using hc)]

/-- **Joining puts the components one after the other.** -/
theorem components_join {dir p : Str} (hp : isAbsolute p = false) :
    components (join dir p) = components dir ++ components p := by
  rw [join, hp, if_neg Bool.false_ne_true]
  split_ifs with hdir
  · exact components_append hdir p
  · exact components_append_slash dir p

/-! ## Containment -/

/-- A path that lies in `dir`, component by component. -/
def Within (dir p : Str) : Prop :=
  isAbsolute dir = isAbsolute p ∧ components dir <+: components p

instance (dir p : Str) : Decidable (Within dir p) := by
  unfold Within
  infer_instance

/-- `dir` ends inside a name of `p`: the text of `p` goes on where that of `dir` ends, and there is
no separator on either side.  (An empty `dir` is no start of an absolute path.) -/
def CutsName (dir p : Str) : Prop :=
  ∃ c rest, p = dir ++ c :: rest
    ∧ (dir = [] ∧ c = slash ∨ dir ≠ [] ∧ dir.getLast? ≠ some slash ∧ c ≠ slash)

/-- `dir` holds `p` under another spelling: where their texts part, one goes on with a separator,
and the other does not. -/
def Respells (dir p : Str) : Prop :=
  Within dir p ∧ ∃ shared d q, dir = shared ++ d ∧ p = shared ++ q ∧ d ≠ []
    ∧ (d.head? = some slash ↔ q.head? ≠ some slash)

/-- The last name of a path. -/
theorem exists_last_name (p : Str) :
    ∃ dir name, p = dir ++ name ∧ (dir = [] ∨ dir.getLast? = some slash) ∧ slash ∉ name := by
  induction p using List.reverseRecOn with
  | nil => exact ⟨[], [], rfl, Or.inl rfl, List.not_mem_nil⟩
  | append_singleton p c ih =>
    obtain ⟨dir, name, rfl, hdir, hname⟩ := ih
    by_cases hc : c = slash
    · subst hc
      exact ⟨dir ++ name ++ [slash], [], (List.append_nil _).symm,
        Or.inr (List.getLast?_concat ..), List.not_mem_nil⟩
    · exact ⟨dir, name ++ [c], List.append_assoc .., hdir, by simp [hname, Ne.symm hc]⟩

/-- A path that starts with a name has it as its first component, up to the next separator. -/
theorem components_cons_name {c : UInt8} (hc : c ≠ slash) (p : Str) :
    ∃ rest, components (c :: p) = (c :: p.takeWhile (· != slash)) :: rest := by
  have hname : ∀ x ∈ c :: p.takeWhile (· != slash), x ≠ slash := by
    refine List.forall_mem_cons.mpr ⟨hc, fun x hx => ?_⟩
    simpa using List.mem_takeWhile_imp hx
  have hsingle : components (c :: p.takeWhile (· != slash)) = [c :: p.takeWhile (· != slash)] := by
    rw [components, List.splitOn_eq_singleton fun h => hname slash h rfl]
    exact List.filter_cons_of_pos (by simp)
  have hp : c :: p = (c :: p.takeWhile (· != slash)) ++ p.dropWhile (· != slash) := by
    rw [List.cons_append, List.takeWhile_append_dropWhile]
  rw [hp]
  cases hrest : p.dropWhile (· != slash) with
  | nil => exact ⟨[], by rw [List.append_nil, hsingle]⟩
  | cons d q =>
    have hd : d = slash := by
      have hne : p.dropWhile (· != slash) ≠ [] := by simp [hrest]
      have hhead := List.head_dropWhile_not (· != slash) hne
      simpa [hrest] using hhead
    subst hd
    exact ⟨components q, by rw [components_append_slash, hsingle, List.singleton_append]⟩

theorem cutsName_append_iff {dir : Str} {c : UInt8} {rest : Str} :
    CutsName dir (dir ++ c :: rest)
      ↔ dir = [] ∧ c = slash ∨ dir ≠ [] ∧ dir.getLast? ≠ some slash ∧ c ≠ slash := by
  constructor
  · rintro ⟨d, t, heq, h⟩
    obtain ⟨rfl, -⟩ := List.cons.inj (List.append_cancel_left heq)
    exact h
  · exact fun h => ⟨c, rest, rfl, h⟩

/-- A name that no separator divides is its one component. -/
theorem components_name {c : Str} (hne : c ≠ []) (hslash : slash ∉ c) : components c = [c] := by
  rw [components, List.splitOn_eq_singleton hslash]
  exact List.filter_cons_of_pos (by simpa using hne)

/-- What follows a separator starts with a name, which its own text goes on to the next one. -/
theorem components_append_name {name q : Str} (hname : slash ∉ name)
    (hne : name ++ q.takeWhile (· != slash) ≠ []) :
    ∃ rest, components (name ++ q) = (name ++ q.takeWhile (· != slash)) :: rest := by
  cases name with
  | nil =>
    cases q with
    | nil => exact absurd rfl hne
    | cons c q =>
      have hc : c ≠ slash := by
        rintro rfl
        exact hne (by simp)
      obtain ⟨rest, h⟩ := components_cons_name hc q
      exact ⟨rest, by simpa [hc] using h⟩
  | cons n ns =>
    have hn : n ≠ slash := fun h => hname (h ▸ List.mem_cons_self)
    have hns : ∀ x ∈ ns, (x != slash) = true := fun x hx => by
      simpa using fun h : x = slash => hname (h ▸ List.mem_cons_of_mem _ hx)
    obtain ⟨rest, h⟩ := components_cons_name hn (ns ++ q)
    rw [List.takeWhile_append_of_pos hns] at h
    exact ⟨rest, h⟩

/-- **Names that part**: if two paths lead through the same components, and neither goes on with a
separator where their texts part, then the text of the one goes no further than that of the
other. -/
theorem head_eq_of_same_components {shared q : Str} {c : UInt8} {d : Str} (hc : c ≠ slash)
    (hq : q.head? ≠ some slash)
    (h : components (shared ++ c :: d) <+: components (shared ++ q)) : q.head? = some c := by
  obtain ⟨above, name, rfl, habove, hname⟩ := exists_last_name shared
  obtain ⟨rest, hd⟩ := components_append_name (q := c :: d) hname (by simp [hc])
  rw [List.append_assoc, List.append_assoc, components_append habove, components_append habove,
    List.prefix_append_right_inj, hd] at h
  by_cases hne : name ++ q.takeWhile (· != slash) = []
  · obtain ⟨rfl, hnone⟩ := List.append_eq_nil_iff.mp hne
    cases q with
    | nil => simp at h
    | cons x q =>
      have hx : x ≠ slash := fun hx => hq (congrArg some hx)
      simp [hx] at hnone
  · obtain ⟨rest', hrest⟩ := components_append_name hname hne
    rw [hrest, List.cons_prefix_cons] at h
    have htake := List.append_cancel_left h.1
    cases q with
    | nil => simp [hc] at htake
    | cons x q =>
      have hx : x ≠ slash := fun hx => hq (congrArg some hx)
      rw [List.takeWhile_cons_of_pos (by simpa using hc),
        List.takeWhile_cons_of_pos (by simpa using hx)] at htake
      rw [(List.cons.inj htake).1]
      rfl

/-- A directory that ends inside a name does not hold the path: its last name is another one. -/
theorem not_prefix_of_cut {dir : Str} (hne : dir ≠ []) (hlast : dir.getLast? ≠ some slash)
    {c : UInt8} (hc : c ≠ slash) (rest : Str) :
    ¬ components dir <+: components (dir ++ c :: rest) := by
  obtain ⟨above, name, rfl, habove, hname⟩ := exists_last_name dir
  cases name with
  | nil =>
    rw [List.append_nil] at hne hlast
    exact absurd (habove.resolve_left hne) hlast
  | cons n ns =>
    obtain ⟨rest', hlong⟩ := components_append_name (q := c :: rest) hname (by simp)
    rw [List.append_assoc, components_append habove, components_append habove,
      List.prefix_append_right_inj, components_name (by simp) hname, hlong, List.cons_prefix_cons]
    rintro ⟨heq, -⟩
    simp [hc] at heq

/-- **Text and components**: a path that starts with the text of `dir` lies in it, unless `dir` ends
inside a name. -/
theorem within_append_iff (dir rest : Str) :
    Within dir (dir ++ rest) ↔ ¬ CutsName dir (dir ++ rest) := by
  cases rest with
  | nil =>
    rw [List.append_nil]
    refine iff_of_true ⟨rfl, List.prefix_rfl⟩ ?_
    rintro ⟨c, t, heq, -⟩
    simp at heq
  | cons c rest =>
    rw [cutsName_append_iff]
    by_cases hdir : dir = []
    · subst hdir
      simp [Within, isAbsolute]
    · have habs : isAbsolute dir = isAbsolute (dir ++ c :: rest) :=
        (isAbsolute_append_of_ne_nil hdir _).symm
      by_cases hlast : dir.getLast? = some slash
      · refine iff_of_true ⟨habs, ?_⟩ (by simp [hdir, hlast])
        rw [components_append (Or.inr hlast)]
        exact List.prefix_append ..
      · by_cases hc : c = slash
        · subst hc
          refine iff_of_true ⟨habs, ?_⟩ (by simp [hdir])
          rw [components_append_slash]
          exact List.prefix_append ..
        · exact iff_of_false (fun h => not_prefix_of_cut hdir hlast hc rest h.2)
            (by simp [hdir, hlast, hc])

/-- Two texts part somewhere, or the first is a start of the second. -/
theorem exists_parting {α : Type} (s t : List α) :
    ∃ shared d q, s = shared ++ d ∧ t = shared ++ q ∧ (d = [] ∨ d.head? ≠ q.head?) := by
  induction s generalizing t with
  | nil => exact ⟨[], [], t, rfl, rfl, Or.inl rfl⟩
  | cons x s ih =>
    by_cases hx : t.head? = some x
    · obtain ⟨t', rfl⟩ := List.head?_eq_some_iff.mp hx
      obtain ⟨shared, d, q, rfl, rfl, hpart⟩ := ih t'
      exact ⟨x :: shared, d, q, rfl, rfl, hpart⟩
    · exact ⟨[], x :: s, t, rfl, rfl, Or.inr (Ne.symm hx)⟩

/-- **The other spellings**: a directory that holds the path respells it if its own text is no start
of it, and only then. -/
theorem respells_iff {dir p : Str} : Respells dir p ↔ Within dir p ∧ ¬ dir <+: p := by
  refine and_congr_right fun hin => ⟨?_, fun hnot => ?_⟩
  · rintro ⟨shared, d, q, rfl, rfl, hd, hpart⟩ hprefix
    obtain ⟨c, d, rfl⟩ := List.exists_cons_of_ne_nil hd
    obtain ⟨rest, rfl⟩ := (List.prefix_append_right_inj shared).mp hprefix
    simp at hpart
  · obtain ⟨shared, d, q, rfl, rfl, hpart⟩ := exists_parting dir p
    cases d with
    | nil => exact absurd (by simp) hnot
    | cons c d =>
      have hne : some c ≠ q.head? := hpart.resolve_left (List.cons_ne_nil c d)
      refine ⟨shared, c :: d, q, rfl, rfl, List.cons_ne_nil c d, fun hc hq => ?_, fun hq => ?_⟩
      · exact hne (hc.trans hq.symm)
      · by_contra hc
        have hc' : c ≠ slash := fun h => hc (congrArg some h)
        exact hne (head_eq_of_same_components hc' hq hin.2).symm

/-! ## Names -/

theorem ne_nil_of_mem_components {f c : Str} (h : c ∈ components f) : c ≠ [] := by
  simpa using (List.mem_filter.mp h).2

/-- No separator is left in a component. -/
theorem slash_not_mem_of_mem_components {p c : Str} (h : c ∈ components p) : slash ∉ c := by
  induction hn : p.length using Nat.strong_induction_on generalizing p with
  | _ n ih =>
    obtain ⟨dir, name, rfl, hdir, hname⟩ := exists_last_name p
    rw [components_append hdir] at h
    rcases List.mem_append.mp h with h | h
    · rcases hdir with rfl | hdir
      · cases h
      · obtain ⟨above, rfl⟩ := List.getLast?_eq_some_iff.mp hdir
        rw [components_append_slash, components_nil, List.append_nil] at h
        exact ih above.length (by simp at hn; omega) h rfl
    · by_cases hne : name = []
      · subst hne
        cases h
      · rw [components_name hne hname] at h
        obtain rfl := List.mem_singleton.mp h
        exact hname

/-- The components of the text of a place. -/
theorem components_flatMap {cs : List Str} (h : ∀ c ∈ cs, c ≠ [] ∧ slash ∉ c) :
    components (cs.flatMap (slash :: ·)) = cs := by
  induction cs with
  | nil => rfl
  | cons c cs ih =>
    obtain ⟨⟨hne, hslash⟩, hcs⟩ := List.forall_mem_cons.mp h
    have hone := components_name hne hslash
    rw [List.flatMap_cons, List.cons_append, components_cons_slash]
    cases cs with
    | nil => rw [List.flatMap_nil, List.append_nil, hone]
    | cons d ds =>
      rw [List.flatMap_cons, List.cons_append, components_append_slash, hone,
        List.singleton_append, ← components_cons_slash, ← List.cons_append, ← List.flatMap_cons,
        ih hcs]

/-! ## Where components lead -/

/-- One component, met in the directory `dir`: `.` stays there, and `..` leads up. -/
def descend (dir : List Str) (c : Str) : List Str :=
  if c = str "." then dir else if c = str ".." then dir.dropLast else dir ++ [c]

/-- Where the components `cs` lead from the directory `dir`. -/
def walk (dir cs : List Str) : List Str := cs.foldl descend dir

/-- `path(p).lexically_normal()` of an absolute path, by its components. -/
def normalized (p : Str) : List Str := walk [] (components p)

/-- The two paths are the same file, as far as their texts tell. -/
def SameFile (p q : Str) : Prop := normalized p = normalized q

instance (p q : Str) : Decidable (SameFile p q) := inferInstanceAs (Decidable (_ = _))

theorem walk_append (dir cs cs' : List Str) : walk dir (cs ++ cs') = walk (walk dir cs) cs' :=
  List.foldl_append ..

theorem normalized_join {dir p : Str} (hp : isAbsolute p = false) :
    normalized (join dir p) = walk (normalized dir) (components p) := by
  rw [normalized, components_join hp, walk_append, normalized]

/-- The normal form of a relative path: how many levels up, and the names from there. -/
structure RelativeNormal where
  up : ℕ
  names : List Str
deriving DecidableEq, Repr

/-- One component more. -/
def RelativeNormal.descend (r : RelativeNormal) (c : Str) : RelativeNormal :=
  if c = str "." then r
  else if c = str ".." then
    if r.names = [] then { r with up := r.up + 1 } else { r with names := r.names.dropLast }
  else { r with names := r.names ++ [c] }

/-- `lexically_normal()` of a relative path, by its components. -/
def lexicallyNormal (cs : List Str) : RelativeNormal := cs.foldl RelativeNormal.descend ⟨0, []⟩

/-- The directory that lies `r.up` levels above `dir`, and then `r.names` below. -/
def RelativeNormal.leads (r : RelativeNormal) (dir : List Str) : List Str :=
  dir.take (dir.length - r.up) ++ r.names

theorem RelativeNormal.leads_descend (r : RelativeNormal) (dir : List Str) (c : Str) :
    (r.descend c).leads dir = DistBuild.descend (r.leads dir) c := by
  unfold RelativeNormal.descend DistBuild.descend RelativeNormal.leads
  split_ifs with hdot hup hnames
  · rfl
  · rw [hnames, List.append_nil, List.append_nil, List.dropLast_eq_take, List.length_take,
      List.take_take]
    have hup : dir.length - (r.up + 1)
        = min (min (dir.length - r.up) dir.length - 1) (dir.length - r.up) := by omega
    exact congrArg dir.take hup
  · rw [List.dropLast_append_of_ne_nil hnames]
  · rw [List.append_assoc]

/-- **Where components lead, by their normal form.** -/
theorem walk_eq (dir cs : List Str) : walk dir cs = (lexicallyNormal cs).leads dir := by
  have hgen : ∀ r : RelativeNormal,
      walk (r.leads dir) cs = (cs.foldl RelativeNormal.descend r).leads dir := by
    induction cs with
    | nil => exact fun _ => rfl
    | cons c cs ih =>
      intro r
      rw [walk, List.foldl_cons, ← r.leads_descend]
      exact ih _
  have h := hgen ⟨0, []⟩
  rwa [RelativeNormal.leads, List.append_nil, Nat.sub_zero, List.take_length] at h

/-- From the root, only the names count. -/
theorem walk_root (cs : List Str) : walk [] cs = (lexicallyNormal cs).names := by
  rw [walk_eq, RelativeNormal.leads, List.take_nil, List.nil_append]

/-- **When components stay below their start**: they lead no level up, or back by the same names. -/
theorem prefix_walk_iff (dir cs : List Str) :
    dir <+: walk dir cs
      ↔ dir.drop (dir.length - (lexicallyNormal cs).up) <+: (lexicallyNormal cs).names := by
  rw [walk_eq, RelativeNormal.leads]
  conv_lhs => lhs; rw [← List.take_append_drop (dir.length - (lexicallyNormal cs).up) dir]
  exact List.prefix_append_right_inj _

/-- **When two starts lead to one place**: they agree above the levels the components lead up. -/
theorem walk_eq_walk_iff (dir dir' cs : List Str) :
    walk dir cs = walk dir' cs
      ↔ dir.take (dir.length - (lexicallyNormal cs).up)
        = dir'.take (dir'.length - (lexicallyNormal cs).up) := by
  rw [walk_eq, walk_eq, RelativeNormal.leads, RelativeNormal.leads]
  exact List.append_left_inj _

/-- **When the start does not matter**: the components lead above the root. -/
theorem walk_eq_walk_root_iff (dir cs : List Str) :
    walk dir cs = walk [] cs ↔ dir.length ≤ (lexicallyNormal cs).up := by
  rw [walk_root, walk_eq, RelativeNormal.leads, List.append_left_eq_self, List.take_eq_nil_iff,
    Nat.sub_eq_zero_iff_le]
  refine ⟨fun h => h.elim id fun h => ?_, Or.inl⟩
  rw [h]
  exact Nat.zero_le _

/-! ## Proper names -/

/-- A proper name, as a place is made of. -/
theorem proper_of_mem_walk {dir cs : List Str} {c : Str} (h : c ∈ walk dir cs) :
    c ∈ dir ∨ c ∈ cs ∧ c ≠ str "." ∧ c ≠ str ".." := by
  induction cs generalizing dir with
  | nil => exact .inl h
  | cons d cs ih =>
    rcases @ih (descend dir d) h with hdir | ⟨hmem, hproper⟩
    · unfold descend at hdir
      split_ifs at hdir with hdot hup
      · exact .inl hdir
      · exact .inl (List.mem_of_mem_dropLast hdir)
      · rcases List.mem_append.mp hdir with hdir | hdir
        · exact .inl hdir
        · obtain rfl := List.mem_singleton.mp hdir
          exact .inr ⟨List.mem_cons_self, hdot, hup⟩
    · exact .inr ⟨List.mem_cons_of_mem d hmem, hproper⟩

/-- Proper names are walked as they stand. -/
theorem walk_of_proper {dir cs : List Str} (h : ∀ c ∈ cs, c ≠ str "." ∧ c ≠ str "..") :
    walk dir cs = dir ++ cs := by
  induction cs generalizing dir with
  | nil => exact (List.append_nil dir).symm
  | cons c cs ih =>
    obtain ⟨⟨hdot, hup⟩, hcs⟩ := List.forall_mem_cons.mp h
    have hstep : descend dir c = dir ++ [c] := by rw [descend, if_neg hdot, if_neg hup]
    rw [walk, List.foldl_cons, hstep, ← walk, ih hcs, List.append_assoc, List.singleton_append]

end DistBuild
