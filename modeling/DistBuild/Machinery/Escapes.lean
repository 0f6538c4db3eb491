import Mathlib

/-!
# Machinery/Escapes — what a reader of escaped text can make of it

    escape   a s b m  ─▸  a m s b m       a mark before every special letter, none before marks
    Takes    m s      ─▸  s  or nothing   a mark takes the next letter with it

A reader passes letters and marked letters up to a bare stop, and may lose some of them.  However it
does, it cannot read more out of an escaped word than was put in: it stops at a stop of the word, or
passes the one behind the word, or ends behind the word with at most as many letters
(`Takes.ends`).  So a word that is read back has its marks where the reader needs them
(`Takes.marked`).
-/

namespace DistBuild

variable {α : Type*}

/-- A mark before every special letter. -/
def escape (mark : α) (special : α → Bool) (word : List α) : List α :=
  word.flatMap fun c => if special c then [mark, c] else [c]

/-- `word` can be read off the text `s` with `t` left over: bare letters that are no stops, and
letters with a mark before them, both kept or lost, but for marked stops, which are kept. -/
inductive Takes (mark : α) (stop : α → Bool) : List α → List α → List α → Prop
  | done (t) : Takes mark stop t [] t
  | char {c s word t} (hc : c ≠ mark) (hstop : stop c = false) (h : Takes mark stop s word t) :
      Takes mark stop (c :: s) (c :: word) t
  | lost {c s word t} (hc : c ≠ mark) (hstop : stop c = false) (h : Takes mark stop s word t) :
      Takes mark stop (c :: s) word t
  | pair {c s word t} (h : Takes mark stop s word t) :
    Takes mark stop (mark :: c :: s) (c :: word) t
  | lostPair {c s word t} (hstop : stop c = false) (h : Takes mark stop s word t) :
      Takes mark stop (mark :: c :: s) word t
  | dangling : Takes mark stop [mark] [] []

/-- Every mark comes before a letter with `p`. -/
def MarksBefore (mark : α) (p : α → Prop) : List α → Prop
  | [] => True
  | c :: cs => (c = mark → ∃ d ∈ cs.head?, p d) ∧ MarksBefore mark p cs

instance MarksBefore.decidable [DecidableEq α] (mark : α) (p : α → Prop) [DecidablePred p] :
    ∀ word, Decidable (MarksBefore mark p word)
  | [] => inferInstanceAs (Decidable True)
  | c :: cs =>
    have := MarksBefore.decidable mark p cs
    have : Decidable (∃ d ∈ cs.head?, p d) :=
      match cs with
      | [] => isFalse (by simp)
      | d :: _ => decidable_of_iff (p d) (by simp)
    inferInstanceAs (Decidable ((c = mark → _) ∧ _))

theorem MarksBefore.imp {mark : α} {p q : α → Prop} {word : List α}
    (himp : ∀ d ∈ word, p d → q d) (h : MarksBefore mark p word) : MarksBefore mark q word := by
  induction word with
  | nil => trivial
  | cons c cs ih =>
    refine ⟨fun hc => ?_, ih (fun d hd => himp d (List.mem_cons_of_mem _ hd)) h.2⟩
    obtain ⟨d, hd, hp⟩ := h.1 hc
    exact ⟨d, hd, himp d (List.mem_cons_of_mem _ (List.mem_of_mem_head? hd)) hp⟩

/-- **Induction over a word, a marked letter at a time.** -/
theorem MarksBefore.induction {mark : α} {p : α → Prop} {P : List α → Prop}
    (nil : P []) (plain : ∀ c cs, c ≠ mark → P cs → P (c :: cs))
    (marked : ∀ d cs, p d → P cs → P (mark :: d :: cs)) {word : List α}
    (h : MarksBefore mark p word) :
    P word := by
  induction hn : word.length using Nat.strong_induction_on generalizing word with
  | _ n ih =>
    match word, h with
    | [], _ => exact nil
    | c :: cs, h =>
      by_cases hc : c = mark
      · subst hc
        obtain ⟨d, hd, hp⟩ := h.1 rfl
        match cs, hd, h with
        | e :: es, hd, h =>
          obtain rfl := Option.some.inj hd
          exact marked e es hp
            (ih _ (by rw [← hn, List.length_cons, List.length_cons]; omega) h.2.2 rfl)
      · exact plain c cs hc (ih _ (hn ▸ Nat.lt_succ_self _) h.2 rfl)

section

variable {mark : α} {special stop : α → Bool}

@[simp] theorem escape_nil : escape mark special [] = [] := rfl

theorem escape_special {c : α} (h : special c = true) (cs : List α) :
    escape mark special (c :: cs) = mark :: c :: escape mark special cs := by
  simp [escape, h]

theorem escape_plain {c : α} (h : special c = false) (cs : List α) :
    escape mark special (c :: cs) = c :: escape mark special cs := by
  simp [escape, h]

/-- **Induction over a word that is escaped**: a letter at a time, and a mark with the letter behind
it, if there is one. -/
@[elab_as_elim]
theorem escape_induction (mark : α) (special : α → Bool) {P : List α → Prop} (nil : P [])
    (escaped : ∀ c cs, special c = true → P cs → P (c :: cs))
    (plain : ∀ c cs, c ≠ mark → special c = false → P cs → P (c :: cs)) (single : P [mark])
    (markEscaped : ∀ e es, special e = true → P es → P (mark :: e :: es))
    (markPlain : ∀ e es, special e = false → P es → P (mark :: e :: es)) (es : List α) : P es := by
  induction hn : es.length using Nat.strong_induction_on generalizing es with
  | _ n ih =>
    subst hn
    cases es with
    | nil => exact nil
    | cons c cs =>
      have ihcs : P cs := ih _ (Nat.lt_succ_self _) cs rfl
      cases hc : special c with
      | true => exact escaped c cs hc ihcs
      | false =>
        by_cases hm : c = mark
        · subst hm
          cases cs with
          | nil => exact single
          | cons e es =>
            have ihes : P es := ih _ (Nat.lt_succ_of_lt (Nat.lt_succ_self _)) es rfl
            cases he : special e with
            | true => exact markEscaped e es he ihes
            | false => exact markPlain e es he ihes
        · exact plain c cs hm hc ihcs

/-- Only marks are added. -/
theorem count_escape [DecidableEq α] {a : α} (h : a ≠ mark) (word : List α) :
    (escape mark special word).count a = word.count a := by
  induction word with
  | nil => rfl
  | cons c cs ih =>
    cases hc : special c with
    | true =>
      rw [escape_special hc, List.count_cons_of_ne h.symm, List.count_cons, List.count_cons, ih]
    | false => rw [escape_plain hc, List.count_cons, List.count_cons, ih]

/-- No special letter comes first. -/
theorem head_escape (hmark : special mark = false) {word : List α} {c : α}
    (h : c ∈ (escape mark special word).head?) : special c = false := by
  cases word with
  | nil => cases h
  | cons d ds =>
    cases hd : special d with
    | true =>
      rw [escape_special hd] at h
      obtain rfl := Option.some.inj h
      exact hmark
    | false =>
      rw [escape_plain hd] at h
      obtain rfl := Option.some.inj h
      exact hd

/-- **Escaping loses nothing.** -/
theorem escape_injective (hmark : special mark = false) :
    Function.Injective (escape mark special) := by
  intro word
  induction word with
  | nil =>
    intro word' h
    cases word' with
    | nil => rfl
    | cons d ds => cases hd : special d <;> simp [escape, hd] at h
  | cons c cs ih =>
    intro word' h
    cases word' with
    | nil => cases hc : special c <;> simp [escape, hc] at h
    | cons d ds =>
      cases hc : special c with
      | true =>
        rw [escape_special hc] at h
        cases hd : special d with
        | true =>
          rw [escape_special hd] at h
          obtain ⟨rfl, hrest⟩ := List.cons.inj (List.cons.inj h).2
          rw [ih hrest]
        | false =>
          rw [escape_plain hd] at h
          have hhead : special c = false := head_escape hmark
            (show c ∈ (escape mark special ds).head? by rw [← (List.cons.inj h).2]; rfl)
          exact absurd (hc.symm.trans hhead) (by decide)
      | false =>
        rw [escape_plain hc] at h
        cases hd : special d with
        | true =>
          rw [escape_special hd] at h
          have hhead : special d = false := head_escape hmark
            (show d ∈ (escape mark special cs).head? by rw [(List.cons.inj h).2]; rfl)
          exact absurd (hd.symm.trans hhead) (by decide)
        | false =>
          rw [escape_plain hd] at h
          obtain ⟨rfl, hrest⟩ := List.cons.inj h
          rw [ih hrest]

/-! ## Where a reader of an escaped word ends -/

/-- The reader stops: nothing is left, or a bare stop comes next. -/
def Stops (stop : α → Bool) (t : List α) : Prop := ∀ d ∈ t.head?, stop d = true

/-- Where the reading `word` of an escaped word `es` ends: at a stop of `es`, behind the one after
it, or before that one, and then no longer than `es`. -/
def Ends (stop : α → Bool) (es word rest t : List α) : Prop :=
  word.countP stop < es.countP stop ∨ es.countP stop < word.countP stop
    ∨ word.length ≤ es.length ∧ t = rest

section Ends

variable {es word rest t : List α} {c : α}

theorem Ends.cons (h : Ends stop es word rest t) (c : α) :
    Ends stop (c :: es) (c :: word) rest t := by
  simp only [Ends, List.countP_cons, List.length_cons, Nat.add_lt_add_iff_right,
    Nat.add_le_add_iff_right] at h ⊢
  exact h

/-- A letter that is no stop may be missed. -/
theorem Ends.miss (h : Ends stop es word rest t) (hc : stop c = false) :
    Ends stop (c :: es) word rest t := by
  simp only [Ends, List.countP_cons_of_neg (Bool.eq_false_iff.mp hc), List.length_cons] at h ⊢
  exact h.imp_right (Or.imp_right (And.imp_left Nat.le_succ_of_le))

/-- Nothing more can be read than is there, if no stop is. -/
theorem Ends.false_of_append {pre : List α} (h : Ends stop es (pre ++ es) rest t) (hpre : pre ≠ [])
    (hstop : ∀ c ∈ pre, stop c = false) : False := by
  have hzero : pre.countP stop = 0 := List.countP_eq_zero.mpr fun c hc => by simp [hstop c hc]
  have hpos : 0 < pre.length := List.length_pos_iff.mpr hpre
  simp only [Ends, List.countP_append, List.length_append] at h
  omega

end Ends

section Takes

variable {s es word rest t : List α} {c d : α}

theorem Takes.of_stop (hmark : stop mark = false) (hd : stop d = true)
    (h : Takes mark stop (d :: s) word t) : word = [] ∧ t = d :: s := by
  cases h with
  | done => exact ⟨rfl, rfl⟩
  | char _ hstop _ => exact absurd (hd.symm.trans hstop) (by decide)
  | lost _ hstop _ => exact absurd (hd.symm.trans hstop) (by decide)
  | pair _ => exact absurd (hd.symm.trans hmark) (by decide)
  | lostPair _ _ => exact absurd (hd.symm.trans hmark) (by decide)
  | dangling => exact absurd (hd.symm.trans hmark) (by decide)

/-- A bare letter that is no stop is kept or lost. -/
theorem Takes.of_char (hc : c ≠ mark) (hstop : stop c = false) (ht : Stops stop t)
    (h : Takes mark stop (c :: s) word t) :
    (∃ word', word = c :: word' ∧ Takes mark stop s word' t) ∨ Takes mark stop s word t := by
  cases h with
  | done => exact absurd (hstop.symm.trans (ht c rfl)) (by decide)
  | char _ _ h => exact Or.inl ⟨_, rfl, h⟩
  | lost _ _ h => exact Or.inr h
  | pair _ => exact absurd rfl hc
  | lostPair _ _ => exact absurd rfl hc
  | dangling => exact absurd rfl hc

/-- So is a marked letter, but a stop is kept. -/
theorem Takes.of_pair (hmark : stop mark = false) (ht : Stops stop t)
    (h : Takes mark stop (mark :: c :: s) word t) :
    (∃ word', word = c :: word' ∧ Takes mark stop s word' t)
      ∨ stop c = false ∧ Takes mark stop s word t := by
  cases h with
  | done => exact absurd (hmark.symm.trans (ht mark rfl)) (by decide)
  | char hne _ _ => exact absurd rfl hne
  | lost hne _ _ => exact absurd rfl hne
  | pair h => exact Or.inl ⟨_, rfl, h⟩
  | lostPair hstop h => exact Or.inr ⟨hstop, h⟩

/-- **Where a reading of an escaped word ends.**  A mark takes the letter behind it, so that a
letter behind two marks is bare. -/
theorem Takes.ends (hmark : special mark = false) (hspecial : ∀ c, stop c = true → special c = true)
    (hd : stop d = true) (ht : Stops stop t)
    (h : Takes mark stop (escape mark special es ++ d :: s) word t) :
    Ends stop es word (d :: s) t := by
  have hplain : ∀ {c}, special c = false → stop c = false := fun hc =>
    Bool.eq_false_iff.mpr fun hs => absurd (hc.symm.trans (hspecial _ hs)) (by decide)
  have hstopmark : stop mark = false := hplain hmark
  induction es using escape_induction mark special generalizing word with
  | nil =>
    obtain ⟨rfl, rfl⟩ := h.of_stop hstopmark hd
    exact Or.inr (Or.inr ⟨le_rfl, rfl⟩)
  | escaped c cs hc ih =>
    rw [escape_special hc] at h
    rcases h.of_pair hstopmark ht with ⟨word', rfl, h'⟩ | ⟨hstop, h'⟩
    · exact (ih h').cons c
    · exact (ih h').miss hstop
  | plain c cs hm hc ih =>
    rw [escape_plain hc] at h
    rcases h.of_char hm (hplain hc) ht with ⟨word', rfl, h'⟩ | h'
    · exact (ih h').cons c
    · exact (ih h').miss (hplain hc)
  | single =>
    rw [escape_plain hmark] at h
    rcases h.of_pair hstopmark ht with ⟨word', rfl, h'⟩ | ⟨hstop, -⟩
    · refine Or.inr (Or.inl ?_)
      simp [hstopmark, hd]
    · exact absurd (hd.symm.trans hstop) (by decide)
  | markEscaped e es he ih =>
    rw [escape_plain hmark, escape_special he] at h
    have hbare : ∀ {word}, Takes mark stop (e :: (escape mark special es ++ d :: s)) word t →
        Ends stop (e :: es) word (d :: s) t := by
      intro word h
      cases hstop : stop e with
      | true =>
        obtain ⟨rfl, rfl⟩ := h.of_stop hstopmark hstop
        refine Or.inl ?_
        simp [hstop]
      | false =>
        have hne : e ≠ mark := fun hem => absurd (hmark.symm.trans (hem ▸ he)) (by decide)
        rcases h.of_char hne hstop ht with ⟨word', rfl, h'⟩ | h'
        · exact (ih h').cons e
        · exact (ih h').miss hstop
    rcases h.of_pair hstopmark ht with ⟨word', rfl, h'⟩ | ⟨-, h'⟩
    · exact (hbare h').cons mark
    · exact (hbare h').miss hstopmark
  | markPlain e es he ih =>
    rw [escape_plain hmark, escape_plain he] at h
    rcases h.of_pair hstopmark ht with ⟨word', rfl, h'⟩ | ⟨-, h'⟩
    · exact ((ih h').cons e).miss hstopmark
    · exact ((ih h').miss (hplain he)).miss hstopmark

/-- **A word that is read back has its marks before special letters that are no stops**: before
another letter a mark is lost, and no later letter makes up for it. -/
theorem Takes.marked (hmark : special mark = false)
    (hspecial : ∀ c, stop c = true → special c = true) (hd : stop d = true) (ht : Stops stop t)
    (h : Takes mark stop (escape mark special es ++ d :: s) es t) :
    MarksBefore mark (fun e => special e = true ∧ stop e = false) es := by
  have hplain : ∀ {c}, special c = false → stop c = false := fun hc =>
    Bool.eq_false_iff.mpr fun hs => absurd (hc.symm.trans (hspecial _ hs)) (by decide)
  have hstopmark : stop mark = false := hplain hmark
  have hmissed : ∀ (pre : List α) {es : List α},
      Takes mark stop (escape mark special es ++ d :: s) (pre ++ es) t →
      pre ≠ [] → (∀ c ∈ pre, stop c = false) → False := fun _ {_} h =>
    (h.ends hmark hspecial hd ht).false_of_append
  induction es using escape_induction mark special with
  | nil => trivial
  | escaped c cs hc ih =>
    have hne : c ≠ mark := fun hcm => absurd (hmark.symm.trans (hcm ▸ hc)) (by decide)
    rw [escape_special hc] at h
    rcases h.of_pair hstopmark ht with ⟨word, hword, h'⟩ | ⟨hstop, h'⟩
    · obtain rfl := (List.cons.inj hword).2
      exact ⟨fun hcm => absurd hcm hne, ih h'⟩
    · exact (hmissed [c] h' (by simp) (by simp [hstop])).elim
  | plain c cs hm hc ih =>
    rw [escape_plain hc] at h
    rcases h.of_char hm (hplain hc) ht with ⟨word, hword, h'⟩ | h'
    · obtain rfl := (List.cons.inj hword).2
      exact ⟨fun hcm => absurd hcm hm, ih h'⟩
    · exact (hmissed [c] h' (by simp) (by simp [hplain hc])).elim
  | single =>
    rw [escape_plain hmark] at h
    rcases h.of_pair hstopmark ht with ⟨word, hword, -⟩ | ⟨hstop, -⟩
    · obtain rfl := (List.cons.inj hword).1
      exact absurd (hd.symm.trans hstopmark) (by decide)
    · exact absurd (hd.symm.trans hstop) (by decide)
  | markEscaped e es he ih =>
    have hne : e ≠ mark := fun hem => absurd (hmark.symm.trans (hem ▸ he)) (by decide)
    rw [escape_plain hmark, escape_special he] at h
    have hbare : ∀ {word}, word ≠ [] →
        Takes mark stop (e :: (escape mark special es ++ d :: s)) word t → stop e = false := by
      intro word hword h
      refine Bool.eq_false_iff.mpr fun hstop => ?_
      exact hword (h.of_stop hstopmark hstop).1
    rcases h.of_pair hstopmark ht with ⟨word, hword, h'⟩ | ⟨-, h'⟩
    · obtain rfl := (List.cons.inj hword).2
      have hstop := hbare (List.cons_ne_nil e es) h'
      rcases h'.of_char hne hstop ht with ⟨word, hword, h''⟩ | h''
      · obtain rfl := (List.cons.inj hword).2
        exact ⟨fun _ => ⟨e, rfl, he, hstop⟩, fun hem => absurd hem hne, ih h''⟩
      · exact (hmissed [e] h'' (by simp) (by simp [hstop])).elim
    · have hstop := hbare (List.cons_ne_nil mark (e :: es)) h'
      rcases h'.of_char hne hstop ht with ⟨word, hword, -⟩ | h''
      · exact absurd (List.cons.inj hword).1.symm hne
      · exact (hmissed [mark, e] h'' (by simp) (by simp [hstop, hstopmark])).elim
  | markPlain e es he ih =>
    rw [escape_plain hmark, escape_plain he] at h
    rcases h.of_pair hstopmark ht with ⟨word, hword, h'⟩ | ⟨-, h'⟩
    · obtain ⟨rfl, rfl⟩ := List.cons.inj hword
      exact (hmissed [mark] h' (by simp) (by simp [hstopmark])).elim
    · exact (hmissed [mark, e] h' (by simp) (by simp [hplain he, hstopmark])).elim

end Takes

end

end DistBuild
