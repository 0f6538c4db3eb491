import DistBuild.Machinery.Run

/-!
# Machinery/Pipes — a child that writes into pipes, a parent that waits and reads

    child ─write─▸ │ pipe of channel c, at most `cap` items │ ─read─▸ parent
      exits when all is written            waits for the exit, drains a channel to its end

The parent's program is a list of operations.  One that waits first and then drains every channel
gets all of the output exactly if each channel's output fits its pipe (`waitFirst_completes_iff`):
nothing is read before the exit, so a longer output fills the pipe and neither side moves again.
-/

namespace DistBuild

namespace Pipes

variable {Channel Item : Type*}

inductive Op (Channel : Type*)
  | wait
  | drain (c : Channel)

structure State (Channel Item : Type*) where
  /-- What the child has still to write. -/
  unwritten : Channel → List Item
  pipe : Channel → List Item
  exited : Bool
  program : List (Op Channel)
  collected : Channel → List Item

inductive Action (Channel : Type*)
  | write (c : Channel)
  | exit
  | parent

/-- The child is about to run, the parent about to wait or read. -/
def start (program : List (Op Channel)) (output : Channel → List Item) : State Channel Item where
  unwritten := output
  pipe _ := []
  exited := false
  program := program
  collected _ := []

section

variable [DecidableEq Channel]

/-- One write, into a pipe with room. -/
def write (cap : ℕ) (c : Channel) (s : State Channel Item) : Option (State Channel Item) :=
  match s.unwritten c with
  | [] => none
  | x :: xs =>
    if (s.pipe c).length < cap then
      some { s with
        unwritten := Function.update s.unwritten c xs
        pipe := Function.update s.pipe c (s.pipe c ++ [x]) }
    else none

/-- The parent's next operation: a wait ends with the child, a drain with an empty pipe after it. -/
def parentStep (s : State Channel Item) : Option (State Channel Item) :=
  match s.program with
  | [] => none
  | .wait :: ops => if s.exited then some { s with program := ops } else none
  | .drain c :: ops =>
    match s.pipe c with
    | [] => if s.exited then some { s with program := ops } else none
    | x :: xs =>
      some { s with
        pipe := Function.update s.pipe c xs
        collected := Function.update s.collected c (s.collected c ++ [x]) }

variable {cap : ℕ} {s t : State Channel Item} {c : Channel}

theorem write_eq_some :
    write cap c s = some t ↔ ∃ x xs, s.unwritten c = x :: xs ∧ (s.pipe c).length < cap
      ∧ t = { s with
        unwritten := Function.update s.unwritten c xs
        pipe := Function.update s.pipe c (s.pipe c ++ [x]) } := by
  unfold write
  cases s.unwritten c with
  | nil => simp
  | cons x xs =>
    constructor
    · intro h
      split_ifs at h with hroom
      exact ⟨x, xs, rfl, hroom, (Option.some.inj h).symm⟩
    · rintro ⟨y, ys, hxs, hroom, rfl⟩
      obtain ⟨rfl, rfl⟩ := List.cons.inj hxs
      exact if_pos hroom

/-- **What the parent can do**: end an operation after the child, or read. -/
theorem parentStep_cases (h : parentStep s = some t) :
    (∃ op ops, s.program = op :: ops ∧ s.exited = true ∧ (∀ c, op = .drain c → s.pipe c = [])
        ∧ t = { s with program := ops })
      ∨ ∃ c ops x xs, s.program = .drain c :: ops ∧ s.pipe c = x :: xs
        ∧ t = { s with
          pipe := Function.update s.pipe c xs
          collected := Function.update s.collected c (s.collected c ++ [x]) } := by
  unfold parentStep at h
  rcases hp : s.program with _ | ⟨op, ops⟩
  · rw [hp] at h
    cases h
  · rw [hp] at h
    cases op with
    | wait =>
      dsimp only at h
      split_ifs at h with hexit
      exact Or.inl ⟨_, ops, rfl, hexit, fun c hc => (by cases hc), (Option.some.inj h).symm⟩
    | drain c =>
      dsimp only at h
      rcases hpipe : s.pipe c with _ | ⟨x, xs⟩
      · rw [hpipe] at h
        dsimp only at h
        split_ifs at h with hexit
        refine Or.inl ⟨_, ops, rfl, hexit, fun c' hc => ?_, (Option.some.inj h).symm⟩
        cases hc
        exact hpipe
      · rw [hpipe] at h
        exact Or.inr ⟨c, ops, x, xs, rfl, hpipe, (Option.some.inj h).symm⟩

variable [Fintype Channel]

def step (cap : ℕ) : Action Channel → State Channel Item → Option (State Channel Item)
  | .write c, s => write cap c s
  | .exit, s =>
    if s.exited = false ∧ ∀ c, (s.unwritten c).length = 0 then some { s with exited := true }
    else none
  | .parent, s => parentStep s

/-- The child stands before a full pipe. -/
def ChildBlocked (cap : ℕ) (s : State Channel Item) : Prop :=
  ∃ c, s.unwritten c ≠ [] ∧ cap ≤ (s.pipe c).length

/-- The parent stands before the child's exit. -/
def ParentWaits (s : State Channel Item) : Prop := s.program.head? = some .wait ∧ s.exited = false

/-- No run blocks child and parent on each other; every run ends, with all of the output. -/
structure Completes (cap : ℕ) (program : List (Op Channel)) (output : Channel → List Item) :
    Prop where
  not_blocked : ∀ acts s, runFrom (step cap) acts (start program output) = some s →
    ¬ (ChildBlocked cap s ∧ ParentWaits s)
  collects : ∀ acts s, runFrom (step cap) acts (start program output) = some s →
    (∀ a, step cap a s = none) → s.program = [] ∧ s.collected = output
  bounded : ∃ n, ∀ acts s, runFrom (step cap) acts (start program output) = some s →
    acts.length ≤ n

theorem exit_eq_some :
    step cap .exit s = some t ↔ (s.exited = false ∧ ∀ c, (s.unwritten c).length = 0)
      ∧ t = { s with exited := true } := by
  rw [step]
  split_ifs with h
  · exact ⟨fun ht => ⟨h, (Option.some.inj ht).symm⟩, fun ht => by rw [ht.2]⟩
  · exact ⟨fun ht => (by cases ht), fun ht => absurd ht.1 h⟩

/-! ## Every run ends -/

/-- What is left to do: an item is written and then read. -/
def measure (s : State Channel Item) : ℕ :=
  (∑ c, (2 * (s.unwritten c).length + (s.pipe c).length)) + s.program.length
    + if s.exited then 0 else 1

theorem sum_update_lt {f g : Channel → ℕ} (c : Channel) (hc : f c < g c)
    (h : ∀ d, d ≠ c → f d = g d) : ∑ d, f d < ∑ d, g d := by
  refine Finset.sum_lt_sum (fun d _ => ?_) ⟨c, Finset.mem_univ c, hc⟩
  by_cases hd : d = c
  · rw [hd]
    exact hc.le
  · exact (h d hd).le

theorem measure_step {a : Action Channel} (h : step cap a s = some t) : measure t < measure s := by
  cases a with
  | write c =>
    obtain ⟨x, xs, hxs, -, rfl⟩ := write_eq_some.mp h
    have hsum : ∑ d, (2 * (Function.update s.unwritten c xs d).length
        + (Function.update s.pipe c (s.pipe c ++ [x]) d).length)
          < ∑ d, (2 * (s.unwritten d).length + (s.pipe d).length) := by
      refine sum_update_lt c ?_ fun d hd => ?_
      · simp only [Function.update_self, hxs, List.length_cons, List.length_append,
          List.length_nil]
        omega
      · rw [Function.update_of_ne hd, Function.update_of_ne hd]
    simp only [measure]
    omega
  | exit =>
    obtain ⟨⟨hexit, -⟩, rfl⟩ := exit_eq_some.mp h
    simp [measure, hexit]
  | parent =>
    rcases parentStep_cases h with ⟨op, ops, hp, -, -, rfl⟩ | ⟨c, ops, x, xs, -, hpipe, rfl⟩
    · simp [measure, hp]
    · have hsum : ∑ d, (2 * (s.unwritten d).length + (Function.update s.pipe c xs d).length)
          < ∑ d, (2 * (s.unwritten d).length + (s.pipe d).length) := by
        refine sum_update_lt c ?_ fun d hd => ?_
        · simp only [Function.update_self, hpipe, List.length_cons]
          omega
        · rw [Function.update_of_ne hd]
      simp only [measure]
      omega

theorem run_length_le {acts : List (Action Channel)} (h : runFrom (step cap) acts s = some t) :
    acts.length + measure t ≤ measure s := by
  induction acts generalizing s with
  | nil =>
    cases h
    exact (Nat.zero_add _).le
  | cons a acts ih =>
    obtain ⟨u, hu, hrun⟩ := runFrom_cons.mp h
    have := measure_step hu
    have := ih hrun
    rw [List.length_cons]
    omega

/-! ## Waiting first -/

/-- While an output fits its pipe, the child is not stopped before the parent reads; once it has
exited, the pipes hold the rest. -/
structure Waiting (readers : List Channel) (output : Channel → List Item)
    (s : State Channel Item) : Prop where
  content : ∀ c, s.collected c ++ s.pipe c ++ s.unwritten c = output c
  written : s.exited = true → ∀ c, s.unwritten c = []
  phase : (s.program = .wait :: readers.map .drain ∧ ∀ c, s.collected c = [])
    ∨ (s.exited = true ∧ ∃ rest : List Channel, s.program = rest.map .drain
        ∧ ∀ c, c ∉ rest → s.pipe c = [])

variable {readers : List Channel} {output : Channel → List Item}

omit [DecidableEq Channel] [Fintype Channel] in
theorem Waiting.start : Waiting readers output (start (.wait :: readers.map .drain) output) where
  content _ := rfl
  written h := by cases h
  phase := Or.inl ⟨rfl, fun _ => rfl⟩

omit [Fintype Channel] in
/-- Moving the first item from one place to the next loses nothing. -/
theorem content_update {f g : Channel → List Item} {x : Item} {xs : List Item}
    (hc : f c = x :: xs) (d : Channel) :
    Function.update g c (g c ++ [x]) d ++ Function.update f c xs d = g d ++ f d := by
  by_cases hd : d = c
  · rw [hd, Function.update_self, Function.update_self, hc, List.append_assoc]
    rfl
  · rw [Function.update_of_ne hd, Function.update_of_ne hd]

theorem Waiting.step (hall : ∀ c, c ∈ readers) (hs : Waiting readers output s)
    {a : Action Channel} (h : step cap a s = some t) : Waiting readers output t := by
  obtain ⟨hcontent, hwritten, hphase⟩ := hs
  cases a with
  | write c =>
    obtain ⟨x, xs, hxs, -, rfl⟩ := write_eq_some.mp h
    have hrunning : s.exited = false := by
      cases hexit : s.exited with
      | false => rfl
      | true => exact absurd (hxs.symm.trans (hwritten hexit c)) (List.cons_ne_nil x xs)
    refine ⟨fun d => ?_, fun hexit => absurd (hexit.symm.trans hrunning) Bool.true_eq_false.mp, ?_⟩
    · rw [← hcontent d, List.append_assoc, List.append_assoc]
      exact congrArg (s.collected d ++ ·) (content_update hxs d)
    · exact hphase.imp_right fun hdrain => absurd (hdrain.1.symm.trans hrunning)
        Bool.true_eq_false.mp
  | exit =>
    obtain ⟨⟨hrunning, hnone⟩, rfl⟩ := exit_eq_some.mp h
    refine ⟨hcontent, fun _ c => List.length_eq_zero_iff.mp (hnone c), ?_⟩
    exact hphase.imp_right fun hdrain => ⟨rfl, hdrain.2⟩
  | parent =>
    rcases parentStep_cases h with ⟨op, ops, hp, hexit, hempty, rfl⟩ |
      ⟨c, ops, x, xs, hp, hpipe, rfl⟩
    · refine ⟨hcontent, hwritten, Or.inr ⟨hexit, ?_⟩⟩
      rcases hphase with ⟨hwait, -⟩ | ⟨-, rest, hdrain, hpipes⟩
      · obtain ⟨-, rfl⟩ := List.cons.inj (hp.symm.trans hwait)
        exact ⟨readers, rfl, fun c hc => absurd (hall c) hc⟩
      · cases rest with
        | nil => cases hp.symm.trans hdrain
        | cons c rest =>
          obtain ⟨rfl, rfl⟩ := List.cons.inj (hp.symm.trans hdrain)
          refine ⟨rest, rfl, fun d hd => ?_⟩
          by_cases hdc : d = c
          · exact hempty d (by rw [hdc])
          · exact hpipes d fun hmem => (List.mem_cons.mp hmem).elim hdc hd
    · refine ⟨fun d => ?_, hwritten, ?_⟩
      · rw [← hcontent d, content_update hpipe d]
      · rcases hphase with ⟨hwait, -⟩ | ⟨hexit, rest, hdrain, hpipes⟩
        · cases hp.symm.trans hwait
        · refine Or.inr ⟨hexit, rest, hdrain, fun d hd => ?_⟩
          have hdc : d ≠ c := by
            rintro rfl
            have := (hpipes d hd).symm.trans hpipe
            cases this
          exact (Function.update_of_ne hdc _ _).trans (hpipes d hd)

omit [DecidableEq Channel] [Fintype Channel] in
/-- Of an output that fits, what is not written has room in the pipe before the parent reads. -/
theorem Waiting.room (hs : Waiting readers output s) (hfit : ∀ c, (output c).length ≤ cap)
    (hrunning : s.exited = false) (hc : s.unwritten c ≠ []) : (s.pipe c).length < cap := by
  rcases hs.phase with ⟨-, hnone⟩ | ⟨hexit, -⟩
  · have hlen := congrArg List.length (hs.content c)
    have := List.length_pos_of_ne_nil hc
    rw [hnone c, List.nil_append, List.length_append] at hlen
    have := hfit c
    omega
  · exact absurd (hexit.symm.trans hrunning) Bool.true_eq_false.mp

/-- Where nothing moves, the parent has all of the output. -/
theorem Waiting.collects (hs : Waiting readers output s) (hfit : ∀ c, (output c).length ≤ cap)
    (hstuck : ∀ a, Pipes.step cap a s = none) : s.program = [] ∧ s.collected = output := by
  have hexit : s.exited = true := by
    by_contra hrunning
    rw [Bool.not_eq_true] at hrunning
    by_cases hwritten : ∀ c, (s.unwritten c).length = 0
    · have hexit : Pipes.step cap .exit s = some _ :=
        exit_eq_some.mpr ⟨⟨hrunning, hwritten⟩, rfl⟩
      exact absurd (hexit.symm.trans (hstuck .exit)) (Option.some_ne_none _)
    · obtain ⟨c, hc⟩ := not_forall.mp hwritten
      have hne : s.unwritten c ≠ [] := fun hnil => hc (congrArg List.length hnil)
      obtain ⟨x, xs, hxs⟩ := List.exists_cons_of_ne_nil hne
      have hwrite : Pipes.step cap (.write c) s = some _ :=
        write_eq_some.mpr ⟨x, xs, hxs, hs.room hfit hrunning hne, rfl⟩
      exact absurd (hwrite.symm.trans (hstuck (.write c))) (Option.some_ne_none _)
  have hparent : parentStep s = none := hstuck .parent
  rcases hs.phase with ⟨hwait, -⟩ | ⟨-, rest, hdrain, hpipes⟩
  · rw [parentStep, hwait] at hparent
    dsimp only at hparent
    rw [if_pos hexit] at hparent
    cases hparent
  · cases rest with
    | nil =>
      refine ⟨hdrain, funext fun c => ?_⟩
      rw [← hs.content c, hs.written hexit c, hpipes c List.not_mem_nil, List.append_nil,
        List.append_nil]
    | cons c rest =>
      rw [parentStep, hdrain, List.map_cons] at hparent
      dsimp only at hparent
      split at hparent
      · rw [if_pos hexit] at hparent
        cases hparent
      · cases hparent

/-- The child can fill a pipe before anything else happens. -/
theorem fill (program : List (Op Channel)) (output : Channel → List Item) (c : Channel) {k : ℕ}
    (hcap : k ≤ cap) (hk : k ≤ (output c).length) :
    ∃ s, runFrom (Pipes.step cap) (List.replicate k (.write c))
      (Pipes.start program output) = some s
      ∧ s.unwritten c = (output c).drop k ∧ (s.pipe c).length = k ∧ s.program = program
      ∧ s.exited = false := by
  induction k with
  | zero => exact ⟨_, rfl, rfl, rfl, rfl, rfl⟩
  | succ k ih =>
    obtain ⟨s, hrun, hleft, hpipe, hp, hexit⟩ := ih (by omega) (by omega)
    rw [List.drop_eq_getElem_cons (show k < (output c).length by omega)] at hleft
    obtain ⟨t, hwrite, hleft', hpipe', hp', hexit'⟩ : ∃ t, write cap c s = some t
        ∧ t.unwritten c = (output c).drop (k + 1) ∧ (t.pipe c).length = k + 1
        ∧ t.program = s.program ∧ t.exited = s.exited := by
      refine ⟨_, write_eq_some.mpr ⟨_, _, hleft, by rw [hpipe]; exact hcap, rfl⟩,
        Function.update_self .., ?_, rfl, rfl⟩
      dsimp only
      rw [Function.update_self, List.length_append, hpipe]
      rfl
    refine ⟨t, ?_, hleft', hpipe', hp'.trans hp, hexit'.trans hexit⟩
    rw [List.replicate_succ', runFrom_append]
    exact ⟨s, hrun, runFrom_cons.mpr ⟨t, hwrite, rfl⟩⟩

/-- **A parent that waits first gets all of the output exactly if it fits the pipes.** -/
theorem waitFirst_completes_iff (cap : ℕ) (readers : List Channel) (hall : ∀ c, c ∈ readers)
    (output : Channel → List Item) :
    Completes cap (.wait :: readers.map .drain) output ↔ ∀ c, (output c).length ≤ cap := by
  constructor
  · intro h c
    by_contra hlong
    obtain ⟨s, hrun, hleft, hpipe, hp, hexit⟩ :=
      fill (.wait :: readers.map .drain) output c le_rfl (Nat.le_of_not_le hlong)
    refine h.not_blocked _ s hrun ⟨⟨c, ?_, hpipe.ge⟩, by rw [hp]; rfl, hexit⟩
    rw [hleft]
    exact fun hnil => hlong (List.drop_eq_nil_iff.mp hnil)
  · intro hfit
    have hinv : ∀ acts s, runFrom (Pipes.step cap) acts
        (Pipes.start (.wait :: readers.map .drain) output) = some s → Waiting readers output s :=
      fun acts s hrun => runFrom_invariant (fun a u v h hu => hu.step hall h) hrun Waiting.start
    refine ⟨?_, fun acts s hrun hstuck => (hinv acts s hrun).collects hfit hstuck,
      _, fun acts s hrun => Nat.le_of_add_right_le (run_length_le hrun)⟩
    rintro acts s hrun ⟨⟨c, hne, hfull⟩, -, hrunning⟩
    exact Nat.not_le_of_lt ((hinv acts s hrun).room hfit hrunning hne) hfull

end

end Pipes

end DistBuild
