import Mathlib

/-!
# Machinery/Locks — threads that take and release locks, and freedom from deadlock

    todo t = acquire l :: ops   is enabled where `owner l = none`, and waits otherwise

A thread is what is left of its program: acquisitions and releases, and signals to whoever runs the
threads.  A **deadlock** is a set of threads each of which waits for a lock that one of the set
owns, itself included.  There is none where every thread waits for a lock that ranks above all it
holds (`Consistent.not_deadlocked`); the ranks may depend on the state.  `Runs` is the rule by which
a program is seen to wait only where an order on locks lets it.
-/

namespace DistBuild

namespace Locks

inductive Op (Lock Event : Type*)
  | acquire (l : Lock)
  | release (l : Lock)
  | signal (e : Event)
deriving DecidableEq

variable {Thread Lock Event : Type*}

/-- A scope with a lock guard. -/
def guarded (l : Lock) (body : List (Op Lock Event)) : List (Op Lock Event) :=
  .acquire l :: (body ++ [.release l])

/-- The threads and the locks; `held` lists the locks of a thread, the last one taken first. -/
structure Threads (Thread Lock Event : Type*) where
  todo : Thread → List (Op Lock Event)
  held : Thread → List Lock
  owner : Lock → Option Thread

namespace Threads

/-- No thread has anything to do. -/
def idle : Threads Thread Lock Event where
  todo := fun _ => []
  held := fun _ => []
  owner := fun _ => none

variable [DecidableEq Thread] [DecidableEq Lock]

/-- The thread `t` is given a program. -/
def assign (s : Threads Thread Lock Event) (t : Thread) (ops : List (Op Lock Event)) :
    Threads Thread Lock Event :=
  { s with todo := Function.update s.todo t ops }

omit [DecidableEq Lock] in
theorem assign_todo_self (s : Threads Thread Lock Event) (t : Thread)
    (ops : List (Op Lock Event)) : (s.assign t ops).todo t = ops := Function.update_self ..

omit [DecidableEq Lock] in
theorem assign_todo_of_ne (s : Threads Thread Lock Event) {t u : Thread}
    (ops : List (Op Lock Event)) (hu : u ≠ t) : (s.assign t ops).todo u = s.todo u :=
  Function.update_of_ne hu ..

omit [DecidableEq Lock] in
@[simp] theorem assign_held (s : Threads Thread Lock Event) (t : Thread)
    (ops : List (Op Lock Event)) : (s.assign t ops).held = s.held := rfl

/-- The next step of the thread `t`, and its signal. -/
def exec (s : Threads Thread Lock Event) (t : Thread) :
    Option (Threads Thread Lock Event × Option Event) :=
  match s.todo t with
  | [] => none
  | .acquire l :: ops =>
    match s.owner l with
    | some _ => none
    | none =>
      some ({
        todo := Function.update s.todo t ops
        held := Function.update s.held t (l :: s.held t)
        owner := Function.update s.owner l (some t) }, none)
  | .release l :: ops =>
    some ({
      todo := Function.update s.todo t ops
      held := Function.update s.held t ((s.held t).erase l)
      owner := Function.update s.owner l none }, none)
  | .signal e :: ops => some (s.assign t ops, some e)

/-- Some threads wait for one another: each for a lock that one of them owns. -/
def Deadlocked (s : Threads Thread Lock Event) : Prop :=
  ∃ D : Set Thread, D.Nonempty ∧ ∀ t ∈ D, ∃ l ops, s.todo t = .acquire l :: ops
    ∧ ∃ u ∈ D, s.owner l = some u

/-- A thread owns what it holds, once. -/
structure Consistent (s : Threads Thread Lock Event) : Prop where
  owner : ∀ l t, s.owner l = some t ↔ l ∈ s.held t
  nodup : ∀ t, (s.held t).Nodup

variable {s s' : Threads Thread Lock Event} {t : Thread} {e : Option Event}

omit [DecidableEq Thread] [DecidableEq Lock] in
theorem consistent_idle : (idle : Threads Thread Lock Event).Consistent where
  owner _ _ := by
    constructor
    · exact fun h => absurd h (Option.some_ne_none _).symm
    · exact fun h => absurd h List.not_mem_nil
  nodup _ := List.nodup_nil

omit [DecidableEq Lock] in
theorem Consistent.assign (hs : s.Consistent) (t : Thread) (ops : List (Op Lock Event)) :
    (s.assign t ops).Consistent :=
  ⟨hs.owner, hs.nodup⟩

/-! ## What a step can do -/

/-- `exec` as a relation. -/
inductive Executes (s : Threads Thread Lock Event) (t : Thread) :
    Threads Thread Lock Event → Option Event → Prop
  | acquire {l ops} (htodo : s.todo t = .acquire l :: ops) (hfree : s.owner l = none) :
    Executes s t {
      todo := Function.update s.todo t ops
      held := Function.update s.held t (l :: s.held t)
      owner := Function.update s.owner l (some t) } none
  | release {l ops} (htodo : s.todo t = .release l :: ops) :
    Executes s t {
      todo := Function.update s.todo t ops
      held := Function.update s.held t ((s.held t).erase l)
      owner := Function.update s.owner l none } none
  | signal {e ops} (htodo : s.todo t = .signal e :: ops) : Executes s t (s.assign t ops) (some e)

theorem exec_cases (h : s.exec t = some (s', e)) : Executes s t s' e := by
  unfold exec at h
  split at h
  · cases h
  · split at h
    · cases h
    · cases h
      exact .acquire ‹_› ‹_›
  · cases h
    exact .release ‹_›
  · cases h
    exact .signal ‹_›

/-- A step of one thread leaves the others where they are. -/
theorem Executes.frame (h : Executes s t s' e) {u : Thread} (hu : u ≠ t) :
    s'.todo u = s.todo u ∧ s'.held u = s.held u := by
  cases h with
  | acquire htodo hfree => exact ⟨Function.update_of_ne hu .., Function.update_of_ne hu ..⟩
  | release htodo => exact ⟨Function.update_of_ne hu .., Function.update_of_ne hu ..⟩
  | signal htodo => exact ⟨Function.update_of_ne hu .., rfl⟩

theorem Executes.todo_ne_nil (h : Executes s t s' e) : s.todo t ≠ [] := by
  cases h with
  | acquire htodo hfree => simp [htodo]
  | release htodo => simp [htodo]
  | signal htodo => simp [htodo]

/-- Whoever releases only what it holds keeps the threads consistent. -/
theorem Consistent.executes (hs : s.Consistent) (h : Executes s t s' e)
    (hrelease : ∀ l ops, s.todo t = .release l :: ops → l ∈ s.held t) : s'.Consistent := by
  cases h with
  | signal htodo => exact hs.assign ..
  | @acquire l ops htodo hfree =>
    have hnot : ∀ u, l ∉ s.held u := fun u hmem => by
      rw [(hs.owner l u).mpr hmem] at hfree
      cases hfree
    refine ⟨fun k u => ?_, fun u => ?_⟩
    · by_cases hk : k = l
      · subst hk
        by_cases hu : u = t
        · subst hu
          simp
        · simp [Function.update_of_ne hu, hnot u, Ne.symm hu]
      · by_cases hu : u = t
        · subst hu
          simp [hk, hs.owner]
        · simp [Function.update_of_ne hk, Function.update_of_ne hu, hs.owner]
    · by_cases hu : u = t
      · subst hu
        simp [hnot u, hs.nodup u]
      · simp [Function.update_of_ne hu, hs.nodup u]
  | @release l ops htodo =>
    have hmine := (hs.owner l t).mpr (hrelease l ops htodo)
    refine ⟨fun k u => ?_, fun u => ?_⟩
    · by_cases hk : k = l
      · subst hk
        by_cases hu : u = t
        · subst hu
          simp [(hs.nodup u).not_mem_erase]
        · have hother : k ∉ s.held u := fun hmem =>
            hu (Option.some.inj (((hs.owner k u).mpr hmem).symm.trans hmine))
          simp [Function.update_of_ne hu, hother]
      · by_cases hu : u = t
        · subst hu
          simp [Function.update_of_ne hk, hs.owner, List.mem_erase_of_ne hk]
        · simp [Function.update_of_ne hk, Function.update_of_ne hu, hs.owner]
    · by_cases hu : u = t
      · subst hu
        simp [(hs.nodup u).erase]
      · simp [Function.update_of_ne hu, hs.nodup u]

omit [DecidableEq Thread] [DecidableEq Lock] in
/-- **The rank rule**: no deadlock where every thread waits for a lock that ranks above all it
holds, as the owner of the lock one waits for waits for a lock of a higher rank. -/
theorem Consistent.not_deadlocked (hs : s.Consistent) (rank : Lock → ℕ) {n : ℕ}
    (hbound : ∀ l, rank l ≤ n)
    (hrank : ∀ t l ops, s.todo t = .acquire l :: ops → ∀ k ∈ s.held t, rank k < rank l) :
    ¬ s.Deadlocked := by
  rintro ⟨D, ⟨t₀, ht₀⟩, hD⟩
  have hclimb : ∀ m, ∃ t ∈ D, ∃ l ops, s.todo t = .acquire l :: ops ∧ m ≤ rank l := by
    intro m
    induction m with
    | zero =>
      obtain ⟨l, ops, htodo, -⟩ := hD t₀ ht₀
      exact ⟨t₀, ht₀, l, ops, htodo, Nat.zero_le _⟩
    | succ m ih =>
      obtain ⟨t, ht, l, ops, htodo, hm⟩ := ih
      obtain ⟨l', ops', htodo', u, hu, howner⟩ := hD t ht
      obtain ⟨rfl, -⟩ : l = l' ∧ ops = ops' := by
        rw [htodo] at htodo'
        cases htodo'
        exact ⟨rfl, rfl⟩
      obtain ⟨k, opsU, htodoU, -⟩ := hD u hu
      exact ⟨u, hu, k, opsU, htodoU,
        hm.trans_lt (hrank u k opsU htodoU l ((hs.owner l u).mp howner))⟩
  obtain ⟨t, -, l, -, -, hle⟩ := hclimb (n + 1)
  exact absurd (hle.trans (hbound l)) (Nat.not_succ_le_self n)

end Threads

/-! ## Programs that respect an order on locks -/

/-- A program without signals that takes locks `held` to locks `held'`, releases what it took last,
and waits for `l` with `k` held only where `R k l`. -/
inductive Runs (R : Lock → Lock → Prop) : List Lock → List (Op Lock Event) → List Lock → Prop
  | nil (held) : Runs R held [] held
  | acquire {l held ops held'} (hR : ∀ k ∈ held, R k l) (h : Runs R (l :: held) ops held') :
    Runs R held (.acquire l :: ops) held'
  | release {l held ops held'} (h : Runs R held ops held') :
    Runs R (l :: held) (.release l :: ops) held'

section

variable {R : Lock → Lock → Prop} {held held' held'' : List Lock} {ops ops' : List (Op Lock Event)}

theorem Runs.append (h : Runs R held ops held') (h' : Runs R held' ops' held'') :
    Runs R held (ops ++ ops') held'' := by
  induction h with
  | nil _ => exact h'
  | acquire hR _ ih => exact .acquire hR (ih h')
  | release _ ih => exact .release (ih h')

theorem Runs.guarded {l : Lock} {body : List (Op Lock Event)} (hR : ∀ k ∈ held, R k l)
    (h : Runs R (l :: held) body (l :: held)) : Runs R held (guarded l body) held :=
  .acquire hR (h.append (.release (.nil held)))

theorem Runs.flatten {parts : List (List (Op Lock Event))}
    (h : ∀ part ∈ parts, Runs R held part held) : Runs R held parts.flatten held := by
  induction parts with
  | nil => exact .nil held
  | cons part parts ih =>
    exact (h part List.mem_cons_self).append
      (ih fun p hp => h p (List.mem_cons_of_mem _ hp))

/-- A scope with nothing in it. -/
theorem Runs.section {l : Lock} (hR : ∀ k ∈ held, R k l) :
    Runs R held (Locks.guarded l [] : List (Op Lock Event)) held :=
  .guarded hR (.nil _)

theorem Runs.replicate (h : Runs R held ops held) (n : ℕ) :
    Runs R held (List.replicate n ops).flatten held :=
  .flatten fun part hpart => by rwa [List.eq_of_mem_replicate hpart]

theorem Runs.ite {P : Prop} [Decidable P] (h : Runs R held ops held')
    (h' : Runs R held ops' held') : Runs R held (if P then ops else ops') held' := by
  split_ifs
  · exact h
  · exact h'

theorem Runs.eq_of_nil (h : Runs R held ([] : List (Op Lock Event)) held') : held = held' := by
  cases h with
  | nil _ => rfl

/-- It releases what it holds. -/
theorem Runs.release_mem (h : Runs R held ops held') (hne : ops ≠ []) {l : Lock}
    {rest ops' : List (Op Lock Event)} (heq : ops ++ rest = .release l :: ops') : l ∈ held := by
  cases h with
  | nil _ => exact absurd rfl hne
  | acquire hR h => cases heq
  | release h =>
    cases heq
    exact List.mem_cons_self

/-- The rule for what a thread waits for. -/
theorem Runs.waits {l : Lock} (h : Runs R held (.acquire l :: ops) held') :
    ∀ k ∈ held, R k l := by
  cases h with
  | acquire hR h => exact hR

end

variable [DecidableEq Thread] [DecidableEq Lock] {R : Lock → Lock → Prop} {held : List Lock}
  {s s' : Threads Thread Lock Event} {t : Thread} {e : Option Event}
  {ops rest : List (Op Lock Event)}

/-- **A step of a program that respects the order** leaves the rest of it, which does. -/
theorem Runs.executes (h : Runs R (s.held t) ops held) (hne : ops ≠ [])
    (htodo : s.todo t = ops ++ rest) (he : s.Executes t s' e) :
    e = none ∧ ∃ ops', s'.todo t = ops' ++ rest ∧ Runs R (s'.held t) ops' held := by
  generalize hheld : s.held t = before at h
  cases h with
  | nil _ => exact absurd rfl hne
  | @acquire l _ ops _ hR h =>
    cases he with
    | @acquire l' ops' htodo' hfree =>
      obtain ⟨rfl, rfl⟩ : l = l' ∧ ops ++ rest = ops' := by
        rw [htodo] at htodo'
        cases htodo'
        exact ⟨rfl, rfl⟩
      refine ⟨rfl, ops, Function.update_self .., ?_⟩
      simpa [hheld] using h
    | release htodo' =>
      rw [htodo] at htodo'
      cases htodo'
    | signal htodo' =>
      rw [htodo] at htodo'
      cases htodo'
  | @release l _ ops _ h =>
    cases he with
    | @release l' ops' htodo' =>
      obtain ⟨rfl, rfl⟩ : l = l' ∧ ops ++ rest = ops' := by
        rw [htodo] at htodo'
        cases htodo'
        exact ⟨rfl, rfl⟩
      refine ⟨rfl, ops, Function.update_self .., ?_⟩
      simpa [hheld] using h
    | acquire htodo' hfree =>
      rw [htodo] at htodo'
      cases htodo'
    | signal htodo' =>
      rw [htodo] at htodo'
      cases htodo'

end Locks

end DistBuild
