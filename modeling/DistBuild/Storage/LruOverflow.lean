import DistBuild.Storage.LruStorage

/-!
# Storage/LruOverflow — storing a value of any size

    usage + size ≤ capacity        the value goes in
    usage + size > capacity        the last entry goes, as long as there is one

The usage is the sum of the sizes modulo 2⁶⁴, however often it has wrapped around, so it is zero
when all entries are gone.  A value within the capacity is then stored; for one above it the loop
goes on with the back of an empty list, unless the sum has wrapped around, and then the value is
stored.
-/

namespace DistBuild

variable {T : Type} {size : T → UInt64}

/-- What the nodes' values take. -/
def nodesSize (size : T → UInt64) (nodes : List (StorageNode T)) : ℕ :=
  totalSize (fun v => (size v).toNat) (nodes.map StorageNode.entry)

/-- The usage counts the nodes, modulo 2⁶⁴. -/
structure Counted (size : T → UInt64) (capacity : UInt64) (s : LruStorage T) : Prop where
  capacity : s.storeCapacity = capacity
  usage : s.storeUsage = UInt64.ofNat (nodesSize size s.storageNodes)

theorem nodesSize_cons (n : StorageNode T) (nodes : List (StorageNode T)) :
    UInt64.ofNat (nodesSize size (n :: nodes))
      = UInt64.ofNat (nodesSize size nodes) + size n.value := by
  rw [nodesSize, List.map_cons, totalSize_cons, Nat.add_comm, UInt64.ofNat_add, ← nodesSize]
  exact congrArg _ UInt64.ofNat_toNat

theorem nodesSize_perm {nodes nodes' : List (StorageNode T)} (h : nodes.Perm nodes') :
    nodesSize size nodes = nodesSize size nodes' :=
  totalSize_perm (h.map _)

namespace Counted

variable {capacity : UInt64} {s s' : LruStorage T}

/-- One round of the loop. -/
theorem pop (h : Counted size capacity s) {last : StorageNode T} {rest : List (StorageNode T)}
    (hnodes : s.storageNodes.reverse = last :: rest) (iterators : Str → Option ℕ) :
    Counted size capacity { s with
      storeUsage := s.storeUsage - size last.value
      nodeIterators := iterators
      storageNodes := rest.reverse } := by
  refine ⟨h.capacity, ?_⟩
  show s.storeUsage - size last.value = UInt64.ofNat (nodesSize size rest.reverse)
  rw [h.usage, ← nodesSize_perm (List.reverse_perm s.storageNodes), hnodes, nodesSize_cons,
    UInt64.add_sub_cancel, nodesSize_perm (List.reverse_perm rest)]

/-- **The loop finds room for a value within the capacity**, at the latest when all entries are
gone, and keeps the count. -/
theorem evict (h : Counted size capacity s) (needed : UInt64) :
    (LruStorage.evict size needed s.storageNodes.reverse s = none → capacity < needed)
      ∧ ∀ s', LruStorage.evict size needed s.storageNodes.reverse s = some s' →
        Counted size capacity s' := by
  generalize hnodes : s.storageNodes.reverse = nodes
  induction nodes generalizing s with
  | nil =>
    have hzero : s.storeUsage = 0 := by
      rw [h.usage, List.reverse_eq_nil_iff.mp hnodes]
      rfl
    rw [LruStorage.evict, hzero, UInt64.zero_add, h.capacity]
    split_ifs with hfull
    · exact ⟨fun _ => hfull, fun _ => False.elim⟩
    · exact ⟨False.elim, fun s' hs' => Option.some.inj hs' ▸ h⟩
  | cons last rest ih =>
    rw [LruStorage.evict]
    split_ifs
    · exact ih (h.pop hnodes _) (List.reverse_reverse rest)
    · exact ⟨False.elim, fun s' hs' => Option.some.inj hs' ▸ h⟩

theorem storeValue (h : Counted size capacity s) {key : Str} {value : T} {ok : Bool}
    (hs' : s.storeValue size key value = some (ok, s')) : Counted size capacity s' := by
  rw [LruStorage.storeValue] at hs'
  split_ifs at hs'
  · exact (Prod.mk.inj (Option.some.inj hs')).2 ▸ h
  · obtain ⟨t, ht, heq⟩ := Option.map_eq_some_iff.mp hs'
    have hcount := (h.evict _).2 t ht
    obtain ⟨-, rfl⟩ := Prod.mk.inj heq
    refine ⟨hcount.capacity, ?_⟩
    show t.storeUsage + size value = _
    rw [hcount.usage, nodesSize_cons]

theorem getValue (h : Counted size capacity s) {key : Str} {ptr : Option (Pointee T)}
    (hs' : s.getValue key = some (ptr, s')) : Counted size capacity s' := by
  rw [LruStorage.getValue] at hs'
  split at hs'
  · exact (Prod.mk.inj (Option.some.inj hs')).2 ▸ h
  · obtain ⟨nodes, hnodes, heq⟩ := Option.map_eq_some_iff.mp hs'
    obtain ⟨-, rfl⟩ := Prod.mk.inj heq
    refine ⟨h.capacity, h.usage.trans ?_⟩
    rw [nodesSize_perm (LruStorage.spliceToFront_perm hnodes)]

/-- **Every call keeps the count.** -/
theorem step (h : Counted size capacity s) {call : LruCall T}
    (hs' : lruStep size call s = some s') : Counted size capacity s' := by
  obtain ⟨⟨answer, t⟩, ht, rfl⟩ := Option.map_eq_some_iff.mp hs'
  cases call with
  | storeValue key value =>
    obtain ⟨⟨ok, u⟩, hu, heq⟩ := Option.map_eq_some_iff.mp ht
    exact (Prod.mk.inj heq).2 ▸ h.storeValue hu
  | getValue key =>
    obtain ⟨⟨ptr, u⟩, hu, heq⟩ := Option.map_eq_some_iff.mp ht
    exact (Prod.mk.inj heq).2 ▸ h.getValue hu
  | clearStorage =>
    obtain ⟨-, rfl⟩ := Prod.mk.inj (Option.some.inj ht)
    exact ⟨h.capacity, rfl⟩

theorem new (capacity : UInt64) : Counted size capacity (LruStorage.new capacity) := ⟨rfl, rfl⟩

/-- **The usage counts the nodes in every reachable storage.** -/
theorem reachable {calls : List (LruCall T)}
    (h : runFrom (lruStep size) calls (LruStorage.new capacity) = some s) :
    Counted size capacity s :=
  runFrom_invariant (fun _ _ _ ht hs => hs.step ht) h (.new capacity)

end Counted

/-- Storing a value ends without the back of an empty list, and if the value cannot fit, with
`false` and the storage as it was. -/
def StoresSafely (size : T → UInt64) (s : LruStorage T) (key : Str) (value : T) : Prop :=
  ∃ ok s', s.storeValue size key value = some (ok, s')
    ∧ (s.storeCapacity < size value → ok = false ∧ s'.storageNodes = s.storageNodes
      ∧ s'.nodeIterators = s.nodeIterators ∧ s'.storeUsage = s.storeUsage)

/-- **Storing is safe for a key that is there and for a value within the capacity, and for no
other**, in every reachable storage. -/
theorem stores_safely_iff (size : T → UInt64) (capacity : UInt64) {calls : List (LruCall T)}
    {s : LruStorage T} (h : runFrom (lruStep size) calls (LruStorage.new capacity) = some s)
    (key : Str) (value : T) :
    StoresSafely size s key value ↔ s.nodeIterators key ≠ none ∨ size value ≤ capacity := by
  have hcount := Counted.reachable h
  rw [StoresSafely, LruStorage.storeValue, hcount.capacity]
  split_ifs with hkey
  · exact iff_of_true ⟨false, s, rfl, fun _ => ⟨rfl, rfl, rfl, rfl⟩⟩ (Or.inl hkey)
  · rw [or_iff_right hkey]
    constructor
    · rintro ⟨ok, s', hs', hrefused⟩
      obtain ⟨t, -, heq⟩ := Option.map_eq_some_iff.mp hs'
      obtain ⟨rfl, -⟩ := Prod.mk.inj heq
      exact UInt64.not_lt.mp fun hlt => absurd (hrefused hlt).1 (by decide)
    · intro hfit
      cases hs' : LruStorage.evict size (size value) s.storageNodes.reverse s with
      | none => exact absurd ((hcount.evict _).1 hs') (UInt64.not_lt.mpr hfit)
      | some t => exact ⟨true, _, rfl, fun hlt => absurd hlt (UInt64.not_lt.mpr hfit)⟩

/-- A value of three, where one of one is stored and two is the capacity. -/
theorem stores_safely_iff_three :
    ∃ s : LruStorage UInt64,
      runFrom (lruStep id) [.storeValue (str "a") 1] (LruStorage.new 2) = some s
        ∧ ¬ StoresSafely id s (str "b") 3 := by
  refine ⟨_, rfl, ?_⟩
  rw [@stores_safely_iff UInt64 id 2 [.storeValue (str "a") 1] _ rfl]
  decide +kernel

/-- The back of an empty list. -/
theorem oversize_empties :
    LruStorage.storeValue id (str "a") 2 (LruStorage.new 1) = none
      ∧ ¬ StoresSafely id (LruStorage.new 1) (str "a") (2 : UInt64) := by
  have hnone : LruStorage.storeValue id (str "a") (2 : UInt64) (LruStorage.new 1) = none := rfl
  refine ⟨hnone, ?_⟩
  rintro ⟨ok, s', hs', -⟩
  exact absurd (hnone.symm.trans hs') nofun

end DistBuild
