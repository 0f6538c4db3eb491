import DistBuild.Machinery.Posix
import DistBuild.Machinery.Recency
import DistBuild.Machinery.Run

/-!
# Storage/LruStorage — the storage that drops what was used longest ago

    _storage_nodes     n₃ n₇ n₁          most recently used first
    _node_iterators    key ─▸ node
    _store_usage       Σ sizes, modulo 2⁶⁴

An iterator is the address of its node, which is fresh when the node is made and stays when the node
is spliced.  An operation that takes the back of an empty list, or an iterator to no node, has no
result.  The list of the nodes' entries is the recency list as long as no sum wraps around
(`Represents`); what a lookup returns is the place of the iterator, and not of the value.
-/

namespace DistBuild

/-- A node of `_storage_nodes`. -/
structure StorageNode (T : Type) where
  address : ℕ
  key : Str
  value : T
deriving DecidableEq, Repr

structure LruStorage (T : Type) where
  storageNodes : List (StorageNode T)
  nodeIterators : Str → Option ℕ
  storeUsage : UInt64
  storeCapacity : UInt64
  /-- The address of the next node. -/
  nextAddress : ℕ

/-- What the pointer that `get_value` returns points to. -/
inductive Pointee (T : Type)
  | value (v : T)
  | iterator (address : ℕ)
deriving DecidableEq, Repr

namespace LruStorage

variable {T : Type}

def new (storeCapacity : UInt64) : LruStorage T := ⟨[], fun _ => none, 0, storeCapacity, 0⟩

def clearStorage (s : LruStorage T) : LruStorage T :=
  { s with nodeIterators := fun _ => none, storageNodes := [], storeUsage := 0 }

/-- `splice`: the node at `address` to the front. -/
def spliceToFront (nodes : List (StorageNode T)) (address : ℕ) : Option (List (StorageNode T)) :=
  if ∃ n ∈ nodes, n.address = address then
    some (nodes.filter (fun n => n.address = address)
      ++ nodes.filter (fun n => ¬ n.address = address))
  else none

theorem spliceToFront_perm {nodes nodes' : List (StorageNode T)} {address : ℕ}
    (h : spliceToFront nodes address = some nodes') : nodes'.Perm nodes := by
  rw [spliceToFront] at h
  split_ifs at h
  obtain rfl := Option.some.inj h
  simpa only [decide_not]
    using List.filter_append_perm (fun m : StorageNode T => decide (m.address = address)) _

/-- `searched_val_iter->second` is the iterator that the map keeps. -/
def getValue (key : Str) (s : LruStorage T) : Option (Option (Pointee T) × LruStorage T) :=
  match s.nodeIterators key with
  | none => some (none, s)
  | some address =>
    (spliceToFront s.storageNodes address).map fun nodes =>
      (some (.iterator address), { s with storageNodes := nodes })

variable (size : T → UInt64)

/-- The loop of `store_value`; the nodes are given last one first. -/
def evict (needed : UInt64) : List (StorageNode T) → LruStorage T → Option (LruStorage T)
  | [], s => if s.storeUsage + needed > s.storeCapacity then none else some s
  | storageLast :: rest, s =>
    if s.storeUsage + needed > s.storeCapacity then
      evict needed rest
        { s with
          storeUsage := s.storeUsage - size storageLast.value
          nodeIterators := Function.update s.nodeIterators storageLast.key none
          storageNodes := rest.reverse }
    else some s

def storeValue (key : Str) (value : T) (s : LruStorage T) : Option (Bool × LruStorage T) :=
  if s.nodeIterators key ≠ none then some (false, s)
  else
    (evict size (size value) s.storageNodes.reverse s).map fun s =>
      (true,
        { s with
          storageNodes := ⟨s.nextAddress, key, value⟩ :: s.storageNodes
          nodeIterators := Function.update s.nodeIterators key (some s.nextAddress)
          storeUsage := s.storeUsage + size value
          nextAddress := s.nextAddress + 1 })

end LruStorage

/-! ## Calls -/

/-- A call of one of the three operations. -/
inductive LruCall (T : Type)
  | storeValue (key : Str) (value : T)
  | getValue (key : Str)
  | clearStorage

/-- What a call returns. -/
inductive LruAnswer (T : Type)
  | stored (ok : Bool)
  | found (ptr : Option (Pointee T))
  | cleared
deriving DecidableEq, Repr

variable {T : Type} (size : T → UInt64)

/-- A call on a storage: its answer, and the storage after it. -/
def LruCall.run (s : LruStorage T) : LruCall T → Option (LruAnswer T × LruStorage T)
  | storeValue key value => (s.storeValue size key value).map fun r => (.stored r.1, r.2)
  | getValue key => (s.getValue key).map fun r => (.found r.1, r.2)
  | clearStorage => some (.cleared, s.clearStorage)

/-- A call as a step. -/
def lruStep (call : LruCall T) (s : LruStorage T) : Option (LruStorage T) :=
  (call.run size s).map Prod.snd

/-! ## The recency list -/

/-- The recency list of a storage with this capacity. -/
abbrev LruEntries (capacity : UInt64) : Type :=
  Recency Str T (fun v => (size v).toNat) capacity.toNat

variable {size}

/-- What a call should answer, and leave. -/
def LruCall.expected {capacity : UInt64} (r : LruEntries size capacity) :
    LruCall T → LruAnswer T × LruEntries size capacity
  | storeValue key value => ((r.store key value).1 |> .stored, (r.store key value).2)
  | getValue key => (.found ((r.lookup key).map .value), r.touch key)
  | clearStorage => (.cleared, .empty)

/-- The entry of a node. -/
def StorageNode.entry (n : StorageNode T) : Str × T := (n.key, n.value)

/-- **The storage is the recency list**: the nodes hold its entries, the map has the keys with their
own nodes, and the usage is the sum of the sizes. -/
structure Represents {capacity : UInt64} (s : LruStorage T)
    (r : LruEntries size capacity) : Prop where
  capacity : s.storeCapacity = capacity
  entries : s.storageNodes.map StorageNode.entry = r.entries
  iterators : ∀ key address, s.nodeIterators key = some address
    ↔ ∃ n ∈ s.storageNodes, n.key = key ∧ n.address = address
  usage : s.storeUsage.toNat = totalSize (fun v => (size v).toNat) r.entries
  addresses : (s.storageNodes.map StorageNode.address).Nodup
  fresh : ∀ n ∈ s.storageNodes, n.address < s.nextAddress

namespace Represents

variable {capacity : UInt64} {s : LruStorage T} {r r' : LruEntries size capacity} {key : Str}
  {value : T}

theorem congr (h : Represents s r) (he : r.entries = r'.entries) : Represents s r' :=
  ⟨h.capacity, h.entries.trans he, h.iterators, he ▸ h.usage, h.addresses, h.fresh⟩

theorem keys_nodup (h : Represents s r) : (s.storageNodes.map StorageNode.key).Nodup := by
  have hdistinct := r.distinct
  rw [← h.entries, List.map_map] at hdistinct
  exact hdistinct

theorem stored_iff (h : Represents s r) :
    s.nodeIterators key ≠ none ↔ ∃ e ∈ r.entries, e.1 = key := by
  rw [Option.ne_none_iff_exists', ← h.entries]
  simp only [h.iterators, List.mem_map]
  constructor
  · rintro ⟨_, n, hn, hk, -⟩
    exact ⟨_, ⟨n, hn, rfl⟩, hk⟩
  · rintro ⟨_, ⟨n, hn, rfl⟩, hk⟩
    exact ⟨_, n, hn, hk, rfl⟩

theorem new (capacity : UInt64) :
    Represents (LruStorage.new capacity) (.empty : LruEntries size capacity) :=
  ⟨rfl, rfl, by simp [LruStorage.new], rfl, List.nodup_nil, by simp [LruStorage.new]⟩

theorem clearStorage (h : Represents s r) :
    Represents s.clearStorage (.empty : LruEntries size capacity) :=
  ⟨h.capacity, rfl, by simp [LruStorage.clearStorage], rfl, List.nodup_nil,
    by simp [LruStorage.clearStorage]⟩

/-! ### Looking up -/

theorem getValue_of_none (h : Represents s r) (hkey : s.nodeIterators key = none) :
    s.getValue key = some (none, s) ∧ Represents s (r.touch key) ∧ r.lookup key = none := by
  have hnew : ¬ ∃ e ∈ r.entries, e.1 = key := fun hex => h.stored_iff.mpr hex hkey
  refine ⟨by rw [LruStorage.getValue, hkey], h.congr ?_, Recency.lookup_of_not_mem hnew⟩
  exact (Recency.touch_of_not_mem hnew).symm

/-- The node of an entry is the one with its key, and the one with its address. -/
theorem address_iff (h : Represents s r) {n m : StorageNode T} (hn : n ∈ s.storageNodes)
    (hm : m ∈ s.storageNodes) : m.address = n.address ↔ m.key = n.key :=
  ⟨fun ha => congrArg _ (List.inj_on_of_nodup_map h.addresses hm hn ha),
    fun hk => congrArg _ (List.inj_on_of_nodup_map h.keys_nodup hm hn hk)⟩

/-- Splicing a node is bringing its entry to the front. -/
theorem spliceToFront_eq (h : Represents s r) {n : StorageNode T} (hn : n ∈ s.storageNodes) :
    ∃ nodes, LruStorage.spliceToFront s.storageNodes n.address = some nodes
      ∧ nodes.map StorageNode.entry = Recency.toFront n.key r.entries := by
  refine ⟨_, if_pos ⟨n, hn, rfl⟩, ?_⟩
  rw [Recency.toFront, ← h.entries, List.map_append, List.filter_map, List.filter_map]
  congr 2
  · exact List.filter_congr fun m hm => decide_eq_decide.mpr (h.address_iff hn hm)
  · exact List.filter_congr fun m hm => decide_eq_decide.mpr (not_congr (h.address_iff hn hm))

/-- **The node of a key that is looked up comes to the front**, as its entry does; what is returned
is the place of the iterator. -/
theorem getValue_of_some (h : Represents s r) {address : ℕ}
    (hkey : s.nodeIterators key = some address) :
    ∃ s' v, s.getValue key = some (some (.iterator address), s') ∧ Represents s' (r.touch key)
      ∧ r.lookup key = some v := by
  obtain ⟨n, hn, rfl, rfl⟩ := (h.iterators _ _).mp hkey
  obtain ⟨nodes, hsplice, hentries⟩ := h.spliceToFront_eq hn
  have hperm := LruStorage.spliceToFront_perm hsplice
  refine ⟨{ s with storageNodes := nodes }, n.value, ?_, ?_, ?_⟩
  · rw [LruStorage.getValue, hkey]
    dsimp only
    rw [hsplice]
    rfl
  · refine ⟨h.capacity, hentries, fun key' address' => ?_, ?_, ?_, ?_⟩
    · refine (h.iterators key' address').trans (exists_congr fun m => and_congr_left fun _ => ?_)
      exact hperm.mem_iff.symm
    · exact h.usage.trans (totalSize_perm (Recency.toFront_perm n.key r.entries)).symm
    · exact (hperm.map _).nodup_iff.mpr h.addresses
    · exact fun m hm => h.fresh m (hperm.subset hm)
  · refine Recency.lookup_of_mem ?_
    rw [← h.entries]
    exact List.mem_map_of_mem hn

/-! ### Storing -/

/-- The test of the loop, where the sum does not wrap around. -/
theorem full_iff (h : Represents s r) {needed : UInt64} (hneeded : needed ≤ capacity)
    (hroom : s.storeUsage.toNat + needed.toNat < 2 ^ 64) :
    s.storeUsage + needed > s.storeCapacity
      ↔ capacity.toNat - needed.toNat < totalSize (fun v => (size v).toNat) r.entries := by
  have hle := UInt64.le_iff_toNat_le.mp hneeded
  rw [gt_iff_lt, UInt64.lt_iff_toNat_lt, UInt64.toNat_add, Nat.mod_eq_of_lt hroom,
    h.capacity, h.usage]
  omega

/-- One round of the loop: the last entry goes. -/
theorem pop (h : Represents s r) {last : StorageNode T} {rest : List (StorageNode T)}
    (hnodes : s.storageNodes.reverse = last :: rest) :
    ∃ r' : LruEntries size capacity, r.entries = r'.entries ++ [last.entry]
      ∧ Represents { s with
          storeUsage := s.storeUsage - size last.value
          nodeIterators := Function.update s.nodeIterators last.key none
          storageNodes := rest.reverse } r' := by
  have hlist : s.storageNodes = rest.reverse ++ [last] := by
    rw [← List.reverse_reverse s.storageNodes, hnodes, List.reverse_cons]
  have hentries : r.entries = rest.reverse.map StorageNode.entry ++ [last.entry] := by
    rw [← h.entries, hlist, List.map_append, List.map_singleton]
  have hprefix : rest.reverse.map StorageNode.entry <+: r.entries := ⟨_, hentries.symm⟩
  have hkeys := h.keys_nodup
  rw [hlist, List.map_append, List.map_singleton] at hkeys
  have hlast : ∀ n ∈ rest.reverse, n.key ≠ last.key := fun n hn heq =>
    (List.nodup_append.mp hkeys).2.2 _ (List.mem_map_of_mem hn) _ (List.mem_singleton_self _) heq
  refine ⟨r.front hprefix, hentries, h.capacity, rfl, fun key address => ?_, ?_, ?_, ?_⟩
  · dsimp only
    by_cases hkey : key = last.key
    · subst hkey
      rw [Function.update_self]
      exact iff_of_false nofun fun ⟨n, hn, hk, _⟩ => hlast n hn hk
    · rw [Function.update_of_ne hkey, h.iterators, hlist]
      simp only [List.mem_append, List.mem_singleton]
      refine exists_congr fun n => and_congr_left fun ⟨hk, _⟩ => or_iff_left ?_
      rintro rfl
      exact hkey hk.symm
  · have husage := h.usage
    rw [hentries, totalSize_append, totalSize_cons, totalSize_nil, Nat.add_zero] at husage
    have hle : size last.value ≤ s.storeUsage := by
      rw [UInt64.le_iff_toNat_le, husage]
      exact Nat.le_add_left ..
    show (s.storeUsage - size last.value).toNat = totalSize _ (rest.reverse.map StorageNode.entry)
    rw [UInt64.toNat_sub_of_le _ _ hle, husage]
    exact Nat.add_sub_cancel ..
  · have haddresses := h.addresses
    rw [hlist, List.map_append] at haddresses
    exact (List.nodup_append.mp haddresses).1
  · intro n hn
    refine h.fresh n ?_
    rw [hlist]
    exact List.mem_append_left _ hn

/-- **The loop drops the shortest suffix that makes room.** -/
theorem evict (h : Represents s r) {needed : UInt64} (hneeded : needed ≤ capacity)
    (hroom : s.storeUsage.toNat + needed.toNat < 2 ^ 64) :
    ∃ s', LruStorage.evict size needed s.storageNodes.reverse s = some s'
      ∧ Represents s' (r.shrink (capacity.toNat - needed.toNat))
        ∧ s'.nextAddress = s.nextAddress := by
  generalize hnodes : s.storageNodes.reverse = nodes
  induction nodes generalizing s r with
  | nil =>
    have hnil : r.entries = [] := by
      rw [← h.entries, List.reverse_eq_nil_iff.mp hnodes, List.map_nil]
    have hfits : ¬ s.storeUsage + needed > s.storeCapacity := by
      rw [h.full_iff hneeded hroom, hnil]
      exact Nat.not_lt_zero _
    refine ⟨s, if_neg hfits, h.congr ?_, rfl⟩
    show r.entries = trim _ _ r.entries
    rw [hnil]
    rfl
  | cons last rest ih =>
    rw [LruStorage.evict]
    split_ifs with hfull
    · rw [h.full_iff hneeded hroom] at hfull
      obtain ⟨r', hentries, hpop⟩ := h.pop hnodes
      have husage := hpop.usage
      rw [hentries] at hfull
      obtain ⟨s', hs', hr', hnext⟩ := ih hpop (by
        rw [husage]
        have := h.usage
        rw [hentries, totalSize_append] at this
        omega) (List.reverse_reverse rest)
      refine ⟨s', hs', hr'.congr ?_, hnext⟩
      show trim _ _ r'.entries = trim _ _ r.entries
      rw [hentries, trim_concat_of_lt hfull]
    · rw [h.full_iff hneeded hroom, Nat.not_lt] at hfull
      exact ⟨s, rfl, h.congr (trim_of_le hfull).symm, rfl⟩

/-- A new node in front. -/
theorem push (h : Represents s r) (hkey : s.nodeIterators key = none)
    (hentries : r'.entries = (key, value) :: r.entries) :
    Represents { s with
        storageNodes := ⟨s.nextAddress, key, value⟩ :: s.storageNodes
        nodeIterators := Function.update s.nodeIterators key (some s.nextAddress)
        storeUsage := s.storeUsage + size value
        nextAddress := s.nextAddress + 1 } r' := by
  have hnone : ∀ n ∈ s.storageNodes, n.key ≠ key := fun n hn hk => by
    have hsome := (h.iterators key n.address).mpr ⟨n, hn, hk, rfl⟩
    exact absurd (hkey.symm.trans hsome) nofun
  refine ⟨h.capacity, ?_, fun key' address => ?_, ?_, ?_, ?_⟩
  · rw [hentries, ← h.entries, List.map_cons]
    rfl
  · dsimp only
    by_cases hk : key' = key
    · subst hk
      rw [Function.update_self, Option.some.injEq]
      constructor
      · rintro rfl
        exact ⟨_, List.mem_cons_self, rfl, rfl⟩
      · rintro ⟨n, hn, hkn, rfl⟩
        rcases List.mem_cons.mp hn with rfl | hn
        · rfl
        · exact absurd hkn (hnone n hn)
    · rw [Function.update_of_ne hk, h.iterators]
      simp only [List.mem_cons]
      refine exists_congr fun n => and_congr_left fun ⟨hkn, _⟩ => (or_iff_right ?_).symm
      rintro rfl
      exact hk hkn.symm
  · have htotal : totalSize (fun v => (size v).toNat) r'.entries
        = s.storeUsage.toNat + (size value).toNat := by
      rw [hentries, totalSize_cons, h.usage, Nat.add_comm]
    have hlt : s.storeUsage.toNat + (size value).toNat < 2 ^ 64 :=
      htotal ▸ r'.fits.trans_lt capacity.toNat_lt
    show (s.storeUsage + size value).toNat = _
    rw [UInt64.toNat_add, Nat.mod_eq_of_lt hlt, htotal]
  · refine List.nodup_cons.mpr ⟨fun hmem => ?_, h.addresses⟩
    obtain ⟨n, hn, heq⟩ := List.mem_map.mp hmem
    exact absurd heq (h.fresh n hn).ne
  · refine List.forall_mem_cons.mpr ⟨Nat.lt_succ_self _, fun n hn => ?_⟩
    exact (h.fresh n hn).trans (Nat.lt_succ_self _)

/-- **Storing a value that fits** is storing it in the recency list, if the sum does not wrap
around. -/
theorem storeValue (h : Represents s r) (hfit : size value ≤ capacity)
    (hroom : s.nodeIterators key = none → s.storeUsage.toNat + (size value).toNat < 2 ^ 64) :
    ∃ s', s.storeValue size key value = some ((r.store key value).1, s')
      ∧ Represents s' (r.store key value).2 := by
  have hfit' : (size value).toNat ≤ capacity.toNat := UInt64.le_iff_toNat_le.mp hfit
  rw [LruStorage.storeValue]
  split_ifs with hkey
  · rw [Recency.store_of_mem (h.stored_iff.mp hkey)]
    exact ⟨s, rfl, h⟩
  · have hnew : ¬ ∃ e ∈ r.entries, e.1 = key := fun hex => hkey (h.stored_iff.mpr hex)
    obtain ⟨hok, hentries⟩ := Recency.store_of_new (v := value) hnew hfit'
    obtain ⟨s', hs', hr', -⟩ := h.evict hfit (hroom (not_not.mp hkey))
    have hkey' : s'.nodeIterators key = none := by
      by_contra hstored
      obtain ⟨e, he, hk⟩ := hr'.stored_iff.mp hstored
      exact hnew ⟨e, trim_isPrefix.subset he, hk⟩
    rw [hs', hok]
    exact ⟨_, rfl, hr'.push hkey' hentries⟩

end Represents

/-! ## Runs -/

/-- The size of a value that is stored is at most the capacity. -/
def LruCall.Within (size : T → UInt64) (capacity : UInt64) : LruCall T → Prop
  | storeValue _ value => size value ≤ capacity
  | getValue _ => True
  | clearStorage => True

instance LruCall.Within.decidable (size : T → UInt64) (capacity : UInt64) :
    ∀ call : LruCall T, Decidable (call.Within size capacity)
  | .storeValue _ value => inferInstanceAs (Decidable (size value ≤ capacity))
  | .getValue _ | .clearStorage => inferInstanceAs (Decidable True)

/-- The sum of the usage and the size of a new value does not wrap around. -/
def LruCall.Steady (size : T → UInt64) : LruCall T → LruStorage T → Prop
  | storeValue key value, s =>
    s.nodeIterators key = none → s.storeUsage.toNat + (size value).toNat < 2 ^ 64
  | getValue _, _ => True
  | clearStorage, _ => True

instance LruCall.Steady.decidable (size : T → UInt64) :
    ∀ (call : LruCall T) (s : LruStorage T), Decidable (call.Steady size s)
  | .storeValue key value, s => inferInstanceAs
      (Decidable (s.nodeIterators key = none → s.storeUsage.toNat + (size value).toNat < 2 ^ 64))
  | .getValue _, _ | .clearStorage, _ => inferInstanceAs (Decidable True)

/-- The call looks up a key that is stored. -/
def LruCall.Finds : LruCall T → LruStorage T → Prop
  | getValue key, s => s.nodeIterators key ≠ none
  | storeValue _ _, _ => False
  | clearStorage, _ => False

/-- The call answers and leaves what it should. -/
def LruCall.Behaves {capacity : UInt64} (call : LruCall T) (s : LruStorage T)
    (r : LruEntries size capacity) : Prop :=
  ∃ s', call.run size s = some ((call.expected r).1, s') ∧ Represents s' (call.expected r).2

/-- The recency list after some calls. -/
def recencyRun (size : T → UInt64) (capacity : UInt64) (calls : List (LruCall T)) :
    LruEntries size capacity :=
  calls.foldl (fun r call => (call.expected r).2) .empty

section

variable {capacity : UInt64} {s : LruStorage T} {r : LruEntries size capacity} {call : LruCall T}

/-- **A call keeps the storage the recency list**, whatever it answers. -/
theorem Represents.step (h : Represents s r) (hwithin : call.Within size capacity)
    (hsteady : call.Steady size s) :
    ∃ s', lruStep size call s = some s' ∧ Represents s' (call.expected r).2 := by
  cases call with
  | storeValue key value =>
    obtain ⟨s', hs', hr'⟩ := h.storeValue hwithin hsteady
    exact ⟨s', by rw [lruStep, LruCall.run, hs']; rfl, hr'⟩
  | getValue key =>
    cases hkey : s.nodeIterators key with
    | none =>
      obtain ⟨hs', hr', -⟩ := h.getValue_of_none hkey
      exact ⟨s, by rw [lruStep, LruCall.run, hs']; rfl, hr'⟩
    | some address =>
      obtain ⟨s', _, hs', hr', -⟩ := h.getValue_of_some hkey
      exact ⟨s', by rw [lruStep, LruCall.run, hs']; rfl, hr'⟩
  | clearStorage => exact ⟨_, rfl, h.clearStorage⟩

/-- A sum that wraps around is taken for one that fits: nothing goes, and the usage is less than the
new value's size. -/
theorem storeValue_of_wrap {key : Str} {value : T} (hcapacity : s.storeCapacity = capacity)
    (hfit : size value ≤ capacity) (hkey : s.nodeIterators key = none)
    (hwrap : 2 ^ 64 ≤ s.storeUsage.toNat + (size value).toNat) :
    ∃ s', s.storeValue size key value = some (true, s')
      ∧ s'.storeUsage.toNat < (size value).toNat := by
  have hlt := s.storeUsage.toNat_lt
  have hsum : (s.storeUsage + size value).toNat
      = s.storeUsage.toNat + (size value).toNat - 2 ^ 64 := by
    rw [UInt64.toNat_add, Nat.mod_eq_sub_mod hwrap, Nat.mod_eq_of_lt]
    have := (size value).toNat_lt
    omega
  have hfits : ¬ s.storeUsage + size value > s.storeCapacity := by
    have := UInt64.le_iff_toNat_le.mp hfit
    rw [gt_iff_lt, UInt64.lt_iff_toNat_lt, hcapacity]
    omega
  have hevict : LruStorage.evict size (size value) s.storageNodes.reverse s = some s := by
    cases s.storageNodes.reverse <;> exact if_neg hfits
  rw [LruStorage.storeValue, if_neg (not_not.mpr hkey), hevict]
  refine ⟨_, rfl, ?_⟩
  show (s.storeUsage + size value).toNat < _
  omega

/-- **Which calls behave**: those whose sum does not wrap around, and that find nothing. -/
theorem Represents.behaves_iff (h : Represents s r) (hwithin : call.Within size capacity) :
    call.Behaves s r ↔ call.Steady size s ∧ ¬ call.Finds s := by
  cases call with
  | storeValue key value =>
    refine ⟨fun ⟨s', hs', hr'⟩ => ⟨fun hkey => ?_, id⟩, fun ⟨hsteady, _⟩ => ?_⟩
    · by_contra hwrap
      obtain ⟨t, ht, hlt⟩ := storeValue_of_wrap h.capacity hwithin hkey (Nat.not_lt.mp hwrap)
      rw [LruCall.run, ht] at hs'
      obtain rfl : t = s' := (Prod.mk.inj (Option.some.inj hs')).2
      have hnew : ¬ ∃ e ∈ r.entries, e.1 = key := fun hex => h.stored_iff.mpr hex hkey
      have hentries :=
        (Recency.store_of_new (v := value) hnew (UInt64.le_iff_toNat_le.mp hwithin)).2
      have husage : t.storeUsage.toNat
          = totalSize (fun v => (size v).toNat) (r.store key value).2.entries := hr'.usage
      rw [hentries, totalSize_cons] at husage
      exact absurd hlt (Nat.not_lt.mpr (husage ▸ Nat.le_add_right ..))
    · obtain ⟨s', hs', hr'⟩ := h.storeValue hwithin hsteady
      exact ⟨s', by rw [LruCall.run, hs']; rfl, hr'⟩
  | getValue key =>
    cases hkey : s.nodeIterators key with
    | none =>
      obtain ⟨hs', hr', hlookup⟩ := h.getValue_of_none hkey
      refine iff_of_true ⟨s, ?_, hr'⟩ ⟨trivial, fun hfinds => hfinds hkey⟩
      rw [LruCall.run, hs', LruCall.expected, hlookup]
      rfl
    | some address =>
      obtain ⟨s', v, hs', -, hlookup⟩ := h.getValue_of_some hkey
      refine iff_of_false ?_ fun hno => hno.2 (by simp [LruCall.Finds, hkey])
      rintro ⟨t, ht, -⟩
      rw [LruCall.run, hs', LruCall.expected, hlookup] at ht
      cases ht
  | clearStorage => exact iff_of_true ⟨_, rfl, h.clearStorage⟩ ⟨trivial, id⟩

/-- **The storage is a recency list in every run whose sums do not wrap around**: each call leaves
what it should, and of the next calls exactly those answer right that find nothing, as long as their
sum does not wrap around either. -/
theorem lru_refines (size : T → UInt64) (capacity : UInt64) {calls : List (LruCall T)}
    (hwithin : ∀ call ∈ calls, call.Within size capacity)
    (hsteady : Meets (lruStep size) (LruCall.Steady size) calls (LruStorage.new capacity)) :
    ∃ s, runFrom (lruStep size) calls (LruStorage.new capacity) = some s
      ∧ Represents s (recencyRun size capacity calls)
      ∧ ∀ call : LruCall T, call.Within size capacity →
        (call.Behaves s (recencyRun size capacity calls)
          ↔ call.Steady size s ∧ ¬ call.Finds s) := by
  suffices hrun : ∀ (s : LruStorage T) (r : LruEntries size capacity), Represents s r →
      Meets (lruStep size) (LruCall.Steady size) calls s →
      ∃ s', runFrom (lruStep size) calls s = some s'
        ∧ Represents s' (calls.foldl (fun r call => (call.expected r).2) r) by
    obtain ⟨s, hs, hr⟩ := hrun _ _ (.new capacity) hsteady
    exact ⟨s, hs, hr, fun call hcall => hr.behaves_iff hcall⟩
  clear hsteady
  induction calls with
  | nil => exact fun s r h _ => ⟨s, rfl, h⟩
  | cons call calls ih =>
    intro s r h hmeets
    obtain ⟨hcall, hcalls⟩ := List.forall_mem_cons.mp hwithin
    obtain ⟨t, ht, hr⟩ := h.step hcall hmeets.1
    obtain ⟨s', hs', hr'⟩ := ih hcalls t _ hr (hmeets.cons_of_step ht).2
    exact ⟨s', runFrom_cons.mpr ⟨t, ht, hs'⟩, hr'⟩

end

/-- Looking up `a` keeps it when `c` needs room. -/
theorem lru_refines_eviction :
    (recencyRun id 2 [.storeValue (str "a") 1, .storeValue (str "b") 1, .getValue (str "a"),
        .storeValue (str "c") 1]).entries = [(str "c", (1 : UInt64)), (str "a", 1)]
      ∧ ∃ s, runFrom (lruStep id) [.storeValue (str "a") 1, .storeValue (str "b") 1,
          .getValue (str "a"), .storeValue (str "c") 1] (LruStorage.new 2) = some s
        ∧ Represents s (recencyRun id 2 [.storeValue (str "a") 1, .storeValue (str "b") 1,
          .getValue (str "a"), .storeValue (str "c") (1 : UInt64)]) := by
  refine ⟨by decide +kernel, ?_⟩
  obtain ⟨s, hs, hr, -⟩ := @lru_refines UInt64 id 2 [.storeValue (str "a") 1,
    .storeValue (str "b") 1, .getValue (str "a"), .storeValue (str "c") 1]
    (by decide +kernel) (by decide +kernel)
  exact ⟨s, hs, hr⟩

/-- A lookup returns the place of the iterator. -/
theorem lookup_returns_iterator :
    let calls : List (LruCall UInt64) := [.storeValue (str "a") 1]
    ∃ s, runFrom (lruStep id) calls (LruStorage.new 1) = some s
      ∧ (∃ s', LruCall.run id s (.getValue (str "a")) = some (.found (some (.iterator 0)), s'))
      ∧ ¬ LruCall.Behaves (.getValue (str "a")) s (recencyRun id 1 calls) := by
  refine ⟨_, rfl, ⟨_, rfl⟩, ?_⟩
  rintro ⟨s', hs', -⟩
  have hanswer : LruAnswer.found (some (.iterator 0)) = .found (some (.value (1 : UInt64))) :=
    (Prod.mk.inj (Option.some.inj hs')).1
  cases hanswer

end DistBuild
