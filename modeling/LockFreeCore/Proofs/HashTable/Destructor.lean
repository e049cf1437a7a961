import LockFreeCore.Proofs.HashTable
import LockFreeCore.ToMathlib.Allocation

/-! # The hash table frees what it allocated

The nodes in use are as many as the keys. The chains hold a node for each key, so they hold all of them, and
the destructor deletes chain after chain.
-/

namespace LockFreeCore.HashTable

open Allocated (live mem_live)

variable {K V : Type} {bytes : K → List UInt8} {table table' : HashTable K V} {chain : ℕ → List ℕ}

/-! ## The nodes in use -/

/-- A node for each key, in a table with buckets. -/
structure Owned (table : HashTable K V) : Prop where
  allocated : ∃ count : ℕ, Allocated table.heap table.fresh count ∧ (count : ℤ) = table.m_count
  buckets : 0 < table.m_bucketCount

theorem owned_create {bucketCount : ℕ} (buckets : 0 < bucketCount) : Owned (create bucketCount : HashTable K V) :=
  ⟨⟨0, Allocated.nothing, rfl⟩, buckets⟩

/-- Writing to a node that is there. -/
theorem Owned.overwrite (owned : Owned table) {a : ℕ} (used : a ∈ live table.heap) (node : Node K V) :
    Owned (table.write a (some node)) := by
  obtain ⟨⟨count, allocated, keys⟩, buckets⟩ := owned
  refine ⟨⟨count, allocated.congr ?_, keys⟩, buckets⟩
  rw [write, Allocated.live_update_some]
  exact Set.insert_eq_of_mem used

theorem live_of_heap {a : ℕ} {node : Node K V} (here : table.heap a = some node) : a ∈ live table.heap := by
  rw [mem_live, here]
  rfl

theorem Owned.unlink (owned : Owned table) {idx cur : ℕ} {prev next : Option ℕ} (used : cur ∈ live table.heap)
    (ran : table.unlink idx prev cur next = some table') : Owned table' := by
  obtain ⟨linked, pointed, rfl⟩ := Option.map_eq_some_iff.mp ran
  have step : Owned linked ∧ cur ∈ live linked.heap := by
    cases prev with
    | none =>
      obtain rfl := Option.some.inj pointed
      exact ⟨⟨owned.allocated, owned.buckets⟩, used⟩
    | some p =>
      obtain ⟨node, here, rfl⟩ := Option.map_eq_some_iff.mp pointed
      refine ⟨owned.overwrite (live_of_heap here) _, ?_⟩
      rw [write, Allocated.live_update_some]
      exact Set.mem_insert_of_mem p used
  obtain ⟨⟨⟨count, allocated, keys⟩, buckets⟩, used⟩ := step
  obtain ⟨rest, rfl⟩ := allocated.exists_succ used
  refine ⟨⟨rest, allocated.free used, ?_⟩, buckets⟩
  rw [Nat.cast_succ] at keys
  dsimp only
  omega

section Calls

variable [BEq K]

theorem Owned.insert (owned : Owned table) {key : K} {value : V} (ran : table.insert bytes key value = some table') :
    Owned table' := by
  obtain ⟨found, -, inserted⟩ := Option.bind_eq_some_iff.mp ran
  cases found with
  | some cur =>
    obtain ⟨node, here, rfl⟩ := Option.map_eq_some_iff.mp inserted
    exact owned.overwrite (live_of_heap here) _
  | none =>
    obtain ⟨⟨count, allocated, keys⟩, buckets⟩ := owned
    obtain rfl := Option.some.inj inserted
    exact ⟨⟨count + 1, allocated.alloc _, by rw [Nat.cast_succ, keys]⟩, buckets⟩

theorem Owned.eraseLoop (owned : Owned table) {key : K} {idx fuel : ℕ} {prev cur : Option ℕ} {present : Bool}
    (ran : table.eraseLoop key idx fuel prev cur = some (table', present)) : Owned table' := by
  induction fuel generalizing prev cur with
  | zero => cases ran
  | succ fuel ih =>
    cases cur with
    | none => exact (Prod.mk.inj (Option.some.inj ran)).1 ▸ owned
    | some a =>
      obtain ⟨node, here, ran⟩ := Option.bind_eq_some_iff.mp ran
      split_ifs at ran with found
      · obtain ⟨next, unlinked, same⟩ := Option.map_eq_some_iff.mp ran
        exact (Prod.mk.inj same).1 ▸ owned.unlink (live_of_heap here) unlinked
      · exact ih ran

theorem Owned.call (owned : Owned table) {c : FiniteMap.Call K V} {reply : FiniteMap.Reply V}
    (ran : table.call bytes c = some (table', reply)) : Owned table' := by
  cases c with
  | insert key value =>
    obtain ⟨next, ran, same⟩ := Option.map_eq_some_iff.mp ran
    exact (Prod.mk.inj same).1 ▸ owned.insert ran
  | erase key =>
    obtain ⟨⟨next, present⟩, ran, same⟩ := Option.map_eq_some_iff.mp ran
    exact (Prod.mk.inj same).1 ▸ owned.eraseLoop ran
  | find key =>
    obtain ⟨value, -, same⟩ := Option.map_eq_some_iff.mp ran
    exact (Prod.mk.inj same).1 ▸ owned

end Calls

/-! ## The destructor -/

/-- What deleting the nodes of a chain leaves of the table. -/
structure Deleted (nodes : List ℕ) (table table' : HashTable K V) : Prop where
  gone : ∀ a ∈ nodes, table'.heap a = none
  others : ∀ a, a ∉ nodes → table'.heap a = table.heap a
  fresh : table'.fresh = table.fresh
  buckets : table'.m_buckets = table.m_buckets

theorem deleteChain_spec {nodes : List ℕ} {fuel : ℕ} {first : Option ℕ} (linked : Linked table.nextOf first nodes)
    (there : ∀ a ∈ nodes, ∃ node, table.heap a = some node) (nodup : nodes.Nodup) (enough : nodes.length < fuel) :
    ∃ table', deleteChain fuel table first = some table' ∧ Deleted nodes table table' := by
  induction nodes generalizing table first fuel with
  | nil =>
    obtain rfl : first = none := linked
    cases fuel with
    | zero => exact absurd enough (Nat.not_lt_zero _)
    | succ fuel => exact ⟨table, rfl, fun a member => absurd member List.not_mem_nil, fun _ _ => rfl, rfl, rfl⟩
  | cons a rest ih =>
    obtain ⟨rfl, tail⟩ := linked
    obtain ⟨node, here⟩ := there a (List.mem_cons_self ..)
    obtain ⟨outside, nodup⟩ := List.nodup_cons.mp nodup
    rw [nextOf, here, Option.bind_some] at tail
    have kept {x : ℕ} (member : x ∈ rest) : (table.write a none).heap x = table.heap x :=
      Function.update_of_ne (ne_of_mem_of_not_mem member outside) ..
    cases fuel with
    | zero => exact absurd enough (Nat.not_lt_zero _)
    | succ fuel =>
      have tail' : Linked (table.write a none).nextOf node.next rest := by
        rw [nextOf_write]
        exact (Linked.update outside _).mpr tail
      obtain ⟨table', ran, deleted⟩ := ih tail'
        (fun x member => by rw [kept member]; exact there x (List.mem_cons_of_mem a member)) nodup
        (Nat.lt_of_succ_lt_succ enough)
      refine ⟨table', ?_, fun x member => ?_, fun x outside' => ?_, deleted.fresh, deleted.buckets⟩
      · rw [deleteChain, here]
        exact ran
      · rcases List.mem_cons.mp member with rfl | member
        · rw [deleted.others x outside]
          exact Function.update_self ..
        · exact deleted.gone x member
      · rw [List.mem_cons, not_or] at outside'
        obtain ⟨other, outside'⟩ := outside'
        rw [deleted.others x outside']
        exact Function.update_of_ne other ..

/-- The buckets of a list are emptied one after another. -/
theorem destroyLoop_spec {buckets : List ℕ} (sound : Sound bytes table chain) (nodup : buckets.Nodup) {now : HashTable K V}
    (fresh : now.fresh = table.fresh) (same : now.m_buckets = table.m_buckets)
    (left : ∀ i ∈ buckets, ∀ a ∈ chain i, now.heap a = table.heap a) :
    ∃ last, buckets.foldlM (fun table i => deleteChain (table.fresh + 1) table (table.m_buckets i)) now = some last ∧
      (∀ i ∈ buckets, ∀ a ∈ chain i, last.heap a = none) ∧
      ∀ a, (∀ i ∈ buckets, a ∉ chain i) → last.heap a = now.heap a := by
  induction buckets generalizing now with
  | nil => exact ⟨now, rfl, fun i member => absurd member List.not_mem_nil, fun _ _ => rfl⟩
  | cons i rest ih =>
    obtain ⟨outside, nodup⟩ := List.nodup_cons.mp nodup
    have here := left i (List.mem_cons_self ..)
    have linked : Linked now.nextOf (now.m_buckets i) (chain i) := by
      rw [same]
      refine (sound.linked i).congr fun a member => ?_
      rw [nextOf, nextOf, here a member]
    have there : ∀ a ∈ chain i, ∃ node, now.heap a = some node := fun a member => by
      rw [here a member]
      exact sound.allocated member
    have short : (chain i).length < now.fresh + 1 := by
      rw [fresh]
      exact Nat.lt_succ_of_le (sound.length_le i)
    obtain ⟨next, ran, deleted⟩ := deleteChain_spec linked there (sound.nodup i) short
    have apart {j a : ℕ} (later : j ∈ rest) (member : a ∈ chain j) : a ∉ chain i := fun inside =>
      ne_of_mem_of_not_mem later outside (sound.apart member inside)
    obtain ⟨last, ran', gone, others⟩ := ih nodup (deleted.fresh.trans fresh) (deleted.buckets.trans same)
      fun j later a member => (deleted.others a (apart later member)).trans
        (left j (List.mem_cons_of_mem i later) a member)
    refine ⟨last, ?_, fun j member a inside => ?_, fun a out => ?_⟩
    · rw [List.foldlM_cons, ran]
      exact ran'
    · rcases List.mem_cons.mp member with rfl | later
      · rw [others a fun k later other => apart later other inside]
        exact deleted.gone a inside
      · exact gone j later a inside
    · rw [others a fun j later => out j (List.mem_cons_of_mem i later)]
      exact deleted.others a (out i (List.mem_cons_self ..))

section Covered

variable {d : Finmap fun _ : List UInt8 => V}

/-- The nodes of the chains of all buckets. -/
def stored (table : HashTable K V) (chain : ℕ → List ℕ) : Finset ℕ :=
  (Finset.range table.m_bucketCount).biUnion fun i => (chain i).toFinset

theorem mem_stored {a : ℕ} : a ∈ stored table chain ↔ ∃ i < table.m_bucketCount, a ∈ chain i := by
  simp [stored]

/-- A chain that is not empty belongs to a bucket. -/
theorem Sound.bucket (sound : Sound bytes table chain) (buckets : 0 < table.m_bucketCount) {i a : ℕ}
    (member : a ∈ chain i) : i < table.m_bucketCount := by
  obtain ⟨e, -, home⟩ := sound.home i a member
  exact home ▸ Nat.mod_lt _ buckets

/-- The chains hold every node in use. -/
theorem Owned.covered (owned : Owned table) (sound : Sound bytes table chain)
    (bindings : ∀ b v, d.lookup b = some v ↔ Bound bytes table chain b v) (number : table.m_count = d.keys.card) :
    live table.heap = stored table chain := by
  obtain ⟨⟨count, allocated, keys⟩, buckets⟩ := owned
  have held : ∀ a ∈ stored table chain, a ∈ live table.heap := by
    intro a member
    obtain ⟨i, -, member⟩ := mem_stored.mp member
    obtain ⟨node, here⟩ := sound.allocated member
    exact live_of_heap here
  have bound : d.keys.image some ⊆ (stored table chain).image (keyBytes bytes table) := by
    intro key member
    obtain ⟨b, present, rfl⟩ := Finset.mem_image.mp member
    obtain ⟨v, bound⟩ := Finmap.mem_iff.mp (Finmap.mem_keys.mp present)
    obtain ⟨i, a, inside, e, held, rfl, -⟩ := (bindings b v).mp bound
    refine Finset.mem_image.mpr ⟨a, mem_stored.mpr ⟨i, sound.bucket buckets inside, inside⟩, ?_⟩
    rw [keyBytes, held, Option.map_some]
  refine allocated.covered held ?_
  calc count = d.keys.card := by omega
    _ = (d.keys.image some).card := (Finset.card_image_of_injective _ (Option.some_injective _)).symm
    _ ≤ ((stored table chain).image (keyBytes bytes table)).card := Finset.card_le_card bound
    _ ≤ (stored table chain).card := Finset.card_image_le

/-- The destructor returns, and leaves no node. -/
theorem Owned.destroy (owned : Owned table) (refines : Refines bytes table d) :
    ∃ last, table.destroy = some last ∧ live last.heap = ∅ := by
  obtain ⟨chain, sound, bindings, number⟩ := refines
  obtain ⟨last, ran, gone, others⟩ := destroyLoop_spec sound (List.nodup_range (n := table.m_bucketCount)) rfl rfl
    fun _ _ _ _ => rfl
  refine ⟨last, ran, Set.eq_empty_of_forall_notMem fun a used => ?_⟩
  by_cases inside : a ∈ stored table chain
  · obtain ⟨i, bucket, member⟩ := mem_stored.mp inside
    rw [mem_live, gone i (List.mem_range.mpr bucket) a member] at used
    cases used
  · have unused : a ∉ live table.heap := by
      rw [owned.covered sound bindings number]
      exact inside
    rw [mem_live, others a fun i member there => inside (mem_stored.mpr ⟨i, List.mem_range.mp member, there⟩)] at used
    exact unused used

end Covered

/-- After every sequence of calls on a fresh table one node is in use for each key; the destructor then deletes
each of them, once, and nothing else. -/
theorem destructor_frees_all [BEq K] (coincides : ∀ a b : K, (a == b) = true ↔ bytes a = bytes b) {bucketCount : ℕ}
    (buckets : 0 < bucketCount) (list : List (FiniteMap.Call K V)) :
    ∃ table replies destroyed, FiniteMap.calls (call bytes) (create bucketCount) list = some (table, replies) ∧
      ((live table.heap).ncard : ℤ) = table.getCount ∧ table.destroy = some destroyed ∧ live destroyed.heap = ∅ := by
  obtain ⟨table, ran, refines, owned⟩ := FiniteMap.calls_refine (fun table d => Refines bytes table d ∧ Owned table)
    (fun table d c both => by
      obtain ⟨table', ran, refines⟩ := call_refines coincides both.1 c
      exact ⟨table', ran, refines, both.2.call ran⟩) list ⟨refines_create bytes bucketCount, owned_create buckets⟩
  obtain ⟨destroyed, ran', gone⟩ := owned.destroy refines
  obtain ⟨count, allocated, keys⟩ := owned.allocated
  exact ⟨table, _, destroyed, ran, by rw [allocated.count, keys, getCount], ran', gone⟩

/-- Eight-byte keys that share two buckets. -/
theorem destructor_frees_all_shared :
    let list : List (FiniteMap.Call (BitVec (8 * 8)) ℕ) := [.insert 1 10, .insert 2 20, .insert 3 30, .insert 2 21, .erase 1]
    ∃ table replies destroyed, FiniteMap.calls (call LittleEndian.store) (create 2) list = some (table, replies) ∧
      ((live table.heap).ncard : ℤ) = table.getCount ∧ table.destroy = some destroyed ∧ live destroyed.heap = ∅ :=
  destructor_frees_all (fun a b => by rw [beq_iff_eq, LittleEndian.store_injective.eq_iff]) (by decide) _

end LockFreeCore.HashTable
