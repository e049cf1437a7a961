import LockFreeCore.Model.Benchmark
import LockFreeCore.Proofs.Map.Refinement
import LockFreeCore.Proofs.HashTable

/-! # The tests of the map and of the hash table succeed

A table that refines a finite map is followed through the rounds of the test: after each insertion the map
binds one key more to its value, after each removal one key less, and every lookup finds what is expected.
-/

namespace LockFreeCore.MapTest

variable {σ K B : Type} [DecidableEq B] {table : Table σ K} {key : ℕ → K} {told : ℕ → B} {rounds : ℕ}

/-- The table under test refines a finite map, and tells apart the keys of the test. -/
structure Sound (table : Table σ K) (key : ℕ → K) (told : ℕ → B) (rounds : ℕ)
    (Refines : σ → (Finmap fun _ : B => ℤ) → Prop) : Prop where
  apart : Set.InjOn told (Set.Iio rounds)
  insert : ∀ state d, Refines state d → ∀ i v, ∃ next, table.insert state (key i) v = some next ∧
    Refines next (d.insert (told i) v)
  erase : ∀ state d, Refines state d → ∀ i, ∃ next present, table.erase state (key i) = some (next, present) ∧
    Refines next (d.erase (told i))
  find : ∀ state d, Refines state d → ∀ i, table.find state (key i) = some (d.lookup (told i))
  getCount : ∀ state d, Refines state d → table.getCount state = d.keys.card

/-- The bindings of the keys of the test, and the number of all keys. -/
structure Holds (told : ℕ → B) (rounds : ℕ) (contents : ℕ → Option ℤ) (size : ℕ) (d : Finmap fun _ : B => ℤ) : Prop where
  lookup : ∀ i < rounds, d.lookup (told i) = contents i
  card : d.keys.card = size

variable {contents : ℕ → Option ℤ} {size i : ℕ} {d : Finmap fun _ : B => ℤ}

theorem Holds.insert (holds : Holds told rounds contents size d) (apart : Set.InjOn told (Set.Iio rounds))
    (bound : i < rounds) (absent : contents i = none) (v : ℤ) :
    Holds told rounds (Function.update contents i (some v)) (size + 1) (d.insert (told i) v) := by
  constructor
  · intro j inside
    by_cases same : j = i
    · rw [same, Finmap.lookup_insert, Function.update_self]
    · rw [Finmap.lookup_insert_of_ne _ fun told => same (apart inside bound told), Function.update_of_ne same,
        holds.lookup j inside]
  · have new : told i ∉ d := Finmap.lookup_eq_none.mp ((holds.lookup i bound).trans absent)
    rw [FiniteMap.card_keys_insert new, holds.card]

theorem Holds.erase (holds : Holds told rounds contents (size + 1) d) (apart : Set.InjOn told (Set.Iio rounds))
    (bound : i < rounds) {v : ℤ} (present : contents i = some v) :
    Holds told rounds (Function.update contents i none) size (d.erase (told i)) := by
  constructor
  · intro j inside
    by_cases same : j = i
    · rw [same, Finmap.lookup_erase, Function.update_self]
    · rw [Finmap.lookup_erase_ne fun told => same (apart inside bound told), Function.update_of_ne same,
        holds.lookup j inside]
  · have old : told i ∈ d := Finmap.mem_of_lookup_eq_some ((holds.lookup i bound).trans present)
    have fewer := FiniteMap.card_keys_erase old
    rw [holds.card] at fewer
    exact Nat.succ.inj fewer

/-- What the table holds after the first `i` insertions. -/
def filled (i j : ℕ) : Option ℤ := if j < i then some (stored j) else none

/-- What the table holds after the first `i` removals. -/
def thinned (i j : ℕ) : Option ℤ := if j % 2 = 0 ∧ j < 2 * i then none else some (stored j)

theorem filled_succ (i : ℕ) : filled (i + 1) = Function.update (filled i) i (some (stored i)) := by
  funext j
  rcases lt_trichotomy j i with less | rfl | more
  · rw [Function.update_of_ne less.ne, filled, filled, if_pos (by omega), if_pos less]
  · rw [Function.update_self, filled, if_pos (Nat.lt_succ_self j)]
  · rw [Function.update_of_ne more.ne', filled, filled, if_neg (by omega), if_neg (by omega)]

theorem thinned_succ (i : ℕ) : thinned (i + 1) = Function.update (thinned i) (2 * i) none := by
  funext j
  by_cases here : j = 2 * i
  · rw [here, Function.update_self, thinned, if_pos (by omega)]
  · rw [Function.update_of_ne here, thinned, thinned]
    congr 1
    exact propext (by omega)

section Rounds

variable {Refines : σ → (Finmap fun _ : B => ℤ) → Prop} {state : σ}

/-- A state of the table that refines a map with given bindings. -/
def Shows (Refines : σ → (Finmap fun _ : B => ℤ) → Prop) (told : ℕ → B) (rounds : ℕ) (contents : ℕ → Option ℤ) (size : ℕ)
    (state : σ) : Prop :=
  ∃ d, Refines state d ∧ Holds told rounds contents size d

theorem inserts_spec (sound : Sound table key told rounds Refines) (fresh : Refines state ∅) :
    ∃ full, Replay.replay (fun state i => table.insert state (key i) (stored i)) state (List.range' 0 rounds) = some full ∧
      Shows Refines told rounds (filled rounds) rounds full := by
  refine Replay.counted (fun i => Shows Refines told rounds (filled i) i) (fun i bound s shows => ?_)
    ⟨∅, fresh, fun j _ => Finmap.lookup_empty _, rfl⟩
  obtain ⟨d, refines, holds⟩ := shows
  obtain ⟨next, ran, refines⟩ := sound.insert s d refines i (stored i)
  rw [Nat.one_mul, filled_succ]
  exact ⟨next, ran, _, refines, holds.insert sound.apart bound (if_neg (Nat.lt_irrefl i)) _⟩

theorem erases_spec (sound : Sound table key told rounds Refines)
    (full : Shows Refines told rounds (thinned 0) rounds state) :
    ∃ rest, Replay.replay (fun state i => (table.erase state (key i)).map Prod.fst) state
        (List.range' 0 ((rounds + 1) / 2) 2) = some rest ∧
      Shows Refines told rounds (thinned ((rounds + 1) / 2)) (rounds - (rounds + 1) / 2) rest := by
  refine Replay.counted (fun i => Shows Refines told rounds (thinned i) (rounds - i)) (fun i bound s shows => ?_) full
  obtain ⟨d, refines, holds⟩ := shows
  obtain ⟨next, present, ran, refines⟩ := sound.erase s d refines (2 * i)
  have more : rounds - i = rounds - (i + 1) + 1 := by omega
  have there : thinned i (2 * i) = some (stored (2 * i)) := if_neg fun both => Nat.lt_irrefl _ both.2
  rw [more] at holds
  rw [thinned_succ, ran]
  exact ⟨next, rfl, _, refines, holds.erase sound.apart (by omega) there⟩

theorem lookups_spec (sound : Sound table key told rounds Refines) (shows : Shows Refines told rounds contents size state)
    {expected : ℕ → Option ℤ} (agree : ∀ i < rounds, contents i = expected i) (ok : Bool) :
    lookups table key state expected rounds ok = some ok := by
  obtain ⟨d, refines, holds⟩ := shows
  suffices run : ∃ last, lookups table key state expected rounds ok = some last ∧ last = ok by
    obtain ⟨last, run, rfl⟩ := run
    exact run
  refine Replay.counted (fun _ last => last = ok) (fun i bound s same => ⟨s, ?_, same⟩) rfl
  rw [Nat.one_mul, sound.find state d refines, holds.lookup i bound, agree i bound]
  cases s <;> simp

/-- A sound table passes the test for every number of keys. -/
theorem test_spec {fresh : σ} {count : ℤ} (sound : Sound table key told count.toNat Refines) (empty : Refines fresh ∅) :
    test table key fresh count = some (decide (0 ≤ count)) := by
  obtain ⟨full, inserted, shows⟩ := inserts_spec sound empty
  have whole : Shows Refines told count.toNat (thinned 0) count.toNat full := by
    obtain ⟨d, refines, holds⟩ := shows
    refine ⟨d, refines, fun i bound => ?_, holds.card⟩
    rw [holds.lookup i bound, filled, thinned, if_pos bound, if_neg (by omega)]
  obtain ⟨rest, erased, left⟩ := erases_spec sound whole
  have number : table.getCount full = count.toNat := by
    obtain ⟨d, refines, holds⟩ := shows
    rw [sound.getCount full d refines, holds.card]
  have number' : table.getCount rest = (count.toNat - (count.toNat + 1) / 2 : ℕ) := by
    obtain ⟨d, refines, holds⟩ := left
    rw [sound.getCount rest d refines, holds.card]
  have odd : ∀ i < count.toNat, thinned ((count.toNat + 1) / 2) i = if i % 2 = 0 then none else some (stored i) := by
    intro i bound
    rw [thinned]
    congr 1
    exact propext (and_iff_left_of_imp fun _ => by omega)
  simp only [test, inserted, erased, Option.bind_eq_bind, Option.bind_some, number, number',
    lookups_spec sound whole (fun i _ => if_neg fun both => Nat.not_lt_zero _ both.2), lookups_spec sound left odd]
  rcases lt_or_ge count 0 with negative | counts
  · simp [negative]
  · obtain ⟨n, rfl⟩ := Int.eq_ofNat_of_zero_le counts
    have rest : ((n - (n + 1) / 2 : ℕ) : ℤ) = n - ((n : ℤ) + 1).tdiv 2 := by
      rw [Int.tdiv_eq_ediv_of_nonneg (by omega)]
      omega
    simp [rest]

end Rounds

theorem map_sound (rounds : ℕ) : Sound (K := ℤ) ⟨fun map => map.insert, fun map => map.erase, fun map => map.find,
    Map.getCount⟩ (fun i => i) (fun i => (i : ℤ)) rounds Map.Refines where
  apart := fun i _ j _ same => Int.ofNat.inj same
  insert := fun m d refines i v => by
    obtain ⟨next, ran, refines⟩ := Map.call_refines refines (.insert (i : ℤ) v)
    obtain ⟨m', inserted, same⟩ := Option.map_eq_some_iff.mp ran
    obtain rfl : m' = next := congrArg Prod.fst same
    exact ⟨m', inserted, refines⟩
  erase := fun m d refines i => by
    obtain ⟨next, ran, refines⟩ := Map.call_refines refines (.erase (i : ℤ))
    obtain ⟨⟨m', present⟩, erased, same⟩ := Option.map_eq_some_iff.mp ran
    obtain rfl : m' = next := congrArg Prod.fst same
    exact ⟨m', present, erased, refines⟩
  find := fun m d refines i => by
    obtain ⟨next, ran, -⟩ := Map.call_refines refines (.find (i : ℤ))
    obtain ⟨found, looked, same⟩ := Option.map_eq_some_iff.mp ran
    cases same
    exact looked
  getCount := fun m d refines => refines.getCount

theorem hashTable_sound {rounds : ℕ} (words : rounds ≤ 2 ^ 64) : Sound ⟨HashTable.insert LittleEndian.store,
    HashTable.erase LittleEndian.store, HashTable.find LittleEndian.store, HashTable.getCount⟩
    (fun i => BitVec.ofNat (8 * 8) i) (fun i => LittleEndian.store (BitVec.ofNat (8 * 8) i)) rounds
    (HashTable.Refines LittleEndian.store) := by
  have coincides : ∀ a b : BitVec (8 * 8), (a == b) = true ↔ LittleEndian.store a = LittleEndian.store b := fun a b => by
    rw [beq_iff_eq, LittleEndian.store_injective.eq_iff]
  constructor
  · intro i inside j inside' same
    have numbers := congrArg BitVec.toNat (LittleEndian.store_injective same)
    simp only [BitVec.toNat_ofNat, Set.mem_Iio] at numbers inside inside'
    rwa [Nat.mod_eq_of_lt (by omega), Nat.mod_eq_of_lt (by omega)] at numbers
  · exact fun table d refines i v => HashTable.insert_refines coincides refines _ v
  · intro table d refines i
    obtain ⟨next, ran, refines⟩ := HashTable.erase_refines coincides refines (BitVec.ofNat (8 * 8) i)
    exact ⟨next, _, ran, refines⟩
  · exact fun table d refines i => HashTable.find_refines coincides refines _
  · rintro table d ⟨chain, -, -, count⟩
    exact count

/-- Both tables pass the test for every number of keys whose values are `int`s; for a negative one there is
nothing to insert, and its count is not met. -/
theorem tables_pass (count : ℤ) (fits : stored (count.toNat - 1) < 2 ^ 31) :
    testMap count = some (decide (0 ≤ count)) ∧ testHashTable count = some (decide (0 ≤ count)) := by
  have words : count.toNat ≤ 2 ^ 64 := by
    rw [stored] at fits
    omega
  exact ⟨test_spec (map_sound _) Map.refines_empty,
    test_spec (hashTable_sound words) (HashTable.refines_create _ 4099)⟩

/-- The number of keys with which the program runs both tests. -/
theorem tables_pass_10000 : testMap 10000 = some (decide ((0 : ℤ) ≤ 10000)) ∧
    testHashTable 10000 = some (decide ((0 : ℤ) ≤ 10000)) :=
  tables_pass 10000 (by decide)

end LockFreeCore.MapTest
