import Mathlib.Data.Finmap

/-! # Calls on a finite map

What a sequence of insertions, removals and lookups reports, with keys told apart by what `told` makes
of them. A program whose every call keeps a refinement and gives the reply of the finite map gives its
replies in every sequence of calls.
-/

namespace FiniteMap

inductive Call (K V : Type*) where
  | insert (key : K) (value : V)
  | erase (key : K)
  | find (key : K)
deriving DecidableEq, Repr

inductive Reply (V : Type*) where
  | inserted
  | erased (present : Bool)
  | found (value : Option V)
deriving DecidableEq, Repr

variable {K V B σ : Type*} [DecidableEq B]

def answer (told : K → B) (d : Finmap fun _ : B => V) : Call K V → Finmap (fun _ : B => V) × Reply V
  | .insert key value => (d.insert (told key) value, .inserted)
  | .erase key => (d.erase (told key), .erased (decide (told key ∈ d)))
  | .find key => (d, .found (d.lookup (told key)))

def answers (told : K → B) (d : Finmap fun _ : B => V) : List (Call K V) → Finmap (fun _ : B => V) × List (Reply V)
  | [] => (d, [])
  | first :: rest =>
    let next := answer told d first
    let last := answers told next.1 rest
    (last.1, next.2 :: last.2)

/-- Calls one after another, with their replies in order. -/
def calls (call : σ → Call K V → Option (σ × Reply V)) (state : σ) : List (Call K V) → Option (σ × List (Reply V))
  | [] => some (state, [])
  | first :: rest => (call state first).bind fun next =>
      (calls call next.1 rest).map fun last => (last.1, next.2 :: last.2)

/-- A refinement that every call keeps is kept by every sequence of calls. -/
theorem calls_refine {call : σ → Call K V → Option (σ × Reply V)} {told : K → B}
    (Refines : σ → (Finmap fun _ : B => V) → Prop)
    (each : ∀ state d c, Refines state d →
      ∃ next, call state c = some (next, (answer told d c).2) ∧ Refines next (answer told d c).1)
    (list : List (Call K V)) {state : σ} {d : Finmap fun _ : B => V} (refines : Refines state d) :
    ∃ last, calls call state list = some (last, (answers told d list).2) ∧ Refines last (answers told d list).1 := by
  induction list generalizing state d with
  | nil => exact ⟨state, rfl, refines⟩
  | cons first rest ih =>
    obtain ⟨next, replied, refines⟩ := each state d first refines
    obtain ⟨last, replies, refines⟩ := ih refines
    refine ⟨last, ?_, refines⟩
    rw [calls, replied, Option.bind_some, replies]
    rfl

/-- An invariant under which every call returns is kept by every sequence of calls, and they return. -/
theorem calls_invariant {call : σ → Call K V → Option (σ × Reply V)} (I : σ → Prop)
    (each : ∀ state c, I state → ∃ next reply, call state c = some (next, reply) ∧ I next)
    (list : List (Call K V)) {state : σ} (holds : I state) :
    ∃ last replies, calls call state list = some (last, replies) ∧ I last := by
  induction list generalizing state with
  | nil => exact ⟨state, [], rfl, holds⟩
  | cons first rest ih =>
    obtain ⟨next, reply, replied, holds⟩ := each state first holds
    obtain ⟨last, replies, ran, holds⟩ := ih holds
    refine ⟨last, reply :: replies, ?_, holds⟩
    rw [calls, replied, Option.bind_some, ran]
    rfl

theorem lookup_insert_iff {d : Finmap fun _ : B => V} {b other : B} {value v : V} :
    (d.insert b value).lookup other = some v ↔ if other = b then v = value else d.lookup other = some v := by
  split_ifs with same
  · rw [same, Finmap.lookup_insert, Option.some_inj, eq_comm]
  · rw [Finmap.lookup_insert_of_ne _ same]

theorem lookup_erase_iff {d : Finmap fun _ : B => V} {b other : B} {v : V} :
    (d.erase b).lookup other = some v ↔ other ≠ b ∧ d.lookup other = some v := by
  by_cases same : other = b
  · rw [same, Finmap.lookup_erase]
    exact iff_of_false (Option.some_ne_none v).symm fun both => both.1 rfl
  · rw [Finmap.lookup_erase_ne same, and_iff_right same]

theorem card_keys_insert {d : Finmap fun _ : B => V} {b : B} (absent : b ∉ d) (value : V) :
    (d.insert b value).keys.card = d.keys.card + 1 := by
  have keys : (d.insert b value).keys = insert b d.keys := by
    ext other
    rw [Finmap.mem_keys, Finmap.mem_insert, Finset.mem_insert, Finmap.mem_keys]
  rw [keys, Finset.card_insert_of_notMem (by rwa [Finmap.mem_keys])]

theorem card_keys_insert_of_mem {d : Finmap fun _ : B => V} {b : B} (present : b ∈ d) (value : V) :
    (d.insert b value).keys.card = d.keys.card := by
  have keys : (d.insert b value).keys = d.keys := by
    ext other
    rw [Finmap.mem_keys, Finmap.mem_insert, Finmap.mem_keys]
    exact or_iff_right_of_imp fun same => same ▸ present
  rw [keys]

theorem card_keys_erase {d : Finmap fun _ : B => V} {b : B} (present : b ∈ d) :
    (d.erase b).keys.card + 1 = d.keys.card := by
  rw [Finmap.keys_erase, Finset.card_erase_add_one (by rwa [Finmap.mem_keys])]

end FiniteMap
