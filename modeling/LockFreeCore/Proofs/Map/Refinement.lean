import LockFreeCore.Proofs.Map.Erase

/-! # The session table is a finite map

Whatever calls are made, the tree replies as a finite map does, and counts its keys.
-/

namespace LockFreeCore.Map

open FiniteMap RedBlack RedBlack.RBT

variable {K V : Type} [LinearOrder K]

/-- The map stores a search tree with the bindings of the finite map. -/
def Refines (m : Map K V) (d : Finmap fun _ : K => V) : Prop :=
  ∃ t, Sound m t ∧ ∀ k v, d.lookup k = some v ↔ Entry t.toList k v

theorem refines_empty [Inhabited K] [Inhabited V] : Refines (empty : Map K V) ∅ := by
  refine ⟨.nil, ⟨⟨rfl, trivial, ⟨m_nil, default, default, rfl⟩, .nil, nofun,
    Nat.one_pos⟩, trivial, rfl, .nil, rfl⟩, fun k v => ⟨nofun, ?_⟩⟩
  rintro ⟨cell, member, -⟩
  exact (List.not_mem_nil member).elim

/-- A call keeps the refinement, with the reply of the finite map. -/
theorem call_refines {m : Map K V} {d : Finmap fun _ : K => V} (refines : Refines m d) (c : Call K V) :
    ∃ m', m.call c = some (m', (answer id d c).2) ∧ Refines m' (answer id d c).1 := by
  obtain ⟨t, sound, entries⟩ := refines
  cases c with
  | insert key value =>
    obtain ⟨m', t', ran, sound', entries'⟩ := insert_spec sound key value
    refine ⟨m', by rw [call, ran]; rfl, t', sound', fun k v => ?_⟩
    rw [entries' k v, answer, lookup_insert_iff, entries, @eq_comm _ v]
    rfl
  | erase key =>
    obtain ⟨m', t', present, ran, sound', reported, entries', -⟩ := erase_spec sound key
    have reply : decide (key ∈ d) = present := by
      rw [Bool.eq_iff_iff, decide_eq_true_iff, Finmap.mem_iff, reported]
      exact exists_congr fun v => entries key v
    refine ⟨m', by rw [call, ran, answer, id, reply]; rfl, t', sound', fun k v => ?_⟩
    rw [entries' k v, answer, lookup_erase_iff, entries]
    rfl
  | find key =>
    obtain ⟨found, ran, reported⟩ := find_spec sound key
    have reply : d.lookup key = found := Option.ext fun v => (entries key v).trans (reported v).symm
    exact ⟨m, by rw [call, ran, answer, id, reply]; rfl, t, sound, entries⟩

/-- A map counts the keys of the finite map that it refines. -/
theorem Refines.getCount {m : Map K V} {d : Finmap fun _ : K => V} (refines : Refines m d) :
    m.getCount = d.keys.card := by
  obtain ⟨t, sound, entries⟩ := refines
  have keys : d.keys = (t.toList.map Cell.key).toFinset := by
    ext k
    rw [Finmap.mem_keys, Finmap.mem_iff, List.mem_toFinset, List.mem_map]
    constructor
    · rintro ⟨v, bound⟩
      obtain ⟨cell, member, same, -⟩ := (entries k v).mp bound
      exact ⟨cell, member, same⟩
    · rintro ⟨cell, member, same⟩
      exact ⟨cell.value, (entries k _).mpr ⟨cell, member, same, rfl⟩⟩
  have nodup : (t.toList.map Cell.key).Nodup :=
    (List.pairwise_map.mpr sound.ordered).imp fun less => less.ne
  rw [Map.getCount, sound.count, keys, List.toFinset_card_of_nodup nodup, List.length_map]

/-- On a fresh map every sequence of calls gives the replies and the count of a finite map. -/
theorem map_refines_finmap [Inhabited K] [Inhabited V] (list : List (Call K V)) :
    ∃ m, calls call (empty : Map K V) list = some (m, (answers id (∅ : Finmap fun _ : K => V) list).2) ∧
      m.getCount = (answers id (∅ : Finmap fun _ : K => V) list).1.keys.card := by
  obtain ⟨m, ran, refines⟩ := calls_refine Refines (fun _ _ c refines => call_refines refines c) list refines_empty
  exact ⟨m, ran, refines.getCount⟩

end LockFreeCore.Map
