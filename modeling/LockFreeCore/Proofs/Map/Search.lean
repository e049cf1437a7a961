import LockFreeCore.Proofs.Map.Heap
import Mathlib

/-! # Searching the stored tree

The descent by a key ends at the node with that key, or at the place where it would be inserted:
everything before the place has a smaller key and everything after it a greater one. A sound map
stores a balanced search tree with a black root and counts its cells.
-/

namespace LockFreeCore.Map

open RedBlack RedBlack.RBT RedBlack.Spine

variable {K V : Type} {m : Map K V} {path : Spine (Cell K V)} {t : RBT (Cell K V)}

/-- The map has more addresses than cells. -/
theorem Stored.size (stored : Stored m t) : t.toList.length < m.next := by
  have nodup : (m_nil :: t.toList.map Cell.addr).Nodup := by
    refine List.nodup_cons.mpr ⟨fun member => ?_, stored.apart⟩
    obtain ⟨cell, inside, same⟩ := List.mem_map.mp member
    exact absurd same (Nat.ne_of_gt (stored.allocated cell inside).1)
  have inside : m_nil :: t.toList.map Cell.addr ⊆ List.range m.next := by
    intro a member
    rcases List.mem_cons.mp member with rfl | member
    · exact List.mem_range.mpr stored.started
    · obtain ⟨cell, inside, rfl⟩ := List.mem_map.mp member
      exact List.mem_range.mpr (stored.allocated cell inside).2
  have short := (List.Nodup.subperm nodup inside).length_le
  simp only [List.length_cons, List.length_map, List.length_range] at short
  exact short

theorem length_le_cells (path : Spine (Cell K V)) : path.length ≤ (cells path).length := by
  induction path with
  | nil => exact Nat.le_refl 0
  | cons f path ih =>
    simp only [cells, List.length_cons, List.length_append]
    omega

/-- A subtree and the path to it fit below the next address. -/
theorem Stored.size_rebuild (stored : Stored m (rebuild path t)) :
    t.toList.length + path.length < m.next := by
  have size := stored.size
  rw [(perm_rebuild path t).length_eq, List.length_append] at size
  have := length_le_cells path
  omega

variable [LinearOrder K]

/-- The descent by a key. -/
def zoom (key : K) (path : Spine (Cell K V)) : RBT (Cell K V) → Spine (Cell K V) × RBT (Cell K V)
  | .nil => (path, .nil)
  | .node c cell l r =>
    if key = cell.key then (path, .node c cell l r)
    else if key < cell.key then zoom key (⟨.left, c, cell, r⟩ :: path) l
    else zoom key (⟨.right, c, cell, l⟩ :: path) r

theorem rebuild_zoom (key : K) (path : Spine (Cell K V)) (t : RBT (Cell K V)) :
    rebuild (zoom key path t).1 (zoom key path t).2 = rebuild path t := by
  fun_induction zoom key path t with
  | case1 => rfl
  | case2 => rfl
  | case3 path c cell l r different less ih => exact ih
  | case4 path c cell l r different notless ih => exact ih

/-- The keys of a tree increase from left to right. -/
def Ordered (t : RBT (Cell K V)) : Prop := t.toList.Pairwise fun x y => x.key < y.key

/-- The key belongs at the end of the path. -/
structure Located (key : K) (path : Spine (Cell K V)) : Prop where
  before : ∀ cell ∈ before path, cell.key < key
  after : ∀ cell ∈ after path, key < cell.key

theorem located_zoom {key : K} (located : Located key path) (ordered : Ordered t) :
    Located key (zoom key path t).1 ∧
      ∀ c cell l r, (zoom key path t).2 = .node c cell l r → cell.key = key := by
  fun_induction zoom key path t with
  | case1 => exact ⟨located, nofun⟩
  | case2 path c cell l r same =>
    refine ⟨located, fun _ _ _ _ shape => ?_⟩
    cases shape
    exact same.symm
  | case3 path c cell l r different less ih =>
    obtain ⟨left, right, across⟩ := List.pairwise_append.mp ordered
    refine ih ⟨by simpa [before] using located.before, ?_⟩ left
    intro x member
    simp only [after, List.cons_append, List.mem_cons, List.mem_append] at member
    rcases member with rfl | member | member
    · exact less
    · exact less.trans ((List.pairwise_cons.mp right).1 x member)
    · exact located.after x member
  | case4 path c cell l r different notless ih =>
    obtain ⟨left, right, across⟩ := List.pairwise_append.mp ordered
    have greater : cell.key < key := lt_of_le_of_ne (not_lt.mp notless) (Ne.symm different)
    refine ih ⟨?_, by simpa [after] using located.after⟩ (List.pairwise_cons.mp right).2
    intro x member
    simp only [before, List.mem_append, List.mem_singleton] at member
    rcases member with member | member | rfl
    · exact located.before x member
    · exact (across x member cell (by simp)).trans greater
    · exact greater

/-- `findNode` follows the descent. -/
theorem findNode_spec (stored : Stored m (rebuild path t)) (key : K) {fuel : ℕ}
    (enough : t.toList.length + 1 ≤ fuel) :
    m.findNode key fuel (addr t) = some (addr (zoom key path t).2) := by
  obtain ⟨fuel, rfl⟩ : ∃ rest, fuel = rest + 1 := ⟨fuel - 1, by omega⟩
  induction t generalizing path fuel with
  | nil => rfl
  | node c cell l r ihl ihr =>
    have node := (rep_rebuild.mp stored.rep).1.1
    have real : cell.addr ≠ m_nil := Nat.ne_of_gt (stored.addr_pos node_ne_nil)
    rw [toList, List.length_append, List.length_cons] at enough
    obtain ⟨fuel, rfl⟩ : ∃ rest, fuel = rest + 1 := ⟨fuel - 1, by omega⟩
    rw [findNode, addr, if_pos real, node, zoom]
    simp only [Option.bind_eq_bind, Option.bind_some]
    split_ifs with same less
    · rfl
    · have below : Stored m (rebuild (⟨.left, c, cell, r⟩ :: path) l) := stored
      exact ihl below fuel (by omega)
    · have below : Stored m (rebuild (⟨.right, c, cell, l⟩ :: path) r) := stored
      exact ihr below fuel (by omega)

/-- The descent of `insert` ends at the same place when the key is not there. -/
theorem descend_spec (stored : Stored m (rebuild path t)) (key : K)
    (absent : (zoom key path t).2 = .nil) {fuel : ℕ} (enough : t.toList.length + 1 ≤ fuel) :
    m.descend key fuel (above path) (addr t) = some (above (zoom key path t).1) := by
  obtain ⟨fuel, rfl⟩ : ∃ rest, fuel = rest + 1 := ⟨fuel - 1, by omega⟩
  induction t generalizing path fuel with
  | nil => rfl
  | node c cell l r ihl ihr =>
    have node := (rep_rebuild.mp stored.rep).1.1
    have real : cell.addr ≠ m_nil := Nat.ne_of_gt (stored.addr_pos node_ne_nil)
    rw [toList, List.length_append, List.length_cons] at enough
    obtain ⟨fuel, rfl⟩ : ∃ rest, fuel = rest + 1 := ⟨fuel - 1, by omega⟩
    rw [zoom] at absent ⊢
    rw [descend, addr, if_pos real, node]
    simp only [Option.bind_eq_bind, Option.bind_some]
    split_ifs at absent ⊢ with same less
    · have below : Stored m (rebuild (⟨.left, c, cell, r⟩ :: path) l) := stored
      exact ihl below absent fuel (by omega)
    · have below : Stored m (rebuild (⟨.right, c, cell, l⟩ :: path) r) := stored
      exact ihr below absent fuel (by omega)

/-- The map stores the tree, which is a balanced search tree, and counts its cells. -/
structure Sound (m : Map K V) (t : RBT (Cell K V)) : Prop where
  stored : Stored m t
  balanced : t.Balanced
  black : t.color = .black
  ordered : Ordered t
  count : m.m_count = t.toList.length

/-- A cell of the list binds the key to the value. -/
def Entry (list : List (Cell K V)) (key : K) (value : V) : Prop :=
  ∃ cell ∈ list, cell.key = key ∧ cell.value = value

/-- In an ordered list a cell is the only one with its key. -/
theorem entry_split {before after : List (Cell K V)} {x : Cell K V}
    (ordered : (before ++ x :: after).Pairwise fun x y => x.key < y.key) (key : K) (value : V) :
    (Entry (before ++ x :: after) key value ↔
      if key = x.key then x.value = value else Entry (before ++ after) key value) ∧
    (key = x.key → ¬ Entry (before ++ after) key value) := by
  obtain ⟨left, right, across⟩ := List.pairwise_append.mp ordered
  have unique : key = x.key → ¬ Entry (before ++ after) key value := by
    rintro rfl ⟨cell, member, same, _⟩
    rcases List.mem_append.mp member with member | member
    · exact absurd same (across cell member x (by simp)).ne
    · exact absurd same ((List.pairwise_cons.mp right).1 cell member).ne'
  have shape : Entry (before ++ x :: after) key value ↔
      (x.key = key ∧ x.value = value) ∨ Entry (before ++ after) key value := by
    simp only [Entry, List.mem_append, List.mem_cons]
    constructor
    · rintro ⟨cell, member | rfl | member, found⟩
      · exact .inr ⟨cell, .inl member, found⟩
      · exact .inl found
      · exact .inr ⟨cell, .inr member, found⟩
    · rintro (found | ⟨cell, member | member, found⟩)
      · exact ⟨x, .inr (.inl rfl), found⟩
      · exact ⟨cell, .inl member, found⟩
      · exact ⟨cell, .inr (.inr member), found⟩
  refine ⟨?_, unique⟩
  rw [shape]
  split_ifs with same
  · exact ⟨fun either => either.elim (·.2) fun entry => absurd entry (unique same),
      fun found => .inl ⟨same.symm, found⟩⟩
  · exact or_iff_right fun found => same found.1.symm

/-- `findNode` on a sound map: the node with the key, or the place for one. -/
theorem Sound.lookup (sound : Sound m t) (key : K) :
    ∃ path u, rebuild path u = t ∧ zoom key [] t = (path, u) ∧
      m.findNode key m.next m.m_root = some (addr u) ∧ Located key path ∧
      ∀ c x l r, u = .node c x l r → x.key = key ∧ x.addr ≠ m_nil := by
  have stored : Stored m (rebuild [] t) := sound.stored
  have top : Located key ([] : Spine (Cell K V)) := ⟨by simp [Spine.before], by simp [Spine.after]⟩
  obtain ⟨located, hit⟩ := located_zoom top sound.ordered
  have whole : rebuild (zoom key [] t).1 (zoom key [] t).2 = t := rebuild_zoom key [] t
  refine ⟨_, _, whole, rfl, ?_, located, fun c x l r shape => ⟨hit c x l r shape, ?_⟩⟩
  · rw [sound.stored.root]
    exact findNode_spec stored key sound.stored.size
  · rw [shape] at whole
    have inner : Stored m (rebuild _ (.node c x l r)) := whole.symm ▸ sound.stored
    exact Nat.ne_of_gt (inner.addr_pos node_ne_nil)

/-- A key that belongs at the end of the path is not in the tree without it. -/
theorem Located.absent {key : K} (located : Located key path) (value : V) :
    ¬ Entry (rebuild path .nil).toList key value := by
  rintro ⟨cell, member, rfl, _⟩
  rw [toList_rebuild, toList, List.append_nil] at member
  rcases List.mem_append.mp member with member | member
  · exact lt_irrefl _ (located.before cell member)
  · exact lt_irrefl _ (located.after cell member)

/-- `find` yields the value that the key is bound to, if it is. -/
theorem find_spec (sound : Sound m t) (key : K) :
    ∃ found, m.find key = some found ∧ ∀ value, found = some value ↔ Entry t.toList key value := by
  obtain ⟨path, u, rfl, -, here, located, hit⟩ := sound.lookup key
  rw [find, here]
  cases u with
  | nil => exact ⟨none, rfl, fun value => ⟨nofun, fun entry => (located.absent value entry).elim⟩⟩
  | node c x l r =>
    obtain ⟨rfl, real⟩ := hit c x l r rfl
    have node := (rep_rebuild.mp sound.stored.rep).1.1
    have ordered := sound.ordered
    have list : (rebuild path (.node c x l r)).toList =
        (before path ++ l.toList) ++ x :: (r.toList ++ after path) := by
      simp [toList_rebuild, toList]
    rw [Ordered, list] at ordered
    refine ⟨some x.value, ?_, fun value => ?_⟩
    · simp only [Option.bind_eq_bind, Option.bind_some, addr, if_neg real, node, Option.map_some]
    · rw [list, (entry_split ordered _ value).1, if_pos rfl, Option.some_inj]

end LockFreeCore.Map
