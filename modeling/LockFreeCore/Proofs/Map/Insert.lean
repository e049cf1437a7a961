import LockFreeCore.Proofs.Map.Fixup
import LockFreeCore.Proofs.Map.Search

/-! # Inserting a key

An insertion overwrites the value of a key that is there, and otherwise adds one cell at the key's
place and repairs the balance.
-/

namespace LockFreeCore.Map

open RedBlack RedBlack.RBT RedBlack.Spine

variable {K V : Type} [LinearOrder K] {m : Map K V} {path : Spine (Cell K V)} {t : RBT (Cell K V)}

/-- A cell that belongs at the end of the path keeps the tree ordered. -/
theorem ordered_insert {cell : Cell K V} (located : Located cell.key path)
    (ordered : Ordered (rebuild path .nil)) {list : List (Cell K V)}
    (shape : list = before path ++ cell :: after path) : list.Pairwise fun x y => x.key < y.key := by
  rw [Ordered, toList_rebuild, toList, List.append_nil] at ordered
  obtain ⟨left, right, across⟩ := List.pairwise_append.mp ordered
  rw [shape]
  refine List.pairwise_append.mpr ⟨left, List.pairwise_cons.mpr ⟨located.after, right⟩, ?_⟩
  intro x inside y member
  rcases List.mem_cons.mp member with rfl | member
  · exact located.before x inside
  · exact across x inside y member

/-- The side of the last frame is the one the comparison with its key gives. -/
theorem Located.side {key : K} {f : Frame (Cell K V)} (located : Located key (f :: path)) :
    (if key < f.value.key then Side.left else Side.right) = f.side := by
  cases shape : f.side with
  | left => exact if_pos (located.after f.value (by simp [Spine.after, shape]))
  | right => exact if_neg (located.before f.value (by simp [Spine.before, shape])).not_gt

/-- Hanging a new red node at the end of the path. -/
theorem link_spec {z : Cell K V} (stored : Stored m (rebuild path .nil)) (located : Located z.key path)
    (node : m.heap z.addr = some ⟨z.key, z.value, .red, m_nil, m_nil, above path⟩)
    (fresh : ∀ cell ∈ cells path, cell.addr ≠ z.addr) (proper : m_nil < z.addr ∧ z.addr < m.next) :
    ∃ m', (if above path = m_nil then some { m with m_root := z.addr }
        else (m.heap (above path)).bind fun y =>
          if z.key < y.key then m.setChild .left (above path) z.addr
          else m.setChild .right (above path) z.addr) = some m' ∧
      Stored m' (rebuild path (.node .red z .nil .nil)) ∧ m'.next = m.next ∧ m'.m_count = m.m_count := by
  have perm := perm_rebuild path (.node .red z .nil .nil)
  have apart : ((rebuild path (.node .red z .nil .nil)).toList.map Cell.addr).Nodup := by
    refine (perm.map _).nodup_iff.mpr (List.nodup_cons.mpr ⟨fun member => ?_, ?_⟩)
    · obtain ⟨cell, inside, same⟩ := List.mem_map.mp member
      exact fresh cell inside same
    · exact stored.apart_rebuild
  have allocated : ∀ cell ∈ (rebuild path (.node .red z .nil .nil)).toList,
      m_nil < cell.addr ∧ cell.addr < m.next := by
    intro cell member
    rcases List.mem_cons.mp (perm.mem_iff.mp member) with rfl | member
    · exact proper
    · exact stored.allocated_rebuild cell member
  cases path with
  | nil =>
    exact ⟨{ m with m_root := z.addr }, if_pos rfl,
      ⟨rfl, ⟨node, trivial, trivial⟩, stored.sentinel, apart, allocated, stored.started⟩, rfl, rfl⟩
  | cons f path =>
    have hf := stored.frame_node
    have real : m_nil < f.value.addr := (stored.allocated_rebuild f.value (by simp [cells])).1
    have other : f.value.addr ≠ z.addr := fresh f.value (by simp [cells])
    obtain ⟨-, -, sibling, rest⟩ := rep_rebuild.mp stored.rep
    have different : ∀ cell ∈ f.sibling.toList ++ cells path, cell.addr ≠ f.value.addr :=
      ne_head stored.apart_rebuild
    obtain ⟨m', write⟩ : ∃ m', m' = m.write f.value.addr
        (some (forkNode f.side f.value f.color z.addr (addr f.sibling) (above path))) := ⟨_, rfl⟩
    have ran : m.setChild f.side f.value.addr z.addr = some m' := by
      rw [setChild_eq hf, setChild_forkNode, write]
    have out (a : Addr) (apart : a ≠ f.value.addr) : m'.heap a = m.heap a := by
      rw [write, heap_write_of_ne _ apart]
    have key : (forkNode f.side f.value f.color (addr (.nil : RBT (Cell K V))) (addr f.sibling) (above path)).key =
        f.value.key := by cases f.side <;> rfl
    refine ⟨m', ?_, ⟨?_, rep_rebuild.mpr ⟨?_, ?_, ?_, ?_⟩, ?_, apart, write ▸ allocated, write ▸ stored.started⟩,
      write ▸ rfl, write ▸ rfl⟩
    · rw [above, if_neg (Nat.ne_of_gt real), hf, Option.bind_some, key, ← ran, ← located.side]
      split_ifs <;> rfl
    · rw [write]
      exact stored.root.trans (addr_rebuild_cons f path _ _)
    · exact ⟨(out _ other.symm).trans node, trivial, trivial⟩
    · rw [write]
      exact heap_write ..
    · exact sibling.congr fun cell member => out _ (different cell (by simp [member]))
    · exact rest.congr fun cell member => out _ (different cell (by simp [member]))
    · obtain ⟨p, key, value, nil⟩ := stored.sentinel
      exact ⟨p, key, value, (out _ (Nat.ne_of_lt real)).trans nil⟩

/-- A key that is there gets the new value. -/
theorem insert_present (sound : Sound m (rebuild path t)) {c : Color} {x : Cell K V} {l r : RBT (Cell K V)}
    (shape : t = .node c x l r) (value : V) :
    ∃ m' t', m.setValue x.addr value = some m' ∧ Sound m' t' ∧ ∀ k v,
      Entry t'.toList k v ↔ if k = x.key then value = v else Entry (rebuild path t).toList k v := by
  subst shape
  obtain ⟨stored, balanced, black, ordered, count⟩ := sound
  obtain ⟨m', ran, stored', kept⟩ := setValue_spec stored value
  obtain ⟨fits, inner, meet⟩ := fits_of_balanced balanced black
  have list (y : Cell K V) : (rebuild path (.node c y l r)).toList =
      (before path ++ l.toList) ++ y :: (r.toList ++ after path) := by
    simp [toList_rebuild, toList]
  have ordered' : Ordered (rebuild path (.node c { x with value } l r)) := by
    have keys := (List.pairwise_map (f := Cell.key)).mpr ordered
    refine (List.pairwise_map (f := Cell.key)).mp ?_
    rw [list] at keys ⊢
    simpa using keys
  refine ⟨m', rebuild path (.node c { x with value } l r), ran, ⟨stored',
    rebuild_balanced fits inner fun red => (meet red).1, rebuild_color fits fun top => ?_, ordered', ?_⟩, ?_⟩
  · subst top
    exact black
  · rw [kept.count, count, list, list]
    simp
  · intro k v
    rw [Ordered, list] at ordered ordered'
    rw [list, list, (entry_split ordered' k v).1, (entry_split ordered k v).1]
    split_ifs <;> rfl

/-- A key that is not there gets a cell of its own. -/
theorem insert_absent {key : K} (sound : Sound m (rebuild path .nil)) (located : Located key path)
    (place : zoom key [] (rebuild path .nil) = (path, .nil)) (value : V) :
    ∃ m' t', m.insert key value = some m' ∧ Sound m' t' ∧
      t'.toList = before path ++ ⟨m.next, key, value⟩ :: after path := by
  obtain ⟨stored, balanced, black, ordered, count⟩ := sound
  obtain ⟨fits, -, -⟩ := fits_of_balanced balanced black
  have fresh : ∀ cell ∈ (rebuild path .nil).toList, cell.addr ≠ m.next :=
    fun cell member => Nat.ne_of_lt (stored.allocated cell member).2
  -- the new node is allocated, and knows its parent
  obtain ⟨m₁, alloc⟩ : ∃ m₁ : Map K V, m₁ = { m.write m.next
    (some ⟨key, value, .red, m_nil, m_nil, m_nil⟩) with next := m.next + 1 } := ⟨_, rfl⟩
  have stored₁ : Stored m₁ (rebuild path .nil) := alloc ▸ stored.allocate _
  have node₁ : m₁.heap m.next = some ⟨key, value, .red, m_nil, m_nil, m_nil⟩ := by
    rw [alloc]
    exact heap_write ..
  have descended : m₁.descend key m₁.next m_nil m₁.m_root = some (above path) := by
    have start : Stored m₁ (rebuild [] (rebuild path .nil)) := stored₁
    rw [stored₁.root]
    have walk := descend_spec start key (by rw [place]) stored₁.size
    rwa [place] at walk
  obtain ⟨m₂, hung⟩ : ∃ m₂, m₂ = m₁.write m.next (some ⟨key, value, .red, m_nil, m_nil, above path⟩) := ⟨_, rfl⟩
  have stored₂ : Stored m₂ (rebuild path .nil) := hung ▸ stored₁.write_other _ fresh stored.started
  have next₂ : m₂.next = m.next + 1 := by rw [hung, alloc]; rfl
  have count₂ : m₂.m_count = m.m_count := by rw [hung, alloc]; rfl
  -- its parent takes it as a child
  obtain ⟨m₃, linked, stored₃, next₃, count₃⟩ := link_spec (z := ⟨m.next, key, value⟩) stored₂ located
    (by rw [hung, heap_write]) (fun cell member => fresh cell ((perm_rebuild path .nil).mem_iff.mpr
      (List.mem_append_right _ member))) ⟨stored.started, by rw [next₂]; exact Nat.lt_succ_self _⟩
  have leaf : (RBT.node .red (⟨m.next, key, value⟩ : Cell K V) .nil .nil).Balanced :=
    ⟨rfl, fun _ => ⟨rfl, rfl⟩, trivial, trivial⟩
  have enough : path.length + 1 ≤ m₃.next := by
    have := stored₃.size_rebuild
    omega
  obtain ⟨m', ran, stored', kept⟩ :=
    insertFixup_spec (stored₃.with_count (m₃.m_count + 1)) fits leaf rfl enough
  have list : (repair path (.node .red ⟨m.next, key, value⟩ .nil .nil)).toList =
      before path ++ ⟨m.next, key, value⟩ :: after path := by
    simp [toList_repair, toList_rebuild, toList]
  refine ⟨m', _, ?_, ⟨stored', repair_balanced fits leaf rfl, color_repair .., ordered_insert located ordered list,
    ?_⟩, list⟩
  · have start : Stored m (rebuild [] (rebuild path .nil)) := stored
    have found := findNode_spec start key stored.size
    rw [place] at found
    have none : addr (.nil : RBT (Cell K V)) = m_nil := rfl
    rw [insert, stored.root, found]
    simp only [Option.bind_eq_bind, Option.bind_some, none, ne_eq, not_true_eq_false, if_false]
    have root : (m.write m.next (some ⟨key, value, .red, m_nil, m_nil, m_nil⟩)).m_root = m₁.m_root := by
      rw [alloc]
    have start₁ : m.next + 1 = m₁.next := by rw [alloc]
    rw [← alloc, root, start₁, descended]
    simp only [Option.bind_some, setParent_eq node₁, ← hung, linked]
    exact ran
  · rw [kept.count, list]
    simp only [count₃, count₂, count, toList_rebuild, toList]
    simp [Int.add_assoc]

/-- `insert` binds the key to the value and leaves every other key alone. -/
theorem insert_spec (sound : Sound m t) (key : K) (value : V) :
    ∃ m' t', m.insert key value = some m' ∧ Sound m' t' ∧ ∀ k v,
      Entry t'.toList k v ↔ if k = key then value = v else Entry t.toList k v := by
  obtain ⟨path, u, rfl, place, found, located, hit⟩ := sound.lookup key
  cases u with
  | node c x l r =>
    -- the key is there: its value is overwritten
    obtain ⟨rfl, real⟩ := hit c x l r rfl
    obtain ⟨m', t', ran, sound', entries⟩ := insert_present sound rfl value
    refine ⟨m', t', ?_, sound', entries⟩
    rw [insert, found]
    exact (if_pos real).trans ran
  | nil =>
    obtain ⟨m', t', ran, sound', list⟩ := insert_absent sound located place value
    refine ⟨m', t', ran, sound', fun k v => ?_⟩
    have ordered : t'.toList.Pairwise fun x y => x.key < y.key := sound'.ordered
    rw [list] at ordered ⊢
    rw [(entry_split ordered k v).1, toList_rebuild, toList, List.append_nil]

end LockFreeCore.Map
