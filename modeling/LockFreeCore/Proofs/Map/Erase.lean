import LockFreeCore.Proofs.Map.EraseFixup
import LockFreeCore.Proofs.Map.Insert

/-! # Erasing a key

A node with at most one child is replaced by the child. Otherwise the leftmost node on its right,
which has no left child, is replaced by its own child and then takes the place of the erased node
and its colour. In both cases one node is gone from the tree, and the place where it was is short
of a black node when that node was black.
-/

namespace LockFreeCore.Map

open RedBlack RedBlack.RBT RedBlack.Spine

variable {K V : Type} {m : Map K V} {path : Spine (Cell K V)} {t : RBT (Cell K V)}

/-- Fewer cells in the same addresses. -/
theorem Stored.of_sublist {m' : Map K V} {t' : RBT (Cell K V)} (stored : Stored m t)
    (root : m'.m_root = addr t') (rep : Rep m'.heap m_nil t')
    (sentinel : ∃ p key value, m'.heap m_nil = some ⟨key, value, .black, m_nil, m_nil, p⟩)
    (fewer : t'.toList.Sublist t.toList) (next : m'.next = m.next) : Stored m' t' where
  root := root
  rep := rep
  sentinel := sentinel
  apart := (fewer.map Cell.addr).nodup stored.apart
  allocated := fun cell member => next ▸ stored.allocated cell (fewer.subset member)
  started := next ▸ stored.started

/-- Setting the parent of the root of a tree, or of the sentinel when there is none. -/
theorem hang_spec {p : Addr} (q : Addr) (rep : Rep m.heap p t)
    (sentinel : ∃ p key value, m.heap m_nil = some ⟨key, value, .black, m_nil, m_nil, p⟩)
    (apart : (t.toList.map Cell.addr).Nodup) (proper : ∀ cell ∈ t.toList, m_nil < cell.addr) :
    ∃ m', m.setParent (addr t) q = some m' ∧ Rep m'.heap q t ∧ m'.parent (addr t) = some q ∧
      (∃ p key value, m'.heap m_nil = some ⟨key, value, .black, m_nil, m_nil, p⟩) ∧
      (∀ a, a ≠ addr t → m'.heap a = m.heap a) ∧
      m'.m_root = m.m_root ∧ m'.next = m.next ∧ m'.m_count = m.m_count := by
  obtain ⟨p', key, value, nil⟩ := sentinel
  have frame (top : Node K V) (a : Addr) (out : a ≠ addr t) :
      (m.write (addr t) (some top)).heap a = m.heap a := heap_write_of_ne _ out
  cases t with
  | nil =>
    exact ⟨_, setParent_eq nil q, trivial, parent_eq (heap_write ..), ⟨_, _, _, heap_write ..⟩, frame _,
      rfl, rfl, rfl⟩
  | node c cell l r =>
    obtain ⟨here, left, right⟩ := rep
    have different : ∀ x ∈ l.toList ++ r.toList, x.addr ≠ cell.addr :=
      ne_head ((List.perm_middle.map Cell.addr).nodup_iff.mp apart)
    refine ⟨_, setParent_eq here q, ⟨heap_write .., ?_, ?_⟩, parent_eq (heap_write ..), ⟨p', key, value, ?_⟩,
      frame _, rfl, rfl, rfl⟩
    · exact left.congr fun x member => heap_write_of_ne _ (different x (by simp [member]))
    · exact right.congr fun x member => heap_write_of_ne _ (different x (by simp [member]))
    · exact (heap_write_of_ne _ (Nat.ne_of_lt (proper cell (by simp [toList])))).trans nil

/-- `transplant` puts the tree in the place of `u`, and its root, or the sentinel, under the node
above. -/
theorem transplant_spec {u p : Addr} {node : Node K V} (found : m.heap u = some node)
    (under : node.parent = above path) (prep : PathRep m.heap u path) (rep : Rep m.heap p t)
    (sentinel : ∃ p key value, m.heap m_nil = some ⟨key, value, .black, m_nil, m_nil, p⟩)
    (apart : (u :: (t.toList ++ cells path).map Cell.addr).Nodup)
    (real : m_nil < u) (proper : ∀ cell ∈ t.toList ++ cells path, m_nil < cell.addr) :
    ∃ m', m.transplant u (addr t) = some m' ∧ PathRep m'.heap (addr t) path ∧ Rep m'.heap (above path) t ∧
      m'.parent (addr t) = some (above path) ∧
      (∃ p key value, m'.heap m_nil = some ⟨key, value, .black, m_nil, m_nil, p⟩) ∧
      (∀ a, a ≠ addr t → a = m_nil ∨ a ≠ above path → m'.heap a = m.heap a) ∧
      m'.m_root = (if path = [] then addr t else m.m_root) ∧ m'.next = m.next ∧ m'.m_count = m.m_count := by
  obtain ⟨outside, inside⟩ := List.nodup_cons.mp apart
  have off_u : ∀ cell ∈ t.toList ++ cells path, cell.addr ≠ u := by
    rintro cell member rfl
    exact outside (List.mem_map_of_mem member)
  have off_above : ∀ cell ∈ t.toList, cell.addr ≠ above path :=
    ne_above inside fun cell member => proper cell (by simp [member])
  have off_root : ∀ cell ∈ cells path, cell.addr ≠ addr t :=
    ne_addr inside fun cell member => proper cell (by simp [member])
  have u_above : u ≠ above path := (above_ne real fun cell member => off_u cell (by simp [member])).symm
  rw [List.map_append, List.nodup_append] at inside
  obtain ⟨m₁, linked, path₁, same₁, root₁, next₁, count₁⟩ := relink_spec (v := addr t) .left prep inside.2.1
    (fun cell member => proper cell (by simp [member])) (by
      rintro f rest rfl
      exact (addr_ne real fun cell member => off_u cell (by simp [cells, member])).symm)
  have u₁ : m₁.heap u = some node := (same₁ u (.inr u_above)).trans found
  have rep₁ : Rep m₁.heap p t := rep.congr fun cell member => same₁ _ (.inr (off_above cell member))
  obtain ⟨m₂, hung, rep₂, under₂, nil₂, same₂, root₂, next₂, count₂⟩ := hang_spec (above path) rep₁
    (by rw [same₁ _ (.inl rfl)]; exact sentinel) inside.1 fun cell member => proper cell (by simp [member])
  refine ⟨m₂, ?_, path₁.congr fun cell member => same₂ _ (off_root cell member), rep₂, under₂, nil₂,
    fun a out side => (same₂ a out).trans (same₁ a side), root₂.trans root₁, next₂.trans next₁,
    count₂.trans count₁⟩
  rw [transplant, parent_eq found, under]
  simp only [Option.bind_eq_bind, Option.bind_some, linked, parent_eq u₁, under, hung]

/-- A node with a single child, or none, is replaced by it. -/
theorem splice_spec {side : Side} {c : Color} {z : Cell K V}
    (stored : Stored m (rebuild path (fork side c z t .nil))) :
    ∃ m', m.transplant z.addr (addr t) = some m' ∧ Stored m' (rebuild path t) ∧
      m'.parent (addr t) = some (above path) ∧ m'.heap z.addr = m.heap z.addr ∧
      m'.next = m.next ∧ m'.m_count = m.m_count := by
  have perm : ((fork side c z t .nil).toList ++ cells path).Perm (z :: (t.toList ++ cells path)) := by
    simpa [toList] using (perm_fork side c z t .nil).append_right (cells path)
  have apart := (perm.map Cell.addr).nodup_iff.mp stored.apart_rebuild
  have proper : ∀ cell ∈ z :: (t.toList ++ cells path), m_nil < cell.addr :=
    fun cell member => (stored.allocated_rebuild cell (perm.mem_iff.mpr member)).1
  obtain ⟨rep, prep⟩ := rep_rebuild.mp stored.rep
  obtain ⟨node, below, -⟩ := rep_fork.mp rep
  rw [addr_fork] at prep
  have off : ∀ cell ∈ t.toList ++ cells path, cell.addr ≠ z.addr := ne_head apart
  obtain ⟨m', ran, path', rep', hung, nil', frame, root, next, count⟩ :=
    transplant_spec node (parent_forkNode ..) prep below stored.sentinel apart (proper z (by simp))
      fun cell member => proper cell (by simp_all)
  refine ⟨m', ran, stored.of_sublist ?_ (rep_rebuild.mpr ⟨rep', path'⟩) nil' ?_ next, hung,
    frame _ ?_ (.inr ?_), next, count⟩
  · rw [root]
    cases path with
    | nil => rfl
    | cons f path => exact stored.root.trans (addr_rebuild_cons f path _ _)
  · rw [toList_rebuild, toList_rebuild]
    refine (List.Sublist.append_left ?_ _).append_right _
    cases side <;> simp [fork, toList]
  · exact (addr_ne (proper z (by simp)) fun cell member => off cell (by simp [member])).symm
  · exact (above_ne (proper z (by simp)) fun cell member => off cell (by simp [member])).symm

/-- `minimum` descends to a node without a left child, with nothing before it in the subtree. -/
theorem minimum_spec {fuel : ℕ} (stored : Stored m (rebuild path t)) (real : t ≠ .nil)
    (enough : t.toList.length ≤ fuel) :
    ∃ below d y x, t = rebuild below (.node d y .nil x) ∧ before below = [] ∧
      m.minimum fuel (addr t) = some y.addr := by
  induction t generalizing path fuel with
  | nil => contradiction
  | node c cell l r ihl _ =>
    have left := child_eq (rep_rebuild.mp stored.rep).1.1 .left
    rw [toList, List.length_append, List.length_cons] at enough
    obtain ⟨fuel, rfl⟩ : ∃ rest, fuel = rest + 1 := ⟨fuel - 1, by omega⟩
    rw [addr, minimum, left]
    simp only [Option.bind_eq_bind, Option.bind_some, Node.child]
    have inner : Stored m (rebuild (⟨.left, c, cell, r⟩ :: path) l) := stored
    by_cases leaf : l = .nil
    · subst leaf
      exact ⟨[], c, cell, r, rfl, rfl, if_neg (· rfl)⟩
    · obtain ⟨below, d, y, x, shape, first, ran⟩ := ihl inner leaf (show l.toList.length ≤ fuel by omega)
      refine ⟨below ++ [⟨.left, c, cell, r⟩], d, y, x, ?_, ?_, ?_⟩
      · rw [rebuild_append, ← shape]
        rfl
      · rw [before_append, first]
        rfl
      · rw [if_pos (Nat.ne_of_gt (inner.addr_pos leaf)), ran]

/-- The node `z` stands below the path with `l` on its left; `y` has nothing on its left and `r` on
its right. -/
structure Loose (m : Map K V) (path : Spine (Cell K V)) (c d : Color) (z y : Cell K V)
    (l r : RBT (Cell K V)) : Prop where
  prep : PathRep m.heap z.addr path
  node : ∃ right, m.heap z.addr = some ⟨z.key, z.value, c, addr l, right, above path⟩
  left : Rep m.heap z.addr l
  rep : ∃ p, Rep m.heap p (.node d y .nil r)
  sentinel : ∃ p key value, m.heap m_nil = some ⟨key, value, .black, m_nil, m_nil, p⟩

/-- The node `y` takes the place of `z`, its left subtree and its colour. -/
theorem replace_spec {c d : Color} {z y : Cell K V} {l r : RBT (Cell K V)} (loose : Loose m path c d z y l r)
    (apart : ((z :: y :: (l.toList ++ (r.toList ++ cells path))).map Cell.addr).Nodup)
    (proper : ∀ cell ∈ z :: y :: (l.toList ++ (r.toList ++ cells path)), m_nil < cell.addr) (real : l ≠ .nil) :
    ∃ m', (do
        let m ← m.transplant z.addr y.addr
        let m ← m.setChild .left y.addr (← m.child .left z.addr)
        let m ← m.setParent (← m.child .left y.addr) y.addr
        m.setColor y.addr (← m.color z.addr)) = some m' ∧
      PathRep m'.heap y.addr path ∧ Rep m'.heap (above path) (.node c y l r) ∧ m'.heap m_nil = m.heap m_nil ∧
      m'.m_root = (if path = [] then y.addr else m.m_root) ∧ m'.next = m.next ∧ m'.m_count = m.m_count := by
  obtain ⟨prep, ⟨right, node⟩, left, ⟨p, rep⟩, sentinel⟩ := loose
  have zy : z.addr ≠ y.addr := (ne_head apart y (by simp)).symm
  have inner := (List.nodup_cons.mp apart).2
  have off_y : ∀ cell ∈ l.toList ++ (r.toList ++ cells path), cell.addr ≠ y.addr := ne_head inner
  have off_above : ∀ cell ∈ z :: y :: (l.toList ++ r.toList), cell.addr ≠ above path := by
    refine ne_above ?_ fun cell member => proper cell ?_
    · simpa only [List.cons_append, List.append_assoc] using apart
    · simp only [List.mem_cons, List.mem_append] at member ⊢
      tauto
  have off_left : ∀ cell ∈ z :: y :: (r.toList ++ cells path), cell.addr ≠ addr l := by
    refine ne_addr (((?_ : List.Perm _ _).map Cell.addr).nodup_iff.mp apart) fun cell member => proper cell ?_
    · exact (List.perm_middle.trans (List.perm_middle.cons z)).symm
    · simp only [List.mem_cons, List.mem_append] at member ⊢
      tauto
  have nodup : (z.addr :: ((RBT.node d y .nil r).toList ++ cells path).map Cell.addr).Nodup :=
    apart.sublist (((List.sublist_append_right ..).cons_cons y).cons_cons z |>.map Cell.addr)
  have left_nodup : (l.toList.map Cell.addr).Nodup :=
    inner.sublist (((List.sublist_append_left ..).cons y).map Cell.addr)
  have nil_y : m_nil ≠ y.addr := Nat.ne_of_lt (proper y (by simp))
  have nil_left : m_nil ≠ addr l := by
    rcases addr_mem l with none | ⟨top, member, same⟩
    · cases l with
      | nil => contradiction
      | node c x _ _ => exact Nat.ne_of_lt (proper x (by simp [toList]))
    · rw [← same]
      exact Nat.ne_of_lt (proper top (by simp [member]))
  obtain ⟨m₁, ran, path₁, ⟨y₁, -, right₁⟩, -, nil₁, same₁, root₁, next₁, count₁⟩ :=
    transplant_spec node rfl prep rep sentinel nodup (proper z (by simp)) fun cell member => proper cell (by
      simp only [toList, List.nil_append, List.cons_append, List.mem_cons, List.mem_append] at member ⊢
      tauto)
  have z₁ := (same₁ _ zy (.inr (off_above z (by simp)))).trans node
  have left₁ : Rep m₁.heap z.addr l := left.congr fun cell member =>
    same₁ _ (off_y cell (by simp [member])) (.inr (off_above cell (by simp [member])))
  obtain ⟨m₂, write₂⟩ : ∃ m₂, m₂ = m₁.write y.addr
    (some ⟨y.key, y.value, d, addr l, addr r, above path⟩) := ⟨_, rfl⟩
  have same₂ (a : Addr) (out : a ≠ y.addr) : m₂.heap a = m₁.heap a := by rw [write₂, heap_write_of_ne _ out]
  have y₂ : m₂.heap y.addr = some ⟨y.key, y.value, d, addr l, addr r, above path⟩ := by rw [write₂, heap_write]
  obtain ⟨m₃, hung, left₃, -, nil₃, same₃, root₃, next₃, count₃⟩ := hang_spec y.addr
    (left₁.congr fun cell member => same₂ _ (off_y cell (by simp [member])))
    (by rw [same₂ _ nil_y]; exact nil₁) left_nodup fun cell member => proper cell (by simp [member])
  have y₃ := (same₃ _ (off_left y (by simp))).trans y₂
  have z₃ := (same₃ _ (off_left z (by simp))).trans ((same₂ _ zy).trans z₁)
  obtain ⟨m₄, write₄⟩ : ∃ m₄, m₄ = m₃.write y.addr
    (some ⟨y.key, y.value, c, addr l, addr r, above path⟩) := ⟨_, rfl⟩
  have same₄ (a : Addr) (out : a ≠ y.addr) : m₄.heap a = m₃.heap a := by rw [write₄, heap_write_of_ne _ out]
  have frame (a : Addr) (out : a ≠ y.addr) (side : a ≠ addr l) : m₄.heap a = m₁.heap a := by
    rw [same₄ a out, same₃ a side, same₂ a out]
  refine ⟨m₄, ?_, path₁.congr fun cell member => frame _ (off_y cell (by simp [member]))
    (off_left cell (by simp [member])), ⟨by rw [write₄, heap_write], ?_, ?_⟩, ?_, ?_, ?_, ?_⟩
  · rw [addr] at ran
    simp only [Option.bind_eq_bind, ran, Option.bind_some, child_eq z₁, Node.child, setChild_eq y₁,
      Node.setChild, ← write₂, child_eq y₂, hung, color_eq z₃, setColor_eq y₃, ← write₄]
  · exact left₃.congr fun cell member => same₄ _ (off_y cell (by simp [member]))
  · exact right₁.congr fun cell member => frame _ (off_y cell (by simp [member])) (off_left cell (by simp [member]))
  · rw [frame _ nil_y nil_left]
    exact same₁ _ nil_y (.inl rfl)
  · rw [write₄, ← addr.eq_2 d y .nil r, ← root₁]
    exact root₃.trans (by rw [write₂]; rfl)
  · rw [write₄, ← next₁]
    exact next₃.trans (by rw [write₂]; rfl)
  · rw [write₄, ← count₁]
    exact count₃.trans (by rw [write₂]; rfl)

section Detach

variable {below : Spine (Cell K V)} {c d : Color} {z y : Cell K V} {l x : RBT (Cell K V)}

theorem perm_detach : (rebuild (below ++ ⟨.right, c, z, l⟩ :: path) (.node d y .nil x)).toList.Perm
    (z :: y :: (l.toList ++ ((rebuild below x).toList ++ cells path))) := by
  have inner : (rebuild below (.node d y .nil x)).toList.Perm (y :: (rebuild below x).toList) :=
    (perm_rebuild ..).trans ((perm_rebuild below x).symm.cons y)
  rw [rebuild_append]
  refine (perm_rebuild path _).trans ?_
  refine ((List.perm_middle.trans ((List.Perm.append_left _ inner).cons z)).append_right _).trans ?_
  rw [List.cons_append, List.append_assoc, List.cons_append]
  exact List.perm_middle.cons z

/-- The leftmost node `y` on the right of `z` is taken out, and gets the rest as its own right. -/
theorem detach_spec (stored : Stored m (rebuild (below ++ ⟨.right, c, z, l⟩ :: path) (.node d y .nil x))) :
    ∃ m', (do
        if (← m.parent y.addr) = z.addr then m.setParent (addr x) y.addr
        else do
          let m ← m.transplant y.addr (addr x)
          let m ← m.setChild .right y.addr (← m.child .right z.addr)
          m.setParent (← m.child .right y.addr) y.addr) = some m' ∧
      Loose m' path c d z y l (rebuild below x) ∧
      (x = .nil → m'.parent m_nil = some (above (below ++ ⟨.right, c, y, l⟩ :: path))) ∧
      m'.m_root = m.m_root ∧ m'.next = m.next ∧ m'.m_count = m.m_count := by
  have apart := (perm_detach.map Cell.addr).nodup_iff.mp stored.apart
  have proper : ∀ cell ∈ z :: y :: (l.toList ++ ((rebuild below x).toList ++ cells path)), m_nil < cell.addr :=
    fun cell member => (stored.allocated cell (perm_detach.mem_iff.mpr member)).1
  have zy : z.addr ≠ y.addr := (ne_head apart y (by simp)).symm
  have inner := (List.nodup_cons.mp apart).2
  have off_y : ∀ cell ∈ l.toList ++ ((rebuild below x).toList ++ cells path), cell.addr ≠ y.addr := ne_head inner
  have off_rest : ∀ cell ∈ z :: y :: (l.toList ++ cells path), cell.addr ≠ addr (rebuild below x) := by
    refine ne_addr (((?_ : List.Perm _ _).map Cell.addr).nodup_iff.mp apart) fun cell member => proper cell ?_
    · refine List.Perm.symm (List.perm_middle.trans (List.Perm.cons z (List.perm_middle.trans ?_)))
      exact List.Perm.cons y (List.perm_append_comm_assoc ..)
    · simp only [List.mem_cons, List.mem_append] at member ⊢
      tauto
  have nodup : ((rebuild below x).toList.map Cell.addr).Nodup := by
    refine inner.sublist (List.Sublist.map _ (.cons y ?_))
    exact .trans (List.sublist_append_left ..) (List.sublist_append_right ..)
  have nil_y : m_nil ≠ y.addr := Nat.ne_of_lt (proper y (by simp))
  have under : m.parent y.addr = some (above (below ++ ⟨.right, c, z, l⟩ :: path)) := stored.parent node_ne_nil
  rw [under]
  simp only [Option.bind_eq_bind, Option.bind_some]
  cases below with
  | nil =>
    obtain ⟨⟨node, inside⟩, frame, left, prep⟩ := rep_rebuild.mp stored.rep
    obtain ⟨m', ran, rep, hung, nil, same, root, next, count⟩ := hang_spec y.addr inside.2 stored.sentinel nodup
      fun cell member => proper cell (by simp_all [rebuild])
    have y' := (same _ (off_rest y (by simp))).trans node
    refine ⟨m', (if_pos rfl).trans ran, ⟨?_, ⟨y.addr, ?_⟩, ?_, ⟨z.addr, y', trivial, rep⟩, nil⟩, ?_, root, next,
      count⟩
    · exact prep.congr fun cell member => same _ (off_rest cell (by simp [member]))
    · exact (same _ (off_rest z (by simp))).trans frame
    · exact left.congr fun cell member => same _ (off_rest cell (by simp [member]))
    · rintro rfl
      exact hung
  | cons f below =>
    have member : f.value ∈ (rebuild (f :: below) x).toList := (perm_rebuild _ _).mem_iff.mpr (by simp [cells])
    have far : f.value.addr ≠ z.addr := ne_head apart f.value (by simp [member])
    have forked : Stored m (rebuild (f :: below ++ ⟨.right, c, z, l⟩ :: path) (fork .right d y x .nil)) := stored
    obtain ⟨m₁, ran, stored₁, hung, y₁, next₁, count₁⟩ := splice_spec forked
    rw [(rep_rebuild.mp stored.rep).1.1] at y₁
    have root₁ : m₁.m_root = m.m_root :=
      stored₁.root.trans ((addr_rebuild_cons f _ _ _).trans stored.root.symm)
    rw [rebuild_append] at stored₁
    obtain ⟨rest₁, frame, left, prep⟩ := rep_rebuild.mp stored₁.rep
    obtain ⟨m₂, write₂⟩ : ∃ m₂, m₂ = m₁.write y.addr (some ⟨y.key, y.value, d,
      addr (.nil : RBT (Cell K V)), addr (rebuild (f :: below) x),
      above (f :: below ++ ⟨.right, c, z, l⟩ :: path)⟩) := ⟨_, rfl⟩
    have same₂ (a : Addr) (out : a ≠ y.addr) : m₂.heap a = m₁.heap a := by rw [write₂, heap_write_of_ne _ out]
    have y₂ : m₂.heap y.addr = some ⟨y.key, y.value, d, addr (.nil : RBT (Cell K V)),
      addr (rebuild (f :: below) x), above (f :: below ++ ⟨.right, c, z, l⟩ :: path)⟩ := by
      rw [write₂, heap_write]
    obtain ⟨m₃, moved, rest₃, -, nil₃, same₃, root₃, next₃, count₃⟩ := hang_spec y.addr
      (rest₁.congr fun cell member => same₂ _ (off_y cell (by simp [member])))
      (by rw [same₂ _ nil_y]; exact stored₁.sentinel) nodup fun cell member => proper cell (by simp [member])
    have same (a : Addr) (out : a ≠ y.addr) (side : a ≠ addr (rebuild (f :: below) x)) :
        m₃.heap a = m₁.heap a := (same₃ a side).trans (same₂ a out)
    refine ⟨m₃, ?_, ⟨?_, ⟨_, (same _ zy (off_rest z (by simp))).trans frame⟩, ?_,
      ⟨_, (same₃ _ (off_rest y (by simp))).trans y₂, trivial, rest₃⟩, nil₃⟩, ?_, ?_, ?_, ?_⟩
    · rw [List.cons_append, above, if_neg far, ran]
      simp only [Option.bind_some, child_eq frame, forkNode, Node.child, setChild_eq y₁, Node.setChild,
        ← write₂, child_eq y₂, moved]
    · exact prep.congr fun cell member =>
        same _ (off_y cell (by simp [member])) (off_rest cell (by simp [member]))
    · exact left.congr fun cell member =>
        same _ (off_y cell (by simp [member])) (off_rest cell (by simp [member]))
    · rintro rfl
      have nil_rest : m_nil ≠ addr (rebuild (f :: below) (.nil : RBT (Cell K V))) := by
        refine Nat.ne_of_lt (stored₁.addr_pos fun none => ?_)
        rw [none] at member
        exact List.not_mem_nil member
      rw [parent, same _ nil_y nil_rest]
      exact hung
    · rw [root₃, write₂]
      exact root₁
    · rw [next₃, write₂]
      exact next₁
    · rw [count₃, write₂]
      exact count₁

end Detach

/-- A node is gone, and `x` has moved up: without a red node all stays balanced, without a black one
the place of `x` is short of it. -/
structure Unlinked (m m' : Map K V) (place : Spine (Cell K V)) (x : RBT (Cell K V)) (d : Color)
    (rest : List (Cell K V)) : Prop where
  stored : Stored m' (rebuild place x)
  hung : m'.parent (addr x) = some (above place)
  balanced : x.Balanced
  red : d = .red → x.color = .black
  fits : Fits place (x.height + if d = .black then 1 else 0)
  list : (rebuild place x).toList = rest
  next : m'.next = m.next
  count : m'.m_count = m.m_count

/-- A place that is short of a black node is repaired. -/
theorem Unlinked.repaired {m m' : Map K V} {place : Spine (Cell K V)} {x : RBT (Cell K V)} {rest : List (Cell K V)}
    (unlinked : Unlinked m m' place x .black rest) :
    ∃ m₂, eraseFixupChecked m'.next m' (addr x) = some m₂ ∧ Stored m₂ (restore place x) ∧ Kept m' m₂ := by
  have size := unlinked.stored.size_rebuild
  have enough : place.length + 1 ≤ m'.next := by omega
  exact eraseFixupChecked_spec unlinked.stored unlinked.fits unlinked.balanced.blacken unlinked.hung enough

/-- A node with at most one child is replaced by it. -/
theorem unlink_single {side : Side} {c : Color} {z : Cell K V}
    (stored : Stored m (rebuild path (fork side c z t .nil)))
    (balanced : (rebuild path (fork side c z t .nil)).Balanced)
    (root : (rebuild path (fork side c z t .nil)).color = .black) :
    ∃ m', m.transplant z.addr (addr t) = some m' ∧
      Unlinked m m' path t c (before path ++ t.toList ++ after path) := by
  obtain ⟨m', ran, stored', hung, -, next, count⟩ := splice_spec stored
  obtain ⟨inner, red, fits⟩ := splice_fits balanced root
  exact ⟨m', ran, stored', hung, inner, red, fits, toList_rebuild .., next, count⟩

/-- `unlink` takes out one node of a balanced tree. -/
theorem unlink_spec {c : Color} {z : Cell K V} {l r : RBT (Cell K V)}
    (stored : Stored m (rebuild path (.node c z l r))) (balanced : (rebuild path (.node c z l r)).Balanced)
    (root : (rebuild path (.node c z l r)).color = .black) :
    ∃ m' place x d, m.unlink z.addr = some (m', addr x, d) ∧
      Unlinked m m' place x d (before path ++ (l.toList ++ r.toList) ++ after path) := by
  have node := (rep_rebuild.mp stored.rep).1.1
  have leftOf : Stored m (rebuild (⟨.left, c, z, r⟩ :: path) l) := stored
  have rightOf : Stored m (rebuild (⟨.right, c, z, l⟩ :: path) r) := stored
  rw [unlink, child_eq node, child_eq node, color_eq node]
  simp only [Option.bind_eq_bind, Option.bind_some, Node.child]
  by_cases noLeft : l = .nil
  · subst noLeft
    have forked : Stored m (rebuild path (fork .right c z r .nil)) := stored
    obtain ⟨m', ran, unlinked⟩ := unlink_single forked balanced root
    refine ⟨m', path, r, c, ?_, unlinked⟩
    rw [if_pos addr_nil, ran, Option.bind_some]
  rw [if_neg (Nat.ne_of_gt (leftOf.addr_pos noLeft))]
  by_cases noRight : r = .nil
  · subst noRight
    have forked : Stored m (rebuild path (fork .left c z l .nil)) := stored
    obtain ⟨m', ran, unlinked⟩ := unlink_single forked balanced root
    refine ⟨m', path, l, c, ?_, by rwa [toList, List.append_nil]⟩
    rw [if_pos addr_nil, ran, Option.bind_some]
  rw [if_neg (Nat.ne_of_gt (rightOf.addr_pos noRight))]
  have enough : r.toList.length ≤ m.next := by
    have := rightOf.size_rebuild
    omega
  obtain ⟨below, d, y, x, rfl, first, least⟩ := minimum_spec rightOf noRight enough
  -- `y` leaves its place, and takes that of `z`
  have deep : Stored m (rebuild (below ++ ⟨.right, c, z, l⟩ :: path) (.node d y .nil x)) := by
    rw [rebuild_append]
    exact stored
  obtain ⟨m₁, detached, loose, sentinel, root₁, next₁, count₁⟩ := detach_spec deep
  have apart := (perm_detach.map Cell.addr).nodup_iff.mp deep.apart
  obtain ⟨m₂, replaced, path₂, rep₂, nil₂, root₂, next₂, count₂⟩ := replace_spec loose apart
    (fun cell member => (deep.allocated cell (perm_detach.mem_iff.mpr member)).1) noLeft
  have list : (rebuild path (.node c y l (rebuild below x))).toList =
      before path ++ (l.toList ++ (rebuild below (.node d y .nil x)).toList) ++ after path := by
    simp [toList_rebuild, toList, first]
  have stored₂ : Stored m₂ (rebuild path (.node c y l (rebuild below x))) := by
    refine stored.of_sublist ?_ (rep_rebuild.mpr ⟨rep₂, path₂⟩) ?_ ?_ (next₂.trans next₁)
    · rw [root₂]
      cases path with
      | nil => rfl
      | cons f path => exact root₁.trans (stored.root.trans (addr_rebuild_cons f path _ _))
    · rw [nil₂]
      exact loose.sentinel
    · rw [list, toList_rebuild path]
      exact ((List.sublist_cons_self ..).append_left _ |>.append_left _).append_right _
  have shape : rebuild (below ++ ⟨.right, c, y, l⟩ :: path) x =
      rebuild path (.node c y l (rebuild below x)) := rebuild_append ..
  have forked : rebuild (below ++ ⟨.right, c, z, l⟩ :: path) (fork .right d y x .nil) =
      rebuild path (.node c z l (rebuild below (.node d y .nil x))) := rebuild_append ..
  rw [← forked] at balanced root
  obtain ⟨inner, red, fits⟩ := splice_fits balanced root
  rw [← shape] at stored₂ list
  refine ⟨m₂, below ++ ⟨.right, c, y, l⟩ :: path, x, d, ?_,
    ⟨stored₂, ?_, inner, red, fits.revalue y, list, next₂.trans next₁, count₂.trans count₁⟩⟩
  · have bottom := (rep_rebuild.mp deep.rep).1.1
    rw [least]
    simp only [Option.bind_some, color_eq bottom, child_eq bottom, Node.child]
    have tail := congrArg (Option.bind · fun m => some (m, addr x, d)) replaced
    simp only [Option.bind_eq_bind, Option.bind_assoc, Option.bind_some] at tail
    rw [← Option.bind_assoc]
    simp only [Option.bind_eq_bind] at detached
    rw [detached, Option.bind_some, tail]
  · cases x with
    | nil =>
      rw [parent, addr, nil₂]
      exact sentinel rfl
    | node e v s t => exact stored₂.parent node_ne_nil

variable [LinearOrder K]

omit [LinearOrder K] in
/-- A tree without values has no nodes. -/
theorem rebuild_eq_empty (empty : (rebuild path t).toList = []) : path = [] ∧ t = .nil := by
  rw [toList_rebuild, List.append_eq_nil_iff, List.append_eq_nil_iff] at empty
  obtain ⟨⟨front, inner⟩, back⟩ := empty
  refine ⟨?_, ?_⟩
  · cases path with
    | nil => rfl
    | cons f path => cases side : f.side <;> simp [before, after, side] at front back
  · cases t with
    | nil => rfl
    | node c cell l r => simp [toList] at inner

omit [LinearOrder K] in
/-- The root hangs under the sentinel, the sentinel itself included when it is the root. -/
theorem Stored.root_parent (stored : Stored m t) (empty : t = .nil → m.parent m_nil = some m_nil) :
    m.parent m.m_root = some m_nil := by
  rw [stored.root]
  cases t with
  | nil => exact empty rfl
  | node c cell l r =>
    have placed : Stored m (rebuild [] (.node c cell l r)) := stored
    exact placed.parent node_ne_nil

/-- A key that is there is taken out. -/
theorem erase_present {c : Color} {z : Cell K V} {l r : RBT (Cell K V)}
    (sound : Sound m (rebuild path (.node c z l r)))
    (found : m.findNode z.key m.next m.m_root = some z.addr) :
    ∃ m' t', m.erase z.key = some (m', true) ∧ Sound m' t' ∧
      t'.toList = (before path ++ l.toList) ++ (r.toList ++ after path) ∧
      m'.parent m'.m_root = some m_nil := by
  obtain ⟨stored, balanced, root, ordered, count⟩ := sound
  obtain ⟨m₁, place, x, d, ran, unlinked⟩ := unlink_spec stored balanced root
  have list₁ : (rebuild place x).toList = (before path ++ l.toList) ++ (r.toList ++ after path) := by
    rw [unlinked.list]
    simp
  obtain ⟨m₂, t', fixed, stored₂, balanced₂, black₂, list₂, kept₂⟩ : ∃ m₂ t',
      (if d = .black then eraseFixup m₁.next m₁ (addr x) else some m₁) = some m₂ ∧ Stored m₂ t' ∧
        t'.Balanced ∧ t'.color = .black ∧ t'.toList = (rebuild place x).toList ∧ Kept m₁ m₂ := by
    have fits := unlinked.fits
    cases d with
    | red =>
      have black := unlinked.red rfl
      exact ⟨m₁, _, rfl, unlinked.stored, rebuild_balanced fits unlinked.balanced (by simp [black]),
        rebuild_color fits fun _ => black, rfl, .refl m₁⟩
    | black =>
      obtain ⟨m₂, ran, stored₂, kept⟩ := unlinked.repaired
      obtain ⟨balanced₂, black₂⟩ := restore_balanced fits unlinked.balanced.blacken
      exact ⟨m₂, _, eraseFixup_of_checked ran, stored₂, balanced₂, black₂, toList_restore .., kept⟩
  have whole : (rebuild path (.node c z l r)).toList =
      (before path ++ l.toList) ++ z :: (r.toList ++ after path) := by
    simp [toList_rebuild, toList]
  have list : t'.toList = (before path ++ l.toList) ++ (r.toList ++ after path) := list₂.trans list₁
  have other : ∀ cell ∈ t'.toList, cell.addr ≠ z.addr := by
    have apart := stored.apart
    rw [whole] at apart
    rw [list]
    exact ne_head ((List.perm_middle.map Cell.addr).nodup_iff.mp apart)
  have real : m_nil < z.addr := (stored.allocated z (by rw [whole]; simp)).1
  have stored' := (stored₂.write_other none other real).with_count (m₂.m_count - 1)
  refine ⟨_, t', ?_, ⟨stored', balanced₂, black₂, ?_, ?_⟩, list, stored'.root_parent fun empty => ?_⟩
  · rw [erase, found]
    simp only [Option.bind_eq_bind, Option.bind_some, if_neg (Nat.ne_of_gt real), ran, fixed]
    rfl
  · rw [Ordered, whole] at ordered
    rw [Ordered, list]
    exact ordered.sublist ((List.sublist_cons_self ..).append_left _)
  · rw [list, kept₂.count, unlinked.count, count, whole]
    simp
    omega
  · -- the last node is gone, and `x` is the sentinel, hung where that node was
    rw [empty, toList] at list₂
    obtain ⟨rfl, rfl⟩ := rebuild_eq_empty list₂.symm
    rw [parent, heap_write_of_ne _ (Nat.ne_of_lt real), kept₂.sentinel]
    exact unlinked.hung

/-- `erase` reports whether the key was there, and leaves every other key alone. -/
theorem erase_spec (sound : Sound m t) (key : K) :
    ∃ m' t' present, m.erase key = some (m', present) ∧ Sound m' t' ∧
      (present = true ↔ ∃ v, Entry t.toList key v) ∧
      (∀ k v, Entry t'.toList k v ↔ k ≠ key ∧ Entry t.toList k v) ∧
      (m.parent m.m_root = some m_nil → m'.parent m'.m_root = some m_nil) := by
  obtain ⟨path, u, rfl, -, found, located, hit⟩ := sound.lookup key
  cases u with
  | nil =>
    refine ⟨m, _, false, ?_, sound, ⟨nofun, fun ⟨v, entry⟩ => (located.absent v entry).elim⟩, fun k v => ?_,
      id⟩
    · rw [erase, found]
      rfl
    · refine (and_iff_right_of_imp ?_).symm
      rintro entry rfl
      exact located.absent v entry
  | node c z l r =>
    obtain ⟨rfl, -⟩ := hit c z l r rfl
    obtain ⟨m', t', ran, sound', list, top⟩ := erase_present sound found
    have whole : (rebuild path (.node c z l r)).toList =
        (before path ++ l.toList) ++ z :: (r.toList ++ after path) := by
      simp [toList_rebuild, toList]
    have ordered := sound.ordered
    rw [Ordered, whole] at ordered
    refine ⟨m', t', true, ran, sound', ?_, fun k v => ?_, fun _ => top⟩
    · exact ⟨fun _ => ⟨z.value, z, by rw [whole]; simp, rfl, rfl⟩, fun _ => rfl⟩
    · obtain ⟨split, unique⟩ := entry_split ordered k v
      rw [whole, split, list]
      by_cases same : k = z.key
      · exact ⟨fun entry => (unique same entry).elim, fun both => (both.1 same).elim⟩
      · rw [if_neg same]
        exact (and_iff_right same).symm

end LockFreeCore.Map
