import LockFreeCore.Model.Map

/-! # Trees in the heap

A tree of cells is represented when each of its nodes stands at the cell's address with the pointers
that the tree gives it; a path is represented when its frames do, around a hole. A map stores a
tree. Changing a colour, and a rotation, turn the stored tree into another one and leave the
sentinel alone.
-/

namespace LockFreeCore.Map

open RedBlack RedBlack.RBT RedBlack.Spine

variable {K V : Type}

/-- What a node holds that no rotation or recolouring changes, and where it stands. -/
structure Cell (K V : Type) where
  addr : Addr
  key : K
  value : V

/-- The pointer to the root of a tree. -/
def addr : RBT (Cell K V) → Addr
  | .nil => m_nil
  | .node _ cell _ _ => cell.addr

theorem addr_nil : addr (.nil : RBT (Cell K V)) = m_nil := rfl

/-- The pointer to the node above. -/
def above : Spine (Cell K V) → Addr
  | [] => m_nil
  | f :: _ => f.value.addr

/-- A node seen from one of its sides. -/
def forkNode (side : Side) (cell : Cell K V) (color : Color) (near far parent : Addr) : Node K V :=
  match side with
  | .left => ⟨cell.key, cell.value, color, near, far, parent⟩
  | .right => ⟨cell.key, cell.value, color, far, near, parent⟩

section ForkNode

variable (side : Side) (cell : Cell K V) (c : Color) (near far p a : Addr)

@[simp] theorem addr_fork (s t : RBT (Cell K V)) : addr (fork side c cell s t) = cell.addr := by
  cases side <;> rfl

@[simp] theorem child_forkNode : (forkNode side cell c near far p).child side = near := by
  cases side <;> rfl

@[simp] theorem child_other_forkNode : (forkNode side cell c near far p).child side.other = far := by
  cases side <;> rfl

@[simp] theorem setChild_forkNode : (forkNode side cell c near far p).setChild side a =
    forkNode side cell c a far p := by cases side <;> rfl

@[simp] theorem setChild_other_forkNode : (forkNode side cell c near far p).setChild side.other a =
    forkNode side cell c near a p := by cases side <;> rfl

@[simp] theorem parent_forkNode : (forkNode side cell c near far p).parent = p := by cases side <;> rfl

@[simp] theorem color_forkNode : (forkNode side cell c near far p).color = c := by cases side <;> rfl

@[simp] theorem setParent_forkNode : { forkNode side cell c near far p with parent := a } =
    forkNode side cell c near far a := by cases side <;> rfl

@[simp] theorem setColor_forkNode (d : Color) : { forkNode side cell c near far p with color := d } =
    forkNode side cell d near far p := by cases side <;> rfl

end ForkNode

/-- The nodes of the tree stand in the heap, under the parent `p`. -/
def Rep (heap : Addr → Option (Node K V)) (p : Addr) : RBT (Cell K V) → Prop
  | .nil => True
  | .node c cell left right =>
      heap cell.addr = some ⟨cell.key, cell.value, c, addr left, addr right, p⟩ ∧
        Rep heap cell.addr left ∧ Rep heap cell.addr right

/-- The nodes of the path stand in the heap, with `hole` as the child below it. -/
def PathRep (heap : Addr → Option (Node K V)) (hole : Addr) : Spine (Cell K V) → Prop
  | [] => True
  | f :: path =>
      heap f.value.addr = some (forkNode f.side f.value f.color hole (addr f.sibling) (above path)) ∧
        Rep heap f.value.addr f.sibling ∧ PathRep heap f.value.addr path

variable {heap heap' : Addr → Option (Node K V)}

theorem rep_fork {side : Side} {c : Color} {cell : Cell K V} {near far : RBT (Cell K V)} {p : Addr} :
    Rep heap p (fork side c cell near far) ↔
      heap cell.addr = some (forkNode side cell c (addr near) (addr far) p) ∧
        Rep heap cell.addr near ∧ Rep heap cell.addr far := by
  cases side
  · exact Iff.rfl
  · exact and_congr_right fun _ => and_comm

/-- A tree is represented exactly when a subtree and the path to it are. -/
theorem rep_rebuild {path : Spine (Cell K V)} {t : RBT (Cell K V)} :
    Rep heap m_nil (rebuild path t) ↔ Rep heap (above path) t ∧ PathRep heap (addr t) path := by
  induction path generalizing t with
  | nil => exact (and_iff_left trivial).symm
  | cons f path ih =>
    rw [rebuild, ih, Frame.plug, rep_fork, addr_fork]
    constructor
    · rintro ⟨⟨node, below, sibling⟩, rest⟩
      exact ⟨below, node, sibling, rest⟩
    · rintro ⟨below, node, sibling, rest⟩
      exact ⟨⟨node, below, sibling⟩, rest⟩

theorem Rep.congr {p : Addr} {t : RBT (Cell K V)} (rep : Rep heap p t)
    (same : ∀ cell ∈ t.toList, heap' cell.addr = heap cell.addr) : Rep heap' p t := by
  induction t generalizing p with
  | nil => trivial
  | node c cell l r ihl ihr =>
    obtain ⟨node, left, right⟩ := rep
    exact ⟨(same cell (by simp [toList])).trans node,
      ihl left fun x member => same x (by simp [toList, member]),
      ihr right fun x member => same x (by simp [toList, member])⟩

/-- All cells of a path, in any order. -/
def cells : Spine (Cell K V) → List (Cell K V)
  | [] => []
  | f :: path => f.value :: (f.sibling.toList ++ cells path)

theorem PathRep.congr {hole : Addr} {path : Spine (Cell K V)} (rep : PathRep heap hole path)
    (same : ∀ cell ∈ cells path, heap' cell.addr = heap cell.addr) : PathRep heap' hole path := by
  induction path generalizing hole with
  | nil => trivial
  | cons f path ih =>
    obtain ⟨node, sibling, rest⟩ := rep
    exact ⟨(same _ (by simp [cells])).trans node,
      sibling.congr fun x member => same x (by simp [cells, member]),
      ih rest fun x member => same x (by simp [cells, member])⟩

theorem perm_fork (side : Side) (c : Color) (v : Cell K V) (near far : RBT (Cell K V)) :
    (fork side c v near far).toList.Perm (v :: (near.toList ++ far.toList)) := by
  cases side
  · exact List.perm_middle
  · exact List.perm_middle.trans (List.perm_append_comm.cons v)

theorem perm_rebuild (path : Spine (Cell K V)) (t : RBT (Cell K V)) :
    (rebuild path t).toList.Perm (t.toList ++ cells path) := by
  induction path generalizing t with
  | nil => simp [rebuild, cells]
  | cons f path ih =>
    refine (ih _).trans (((perm_fork ..).append_right _).trans ?_)
    rw [cells, List.cons_append, List.append_assoc]
    exact List.perm_middle.symm

/-- The map holds the tree; the sentinel is a black node without children. -/
structure Stored (m : Map K V) (t : RBT (Cell K V)) : Prop where
  root : m.m_root = addr t
  rep : Rep m.heap m_nil t
  sentinel : ∃ p key value, m.heap m_nil = some ⟨key, value, .black, m_nil, m_nil, p⟩
  apart : (t.toList.map Cell.addr).Nodup
  allocated : ∀ cell ∈ t.toList, m_nil < cell.addr ∧ cell.addr < m.next
  started : m_nil < m.next

/-- What an operation on the nodes of the tree leaves alone. -/
structure Kept (m m' : Map K V) : Prop where
  next : m'.next = m.next
  count : m'.m_count = m.m_count
  sentinel : m'.heap m_nil = m.heap m_nil

theorem Kept.refl (m : Map K V) : Kept m m := ⟨rfl, rfl, rfl⟩

theorem Kept.trans {m m' m'' : Map K V} (first : Kept m m') (second : Kept m' m'') : Kept m m'' :=
  ⟨second.1.trans first.1, second.2.trans first.2, second.3.trans first.3⟩

variable {m : Map K V}

@[simp] theorem heap_write (a : Addr) (node : Option (Node K V)) : (m.write a node).heap a = node :=
  Function.update_self ..

theorem heap_write_of_ne {a b : Addr} (node : Option (Node K V)) (apart : b ≠ a) :
    (m.write a node).heap b = m.heap b := Function.update_of_ne apart ..

section Access

variable {a : Addr} {node : Node K V} (found : m.heap a = some node)

include found

theorem child_eq (side : Side) : m.child side a = some (node.child side) := by rw [child, found]; rfl

theorem parent_eq : m.parent a = some node.parent := by rw [parent, found]; rfl

theorem color_eq : m.color a = some node.color := by rw [color, found]; rfl

theorem modify_eq (change : Node K V → Node K V) :
    m.modify a change = some (m.write a (some (change node))) := by rw [modify, found]; rfl

theorem setChild_eq (side : Side) (b : Addr) :
    m.setChild side a b = some (m.write a (some (node.setChild side b))) := modify_eq found _

theorem setParent_eq (b : Addr) :
    m.setParent a b = some (m.write a (some { node with parent := b })) := modify_eq found _

theorem setColor_eq (c : Color) :
    m.setColor a c = some (m.write a (some { node with color := c })) := modify_eq found _

end Access

namespace Stored

variable {path : Spine (Cell K V)} {t : RBT (Cell K V)}

/-- The cells of a subtree and of the path to it stand at different addresses. -/
theorem apart_rebuild (stored : Stored m (rebuild path t)) :
    ((t.toList ++ cells path).map Cell.addr).Nodup :=
  (((perm_rebuild path t).map _).nodup_iff).mp stored.apart

theorem allocated_rebuild (stored : Stored m (rebuild path t)) :
    ∀ cell ∈ t.toList ++ cells path, m_nil < cell.addr ∧ cell.addr < m.next :=
  fun cell member => stored.allocated cell ((perm_rebuild path t).mem_iff.mpr member)

/-- A changed heap stores the tree at the same addresses that it represents. -/
theorem of_rep {t' : RBT (Cell K V)} {m' : Map K V} (stored : Stored m t) (kept : Kept m m')
    (root : m'.m_root = addr t') (rep : Rep m'.heap m_nil t')
    (same : t'.toList.map Cell.addr = t.toList.map Cell.addr) : Stored m' t' where
  root := root
  rep := rep
  sentinel := kept.sentinel ▸ stored.sentinel
  apart := same ▸ stored.apart
  allocated := by
    intro cell member
    have moved : cell.addr ∈ t.toList.map Cell.addr := same ▸ List.mem_map_of_mem member
    obtain ⟨other, old, equal⟩ := List.mem_map.mp moved
    rw [← equal, kept.next]
    exact stored.allocated other old
  started := kept.next ▸ stored.started

end Stored

/-- Above a subtree the root does not depend on it. -/
theorem addr_rebuild_cons (f : Frame (Cell K V)) (path : Spine (Cell K V)) (t t' : RBT (Cell K V)) :
    addr (rebuild (f :: path) t) = addr (rebuild (f :: path) t') := by
  induction path generalizing f t t' with
  | nil => simp [rebuild, Frame.plug]
  | cons g path ih => exact ih g _ _

theorem addr_rebuild_congr (path : Spine (Cell K V)) {t t' : RBT (Cell K V)} (same : addr t = addr t') :
    addr (rebuild path t) = addr (rebuild path t') := by
  cases path with
  | nil => exact same
  | cons f path => exact addr_rebuild_cons f path t t'

section Apart

variable {path : Spine (Cell K V)} {t : RBT (Cell K V)} {s s' : List (Cell K V)} {x y : Cell K V} {a : Addr}

theorem ne_of_append (apart : ((s ++ s').map Cell.addr).Nodup) (left : x ∈ s) (right : y ∈ s') :
    x.addr ≠ y.addr := by
  rw [List.map_append, List.nodup_append] at apart
  exact apart.2.2 _ (List.mem_map_of_mem left) _ (List.mem_map_of_mem right)

/-- The first of the cells stands where no other does. -/
theorem ne_head (apart : ((x :: s).map Cell.addr).Nodup) : ∀ cell ∈ s, cell.addr ≠ x.addr :=
  fun _ member => (ne_of_append (s := [x]) apart (List.mem_singleton_self x) member).symm

/-- The root of a tree is the sentinel or one of its cells. -/
theorem addr_mem (t : RBT (Cell K V)) : addr t = m_nil ∨ ∃ cell ∈ t.toList, cell.addr = addr t := by
  cases t with
  | nil => exact .inl rfl
  | node c cell l r => exact .inr ⟨cell, by simp [toList], rfl⟩

theorem above_mem (path : Spine (Cell K V)) : above path = m_nil ∨ ∃ cell ∈ cells path, cell.addr = above path := by
  cases path with
  | nil => exact .inl rfl
  | cons f path => exact .inr ⟨f.value, by simp [cells], rfl⟩

/-- A node outside a tree is not its root. -/
theorem addr_ne (real : m_nil < a) (off : ∀ cell ∈ t.toList, cell.addr ≠ a) : addr t ≠ a := by
  rcases addr_mem t with none | ⟨root, inside, same⟩
  · rw [none]
    exact Nat.ne_of_lt real
  · rw [← same]
    exact off root inside

theorem above_ne (real : m_nil < a) (off : ∀ cell ∈ cells path, cell.addr ≠ a) : above path ≠ a := by
  rcases above_mem path with none | ⟨top, inside, same⟩
  · rw [none]
    exact Nat.ne_of_lt real
  · rw [← same]
    exact off top inside

theorem ne_addr (apart : ((t.toList ++ s).map Cell.addr).Nodup) (proper : ∀ cell ∈ s, m_nil < cell.addr) :
    ∀ cell ∈ s, cell.addr ≠ addr t :=
  fun cell member => (addr_ne (proper cell member) fun _ inside => ne_of_append apart inside member).symm

theorem ne_above (apart : ((s ++ cells path).map Cell.addr).Nodup) (proper : ∀ cell ∈ s, m_nil < cell.addr) :
    ∀ cell ∈ s, cell.addr ≠ above path :=
  fun cell member =>
    (above_ne (proper cell member) fun _ inside => (ne_of_append apart member inside).symm).symm

end Apart

/-- Changing the colour and the contents of a node of the tree. -/
theorem write_spec {path : Spine (Cell K V)} {side : Side} {c d : Color} {x y : Cell K V}
    {near far : RBT (Cell K V)} (stored : Stored m (rebuild path (fork side c x near far)))
    (place : y.addr = x.addr) :
    Stored (m.write x.addr (some (forkNode side y d (addr near) (addr far) (above path))))
        (rebuild path (fork side d y near far)) ∧
      Kept m (m.write x.addr (some (forkNode side y d (addr near) (addr far) (above path)))) := by
  have apart := stored.apart_rebuild
  have allocated := stored.allocated_rebuild
  obtain ⟨rep, prep⟩ := rep_rebuild.mp stored.rep
  obtain ⟨node, hnear, hfar⟩ := rep_fork.mp rep
  have list : (rebuild path (fork side d y near far)).toList.map Cell.addr =
      (rebuild path (fork side c x near far)).toList.map Cell.addr := by
    cases side <;> simp [toList_rebuild, fork, toList, place]
  have other : ∀ cell ∈ near.toList ++ far.toList ++ cells path, cell.addr ≠ x.addr :=
    ne_head ((((perm_fork side c x near far).append_right _).map Cell.addr).nodup_iff.mp apart)
  have proper : m_nil ≠ x.addr := Nat.ne_of_lt (allocated x (by cases side <;> simp [fork, toList])).1
  have kept : Kept m (m.write x.addr (some (forkNode side y d (addr near) (addr far) (above path)))) :=
    ⟨rfl, rfl, heap_write_of_ne _ proper⟩
  refine ⟨stored.of_rep kept (stored.root.trans (addr_rebuild_congr path (by simp [place])))
    (rep_rebuild.mpr ⟨rep_fork.mpr ⟨?_, ?_, ?_⟩, ?_⟩) list, kept⟩
  · rw [place, heap_write]
  · rw [place]
    exact hnear.congr fun cell member => heap_write_of_ne _ (other cell (by simp [member]))
  · rw [place]
    exact hfar.congr fun cell member => heap_write_of_ne _ (other cell (by simp [member]))
  · rw [addr_fork] at prep ⊢
    rw [place]
    exact prep.congr fun cell member => heap_write_of_ne _ (other cell (by simp [member]))

/-- Colouring a node of the tree. -/
theorem setColor_spec {path : Spine (Cell K V)} {side : Side} {c : Color} {x : Cell K V}
    {near far : RBT (Cell K V)} (stored : Stored m (rebuild path (fork side c x near far))) (d : Color) :
    ∃ m', m.setColor x.addr d = some m' ∧ Stored m' (rebuild path (fork side d x near far)) ∧ Kept m m' := by
  obtain ⟨stored', kept⟩ := write_spec (d := d) stored rfl
  refine ⟨_, ?_, stored', kept⟩
  rw [setColor_eq (rep_fork.mp (rep_rebuild.mp stored.rep).1).1, setColor_forkNode]

/-- Overwriting the value of a node of the tree. -/
theorem setValue_spec {path : Spine (Cell K V)} {c : Color} {x : Cell K V} {l r : RBT (Cell K V)}
    (stored : Stored m (rebuild path (.node c x l r))) (value : V) :
    ∃ m', m.setValue x.addr value = some m' ∧
      Stored m' (rebuild path (.node c { x with value } l r)) ∧ Kept m m' := by
  have forked : Stored m (rebuild path (fork .left c x l r)) := stored
  obtain ⟨stored', kept⟩ := write_spec (d := c) (y := { x with value }) forked rfl
  refine ⟨_, ?_, stored', kept⟩
  exact modify_eq (rep_rebuild.mp stored.rep).1.1 _

/-- Blackening the root of a subtree; on the sentinel it changes nothing. -/
theorem setColor_blacken {path : Spine (Cell K V)} {t : RBT (Cell K V)} (stored : Stored m (rebuild path t)) :
    ∃ m', m.setColor (addr t) .black = some m' ∧ Stored m' (rebuild path t.blacken) ∧ Kept m m' := by
  cases t with
  | nil =>
    obtain ⟨p, key, value, node⟩ := stored.sentinel
    refine ⟨m, ?_, stored, .refl m⟩
    have same : m.write m_nil (some ⟨key, value, .black, m_nil, m_nil, p⟩) = m := by
      rw [write, ← node, Function.update_eq_self]
    rw [addr, setColor_eq node]
    exact congrArg some same
  | node c cell l r =>
    have forked : Stored m (rebuild path (fork .left c cell l r)) := stored
    exact setColor_spec forked .black

/-- Putting `v` below the path in place of `u`. -/
theorem relink_spec {path : Spine (Cell K V)} {u v : Addr} (side : Side) (rep : PathRep m.heap u path)
    (apart : ((cells path).map Cell.addr).Nodup) (proper : ∀ cell ∈ cells path, m_nil < cell.addr)
    (other : ∀ f rest, path = f :: rest → u ≠ addr f.sibling) :
    ∃ m', m.relink side (above path) u v = some m' ∧ PathRep m'.heap v path ∧
      (∀ a, a = m_nil ∨ a ≠ above path → m'.heap a = m.heap a) ∧
      m'.m_root = (if path = [] then v else m.m_root) ∧ m'.next = m.next ∧ m'.m_count = m.m_count := by
  cases path with
  | nil => exact ⟨{ m with m_root := v }, if_pos rfl, trivial, fun _ _ => rfl, (if_pos rfl).symm, rfl, rfl⟩
  | cons f path =>
    obtain ⟨node, sibling, rest⟩ := rep
    have real : m_nil < f.value.addr := proper _ (by simp [cells])
    have different : ∀ cell ∈ f.sibling.toList ++ cells path, cell.addr ≠ f.value.addr := ne_head apart
    refine ⟨m.write f.value.addr
      (some (forkNode f.side f.value f.color v (addr f.sibling) (above path))), ?_, ⟨heap_write .., ?_, ?_⟩,
      ?_, rfl, rfl, rfl⟩
    · rw [relink, above, if_neg (Nat.ne_of_gt real)]
      by_cases own : side = f.side
      · simp [own, child_eq node, setChild_eq node]
      · obtain rfl := Side.eq_other own
        simp [child_eq node, setChild_eq node, other f path rfl]
    · exact sibling.congr fun cell member => heap_write_of_ne _ (different cell (by simp [member]))
    · exact rest.congr fun cell member => heap_write_of_ne _ (different cell (by simp [member]))
    · rintro a (rfl | apart)
      · exact heap_write_of_ne _ (Nat.ne_of_lt real)
      · exact heap_write_of_ne _ apart

/-- Moving a subtree under another parent. -/
theorem reparent_spec {t : RBT (Cell K V)} {p : Addr} (q : Addr) (rep : Rep m.heap p t)
    (apart : (t.toList.map Cell.addr).Nodup) (proper : ∀ cell ∈ t.toList, m_nil < cell.addr) :
    ∃ m', (if addr t ≠ m_nil then m.setParent (addr t) q else some m) = some m' ∧ Rep m'.heap q t ∧
      (∀ a, a = m_nil ∨ a ≠ addr t → m'.heap a = m.heap a) ∧
      m'.m_root = m.m_root ∧ m'.next = m.next ∧ m'.m_count = m.m_count := by
  cases t with
  | nil => exact ⟨m, rfl, trivial, fun _ _ => rfl, rfl, rfl, rfl⟩
  | node c cell l r =>
    obtain ⟨node, left, right⟩ := rep
    have real : m_nil < cell.addr := proper _ (by simp [toList])
    have different : ∀ x ∈ l.toList ++ r.toList, x.addr ≠ cell.addr :=
      ne_head ((List.perm_middle.map Cell.addr).nodup_iff.mp apart)
    refine ⟨m.write cell.addr (some ⟨cell.key, cell.value, c, addr l, addr r, q⟩), ?_,
      ⟨heap_write .., ?_, ?_⟩, ?_, rfl, rfl, rfl⟩
    · rw [addr, if_pos (Nat.ne_of_gt real), setParent_eq node]
    · exact left.congr fun x member => heap_write_of_ne _ (different x (by simp [member]))
    · exact right.congr fun x member => heap_write_of_ne _ (different x (by simp [member]))
    · rintro a (rfl | other)
      · exact heap_write_of_ne _ (Nat.ne_of_lt real)
      · exact heap_write_of_ne _ other

/-- A rotation brings up the other child of `x`. -/
theorem rotate_spec {path : Spine (Cell K V)} {side : Side} {c d : Color} {x y : Cell K V}
    {outer inner far : RBT (Cell K V)}
    (stored : Stored m (rebuild path (fork side c x outer (fork side d y inner far)))) :
    ∃ m', m.rotate side x.addr = some m' ∧
      Stored m' (rebuild path (fork side d y (fork side c x outer inner) far)) ∧ Kept m m' := by
  have perm : ((fork side c x outer (fork side d y inner far)).toList ++ cells path).Perm
      (x :: y :: (outer.toList ++ (inner.toList ++ (far.toList ++ cells path)))) := by
    refine ((perm_fork ..).append_right _).trans ?_
    rw [List.cons_append]
    refine List.Perm.cons x ?_
    refine ((List.Perm.append_left _ (perm_fork ..)).append_right _).trans ?_
    rw [List.append_assoc, List.cons_append]
    refine List.perm_middle.trans ?_
    simp
  have nodup := (perm.map Cell.addr).nodup_iff.mp stored.apart_rebuild
  have proper : ∀ cell ∈ x :: y :: (outer.toList ++ (inner.toList ++ (far.toList ++ cells path))),
      m_nil < cell.addr :=
    fun cell member => (stored.allocated_rebuild cell (perm.mem_iff.mpr member)).1
  have list : (fork side d y (fork side c x outer inner) far).toList =
      (fork side c x outer (fork side d y inner far)).toList := by
    cases side <;> simp [fork, toList]
  obtain ⟨rep, prep⟩ := rep_rebuild.mp stored.rep
  obtain ⟨hx, houter, hyrep⟩ := rep_fork.mp rep
  obtain ⟨hy, hinner, hfar⟩ := rep_fork.mp hyrep
  rw [addr_fork] at hx prep
  have xy : x.addr ≠ y.addr := (ne_head nodup y (by simp)).symm
  have off_x : ∀ cell ∈ outer.toList ++ (inner.toList ++ (far.toList ++ cells path)), cell.addr ≠ x.addr :=
    fun cell member => ne_head nodup cell (List.mem_cons_of_mem y member)
  have off_y : ∀ cell ∈ outer.toList ++ (inner.toList ++ (far.toList ++ cells path)), cell.addr ≠ y.addr :=
    ne_head (List.nodup_cons.mp nodup).2
  have off_inner : ∀ cell ∈ x :: y :: (outer.toList ++ (far.toList ++ cells path)), cell.addr ≠ addr inner := by
    refine ne_addr (((?_ : List.Perm _ _).map Cell.addr).nodup_iff.mp nodup) fun cell member =>
      proper cell ?_
    · refine List.Perm.symm (List.perm_middle.trans (List.Perm.cons x (List.perm_middle.trans ?_)))
      exact List.Perm.cons y (List.perm_append_comm_assoc ..)
    · simp only [List.mem_cons, List.mem_append] at member ⊢
      tauto
  have off_above : ∀ cell ∈ x :: y :: (outer.toList ++ (inner.toList ++ far.toList)), cell.addr ≠ above path := by
    refine ne_above ?_ fun cell member => proper cell ?_
    · simpa only [List.cons_append, List.append_assoc] using nodup
    · simp only [List.mem_cons, List.mem_append] at member ⊢
      tauto
  have inner_nodup : (inner.toList.map Cell.addr).Nodup := by
    refine nodup.sublist (List.Sublist.map _ ?_)
    exact .cons _ (.cons _ (.trans (List.sublist_append_left ..) (List.sublist_append_right ..)))
  have path_nodup : ((cells path).map Cell.addr).Nodup := by
    refine nodup.sublist (List.Sublist.map _ (.cons _ (.cons _ ?_)))
    simp only [← List.append_assoc]
    exact List.sublist_append_right ..
  have nil_x : m_nil ≠ x.addr := Nat.ne_of_lt (proper x (by simp))
  have nil_y : m_nil ≠ y.addr := Nat.ne_of_lt (proper y (by simp))
  clear nodup perm
  -- the inner subtree moves under `x`
  obtain ⟨m₂, moved, rep₂, same₂, root₂, next₂, count₂⟩ := reparent_spec
    (m := m.write x.addr (some (forkNode side x c (addr outer) (addr inner) (above path)))) x.addr
    (hinner.congr fun cell member => heap_write_of_ne _ (off_x cell (by simp [member]))) inner_nodup
    fun cell member => proper cell (by simp [member])
  have x₂ : m₂.heap x.addr = some (forkNode side x c (addr outer) (addr inner) (above path)) :=
    (same₂ _ (.inr (off_inner x (by simp)))).trans (heap_write ..)
  have y₂ : m₂.heap y.addr = some (forkNode side y d (addr inner) (addr far) x.addr) := by
    rw [same₂ _ (.inr (off_inner y (by simp))), heap_write_of_ne _ xy.symm, hy]
  have out₂ (a : Addr) (ax : a ≠ x.addr) (ai : a = m_nil ∨ a ≠ addr inner) : m₂.heap a = m.heap a :=
    (same₂ a ai).trans (heap_write_of_ne _ ax)
  -- `y` takes the place of `x` below the path
  obtain ⟨m₃, write₃⟩ : ∃ m₃, m₃ = m₂.write y.addr
    (some (forkNode side y d (addr inner) (addr far) (above path))) := ⟨_, rfl⟩
  have y₃ : m₃.heap y.addr = some (forkNode side y d (addr inner) (addr far) (above path)) := by
    rw [write₃, heap_write]
  have out₃ (a : Addr) (ay : a ≠ y.addr) : m₃.heap a = m₂.heap a := by rw [write₃, heap_write_of_ne _ ay]
  have x₃ := (out₃ _ xy).trans x₂
  have path₃ : PathRep m₃.heap x.addr path := prep.congr fun cell member =>
    (out₃ _ (off_y cell (by simp [member]))).trans
      (out₂ _ (off_x cell (by simp [member])) (.inr (off_inner cell (by simp [member]))))
  obtain ⟨m₄, linked, path₄, same₄, root₄, next₄, count₄⟩ := relink_spec (v := y.addr) side path₃ path_nodup
    (fun cell member => proper cell (by simp [member])) (by
      rintro f rest rfl
      exact (addr_ne (proper x (by simp)) fun root member => off_x root (by simp [cells, member])).symm)
  have x₄ := (same₄ _ (.inr (off_above x (by simp)))).trans x₃
  have y₄ := (same₄ _ (.inr (off_above y (by simp)))).trans y₃
  -- `x` becomes a child of `y`
  obtain ⟨m₅, write₅⟩ : ∃ m₅, m₅ = m₄.write y.addr
    (some (forkNode side y d x.addr (addr far) (above path))) := ⟨_, rfl⟩
  have out₅ (a : Addr) (ay : a ≠ y.addr) : m₅.heap a = m₄.heap a := by rw [write₅, heap_write_of_ne _ ay]
  have x₅ := (out₅ _ xy).trans x₄
  obtain ⟨m₆, write₆⟩ : ∃ m₆, m₆ = m₅.write x.addr
    (some (forkNode side x c (addr outer) (addr inner) y.addr)) := ⟨_, rfl⟩
  have out₆ (a : Addr) (ax : a ≠ x.addr) : m₆.heap a = m₅.heap a := by rw [write₆, heap_write_of_ne _ ax]
  have y₆ : m₆.heap y.addr = some (forkNode side y d x.addr (addr far) (above path)) := by
    rw [out₆ _ xy.symm, write₅, heap_write]
  have out (a : Addr) (ax : a ≠ x.addr) (ay : a ≠ y.addr) (ai : a = m_nil ∨ a ≠ addr inner)
      (ap : a = m_nil ∨ a ≠ above path) : m₆.heap a = m.heap a := by
    rw [out₆ a ax, out₅ a ay, same₄ a ap, out₃ a ay, out₂ a ax ai]
  have root : m₆.m_root = addr (rebuild path (fork side d y (fork side c x outer inner) far)) := by
    rw [write₆, write₅]
    refine root₄.trans ?_
    cases path with
    | nil => exact (addr_fork ..).symm
    | cons f path =>
      rw [if_neg (List.cons_ne_nil _ _), write₃]
      exact (root₂.trans stored.root).trans (addr_rebuild_cons f path _ _)
  have kept : Kept m m₆ := by
    refine ⟨?_, ?_, out _ nil_x nil_y (.inl rfl) (.inl rfl)⟩
    · rw [write₆, write₅]
      exact next₄.trans (by rw [write₃]; exact next₂)
    · rw [write₆, write₅]
      exact count₄.trans (by rw [write₃]; exact count₂)
  refine ⟨m₆, ?_, stored.of_rep kept root (rep_rebuild.mpr ⟨rep_fork.mpr ⟨?_, rep_fork.mpr ⟨?_, ?_, ?_⟩, ?_⟩, ?_⟩)
    (by rw [toList_rebuild_congr list]), kept⟩
  · rw [rotate]
    simp only [child_eq hx, child_other_forkNode, Option.bind_eq_bind, Option.bind_some, child_eq hy,
      child_forkNode, setChild_eq hx, setChild_other_forkNode, moved, parent_eq x₂,
      parent_forkNode, setParent_eq y₂, setParent_forkNode, ← write₃, parent_eq x₃, linked,
      setChild_eq y₄, setChild_forkNode, ← write₅, setParent_eq x₅, ← write₆]
  · rw [addr_fork]
    exact y₆
  · rw [write₆]
    exact heap_write ..
  · exact houter.congr fun cell member => out _ (off_x cell (by simp [member])) (off_y cell (by simp [member]))
      (.inr (off_inner cell (by simp [member]))) (.inr (off_above cell (by simp [member])))
  · refine rep₂.congr fun cell member => ?_
    rw [out₆ _ (off_x cell (by simp [member])), out₅ _ (off_y cell (by simp [member])),
      same₄ _ (.inr (off_above cell (by simp [member]))), out₃ _ (off_y cell (by simp [member]))]
  · exact hfar.congr fun cell member => out _ (off_x cell (by simp [member])) (off_y cell (by simp [member]))
      (.inr (off_inner cell (by simp [member]))) (.inr (off_above cell (by simp [member])))
  · rw [addr_fork]
    exact path₄.congr fun cell member =>
      (out₆ _ (off_x cell (by simp [member]))).trans (out₅ _ (off_y cell (by simp [member])))

/-- Allocating a node does not change the stored tree. -/
theorem Stored.allocate (stored : Stored m t) (node : Node K V) :
    Stored { m.write m.next (some node) with next := m.next + 1 } t where
  root := stored.root
  rep := stored.rep.congr fun cell member => heap_write_of_ne _ (Nat.ne_of_lt (stored.allocated cell member).2)
  sentinel := by
    obtain ⟨p, key, value, nil⟩ := stored.sentinel
    exact ⟨p, key, value, (heap_write_of_ne _ (Nat.ne_of_lt stored.started)).trans nil⟩
  apart := stored.apart
  allocated := fun cell member => (stored.allocated cell member).imp_right (Nat.lt_succ_of_lt ·)
  started := Nat.succ_pos _

/-- Neither does writing, or freeing, a node that is not in it. -/
theorem Stored.write_other (stored : Stored m t) {a : Addr} (node : Option (Node K V))
    (other : ∀ cell ∈ t.toList, cell.addr ≠ a) (real : m_nil < a) : Stored (m.write a node) t where
  root := stored.root
  rep := stored.rep.congr fun cell member => heap_write_of_ne _ (other cell member)
  sentinel := by
    obtain ⟨p, key, value, nil⟩ := stored.sentinel
    exact ⟨p, key, value, (heap_write_of_ne _ (Nat.ne_of_lt real)).trans nil⟩
  apart := stored.apart
  allocated := stored.allocated
  started := stored.started

theorem Stored.with_count (stored : Stored m t) (count : ℤ) : Stored { m with m_count := count } t :=
  ⟨stored.root, stored.rep, stored.sentinel, stored.apart, stored.allocated, stored.started⟩

/-- The frame of a path holds either of its two subtrees. -/
theorem rebuild_other (side : Side) (c : Color) (v : Cell K V) (s t : RBT (Cell K V)) (path : Spine (Cell K V)) :
    rebuild (⟨side, c, v, s⟩ :: path) t = rebuild (⟨side.other, c, v, t⟩ :: path) s := by
  simp only [rebuild, Frame.plug, fork_other]

namespace Stored

variable {path : Spine (Cell K V)} {t : RBT (Cell K V)} {f : Frame (Cell K V)}

theorem frame_node (stored : Stored m (rebuild (f :: path) t)) : m.heap f.value.addr =
    some (forkNode f.side f.value f.color (addr t) (addr f.sibling) (above path)) :=
  (rep_rebuild.mp stored.rep).2.1

theorem child (stored : Stored m (rebuild (f :: path) t)) : m.child f.side f.value.addr = some (addr t) := by
  rw [child_eq stored.frame_node, child_forkNode]

theorem sibling (stored : Stored m (rebuild (f :: path) t)) :
    m.child f.side.other f.value.addr = some (addr f.sibling) := by
  rw [child_eq stored.frame_node, child_other_forkNode]

theorem parent_frame (stored : Stored m (rebuild (f :: path) t)) :
    m.parent f.value.addr = some (above path) := by
  rw [parent_eq stored.frame_node, parent_forkNode]

theorem color_above (stored : Stored m (rebuild path t)) : m.color (above path) = some (Spine.color path) := by
  cases path with
  | nil =>
    obtain ⟨p, key, value, node⟩ := stored.sentinel
    exact color_eq node
  | cons f path => rw [above, color_eq stored.frame_node, color_forkNode, Spine.color]

theorem parent (stored : Stored m (rebuild path t)) (real : t ≠ .nil) :
    m.parent (addr t) = some (above path) := by
  cases t with
  | nil => contradiction
  | node c cell l r => exact parent_eq (rep_rebuild.mp stored.rep).1.1

theorem color (stored : Stored m (rebuild path t)) : m.color (addr t) = some t.color := by
  cases t with
  | nil =>
    obtain ⟨p, key, value, node⟩ := stored.sentinel
    exact color_eq node
  | node c cell l r => exact color_eq (rep_rebuild.mp stored.rep).1.1

/-- A node of the tree is not the sentinel. -/
theorem addr_pos (stored : Stored m (rebuild path t)) (real : t ≠ .nil) : m_nil < addr t := by
  cases t with
  | nil => contradiction
  | node c cell l r => exact (stored.allocated_rebuild cell (by simp [toList])).1

/-- Two siblings are different nodes, unless both are missing. -/
theorem addr_ne_sibling (stored : Stored m (rebuild (f :: path) t)) (real : t ≠ .nil ∨ f.sibling ≠ .nil) :
    addr t ≠ addr f.sibling := by
  have apart := stored.apart_rebuild
  have swapped : Stored m (rebuild (⟨f.side.other, f.color, f.value, t⟩ :: path) f.sibling) :=
    rebuild_other .. ▸ stored
  rcases addr_mem t with none | ⟨x, inside, same⟩
  · rw [none]
    refine Nat.ne_of_lt (swapped.addr_pos (real.resolve_left ?_))
    intro some
    exact Nat.ne_of_gt (stored.addr_pos some) none
  · rcases addr_mem f.sibling with none | ⟨y, member, also⟩
    · rw [none]
      refine Nat.ne_of_gt (stored.addr_pos ?_)
      rintro rfl
      simp [toList] at inside
    · rw [← same, ← also]
      exact ne_of_append apart inside (by simp [cells, member])

/-- The comparison with the left child tells the side of the path. -/
theorem side (stored : Stored m (rebuild (f :: path) t)) (real : t ≠ .nil ∨ f.sibling ≠ .nil) :
    ∃ l, m.child .left f.value.addr = some l ∧
      (if addr t = l then Side.left else Side.right) = f.side := by
  have different := stored.addr_ne_sibling real
  have child := stored.child
  have sibling := stored.sibling
  cases shape : f.side with
  | left =>
    rw [shape] at child
    exact ⟨_, child, if_pos rfl⟩
  | right =>
    rw [shape] at sibling
    exact ⟨_, sibling, if_neg different⟩

end Stored

end LockFreeCore.Map
