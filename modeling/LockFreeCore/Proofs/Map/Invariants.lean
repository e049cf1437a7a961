import LockFreeCore.Proofs.Map.Refinement

/-! # The red-black invariants, read off the heap

The invariants are stated on the pointers of the nodes that the root leads to. A subtree of the
stored tree stands behind each of these pointers, so they follow from its balance and its order.
-/

namespace LockFreeCore.Map

open RedBlack RedBlack.RBT RedBlack.Spine

variable {K V : Type}

/-- Child pointers lead down from one node to another. -/
inductive Below (m : Map K V) (a : Addr) : Addr → Prop where
  | here : Below m a a
  | down {b c : Addr} (side : Side) (below : Below m a b) (child : m.child side b = some c) : Below m a c

/-- A path from a node down to the sentinel crosses some number of black nodes. -/
inductive Descent (m : Map K V) : Addr → ℕ → Prop where
  | sentinel : Descent m m_nil 0
  | red {a b : Addr} {n : ℕ} (side : Side) (real : a ≠ m_nil) (color : m.color a = some .red)
      (child : m.child side a = some b) (rest : Descent m b n) : Descent m a n
  | black {a b : Addr} {n : ℕ} (side : Side) (real : a ≠ m_nil) (color : m.color a = some .black)
      (child : m.child side a = some b) (rest : Descent m b n) : Descent m a (n + 1)

/-- The order that a node asks of the keys on one of its sides. -/
def Precedes [LT K] : Side → K → K → Prop
  | .left, key, below => below < key
  | .right, key, below => key < below

/-- The red-black invariants of the nodes that the root leads to. -/
structure RedBlackTree [LT K] (m : Map K V) : Prop where
  resolved : ∀ a, Below m m.m_root a → ∃ node, m.heap a = some node
  ordered : ∀ a node side b c below, Below m m.m_root a → a ≠ m_nil → m.heap a = some node →
    m.child side a = some b → Below m b c → c ≠ m_nil → m.heap c = some below →
    Precedes side node.key below.key
  root : m.color m.m_root = some .black
  red : ∀ a side b, Below m m.m_root a → m.color a = some .red → m.child side a = some b →
    m.color b = some .black
  heights : ∀ a, Below m m.m_root a → ∃ height, ∀ n, Descent m a n ↔ n = height
  parent : ∀ a side b, Below m m.m_root a → a ≠ m_nil → m.child side a = some b → b ≠ m_nil →
    m.parent b = some a
  root_parent : m.parent m.m_root = some m_nil
  sentinel : m.color m_nil = some .black ∧ ∀ side, m.child side m_nil = some m_nil

variable {m : Map K V} {path : Spine (Cell K V)} {t : RBT (Cell K V)}

theorem Stored.nil_child (stored : Stored m t) (side : Side) : m.child side m_nil = some m_nil := by
  obtain ⟨p, key, value, node⟩ := stored.sentinel
  rw [child_eq node]
  cases side <;> rfl

/-- The child pointers of a subtree lead to its subtrees. -/
theorem Stored.child_addr (stored : Stored m (rebuild path t)) (side : Side) :
    m.child side (addr t) = some (addr (t.child side)) := by
  cases t with
  | nil => exact stored.nil_child side
  | node c cell l r =>
    rw [addr, child_eq (rep_rebuild.mp stored.rep).1.1]
    cases side <;> rfl

/-- A subtree is rebuilt from its own child on a side. -/
theorem exists_rebuild_child (t : RBT (Cell K V)) (side : Side) :
    ∃ path, rebuild path (t.child side) = t := by
  cases t with
  | nil => exact ⟨[], rfl⟩
  | node c cell l r =>
    cases side
    · exact ⟨[⟨.left, c, cell, r⟩], rfl⟩
    · exact ⟨[⟨.right, c, cell, l⟩], rfl⟩

/-- Behind a pointer that is reached from a subtree stands one of its subtrees. -/
theorem Stored.of_below (stored : Stored m (rebuild path t)) {a : Addr} (below : Below m (addr t) a) :
    ∃ inner u, rebuild inner u = t ∧ addr u = a := by
  induction below with
  | here => exact ⟨[], t, rfl, rfl⟩
  | @down b c side _ child ih =>
    obtain ⟨inner, u, whole, rfl⟩ := ih
    obtain ⟨last, sub⟩ := exists_rebuild_child u side
    refine ⟨last ++ inner, u.child side, ?_, ?_⟩
    · rw [rebuild_append, sub, whole]
    · have placed : Stored m (rebuild (inner ++ path) u) := by
        rw [rebuild_append, whole]
        exact stored
      exact Option.some.inj ((placed.child_addr side).symm.trans child)

/-- Every pointer that the root leads to has a subtree of the stored tree behind it. -/
theorem Stored.of_below_root (stored : Stored m t) {a : Addr} (below : Below m m.m_root a) :
    ∃ inner u, rebuild inner u = t ∧ addr u = a := by
  have placed : Stored m (rebuild [] t) := stored
  rw [stored.root] at below
  exact placed.of_below below

/-- Every way down from a balanced subtree crosses as many black nodes as its height says. -/
theorem Stored.descent (stored : Stored m (rebuild path t)) (balanced : t.Balanced) (n : ℕ) :
    Descent m (addr t) n ↔ n = t.height := by
  induction t generalizing path n with
  | nil =>
    constructor
    · intro descent
      cases descent with
      | sentinel => rfl
      | red side real color child rest => exact absurd rfl real
      | black side real color child rest => exact absurd rfl real
    · rintro rfl
      exact .sentinel
  | node c cell l r ihl ihr =>
    obtain ⟨same, -, left, right⟩ := balanced
    have inner (side : Side) (k : ℕ) :
        Descent m (addr ((RBT.node c cell l r).child side)) k ↔ k = l.height := by
      cases side with
      | left =>
        have placed : Stored m (rebuild (⟨.left, c, cell, r⟩ :: path) l) := stored
        exact ihl placed left k
      | right =>
        have placed : Stored m (rebuild (⟨.right, c, cell, l⟩ :: path) r) := stored
        rw [same]
        exact ihr placed right k
    have real : addr (.node c cell l r) ≠ m_nil := Nat.ne_of_gt (stored.addr_pos node_ne_nil)
    have shade := stored.color
    constructor
    · intro descent
      generalize start : addr (.node c cell l r) = a at descent
      cases descent with
      | sentinel => exact absurd start real
      | red side _ color child rest =>
        subst start
        obtain rfl : c = .red := Option.some.inj (shade.symm.trans color)
        obtain rfl := Option.some.inj ((stored.child_addr side).symm.trans child)
        exact (inner side n).mp rest
      | black side _ color child rest =>
        subst start
        obtain rfl : c = .black := Option.some.inj (shade.symm.trans color)
        obtain rfl := Option.some.inj ((stored.child_addr side).symm.trans child)
        exact congrArg (· + 1) ((inner side _).mp rest)
    · rintro rfl
      have below := (inner .left l.height).mpr rfl
      cases c with
      | red => exact .red .left real shade (stored.child_addr .left) below
      | black => exact .black .left real shade (stored.child_addr .left) below

theorem mem_child_toList {t : RBT (Cell K V)} {side : Side} {inner : Spine (Cell K V)} {c : Color}
    {cell : Cell K V} {l r : RBT (Cell K V)} (whole : rebuild inner (.node c cell l r) = t.child side) :
    cell ∈ (t.child side).toList := by
  rw [← whole, toList_rebuild]
  simp [toList]

section Order

variable [LinearOrder K]

/-- The cells on a side of a node of an ordered tree have keys on that side. -/
theorem Ordered.precedes {c : Color} {cell below : Cell K V} {l r : RBT (Cell K V)} (side : Side)
    (ordered : Ordered (rebuild path (.node c cell l r)))
    (member : below ∈ ((RBT.node c cell l r).child side).toList) : Precedes side cell.key below.key := by
  rw [Ordered, toList_rebuild, toList, List.pairwise_append, List.pairwise_append, List.pairwise_append] at ordered
  obtain ⟨⟨-, ⟨-, right, left⟩, -⟩, -⟩ := ordered
  cases side with
  | left => exact left below member cell (List.mem_cons_self ..)
  | right => exact (List.pairwise_cons.mp right).1 below member

/-- A stored balanced search tree has the red-black invariants. -/
theorem Sound.redBlackTree (sound : Sound m t) (top : m.parent m.m_root = some m_nil) : RedBlackTree m := by
  have stored := sound.stored
  constructor
  case resolved =>
    intro a below
    obtain ⟨inner, u, rfl, rfl⟩ := stored.of_below_root below
    obtain ⟨node, found, -⟩ := Option.map_eq_some_iff.mp stored.color
    exact ⟨node, found⟩
  case ordered =>
    intro a node side b c lower below real found child deeper proper foundLower
    obtain ⟨inner, u, rfl, rfl⟩ := stored.of_below_root below
    cases u with
    | nil => exact absurd rfl real
    | node shade cell l r =>
      obtain rfl := Option.some.inj ((stored.child_addr side).symm.trans child)
      obtain ⟨last, whole⟩ := exists_rebuild_child (.node shade cell l r) side
      have placed : Stored m (rebuild (last ++ inner) ((RBT.node shade cell l r).child side)) := by
        rw [rebuild_append, whole]
        exact stored
      obtain ⟨way, w, same, rfl⟩ := placed.of_below deeper
      cases w with
      | nil => exact absurd rfl proper
      | node shade' cell' l' r' =>
        have deep : Stored m (rebuild (way ++ (last ++ inner)) (.node shade' cell' l' r')) := by
          rw [rebuild_append, same]
          exact placed
        obtain rfl := Option.some.inj ((rep_rebuild.mp stored.rep).1.1.symm.trans found)
        obtain rfl := Option.some.inj ((rep_rebuild.mp deep.rep).1.1.symm.trans foundLower)
        exact sound.ordered.precedes side (mem_child_toList same)
  case root =>
    have placed : Stored m (rebuild [] t) := stored
    rw [stored.root, placed.color, sound.black]
  case red =>
    intro a side b below red child
    obtain ⟨inner, u, rfl, rfl⟩ := stored.of_below_root below
    obtain ⟨-, balanced, -⟩ := fits_of_balanced sound.balanced sound.black
    obtain rfl := Option.some.inj ((stored.child_addr side).symm.trans child)
    obtain ⟨last, whole⟩ := exists_rebuild_child u side
    have placed : Stored m (rebuild (last ++ inner) (u.child side)) := by
      rw [rebuild_append, whole]
      exact stored
    rw [placed.color]
    cases u with
    | nil =>
      have black : RBT.color (.nil : RBT (Cell K V)) = .red := Option.some.inj (stored.color.symm.trans red)
      contradiction
    | node c cell l r =>
      have shades := balanced.2.1 (Option.some.inj (stored.color.symm.trans red))
      cases side
      · exact congrArg some shades.1
      · exact congrArg some shades.2
  case heights =>
    intro a below
    obtain ⟨inner, u, rfl, rfl⟩ := stored.of_below_root below
    obtain ⟨-, balanced, -⟩ := fits_of_balanced sound.balanced sound.black
    exact ⟨u.height, stored.descent balanced⟩
  case parent =>
    intro a side b below real child proper
    obtain ⟨inner, u, rfl, rfl⟩ := stored.of_below_root below
    obtain rfl := Option.some.inj ((stored.child_addr side).symm.trans child)
    cases u with
    | nil => exact absurd rfl real
    | node c cell l r =>
      cases side with
      | left =>
        have placed : Stored m (rebuild (⟨.left, c, cell, r⟩ :: inner) l) := stored
        exact placed.parent fun none => proper (congrArg addr none)
      | right =>
        have placed : Stored m (rebuild (⟨.right, c, cell, l⟩ :: inner) r) := stored
        exact placed.parent fun none => proper (congrArg addr none)
  case root_parent => exact top
  case sentinel =>
    obtain ⟨p, key, value, node⟩ := stored.sentinel
    exact ⟨color_eq node, stored.nil_child⟩

/-- What the invariants rest on. -/
def Grown (m : Map K V) : Prop := ∃ t, Sound m t ∧ m.parent m.m_root = some m_nil

theorem grown_empty [Inhabited K] [Inhabited V] : Grown (empty : Map K V) := by
  obtain ⟨t, sound, -⟩ := refines_empty (K := K) (V := V)
  exact ⟨t, sound, rfl⟩

theorem call_grown (grown : Grown m) (c : FiniteMap.Call K V) :
    ∃ m' reply, m.call c = some (m', reply) ∧ Grown m' := by
  obtain ⟨t, sound, top⟩ := grown
  cases c with
  | insert key value =>
    obtain ⟨m', t', ran, sound', entries⟩ := insert_spec sound key value
    refine ⟨m', _, by rw [call, ran]; rfl, t', sound', sound'.stored.root_parent ?_⟩
    rintro rfl
    obtain ⟨cell, member, -⟩ := (entries key value).mpr (by rw [if_pos rfl])
    exact absurd member List.not_mem_nil
  | erase key =>
    obtain ⟨m', t', present, ran, sound', -, -, kept⟩ := erase_spec sound key
    exact ⟨m', _, by rw [call, ran]; rfl, t', sound', kept top⟩
  | find key =>
    obtain ⟨found, ran, -⟩ := find_spec sound key
    exact ⟨m, _, by rw [call, ran]; rfl, t, sound, top⟩

/-- On a fresh map every sequence of calls returns. -/
theorem calls_grown [Inhabited K] [Inhabited V] (list : List (FiniteMap.Call K V)) :
    ∃ m replies, FiniteMap.calls call (empty : Map K V) list = some (m, replies) ∧ Grown m :=
  FiniteMap.calls_invariant Grown (fun _ c grown => call_grown grown c) list grown_empty

/-- On a fresh map every sequence of calls returns, with a tree that has the red-black invariants. -/
theorem calls_redBlackTree [Inhabited K] [Inhabited V] (list : List (FiniteMap.Call K V)) :
    ∃ m replies, FiniteMap.calls call (empty : Map K V) list = some (m, replies) ∧ RedBlackTree m := by
  obtain ⟨m, replies, ran, t, sound, top⟩ := calls_grown (K := K) (V := V) list
  exact ⟨m, replies, ran, sound.redBlackTree top⟩

end Order

end LockFreeCore.Map
