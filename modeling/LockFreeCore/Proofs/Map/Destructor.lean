import LockFreeCore.Proofs.Map.Invariants
import LockFreeCore.ToMathlib.Allocation

/-! # The session table frees what it allocated

Rotations, recolourings and relinkings write to nodes that are there, so only `insert` adds a node and only
`erase` and the destructor remove one, and the nodes in use stay one more than the keys. The destructor walks
the tree, which holds as many nodes as there are keys, and then frees the sentinel.
-/

namespace LockFreeCore.Map

open RedBlack RedBlack.RBT RedBlack.Spine
open Allocated (live mem_live)

variable {K V : Type} {m m' : Map K V}

/-! ## What a step writes -/

/-- The nodes in use and their number are those of `m`. -/
structure SameNodes (m m' : Map K V) : Prop where
  live : live m'.heap = live m.heap
  next : m'.next = m.next
  count : m'.m_count = m.m_count

theorem SameNodes.refl (m : Map K V) : SameNodes m m := ⟨rfl, rfl, rfl⟩

theorem SameNodes.trans {m m' m'' : Map K V} (first : SameNodes m m') (second : SameNodes m' m'') : SameNodes m m'' :=
  ⟨second.1.trans first.1, second.2.trans first.2, second.3.trans first.3⟩

/-- Whatever map a computation comes to, it has the nodes of `m`. -/
def Keeps {α : Type} (m : Map K V) (run : Option α) (f : α → Map K V) : Prop :=
  ∀ r, run = some r → SameNodes m (f r)

section Keeps

variable {α β : Type} {run : Option α} {f : α → Map K V} {rest : α → Option β} {g : β → Map K V}

theorem Keeps.pure (r : α) (same : SameNodes m (f r)) : Keeps m (some r) f :=
  fun _ returned => Option.some.inj returned ▸ same

/-- A value that is only read. -/
theorem Keeps.read (later : ∀ r, Keeps m (rest r) g) : Keeps m (run >>= rest) g := by
  intro s returned
  obtain ⟨r, -, returned⟩ := Option.bind_eq_some_iff.mp returned
  exact later r s returned

/-- One step after another. -/
theorem Keeps.bind (first : Keeps m run f) (later : ∀ r, Keeps (f r) (rest r) g) :
    Keeps m (run >>= rest) g := by
  intro s returned
  obtain ⟨r, ran, returned⟩ := Option.bind_eq_some_iff.mp returned
  exact (first r ran).trans (later r s returned)

theorem Keeps.ite {c : Prop} [Decidable c] {run' : Option α} (yes : Keeps m run f) (no : Keeps m run' f) :
    Keeps m (if c then run else run') f := by
  split_ifs
  · exact yes
  · exact no

end Keeps

theorem keeps_modify (x : Addr) (change : Node K V → Node K V) : Keeps m (m.modify x change) id := by
  intro m' ran
  obtain ⟨node, here, rfl⟩ := Option.map_eq_some_iff.mp ran
  refine ⟨?_, rfl, rfl⟩
  rw [id, write, Allocated.live_update_some]
  exact Set.insert_eq_of_mem (by rw [mem_live, here]; rfl)

theorem keeps_relink (side : Side) (p u v : Addr) : Keeps m (m.relink side p u v) id := by
  unfold relink
  refine .ite (.pure _ ⟨rfl, rfl, rfl⟩) (.read fun child => .ite ?_ ?_)
  · exact keeps_modify _ _
  · exact keeps_modify _ _

theorem keeps_rotate (side : Side) (x : Addr) : Keeps m (m.rotate side x) id := by
  unfold rotate
  refine .read fun y => .read fun inner => .bind (keeps_modify _ _) fun m₁ => ?_
  refine .bind (f := id) (.ite (keeps_modify _ _) (.pure _ (.refl _))) fun m₂ => ?_
  refine .read fun p => .bind (keeps_modify _ _) fun m₃ => .read fun q => .bind (keeps_relink _ _ _ _) fun m₄ => ?_
  exact .bind (keeps_modify _ _) fun m₅ => keeps_modify _ _

theorem keeps_insertFixupBody (side : Side) (z : Addr) : Keeps m (m.insertFixupBody side z) Prod.fst := by
  unfold insertFixupBody
  refine .read fun p => .read fun g => .read fun y => .read fun c => .ite ?_ ?_
  · exact .bind (keeps_modify _ _) fun m₁ => .bind (keeps_modify _ _) fun m₂ => .bind (keeps_modify _ _) fun m₃ =>
      .pure _ (.refl _)
  · refine .read fun inner => .bind (f := Prod.fst) (.ite ?_ (.pure _ (.refl _))) fun turned => ?_
    · intro r ran
      obtain ⟨m₁, rotated, rfl⟩ := Option.map_eq_some_iff.mp ran
      exact keeps_rotate _ _ m₁ rotated
    · exact .read fun p => .bind (keeps_modify _ _) fun m₂ => .read fun g => .bind (keeps_modify _ _) fun m₃ =>
        .bind (keeps_rotate _ _) fun m₄ => .pure _ (.refl _)

theorem keeps_insertFixup (fuel : ℕ) (z : Addr) : Keeps m (insertFixup fuel m z) id := by
  induction fuel generalizing m z with
  | zero => exact fun _ absurd => by cases absurd
  | succ fuel ih =>
    unfold insertFixup
    refine .read fun p => .read fun c => .ite ?_ ?_
    · exact .read fun g => .read fun l => .bind (keeps_insertFixupBody _ _) fun _ => ih _
    · exact keeps_modify _ _

theorem keeps_transplant (u v : Addr) : Keeps m (m.transplant u v) id := by
  unfold transplant
  exact .read fun p => .bind (keeps_relink _ _ _ _) fun m₁ => .read fun q => keeps_modify _ _

theorem keeps_eraseFixupBlack (side : Side) (x w : Addr) : Keeps m (m.eraseFixupBlack side x w) Prod.fst := by
  unfold eraseFixupBlack
  refine .read fun near => .read fun c => .read fun far => .read fun d => .ite ?_ ?_
  · exact .bind (keeps_modify _ _) fun m₁ => .read fun p => .pure _ (.refl _)
  · refine .read fun far => .read fun d => .bind (f := Prod.fst) (.ite ?_ (.pure _ (.refl _))) fun turned => ?_
    · exact .read fun near => .bind (keeps_modify _ _) fun m₁ => .bind (keeps_modify _ _) fun m₂ =>
        .bind (keeps_rotate _ _) fun m₃ => .read fun p => .read fun w => .pure _ (.refl _)
    · exact .read fun p => .read fun c => .bind (keeps_modify _ _) fun m₁ => .bind (keeps_modify _ _) fun m₂ =>
        .read fun far => .bind (keeps_modify _ _) fun m₃ => .bind (keeps_rotate _ _) fun m₄ => .pure _ (.refl _)

theorem keeps_eraseFixupBody (side : Side) (x : Addr) : Keeps m (m.eraseFixupBody side x) Prod.fst := by
  unfold eraseFixupBody
  refine .read fun p => .read fun w => .read fun c => .bind (f := Prod.fst) (.ite ?_ (.pure _ (.refl _))) fun turned => ?_
  · exact .bind (keeps_modify _ _) fun m₁ => .bind (keeps_modify _ _) fun m₂ => .bind (keeps_rotate _ _) fun m₃ =>
      .read fun p => .read fun w => .pure _ (.refl _)
  · exact keeps_eraseFixupBlack _ _ _

theorem keeps_eraseFixup (fuel : ℕ) (x : Addr) : Keeps m (eraseFixup fuel m x) id := by
  induction fuel generalizing m x with
  | zero => exact fun _ absurd => by cases absurd
  | succ fuel ih =>
    unfold eraseFixup
    refine .read fun c => .ite ?_ ?_
    · exact .read fun p => .read fun l => .bind (keeps_eraseFixupBody _ _) fun _ => ih _
    · exact keeps_modify _ _

theorem keeps_unlink (z : Addr) : Keeps m (m.unlink z) Prod.fst := by
  unfold unlink
  refine .read fun left => .read fun right => .read fun c => .ite ?_ (.ite ?_ ?_)
  · exact .bind (keeps_transplant _ _) fun m₁ => .pure _ (.refl _)
  · exact .bind (keeps_transplant _ _) fun m₁ => .pure _ (.refl _)
  · refine .read fun y => .read fun d => .read fun x => .read fun p => .bind (f := id) (.ite ?_ ?_) fun m₁ => ?_
    · exact keeps_modify _ _
    · exact .bind (keeps_transplant _ _) fun m₁ => .read fun right => .bind (keeps_modify _ _) fun m₂ =>
        .read fun moved => keeps_modify _ _
    · exact .bind (keeps_transplant _ _) fun m₂ => .read fun left => .bind (keeps_modify _ _) fun m₃ =>
        .read fun moved => .bind (keeps_modify _ _) fun m₄ => .read fun c => .bind (keeps_modify _ _) fun m₅ =>
        .pure _ (.refl _)

/-! ## The nodes in use -/

/-- A node for each key, and the sentinel. -/
def Owned (m : Map K V) : Prop := ∃ count : ℕ, Allocated m.heap m.next count ∧ (count : ℤ) = m.m_count + 1

theorem Owned.of_same (owned : Owned m) (same : SameNodes m m') : Owned m' := by
  obtain ⟨count, allocated, keys⟩ := owned
  exact ⟨count, same.next ▸ allocated.congr same.live, by rw [same.count, keys]⟩

/-- A new node, and a key more. -/
theorem Owned.alloc (owned : Owned m) (node : Node K V) :
    Owned { m.write m.next (some node) with next := m.next + 1, m_count := m.m_count + 1 } := by
  obtain ⟨count, allocated, keys⟩ := owned
  exact ⟨count + 1, allocated.alloc node, by rw [Nat.cast_succ, keys]⟩

/-- A node less, and a key less. -/
theorem Owned.free (owned : Owned m) {x : Addr} (used : x ∈ live m.heap) :
    Owned { m.write x none with m_count := m.m_count - 1 } := by
  obtain ⟨count, allocated, keys⟩ := owned
  obtain ⟨rest, rfl⟩ := allocated.exists_succ used
  refine ⟨rest, allocated.free used, ?_⟩
  rw [Nat.cast_succ] at keys
  dsimp only
  omega

theorem owned_empty [Inhabited K] [Inhabited V] : Owned (empty : Map K V) :=
  ⟨1, Allocated.nothing.alloc _, rfl⟩

section Calls

variable [DecidableEq K] [LT K] [DecidableLT K]

theorem Owned.insert (owned : Owned m) {key : K} {value : V} (ran : m.insert key value = some m') : Owned m' := by
  obtain ⟨existing, -, ran⟩ := Option.bind_eq_some_iff.mp ran
  split_ifs at ran with found
  · exact owned.of_same (keeps_modify _ _ m' ran)
  · obtain ⟨y, -, ran⟩ := Option.bind_eq_some_iff.mp ran
    obtain ⟨m₁, placed, ran⟩ := Option.bind_eq_some_iff.mp ran
    obtain ⟨m₂, linked, ran⟩ := Option.bind_eq_some_iff.mp ran
    have placed := keeps_modify _ _ m₁ placed
    have linked : SameNodes m₁ m₂ := by
      suffices keeps : Keeps m₁ _ id from keeps m₂ linked
      refine .ite (.pure _ ⟨rfl, rfl, rfl⟩) (.read fun node => .ite ?_ ?_)
      · exact keeps_modify _ _
      · exact keeps_modify _ _
    have same := placed.trans linked
    refine (owned.alloc ⟨key, value, .red, m_nil, m_nil, m_nil⟩).of_same (.trans ?_ (keeps_insertFixup _ _ m' ran))
    exact ⟨same.live, same.next, congrArg (· + 1) same.count⟩

/-- The node that `erase` takes out is in use until it is deleted. -/
theorem Owned.erase (owned : Owned m) {key : K} {present : Bool} (ran : m.erase key = some (m', present)) : Owned m' := by
  obtain ⟨z, -, ran⟩ := Option.bind_eq_some_iff.mp ran
  split_ifs at ran with found
  · exact (Prod.mk.inj (Option.some.inj ran)).1 ▸ owned
  · obtain ⟨⟨m₁, x, c⟩, unlinked, ran⟩ := Option.bind_eq_some_iff.mp ran
    obtain ⟨m₂, repaired, ran⟩ := Option.bind_eq_some_iff.mp ran
    have used : z ∈ live m.heap := by
      obtain ⟨left, read, -⟩ := Option.bind_eq_some_iff.mp unlinked
      obtain ⟨node, here, -⟩ := Option.map_eq_some_iff.mp read
      rw [mem_live, here]
      rfl
    have repaired : SameNodes m₁ m₂ :=
      Keeps.ite (f := id) (keeps_eraseFixup _ _) (.pure _ (.refl _)) m₂ repaired
    have same := (keeps_unlink _ _ unlinked).trans repaired
    obtain rfl := (Prod.mk.inj (Option.some.inj ran)).1
    exact (owned.of_same same).free (same.live ▸ used)

theorem Owned.call (owned : Owned m) {c : FiniteMap.Call K V} {reply : FiniteMap.Reply V}
    (ran : m.call c = some (m', reply)) : Owned m' := by
  cases c with
  | insert key value =>
    obtain ⟨next, ran, same⟩ := Option.map_eq_some_iff.mp ran
    exact (Prod.mk.inj same).1 ▸ owned.insert ran
  | erase key =>
    obtain ⟨⟨next, present⟩, ran, same⟩ := Option.map_eq_some_iff.mp ran
    exact (Prod.mk.inj same).1 ▸ owned.erase ran
  | find key =>
    obtain ⟨value, -, same⟩ := Option.map_eq_some_iff.mp ran
    exact (Prod.mk.inj same).1 ▸ owned

end Calls

/-! ## The destructor -/

/-- The cells of a represented tree are nodes in use. -/
theorem Rep.live {t : RBT (Cell K V)} {heap : Addr → Option (Node K V)} {p : Addr} (rep : Rep heap p t) :
    ∀ cell ∈ t.toList, cell.addr ∈ live heap := by
  induction t generalizing p with
  | nil => exact fun cell member => absurd member List.not_mem_nil
  | node c cell l r ihl ihr =>
    obtain ⟨node, left, right⟩ := rep
    intro x member
    rw [toList, List.mem_append, List.mem_cons] at member
    rcases member with inside | rfl | inside
    · exact ihl left x inside
    · rw [mem_live, node]
      rfl
    · exact ihr right x inside

/-- `clear` deletes the nodes of a subtree and no others. -/
theorem clear_spec {t : RBT (Cell K V)} {p : Addr} {fuel : ℕ} (rep : Rep m.heap p t)
    (apart : (t.toList.map Cell.addr).Nodup) (proper : ∀ cell ∈ t.toList, m_nil < cell.addr)
    (enough : t.toList.length < fuel) :
    ∃ m', clear fuel m (addr t) = some m' ∧
      ∀ a, m'.heap a = if a ∈ t.toList.map Cell.addr then none else m.heap a := by
  induction t generalizing m p fuel with
  | nil =>
    cases fuel with
    | zero => exact absurd enough (Nat.not_lt_zero _)
    | succ fuel => exact ⟨m, by rw [clear, addr, if_pos rfl], fun a => (if_neg List.not_mem_nil).symm⟩
  | node c cell l r ihl ihr =>
    cases fuel with
    | zero => exact absurd enough (Nat.not_lt_zero _)
    | succ fuel =>
      obtain ⟨node, left, right⟩ := rep
      rw [toList] at apart proper enough
      rw [List.length_append, List.length_cons] at enough
      have real : m_nil < cell.addr := proper cell (by simp)
      have off : ∀ x ∈ l.toList ++ r.toList, x.addr ≠ cell.addr :=
        ne_head ((List.perm_middle.map Cell.addr).nodup_iff.mp apart)
      have parts := apart
      rw [List.map_append, List.nodup_append, List.map_cons, List.nodup_cons] at parts
      obtain ⟨apart_l, ⟨-, apart_r⟩, across⟩ := parts
      obtain ⟨m₁, ran₁, heap₁⟩ := ihl left apart_l (fun x member => proper x (by simp [member])) (by omega : _ < fuel)
      have kept {a : Addr} (outside : a ∉ l.toList.map Cell.addr) : m₁.heap a = m.heap a := by
        rw [heap₁, if_neg outside]
      have here₁ : m₁.heap cell.addr = some ⟨cell.key, cell.value, c, addr l, addr r, p⟩ :=
        (kept fun member => across _ member _ (List.mem_cons_self ..) rfl).trans node
      have right₁ : Rep m₁.heap cell.addr r := right.congr fun x member =>
        kept fun inside => across _ inside _ (List.mem_cons_of_mem _ (List.mem_map_of_mem member)) rfl
      obtain ⟨m₂, ran₂, heap₂⟩ := ihr right₁ apart_r (fun x member => proper x (by simp [member])) (by omega : _ < fuel)
      have here₂ : m₂.heap cell.addr = some ⟨cell.key, cell.value, c, addr l, addr r, p⟩ := by
        rw [heap₂, if_neg, here₁]
        intro member
        obtain ⟨x, inside, same⟩ := List.mem_map.mp member
        exact off x (List.mem_append_right _ inside) same
      refine ⟨m₂.write cell.addr none, ?_, fun a => ?_⟩
      · rw [clear, addr, if_neg (Nat.ne_of_gt real), child_eq node]
        simp only [Option.bind_eq_bind, Option.bind_some, Node.child, ran₁, child_eq here₁, ran₂, delete, here₂,
          Option.map_some]
      · dsimp only [write]
        rw [Function.update_apply, heap₂, heap₁, toList, List.map_append, List.map_cons]
        simp only [List.mem_append, List.mem_cons]
        split_ifs <;> tauto

section Order

variable [LinearOrder K] {t : RBT (Cell K V)}

/-- The nodes in use are the sentinel and the cells of the tree. -/
theorem Owned.covered (owned : Owned m) (sound : Sound m t) {a : Addr} (used : a ∈ live m.heap) :
    a = m_nil ∨ a ∈ t.toList.map Cell.addr := by
  obtain ⟨count, allocated, keys⟩ := owned
  have stored := sound.stored
  have nodup : (m_nil :: t.toList.map Cell.addr).Nodup := by
    refine List.nodup_cons.mpr ⟨fun member => ?_, stored.apart⟩
    obtain ⟨cell, inside, same⟩ := List.mem_map.mp member
    exact absurd same (Nat.ne_of_gt (stored.allocated cell inside).1)
  have inside : ∀ a ∈ (m_nil :: t.toList.map Cell.addr).toFinset, a ∈ live m.heap := by
    intro a member
    rcases List.mem_cons.mp (List.mem_toFinset.mp member) with rfl | member
    · obtain ⟨p, key, value, node⟩ := stored.sentinel
      rw [mem_live, node]
      rfl
    · obtain ⟨cell, inside, rfl⟩ := List.mem_map.mp member
      exact stored.rep.live cell inside
  have all := allocated.covered inside (by
    rw [List.toFinset_card_of_nodup nodup, List.length_cons, List.length_map]
    have := sound.count
    omega)
  rw [all] at used
  exact List.mem_cons.mp (List.mem_toFinset.mp used)

/-- The destructor returns, and leaves no node. -/
theorem Owned.destroy (owned : Owned m) (sound : Sound m t) :
    ∃ m', m.destroy = some m' ∧ ∀ a, m'.heap a = none := by
  have stored := sound.stored
  obtain ⟨m₁, cleared, heap₁⟩ := clear_spec stored.rep stored.apart (fun cell member => (stored.allocated cell member).1)
    stored.size
  obtain ⟨p, key, value, node⟩ := stored.sentinel
  have kept : m₁.heap m_nil = m.heap m_nil := by
    rw [heap₁, if_neg]
    intro member
    obtain ⟨cell, inside, same⟩ := List.mem_map.mp member
    exact absurd same (Nat.ne_of_gt (stored.allocated cell inside).1)
  refine ⟨m₁.write m_nil none, ?_, fun a => ?_⟩
  · rw [Map.destroy, stored.root, cleared]
    simp only [Option.bind_eq_bind, Option.bind_some, delete, kept, node, Option.map_some]
  · dsimp only [write]
    rw [Function.update_apply, heap₁]
    split_ifs with top inside
    · rfl
    · rfl
    · have unused : a ∉ live m.heap := fun used => (owned.covered sound used).elim top inside
      rw [mem_live] at unused
      exact Option.not_isSome_iff_eq_none.mp unused

/-- After every sequence of calls on a fresh map one node is in use for each key, and the sentinel; the
destructor then deletes each of them, once, and nothing else. -/
theorem destroy_frees_all [Inhabited K] [Inhabited V] (list : List (FiniteMap.Call K V)) :
    ∃ m replies destroyed, FiniteMap.calls call (empty : Map K V) list = some (m, replies) ∧
      ((live m.heap).ncard : ℤ) = m.getCount + 1 ∧ m.destroy = some destroyed ∧ live destroyed.heap = ∅ := by
  obtain ⟨m, replies, ran, ⟨t, sound, -⟩, owned⟩ := FiniteMap.calls_invariant (fun m => Grown m ∧ Owned m)
    (fun m c both => by
      obtain ⟨m', reply, ran, grown⟩ := call_grown both.1 c
      exact ⟨m', reply, ran, grown, both.2.call ran⟩) list ⟨grown_empty, owned_empty⟩
  obtain ⟨destroyed, ran', gone⟩ := owned.destroy sound
  obtain ⟨count, allocated, keys⟩ := owned
  refine ⟨m, replies, destroyed, ran, ?_, ran', ?_⟩
  · rw [allocated.count, keys, getCount]
  · ext a
    simp [mem_live, gone a]

end Order

end LockFreeCore.Map
