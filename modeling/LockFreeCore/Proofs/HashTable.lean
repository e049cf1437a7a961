import LockFreeCore.Model.HashTable
import LockFreeCore.ToMathlib.LinkedChain
import LockFreeCore.ToMathlib.LittleEndian
import Mathlib.Data.List.Perm.Subperm
import Mathlib.Data.List.Nodup

/-! # The hash table is a finite map

Each node stands in the chain of the bucket of its own key, and no two keys of a chain are the same. A
key is then looked for in the only chain it can be in, and what is done to that chain, at its head, in its
middle or at its end, leaves the others alone.
-/

namespace LockFreeCore.HashTable

variable {K V : Type} {bytes : K → List UInt8} {table : HashTable K V} {chain : ℕ → List ℕ}

def nextOf (table : HashTable K V) (a : ℕ) : Option ℕ := (table.heap a).bind Node.next

def entry (table : HashTable K V) (a : ℕ) : Option (K × V) :=
  (table.heap a).map fun node => (node.key, node.value)

/-- The bytes of the key of a node. -/
def keyBytes (bytes : K → List UInt8) (table : HashTable K V) (a : ℕ) : Option (List UInt8) :=
  (table.entry a).map fun e => bytes e.1

/-- The nodes of the chains: every node in the bucket of its key, no key twice. -/
structure Sound (bytes : K → List UInt8) (table : HashTable K V) (chain : ℕ → List ℕ) : Prop where
  linked : ∀ i, Linked table.nextOf (table.m_buckets i) (chain i)
  home : ∀ i, ∀ a ∈ chain i, ∃ e, table.entry a = some e ∧ table.hashOf bytes e.1 = i
  once : ∀ i, ((chain i).map (keyBytes bytes table)).Nodup
  below : ∀ i, ∀ a ∈ chain i, a < table.fresh

/-- A node of the chains binds the key bytes to the value. -/
def Bound (bytes : K → List UInt8) (table : HashTable K V) (chain : ℕ → List ℕ) (b : List UInt8) (v : V) : Prop :=
  ∃ i, ∃ a ∈ chain i, ∃ e, table.entry a = some e ∧ bytes e.1 = b ∧ e.2 = v

theorem hashOf_congr {key other : K} (same : bytes key = bytes other) :
    table.hashOf bytes key = table.hashOf bytes other := by rw [hashOf, hashOf, same]

@[simp] theorem entry_write (a : ℕ) (node : Option (Node K V)) :
    (table.write a node).entry = Function.update table.entry a (node.map fun node => (node.key, node.value)) := by
  funext x
  by_cases same : x = a
  · subst same
    simp [entry, write]
  · simp [entry, write, Function.update_of_ne same]

@[simp] theorem nextOf_write (a : ℕ) (node : Option (Node K V)) :
    (table.write a node).nextOf = Function.update table.nextOf a (node.bind Node.next) := by
  funext x
  by_cases same : x = a
  · subst same
    simp [nextOf, write]
  · simp [nextOf, write, Function.update_of_ne same]

namespace Sound

theorem nodup (sound : Sound bytes table chain) (i : ℕ) : (chain i).Nodup := (sound.once i).of_map

theorem length_le (sound : Sound bytes table chain) (i : ℕ) : (chain i).length ≤ table.fresh := by
  have inside : chain i ⊆ List.range table.fresh := fun a member =>
    List.mem_range.mpr (sound.below i a member)
  have := ((sound.nodup i).subperm inside).length_le
  rwa [List.length_range] at this

/-- A node is in one chain only. -/
theorem apart (sound : Sound bytes table chain) {i j a : ℕ} (here : a ∈ chain i) (there : a ∈ chain j) : i = j := by
  obtain ⟨e, held, home⟩ := sound.home i a here
  obtain ⟨e', held', home'⟩ := sound.home j a there
  obtain rfl := Option.some.inj (held.symm.trans held')
  exact home.symm.trans home'

theorem allocated (sound : Sound bytes table chain) {i a : ℕ} (member : a ∈ chain i) :
    ∃ node, table.heap a = some node := by
  obtain ⟨e, held, -⟩ := sound.home i a member
  obtain ⟨node, here, -⟩ := Option.map_eq_some_iff.mp held
  exact ⟨node, here⟩

/-- The chains hold one node for the bytes of a key. -/
theorem same_node (sound : Sound bytes table chain) {i j a x : ℕ} {e f : K × V} (here : a ∈ chain i)
    (there : x ∈ chain j) (held : table.entry a = some e) (held' : table.entry x = some f)
    (same : bytes f.1 = bytes e.1) : x = a := by
  obtain ⟨_, known, home⟩ := sound.home i a here
  obtain rfl := Option.some.inj (held.symm.trans known)
  obtain ⟨_, known', home'⟩ := sound.home j x there
  obtain rfl := Option.some.inj (held'.symm.trans known')
  rw [hashOf_congr same] at home'
  obtain rfl := home.symm.trans home'
  refine List.inj_on_of_nodup_map (sound.once _) there here ?_
  rw [keyBytes, keyBytes, held, held', Option.map_some, Option.map_some, same]

end Sound

section Search

variable [BEq K] {key : K} {value : V}

/-- The comparison of the loops at a node. -/
def holds (table : HashTable K V) (key : K) (a : ℕ) : Bool := (table.entry a).any fun e => e.1 == key

theorem holds_of_heap {a : ℕ} {node : Node K V} (here : table.heap a = some node) :
    table.holds key a = (node.key == key) := by
  rw [holds, entry, here]
  rfl

/-- The loop of `insert` and `find` returns the first node of the chain with the key. -/
theorem search_eq {nodes : List ℕ} {first : Option ℕ} {fuel : ℕ} (linked : Linked table.nextOf first nodes)
    (there : ∀ a ∈ nodes, ∃ node, table.heap a = some node) (enough : nodes.length < fuel) :
    table.search key fuel first = some (nodes.find? (table.holds key)) := by
  induction nodes generalizing first fuel with
  | nil =>
    obtain rfl : first = none := linked
    cases fuel with
    | zero => exact absurd enough (Nat.not_lt_zero _)
    | succ fuel => rfl
  | cons a rest ih =>
    obtain ⟨rfl, tail⟩ := linked
    obtain ⟨node, here⟩ := there a (List.mem_cons_self ..)
    cases fuel with
    | zero => exact absurd enough (Nat.not_lt_zero _)
    | succ fuel =>
      rw [nextOf, here, Option.bind_some] at tail
      rw [search, here, Option.bind_some, List.find?_cons, holds_of_heap here,
        ih tail (fun x member => there x (List.mem_cons_of_mem _ member)) (Nat.lt_of_succ_lt_succ enough)]
      cases node.key == key <;> rfl

/-- The loop of `erase` reaches the end of a chain without the key. -/
theorem eraseLoop_absent {nodes : List ℕ} {idx fuel : ℕ} {prev first : Option ℕ}
    (linked : Linked table.nextOf first nodes) (there : ∀ a ∈ nodes, ∃ node, table.heap a = some node)
    (enough : nodes.length < fuel) (absent : ∀ a ∈ nodes, table.holds key a = false) :
    table.eraseLoop key idx fuel prev first = some (table, false) := by
  induction nodes generalizing prev first fuel with
  | nil =>
    obtain rfl : first = none := linked
    cases fuel with
    | zero => exact absurd enough (Nat.not_lt_zero _)
    | succ fuel => rfl
  | cons a rest ih =>
    obtain ⟨rfl, tail⟩ := linked
    obtain ⟨node, here⟩ := there a (List.mem_cons_self ..)
    cases fuel with
    | zero => exact absurd enough (Nat.not_lt_zero _)
    | succ fuel =>
      have other := absent a (List.mem_cons_self ..)
      rw [holds_of_heap here] at other
      rw [nextOf, here, Option.bind_some] at tail
      rw [eraseLoop, here, Option.bind_some, other, if_neg Bool.false_ne_true]
      exact ih tail (fun x member => there x (List.mem_cons_of_mem _ member)) (Nat.lt_of_succ_lt_succ enough)
        fun x member => absent x (List.mem_cons_of_mem _ member)

/-- The loop of `erase` takes the first node with the key out behind the one before it. -/
theorem eraseLoop_present {before after : List ℕ} {a idx fuel : ℕ} {prev first : Option ℕ}
    (linked : Linked table.nextOf first (before ++ a :: after))
    (there : ∀ x ∈ before ++ a :: after, ∃ node, table.heap x = some node)
    (enough : (before ++ a :: after).length < fuel) (others : ∀ x ∈ before, table.holds key x = false)
    (present : table.holds key a = true) :
    table.eraseLoop key idx fuel prev first =
      (table.unlink idx (before.getLast?.or prev) a (table.nextOf a)).map fun table => (table, true) := by
  induction before generalizing prev first fuel with
  | nil =>
    obtain ⟨rfl, tail⟩ := linked
    obtain ⟨node, here⟩ := there a (List.mem_cons_self ..)
    cases fuel with
    | zero => exact absurd enough (Nat.not_lt_zero _)
    | succ fuel =>
      rw [holds_of_heap here] at present
      rw [eraseLoop, here, Option.bind_some, if_pos present, nextOf, here]
      rfl
  | cons x rest ih =>
    obtain ⟨rfl, tail⟩ := linked
    obtain ⟨node, here⟩ := there x (List.mem_cons_self ..)
    cases fuel with
    | zero => exact absurd enough (Nat.not_lt_zero _)
    | succ fuel =>
      have other := others x (List.mem_cons_self ..)
      rw [holds_of_heap here] at other
      rw [nextOf, here, Option.bind_some] at tail
      rw [eraseLoop, here, Option.bind_some, other, if_neg Bool.false_ne_true,
        ih tail (fun y member => there y (List.mem_cons_of_mem _ member)) (Nat.lt_of_succ_lt_succ enough)
          fun y member => others y (List.mem_cons_of_mem _ member)]
      cases rest <;> rfl

end Search

/-! ## What is done to a chain -/

/-- The value of a node is overwritten. -/
theorem Sound.overwrite (sound : Sound bytes table chain) {i a : ℕ} {node : Node K V} (member : a ∈ chain i)
    (here : table.heap a = some node) (value : V) :
    Sound bytes (table.write a (some { node with value := value })) chain ∧
      ∀ b v, Bound bytes (table.write a (some { node with value := value })) chain b v ↔
        if b = bytes node.key then v = value else Bound bytes table chain b v := by
  have next : (table.write a (some { node with value := value })).nextOf = table.nextOf := by
    rw [nextOf_write, Option.bind_some]
    refine Function.update_eq_self_iff.mpr ?_
    rw [nextOf, here, Option.bind_some]
  have entries (x : ℕ) : (table.write a (some { node with value := value })).entry x =
      if x = a then some (node.key, value) else table.entry x := by
    rw [entry_write, Function.update_apply]
    rfl
  have held : table.entry a = some (node.key, node.value) := by rw [entry, here, Option.map_some]
  have keys : keyBytes bytes (table.write a (some { node with value := value })) = keyBytes bytes table := by
    funext x
    rw [keyBytes, keyBytes, entries]
    split_ifs with same
    · rw [same, held]
      rfl
    · rfl
  refine ⟨⟨?_, ?_, ?_, sound.below⟩, fun b v => ?_⟩
  · rw [next]
    exact sound.linked
  · intro j x inside
    obtain ⟨e, e_held, home⟩ := sound.home j x inside
    rw [entries]
    split_ifs with same
    · subst same
      obtain rfl := Option.some.inj (held.symm.trans e_held)
      exact ⟨_, rfl, home⟩
    · exact ⟨e, e_held, home⟩
  · rw [keys]
    exact sound.once
  · split_ifs with same
    · constructor
      · rintro ⟨j, x, inside, e, e_held, bound, rfl⟩
        rw [entries] at e_held
        split_ifs at e_held with here
        · exact (congrArg Prod.snd (Option.some.inj e_held)).symm
        · exact absurd (sound.same_node member inside held e_held (bound.trans same)) here
      · rintro rfl
        exact ⟨i, a, member, _, by rw [entries, if_pos rfl], same.symm, rfl⟩
    · have other {x : ℕ} {e : K × V} (bound : bytes e.1 = b) (known : table.entry x = some e) : x ≠ a := by
        rintro rfl
        obtain rfl := Option.some.inj (held.symm.trans known)
        exact same bound.symm
      constructor
      · rintro ⟨j, x, inside, e, e_held, bound, last⟩
        rw [entries] at e_held
        split_ifs at e_held with here
        · obtain rfl := Option.some.inj e_held
          exact absurd bound.symm same
        · exact ⟨j, x, inside, e, e_held, bound, last⟩
      · rintro ⟨j, x, inside, e, e_held, bound, last⟩
        exact ⟨j, x, inside, e, by rw [entries, if_neg (other bound e_held), e_held], bound, last⟩

/-- The table after a node for a new key is put at the head of its bucket. -/
def prepend (bytes : K → List UInt8) (table : HashTable K V) (key : K) (value : V) : HashTable K V :=
  { (table.write table.fresh (some ⟨key, value, table.m_buckets (table.hashOf bytes key)⟩)).setBucket
      (table.hashOf bytes key) (some table.fresh) with
    fresh := table.fresh + 1, m_count := table.m_count + 1 }

/-- One chain is replaced; the others keep their nodes, keys and pointers. -/
theorem Sound.change (sound : Sound bytes table chain) {table' : HashTable K V} {idx : ℕ} {nodes : List ℕ}
    (bucketCount : table'.m_bucketCount = table.m_bucketCount) (grows : table.fresh ≤ table'.fresh)
    (others : ∀ i, i ≠ idx → table'.m_buckets i = table.m_buckets i ∧
      ∀ a ∈ chain i, table'.entry a = table.entry a ∧ table'.nextOf a = table.nextOf a)
    (linked : Linked table'.nextOf (table'.m_buckets idx) nodes)
    (home : ∀ a ∈ nodes, a < table'.fresh ∧ ∃ e, table'.entry a = some e ∧ table.hashOf bytes e.1 = idx)
    (once : (nodes.map (keyBytes bytes table')).Nodup) :
    Sound bytes table' (Function.update chain idx nodes) := by
  have hashes (key : K) : table'.hashOf bytes key = table.hashOf bytes key := by rw [hashOf, hashOf, bucketCount]
  constructor <;> intro i <;> by_cases here : i = idx
  · subst here
    rwa [Function.update_self]
  · rw [Function.update_of_ne here, (others i here).1]
    exact (sound.linked i).congr fun a member => ((others i here).2 a member).2
  · subst here
    rw [Function.update_self]
    intro a member
    obtain ⟨-, e, held, at_home⟩ := home a member
    exact ⟨e, held, (hashes e.1).trans at_home⟩
  · rw [Function.update_of_ne here]
    intro a member
    obtain ⟨e, held, at_home⟩ := sound.home i a member
    exact ⟨e, ((others i here).2 a member).1.trans held, (hashes e.1).trans at_home⟩
  · subst here
    rwa [Function.update_self]
  · rw [Function.update_of_ne here, List.map_congr_left fun a member => ?_]
    · exact sound.once i
    · rw [keyBytes, keyBytes, ((others i here).2 a member).1]
  · subst here
    rw [Function.update_self]
    exact fun a member => (home a member).1
  · rw [Function.update_of_ne here]
    exact fun a member => (sound.below i a member).trans_le grows

theorem Sound.prepend (sound : Sound bytes table chain) {key : K} (value : V)
    (absent : ∀ a ∈ chain (table.hashOf bytes key), ∀ e, table.entry a = some e → bytes e.1 ≠ bytes key) :
    Sound bytes (prepend bytes table key value)
        (Function.update chain (table.hashOf bytes key) (table.fresh :: chain (table.hashOf bytes key))) ∧
      ∀ b v, Bound bytes (prepend bytes table key value)
          (Function.update chain (table.hashOf bytes key) (table.fresh :: chain (table.hashOf bytes key))) b v ↔
        if b = bytes key then v = value else Bound bytes table chain b v := by
  generalize at_key : table.hashOf bytes key = idx at *
  have fresh_out (i : ℕ) : table.fresh ∉ chain i := fun member => lt_irrefl _ (sound.below i _ member)
  have entries (x : ℕ) : (HashTable.prepend bytes table key value).entry x =
      if x = table.fresh then some (key, value) else table.entry x := by
    change (table.write table.fresh _).entry x = _
    rw [entry_write, Function.update_apply]
    rfl
  have next : (HashTable.prepend bytes table key value).nextOf =
      Function.update table.nextOf table.fresh (table.m_buckets idx) := by
    subst at_key
    exact nextOf_write _ _
  have old {i a : ℕ} (member : a ∈ chain i) : (HashTable.prepend bytes table key value).entry a = table.entry a := by
    rw [entries, if_neg (ne_of_mem_of_not_mem member (fresh_out i))]
  have buckets (i : ℕ) : (HashTable.prepend bytes table key value).m_buckets i =
      if i = idx then some table.fresh else table.m_buckets i := by
    subst at_key
    exact Function.update_apply ..
  constructor
  · refine sound.change rfl (Nat.le_succ _) (fun i other => ⟨?_, fun a member => ⟨old member, ?_⟩⟩) ?_ ?_ ?_
    · rw [buckets, if_neg other]
    · rw [next, Function.update_of_ne (ne_of_mem_of_not_mem member (fresh_out i))]
    · rw [next, buckets, if_pos rfl]
      exact (sound.linked idx).push (fresh_out idx)
    · intro a member
      rcases List.mem_cons.mp member with rfl | member
      · exact ⟨Nat.lt_succ_self _, _, by rw [entries, if_pos rfl], at_key⟩
      · obtain ⟨e, held, home⟩ := sound.home idx a member
        exact ⟨(sound.below idx a member).trans (Nat.lt_succ_self _), e, by rw [old member, held], home⟩
    · rw [List.map_cons, List.nodup_cons]
      constructor
      · rintro member
        obtain ⟨a, inside, same⟩ := List.mem_map.mp member
        obtain ⟨e, held, -⟩ := sound.home idx a inside
        rw [keyBytes, keyBytes, old inside, held, entries, if_pos rfl] at same
        exact absent a inside e held (Option.some.inj same)
      · rw [List.map_congr_left fun a member => ?_]
        · exact sound.once idx
        · rw [keyBytes, keyBytes, old member]
  · intro b v
    have inside (i a : ℕ) : a ∈ Function.update chain idx (table.fresh :: chain idx) i ↔
        (i = idx ∧ a = table.fresh) ∨ a ∈ chain i := by
      by_cases here : i = idx
      · subst here
        rw [Function.update_self, List.mem_cons, and_iff_right rfl]
      · rw [Function.update_of_ne here, or_iff_right (fun both => here both.1)]
    split_ifs with same
    · constructor
      · rintro ⟨i, a, member, e, held, bound, rfl⟩
        rcases (inside i a).mp member with ⟨-, rfl⟩ | member
        · rw [entries, if_pos rfl] at held
          exact (congrArg Prod.snd (Option.some.inj held)).symm
        · rw [old member] at held
          obtain ⟨_, known, home⟩ := sound.home i a member
          obtain rfl := Option.some.inj (held.symm.trans known)
          rw [hashOf_congr (bound.trans same), at_key] at home
          subst home
          exact absurd (bound.trans same) (absent a member e held)
      · rintro rfl
        exact ⟨idx, table.fresh, (inside ..).mpr (.inl ⟨rfl, rfl⟩), _, by rw [entries, if_pos rfl], same.symm, rfl⟩
    · constructor
      · rintro ⟨i, a, member, e, held, bound, last⟩
        rcases (inside i a).mp member with ⟨-, rfl⟩ | member
        · rw [entries, if_pos rfl] at held
          obtain rfl := Option.some.inj held
          exact absurd bound.symm same
        · exact ⟨i, a, member, e, by rw [← old member, held], bound, last⟩
      · rintro ⟨i, a, member, e, held, bound, last⟩
        exact ⟨i, a, (inside ..).mpr (.inr member), e, by rw [old member, held], bound, last⟩

/-- What `erase` writes when it takes a node out behind `prev`. -/
structure Unlinked (table : HashTable K V) (idx : ℕ) (prev : Option ℕ) (a : ℕ) (table' : HashTable K V) : Prop where
  entries : ∀ x, table'.entry x = if x = a then none else table.entry x
  next : ∀ x, x ≠ a → table'.nextOf x = if prev = some x then table.nextOf a else table.nextOf x
  buckets : ∀ i, table'.m_buckets i = if i = idx ∧ prev = none then table.nextOf a else table.m_buckets i
  fresh : table'.fresh = table.fresh
  bucketCount : table'.m_bucketCount = table.m_bucketCount
  count : table'.m_count = table.m_count - 1

theorem unlink_spec {idx a : ℕ} {prev : Option ℕ} (there : ∀ p, prev = some p → ∃ node, table.heap p = some node) :
    ∃ table', table.unlink idx prev a (table.nextOf a) = some table' ∧ Unlinked table idx prev a table' := by
  cases prev with
  | none =>
    refine ⟨_, rfl, fun x => ?_, fun x other => ?_, fun i => ?_, rfl, rfl, rfl⟩
    · change ((table.setBucket idx (table.nextOf a)).write a none).entry x = _
      rw [entry_write, Function.update_apply]
      rfl
    · change ((table.setBucket idx (table.nextOf a)).write a none).nextOf x = _
      rw [nextOf_write, Function.update_of_ne other, if_neg (Option.some_ne_none x).symm]
      rfl
    · simp only [and_true]
      exact Function.update_apply ..
  | some p =>
    obtain ⟨node, here⟩ := there p rfl
    have ran : table.unlink idx (some p) a (table.nextOf a) =
        some { (table.write p (some { node with next := table.nextOf a })).write a none with
          m_count := table.m_count - 1 } := by
      rw [unlink, here]
      rfl
    refine ⟨_, ran, fun x => ?_, fun x other => ?_, fun i => ?_, rfl, rfl, rfl⟩
    · change ((table.write p (some { node with next := table.nextOf a })).write a none).entry x = _
      rw [entry_write, Function.update_apply]
      split_ifs with same
      · rfl
      · rw [entry_write, Function.update_apply]
        split_ifs with at_p
        · rw [at_p, entry, here]
          rfl
        · rfl
    · change ((table.write p (some { node with next := table.nextOf a })).write a none).nextOf x = _
      rw [nextOf_write, Function.update_of_ne other, nextOf_write, Function.update_apply]
      simp only [Option.some_inj, eq_comm (a := p)]
      rfl
    · rw [if_neg (by simp)]
      rfl

theorem Sound.unlinked (sound : Sound bytes table chain) {table' : HashTable K V} {idx a : ℕ} {before after : List ℕ}
    (split : chain idx = before ++ a :: after) (unlinked : Unlinked table idx before.getLast? a table')
    {e : K × V} (held : table.entry a = some e) :
    Sound bytes table' (Function.update chain idx (before ++ after)) ∧
      ∀ b v, Bound bytes table' (Function.update chain idx (before ++ after)) b v ↔
        b ≠ bytes e.1 ∧ Bound bytes table chain b v := by
  have member : a ∈ chain idx := by simp [split]
  have nodup : (before ++ a :: after).Nodup := split ▸ sound.nodup idx
  have out : a ∉ before ++ after := (List.nodup_middle.mp nodup).notMem
  have kept {x : ℕ} (inside : x ∈ before ++ after) : x ∈ chain idx := by
    rw [split]
    exact List.mem_append.mpr ((List.mem_append.mp inside).imp_right (List.mem_cons_of_mem a))
  have old {x : ℕ} (other : x ≠ a) : table'.entry x = table.entry x := by rw [unlinked.entries, if_neg other]
  have elsewhere {i x : ℕ} (other : i ≠ idx) (inside : x ∈ chain i) : x ≠ a := by
    rintro rfl
    exact other (sound.apart inside member)
  constructor
  · refine sound.change unlinked.bucketCount unlinked.fresh.ge (fun i other => ⟨?_, fun x inside => ⟨?_, ?_⟩⟩) ?_ ?_ ?_
    · rw [unlinked.buckets, if_neg fun both => other both.1]
    · exact old (elsewhere other inside)
    · rw [unlinked.next x (elsewhere other inside), if_neg]
      intro last
      have here : x ∈ chain idx := by
        rw [split]
        exact List.mem_append_left _ (List.mem_of_getLast? last)
      exact other (sound.apart inside here)
    · -- at the head of the chain the bucket is written, elsewhere the node before
      have linked := sound.linked idx
      rw [split] at linked
      rcases List.eq_nil_or_concat' before with rfl | ⟨pre, p, rfl⟩
      · rw [unlinked.buckets, if_pos ⟨rfl, rfl⟩]
        refine linked.2.congr fun x inside => ?_
        rw [unlinked.next x (ne_of_mem_of_not_mem inside out)]
        rfl
      · have last : (pre ++ [p]).getLast? = some p := List.getLast?_concat
        rw [List.append_assoc] at linked nodup
        rw [last] at unlinked
        rw [unlinked.buckets, if_neg fun both => Option.some_ne_none p both.2, List.append_assoc]
        rw [List.append_assoc] at out
        refine (Linked.bypass nodup linked).congr fun x inside => ?_
        rw [unlinked.next x (ne_of_mem_of_not_mem inside out), Function.update_apply]
        simp only [Option.some_inj, eq_comm]
    · intro x inside
      obtain ⟨f, known, home⟩ := sound.home idx x (kept inside)
      exact ⟨(sound.below idx x (kept inside)).trans_le unlinked.fresh.ge, f,
        (old (ne_of_mem_of_not_mem inside out)).trans known, home⟩
    · have fewer : (before ++ after).Sublist (chain idx) := by
        rw [split]
        exact List.Sublist.append_left (List.sublist_cons_self a after) before
      rw [List.map_congr_left fun x inside => ?_]
      · exact (sound.once idx).sublist (fewer.map _)
      · rw [keyBytes, keyBytes, old (ne_of_mem_of_not_mem inside out)]
  · intro b v
    have inside (i x : ℕ) : x ∈ Function.update chain idx (before ++ after) i ↔ x ∈ chain i ∧ x ≠ a := by
      by_cases here : i = idx
      · subst here
        rw [Function.update_self, split]
        constructor
        · exact fun there => ⟨split ▸ kept there, ne_of_mem_of_not_mem there out⟩
        · rintro ⟨there, other⟩
          simpa [other] using there
      · rw [Function.update_of_ne here]
        exact (and_iff_left_of_imp fun there => elsewhere here there).symm
    constructor
    · rintro ⟨i, x, there, f, known, bound, last⟩
      obtain ⟨there, other⟩ := (inside i x).mp there
      rw [old other] at known
      refine ⟨fun same => other (sound.same_node member there held known (bound.trans same)), ?_⟩
      exact ⟨i, x, there, f, known, bound, last⟩
    · rintro ⟨different, i, x, there, f, known, bound, last⟩
      have other : x ≠ a := by
        rintro rfl
        obtain rfl := Option.some.inj (held.symm.trans known)
        exact different bound.symm
      exact ⟨i, x, (inside i x).mpr ⟨there, other⟩, f, (old other).trans known, bound, last⟩

/-! ## The finite map -/

/-- The chains hold the bindings of the finite map, and `m_count` is their number. -/
def Refines (bytes : K → List UInt8) (table : HashTable K V) (d : Finmap fun _ : List UInt8 => V) : Prop :=
  ∃ chain, Sound bytes table chain ∧ (∀ b v, d.lookup b = some v ↔ Bound bytes table chain b v) ∧
    table.m_count = d.keys.card

theorem refines_create (bytes : K → List UInt8) (bucketCount : ℕ) :
    Refines bytes (create bucketCount : HashTable K V) ∅ := by
  refine ⟨fun _ => [], ⟨fun _ => rfl, by simp, by simp, by simp⟩, fun b v => ?_, rfl⟩
  rw [Finmap.lookup_empty]
  refine iff_of_false (Option.some_ne_none v).symm ?_
  rintro ⟨i, a, member, -⟩
  exact absurd member List.not_mem_nil

variable [BEq K] {key : K}

/-- What the loops find in the bucket of a key. -/
theorem Sound.search (sound : Sound bytes table chain) (key : K) :
    table.search key (table.fresh + 1) (table.m_buckets (table.hashOf bytes key)) =
      some ((chain (table.hashOf bytes key)).find? (table.holds key)) :=
  search_eq (sound.linked _) (fun _ member => sound.allocated member) (Nat.lt_succ_of_le (sound.length_le _))

theorem Sound.holds_iff (coincides : ∀ a b : K, (a == b) = true ↔ bytes a = bytes b) {a : ℕ} {e : K × V}
    (held : table.entry a = some e) : table.holds key a = true ↔ bytes e.1 = bytes key := by
  rw [holds, held, Option.any_some, coincides]

/-- A key that no node of its bucket holds is not bound. -/
theorem Sound.unbound (sound : Sound bytes table chain) (coincides : ∀ a b : K, (a == b) = true ↔ bytes a = bytes b)
    (absent : (chain (table.hashOf bytes key)).find? (table.holds key) = none) :
    (∀ a ∈ chain (table.hashOf bytes key), ∀ e, table.entry a = some e → bytes e.1 ≠ bytes key) ∧
      ∀ v, ¬ Bound bytes table chain (bytes key) v := by
  have others : ∀ a ∈ chain (table.hashOf bytes key), ∀ e, table.entry a = some e → bytes e.1 ≠ bytes key :=
    fun a member e held same =>
      List.find?_eq_none.mp absent a member ((holds_iff coincides held).mpr same)
  refine ⟨others, ?_⟩
  rintro v ⟨i, a, member, e, held, bound, -⟩
  obtain ⟨_, known, home⟩ := sound.home i a member
  obtain rfl := Option.some.inj (held.symm.trans known)
  rw [hashOf_congr bound] at home
  subst home
  exact others a member e held bound

/-- The node that the loops find holds the key and its value. -/
theorem Sound.found (sound : Sound bytes table chain) (coincides : ∀ a b : K, (a == b) = true ↔ bytes a = bytes b)
    {a : ℕ} (present : (chain (table.hashOf bytes key)).find? (table.holds key) = some a) :
    a ∈ chain (table.hashOf bytes key) ∧ ∃ node, table.heap a = some node ∧
      table.entry a = some (node.key, node.value) ∧ bytes node.key = bytes key ∧
      Bound bytes table chain (bytes key) node.value := by
  have member := List.mem_of_find?_eq_some present
  obtain ⟨node, here⟩ := sound.allocated member
  have held : table.entry a = some (node.key, node.value) := by rw [entry, here, Option.map_some]
  have same := (holds_iff coincides held).mp (List.find?_some present)
  exact ⟨member, node, here, held, same, _, a, member, _, held, same, rfl⟩

theorem insert_refines (coincides : ∀ a b : K, (a == b) = true ↔ bytes a = bytes b)
    {d : Finmap fun _ : List UInt8 => V} (refines : Refines bytes table d) (key : K) (value : V) :
    ∃ table', table.insert bytes key value = some table' ∧ Refines bytes table' (d.insert (bytes key) value) := by
  obtain ⟨chain, sound, bindings, count⟩ := refines
  have searched := sound.search key
  cases looked : (chain (table.hashOf bytes key)).find? (table.holds key) with
  | none =>
    obtain ⟨absent, unbound⟩ := sound.unbound coincides looked
    obtain ⟨sound', bindings'⟩ := sound.prepend value absent
    have new : bytes key ∉ d := by
      rw [← Finmap.lookup_eq_none, Option.eq_none_iff_forall_ne_some]
      exact fun v bound => unbound v ((bindings _ v).mp bound)
    refine ⟨prepend bytes table key value, ?_, _, sound', fun b v => ?_, ?_⟩
    · rw [insert, searched, looked]
      rfl
    · rw [FiniteMap.lookup_insert_iff, bindings', bindings]
    · rw [FiniteMap.card_keys_insert new]
      exact congrArg (· + 1) count
  | some a =>
    obtain ⟨member, node, here, held, same, bound⟩ := sound.found coincides looked
    obtain ⟨sound', bindings'⟩ := sound.overwrite member here value
    have old : bytes key ∈ d := Finmap.mem_iff.mpr ⟨_, (bindings _ _).mpr bound⟩
    refine ⟨table.write a (some { node with value := value }), ?_, _, sound', fun b v => ?_, ?_⟩
    · rw [insert, searched, looked]
      simp only [Option.bind_some, here, Option.map_some]
    · rw [FiniteMap.lookup_insert_iff, bindings', bindings, same]
    · rw [FiniteMap.card_keys_insert_of_mem old]
      exact count

theorem erase_refines (coincides : ∀ a b : K, (a == b) = true ↔ bytes a = bytes b)
    {d : Finmap fun _ : List UInt8 => V} (refines : Refines bytes table d) (key : K) :
    ∃ table', table.erase bytes key = some (table', decide (bytes key ∈ d)) ∧
      Refines bytes table' (d.erase (bytes key)) := by
  obtain ⟨chain, sound, bindings, count⟩ := refines
  have linked := sound.linked (table.hashOf bytes key)
  have there : ∀ a ∈ chain (table.hashOf bytes key), ∃ node, table.heap a = some node := fun _ member =>
    sound.allocated member
  have enough := Nat.lt_succ_of_le (sound.length_le (table.hashOf bytes key))
  cases looked : (chain (table.hashOf bytes key)).find? (table.holds key) with
  | none =>
    have others := List.find?_eq_none.mp looked
    obtain ⟨-, unbound⟩ := sound.unbound coincides looked
    have absent : bytes key ∉ d := by
      rw [← Finmap.lookup_eq_none, Option.eq_none_iff_forall_ne_some]
      exact fun v bound => unbound v ((bindings _ v).mp bound)
    refine ⟨table, ?_, ?_⟩
    · rw [erase, decide_eq_false absent]
      exact eraseLoop_absent linked there enough fun a member => Bool.not_eq_true _ ▸ others a member
    · have same : d.erase (bytes key) = d := Finmap.ext_lookup fun b => by
        by_cases at_key : b = bytes key
        · rw [at_key, Finmap.lookup_erase, Finmap.lookup_eq_none.mpr absent]
        · rw [Finmap.lookup_erase_ne at_key]
      rw [same]
      exact ⟨chain, sound, bindings, count⟩
  | some a =>
    obtain ⟨member, node, here, held, same, bound⟩ := sound.found coincides looked
    obtain ⟨present, before, after, split, others⟩ := List.find?_eq_some_iff_append.mp looked
    have old : bytes key ∈ d := Finmap.mem_iff.mpr ⟨_, (bindings _ _).mpr bound⟩
    rw [split] at linked there enough
    obtain ⟨table', ran, unlinked⟩ := @unlink_spec _ _ table (table.hashOf bytes key) a before.getLast?
      fun p last => there p (List.mem_append_left _ (List.mem_of_getLast? last))
    obtain ⟨sound', bindings'⟩ := sound.unlinked split unlinked held
    refine ⟨table', ?_, _, sound', fun b v => ?_, ?_⟩
    · rw [erase, decide_eq_true old, eraseLoop_present linked there enough
        (fun x inside => by simpa using others x inside) present, Option.or_none, ran, Option.map_some]
    · rw [FiniteMap.lookup_erase_iff, bindings', bindings, same]
    · have fewer := FiniteMap.card_keys_erase old
      rw [unlinked.count, count]
      omega

theorem find_refines (coincides : ∀ a b : K, (a == b) = true ↔ bytes a = bytes b)
    {d : Finmap fun _ : List UInt8 => V} (refines : Refines bytes table d) (key : K) :
    table.find bytes key = some (d.lookup (bytes key)) := by
  obtain ⟨chain, sound, bindings, count⟩ := refines
  have searched := sound.search key
  cases looked : (chain (table.hashOf bytes key)).find? (table.holds key) with
  | none =>
    obtain ⟨-, unbound⟩ := sound.unbound coincides looked
    have absent : d.lookup (bytes key) = none := by
      rw [Option.eq_none_iff_forall_ne_some]
      exact fun v bound => unbound v ((bindings _ v).mp bound)
    rw [find, searched, looked, absent]
    rfl
  | some a =>
    obtain ⟨member, node, here, held, same, bound⟩ := sound.found coincides looked
    rw [find, searched, looked, (bindings _ _).mpr bound]
    simp only [Option.bind_some, here, Option.map_some]

/-- A call keeps the refinement, with the reply of the finite map. -/
theorem call_refines (coincides : ∀ a b : K, (a == b) = true ↔ bytes a = bytes b)
    {d : Finmap fun _ : List UInt8 => V} (refines : Refines bytes table d) (c : FiniteMap.Call K V) :
    ∃ table', table.call bytes c = some (table', (FiniteMap.answer bytes d c).2) ∧
      Refines bytes table' (FiniteMap.answer bytes d c).1 := by
  cases c with
  | insert key value =>
    obtain ⟨table', ran, refines'⟩ := insert_refines coincides refines key value
    exact ⟨table', by rw [call, ran]; rfl, refines'⟩
  | erase key =>
    obtain ⟨table', ran, refines'⟩ := erase_refines coincides refines key
    exact ⟨table', by rw [call, ran]; rfl, refines'⟩
  | find key => exact ⟨table, by rw [call, find_refines coincides refines key]; rfl, refines⟩

/-- On a fresh table every sequence of calls gives the replies and the count of a finite map from the
bytes of the keys. -/
theorem hashTable_refines_finmap (coincides : ∀ a b : K, (a == b) = true ↔ bytes a = bytes b) (bucketCount : ℕ)
    (list : List (FiniteMap.Call K V)) :
    ∃ table, FiniteMap.calls (call bytes) (create bucketCount) list =
        some (table, (FiniteMap.answers bytes (∅ : Finmap fun _ : List UInt8 => V) list).2) ∧
      table.getCount = (FiniteMap.answers bytes (∅ : Finmap fun _ : List UInt8 => V) list).1.keys.card := by
  obtain ⟨table, ran, refines⟩ := FiniteMap.calls_refine (Refines bytes)
    (fun _ _ c refines => call_refines coincides refines c) list (refines_create bytes bucketCount)
  obtain ⟨_, -, -, count⟩ := refines
  exact ⟨table, ran, count⟩

/-- Eight-byte keys in a table of one bucket, where all of them collide. -/
theorem hashTable_refines_finmap_collides :
    let list : List (FiniteMap.Call (BitVec (8 * 8)) ℕ) :=
      [.insert 1 10, .insert 2 20, .insert 3 30, .insert 2 21, .erase 2, .find 2, .find 1]
    ∃ table, FiniteMap.calls (call LittleEndian.store) (create 1) list =
        some (table, (FiniteMap.answers LittleEndian.store (∅ : Finmap fun _ : List UInt8 => ℕ) list).2) ∧
      table.getCount = (FiniteMap.answers LittleEndian.store (∅ : Finmap fun _ : List UInt8 => ℕ) list).1.keys.card :=
  hashTable_refines_finmap (fun a b => by
    rw [beq_iff_eq]
    exact ⟨congrArg _, fun same => by rw [← LittleEndian.load_store a, same, LittleEndian.load_store]⟩) 1 _

end LockFreeCore.HashTable
