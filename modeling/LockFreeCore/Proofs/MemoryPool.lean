import LockFreeCore.Model.MemoryPool
import LockFreeCore.Proofs.LockFreeStack
import LockFreeCore.ToMathlib.WrappingCount
import Mathlib.Data.Set.Card

/-! # Every block of the pool has one place

The accesses of `alloc` and `free` are steps of the stack: of the thread inside the call, or of the heap
and the callers, which give a block to the call or get it back. So the free list stays a list, and the
owner of a block says where it is. The counters then count blocks, up to their wrap: `m_useCount` those that
are held or have just been passed to `free`, and `m_allocCount` all but those that have just been allocated.
-/

namespace LockFreeCore.MemoryPool

variable {τ : Type*} [DecidableEq τ] {pool next : MemoryPool τ} {thread : τ} {mine after : Local}

/-- The node of a `push`. -/
def pushed : LockFreeStack.Local ℕ → Option ℕ
  | .pushLoad node | .pushLoadTag node _ | .pushLoadPtr node _ | .pushLink node _ | .pushCas node _ => some node
  | _ => none

def Popping : LockFreeStack.Local ℕ → Prop
  | .popLoad | .popLoadTag _ | .popLoadPtr _ | .popLoadNext _ _ | .popCas _ _ _ => True
  | _ => False

/-- Where a thread is inside the free list. -/
def Local.inner : Local → LockFreeStack.Local ℕ
  | .allocPop inner | .freePush inner => inner
  | _ => .idle

/-- The block in transit inside a call. -/
def Local.block : Local → Option ℕ
  | .allocCount node | .allocUse node | .freeUse node => some node
  | .freePush inner => pushed inner
  | _ => none

/-- A call is inside the `pop` or the `push` that it makes. -/
def Local.Proper : Local → Prop
  | .allocPop inner => Popping inner
  | .freePush inner => ∃ node, pushed inner = some node
  | _ => True

/-- The assertion of the pool: a block is held once when it is outside and has been allocated. -/
structure Sound (pool : MemoryPool τ) : Prop where
  stack : LockFreeStack.Sound pool.m_freeList
  holders : ∀ b, pool.holders b = if b < pool.fresh ∧ pool.m_freeList.owner b = some none then 1 else 0
  unused : ∀ b, pool.fresh ≤ b → pool.m_freeList.owner b = some none

/-- The assertion of one thread: its call owns the block in transit and no other. -/
structure Thread (pool : MemoryPool τ) (thread : τ) (mine : Local) : Prop where
  inner : LockFreeStack.Thread pool.m_freeList (some thread) mine.inner
  owns : ∀ b, pool.m_freeList.owner b = some (some thread) ↔ mine.block = some b
  proper : mine.Proper

/-- Not in the hands of the calls of other threads. -/
def NotOthers (thread : τ) (owner : Option (Option τ)) : Prop := ∀ u, owner = some (some u) → u = thread

/-- What a step does for the other threads: at most one block changes hands, and it is not theirs. -/
structure Effect (thread : τ) (pool next : MemoryPool τ) : Prop where
  stable : ∀ u, u ≠ thread → ∀ inner, LockFreeStack.Thread pool.m_freeList (some u) inner →
    LockFreeStack.Thread next.m_freeList (some u) inner
  owners : next.m_freeList.owner = pool.m_freeList.owner ∨ ∃ b owner,
    next.m_freeList.owner = Function.update pool.m_freeList.owner b owner ∧
      NotOthers thread (pool.m_freeList.owner b) ∧ NotOthers thread owner

theorem Effect.owns (effect : Effect thread pool next) {u : τ} (other : u ≠ thread) (b : ℕ) :
    next.m_freeList.owner b = some (some u) ↔ pool.m_freeList.owner b = some (some u) := by
  rcases effect.owners with same | ⟨c, owner, same, before, now⟩
  · rw [same]
  · rw [same, Function.update_apply]
    split_ifs with here
    · subst here
      exact iff_of_false (fun held => other (now u held)) fun held => other (before u held)
    · rfl

/-- A step of the stack on behalf of the thread or of the outside is stable for the others. -/
theorem stable_of_took {actor : Option τ} {stack : LockFreeStack.Stack (Option τ) ℕ}
    {l l' : LockFreeStack.Local ℕ} (sound : Sound pool) (asserted : LockFreeStack.Thread pool.m_freeList actor l)
    (took : LockFreeStack.Took pool.m_freeList actor l stack l') (mine : actor = none ∨ actor = some thread) :
    ∀ u, u ≠ thread → ∀ inner, LockFreeStack.Thread pool.m_freeList (some u) inner →
      LockFreeStack.Thread stack (some u) inner := by
  intro u other inner theirs
  refine (took.advance sound.stack asserted).stable ?_ theirs
  rcases mine with rfl | rfl
  · exact Option.some_ne_none u
  · exact fun same => other (Option.some.inj same)

omit [DecidableEq τ] in
/-- Inside `pop` no owner changes until the swap takes the top for the thread. -/
theorem popping_took {stack : LockFreeStack.Stack (Option τ) ℕ} {l l' : LockFreeStack.Local ℕ}
    (popping : Popping l) (took : LockFreeStack.Took pool.m_freeList (some thread) l stack l') :
    (stack.owner = pool.m_freeList.owner ∧ (afterPop l l').block = none ∧ (afterPop l l').Proper) ∨
      ∃ node, afterPop l l' = .allocUse node ∧ pool.m_freeList.m_head.ptr = some node ∧
        stack.owner = Function.update pool.m_freeList.owner node (some (some thread)) := by
  cases took with
  | popSwap node tag next same => exact .inr ⟨node, rfl, by rw [same], rfl⟩
  | popPtr | popTag | popPtrTag | popTagPtr | popNext | popLost | popNullTag | popNullPtr =>
    exact .inl ⟨rfl, rfl, trivial⟩
  | _ => exact absurd popping not_false

omit [DecidableEq τ] in
/-- Inside `push` no owner changes until the swap gives the node up. -/
theorem pushing_took {stack : LockFreeStack.Stack (Option τ) ℕ} {l l' : LockFreeStack.Local ℕ} {node : ℕ}
    (pushing : pushed l = some node) (took : LockFreeStack.Took pool.m_freeList (some thread) l stack l') :
    (stack.owner = pool.m_freeList.owner ∧ l' ≠ .idle ∧ pushed l' = some node) ∨
      (l' = .idle ∧ stack.owner = Function.update pool.m_freeList.owner node none) := by
  cases took with
  | pushSwap other oldHead same =>
    cases pushing
    exact .inr ⟨rfl, rfl⟩
  | pushPtr | pushTag | pushPtrTag | pushTagPtr | pushLink | pushLost =>
    exact .inl ⟨rfl, by simp, pushing⟩
  | _ => cases pushing

/-- One block changes hands, and its holders with it. -/
theorem Sound.moved {node : ℕ} {owner : Option (Option τ)} (sound : Sound pool)
    (stack : LockFreeStack.Sound next.m_freeList) (created : node < pool.fresh) (fresh : next.fresh = pool.fresh)
    (owners : next.m_freeList.owner = Function.update pool.m_freeList.owner node owner)
    (holders : ∀ b, next.holders b = if b = node then if owner = some none then 1 else 0 else pool.holders b) :
    Sound next where
  stack := stack
  holders b := by
    rw [holders, owners, fresh, Function.update_apply]
    split_ifs with here <;> simp_all [sound.holders b]
  unused b above := by
    rw [fresh] at above
    rw [owners, Function.update_of_ne (created.trans_le above).ne']
    exact sound.unused b above

theorem Sound.created (sound : Sound pool) {node : ℕ} (elsewhere : pool.m_freeList.owner node ≠ some none) :
    node < pool.fresh :=
  not_le.mp fun above => elsewhere (sound.unused node above)

/-- A block that is not outside is held by no caller. -/
theorem Sound.unheld (sound : Sound pool) {node : ℕ} (elsewhere : pool.m_freeList.owner node ≠ some none) :
    pool.holders node = 0 := by
  rw [sound.holders, if_neg fun both => elsewhere both.2]

theorem Sound.held (sound : Sound pool) {node : ℕ} (held : 0 < pool.holders node) :
    node < pool.fresh ∧ pool.m_freeList.owner node = some none ∧ pool.holders node = 1 := by
  have formula := sound.holders node
  split_ifs at formula with both
  · exact ⟨both.1, both.2, formula⟩
  · exact absurd formula held.ne'

theorem Sound.top (sound : Sound pool) {node : ℕ} (top : pool.m_freeList.m_head.ptr = some node) :
    pool.m_freeList.owner node = none := by
  obtain ⟨nodes, _, linked, _, off⟩ := sound.stack.chain
  obtain ⟨rest, rfl, _⟩ := Linked.head (top ▸ linked)
  exact (off node).mp (List.mem_cons_self ..)

/-- Owners are as before, up to one block that comes to the call or leaves it. -/
theorem Thread.owns_update {node : ℕ} {owner : Option (Option τ)} (asserted : Thread pool thread mine)
    (owners : next.m_freeList.owner = Function.update pool.m_freeList.owner node owner)
    (block : ∀ b, after.block = some b ↔ if b = node then owner = some (some thread) else mine.block = some b) (b : ℕ) :
    next.m_freeList.owner b = some (some thread) ↔ after.block = some b := by
  rw [owners, block, Function.update_apply]
  split_ifs
  · rfl
  · exact asserted.owns b

/-- A block that is outside or in the hands of the call goes to the other of them. -/
theorem Sound.gives (sound : Sound pool) {node : ℕ} {giver : Option τ} (owned : pool.m_freeList.owner node = some giver)
    (receiver : Option τ) (mine : giver = none ∨ giver = some thread) :
    LockFreeStack.Sound (pool.m_freeList.setOwner node (some receiver)) ∧
      ∀ u, u ≠ thread → ∀ inner, LockFreeStack.Thread pool.m_freeList (some u) inner →
        LockFreeStack.Thread (pool.m_freeList.setOwner node (some receiver)) (some u) inner := by
  have took : LockFreeStack.Took pool.m_freeList giver .idle _ .idle := .give node receiver owned
  have idle : LockFreeStack.Thread pool.m_freeList giver .idle := by trivial
  exact ⟨sound.stack.give owned receiver, stable_of_took sound idle took mine⟩

/-- A step keeps the assertions of the pool and of its thread, and takes nothing from the others. -/
theorem Took.keeps (brief : LockFreeStack.Brief pool.m_freeList.log (some thread) mine.inner) (sound : Sound pool)
    (asserted : Thread pool thread mine) (took : Took pool thread mine next after) :
    Sound next ∧ Thread next thread after ∧ Effect thread pool next := by
  cases took with
  | callAlloc =>
    have called : LockFreeStack.Took pool.m_freeList (some thread) .idle _ .popLoad := .callPop
    have kept := called.sound brief sound.stack asserted.inner
    exact ⟨⟨kept.1, sound.holders, sound.unused⟩, ⟨kept.2, asserted.owns, trivial⟩,
      stable_of_took sound asserted.inner called (.inr rfl), .inl rfl⟩
  | callFree p held =>
    obtain ⟨created, outside, once⟩ := sound.held held
    obtain ⟨kept, stable⟩ := sound.gives outside (some thread) (.inl rfl)
    refine ⟨sound.moved kept created rfl rfl fun b => ?_, ⟨trivial, asserted.owns_update rfl fun b => ?_, trivial⟩,
      stable, .inr ⟨p, _, rfl, by simp [NotOthers, outside], by simp [NotOthers]⟩⟩
    · simp [Function.update_apply, once]
    · simp [Local.block, eq_comm]
  | @pops inner left stack took =>
    have kept := took.sound brief sound.stack asserted.inner
    have stable := stable_of_took sound asserted.inner took (.inr rfl)
    have inside : LockFreeStack.Thread stack (some thread) (afterPop inner left).inner := by
      unfold afterPop
      split_ifs
      · split <;> trivial
      · exact kept.2
    rcases popping_took asserted.proper took with ⟨same, block, proper⟩ | ⟨node, left, top, changed⟩
    · refine ⟨⟨kept.1, ?_, ?_⟩, ⟨inside, fun b => ?_, proper⟩, stable, .inl same⟩
      · simpa only [same] using sound.holders
      · simpa only [same] using sound.unused
      · rw [same, block]
        exact asserted.owns b
    · have elsewhere : pool.m_freeList.owner node ≠ some none := by simp [sound.top top]
      refine ⟨sound.moved kept.1 (sound.created elsewhere) rfl changed fun b => ?_,
        ⟨inside, asserted.owns_update changed fun b => ?_, by rw [left]; trivial⟩,
        stable, .inr ⟨node, _, changed, by simp [NotOthers, sound.top top], by simp [NotOthers]⟩⟩
      · by_cases here : b = node <;> simp [here, sound.unheld elsewhere]
      · rw [left]
        simp [Local.block, eq_comm]
  | new =>
    have outside := sound.unused pool.fresh le_rfl
    obtain ⟨kept, stable⟩ := sound.gives outside (some thread) (.inl rfl)
    refine ⟨⟨kept, fun b => (sound.holders b).trans (if_congr ?_ rfl rfl), fun b above => ?_⟩,
      ⟨trivial, asserted.owns_update rfl fun b => ?_, trivial⟩,
      stable, .inr ⟨pool.fresh, _, rfl, by simp [NotOthers, outside], by simp [NotOthers]⟩⟩
    · change _ ↔ b < pool.fresh + 1 ∧ Function.update pool.m_freeList.owner pool.fresh (some (some thread)) b = some none
      rw [Function.update_apply]
      split_ifs <;> grind
    · have apart : b ≠ pool.fresh := (Nat.lt_of_succ_le above).ne'
      exact (Function.update_of_ne apart ..).trans (sound.unused b (Nat.le_of_succ_le above))
    · simp [Local.block, eq_comm]
  | count node =>
    exact ⟨⟨sound.stack, sound.holders, sound.unused⟩, ⟨trivial, asserted.owns, trivial⟩,
      fun _ _ _ theirs => theirs, .inl rfl⟩
  | returns node =>
    have owned := (asserted.owns node).mpr rfl
    have elsewhere : pool.m_freeList.owner node ≠ some none := by simp [owned]
    obtain ⟨kept, stable⟩ := sound.gives owned none (.inr rfl)
    refine ⟨sound.moved kept (sound.created elsewhere) rfl rfl fun b => ?_,
      ⟨trivial, asserted.owns_update rfl fun b => ?_, trivial⟩,
      stable, .inr ⟨node, _, rfl, by simp [NotOthers, owned], by simp [NotOthers]⟩⟩
    · simp [Function.update_apply, sound.unheld elsewhere]
    · rcases eq_or_ne b node with rfl | apart
      · simp [Local.block]
      · simp [Local.block, apart, apart.symm]
  | unuse node =>
    have owned := (asserted.owns node).mpr rfl
    exact ⟨⟨sound.stack, sound.holders, sound.unused⟩, ⟨owned, asserted.owns, node, rfl⟩,
      fun _ _ _ theirs => theirs, .inl rfl⟩
  | @pushes inner left stack took =>
    obtain ⟨node, pushing⟩ := asserted.proper
    have kept := took.sound brief sound.stack asserted.inner
    have stable := stable_of_took sound asserted.inner took (.inr rfl)
    have owned := (asserted.owns node).mpr pushing
    have elsewhere : pool.m_freeList.owner node ≠ some none := by simp [owned]
    rcases pushing_took pushing took with ⟨same, inside, still⟩ | ⟨rfl, changed⟩
    · rw [if_neg inside]
      refine ⟨⟨kept.1, ?_, ?_⟩, ⟨kept.2, fun b => ?_, node, still⟩, stable, .inl same⟩
      · simpa only [same] using sound.holders
      · simpa only [same] using sound.unused
      · have block : (Local.freePush left).block = (Local.freePush inner).block := still.trans pushing.symm
        rw [same, block]
        exact asserted.owns b
    · refine ⟨sound.moved kept.1 (sound.created elsewhere) rfl changed fun b => ?_,
        ⟨trivial, asserted.owns_update changed fun b => ?_, trivial⟩,
        stable, .inr ⟨node, _, changed, by simp [NotOthers, owned], by simp [NotOthers]⟩⟩
      · by_cases here : b = node <;> simp [here, sound.unheld elsewhere]
      · rcases eq_or_ne b node with rfl | apart
        · simp [Local.block]
        · simp [Local.block, pushing, apart, apart.symm]

theorem start_annotated : Pool.Annotated Sound Thread (start (τ := τ)) := by
  refine ⟨⟨⟨rfl, ⟨[], rfl, rfl, List.nodup_nil, ?_⟩, ?_, ?_⟩, ?_, ?_⟩, fun t => ⟨trivial, ?_, trivial⟩⟩ <;>
    simp [start, Local.block]

/-- Fewer than `2 ^ 64` swaps have happened since the `pop` was called whose swap comes next. -/
def Brief (pool : Pool τ (MemoryPool τ) Local) (label : τ × Input) : Prop :=
  LockFreeStack.Brief pool.shared.m_freeList.log (some label.1) (pool.threads label.1).inner

theorem step_annotated {pool target : Pool τ (MemoryPool τ) Local} {label : τ × Input}
    (holds : Pool.Annotated Sound Thread pool) (brief : Brief pool label) (stepped : step pool label = some target) :
    Pool.Annotated Sound Thread target := by
  have mine := holds.threads label.1
  refine holds.step (fun _ _ ran => ?_) (fun _ _ ran u other theirs => ?_) stepped
  · have kept := (exec_took ran).keeps brief holds.shared mine
    exact ⟨kept.1, kept.2.1⟩
  · have effect := ((exec_took ran).keeps brief holds.shared mine).2.2
    exact ⟨effect.stable u other _ theirs.inner, fun b => (effect.owns other b).trans (theirs.owns b), theirs.proper⟩

/-! ### Counting -/

section Counting

variable {pool target : Pool τ (MemoryPool τ) Local} {label : τ × Input}

open Classical in
/-- The blocks that are held or have just been passed to `free`. -/
noncomputable def inUse (pool : Pool τ (MemoryPool τ) Local) : Finset ℕ :=
  {b ∈ Finset.range pool.shared.fresh |
    pool.shared.m_freeList.owner b = some none ∨ ∃ t, pool.threads t = .freeUse b}

open Classical in
/-- All blocks but those that have just been allocated. -/
noncomputable def counted (pool : Pool τ (MemoryPool τ) Local) : Finset ℕ :=
  {b ∈ Finset.range pool.shared.fresh | ∀ t, pool.threads t ≠ .allocCount b}

/-- The counters count, up to their wrap. -/
structure Counted (pool : Pool τ (MemoryPool τ) Local) : Prop where
  use : pool.shared.m_useCount = BitVec.ofNat 32 (inUse pool).card
  alloc : pool.shared.m_allocCount = BitVec.ofNat 32 (counted pool).card

theorem mem_inUse {b : ℕ} : b ∈ inUse pool ↔ b < pool.shared.fresh ∧
    (pool.shared.m_freeList.owner b = some none ∨ ∃ t, pool.threads t = .freeUse b) := by
  simp [inUse]

omit [DecidableEq τ] in
theorem mem_counted {b : ℕ} : b ∈ counted pool ↔
    b < pool.shared.fresh ∧ ¬∃ t, pool.threads t = .allocCount b := by
  simp [counted]

/-- The calls of the other threads own the blocks that they are about to count. -/
theorem owned_elsewhere (holds : Pool.Annotated Sound Thread pool) {t : τ} {b : ℕ} {state : Local}
    (block : state.block = some b) : (∃ u, u ≠ t ∧ pool.threads u = state) →
    pool.shared.m_freeList.owner b ≠ none ∧ pool.shared.m_freeList.owner b ≠ some none ∧
      pool.shared.m_freeList.owner b ≠ some (some t) := by
  rintro ⟨u, apart, rfl⟩
  rw [((holds.threads u).owns b).mpr block]
  simpa using apart

/-- A pop leaves `alloc` in front of neither counter. -/
theorem afterPop_ne (inner left : LockFreeStack.Local ℕ) (b : ℕ) :
    afterPop inner left ≠ .freeUse b ∧ afterPop inner left ≠ .allocCount b := by
  unfold afterPop
  split_ifs
  · split <;> simp
  · simp

theorem exists_thread (t : τ) (place : Local) : (∃ u, pool.threads u = place) ↔
    pool.threads t = place ∨ ∃ u, u ≠ t ∧ pool.threads u = place := by
  conv_lhs => rw [← Function.update_eq_self t pool.threads]
  exact Function.exists_update_iff pool.threads fun _ mine => mine = place

/-- What the next access of a thread does to the blocks in use. -/
def Local.use (blocks : Finset ℕ) : Local → Finset ℕ
  | .allocUse node => insert node blocks
  | .freeUse node => blocks.erase node
  | _ => blocks

/-- What the next access of a thread does to the blocks that are counted. -/
def Local.count (blocks : Finset ℕ) : Local → Finset ℕ
  | .allocCount node => insert node blocks
  | _ => blocks

theorem inUse_step {next : MemoryPool τ} {t : τ} {after : Local} (holds : Pool.Annotated Sound Thread pool)
    (took : Took pool.shared t (pool.threads t) next after) :
    inUse ⟨next, Function.update pool.threads t after⟩ = (pool.threads t).use (inUse pool) := by
  ext b
  have elsewhere := @owned_elsewhere _ _ pool holds t b (.freeUse b) rfl
  have mine := (holds.threads t).owns
  have member : b ∈ inUse pool ↔ _ := mem_inUse
  rw [exists_thread t] at member
  rw [mem_inUse]
  dsimp only
  rw [Function.exists_update_iff pool.threads (fun _ mine => mine = Local.freeUse b)]
  have sound := holds.shared
  have proper := (holds.threads t).proper
  generalize (∃ u, u ≠ t ∧ pool.threads u = Local.freeUse b) = others at *
  generalize pool.threads t = inside at *
  cases took with
  | callAlloc => simp [member, Local.use, LockFreeStack.Stack.record]
  | callFree p held =>
    have outside := sound.held held
    simp only [member, Local.use, setOwner, LockFreeStack.Stack.setOwner, Function.update_apply]
    grind
  | @pops inner left stack took =>
    have same := (afterPop_ne inner left b).1
    rcases popping_took proper took with ⟨owners, _⟩ | ⟨node, left, top, owners⟩
    · simp [member, owners, same, Local.use]
    · have listed := sound.top top
      simp only [member, Local.use, owners, Function.update_apply]
      grind
  | new =>
    have outside := sound.unused pool.shared.fresh le_rfl
    simp only [member, Local.use, setOwner, LockFreeStack.Stack.setOwner, Function.update_apply]
    grind
  | count node => simp [member, Local.use]
  | returns node =>
    have owned := (mine node).mpr rfl
    have created := sound.created (by simp [owned] : pool.shared.m_freeList.owner node ≠ some none)
    simp only [Local.use, Finset.mem_insert, member, setOwner, LockFreeStack.Stack.setOwner, Function.update_apply]
    grind
  | unuse node =>
    have owned := (mine node).mpr rfl
    simp only [Local.use, Finset.mem_erase, member]
    grind
  | @pushes inner left stack took =>
    obtain ⟨node, pushing⟩ := proper
    have owned := (mine node).mpr pushing
    have same : (if left = .idle then Local.idle else .freePush left) ≠ .freeUse b := by split_ifs <;> simp
    rcases pushing_took pushing took with ⟨owners, _⟩ | ⟨_, owners⟩
    · simp [member, owners, same, Local.use]
    · simp only [member, Local.use, owners, Function.update_apply]
      grind

theorem counted_step {next : MemoryPool τ} {t : τ} {after : Local} (holds : Pool.Annotated Sound Thread pool)
    (took : Took pool.shared t (pool.threads t) next after) :
    counted ⟨next, Function.update pool.threads t after⟩ = (pool.threads t).count (counted pool) := by
  ext b
  have elsewhere := @owned_elsewhere _ _ pool holds t b (.allocCount b) rfl
  have mine := (holds.threads t).owns
  have member : b ∈ counted pool ↔ _ := mem_counted
  rw [exists_thread t] at member
  rw [mem_counted]
  dsimp only
  rw [Function.exists_update_iff pool.threads (fun _ mine => mine = Local.allocCount b)]
  have sound := holds.shared
  generalize (∃ u, u ≠ t ∧ pool.threads u = Local.allocCount b) = others at *
  generalize pool.threads t = inside at *
  cases took with
  | callAlloc => simp [member, Local.count]
  | callFree p held => simp [member, Local.count, setOwner]
  | @pops inner left stack took =>
    have same := (afterPop_ne inner left b).2
    simp [member, same, Local.count]
  | new =>
    have outside := sound.unused pool.shared.fresh le_rfl
    simp only [member, Local.count]
    grind
  | count node =>
    have owned := (mine node).mpr rfl
    have created := sound.created (by simp [owned] : pool.shared.m_freeList.owner node ≠ some none)
    simp only [Local.count, Finset.mem_insert, member]
    grind
  | returns node => simp [member, Local.count, setOwner]
  | unuse node => simp [member, Local.count]
  | @pushes inner left stack took =>
    have same : (if left = .idle then Local.idle else .freePush left) ≠ .allocCount b := by split_ifs <;> simp
    simp [member, same, Local.count]

/-- The thread that has the block in transit is the only one. -/
theorem transit_unique (holds : Pool.Annotated Sound Thread pool) {t u : τ} {b : ℕ}
    (left : (pool.threads t).block = some b) (right : (pool.threads u).block = some b) : t = u := by
  have one := ((holds.threads t).owns b).mpr left
  have two := ((holds.threads u).owns b).mpr right
  exact Option.some.inj (Option.some.inj (one.symm.trans two))

theorem transit_created (holds : Pool.Annotated Sound Thread pool) {t : τ} {b : ℕ}
    (transit : (pool.threads t).block = some b) : b < pool.shared.fresh :=
  holds.shared.created (by simp [((holds.threads t).owns b).mpr transit])

theorem Counted.step (counts : Counted pool) (holds : Pool.Annotated Sound Thread pool)
    (stepped : step pool label = some target) : Counted target := by
  obtain ⟨next, after, ran, rfl⟩ := Pool.step_eq_some.mp stepped
  have took := exec_took ran
  refine ⟨?_, ?_⟩
  · rw [inUse_step holds took]
    have now := counts.use
    have apart (node : ℕ) (here : pool.threads label.1 = .allocUse node) : node ∉ inUse pool := by
      intro member
      have owned := ((holds.threads label.1).owns node).mpr (by rw [here, Local.block])
      rcases (mem_inUse.mp member).2 with outside | ⟨u, there⟩
      · simp [owned] at outside
      · obtain rfl := transit_unique holds (by rw [here, Local.block]) (by rw [there, Local.block])
        simp [here] at there
    have member (node : ℕ) (here : pool.threads label.1 = .freeUse node) : node ∈ inUse pool :=
      mem_inUse.mpr ⟨transit_created holds (by rw [here, Local.block]), .inr ⟨label.1, here⟩⟩
    generalize pool.threads label.1 = mine at took apart member
    cases took with
    | returns node => simp [Local.use, Finset.card_insert_of_notMem (apart node rfl), now, BitVec.ofNat_add]
    | unuse node =>
      rw [Local.use, now, ← Finset.card_erase_add_one (member node rfl), BitVec.ofNat_add]
      exact BitVec.add_sub_cancel ..
    | _ => exact now
  · rw [counted_step holds took]
    have now := counts.alloc
    have apart (node : ℕ) (here : pool.threads label.1 = .allocCount node) : node ∉ counted pool :=
      fun member => (mem_counted.mp member).2 ⟨label.1, here⟩
    generalize pool.threads label.1 = mine at took apart
    cases took with
    | count node => simp [Local.count, Finset.card_insert_of_notMem (apart node rfl), now, BitVec.ofNat_add]
    | _ => exact now

theorem start_counted : Counted (start (τ := τ)) := by
  constructor <;> simp [start, inUse, counted]

/-- The pool along a run: every block has one place, and the counters count. -/
theorem run_counted {labels : List (τ × Input)} (brief : Replay.Along step Brief start labels)
    (run : Replay.replay step start labels = some pool) :
    Pool.Annotated Sound Thread pool ∧ Counted pool :=
  Replay.invariant (fun pool => Pool.Annotated Sound Thread pool ∧ Counted pool)
    (fun _ _ _ both brief stepped => ⟨step_annotated both.1 brief stepped, both.2.step both.1 stepped⟩)
    ⟨start_annotated, start_counted⟩ brief run

theorem inUse_subset (holds : Pool.Annotated Sound Thread pool) : inUse pool ⊆ counted pool := by
  intro b member
  obtain ⟨created, either⟩ := mem_inUse.mp member
  refine mem_counted.mpr ⟨created, fun ⟨t, here⟩ => ?_⟩
  have owned := ((holds.threads t).owns b).mpr (by rw [here, Local.block])
  rcases either with outside | ⟨u, there⟩
  · simp [owned] at outside
  · obtain rfl := transit_unique holds (by rw [here, Local.block]) (by rw [there, Local.block])
    simp [here] at there

omit [DecidableEq τ] in
theorem counted_le (pool : Pool τ (MemoryPool τ) Local) : (counted pool).card ≤ pool.shared.fresh := by
  have inside : counted pool ⊆ Finset.range pool.shared.fresh :=
    fun b member => Finset.mem_range.mpr (mem_counted.mp member).1
  exact (Finset.card_le_card inside).trans (Finset.card_range _).le

theorem Counted.use_toInt (counts : Counted pool) (holds : Pool.Annotated Sound Thread pool)
    (few : (counted pool).card < 2 ^ 31) : pool.shared.m_useCount.toInt = (inUse pool).card := by
  rw [counts.use]
  have below := (Finset.card_le_card (inUse_subset holds)).trans_lt few
  exact WrappingCount.toInt_ofNat (by omega)

theorem Counted.alloc_toInt (counts : Counted pool) (few : (counted pool).card < 2 ^ 31) :
    pool.shared.m_allocCount.toInt = (counted pool).card := by
  rw [counts.alloc]
  exact WrappingCount.toInt_ofNat (by omega)

/-- The blocks that callers hold. -/
def held (pool : MemoryPool τ) : Finset ℕ := {b ∈ Finset.range pool.fresh | 0 < pool.holders b}

theorem mem_held (sound : Sound pool.shared) {b : ℕ} :
    b ∈ held pool.shared ↔ b < pool.shared.fresh ∧ pool.shared.m_freeList.owner b = some none := by
  rw [held, Finset.mem_filter, Finset.mem_range]
  refine and_congr_right fun created => ⟨fun positive => (sound.held positive).2.1, fun outside => ?_⟩
  rw [sound.holders, if_pos ⟨created, outside⟩]
  exact one_pos

/-- Every block is held once, or on the free list, or in transit in one call. -/
theorem one_place (holds : Pool.Annotated Sound Thread pool) {nodes : List ℕ}
    (off : ∀ node, node ∈ nodes ↔ pool.shared.m_freeList.owner node = none) {b : ℕ} (created : b < pool.shared.fresh) :
    (pool.shared.holders b = 1 ∧ b ∉ nodes ∧ ∀ t, (pool.threads t).block ≠ some b) ∨
    (pool.shared.holders b = 0 ∧ b ∈ nodes ∧ ∀ t, (pool.threads t).block ≠ some b) ∨
    (pool.shared.holders b = 0 ∧ b ∉ nodes ∧ ∃! t, (pool.threads t).block = some b) := by
  have formula := holds.shared.holders b
  have owns (t : τ) := (holds.threads t).owns b
  rcases place : pool.shared.m_freeList.owner b with _ | _ | t
  · refine .inr (.inl ⟨by simpa [place] using formula, (off b).mpr place, fun t block => ?_⟩)
    simpa [place] using (owns t).mpr block
  · refine .inl ⟨by simpa [place, created] using formula, by simp [off, place], fun t block => ?_⟩
    simpa [place] using (owns t).mpr block
  · exact .inr (.inr ⟨by simpa [place] using formula, by simp [off, place], t, (owns t).mp place,
      fun u block => transit_unique holds block ((owns t).mp place)⟩)

/-- When no call is running, the counters count the held blocks, and these with the free list. -/
theorem quiet_counts (holds : Pool.Annotated Sound Thread pool) (counts : Counted pool) {nodes : List ℕ}
    (distinct : nodes.Nodup) (off : ∀ node, node ∈ nodes ↔ pool.shared.m_freeList.owner node = none)
    (quiet : ∀ t, pool.threads t = .idle) (few : pool.shared.fresh < 2 ^ 31) :
    pool.shared.m_useCount.toInt = (held pool.shared).card ∧
      pool.shared.m_allocCount.toInt = (held pool.shared).card + nodes.length := by
  have used : inUse pool = held pool.shared := by
    ext b
    rw [mem_inUse, mem_held holds.shared]
    simp [quiet]
  have whole : counted pool = held pool.shared ∪ nodes.toFinset := by
    ext b
    rw [mem_counted, Finset.mem_union, mem_held holds.shared, List.mem_toFinset, off]
    have owns (t : τ) := (holds.threads t).owns b
    have created := holds.shared.unused b
    rcases place : pool.shared.m_freeList.owner b with _ | _ | t
    · have below : b < pool.shared.fresh := holds.shared.created (by simp [place])
      simp [quiet, below]
    · simp [quiet]
    · have transit := (owns t).mp place
      simp [quiet, Local.block] at transit
  have apart : Disjoint (held pool.shared) nodes.toFinset := by
    refine Finset.disjoint_left.mpr fun b member listed => ?_
    have outside := ((mem_held holds.shared).mp member).2
    rw [(off b).mp (List.mem_toFinset.mp listed)] at outside
    cases outside
  have below := (counted_le pool).trans_lt few
  refine ⟨by rw [counts.use_toInt holds below, used], ?_⟩
  rw [counts.alloc_toInt below, whole, Finset.card_union_of_disjoint apart, List.toFinset_card_of_nodup distinct,
    Nat.cast_add]

end Counting

/-! ### Calls one at a time -/

section OneAtATime

variable {pool target : Pool τ (MemoryPool τ) Local} {label : τ × Input} {labels : List (τ × Input)}

/-- The values that `getUseCount()` has had in a run. -/
def useCounts (labels : List (τ × Input)) : Set ℤ :=
  {count | ∃ before later pool, labels = before ++ later ∧ Replay.replay step start before = some pool ∧
    pool.shared.m_useCount.toInt = count}

/-- No call of another thread is running. -/
def Alone (pool : Pool τ (MemoryPool τ) Local) (label : τ × Input) : Prop :=
  ∀ t, t ≠ label.1 → pool.threads t = .idle

/-- While calls do not overlap, `m_useCount` has been at `m_allocCount`, except where a new block is counted
in one of them only. -/
def Reached (reached : Prop) (pool : MemoryPool τ) : Local → Prop
  | .allocPop (.popLoadTag ptr) => reached ∧ pool.m_freeList.m_head.ptr = ptr
  | .allocNew => reached ∧ pool.m_freeList.m_head.ptr = none
  | .allocCount _ => pool.m_useCount = pool.m_allocCount
  | .allocUse _ => reached ∨ pool.m_useCount + 1 = pool.m_allocCount
  | _ => reached

theorem useCounts_concat (run : Replay.replay step start (labels ++ [label]) = some target) :
    useCounts (labels ++ [label]) = insert target.shared.m_useCount.toInt (useCounts labels) := by
  ext count
  constructor
  · rintro ⟨before, later, pool, split, reached, rfl⟩
    rcases List.eq_nil_or_concat later with rfl | ⟨rest, last, rfl⟩
    · rw [List.append_nil] at split
      rw [split] at run
      exact .inl (congrArg (fun pool => pool.shared.m_useCount.toInt) (Option.some.inj (reached.symm.trans run)))
    · rw [List.concat_eq_append, ← List.append_assoc] at split
      exact .inr ⟨before, rest, pool, (List.append_inj' split rfl).1, reached, rfl⟩
  · rintro (rfl | ⟨before, later, pool, rfl, reached, rfl⟩)
    · exact ⟨_, [], target, (List.append_nil _).symm, run, rfl⟩
    · exact ⟨before, later ++ [label], pool, List.append_assoc .., reached, rfl⟩

/-- With nothing on the free list and nothing in transit, every block is in use. -/
theorem use_eq_alloc (holds : Pool.Annotated Sound Thread pool) (counts : Counted pool)
    (empty : pool.shared.m_freeList.m_head.ptr = none) (still : ∀ t, (pool.threads t).block = none) :
    pool.shared.m_useCount = pool.shared.m_allocCount := by
  have back : counted pool ⊆ inUse pool := by
    intro b member
    refine mem_inUse.mpr ⟨(mem_counted.mp member).1, .inl ?_⟩
    obtain ⟨nodes, _, linked, _, off⟩ := holds.shared.stack.chain
    obtain rfl := linked.unique (empty ▸ rfl : Linked _ pool.shared.m_freeList.m_head.ptr [])
    have owns (t : τ) := (holds.threads t).owns b
    rcases place : pool.shared.m_freeList.owner b with _ | _ | t
    · cases (off b).mpr place
    · rfl
    · have transit := (owns t).mp place
      simp [still t] at transit
  rw [counts.use, counts.alloc, Finset.Subset.antisymm (inUse_subset holds) back]

/-- A step of the only call that is running. -/
theorem Took.reached {next : MemoryPool τ} {thread : τ} {after : Local} {seen : Set ℤ}
    (holds : Pool.Annotated Sound Thread pool) (counts : Counted pool)
    (alone : ∀ t, t ≠ thread → pool.threads t = .idle)
    (before : Reached (pool.shared.m_allocCount.toInt ∈ seen) pool.shared (pool.threads thread))
    (took : Took pool.shared thread (pool.threads thread) next after) :
    Reached (next.m_allocCount.toInt ∈ insert next.m_useCount.toInt seen) next after := by
  have all (empty : pool.shared.m_freeList.m_head.ptr = none) (still : (pool.threads thread).block = none) :
      pool.shared.m_useCount = pool.shared.m_allocCount := by
    refine use_eq_alloc holds counts empty fun t => ?_
    by_cases same : t = thread
    · rw [same, still]
    · rw [alone t same]
      rfl
  have proper := (holds.threads thread).proper
  generalize pool.threads thread = mine at before took all proper
  cases took with
  | callAlloc => exact .inr before
  | callFree p held => exact .inr before
  | @pops inner left stack took =>
    cases took with
    | popPtr => exact ⟨.inr before, rfl⟩
    | popTag => exact .inr before
    | popPtrTag node => exact .inr before.1
    | popTagPtr => exact .inr before
    | popNullTag => exact ⟨.inr before.1, before.2⟩
    | popNullPtr tag top => exact ⟨.inr before, top⟩
    | popNext => exact .inr before
    | popSwap => exact .inl (.inr before)
    | popLost => exact .inr before
    | _ => exact absurd proper not_false
  | new => exact all before.2 rfl
  | count node => exact .inr (congrArg (· + 1) before)
  | returns node =>
    rcases before with reached | one
    · exact .inr reached
    · exact .inl (congrArg BitVec.toInt one.symm)
  | unuse node => exact .inr before
  | @pushes inner left stack took =>
    split_ifs <;> exact .inr before

theorem run_reached (brief : Replay.Along step Brief start labels) (alone : Replay.Along step Alone start labels)
    (run : Replay.replay step start labels = some pool) :
    (∀ t, pool.threads t = .idle) → pool.shared.m_allocCount.toInt ∈ useCounts labels := by
  suffices all : ∀ t, (∀ u, u ≠ t → pool.threads u = .idle) →
      Reached (pool.shared.m_allocCount.toInt ∈ useCounts labels) pool.shared (pool.threads t) by
    intro quiet
    rcases List.eq_nil_or_concat labels with rfl | ⟨rest, last, rfl⟩
    · obtain rfl := Option.some.inj run
      exact ⟨[], [], start, rfl, rfl, rfl⟩
    · have here := all last.1 fun u _ => quiet u
      rwa [quiet last.1] at here
  -- from the state before the last step, in which only the thread of this step was inside a call
  induction labels using List.reverseRecOn generalizing pool with
  | nil =>
    obtain rfl := Option.some.inj run
    exact fun t _ => ⟨[], [], start, rfl, rfl, rfl⟩
  | append_singleton rest last ih =>
    obtain ⟨middle, earlier, stepped⟩ := Replay.replay_concat.mp run
    rw [Replay.along_append] at brief alone
    have only := (alone.2 middle earlier).1
    have both := run_counted brief.1 earlier
    have before := ih brief.1 alone.1 earlier last.1 only
    rw [useCounts_concat run]
    obtain ⟨next, after, ran, rfl⟩ := Pool.step_eq_some.mp stepped
    have reached := (exec_took ran).reached both.1 both.2 only before
    intro t others
    rcases eq_or_ne t last.1 with rfl | apart
    · simpa using reached
    · obtain rfl : after = .idle := by simpa using others last.1 apart.symm
      dsimp only
      rw [Function.update_of_ne apart, only t apart]
      exact reached

theorem step_counted_le (holds : Pool.Annotated Sound Thread pool) (stepped : step pool label = some target) :
    (counted pool).card ≤ (counted target).card := by
  obtain ⟨next, after, ran, rfl⟩ := Pool.step_eq_some.mp stepped
  rw [counted_step holds (exec_took ran)]
  refine Finset.card_le_card ?_
  cases pool.threads label.1 with
  | allocCount node => exact Finset.subset_insert ..
  | _ => exact subset_rfl

/-- No value of `getUseCount()` so far is above `getAllocCount()`. -/
theorem useCounts_le (brief : Replay.Along step Brief start labels)
    (run : Replay.replay step start labels = some pool) (few : pool.shared.fresh < 2 ^ 31) :
    pool.shared.m_allocCount.toInt ∈ upperBounds (useCounts labels) := by
  rintro count ⟨before, later, middle, rfl, earlier, rfl⟩
  have last := run_counted brief run
  obtain ⟨early, late⟩ := Replay.along_append.mp brief
  have both := run_counted early earlier
  rw [Replay.replay_append, earlier, Option.bind_some] at run
  have grown := (Replay.invariant
    (fun pool => Pool.Annotated Sound Thread pool ∧ (counted middle).card ≤ (counted pool).card)
    (fun _ _ _ held brief stepped =>
      ⟨step_annotated held.1 brief stepped, held.2.trans (step_counted_le held.1 stepped)⟩)
    ⟨both.1, le_rfl⟩ (late middle earlier) run).2
  have below := (counted_le pool).trans_lt few
  rw [both.2.use_toInt both.1 (grown.trans_lt below), last.2.alloc_toInt below]
  exact_mod_cast (Finset.card_le_card (inUse_subset both.1)).trans grown

end OneAtATime

/-- In every interleaving with fewer than `2 ^ 31` blocks in which no `pop` is overtaken by `2 ^ 64` swaps of the
head, a block is held by at most one caller and has one place, and when no call is running the counters count the
held blocks and these with the free list. When calls do not overlap, the second is the most that the first has
been. -/
theorem one_holder (labels : List (τ × Input)) (pool : Pool τ (MemoryPool τ) Local)
    (run : Replay.replay step start labels = some pool) (few : pool.shared.fresh < 2 ^ 31)
    (brief : Replay.Along step Brief start labels) :
    (∀ b, pool.shared.holders b ≤ 1) ∧
    (∃ nodes, Linked pool.shared.m_freeList.next pool.shared.m_freeList.m_head.ptr nodes ∧ nodes.Nodup ∧
      (∀ b < pool.shared.fresh,
        (pool.shared.holders b = 1 ∧ b ∉ nodes ∧ ∀ t, (pool.threads t).block ≠ some b) ∨
        (pool.shared.holders b = 0 ∧ b ∈ nodes ∧ ∀ t, (pool.threads t).block ≠ some b) ∨
        (pool.shared.holders b = 0 ∧ b ∉ nodes ∧ ∃! t, (pool.threads t).block = some b)) ∧
      ((∀ t, pool.threads t = .idle) → pool.shared.m_useCount.toInt = (held pool.shared).card ∧
        pool.shared.m_allocCount.toInt = (held pool.shared).card + nodes.length)) ∧
    (Replay.Along step Alone start labels → (∀ t, pool.threads t = .idle) →
      IsGreatest (useCounts labels) pool.shared.m_allocCount.toInt) := by
  obtain ⟨holds, counts⟩ := run_counted brief run
  obtain ⟨nodes, _, linked, distinct, off⟩ := holds.shared.stack.chain
  refine ⟨fun b => ?_, ⟨nodes, linked, distinct, fun b created => one_place holds off created,
    fun quiet => quiet_counts holds counts distinct off quiet few⟩, fun alone quiet =>
      ⟨run_reached brief alone run quiet, useCounts_le brief run few⟩⟩
  rw [holds.shared.holders]
  split_ifs
  · exact le_rfl
  · exact Nat.zero_le 1

/-- A call without interruption. -/
def whole (call : Input) : List Input := call :: List.replicate 5 .ptrFirst

/-- Two blocks come into being, one is given back, and another thread gets it. -/
def reused : List (Bool × Input) :=
  ((whole .alloc ++ whole .alloc ++ whole (.free 1)).map fun input => (true, input)) ++
    (whole .alloc).map fun input => (false, input)

theorem one_holder_reused :
    let pool := (Replay.replay step start reused).get (by decide)
    (∀ b, pool.shared.holders b ≤ 1) ∧ pool.shared.holders 1 = 1 ∧ pool.shared.m_allocCount = 2 ∧
      IsGreatest (useCounts reused) pool.shared.m_allocCount.toInt := by
  have few : Replay.Along step (fun pool _ => LockFreeStack.swaps pool.shared.m_freeList.log < 2 ^ 64) start reused := by
    decide
  have alone : Replay.Along step (fun pool label => ∀ t, t ≠ label.1 → pool.threads t = .idle) start reused := by
    decide
  have ran : (Replay.replay step start reused).isSome := by decide
  have young : ((Replay.replay step start reused).get (by decide)).shared.fresh < 2 ^ 31 := by decide
  have quiet : ∀ t, ((Replay.replay step start reused).get (by decide)).threads t = .idle := by decide
  have all := one_holder reused _ (Option.some_get ran).symm young
    (few.imp fun _ _ below => LockFreeStack.brief_of_few below)
  exact ⟨all.1, by decide, by decide, all.2.2 alone quiet⟩

/-! ### A pop that is overtaken by `2 ^ 64` swaps -/

section Overtaken

variable {pool : Pool τ (MemoryPool τ) Local} {b : ℕ} {tag : BitVec 64}

/-- The steps of a thread by itself. -/
abbrev solo (thread : τ) (state : MemoryPool τ × Local) (input : Input) : Option (MemoryPool τ × Local) :=
  exec state.1 thread state.2 input

omit [DecidableEq τ] in
theorem alloc_solo {pool : MemoryPool τ} (thread : τ) (top : pool.m_freeList.m_head = ⟨some b, tag⟩) :
    ∃ next, Replay.replay (solo thread) (pool, .idle) (whole .alloc) = some (next, .idle) ∧
      next.m_freeList.m_head = ⟨pool.m_freeList.next b, tag + 1⟩ ∧
      next.holders = Function.update pool.holders b (pool.holders b + 1) ∧ next.fresh = pool.fresh := by
  simp [whole, List.replicate, solo, exec, alloc, LockFreeStack.pop, LockFreeStack.popRead, afterPop, top,
    LockFreeStack.Stack.cas, LockFreeStack.Stack.record, setOwner, LockFreeStack.Stack.setOwner, Input.half, Option.orElse]

omit [DecidableEq τ] in
theorem free_solo {pool : MemoryPool τ} (thread : τ) (taken : 0 < pool.holders b) :
    ∃ next, Replay.replay (solo thread) (pool, .idle) (whole (.free b)) = some (next, .idle) ∧
      next.m_freeList.m_head = ⟨some b, pool.m_freeList.m_head.tag + 1⟩ ∧
      next.holders = Function.update pool.holders b (pool.holders b - 1) ∧ next.fresh = pool.fresh := by
  simp [whole, List.replicate, solo, exec, alloc, free, taken, LockFreeStack.push, LockFreeStack.Stack.cas,
    LockFreeStack.Stack.record, LockFreeStack.Stack.setNext, setOwner, LockFreeStack.Stack.setOwner, Input.half,
    Option.orElse]

/-- A thread that is outside again has left the pool as if only the store had changed. -/
theorem replay_whole {call : Input} {next : MemoryPool τ} (idle : pool.threads thread = .idle)
    (run : Replay.replay (solo thread) (pool.shared, .idle) (whole call) = some (next, .idle)) :
    Replay.replay step pool ((whole call).map fun input => (thread, input)) = some ⟨next, pool.threads⟩ := by
  rw [← idle] at run
  refine (Pool.replay_solo run).trans ?_
  rw [Function.update_eq_self]

/-- A thread is about to take block 0 off the list it saw at tag 2, with block 1 under it, while the list has come
to this tag and another caller holds block 1. -/
structure Overtaken (tag : BitVec 64) (pool : Pool Bool (MemoryPool Bool) Local) : Prop where
  head : pool.shared.m_freeList.m_head = ⟨some 0, tag⟩
  outside : pool.threads true = .idle
  late : pool.threads false = .allocPop (.popCas 0 2 (some 1))
  held : pool.shared.holders 1 = 1
  fresh : pool.shared.fresh = 3

/-- The other caller takes block 0 and gives it back. -/
theorem Overtaken.cycle {tag : BitVec 64} {pool : Pool Bool (MemoryPool Bool) Local} (here : Overtaken tag pool) :
    ∃ labels next, Replay.replay step pool labels = some next ∧ Overtaken (tag + 2) next := by
  obtain ⟨middle, took, head, holders, fresh⟩ := alloc_solo true here.head
  have taken : 0 < middle.holders 0 := by simp [holders]
  obtain ⟨next, gave, head', holders', fresh'⟩ := free_solo true taken
  have first := replay_whole here.outside took
  have second := @replay_whole _ _ true ⟨middle, pool.threads⟩ _ _ here.outside gave
  refine ⟨_, ⟨next, pool.threads⟩, Replay.replay_trans first second, ⟨?_, here.outside, here.late, ?_, ?_⟩⟩
  · rw [head', head]
    exact congrArg (LockFreeStack.Head.mk (some 0)) (BitVec.add_assoc tag 1 1)
  · simp [holders', holders, here.held]
  · rw [fresh', fresh, here.fresh]

theorem Overtaken.cycles {tag : BitVec 64} {pool : Pool Bool (MemoryPool Bool) Local} (here : Overtaken tag pool) (n : ℕ) :
    ∃ labels next, Replay.replay step pool labels = some next ∧ Overtaken (tag + BitVec.ofNat 64 (2 * n)) next := by
  induction n with
  | zero => exact ⟨[], pool, rfl, by simpa using here⟩
  | succ n ih =>
    obtain ⟨labels, middle, run, there⟩ := ih
    obtain ⟨more, next, ran, again⟩ := there.cycle
    refine ⟨labels ++ more, next, Replay.replay_trans run ran, ?_⟩
    have count : BitVec.ofNat 64 (2 * (n + 1)) = BitVec.ofNat 64 (2 * n) + 2 := BitVec.ofNat_add ..
    rwa [count, ← BitVec.add_assoc]

/-- The tag is again the one that the thread saw, so its swap succeeds and puts block 1 on top. -/
theorem Overtaken.twice {pool : Pool Bool (MemoryPool Bool) Local} (here : Overtaken 2 pool) :
    ∃ labels next, Replay.replay step pool labels = some next ∧ next.shared.fresh = 3 ∧ next.shared.holders 1 = 2 := by
  have swapped : ∃ middle, Replay.replay (solo false) (pool.shared, pool.threads false) [.ptrFirst, .ptrFirst] =
      some (middle, .idle) ∧ middle.m_freeList.m_head = ⟨some 1, 3⟩ ∧
      middle.holders = Function.update pool.shared.holders 0 (pool.shared.holders 0 + 1) ∧
      middle.fresh = pool.shared.fresh := by
    simp [solo, exec, alloc, here.late, LockFreeStack.pop, afterPop, here.head, LockFreeStack.Stack.cas,
      LockFreeStack.Stack.record, setOwner, LockFreeStack.Stack.setOwner, Input.half, Option.orElse]
  obtain ⟨middle, ran, head, holders, fresh⟩ := swapped
  obtain ⟨next, took, _, holders', fresh'⟩ := alloc_solo false head
  have outside : Function.update pool.threads false .idle false = .idle := Function.update_self ..
  have second := @replay_whole _ _ false ⟨middle, Function.update pool.threads false .idle⟩ _ _ outside took
  refine ⟨_, _, Replay.replay_trans (Pool.replay_solo ran) second, ?_, ?_⟩
  · rw [fresh', fresh, here.fresh]
  · simp [holders', holders, here.held]

/-- Three blocks come into being, and a thread stops before the swap of its `pop`; meanwhile another caller takes
blocks 0 and 1 and gives back 2 and 0. -/
def overtaking : List (Bool × Input) :=
  let other (call : Input) := (whole call).map fun input => (true, input)
  other .alloc ++ other .alloc ++ other .alloc ++ other (.free 1) ++ other (.free 0) ++
    (false, .alloc) :: List.replicate 3 (false, .ptrFirst) ++
    other .alloc ++ other .alloc ++ other (.free 2) ++ other (.free 0)

theorem overtaken : ∃ pool, Replay.replay step start overtaking = some pool ∧ Overtaken 6 pool := by
  refine ⟨(Replay.replay step start overtaking).get (by decide), (Option.some_get _).symm, ?_⟩
  constructor <;> decide

end Overtaken

/-- After `2 ^ 64` swaps during one `pop`, a block has two holders. -/
theorem two_holders : ∃ (labels : List (Bool × Input)) (pool : Pool Bool (MemoryPool Bool) Local),
    Replay.replay step start labels = some pool ∧ pool.shared.fresh < 2 ^ 31 ∧ pool.shared.holders 1 = 2 := by
  obtain ⟨first, begun, here⟩ := overtaken
  obtain ⟨cycles, second, spun, there⟩ := here.cycles (2 ^ 63 - 2)
  have wrapped : (6 : BitVec 64) + BitVec.ofNat 64 (2 * (2 ^ 63 - 2)) = 2 := by decide
  obtain ⟨rest, pool, ended, fresh, twice⟩ := (wrapped ▸ there).twice
  exact ⟨_, pool, Replay.replay_trans begun (Replay.replay_trans spun ended), by rw [fresh]; decide, twice⟩

end LockFreeCore.MemoryPool
