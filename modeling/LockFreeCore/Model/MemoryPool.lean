import LockFreeCore.Model.LockFreeStack

/-! # The memory pool

A block is the address of a `PoolNode`, and blocks are numbered as they are allocated. The free list is
the lock-free stack, entered by a thread for one access at a time, and each counter is a `LONG` changed by
one interlocked access, which wraps around. The owners of the stack belong to the account of a run: on
behalf of `none` stand the heap and the callers of the pool, so the thread inside `alloc` or `free` owns
its block until it is returned or pushed. So does `holders`, which says how often a block was returned by
`alloc` and not passed to `free` since; `free` is called with such a block only.
-/

namespace LockFreeCore

structure MemoryPool (τ : Type*) where
  m_freeList : LockFreeStack.Stack (Option τ) ℕ
  m_allocCount : BitVec 32
  m_useCount : BitVec 32
  /-- The address of the next allocation. -/
  fresh : ℕ
  holders : ℕ → ℕ

namespace MemoryPool

/-- Where a thread is inside `alloc` or `free`. -/
inductive Local where
  | idle
  | allocPop (inner : LockFreeStack.Local ℕ)
  | allocNew
  | allocCount (node : ℕ)
  | allocUse (node : ℕ)
  | freeUse (node : ℕ)
  | freePush (inner : LockFreeStack.Local ℕ)
deriving DecidableEq

/-- The call an idle thread makes, and for a thread inside the free list the half of the head that is
read first. -/
inductive Input where
  | alloc
  | free (p : ℕ)
  | ptrFirst
  | tagFirst
deriving DecidableEq, Repr

variable {τ : Type*} [DecidableEq τ]

def Input.half : Input → LockFreeStack.Input (Option τ) ℕ
  | .tagFirst => .tagFirst
  | _ => .ptrFirst

def setOwner (pool : MemoryPool τ) (node : ℕ) (owner : Option (Option τ)) : MemoryPool τ :=
  { pool with m_freeList := pool.m_freeList.setOwner node owner }

/-- Where `alloc` goes on when an access of `pop` has led from `inner` to `next`: a `pop` that has returned
came with the node of its swap, and otherwise with null. -/
def afterPop (inner next : LockFreeStack.Local ℕ) : Local :=
  if next = .idle then
    match inner with
    | .popCas node _ _ => .allocUse node
    | _ => .allocNew
  else .allocPop next

/-- One shared access of `alloc`. -/
def alloc (pool : MemoryPool τ) (thread : τ) : Local → Input → Option (MemoryPool τ × Local)
  | .idle, .alloc =>
      some ({ pool with m_freeList := pool.m_freeList.record (.popCalled (some thread)) }, .allocPop .popLoad)
  | .allocPop inner, input =>
      (LockFreeStack.pop pool.m_freeList (some thread) inner input.half).map fun next =>
        ({ pool with m_freeList := next.1 }, afterPop inner next.2)
  | .allocNew, _ =>
      some ({ pool.setOwner pool.fresh (some (some thread)) with fresh := pool.fresh + 1 }, .allocCount pool.fresh)
  | .allocCount node, _ => some ({ pool with m_allocCount := pool.m_allocCount + 1 }, .allocUse node)
  | .allocUse node, _ =>
      some ({ pool.setOwner node (some none) with
        m_useCount := pool.m_useCount + 1
        holders := Function.update pool.holders node (pool.holders node + 1) }, .idle)
  | _, _ => none

/-- One shared access of `free`. -/
def free (pool : MemoryPool τ) (thread : τ) : Local → Input → Option (MemoryPool τ × Local)
  | .idle, .free p =>
      if 0 < pool.holders p then
        some ({ pool.setOwner p (some (some thread)) with
          holders := Function.update pool.holders p (pool.holders p - 1) }, .freeUse p)
      else none
  | .freeUse node, _ => some ({ pool with m_useCount := pool.m_useCount - 1 }, .freePush (.pushLoad node))
  | .freePush inner, input =>
      (LockFreeStack.push pool.m_freeList (some thread) inner input.half).map fun next =>
        ({ pool with m_freeList := next.1 }, if next.2 = .idle then .idle else .freePush next.2)
  | _, _ => none

/-- One step of one thread. -/
def exec (pool : MemoryPool τ) (thread : τ) (mine : Local) (input : Input) : Option (MemoryPool τ × Local) :=
  (alloc pool thread mine input).orElse fun _ => free pool thread mine input

/-- `MemoryPool()`, with every thread outside. -/
def start : Pool τ (MemoryPool τ) Local :=
  ⟨⟨⟨⟨none, 0⟩, fun _ => none, fun _ => some none, []⟩, 0, 0, 0, fun _ => 0⟩, fun _ => .idle⟩

/-- All steps of all threads. -/
abbrev step := Pool.step (exec (τ := τ))

/-- What one step of a thread can do, with the condition under which it does it. -/
inductive Took (pool : MemoryPool τ) (thread : τ) : Local → MemoryPool τ → Local → Prop
  | callAlloc : Took pool thread .idle
      { pool with m_freeList := pool.m_freeList.record (.popCalled (some thread)) } (.allocPop .popLoad)
  | callFree (p : ℕ) (held : 0 < pool.holders p) : Took pool thread .idle
      { pool.setOwner p (some (some thread)) with
        holders := Function.update pool.holders p (pool.holders p - 1) } (.freeUse p)
  | pops {inner next : LockFreeStack.Local ℕ} {stack : LockFreeStack.Stack (Option τ) ℕ}
      (took : LockFreeStack.Took pool.m_freeList (some thread) inner stack next) :
      Took pool thread (.allocPop inner) { pool with m_freeList := stack } (afterPop inner next)
  | new : Took pool thread .allocNew
      { pool.setOwner pool.fresh (some (some thread)) with fresh := pool.fresh + 1 } (.allocCount pool.fresh)
  | count (node : ℕ) : Took pool thread (.allocCount node)
      { pool with m_allocCount := pool.m_allocCount + 1 } (.allocUse node)
  | returns (node : ℕ) : Took pool thread (.allocUse node)
      { pool.setOwner node (some none) with
        m_useCount := pool.m_useCount + 1
        holders := Function.update pool.holders node (pool.holders node + 1) } .idle
  | unuse (node : ℕ) : Took pool thread (.freeUse node)
      { pool with m_useCount := pool.m_useCount - 1 } (.freePush (.pushLoad node))
  | pushes {inner next : LockFreeStack.Local ℕ} {stack : LockFreeStack.Stack (Option τ) ℕ}
      (took : LockFreeStack.Took pool.m_freeList (some thread) inner stack next) :
      Took pool thread (.freePush inner) { pool with m_freeList := stack }
        (if next = .idle then .idle else .freePush next)

theorem exec_took {pool next : MemoryPool τ} {thread : τ} {mine after : Local} {input : Input}
    (ran : exec pool thread mine input = some (next, after)) : Took pool thread mine next after := by
  cases mine with
  | idle =>
    cases input with
    | alloc =>
      cases ran
      exact .callAlloc
    | free p =>
      simp only [exec, alloc, free, Option.orElse] at ran
      split_ifs at ran with held
      cases ran
      exact .callFree p held
    | _ => cases ran
  | allocPop inner =>
    cases stepped : alloc pool thread (.allocPop inner) input with
    | none =>
      rw [exec, stepped] at ran
      cases ran
    | some done =>
      rw [exec, stepped] at ran
      obtain ⟨⟨stack, left⟩, popped, same⟩ := Option.map_eq_some_iff.mp (stepped.trans ran)
      cases same
      exact .pops (LockFreeStack.pop_took popped)
  | freePush inner =>
    have first : alloc pool thread (.freePush inner) input = none := rfl
    rw [exec, first, Option.orElse_none] at ran
    obtain ⟨⟨stack, left⟩, pushed, same⟩ := Option.map_eq_some_iff.mp ran
    cases same
    exact .pushes (LockFreeStack.push_took pushed)
  | _ =>
    cases ran
    constructor

end MemoryPool

end LockFreeCore
