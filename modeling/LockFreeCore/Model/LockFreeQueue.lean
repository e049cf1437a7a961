import LockFreeCore.ToMathlib.Interleaving
import Mathlib.Data.Nat.Bitwise

/-! # The bounded lock-free queue

Each cell carries a sequence number that says which ticket may use it next: `p` while the push
with ticket `p` may claim it, `p + 1` once that push has published, and `p + capacity` when the
pop with ticket `p` has handed it to the push of the next lap. A thread takes one load, store or
compare-and-swap at a time; the log records claims and returns in order, newest first, and no
step reads it. Positions are unbounded: the `LONG64` counters, which grow by one for each element, are
far from overflow.
-/

namespace LockFreeCore.LockFreeQueue

structure Cell (T : Type*) where
  sequence : ℕ
  data : T

/-- What the history of a run remembers: claims by a successful compare-and-swap, and returns. -/
inductive Event (τ T : Type*) where
  | pushClaimed (thread : τ) (ticket : ℕ) (value : T)
  | pushReturned (thread : τ) (ticket : ℕ) (value : T)
  | pushFull (thread : τ) (value : T)
  | popClaimed (thread : τ) (ticket : ℕ)
  | popReturned (thread : τ) (ticket : ℕ) (value : T)
  | popEmpty (thread : τ)
deriving DecidableEq, Repr

structure Queue (τ T : Type*) where
  m_buffer : ℕ → Cell T
  m_mask : ℕ
  m_enqueuePos : ℕ
  m_dequeuePos : ℕ
  log : List (Event τ T)

/-- Where a thread is inside `push` or `pop`, with its local variables; each constructor but
`idle` names the next shared access. -/
inductive Local (T : Type*) where
  | idle
  | pushLoadPos (value : T)
  | pushLoadSeq (value : T) (pos : ℕ)
  | pushCas (value : T) (pos : ℕ)
  | pushStoreData (value : T) (pos : ℕ)
  | pushStoreSeq (value : T) (pos : ℕ)
  | popLoadPos
  | popLoadSeq (pos : ℕ)
  | popCas (pos : ℕ)
  | popLoadData (pos : ℕ)
  | popStoreSeq (pos : ℕ) (value : T)
deriving DecidableEq, Repr

/-- A call an idle thread may start; a thread inside a call only goes on. -/
inductive Call (T : Type*) where
  | push (value : T)
  | pop
  | go
deriving DecidableEq, Repr

variable {τ T : Type*}

namespace Queue

/-- The cell index `pos & m_mask`. -/
def slot (queue : Queue τ T) (pos : ℕ) : ℕ := pos &&& queue.m_mask

def cell (queue : Queue τ T) (pos : ℕ) : Cell T := queue.m_buffer (queue.slot pos)

def record (queue : Queue τ T) (event : Event τ T) : Queue τ T :=
  { queue with log := event :: queue.log }

def setCell (queue : Queue τ T) (pos : ℕ) (cell : Cell T) : Queue τ T :=
  { queue with m_buffer := Function.update queue.m_buffer (queue.slot pos) cell }

def storeData (queue : Queue τ T) (pos : ℕ) (value : T) : Queue τ T :=
  queue.setCell pos { queue.cell pos with data := value }

def storeSeq (queue : Queue τ T) (pos sequence : ℕ) : Queue τ T :=
  queue.setCell pos { queue.cell pos with sequence := sequence }

end Queue

/-- The constructor: cell `i` starts free for ticket `i`, with whatever data it was allocated. -/
def initial (capacity : ℕ) (data : ℕ → T) : Queue τ T where
  m_buffer i := ⟨i, data i⟩
  m_mask := capacity - 1
  m_enqueuePos := 0
  m_dequeuePos := 0
  log := []

/-- One shared access of `push`. -/
def push (queue : Queue τ T) (thread : τ) : Local T → Option (Queue τ T × Local T)
  | .pushLoadPos value => some (queue, .pushLoadSeq value queue.m_enqueuePos)
  | .pushLoadSeq value pos =>
      let diff : ℤ := (queue.cell pos).sequence - pos
      if diff = 0 then some (queue, .pushCas value pos)
      else if diff < 0 then some (queue.record (.pushFull thread value), .idle)
      else some (queue, .pushLoadPos value)
  | .pushCas value pos =>
      if queue.m_enqueuePos = pos then
        some ({ queue with m_enqueuePos := pos + 1 }.record (.pushClaimed thread pos value),
          .pushStoreData value pos)
      else some (queue, .pushLoadSeq value pos)
  | .pushStoreData value pos => some (queue.storeData pos value, .pushStoreSeq value pos)
  | .pushStoreSeq value pos =>
      some ((queue.storeSeq pos (pos + 1)).record (.pushReturned thread pos value), .idle)
  | _ => none

/-- One shared access of `pop`. -/
def pop (queue : Queue τ T) (thread : τ) : Local T → Option (Queue τ T × Local T)
  | .popLoadPos => some (queue, .popLoadSeq queue.m_dequeuePos)
  | .popLoadSeq pos =>
      let diff : ℤ := (queue.cell pos).sequence - (pos + 1)
      if diff = 0 then some (queue, .popCas pos)
      else if diff < 0 then some (queue.record (.popEmpty thread), .idle)
      else some (queue, .popLoadPos)
  | .popCas pos =>
      if queue.m_dequeuePos = pos then
        some ({ queue with m_dequeuePos := pos + 1 }.record (.popClaimed thread pos), .popLoadData pos)
      else some (queue, .popLoadSeq pos)
  | .popLoadData pos => some (queue, .popStoreSeq pos (queue.cell pos).data)
  | .popStoreSeq pos value =>
      some ((queue.storeSeq pos (pos + queue.m_mask + 1)).record (.popReturned thread pos value), .idle)
  | _ => none

/-- One step of one thread: an idle thread starts a call, any other goes on with its call. -/
def exec (queue : Queue τ T) (thread : τ) (mine : Local T) (call : Call T) :
    Option (Queue τ T × Local T) :=
  match mine, call with
  | .idle, .push value => some (queue, .pushLoadPos value)
  | .idle, .pop => some (queue, .popLoadPos)
  | .idle, .go => none
  | mine, _ => (push queue thread mine).orElse fun _ => pop queue thread mine

/-- What one step of a thread can do, with the condition under which it does it. -/
inductive Took (queue : Queue τ T) (thread : τ) : Local T → Queue τ T → Local T → Prop
  | callPush (value : T) : Took queue thread .idle queue (.pushLoadPos value)
  | pushPos (value : T) :
      Took queue thread (.pushLoadPos value) queue (.pushLoadSeq value queue.m_enqueuePos)
  | pushTurn (value : T) (pos : ℕ) (turn : (queue.cell pos).sequence = pos) :
      Took queue thread (.pushLoadSeq value pos) queue (.pushCas value pos)
  | pushFull (value : T) (pos : ℕ) (behind : (queue.cell pos).sequence < pos) :
      Took queue thread (.pushLoadSeq value pos) (queue.record (.pushFull thread value)) .idle
  | pushStale (value : T) (pos : ℕ) (ahead : pos < (queue.cell pos).sequence) :
      Took queue thread (.pushLoadSeq value pos) queue (.pushLoadPos value)
  | pushClaim (value : T) (pos : ℕ) (same : queue.m_enqueuePos = pos) :
      Took queue thread (.pushCas value pos)
        ({ queue with m_enqueuePos := pos + 1 }.record (.pushClaimed thread pos value))
        (.pushStoreData value pos)
  | pushLost (value : T) (pos : ℕ) : Took queue thread (.pushCas value pos) queue (.pushLoadSeq value pos)
  | pushData (value : T) (pos : ℕ) :
      Took queue thread (.pushStoreData value pos) (queue.storeData pos value) (.pushStoreSeq value pos)
  | pushPublish (value : T) (pos : ℕ) :
      Took queue thread (.pushStoreSeq value pos)
        ((queue.storeSeq pos (pos + 1)).record (.pushReturned thread pos value)) .idle
  | callPop : Took queue thread .idle queue .popLoadPos
  | popPos : Took queue thread .popLoadPos queue (.popLoadSeq queue.m_dequeuePos)
  | popTurn (pos : ℕ) (turn : (queue.cell pos).sequence = pos + 1) :
      Took queue thread (.popLoadSeq pos) queue (.popCas pos)
  | popEmpty (pos : ℕ) (behind : (queue.cell pos).sequence ≤ pos) :
      Took queue thread (.popLoadSeq pos) (queue.record (.popEmpty thread)) .idle
  | popStale (pos : ℕ) (ahead : pos + 1 < (queue.cell pos).sequence) :
      Took queue thread (.popLoadSeq pos) queue .popLoadPos
  | popClaim (pos : ℕ) (same : queue.m_dequeuePos = pos) :
      Took queue thread (.popCas pos)
        ({ queue with m_dequeuePos := pos + 1 }.record (.popClaimed thread pos)) (.popLoadData pos)
  | popLost (pos : ℕ) : Took queue thread (.popCas pos) queue (.popLoadSeq pos)
  | popData (pos : ℕ) :
      Took queue thread (.popLoadData pos) queue (.popStoreSeq pos (queue.cell pos).data)
  | popRelease (pos : ℕ) (value : T) :
      Took queue thread (.popStoreSeq pos value)
        ((queue.storeSeq pos (pos + queue.m_mask + 1)).record (.popReturned thread pos value)) .idle

theorem exec_took {queue next : Queue τ T} {thread : τ} {mine after : Local T} {call : Call T}
    (ran : exec queue thread mine call = some (next, after)) : Took queue thread mine next after := by
  cases mine with
  | idle => cases call <;> cases ran <;> constructor
  | pushLoadSeq value pos =>
    simp only [exec, push, Option.orElse] at ran
    split_ifs at ran with turn behind <;> cases ran
    · exact .pushTurn value pos (by omega)
    · exact .pushFull value pos (by omega)
    · exact .pushStale value pos (by omega)
  | popLoadSeq pos =>
    simp only [exec, push, pop, Option.orElse] at ran
    split_ifs at ran with turn behind <;> cases ran
    · exact .popTurn pos (by omega)
    · exact .popEmpty pos (by omega)
    · exact .popStale pos (by omega)
  | pushCas value pos =>
    simp only [exec, push, Option.orElse] at ran
    split_ifs at ran with same <;> cases ran
    · exact .pushClaim value pos same
    · exact .pushLost value pos
  | popCas pos =>
    simp only [exec, push, pop, Option.orElse] at ran
    split_ifs at ran with same <;> cases ran
    · exact .popClaim pos same
    · exact .popLost pos
  | _ => cases ran; constructor

/-- A queue fresh from its constructor with every thread outside it. -/
def start (capacity : ℕ) (data : ℕ → T) : Pool τ (Queue τ T) (Local T) :=
  ⟨initial capacity data, fun _ => .idle⟩

/-- All steps of all threads. -/
abbrev step [DecidableEq τ] := Pool.step (exec (τ := τ) (T := T))

end LockFreeCore.LockFreeQueue
