import LockFreeCore.ToMathlib.Interleaving
import Mathlib.Data.List.Basic

/-! # The lock-free stack with a tagged head

The chain runs through the `next` field of the stacked objects themselves, so a node is the caller's
again as soon as it is popped, and its `next` may then hold anything. Copying `m_head` is two
separate reads in either order; the 128-bit compare-and-swap compares and replaces both halves at
once. The owner of a node off the stack and the log, newest event first, belong to the account of
a run: the calls `push` require that the caller owns the node, and no step reads the log.
-/

namespace LockFreeCore.LockFreeStack

structure Head (ν : Type*) where
  ptr : Option ν
  tag : BitVec 64
deriving DecidableEq

inductive Event (τ ν : Type*) where
  | popCalled (thread : τ)
  | pushed (thread : τ) (node : ν)
  | popped (thread : τ) (node : ν)
  | popNull (thread : τ)
deriving DecidableEq, Repr

structure Stack (τ ν : Type*) where
  m_head : Head ν
  next : ν → Option ν
  owner : ν → Option τ
  log : List (Event τ ν)

/-- Where a thread is inside `push` or `pop`, with its local variables; a half-read head holds
the half that was read first. -/
inductive Local (ν : Type*) where
  | idle
  | pushLoad (node : ν)
  | pushLoadTag (node : ν) (ptr : Option ν)
  | pushLoadPtr (node : ν) (tag : BitVec 64)
  | pushLink (node : ν) (oldHead : Head ν)
  | pushCas (node : ν) (oldHead : Head ν)
  | popLoad
  | popLoadTag (ptr : Option ν)
  | popLoadPtr (tag : BitVec 64)
  | popLoadNext (node : ν) (tag : BitVec 64)
  | popCas (node : ν) (tag : BitVec 64) (next : Option ν)
deriving DecidableEq

/-- The call an idle thread starts or what it does with a node it owns, and for a thread inside a
call the half of the head that is read first. -/
inductive Input (τ ν : Type*) where
  | push (node : ν)
  | pop
  | reuse (node : ν) (next : Option ν)
  | give (node : ν) (thread : τ)
  | ptrFirst
  | tagFirst
deriving DecidableEq, Repr

variable {τ ν : Type*} [DecidableEq τ] [DecidableEq ν]

namespace Stack

def record (stack : Stack τ ν) (event : Event τ ν) : Stack τ ν := { stack with log := event :: stack.log }

def setNext (stack : Stack τ ν) (node : ν) (pointer : Option ν) : Stack τ ν :=
  { stack with next := Function.update stack.next node pointer }

def setOwner (stack : Stack τ ν) (node : ν) (owner : Option τ) : Stack τ ν :=
  { stack with owner := Function.update stack.owner node owner }

/-- The 128-bit compare-and-swap of `m_head`. -/
def cas (stack : Stack τ ν) (expected desired : Head ν) : Option (Stack τ ν) :=
  if stack.m_head = expected then some { stack with m_head := desired } else none

end Stack

/-- An idle thread calls `push` or `pop`, or uses a node it owns. -/
def call (stack : Stack τ ν) (thread : τ) : Input τ ν → Option (Stack τ ν × Local ν)
  | .push node => if stack.owner node = some thread then some (stack, .pushLoad node) else none
  | .pop => some (stack.record (.popCalled thread), .popLoad)
  | .reuse node next =>
      if stack.owner node = some thread then some (stack.setNext node next, .idle) else none
  | .give node other =>
      if stack.owner node = some thread then some (stack.setOwner node (some other), .idle) else none
  | _ => none

/-- One shared access of `push`. -/
def push (stack : Stack τ ν) (thread : τ) : Local ν → Input τ ν → Option (Stack τ ν × Local ν)
  | .pushLoad node, .ptrFirst => some (stack, .pushLoadTag node stack.m_head.ptr)
  | .pushLoad node, .tagFirst => some (stack, .pushLoadPtr node stack.m_head.tag)
  | .pushLoadTag node ptr, _ => some (stack, .pushLink node ⟨ptr, stack.m_head.tag⟩)
  | .pushLoadPtr node tag, _ => some (stack, .pushLink node ⟨stack.m_head.ptr, tag⟩)
  | .pushLink node oldHead, _ => some (stack.setNext node oldHead.ptr, .pushCas node oldHead)
  | .pushCas node oldHead, _ =>
      match stack.cas oldHead ⟨some node, oldHead.tag + 1⟩ with
      | some swapped => some ((swapped.setOwner node none).record (.pushed thread node), .idle)
      | none => some (stack, .pushLoad node)
  | _, _ => none

/-- After both halves are read, `pop` returns null or goes on to the node on top. -/
def popRead (stack : Stack τ ν) (thread : τ) (oldHead : Head ν) : Stack τ ν × Local ν :=
  match oldHead.ptr with
  | none => (stack.record (.popNull thread), .idle)
  | some node => (stack, .popLoadNext node oldHead.tag)

/-- One shared access of `pop`. -/
def pop (stack : Stack τ ν) (thread : τ) : Local ν → Input τ ν → Option (Stack τ ν × Local ν)
  | .popLoad, .ptrFirst => some (stack, .popLoadTag stack.m_head.ptr)
  | .popLoad, .tagFirst => some (stack, .popLoadPtr stack.m_head.tag)
  | .popLoadTag ptr, _ => some (popRead stack thread ⟨ptr, stack.m_head.tag⟩)
  | .popLoadPtr tag, _ => some (popRead stack thread ⟨stack.m_head.ptr, tag⟩)
  | .popLoadNext node tag, _ => some (stack, .popCas node tag (stack.next node))
  | .popCas node tag next, _ =>
      match stack.cas ⟨some node, tag⟩ ⟨next, tag + 1⟩ with
      | some swapped => some ((swapped.setOwner node (some thread)).record (.popped thread node), .idle)
      | none => some (stack, .popLoad)
  | _, _ => none

/-- One step of one thread. -/
def exec (stack : Stack τ ν) (thread : τ) (mine : Local ν) (input : Input τ ν) :
    Option (Stack τ ν × Local ν) :=
  match mine with
  | .idle => call stack thread input
  | mine => (push stack thread mine input).orElse fun _ => pop stack thread mine input

/-- What one step of a thread can do, with the condition under which it does it. -/
inductive Took (stack : Stack τ ν) (thread : τ) : Local ν → Stack τ ν → Local ν → Prop
  | callPush (node : ν) (owned : stack.owner node = some thread) :
      Took stack thread .idle stack (.pushLoad node)
  | callPop : Took stack thread .idle (stack.record (.popCalled thread)) .popLoad
  | reuse (node : ν) (next : Option ν) (owned : stack.owner node = some thread) :
      Took stack thread .idle (stack.setNext node next) .idle
  | give (node : ν) (other : τ) (owned : stack.owner node = some thread) :
      Took stack thread .idle (stack.setOwner node (some other)) .idle
  | pushPtr (node : ν) : Took stack thread (.pushLoad node) stack (.pushLoadTag node stack.m_head.ptr)
  | pushTag (node : ν) : Took stack thread (.pushLoad node) stack (.pushLoadPtr node stack.m_head.tag)
  | pushPtrTag (node : ν) (ptr : Option ν) :
      Took stack thread (.pushLoadTag node ptr) stack (.pushLink node ⟨ptr, stack.m_head.tag⟩)
  | pushTagPtr (node : ν) (tag : BitVec 64) :
      Took stack thread (.pushLoadPtr node tag) stack (.pushLink node ⟨stack.m_head.ptr, tag⟩)
  | pushLink (node : ν) (oldHead : Head ν) :
      Took stack thread (.pushLink node oldHead) (stack.setNext node oldHead.ptr) (.pushCas node oldHead)
  | pushSwap (node : ν) (oldHead : Head ν) (same : stack.m_head = oldHead) :
      Took stack thread (.pushCas node oldHead)
        (({ stack with m_head := ⟨some node, oldHead.tag + 1⟩ }.setOwner node none).record
          (.pushed thread node)) .idle
  | pushLost (node : ν) (oldHead : Head ν) :
      Took stack thread (.pushCas node oldHead) stack (.pushLoad node)
  | popPtr : Took stack thread .popLoad stack (.popLoadTag stack.m_head.ptr)
  | popTag : Took stack thread .popLoad stack (.popLoadPtr stack.m_head.tag)
  | popPtrTag (node : ν) :
      Took stack thread (.popLoadTag (some node)) stack (.popLoadNext node stack.m_head.tag)
  | popTagPtr (node : ν) (tag : BitVec 64) (top : stack.m_head.ptr = some node) :
      Took stack thread (.popLoadPtr tag) stack (.popLoadNext node tag)
  | popNullTag : Took stack thread (.popLoadTag none) (stack.record (.popNull thread)) .idle
  | popNullPtr (tag : BitVec 64) (top : stack.m_head.ptr = none) :
      Took stack thread (.popLoadPtr tag) (stack.record (.popNull thread)) .idle
  | popNext (node : ν) (tag : BitVec 64) :
      Took stack thread (.popLoadNext node tag) stack (.popCas node tag (stack.next node))
  | popSwap (node : ν) (tag : BitVec 64) (next : Option ν) (same : stack.m_head = ⟨some node, tag⟩) :
      Took stack thread (.popCas node tag next)
        (({ stack with m_head := ⟨next, tag + 1⟩ }.setOwner node (some thread)).record
          (.popped thread node)) .idle
  | popLost (node : ν) (tag : BitVec 64) (next : Option ν) :
      Took stack thread (.popCas node tag next) stack .popLoad

theorem exec_took {stack after : Stack τ ν} {thread : τ} {mine left : Local ν} {input : Input τ ν}
    (ran : exec stack thread mine input = some (after, left)) : Took stack thread mine after left := by
  cases mine with
  | idle =>
    cases input <;> simp only [exec, call] at ran <;> (try split_ifs at ran with owned) <;> cases ran
    · exact .callPush _ owned
    · exact .callPop
    · exact .reuse _ _ owned
    · exact .give _ _ owned
  | pushLoad node => cases input <;> cases ran <;> constructor
  | popLoad => cases input <;> cases ran <;> constructor
  | pushCas node oldHead =>
    simp only [exec, push, Stack.cas, Option.orElse] at ran
    split_ifs at ran with same <;> cases ran
    · exact .pushSwap node oldHead same
    · exact .pushLost node oldHead
  | popCas node tag next =>
    simp only [exec, push, pop, Stack.cas, Option.orElse] at ran
    split_ifs at ran with same <;> cases ran
    · exact .popSwap node tag next same
    · exact .popLost node tag next
  | popLoadTag ptr => cases ptr <;> cases ran <;> constructor
  | popLoadPtr tag =>
    simp only [exec, push, pop, popRead, Option.orElse] at ran
    split at ran <;> rename_i top <;> cases ran
    · exact .popNullPtr tag top
    · exact .popTagPtr _ tag top
  | _ => cases ran; constructor

theorem push_took {stack after : Stack τ ν} {thread : τ} {mine left : Local ν} {input : Input τ ν}
    (ran : push stack thread mine input = some (after, left)) : Took stack thread mine after left := by
  refine @exec_took _ _ _ _ _ _ _ _ _ input ?_
  unfold exec
  split
  · cases input <;> cases ran
  · rw [ran]
    rfl

theorem pop_took {stack after : Stack τ ν} {thread : τ} {mine left : Local ν} {input : Input τ ν}
    (ran : pop stack thread mine input = some (after, left)) : Took stack thread mine after left := by
  have apart : push stack thread mine input = none := by
    cases mine <;> first | rfl | (cases input <;> cases ran)
  refine @exec_took _ _ _ _ _ _ _ _ _ input ?_
  unfold exec
  split
  · cases input <;> cases ran
  · rw [apart, Option.orElse_none, ran]

/-- An empty stack, with every node in the hands of some thread and every thread outside. -/
def start (owners : ν → τ) (next : ν → Option ν) : Pool τ (Stack τ ν) (Local ν) :=
  ⟨⟨⟨none, 0⟩, next, fun node => some (owners node), []⟩, fun _ => .idle⟩

/-- All steps of all threads. -/
abbrev step := Pool.step (exec (τ := τ) (ν := ν))

end LockFreeCore.LockFreeStack
