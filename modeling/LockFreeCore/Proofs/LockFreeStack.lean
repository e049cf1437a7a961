import LockFreeCore.Model.LockFreeStack
import LockFreeCore.ToMathlib.LinkedChain
import Mathlib.Algebra.Order.Ring.Nat

/-! # The tagged stack is a list

The log of successful swaps is read as pushes and pops of a list. The tag counts them modulo
`2 ^ 64`, so when fewer have happened since a `pop` was called, its compare-and-swap succeeds only
if it was prepared after the last swap: the node it read is still on top and its `next` is the one
that was read. Torn heads and pointers read from nodes that have left the stack only make the swap
fail.
-/

namespace LockFreeCore.LockFreeStack

variable {τ ν : Type*} [DecidableEq τ] [DecidableEq ν]

/-- The thread whose step an event records. -/
def Event.thread : Event τ ν → τ
  | .popCalled t | .pushed t _ | .popped t _ | .popNull t => t

/-- The abstract stack: pushes put their node on the list, and pops take the head off it. -/
def contents : List (Event τ ν) → Option (List ν)
  | [] => some []
  | .pushed _ node :: earlier => (contents earlier).map (node :: ·)
  | .popped _ node :: earlier => (contents earlier).bind fun nodes =>
      if nodes.head? = some node then some nodes.tail else none
  | _ :: earlier => contents earlier

/-- The number of successful swaps. -/
def swaps : List (Event τ ν) → ℕ
  | [] => 0
  | .pushed _ _ :: earlier | .popped _ _ :: earlier => swaps earlier + 1
  | _ :: earlier => swaps earlier

/-- The last event of the thread is the call of a `pop`, so that call has not returned. -/
def InsidePop (thread : τ) (log : List (Event τ ν)) : Prop :=
  log.find? (fun event => event.thread = thread) = some (.popCalled thread)

/-- At some instant of the thread's running `pop` the abstract stack was empty. -/
def EmptyDuring (thread : τ) (log : List (Event τ ν)) : Prop :=
  ∃ recent earlier, log = recent ++ earlier ∧ (∀ event ∈ recent, event.thread ≠ thread) ∧
    InsidePop thread earlier ∧ contents earlier = some []

/-- The number of swaps up to the last event of the thread, which inside `pop` is its call. -/
def swapsAtCall (thread : τ) (log : List (Event τ ν)) : ℕ :=
  swaps (log.dropWhile fun event => event.thread ≠ thread)

/-- Fewer than `2 ^ 64` swaps have happened since the `pop` was called whose swap is tried next. -/
def Brief (log : List (Event τ ν)) (thread : τ) : Local ν → Prop
  | .popCas _ _ _ => swaps log < swapsAtCall thread log + 2 ^ 64
  | _ => True

/-- A tag that was current after some number of swaps. -/
def Dated (log : List (Event τ ν)) (tag : BitVec 64) (count : ℕ) : Prop :=
  count ≤ swaps log ∧ tag = BitVec.ofNat 64 count

/-- The assertion of the store: the chain from the head is the abstract stack, and exactly the
nodes off the stack have an owner. -/
structure Sound (stack : Stack τ ν) : Prop where
  tag : stack.m_head.tag = BitVec.ofNat 64 (swaps stack.log)
  chain : ∃ nodes, contents stack.log = some nodes ∧ Linked stack.next stack.m_head.ptr nodes ∧
    nodes.Nodup ∧ ∀ node, node ∈ nodes ↔ stack.owner node = none
  left : ∀ later earlier t node, stack.log = later ++ .popped t node :: earlier →
    ∃ nodes, contents (.popped t node :: earlier) = some nodes ∧ node ∉ nodes
  nulls : ∀ later earlier t, stack.log = later ++ .popNull t :: earlier → EmptyDuring t earlier

/-- The assertion of one thread. -/
def Thread (stack : Stack τ ν) (thread : τ) : Local ν → Prop
  | .idle => True
  | .pushLoad node | .pushLoadTag node _ | .pushLoadPtr node _ | .pushLink node _ =>
      stack.owner node = some thread
  | .pushCas node oldHead => stack.owner node = some thread ∧ stack.next node = oldHead.ptr
  | .popLoad => InsidePop thread stack.log
  | .popLoadTag ptr => InsidePop thread stack.log ∧ (ptr = none → EmptyDuring thread stack.log)
  | .popLoadPtr tag | .popLoadNext _ tag =>
      InsidePop thread stack.log ∧ ∃ count, swapsAtCall thread stack.log ≤ count ∧ Dated stack.log tag count
  | .popCas node tag next => InsidePop thread stack.log ∧ ∃ count, swapsAtCall thread stack.log ≤ count ∧
      Dated stack.log tag count ∧
      (count = swaps stack.log → stack.m_head.ptr = some node → stack.next node = next)

section Log

variable {log : List (Event τ ν)} {thread : τ} {event : Event τ ν}

omit [DecidableEq τ] [DecidableEq ν] in
theorem swaps_le_cons : swaps log ≤ swaps (event :: log) := by
  cases event <;> simp [swaps]

omit [DecidableEq ν] in
theorem InsidePop.cons (inside : InsidePop thread log) (other : event.thread ≠ thread) :
    InsidePop thread (event :: log) := by
  rw [InsidePop, List.find?_cons_of_neg (by simpa using other)]
  exact inside

theorem EmptyDuring.cons (empty : EmptyDuring thread log) (other : event.thread ≠ thread) :
    EmptyDuring thread (event :: log) := by
  obtain ⟨recent, earlier, same, quiet, inside, none⟩ := empty
  exact ⟨event :: recent, earlier, congrArg _ same,
    List.forall_mem_cons.mpr ⟨other, quiet⟩, inside, none⟩

omit [DecidableEq τ] [DecidableEq ν] in
theorem Dated.mono {tag : BitVec 64} {count : ℕ} {later : List (Event τ ν)} (dated : Dated log tag count)
    (grows : swaps log ≤ swaps later) : Dated later tag count :=
  ⟨dated.1.trans grows, dated.2⟩

omit [DecidableEq τ] [DecidableEq ν] in
/-- When fewer than `2 ^ 64` swaps have followed, equal tags mean equal counts. -/
theorem Dated.current {tag : BitVec 64} {count : ℕ} (dated : Dated log tag count)
    (few : swaps log < count + 2 ^ 64) (same : tag = BitVec.ofNat 64 (swaps log)) : count = swaps log := by
  have numbers := congrArg BitVec.toNat (dated.2.symm.trans same)
  have past := dated.1
  rw [BitVec.toNat_ofNat, BitVec.toNat_ofNat] at numbers
  omega

omit [DecidableEq ν] in
/-- The events of other threads leave the count at the call alone. -/
theorem swapsAtCall_cons (other : event.thread ≠ thread) :
    swapsAtCall thread (event :: log) = swapsAtCall thread log := by
  rw [swapsAtCall, List.dropWhile_cons_of_pos (by simpa using other), swapsAtCall]

omit [DecidableEq ν] in
theorem swapsAtCall_le : swapsAtCall thread log ≤ swaps log := by
  induction log with
  | nil => exact le_refl _
  | cons event earlier ih =>
    by_cases other : event.thread ≠ thread
    · rw [swapsAtCall_cons other]
      exact ih.trans swaps_le_cons
    · rw [swapsAtCall, List.dropWhile_cons_of_neg (by simpa using other)]

omit [DecidableEq ν] in
theorem brief_of_few {mine : Local ν} (few : swaps log < 2 ^ 64) : Brief log thread mine := by
  cases mine with
  | popCas node tag next => exact few.trans_le (Nat.le_add_left _ _)
  | _ => trivial

end Log

variable {stack after : Stack τ ν} {thread : τ} {mine left : Local ν}

/-- What a step of one thread may change for the others. -/
structure Advance (thread : τ) (stack after : Stack τ ν) : Prop where
  log : after.log = stack.log ∨ ∃ event, event.thread = thread ∧ after.log = event :: stack.log
  owner : ∀ node u, u ≠ thread → stack.owner node = some u →
    after.owner node = some u ∧ after.next node = stack.next node
  top : swaps after.log = swaps stack.log → after.m_head = stack.m_head ∧
    ∀ node, stack.m_head.ptr = some node → after.next node = stack.next node

theorem Sound.owned_ne_top (sound : Sound stack) {node top : ν} (owned : stack.owner node = some thread)
    (head : stack.m_head.ptr = some top) : node ≠ top := by
  rintro rfl
  obtain ⟨nodes, _, linked, _, off⟩ := sound.chain
  obtain ⟨rest, rfl, _⟩ := Linked.head (head ▸ linked)
  rw [(off node).mp List.mem_cons_self] at owned
  contradiction

theorem Advance.setNext (sound : Sound stack) {node : ν} (owned : stack.owner node = some thread)
    (pointer : Option ν) : Advance thread stack (stack.setNext node pointer) where
  log := .inl rfl
  owner other u apart held := by
    have ne : other ≠ node := by
      rintro rfl
      exact apart (Option.some.inj (held.symm.trans owned))
    exact ⟨held, Function.update_of_ne ne ..⟩
  top _ := ⟨rfl, fun top head => Function.update_of_ne (sound.owned_ne_top owned head).symm ..⟩

theorem Took.advance (sound : Sound stack) (asserted : Thread stack thread mine)
    (took : Took stack thread mine after left) : Advance thread stack after := by
  cases took with
  | reuse node next owned => exact .setNext sound owned next
  | pushLink node oldHead => exact .setNext sound asserted oldHead.ptr
  | give node other owned =>
    refine ⟨.inl rfl, fun held u apart same => ⟨?_, rfl⟩, fun _ => ⟨rfl, fun _ _ => rfl⟩⟩
    have ne : held ≠ node := by
      rintro rfl
      exact apart (Option.some.inj (same.symm.trans owned))
    exact (Function.update_of_ne ne ..).trans same
  | pushSwap node oldHead same =>
    refine ⟨.inr ⟨_, rfl, rfl⟩, fun held u apart owned => ⟨?_, rfl⟩, fun equal => ?_⟩
    · have ne : held ≠ node := by
        rintro rfl
        exact apart (Option.some.inj (owned.symm.trans asserted.1))
      exact (Function.update_of_ne ne ..).trans owned
    · exact absurd equal (Nat.succ_ne_self _)
  | popSwap node tag next same =>
    refine ⟨.inr ⟨_, rfl, rfl⟩, fun held u apart owned => ⟨?_, rfl⟩, fun equal => ?_⟩
    · exact (Function.update_of_ne (sound.owned_ne_top owned (by rw [same])) ..).trans owned
    · exact absurd equal (Nat.succ_ne_self _)
  | callPop | popNullTag | popNullPtr =>
    exact ⟨.inr ⟨_, rfl, rfl⟩, fun _ _ _ owned => ⟨owned, rfl⟩, fun _ => ⟨rfl, fun _ _ => rfl⟩⟩
  | _ => exact ⟨.inl rfl, fun _ _ _ owned => ⟨owned, rfl⟩, fun _ => ⟨rfl, fun _ _ => rfl⟩⟩

/-- A thread's assertion survives what the other threads do. -/
theorem Advance.stable {u : τ} {theirs : Local ν} (advance : Advance thread stack after) (apart : u ≠ thread)
    (asserted : Thread stack u theirs) : Thread after u theirs := by
  have inside (before : InsidePop u stack.log) : InsidePop u after.log := by
    rcases advance.log with same | ⟨event, by_, same⟩
    · exact same ▸ before
    · exact same ▸ before.cons (by_ ▸ apart.symm)
  have empty (before : EmptyDuring u stack.log) : EmptyDuring u after.log := by
    rcases advance.log with same | ⟨event, by_, same⟩
    · exact same ▸ before
    · exact same ▸ before.cons (by_ ▸ apart.symm)
  have grows : swaps stack.log ≤ swaps after.log := by
    rcases advance.log with same | ⟨event, _, same⟩
    · exact (congrArg swaps same).ge
    · exact same ▸ swaps_le_cons
  have call : swapsAtCall u after.log = swapsAtCall u stack.log := by
    rcases advance.log with same | ⟨event, by_, same⟩
    · rw [same]
    · rw [same, swapsAtCall_cons (by_ ▸ apart.symm)]
  cases theirs with
  | idle => trivial
  | pushLoad | pushLoadTag | pushLoadPtr | pushLink => exact (advance.owner _ u apart asserted).1
  | pushCas =>
    have kept := advance.owner _ u apart asserted.1
    exact ⟨kept.1, kept.2.trans asserted.2⟩
  | popLoad => exact inside asserted
  | popLoadTag => exact ⟨inside asserted.1, fun null => empty (asserted.2 null)⟩
  | popLoadPtr | popLoadNext =>
    obtain ⟨within, count, since, dated⟩ := asserted
    exact ⟨inside within, count, call.trans_le since, dated.mono grows⟩
  | popCas node tag next =>
    obtain ⟨within, count, since, dated, known⟩ := asserted
    refine ⟨inside within, count, call.trans_le since, dated.mono grows, fun current head => ?_⟩
    -- no swap can have happened since the tag was read
    have still : swaps after.log = swaps stack.log := le_antisymm (current ▸ dated.1) grows
    have top := advance.top still
    rw [top.1] at head
    exact (top.2 node head).trans (known (current.trans still) head)

/-- A null head is an empty abstract stack, seen from inside the call. -/
theorem Sound.emptyDuring (sound : Sound stack) (inside : InsidePop thread stack.log)
    (null : stack.m_head.ptr = none) : EmptyDuring thread stack.log := by
  obtain ⟨nodes, same, linked, _⟩ := sound.chain
  obtain rfl := linked.unique (null ▸ rfl : Linked stack.next stack.m_head.ptr [])
  exact ⟨[], stack.log, rfl, by simp, inside, same⟩

theorem Sound.record (sound : Sound stack) {event : Event τ ν} (count : swaps (event :: stack.log) = swaps stack.log)
    (same : contents (event :: stack.log) = contents stack.log)
    (nulls : ∀ t, event = .popNull t → EmptyDuring t stack.log) : Sound (stack.record event) where
  tag := by rw [Stack.record, count]; exact sound.tag
  chain := by rw [Stack.record, same]; exact sound.chain
  left later earlier t node split := by
    rcases List.cons_eq_append_iff.mp split with ⟨rfl, equal⟩ | ⟨before, rfl, inside⟩
    · obtain ⟨rfl, -⟩ := List.cons_eq_cons.mp equal
      exact absurd count (Nat.succ_ne_self _)
    · exact sound.left before earlier t node inside
  nulls later earlier t split := by
    rcases List.cons_eq_append_iff.mp split with ⟨rfl, equal⟩ | ⟨before, rfl, inside⟩
    · obtain ⟨same, rfl⟩ := List.cons_eq_cons.mp equal
      exact nulls t same.symm
    · exact sound.nulls before earlier t inside

theorem Sound.setNext (sound : Sound stack) {node : ν} (owned : stack.owner node = some thread)
    (pointer : Option ν) : Sound (stack.setNext node pointer) := by
  obtain ⟨nodes, same, linked, distinct, off⟩ := sound.chain
  refine ⟨sound.tag, ⟨nodes, same, (Linked.update ?_ pointer).mpr linked, distinct, off⟩, sound.left, sound.nulls⟩
  rw [off, owned]
  exact Option.some_ne_none thread

theorem Sound.give (sound : Sound stack) {node : ν} (owned : stack.owner node = some thread) (other : τ) :
    Sound (stack.setOwner node (some other)) := by
  obtain ⟨nodes, same, linked, distinct, off⟩ := sound.chain
  refine ⟨sound.tag, ⟨nodes, same, linked, distinct, fun held => ?_⟩, sound.left, sound.nulls⟩
  change held ∈ nodes ↔ Function.update stack.owner node (some other) held = none
  rw [off, Function.update_apply]
  split_ifs with equal
  · simp [equal, owned]
  · rfl

/-- A successful push conses its node. -/
theorem Sound.pushSwap (sound : Sound stack) {node : ν} {oldHead : Head ν} (owned : stack.owner node = some thread)
    (linked : stack.next node = oldHead.ptr) (same : stack.m_head = oldHead) :
    Sound (({ stack with m_head := ⟨some node, oldHead.tag + 1⟩ }.setOwner node none).record
      (.pushed thread node)) := by
  subst same
  obtain ⟨nodes, held, chain, distinct, off⟩ := sound.chain
  have outside : node ∉ nodes := by
    rw [off, owned]
    exact Option.some_ne_none thread
  refine ⟨?_, ⟨node :: nodes, ?_, ⟨rfl, ?_⟩, List.nodup_cons.mpr ⟨outside, distinct⟩, fun other => ?_⟩, ?_, ?_⟩
  · change stack.m_head.tag + 1 = BitVec.ofNat 64 (swaps stack.log + 1)
    rw [sound.tag, BitVec.ofNat_add]
    rfl
  · change (contents stack.log).map (node :: ·) = some (node :: nodes)
    rw [held]
    rfl
  · exact linked ▸ chain
  · change other ∈ node :: nodes ↔ Function.update stack.owner node none other = none
    rw [List.mem_cons, off, Function.update_apply]
    split_ifs with equal <;> simp [equal]
  · intro later earlier t other split
    rcases List.cons_eq_append_iff.mp split with ⟨rfl, equal⟩ | ⟨before, rfl, inside⟩
    · cases equal
    · exact sound.left before earlier t other inside
  · intro later earlier t split
    rcases List.cons_eq_append_iff.mp split with ⟨rfl, equal⟩ | ⟨before, rfl, inside⟩
    · cases equal
    · exact sound.nulls before earlier t inside

/-- A successful pop takes the head off: a current tag means nothing has moved since it was read. -/
theorem Sound.popSwap (sound : Sound stack) {node : ν} {tag : BitVec 64} {next : Option ν} {count : ℕ}
    (few : swaps stack.log < count + 2 ^ 64) (dated : Dated stack.log tag count)
    (known : count = swaps stack.log → stack.m_head.ptr = some node → stack.next node = next)
    (same : stack.m_head = ⟨some node, tag⟩) :
    Sound (({ stack with m_head := ⟨next, tag + 1⟩ }.setOwner node (some thread)).record
      (.popped thread node)) := by
  obtain ⟨nodes, held, chain, distinct, off⟩ := sound.chain
  have top : stack.m_head.ptr = some node := by rw [same]
  have current : tag = BitVec.ofNat 64 (swaps stack.log) := by rw [← sound.tag, same]
  obtain ⟨rest, rfl, tail⟩ := Linked.head (top ▸ chain)
  rw [known (dated.current few current) top] at tail
  have taken : contents (.popped thread node :: stack.log) = some rest := by simp [contents, held]
  have apart := List.nodup_cons.mp distinct
  refine ⟨?_, ⟨rest, taken, tail, apart.2, fun other => ?_⟩, ?_, ?_⟩
  · change tag + 1 = BitVec.ofNat 64 (swaps stack.log + 1)
    rw [current, BitVec.ofNat_add]
    rfl
  · change other ∈ rest ↔ Function.update stack.owner node (some thread) other = none
    rw [Function.update_apply]
    split_ifs with equal
    · simpa [equal] using apart.1
    · rw [← off, List.mem_cons, or_iff_right equal]
  · intro later earlier t other split
    rcases List.cons_eq_append_iff.mp split with ⟨rfl, equal⟩ | ⟨before, rfl, inside⟩
    · cases equal
      exact ⟨rest, taken, apart.1⟩
    · exact sound.left before earlier t other inside
  · intro later earlier t split
    rcases List.cons_eq_append_iff.mp split with ⟨rfl, equal⟩ | ⟨before, rfl, inside⟩
    · cases equal
    · exact sound.nulls before earlier t inside

/-- Every step re-establishes the assertion of the store and of the thread that takes it. -/
theorem Took.sound (brief : Brief stack.log thread mine) (sound : Sound stack)
    (asserted : Thread stack thread mine) (took : Took stack thread mine after left) :
    Sound after ∧ Thread after thread left := by
  cases took with
  | callPush node owned => exact ⟨sound, owned⟩
  | callPop => exact ⟨sound.record rfl rfl (by simp), List.find?_cons_of_pos (by simp [Event.thread])⟩
  | reuse node next owned => exact ⟨sound.setNext owned next, trivial⟩
  | give node other owned => exact ⟨sound.give owned other, trivial⟩
  | pushPtr | pushTag | pushPtrTag | pushTagPtr => exact ⟨sound, asserted⟩
  | pushLink node oldHead =>
    exact ⟨sound.setNext asserted _, asserted, Function.update_self ..⟩
  | pushSwap node oldHead same => exact ⟨sound.pushSwap asserted.1 asserted.2 same, trivial⟩
  | pushLost => exact ⟨sound, asserted.1⟩
  | popPtr => exact ⟨sound, asserted, fun null => sound.emptyDuring asserted null⟩
  | popTag => exact ⟨sound, asserted, _, swapsAtCall_le, le_refl _, sound.tag⟩
  | popPtrTag => exact ⟨sound, asserted.1, _, swapsAtCall_le, le_refl _, sound.tag⟩
  | popTagPtr => exact ⟨sound, asserted⟩
  | popNullTag =>
    refine ⟨sound.record rfl rfl fun t same => ?_, trivial⟩
    cases same
    exact asserted.2 rfl
  | popNullPtr tag top =>
    refine ⟨sound.record rfl rfl fun t same => ?_, trivial⟩
    cases same
    exact sound.emptyDuring asserted.1 top
  | popNext node tag =>
    obtain ⟨inside, count, since, dated⟩ := asserted
    exact ⟨sound, inside, count, since, dated, fun _ _ => rfl⟩
  | popSwap node tag next same =>
    obtain ⟨_, count, since, dated, known⟩ := asserted
    exact ⟨sound.popSwap (brief.trans_le (Nat.add_le_add_right since _)) dated known same, trivial⟩
  | popLost => exact ⟨sound, asserted.1⟩

theorem start_annotated (owners : ν → τ) (next : ν → Option ν) :
    Pool.Annotated Sound Thread (start owners next) := by
  refine ⟨⟨rfl, ⟨[], rfl, rfl, List.nodup_nil, ?_⟩, ?_, ?_⟩, fun _ => trivial⟩ <;> simp [start]

theorem step_annotated {pool target : Pool τ (Stack τ ν) (Local ν)} {label : τ × Input τ ν}
    (holds : Pool.Annotated Sound Thread pool) (few : swaps pool.shared.log < 2 ^ 64)
    (stepped : step pool label = some target) : Pool.Annotated Sound Thread target := by
  have mine := holds.threads label.1
  exact holds.step (fun _ _ ran => (exec_took ran).sound (brief_of_few few) holds.shared mine)
    (fun _ _ ran _ apart theirs => ((exec_took ran).advance holds.shared mine).stable apart theirs) stepped

/-- The log only grows, by at most one event a step. -/
theorem step_log {pool target : Pool τ (Stack τ ν) (Local ν)} {label : τ × Input τ ν}
    (stepped : step pool label = some target) :
    target.shared.log = pool.shared.log ∨ ∃ event, target.shared.log = event :: pool.shared.log := by
  obtain ⟨shared, left, ran, rfl⟩ := Pool.step_eq_some.mp stepped
  have took := exec_took ran
  generalize pool.threads label.1 = mine at took
  cases took <;> first | exact .inl rfl | exact .inr ⟨_, rfl⟩

theorem step_swaps_le {pool target : Pool τ (Stack τ ν) (Local ν)} {label : τ × Input τ ν}
    (stepped : step pool label = some target) : swaps pool.shared.log ≤ swaps target.shared.log := by
  rcases step_log stepped with same | ⟨event, same⟩
  · rw [same]
  · rw [same]
    exact swaps_le_cons

theorem run_annotated {owners : ν → τ} {next : ν → Option ν} {labels : List (τ × Input τ ν)}
    {pool : Pool τ (Stack τ ν) (Local ν)} (few : swaps pool.shared.log < 2 ^ 64)
    (run : Replay.replay step (start owners next) labels = some pool) :
    Pool.Annotated Sound Thread pool :=
  Replay.invariant _ (fun _ _ _ holds below stepped => step_annotated holds (below.trans_lt few) stepped)
    (start_annotated owners next)
    (Replay.along_le (fun pool => swaps pool.shared.log) (fun _ _ _ => step_swaps_le) run).2 run

omit [DecidableEq τ] in
/-- A node of the abstract stack was there before or has been pushed since. -/
theorem mem_contents_append {later earlier : List (Event τ ν)} {nodes before : List ν} {node : ν}
    (now : contents (later ++ earlier) = some nodes) (old : contents earlier = some before)
    (member : node ∈ nodes) : node ∈ before ∨ ∃ t, .pushed t node ∈ later := by
  induction later generalizing nodes with
  | nil =>
    obtain rfl := Option.some.inj (now.symm.trans old)
    exact .inl member
  | cons event rest ih =>
    cases event with
    | pushed t other =>
      obtain ⟨middle, held, rfl⟩ := Option.map_eq_some_iff.mp now
      rcases List.mem_cons.mp member with rfl | inside
      · exact .inr ⟨t, List.mem_cons_self⟩
      · exact (ih held inside).imp_right fun ⟨u, pushed⟩ => ⟨u, List.mem_cons_of_mem _ pushed⟩
    | popped t other =>
      obtain ⟨middle, held, taken⟩ := Option.bind_eq_some_iff.mp now
      split_ifs at taken
      obtain rfl := Option.some.inj taken
      exact (ih held (List.mem_of_mem_tail member)).imp_right
        fun ⟨u, pushed⟩ => ⟨u, List.mem_cons_of_mem _ pushed⟩
    | popCalled t | popNull t =>
      exact (ih now member).imp_right fun ⟨u, pushed⟩ => ⟨u, List.mem_cons_of_mem _ pushed⟩

omit [DecidableEq τ] in
/-- Every suffix of a log that replays also replays, and a pop takes the head of it. -/
theorem contents_split {later earlier : List (Event τ ν)} {nodes : List ν}
    (now : contents (later ++ earlier) = some nodes) : ∃ before, contents earlier = some before := by
  induction later generalizing nodes with
  | nil => exact ⟨nodes, now⟩
  | cons event rest ih =>
    cases event with
    | pushed t other =>
      obtain ⟨middle, held, _⟩ := Option.map_eq_some_iff.mp now
      exact ih held
    | popped t other =>
      obtain ⟨middle, held, _⟩ := Option.bind_eq_some_iff.mp now
      exact ih held
    | popCalled t | popNull t => exact ih now

omit [DecidableEq τ] in
theorem contents_popped {earlier : List (Event τ ν)} {t : τ} {node : ν} {nodes : List ν}
    (now : contents (.popped t node :: earlier) = some nodes) : contents earlier = some (node :: nodes) := by
  obtain ⟨middle, held, taken⟩ := Option.bind_eq_some_iff.mp now
  split_ifs at taken with top
  obtain rfl := Option.some.inj taken
  rw [held, List.head?_eq_some_iff.mp top |>.choose_spec]
  simp

/-- In every interleaving with fewer than `2 ^ 64` swaps the chain is the abstract list on which
pushes cons and pops take the head, every node off it has an owner, a node is popped again only
after it is pushed again, and null is returned only when the list was empty during the call. -/
theorem stack_linearizable (owners : ν → τ) (next : ν → Option ν) (labels : List (τ × Input τ ν))
    (pool : Pool τ (Stack τ ν) (Local ν))
    (run : Replay.replay step (start owners next) labels = some pool)
    (few : swaps pool.shared.log < 2 ^ 64) :
    (∃ nodes, contents pool.shared.log = some nodes ∧
      Linked pool.shared.next pool.shared.m_head.ptr nodes ∧ nodes.Nodup ∧
      ∀ node, node ∈ nodes ↔ pool.shared.owner node = none) ∧
    (∀ later between earlier t u node,
      pool.shared.log = later ++ .popped u node :: (between ++ .popped t node :: earlier) →
        ∃ v, .pushed v node ∈ between) ∧
    (∀ later earlier t, pool.shared.log = later ++ .popNull t :: earlier → EmptyDuring t earlier) := by
  have sound := (run_annotated few run).shared
  refine ⟨sound.chain, ?_, sound.nulls⟩
  intro later between earlier t u node split
  obtain ⟨nodes, replays, _⟩ := sound.chain
  obtain ⟨after, second⟩ := contents_split (split ▸ replays)
  obtain ⟨before, first, gone⟩ := sound.left (later ++ .popped u node :: between) earlier t node
    (by simpa using split)
  exact (mem_contents_append (contents_popped second) first List.mem_cons_self).resolve_left gone

/-- A node is pushed, popped, reused with another `next` and pushed again by a second thread. -/
def recycle : List (ℕ × Input ℕ ℕ) :=
  [(0, .push 5), (0, .tagFirst), (0, .ptrFirst), (0, .ptrFirst), (0, .ptrFirst),
    (0, .pop), (0, .ptrFirst), (0, .ptrFirst), (0, .ptrFirst), (0, .ptrFirst),
    (0, .reuse 5 (some 9)), (0, .give 5 1),
    (1, .push 5), (1, .ptrFirst), (1, .ptrFirst), (1, .ptrFirst), (1, .ptrFirst)]

theorem stack_linearizable_recycle :
    let pool := (Replay.replay step (start (fun _ => 0) fun _ => none) recycle).get (by decide)
    pool.shared.log = [.pushed 1 5, .popped 0 5, .popCalled 0, .pushed 0 5] ∧
      ∃ nodes, contents pool.shared.log = some nodes ∧
        Linked pool.shared.next pool.shared.m_head.ptr nodes ∧ nodes.Nodup ∧
        ∀ node, node ∈ nodes ↔ pool.shared.owner node = none :=
  ⟨by decide, (stack_linearizable (fun _ => 0) (fun _ => none) recycle _
    (Option.some_get _).symm (by decide)).1⟩

end LockFreeCore.LockFreeStack
