import LockFreeCore.Proofs.CLockFreeCore.Roles

/-! # One lifetime of a session

From the moment `acceptThread` has reset a slot until the slot is popped again, `m_ioCount` is the
number of the posts and completions that have counted themselves in and not out, the session is
torn down at most once, and from then on nothing of it is in flight or about to be posted.
-/

namespace LockFreeCore.CLockFreeCore

open CountedClose Replay

/-- The slot that the label pops from the free list. -/
def popped (m : Machine) (label : ℕ × Input) : Option ℕ :=
  (m.top label.1).bind fun frame => pops m.shared frame label.2

/-- The frame is between an increment of the slot's `m_ioCount` and the decrement that matches it. -/
def Frame.counted (k : ℕ) : Frame → Bool
  | .worker session pc => session.slot = k && pc ≠ .peerGone && pc ≠ .poll
  | .recvPost session pc => session.slot = k && match pc with
    | .recheck | .backOut | .socket | .call _ | .failed => true
    | _ => false
  | .sendPost session pc => session.slot = k && match pc with
    | .recheck _ | .backOut | .socket _ | .buffers .. | .call .. | .failed => true
    | _ => false
  | _ => false

/-- The increments of the slot's `m_ioCount` that no decrement has matched yet. -/
def unmatched (k : ℕ) (m : Machine) : ℕ :=
  (m.shared.inFlight.countP fun io => io.session.slot = k) + m.frames.countP (·.counted k)

/-- The frame has seen `m_isClosing` clear a second time and is going to post. -/
def Frame.posting (k : ℕ) : Frame → Bool
  | .recvPost session pc => session.slot = k && match pc with
    | .socket | .call _ => true
    | _ => false
  | .sendPost session pc => session.slot = k && match pc with
    | .socket _ | .buffers .. | .call .. => true
    | _ => false
  | _ => false

/-- The frame is a closer that has seen `m_isClosing` set. -/
def Frame.closes (k : ℕ) : Frame → Bool
  | .removeSession session _ pc => session.slot = k && pc ≠ .mark && pc ≠ .closing
  | _ => false

/-- `acceptThread` has reset the slot. Threads may have got pointers to it earlier, but they have
not counted themselves in, and none is a closer that has seen the flag. -/
structure Reset (m : Machine) (k : ℕ) : Prop where
  ioCount : (m.shared.slots k).m_ioCount = 0
  closing : (m.shared.slots k).m_isClosing = false
  tornDown : (m.shared.slots k).m_isTornDown = false
  prepared : ∀ frame ∈ m.frames, ¬ frame.prepares k
  outside : ∀ frame ∈ m.frames, ¬ frame.counted k ∧ ¬ frame.closes k
  landed : ∀ io ∈ m.shared.inFlight, io.session.slot ≠ k
  taken : k ∉ m.shared.m_sessionFreeList

/-- The slot as a resource, with all threads and posted IOs. -/
def whole (m : Machine) (k : ℕ) (id : ℤ) : State :=
  resource m.shared k (flying k m.shared.inFlight + parties k id m.frames)

section Runs

variable {m next : Machine} {label : ℕ × Input} {k : ℕ} {id : ℤ}

theorem parties_append (first second : List Frame) :
    parties k id (first ++ second) = parties k id first + parties k id second := by
  simp [parties]

theorem parties_perm {first second : List Frame} (perm : first.Perm second) :
    parties k id first = parties k id second := (perm.map _).sum_eq

/-- One access by any thread is a step of the resource, or nothing. -/
theorem step_moves (id : ℤ) (stepped : step m label = some next) (later : ∀ frame ∈ m.frames, ¬ frame.prepares k)
    (stays : popped m label ≠ some k) : ∃ frame, m.top label.1 = some frame ∧
      Moves m.shared k id frame (whole m k id) (whole next k id) := by
  obtain ⟨frame, left, others, top, ran, frames, frames'⟩ := Stacks.step_frames stepped
  refine ⟨frame, top, ?_⟩
  have moves := exec_moves id (R := parties k id others) ran
    (later frame (frames.mem_iff.mpr List.mem_cons_self)) (by rwa [popped, top] at stays)
  have source : whole m k id = resource m.shared k (party (frame.role k id) +
      (flying k m.shared.inFlight + parties k id others)) := by
    have cons : parties k id (frame :: others) = party (frame.role k id) + parties k id others := rfl
    rw [whole, parties_perm frames, cons]
    congr 1
    ac_rfl
  have target : whole next k id = resource next.shared k (parties k id left +
      (flying k next.shared.inFlight + parties k id others)) := by
    rw [whole, parties_perm frames', parties_append]
    congr 1
    ac_rfl
  rwa [source, target]

/-- No thread begins to prepare a slot that is not popped. -/
theorem exec_prepares {s s' : CLockFreeCore} {frame : Frame} {input : Input} {left : List Frame}
    (ran : exec s frame input = some (s', left)) (later : ¬ frame.prepares k)
    (stays : pops s frame input ≠ some k) : ∀ f ∈ left, ¬ f.prepares k := by
  intro f member prepares
  have leaves := (exec_spec ran).2 f member
  cases f with
  | issue slot socket =>
    obtain rfl : slot = k := by simpa [Frame.prepares] using prepares
    exact stays leaves.2
  | accepting session socket pc =>
    rcases leaves with ⟨rfl, -, -⟩ | ⟨last, rfl, follows⟩
    · apply later
      simp only [Frame.prepares, decide_eq_true_eq] at prepares ⊢
      exact prepares.1
    · apply later
      simp only [Frame.prepares, decide_eq_true_eq] at prepares ⊢
      refine ⟨prepares.1, ?_⟩
      cases last <;> cases follows <;> simp_all
  | _ => cases prepares

/-- What holds of a slot during a lifetime, after `before` earlier ones were torn down. -/
structure Alive (m : Machine) (k : ℕ) (id : ℤ) (before : ℕ) : Prop where
  sound : Sound before (whole m k id)
  later : ∀ frame ∈ m.frames, ¬ frame.prepares k

theorem Moves.sound {s : CLockFreeCore} {frame : Frame} {before : ℕ} {source target : State}
    (moves : Moves s k id frame source target) (sound : Sound before source) : Sound before target := by
  rcases moves with rfl | ⟨label, step, -, -⟩
  · exact sound
  · exact sound.step step

/-- A slot that is torn down stays so. -/
theorem Moves.torn {s : CLockFreeCore} {frame : Frame} {source target : State}
    (moves : Moves s k id frame source target) : source.torn → target.torn := by
  rcases moves with rfl | ⟨label, step, -, -⟩
  · exact fun torn => torn
  · cases step <;> simp

/-- A session that is closing stays so. -/
theorem Moves.closing {s : CLockFreeCore} {frame : Frame} {source target : State}
    (moves : Moves s k id frame source target) : source.closing → target.closing := by
  rcases moves with rfl | ⟨label, step, -, -⟩
  · exact fun closing => closing
  · cases step <;> simp

theorem Alive.step {before : ℕ} (alive : Alive m k id before) (stepped : step m label = some next)
    (stays : popped m label ≠ some k) : Alive next k id before := by
  obtain ⟨frame, top, moves⟩ := step_moves id stepped alive.later stays
  refine ⟨moves.sound alive.sound, ?_⟩
  obtain ⟨frame, left, others, top, ran, frames, frames'⟩ := Stacks.step_frames stepped
  have later := exec_prepares ran (alive.later frame (frames.mem_iff.mpr List.mem_cons_self))
    (by rwa [popped, top] at stays)
  intro f member
  rcases List.mem_append.mp (frames'.mem_iff.mp member) with member | member
  · exact later f member
  · exact alive.later f (frames.mem_iff.mpr (List.mem_cons_of_mem _ member))

/-- How many threads there are in a role. -/
theorem count_parties (role : Role) (frames : List Frame) :
    (parties k id frames).count role = frames.countP fun frame => frame.role k id = some role := by
  induction frames with
  | nil => rfl
  | cons frame rest ih =>
    have cons : parties k id (frame :: rest) = party (frame.role k id) + parties k id rest := rfl
    rw [cons, Multiset.count_add, ih, List.countP_cons, Nat.add_comm]
    cases other : frame.role k id with
    | none => simp [party]
    | some other => simp [party, Multiset.count_singleton, eq_comm]

/-- How many posted IOs there are, all of them users. -/
theorem count_flying (role : Role) (inFlight : List Io) :
    (flying k inFlight).count role =
      if role = .working then inFlight.countP fun io => io.session.slot = k else 0 := by
  induction inFlight with
  | nil => simp [flying]
  | cons io rest ih =>
    have cons : flying k (io :: rest) = party (if io.session.slot = k then some .working else none) +
        flying k rest := rfl
    rw [cons, Multiset.count_add, ih]
    by_cases here : io.session.slot = k <;> by_cases working : role = .working <;>
      simp [party, here, working, Nat.add_comm]

/-- The frames that count are those between an increment and its decrement. -/
theorem Frame.counted_iff (frame : Frame) (k : ℕ) (id : ℤ) : frame.counted k ↔ frame.role k id = some .entering ∨
    frame.role k id = some .leaving ∨ frame.role k id = some .working := by
  cases frame with
  | worker session pc =>
    by_cases here : session.slot = k <;> cases pc <;> simp [counted, role, WorkerPc.role, here]
  | recvPost session pc =>
    by_cases here : session.slot = k <;> cases pc <;> simp [counted, role, RecvPc.role, here]
  | sendPost session pc =>
    by_cases here : session.slot = k <;> cases pc <;> simp [counted, role, SendPc.role, here]
  | removeSession session cause pc =>
    by_cases here : session.slot = k <;> cases pc <;> simp [counted, role, RemovePc.role, here]
  | findRemove other mark cause => by_cases same : other = id <;> simp [counted, role, same]
  | _ => simp [counted, role]

theorem Frame.closes_iff (frame : Frame) (k : ℕ) (id : ℤ) : frame.closes k ↔ frame.role k id = some .reading ∨
    frame.role k id = some .claiming ∨ frame.role k id = some .tearing := by
  cases frame with
  | worker session pc =>
    by_cases here : session.slot = k <;> cases pc <;> simp [closes, role, WorkerPc.role, here]
  | recvPost session pc =>
    by_cases here : session.slot = k <;> cases pc <;> simp [closes, role, RecvPc.role, here]
  | sendPost session pc =>
    by_cases here : session.slot = k <;> cases pc <;> simp [closes, role, SendPc.role, here]
  | removeSession session cause pc =>
    by_cases here : session.slot = k <;> cases pc <;> simp [closes, role, RemovePc.role, here]
  | findRemove other mark cause => by_cases same : other = id <;> simp [closes, role, same]
  | _ => simp [closes, role]

theorem Frame.role_of_posting {frame : Frame} (posting : frame.posting k) :
    frame.role k id = some .working := by
  cases frame with
  | recvPost session pc =>
    cases pc <;> simp_all [Frame.posting, role, RecvPc.role]
  | sendPost session pc =>
    cases pc <;> simp_all [Frame.posting, role, SendPc.role]
  | _ => cases posting

theorem Frame.slot_of_handle {frame : Frame} {session : Handle} (handle : frame.handle = some session)
    (here : session.slot = k) : frame.slot = some k := by
  subst here
  cases frame <;> first | exact congrArg (Option.map Handle.slot) handle | cases handle

theorem Frame.slot_of_prepares {frame : Frame} (prepares : frame.prepares k) : frame.slot = some k := by
  cases frame with
  | issue slot socket => exact congrArg some (of_decide_eq_true prepares)
  | accepting session socket pc => exact congrArg some (of_decide_eq_true prepares).1
  | _ => cases prepares

theorem Frame.slot_of_counted {frame : Frame} (counted : frame.counted k) : frame.slot = some k := by
  cases frame with
  | worker session pc =>
    simp only [Frame.counted, Bool.and_eq_true, decide_eq_true_eq] at counted
    exact congrArg some counted.1.1
  | recvPost session pc | sendPost session pc =>
    simp only [Frame.counted, Bool.and_eq_true, decide_eq_true_eq] at counted
    exact congrArg some counted.1
  | _ => cases counted

theorem Frame.slot_of_closes {frame : Frame} (closes : frame.closes k) : frame.slot = some k := by
  cases frame with
  | removeSession session cause pc =>
    simp only [Frame.closes, Bool.and_eq_true, decide_eq_true_eq] at closes
    exact congrArg some closes.1.1
  | _ => cases closes

/-- The users among the parties are the increments that are not matched yet. -/
theorem unmatched_eq (m : Machine) (k : ℕ) (id : ℤ) : unmatched k m =
    (whole m k id).among .entering + (whole m k id).among .leaving + (whole m k id).among .working := by
  have threads (frames : List Frame) : frames.countP (·.counted k) =
      (frames.countP fun frame => frame.role k id = some .entering) +
      (frames.countP fun frame => frame.role k id = some .leaving) +
      (frames.countP fun frame => frame.role k id = some .working) := by
    induction frames with
    | nil => rfl
    | cons frame rest ih =>
      have counted := frame.counted_iff k id
      simp only [List.countP_cons, ih, counted]
      cases part : frame.role k id with
      | none => simp
      | some role => cases role <;> simp <;> omega
  simp only [unmatched, State.among, whole, resource, Multiset.count_add, count_flying, count_parties, threads]
  simp only [reduceCtorEq, if_false, if_true]
  omega

theorem among_tearing : (whole m k id).among .tearing =
    m.frames.countP fun frame => frame.role k id = some .tearing := by
  rw [State.among, whole, resource, Multiset.count_add, count_flying, if_neg (by decide), count_parties, Nat.zero_add]

theorem Alive.torn_of_tearing {before : ℕ} (alive : Alive m k id before) {frame : Frame}
    (member : frame ∈ m.frames) (part : frame.role k id = some .tearing) : (m.shared.slots k).m_isTornDown := by
  apply alive.sound.torn_of_tearing
  rw [among_tearing, List.countP_pos_iff]
  exact ⟨frame, member, decide_eq_true part⟩

/-- One thread at most tears the slot down. -/
theorem Alive.tears_once {before : ℕ} (alive : Alive m k id before) {frame : Frame} {others : List Frame}
    (frames : m.frames.Perm (frame :: others)) (part : frame.role k id = some .tearing) :
    ∀ f ∈ others, f.role k id ≠ some .tearing := by
  have torn : (whole m k id).torn = true := alive.torn_of_tearing (frames.mem_iff.mpr List.mem_cons_self) part
  have claimed := alive.sound.claimed
  have released := alive.sound.released
  simp only [among_tearing, frames.countP_eq, List.countP_cons, part, decide_true, if_true] at released
  rw [torn, if_pos rfl] at claimed
  have none : (others.countP fun f => f.role k id = some .tearing) = 0 := by omega
  simpa [List.countP_eq_zero] using none

theorem Reset.alive (reset : Reset m k) : Alive m k id (m.shared.log.countP (isTearDown k)) := by
  have absent (role : Role) (proper : role ≠ .polling) : (whole m k id).among role = 0 := by
    have threads : (parties k id m.frames).count role = 0 := by
      rw [count_parties, List.countP_eq_zero]
      intro frame member part
      have part : frame.role k id = some role := by simpa using part
      have outside := reset.outside frame member
      rw [frame.counted_iff k id, frame.closes_iff k id, part] at outside
      cases role <;> simp at outside proper
    have landed : (m.shared.inFlight.countP fun io => io.session.slot = k) = 0 := by
      rw [List.countP_eq_zero]
      intro io member
      simpa using reset.landed io member
    simp [State.among, whole, resource, Multiset.count_add, threads, count_flying, landed]
  have users : unmatched k m = 0 := by
    rw [unmatched_eq m k id, absent .entering (by decide), absent .leaving (by decide), absent .working (by decide)]
  have torn : (whole m k id).torn = false := reset.tornDown
  refine ⟨⟨?_, ?_, ?_, ?_, ?_⟩, reset.prepared⟩
  · rw [absent .entering (by decide), absent .leaving (by decide), absent .working (by decide)]
    exact reset.ioCount
  · intro closed
    rw [absent .leaving (by decide), absent .reading (by decide), absent .claiming (by decide), torn] at closed
    simp at closed
  · intro _
    exact absent .working (by decide)
  · rw [torn]
    rfl
  · rw [absent .tearing (by decide)]
    exact congrArg _ (List.count_eq_zero.mpr reset.taken)

/-- Once the slot is torn down nothing of it is in flight, and no thread is past its second look. -/
theorem Alive.sealed {before : ℕ} (alive : Alive m k id before) (torn : (m.shared.slots k).m_isTornDown) :
    (∀ io ∈ m.shared.inFlight, io.session.slot ≠ k) ∧ ∀ frame ∈ m.frames, frame.role k id ≠ some .working := by
  have sealed := alive.sound.sealed (.inl torn)
  simp only [State.among, whole, resource, Multiset.count_add, count_flying, count_parties, if_true] at sealed
  obtain ⟨landed, idle⟩ := Nat.add_eq_zero_iff.mp sealed
  rw [List.countP_eq_zero] at landed idle
  constructor
  · intro io member
    simpa using landed io member
  · intro frame member
    simpa using idle frame member

/-- The handshake of posting and closing, over one lifetime of a slot: the count is exact, the
tear-down block is entered at most once, and from then on no IO of the slot is in flight and no
thread is going to post one. -/
theorem teardown_handshake {target : Machine} {labels : List (ℕ × Input)} (reset : Reset m k)
    (lifetime : Along step (fun m label => popped m label ≠ some k) m labels)
    (run : replay step m labels = some target) :
    (0 ≤ (target.shared.slots k).m_ioCount ∧ (target.shared.slots k).m_ioCount = unmatched k target) ∧
    target.shared.log.countP (isTearDown k) = m.shared.log.countP (isTearDown k) +
      (if (target.shared.slots k).m_isTornDown then 1 else 0) ∧
    ((target.shared.slots k).m_isTornDown →
      (∀ io ∈ target.shared.inFlight, io.session.slot ≠ k) ∧ ∀ frame ∈ target.frames, ¬ frame.posting k) := by
  have alive : Alive target k 0 (m.shared.log.countP (isTearDown k)) :=
    invariant (fun m => Alive m k 0 _) (fun _ _ _ alive stays stepped => alive.step stepped stays)
      reset.alive lifetime run
  have exact : (target.shared.slots k).m_ioCount = unmatched k target := by
    rw [unmatched_eq target k 0]
    exact alive.sound.count
  refine ⟨⟨by omega, exact⟩, alive.sound.claimed, ?_⟩
  intro torn
  obtain ⟨landed, idle⟩ := alive.sealed torn
  refine ⟨landed, ?_⟩
  intro frame member posting
  exact idle frame member (Frame.role_of_posting posting)

end Runs

/-- A session that was never written. -/
def unwritten : Session := ⟨-1, 9, [], 5, true, true, true, 4⟩

/-- `n` accesses of a thread, none of which leaves anything open. -/
def goes (thread n : ℕ) : List (ℕ × Input) := List.replicate n (thread, .go)

/-- The first client is accepted and its slot reset. -/
def acceptsFirst : List (ℕ × Input) := (0, .go) :: (0, .leave) :: goes 0 8

/-- The first receive is posted; the peer closes, and the worker tears the session down. -/
def peerCloses : List (ℕ × Input) :=
  goes 0 3 ++ (0, .leave) :: goes 0 6 ++ (1, .complete 0 0) :: goes 1 12 ++ (1, .leave) :: goes 1 2

theorem teardown_handshake_peerCloses :
    let m := (replay step (start (fun _ => unwritten) 1 1 1) acceptsFirst).get (by decide)
    let target := (replay step m peerCloses).get (by decide)
    target.shared.log = [.closed 0, .tornDown 0 0 0, .marked 0 0 0, .accepted 0 0 0] ∧
      target.shared.m_sessionFreeList = [0] ∧ (target.shared.slots 0).m_ioCount = unmatched 0 target :=
  ⟨by decide, by decide, (teardown_handshake
    ⟨by decide, by decide, by decide, by decide, by decide, by decide, by decide⟩
    (by decide) (Option.some_get _).symm).1.2⟩

end LockFreeCore.CLockFreeCore
