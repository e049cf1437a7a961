import LockFreeCore.Proofs.CLockFreeCore.Teardown

/-! # The lifetimes of a slot

From `start` on a slot is unused until `acceptThread` pops it, is prepared for a session, and then
serves that session until it is popped again. As long as no thread still has a pointer to a slot
that is popped, every lifetime begins with a slot that only the accept thread can reach, so all
pointers to the slot are pointers to its own session.
-/

namespace LockFreeCore.CLockFreeCore

open CountedClose Replay

/-- Some thread still has a pointer to the slot that the step pops. -/
def Overtakes (m : Machine) (label : ℕ × Input) (k : ℕ) : Prop :=
  popped m label = some k ∧ ∃ frame ∈ m.frames, frame.slot = some k

instance (m : Machine) (label : ℕ × Input) (k : ℕ) : Decidable (Overtakes m label k) :=
  inferInstanceAs (Decidable (_ ∧ _))

instance (m : Machine) (label : ℕ × Input) : Decidable (∀ k, ¬ Overtakes m label k) :=
  decidable_of_iff (∀ k ∈ popped m label, ∀ frame ∈ m.frames, frame.slot ≠ some k) (by simp [Overtakes])

/-- A thread, a posted IO or the session table refers to the slot. -/
def Refers (m : Machine) (j : ℕ) : Prop :=
  (∃ frame ∈ m.frames, ∃ session ∈ frame.handle, session.slot = j) ∨
    (∃ io ∈ m.shared.inFlight, io.session.slot = j) ∨ ∃ x, m.shared.m_sessionMap.lookup x = some j

/-- Every id is issued once, for one slot and one socket, and every slot in use has the id that was
issued for it last. -/
structure Issued (m : Machine) : Prop where
  acceptor : m.frames.countP Frame.isAcceptor ≤ 1
  below : ∀ x j sock, .accepted x j sock ∈ m.shared.log → x < m.shared.m_nextSessionId ∨
    x = m.shared.m_nextSessionId ∧ ∃ session socket, .accepting session socket .next ∈ m.frames
  once : ∀ x j sock j' sock', .accepted x j sock ∈ m.shared.log → .accepted x j' sock' ∈ m.shared.log →
    j = j' ∧ sock = sock'
  owner : ∀ x j sock, .accepted x j sock ∈ m.shared.log →
    ∃ sock, .accepted (m.shared.slots j).m_sessionId j sock ∈ m.shared.log
  known : ∀ j, Refers m j → ∃ x sock, .accepted x j sock ∈ m.shared.log

/-- Nothing refers to the slot, and no session has had it. -/
structure Unused (m : Machine) (k : ℕ) : Prop where
  unreached : ∀ frame ∈ m.frames, frame.slot ≠ some k
  landed : ∀ io ∈ m.shared.inFlight, io.session.slot ≠ k
  unlisted : ∀ x, m.shared.m_sessionMap.lookup x ≠ some k
  once : m.shared.m_sessionFreeList.count k ≤ 1
  unissued : ∀ x sock, .accepted x k sock ∉ m.shared.log

/-- How far the accept thread has come with a slot. -/
def AcceptPc.stage : AcceptPc → ℕ
  | .next => 0
  | .socket => 1
  | .pending => 2
  | .ioCount => 3
  | .closing => 4
  | .tornDown => 5
  | .ring => 6
  | .insert => 7
  | .join => 8
  | .post => 9

theorem AcceptPc.stage_next {last pc : AcceptPc} (follows : last.next? = some pc) :
    pc.stage = last.stage + 1 := by
  cases last <;> cases follows <;> rfl

/-- What the accept thread has written to the slot so far. -/
def Prepared (s : CLockFreeCore) (k : ℕ) : Frame → Prop
  | .issue slot _ => slot = k
  | .accepting session socket pc => session = ⟨k, (s.slots k).m_sessionId⟩ ∧ pc.stage < 8 ∧
      .accepted session.id k socket ∈ s.log ∧
      (1 < pc.stage → (s.slots k).m_socket = socket) ∧
      (2 < pc.stage → (s.slots k).m_isSendPending = false) ∧
      (3 < pc.stage → (s.slots k).m_ioCount = 0) ∧
      (4 < pc.stage → (s.slots k).m_isClosing = false) ∧
      (5 < pc.stage → (s.slots k).m_isTornDown = false) ∧
      (6 < pc.stage → (s.slots k).m_sendRingBuff = [])
  | _ => False

/-- The accept thread prepares the slot, and nothing else refers to it. -/
structure Preparing (m : Machine) (k : ℕ) (frame : Frame) : Prop where
  alone : m.frames.filter (·.slot = some k) = [frame]
  landed : ∀ io ∈ m.shared.inFlight, io.session.slot ≠ k
  unlisted : ∀ x, m.shared.m_sessionMap.lookup x ≠ some k
  taken : k ∉ m.shared.m_sessionFreeList
  prepared : Prepared m.shared k frame

/-- The accept thread has just put the slot into the session table, and no other frame and no posted IO has a pointer
to it left from an earlier session. -/
structure Opened (m : Machine) (k : ℕ) (id : ℤ) (socket : ℕ) : Prop where
  alone : m.frames.filter (·.slot = some k) = [.accepting ⟨k, id⟩ socket .join]
  landed : ∀ io ∈ m.shared.inFlight, io.session.slot ≠ k
  listed : ∀ x, m.shared.m_sessionMap.lookup x = some k ↔ x = id
  taken : k ∉ m.shared.m_sessionFreeList
  owner : (m.shared.slots k).m_sessionId = id
  connected : (m.shared.slots k).m_socket = socket
  accepted : .accepted id k socket ∈ m.shared.log
  pending : (m.shared.slots k).m_isSendPending = false
  ioCount : (m.shared.slots k).m_ioCount = 0
  closing : (m.shared.slots k).m_isClosing = false
  tornDown : (m.shared.slots k).m_isTornDown = false
  ring : (m.shared.slots k).m_sendRingBuff = []

/-- What a closer that tears slot `k` down has done by now. -/
def Progress (s : CLockFreeCore) (k : ℕ) (id : ℤ) (socket : ℕ) : Frame → Prop
  | .removeSession session _ pc => session.slot = k → match pc with
    | .mark | .closing | .ioCount | .swap => True
    | .drain | .take | .rest | .socket => s.m_sessionMap.lookup id = some k
    | .close sock => s.m_sessionMap.lookup id = some k ∧ sock = socket
    | .leave | .erase => s.m_sessionMap.lookup id = some k ∧ .closed socket ∈ s.log
    | .push => s.m_sessionMap.lookup id = none ∧ .closed socket ∈ s.log
  | _ => True

/-- The slot serves the session `id`; `before` sessions on it were torn down earlier. -/
structure Lifetime (m : Machine) (k : ℕ) (id : ℤ) (socket before : ℕ) : Prop where
  alive : Alive m k id before
  owner : (m.shared.slots k).m_sessionId = id
  connected : (m.shared.slots k).m_socket = socket
  accepted : .accepted id k socket ∈ m.shared.log
  joined : ∀ session sock pc, .accepting session sock pc ∈ m.frames → session.slot = k → 8 ≤ pc.stage
  named : ∀ x, m.shared.m_sessionMap.lookup x = some k → x = id
  listed : m.shared.m_sessionMap.lookup id = some k ∨
    m.shared.m_sessionMap.lookup id = none ∧ (m.shared.slots k).m_isTornDown
  ended : k ∈ m.shared.m_sessionFreeList →
    m.shared.m_sessionMap.lookup id = none ∧ .closed socket ∈ m.shared.log
  progress : ∀ frame ∈ m.frames, Progress m.shared k id socket frame
  handles : ∀ frame ∈ m.frames, ∀ session ∈ frame.handle, session.slot = k → session.id = id
  flights : ∀ io ∈ m.shared.inFlight, io.session.slot = k → io.session.id = id

section Specs

variable {s s' : CLockFreeCore} {frame f : Frame} {input : Input}

/-- Where a `Session*` comes from. -/
theorem Leaves.handle {session : Handle} (leaves : Leaves s frame input f) (here : f.handle = some session) :
    (∃ sock, frame = .issue session.slot sock ∧ session.id = s.m_nextSessionId) ∨
      frame.handle = some session ∨ (∃ io ∈ s.inFlight, io.session = session) ∨
      s.m_sessionMap.lookup session.id = some session.slot := by
  cases f with
  | accepting client socket pc =>
    cases here
    rcases leaves with ⟨rfl, fresh, -⟩ | ⟨last, rfl, -⟩
    · exact .inl ⟨socket, rfl, fresh⟩
    · exact .inr (.inl rfl)
  | worker client pc =>
    cases here
    rcases leaves with same | ⟨-, posted⟩
    · exact .inr (.inl same)
    · exact .inr (.inr (.inl posted))
  | recvPost client pc | sendPost client pc =>
    cases here
    exact .inr (.inl leaves)
  | removeSession client cause pc =>
    cases here
    rcases leaves with ⟨last, rfl⟩ | ⟨mark, rfl, found⟩
    · exact .inr (.inl rfl)
    · exact .inr (.inr (.inr found))
  | sendPacket client packet pc =>
    cases here
    rcases leaves with ⟨last, rfl⟩ | ⟨rfl, -, found⟩
    · exact .inr (.inl rfl)
    · exact .inr (.inr (.inr found))
  | _ => cases here

/-- Where a pointer to a slot comes from. -/
theorem Leaves.slot {k : ℕ} (leaves : Leaves s frame input f) (here : f.slot = some k) :
    pops s frame input = some k ∨ frame.slot = some k ∨ (∃ io ∈ s.inFlight, io.session.slot = k) ∨
      ∃ x, s.m_sessionMap.lookup x = some k := by
  have handled {session : Handle} (same : f.handle = some session) (at_slot : session.slot = k) :
      pops s frame input = some k ∨ frame.slot = some k ∨ (∃ io ∈ s.inFlight, io.session.slot = k) ∨
        ∃ x, s.m_sessionMap.lookup x = some k := by
    subst at_slot
    rcases leaves.handle same with ⟨sock, rfl, -⟩ | same | ⟨io, member, rfl⟩ | found
    · exact .inr (.inl rfl)
    · right
      left
      cases frame <;> first | exact congrArg (Option.map Handle.slot) same | cases same
    · exact .inr (.inr (.inl ⟨io, member, rfl⟩))
    · exact .inr (.inr (.inr ⟨session.id, found⟩))
  cases f with
  | issue slot socket =>
    cases here
    exact .inl leaves.2
  | accepting client _ _ | worker client _ | recvPost client _ | sendPost client _ | removeSession client _ _
    | sendPacket client _ _ => exact handled rfl (Option.some.inj here)
  | _ => cases here

/-- The session table after a step. -/
theorem Changes.lookup (changes : Changes s frame input s') (x : ℤ) :
    s'.m_sessionMap.lookup x = s.m_sessionMap.lookup x ∨
      (∃ session socket, frame = .accepting session socket .insert ∧
        x = (s.slots session.slot).m_sessionId ∧ s'.m_sessionMap.lookup x = some session.slot) ∨
      ∃ session cause, frame = .removeSession session cause .erase ∧
        x = (s.slots session.slot).m_sessionId ∧ s'.m_sessionMap.lookup x = none := by
  rcases changes.map with same | ⟨session, socket, rfl, inserted⟩ | ⟨session, cause, rfl, erased⟩
  · exact .inl (by rw [same])
  · rw [inserted]
    by_cases key : x = (s.slots session.slot).m_sessionId
    · exact .inr (.inl ⟨session, socket, rfl, key, by rw [key, Finmap.lookup_insert]⟩)
    · exact .inl (Finmap.lookup_insert_of_ne _ key)
  · rw [erased]
    by_cases key : x = (s.slots session.slot).m_sessionId
    · exact .inr (.inr ⟨session, cause, rfl, key, by rw [key, Finmap.lookup_erase]⟩)
    · exact .inl (Finmap.lookup_erase_ne key)

end Specs

section Issuing

variable {m next : Machine} {label : ℕ × Input}

/-- A slot that a step refers to is referred to before, or just issued. -/
theorem refers_of_step {frame : Frame} {left others : List Frame} {j : ℕ}
    (ran : exec m.shared frame label.2 = some (next.shared, left))
    (frames : m.frames.Perm (frame :: others)) (frames' : next.frames.Perm (left ++ others))
    (refers : Refers next j) : Refers m j ∨ ∃ sock, frame = .issue j sock := by
  have here : frame ∈ m.frames := frames.mem_iff.mpr List.mem_cons_self
  obtain ⟨changes, leaves⟩ := exec_spec ran
  rcases refers with ⟨f, member, session, handle, rfl⟩ | ⟨io, member, rfl⟩ | ⟨x, found⟩
  · rcases List.mem_append.mp (frames'.mem_iff.mp member) with member | member
    · rcases (leaves f member).handle handle with ⟨sock, rfl, -⟩ | same | ⟨io, flies, rfl⟩ | found
      · exact .inr ⟨sock, rfl⟩
      · exact .inl (.inl ⟨frame, here, session, same, rfl⟩)
      · exact .inl (.inr (.inl ⟨io, flies, rfl⟩))
      · exact .inl (.inr (.inr ⟨session.id, found⟩))
    · exact .inl (.inl ⟨f, frames.mem_iff.mpr (List.mem_cons_of_mem _ member), session, handle, rfl⟩)
  · rcases changes.inFlight io member with flies | posted
    · exact .inl (.inr (.inl ⟨io, flies, rfl⟩))
    · exact .inl (.inl ⟨frame, here, io.session, posted.handle, rfl⟩)
  · rcases changes.lookup x with same | ⟨session, socket, rfl, -, inserted⟩ | ⟨session, cause, rfl, -, erased⟩
    · exact .inl (.inr (.inr ⟨x, same ▸ found⟩))
    · obtain rfl : session.slot = j := Option.some.inj (inserted.symm.trans found)
      exact .inl (.inl ⟨_, here, session, rfl, rfl⟩)
    · rw [erased] at found
      cases found

/-- While the accept thread takes a step there is no other accept thread. -/
theorem Issued.alone (issued : Issued m) {frame : Frame} {others : List Frame}
    (frames : m.frames.Perm (frame :: others)) (acceptor : frame.isAcceptor) :
    ∀ f ∈ others, ¬ f.isAcceptor := by
  have total := issued.acceptor
  rw [frames.countP_eq, List.countP_cons_of_pos acceptor] at total
  have none : others.countP Frame.isAcceptor = 0 := by omega
  simpa [List.countP_eq_zero] using none

/-- A slot in use is the one that its id was issued for. -/
theorem Issued.slot_of_owner (issued : Issued m) {j k socket : ℕ} (refers : Refers m j)
    (accepted : .accepted (m.shared.slots j).m_sessionId k socket ∈ m.shared.log) : k = j := by
  obtain ⟨x, sock, known⟩ := issued.known j refers
  obtain ⟨sock, owned⟩ := issued.owner x j sock known
  exact (issued.once _ _ _ _ _ accepted owned).1

/-- Before the accept thread issues an id, all issued ids are below the next one. -/
theorem Issued.fresh (issued : Issued m) {slot socket : ℕ} {others : List Frame}
    (frames : m.frames.Perm (.issue slot socket :: others)) {x : ℤ} {j sock : ℕ}
    (accepted : .accepted x j sock ∈ m.shared.log) : x < m.shared.m_nextSessionId := by
  rcases issued.below x j sock accepted with below | ⟨-, session, socket', member⟩
  · exact below
  · rcases List.mem_cons.mp (frames.mem_iff.mp member) with same | member
    · cases same
    · exact absurd rfl (issued.alone frames rfl _ member)

theorem Issued.step (issued : Issued m) (stepped : step m label = some next) : Issued next := by
  obtain ⟨frame, left, others, -, ran, frames, frames'⟩ := Stacks.step_frames stepped
  obtain ⟨changes, leaves⟩ := exec_spec ran
  have grown (x : ℤ) (j sock : ℕ) (accepted : .accepted x j sock ∈ next.shared.log) :
      .accepted x j sock ∈ m.shared.log ∨ frame = .issue j sock ∧ x = m.shared.m_nextSessionId :=
    changes.of_mem_log accepted
  have recorded (j sock : ℕ) (issues : frame = .issue j sock) : (next.shared.slots j).m_sessionId =
      m.shared.m_nextSessionId ∧ .accepted m.shared.m_nextSessionId j sock ∈ next.shared.log ∧
      next.shared.m_nextSessionId = m.shared.m_nextSessionId ∧
      .accepting ⟨j, m.shared.m_nextSessionId⟩ sock .next ∈ next.frames := by
    subst issues
    obtain ⟨shared, rfl⟩ := Prod.mk.inj (Option.some.inj ran)
    rw [← shared]
    exact ⟨by simp, by simp, rfl, frames'.mem_iff.mpr (by simp)⟩
  constructor
  · have kept := exec_acceptor ran
    have total := issued.acceptor
    rw [frames.countP_eq, ← List.singleton_append, List.countP_append] at total
    rw [frames'.countP_eq, List.countP_append]
    omega
  · intro x j sock accepted
    rcases grown x j sock accepted with old | ⟨issues, rfl⟩
    · rcases issued.below x j sock old with below | ⟨rfl, session, socket, member⟩
      · left
        rcases changes.next with same | ⟨-, advanced⟩ <;> omega
      · rcases List.mem_cons.mp (frames.mem_iff.mp member) with rfl | member
        · left
          rw [← congrArg (fun r => r.1.m_nextSessionId) (Option.some.inj ran)]
          exact Int.lt_succ _
        · rcases changes.next with same | ⟨⟨session', socket', rfl⟩, -⟩
          · exact .inr ⟨same.symm, session, socket, frames'.mem_iff.mpr (List.mem_append_right _ member)⟩
          · exact absurd rfl (issued.alone frames rfl _ member)
    · obtain ⟨-, -, same, member⟩ := recorded j sock issues
      exact .inr ⟨same.symm, _, _, member⟩
  · intro x j sock j' sock' first second
    rcases grown _ _ _ first with old | ⟨rfl, rfl⟩ <;> rcases grown _ _ _ second with old' | ⟨issues, fresh⟩
    · exact issued.once _ _ _ _ _ old old'
    · subst issues fresh
      exact absurd (issued.fresh frames old) (Int.lt_irrefl _)
    · exact absurd (issued.fresh frames old') (Int.lt_irrefl _)
    · cases issues
      exact ⟨rfl, rfl⟩
  · intro x j sock accepted
    rcases changes.id j with same | ⟨⟨socket, issues⟩, -⟩
    · rcases grown _ _ _ accepted with old | ⟨issues, -⟩
      · obtain ⟨sock, owned⟩ := issued.owner _ _ _ old
        exact ⟨sock, by rw [same]; exact changes.mem_log owned⟩
      · obtain ⟨owner, logged, -⟩ := recorded _ _ issues
        exact ⟨sock, by rwa [owner]⟩
    · obtain ⟨owner, logged, -⟩ := recorded _ _ issues
      exact ⟨socket, by rwa [owner]⟩
  · intro j refers
    rcases refers_of_step ran frames frames' refers with old | ⟨sock, issues⟩
    · obtain ⟨x, sock, accepted⟩ := issued.known j old
      exact ⟨x, sock, changes.mem_log accepted⟩
    · exact ⟨_, sock, (recorded _ _ issues).2.1⟩

end Issuing

section Elsewhere

variable {s s' : CLockFreeCore} {frame : Frame} {left : List Frame} {input : Input} {k : ℕ}

theorem exec_pop (ran : exec s frame input = some (s', left)) (pop : pops s frame input = some k) :
    ∃ sock rest, frame = .asked sock ∧ left = [.issue k sock] ∧ s.m_sessionFreeList = k :: rest ∧
      s' = { s with m_sessionFreeList := rest } := by
  cases frame with
  | asked sock =>
    simp only [exec, asked] at ran
    split at ran
    · cases pop
    · rename_i kept
      have head : s.m_sessionFreeList.head? = some k := by
        rw [← pop]
        cases input <;> first | rfl | exact absurd rfl kept
      cases free : s.m_sessionFreeList with
      | nil =>
        rw [free] at head
        cases head
      | cons slot rest =>
        rw [free] at head ran
        cases head
        cases ran
        exact ⟨sock, rest, rfl, rfl, rfl, rfl⟩
  | _ => cases pop

/-- A step that is not about a slot leaves its place in the free list alone. -/
theorem Changes.count_free (changes : Changes s frame input s') (other : frame.slot ≠ some k)
    (stays : pops s frame input ≠ some k) : s'.m_sessionFreeList.count k = s.m_sessionFreeList.count k := by
  rcases changes.free with same | ⟨slot, pop, shorter⟩ | ⟨session, cause, rfl, longer⟩
  · rw [same]
  · have apart : slot ≠ k := by
      rintro rfl
      exact stays pop
    rw [shorter, List.count_cons_of_ne apart]
  · have apart : session.slot ≠ k := by
      intro same
      exact other (congrArg some same)
    rw [longer, List.count_cons_of_ne apart]

theorem Changes.landed (changes : Changes s frame input s') (other : frame.slot ≠ some k)
    (landed : ∀ io ∈ s.inFlight, io.session.slot ≠ k) : ∀ io ∈ s'.inFlight, io.session.slot ≠ k := by
  intro io member
  rcases changes.inFlight io member with member | posted
  · exact landed io member
  · exact fun here => other (frame.slot_of_handle posted.handle here)

theorem Changes.unlisted (changes : Changes s frame input s') (other : frame.slot ≠ some k)
    (unlisted : ∀ x, s.m_sessionMap.lookup x ≠ some k) : ∀ x, s'.m_sessionMap.lookup x ≠ some k := by
  intro x found
  rcases changes.lookup x with same | ⟨session, socket, rfl, -, inserted⟩ | ⟨session, cause, rfl, -, erased⟩
  · exact unlisted x (same ▸ found)
  · exact other (inserted.symm.trans found)
  · rw [erased] at found
    cases found

/-- The accept thread goes on preparing the slot, up to the session table. -/
theorem Prepared.step (prepared : Prepared s k frame) (ran : exec s frame input = some (s', left)) :
    s'.inFlight = s.inFlight ∧ s'.m_sessionFreeList = s.m_sessionFreeList ∧
      ((∃ sock, frame = .accepting ⟨k, (s.slots k).m_sessionId⟩ sock .insert) ∨
        s'.m_sessionMap = s.m_sessionMap ∧
          ∃ f, left = [f] ∧ f.slot = some k ∧ f.handle.isSome ∧ Prepared s' k f) := by
  cases frame with
  | issue slot sock =>
    obtain rfl : slot = k := prepared
    cases ran
    exact ⟨rfl, rfl, .inr ⟨rfl, _, rfl, rfl, rfl, by simp [Prepared, AcceptPc.stage]⟩⟩
  | accepting session sock pc =>
    obtain ⟨rfl, before, prepared⟩ := prepared
    cases pc with
    | join | post => exact absurd before (by decide)
    | insert =>
      cases ran
      exact ⟨rfl, rfl, .inl ⟨sock, rfl⟩⟩
    | _ =>
      cases ran
      exact ⟨rfl, rfl, .inr ⟨rfl, _, rfl, rfl, rfl, by simpa [Prepared, AcceptPc.stage] using prepared⟩⟩
  | _ => cases prepared

end Elsewhere

section Phases

variable {m next : Machine} {label : ℕ × Input} {k : ℕ}

theorem alone_of_perm {frames others : List Frame} {frame : Frame} (perm : frames.Perm (frame :: others))
    (own : frame.slot = some k) (none : ∀ f ∈ others, f.slot ≠ some k) :
    frames.filter (·.slot = some k) = [frame] := by
  have rest : others.filter (·.slot = some k) = [] := by
    rw [List.filter_eq_nil_iff]
    intro f member
    simpa using none f member
  have perm := perm.filter (·.slot = some k)
  rw [List.filter_cons_of_pos (by simpa using own), rest] at perm
  exact List.perm_singleton.mp perm

theorem eq_of_alone {frames : List Frame} {frame last : Frame}
    (alone : frames.filter (·.slot = some k) = [last]) (member : frame ∈ frames) (here : frame.slot = some k) :
    frame = last := by
  have inside : frame ∈ frames.filter (·.slot = some k) := by simp [member, here]
  rw [alone] at inside
  exact List.mem_singleton.mp inside

/-- The only thread with a pointer to the slot takes the step. -/
theorem others_of_alone {frames others : List Frame} {frame last : Frame} (perm : frames.Perm (frame :: others))
    (alone : frames.filter (·.slot = some k) = [last]) (own : frame.slot = some k) :
    frame = last ∧ ∀ f ∈ others, f.slot ≠ some k := by
  have perm := perm.filter (·.slot = some k)
  rw [alone, List.filter_cons_of_pos (by simpa using own)] at perm
  obtain ⟨same, rest⟩ := List.cons.inj (List.perm_singleton.mp perm.symm)
  refine ⟨same, ?_⟩
  intro f member here
  have inside : f ∈ others.filter (·.slot = some k) := by simp [member, here]
  rw [rest] at inside
  cases inside

theorem Unused.step (unused : Unused m k) (stepped : step m label = some next)
    (stays : popped m label ≠ some k) : Unused next k := by
  obtain ⟨frame, left, others, top, ran, frames, frames'⟩ := Stacks.step_frames stepped
  obtain ⟨changes, leaves⟩ := exec_spec ran
  have other : frame.slot ≠ some k := unused.unreached frame (frames.mem_iff.mpr List.mem_cons_self)
  have stays : pops m.shared frame label.2 ≠ some k := by rwa [popped, top] at stays
  constructor
  · intro f member here
    rcases List.mem_append.mp (frames'.mem_iff.mp member) with member | member
    · rcases (leaves f member).slot here with pop | same | ⟨io, flies, there⟩ | ⟨x, found⟩
      · exact stays pop
      · exact other same
      · exact unused.landed io flies there
      · exact unused.unlisted x found
    · exact unused.unreached f (frames.mem_iff.mpr (List.mem_cons_of_mem _ member)) here
  · exact changes.landed other unused.landed
  · exact changes.unlisted other unused.unlisted
  · rw [changes.count_free other stays]
    exact unused.once
  · intro x sock accepted
    rcases changes.of_mem_log accepted with old | ⟨rfl, -⟩
    · exact unused.unissued x sock old
    · exact other rfl

theorem Preparing.mem {last : Frame} (preparing : Preparing m k last) :
    last ∈ m.frames ∧ last.slot = some k := by
  have inside : last ∈ m.frames.filter (·.slot = some k) := by simp [preparing.alone]
  simpa using inside

/-- A slot that nothing refers to is popped. -/
theorem Preparing.of_pop (stepped : step m label = some next) (pop : popped m label = some k)
    (unreached : ∀ frame ∈ m.frames, frame.slot ≠ some k)
    (landed : ∀ io ∈ m.shared.inFlight, io.session.slot ≠ k)
    (unlisted : ∀ x, m.shared.m_sessionMap.lookup x ≠ some k)
    (once : m.shared.m_sessionFreeList.count k ≤ 1) : ∃ sock, Preparing next k (.issue k sock) := by
  obtain ⟨frame, left, others, top, ran, frames, frames'⟩ := Stacks.step_frames stepped
  rw [popped, top] at pop
  obtain ⟨sock, rest, rfl, rfl, free, shared⟩ := exec_pop ran pop
  refine ⟨sock, ?_, ?_, ?_, ?_, ?_⟩
  · apply alone_of_perm frames' rfl
    intro f member
    exact unreached f (frames.mem_iff.mpr (List.mem_cons_of_mem _ member))
  · rwa [shared]
  · rwa [shared]
  · rw [free, List.count_cons_self] at once
    have gone : rest.count k = 0 := by omega
    rw [shared]
    exact List.count_eq_zero.mp gone
  · rfl

theorem Unused.pop (unused : Unused m k) (stepped : CLockFreeCore.step m label = some next)
    (pop : popped m label = some k) : ∃ sock, Preparing next k (.issue k sock) :=
  Preparing.of_pop stepped pop unused.unreached unused.landed unused.unlisted unused.once

theorem Preparing.step {last : Frame} (preparing : Preparing m k last)
    (stepped : step m label = some next) :
    (∃ frame, Preparing next k frame ∧ (frame.handle.isSome ∧ m.top label.1 = some last ∨
      frame = last ∧ ∀ f ∈ m.top label.1, f.slot ≠ some k)) ∨
      ∃ socket, Opened next k (m.shared.slots k).m_sessionId socket ∧
        last = .accepting ⟨k, (m.shared.slots k).m_sessionId⟩ socket .insert := by
  obtain ⟨frame, left, others, top, ran, frames, frames'⟩ := Stacks.step_frames stepped
  obtain ⟨changes, leaves⟩ := exec_spec ran
  have stays : pops m.shared frame label.2 ≠ some k := by
    intro pop
    obtain ⟨sock, rest, -, -, free, -⟩ := exec_pop ran pop
    exact preparing.taken (free ▸ List.mem_cons_self)
  by_cases own : frame.slot = some k
  · obtain ⟨rfl, none⟩ := others_of_alone frames preparing.alone own
    obtain ⟨inFlight, free, ⟨sock, rfl⟩ | ⟨map, f, rfl, own, handle, prepared⟩⟩ := preparing.prepared.step ran
    · obtain ⟨-, -, accepted, connected, pending, ioCount, closing, tornDown, ring⟩ := preparing.prepared
      obtain ⟨shared, rfl⟩ := Prod.mk.inj (Option.some.inj ran)
      have slots : next.shared.slots = m.shared.slots := by rw [← shared]
      have table : next.shared.m_sessionMap =
          m.shared.m_sessionMap.insert (m.shared.slots k).m_sessionId k := by rw [← shared]
      refine .inr ⟨sock, ?_, rfl⟩
      constructor <;> try rw [slots]
      · exact alone_of_perm frames' rfl none
      · rw [inFlight]
        exact preparing.landed
      · intro x
        rw [table]
        by_cases key : x = (m.shared.slots k).m_sessionId
        · exact iff_of_true (key ▸ Finmap.lookup_insert _) key
        · simp [key, Finmap.lookup_insert_of_ne, preparing.unlisted x]
      · rw [free]
        exact preparing.taken
      · exact connected (by decide)
      · exact changes.mem_log accepted
      · exact pending (by decide)
      · exact ioCount (by decide)
      · exact closing (by decide)
      · exact tornDown (by decide)
      · exact ring (by decide)
    · refine .inl ⟨f, ⟨alone_of_perm frames' own none, ?_, ?_, ?_, prepared⟩, .inl ⟨handle, top⟩⟩
      · rw [inFlight]
        exact preparing.landed
      · rw [map]
        exact preparing.unlisted
      · rw [free]
        exact preparing.taken
  · refine .inl ⟨last, ⟨?_, changes.landed own preparing.landed, changes.unlisted own preparing.unlisted, ?_, ?_⟩,
      .inr ⟨rfl, fun f here => by rwa [← Option.some.inj (top.symm.trans here)]⟩⟩
    · have before := frames.filter (·.slot = some k)
      have after := frames'.filter (·.slot = some k)
      have none : left.filter (·.slot = some k) = [] := by
        rw [List.filter_eq_nil_iff]
        intro f member here
        rcases (leaves f member).slot (by simpa using here) with pop | same | ⟨io, flies, there⟩ | ⟨x, found⟩
        · exact stays pop
        · exact own same
        · exact preparing.landed io flies there
        · exact preparing.unlisted x found
      rw [List.filter_cons_of_neg (by simpa using own), preparing.alone] at before
      rw [List.filter_append, none, List.nil_append] at after
      exact List.perm_singleton.mp (after.trans before.symm)
    · apply List.count_eq_zero.mp
      rw [changes.count_free own stays]
      exact List.count_eq_zero.mpr preparing.taken
    · have prepared := preparing.prepared
      cases last with
      | issue slot sock => exact prepared
      | accepting session sock pc =>
        obtain ⟨same, before, accepted, written⟩ := prepared
        simp only [Prepared, changes.slots k own]
        exact ⟨same, before, changes.mem_log accepted, written⟩
      | _ => cases prepared

/-- A slot is opened in the state that a lifetime begins in. -/
theorem Opened.lifetime {id : ℤ} {socket : ℕ} (opened : Opened m k id socket) :
    Lifetime m k id socket (m.shared.log.countP (isTearDown k)) := by
  have only {frame : Frame} (member : frame ∈ m.frames) (here : frame.slot = some k) :
      frame = .accepting ⟨k, id⟩ socket .join := eq_of_alone opened.alone member here
  have reset : Reset m k := by
    refine ⟨opened.ioCount, opened.closing, opened.tornDown, ?_, ?_, opened.landed, opened.taken⟩
    · intro frame member prepares
      rw [only member (frame.slot_of_prepares prepares)] at prepares
      simp [Frame.prepares] at prepares
    · intro frame member
      constructor
      · intro counted
        rw [only member (frame.slot_of_counted counted)] at counted
        cases counted
      · intro closes
        rw [only member (frame.slot_of_closes closes)] at closes
        cases closes
  constructor
  · exact reset.alive
  · exact opened.owner
  · exact opened.connected
  · exact opened.accepted
  · intro session sock pc member here
    cases only member (congrArg some here)
    exact Nat.le_refl 8
  · exact fun x => (opened.listed x).mp
  · exact .inl ((opened.listed id).mpr rfl)
  · exact fun free => absurd free opened.taken
  · intro frame member
    cases frame with
    | removeSession session cause pc =>
      intro here
      cases only member (congrArg some here)
    | _ => trivial
  · intro frame member session handle here
    cases only member (frame.slot_of_handle handle here)
    cases handle
    rfl
  · exact fun io member here => absurd here (opened.landed io member)

section Lifetime

theorem Progress.mono {s s' : CLockFreeCore} {id : ℤ} {socket : ℕ} {frame : Frame}
    (progress : Progress s k id socket frame) (table : s'.m_sessionMap.lookup id = s.m_sessionMap.lookup id)
    (log : ∀ event ∈ s.log, event ∈ s'.log) : Progress s' k id socket frame := by
  cases frame with
  | removeSession session cause pc =>
    intro here
    have progress := progress here
    cases pc <;> first | trivial | simp only [table]
    all_goals first | exact progress | exact ⟨progress.1, log _ progress.2⟩
  | _ => trivial

theorem Progress.of_not_tearing {s : CLockFreeCore} {id : ℤ} {socket : ℕ} {frame : Frame}
    (waits : frame.role k id ≠ some .tearing) : Progress s k id socket frame := by
  cases frame with
  | removeSession session cause pc =>
    intro here
    cases pc <;> first | trivial | exact absurd (if_pos here) waits
  | _ => trivial

variable {id : ℤ} {socket before : ℕ}

/-- Only the slot itself has its id. -/
theorem Lifetime.slot_of_owner (life : Lifetime m k id socket before) (issued : Issued m) {j : ℕ}
    (refers : Refers m j) (same : (m.shared.slots j).m_sessionId = id) : j = k := by
  have accepted := life.accepted
  rw [← same] at accepted
  exact (issued.slot_of_owner refers accepted).symm

/-- The entry of the slot in the session table stays until its own tear-down erases it. -/
theorem Lifetime.lookup (life : Lifetime m k id socket before) (issued : Issued m) {frame : Frame}
    {input : Input} {s' : CLockFreeCore} (member : frame ∈ m.frames) (changes : Changes m.shared frame input s') :
    s'.m_sessionMap.lookup id = m.shared.m_sessionMap.lookup id ∨
      ∃ session cause, frame = .removeSession session cause .erase ∧ session.slot = k ∧
        s'.m_sessionMap.lookup id = none := by
  rcases changes.lookup id with same | ⟨session, sock, rfl, key, -⟩ | ⟨session, cause, rfl, key, erased⟩
  · exact .inl same
  · have here : session.slot = k :=
      life.slot_of_owner issued (.inl ⟨_, member, session, rfl, rfl⟩) key.symm
    exact absurd (life.joined _ _ _ member here) (by decide)
  · have here : session.slot = k :=
      life.slot_of_owner issued (.inl ⟨_, member, session, rfl, rfl⟩) key.symm
    exact .inr ⟨session, cause, rfl, here, erased⟩

/-- A closer that tears the slot down goes on doing so. -/
theorem removeSession_progress {s s' : CLockFreeCore} {session : Handle} {cause : ℤ} {pc : RemovePc}
    {input : Input} {left : List Frame} (ran : removeSession s session cause pc input = some (s', left))
    (owner : (s.slots session.slot).m_sessionId = id) (connected : (s.slots session.slot).m_socket = socket)
    (listed : s.m_sessionMap.lookup id = some session.slot ∨
      s.m_sessionMap.lookup id = none ∧ (s.slots session.slot).m_isTornDown)
    (progress : Progress s session.slot id socket (.removeSession session cause pc)) :
    ∀ f ∈ left, Progress s' session.slot id socket f := by
  have progress := progress rfl
  cases pc with
  | mark =>
    cases ran
    simp [Progress]
  | leave =>
    cases ran
    simpa [Progress] using progress
  | closing | ioCount =>
    simp only [removeSession] at ran
    split_ifs at ran <;> cases ran <;> simp [Progress]
  | drain | rest =>
    simp only [removeSession] at ran
    split_ifs at ran <;> cases ran <;> simpa [Progress] using progress
  | swap =>
    simp only [removeSession] at ran
    split_ifs at ran with torn <;> cases ran
    · simp
    · have entry := listed.resolve_right fun gone => torn gone.2
      simpa [Progress] using entry
  | take =>
    cases ran
    simpa [Progress] using progress
  | socket =>
    cases ran
    simpa [Progress] using ⟨progress, connected⟩
  | close sock =>
    cases ran
    simpa [Progress] using ⟨progress.1, .inl progress.2.symm⟩
  | erase =>
    cases ran
    simpa [Progress, owner] using progress.2
  | push =>
    cases ran
    simp

theorem Lifetime.progress_left (life : Lifetime m k id socket before) {frame : Frame} {input : Input}
    {s' : CLockFreeCore} {left : List Frame} (ran : exec m.shared frame input = some (s', left))
    (progress : Progress m.shared k id socket frame) : ∀ f ∈ left, Progress s' k id socket f := by
  intro f member
  cases f with
  | removeSession session cause pc =>
    intro here
    rcases (exec_spec ran).2 _ member with ⟨last, rfl⟩ | ⟨mark, rfl, found⟩
    · subst here
      exact removeSession_progress ran life.owner life.connected life.listed progress _ member rfl
    · simp only [exec, findRemove, found] at ran
      cases ran
      cases List.mem_singleton.mp member
      cases mark <;> trivial
  | _ => trivial

theorem Lifetime.step (life : Lifetime m k id socket before) (issued : Issued m)
    (stepped : step m label = some next) (stays : popped m label ≠ some k) :
    Lifetime next k id socket before := by
  obtain ⟨frame, left, others, top, ran, frames, frames'⟩ := Stacks.step_frames stepped
  obtain ⟨changes, leaves⟩ := exec_spec ran
  have here : frame ∈ m.frames := frames.mem_iff.mpr List.mem_cons_self
  have there {f : Frame} (member : f ∈ others) : f ∈ m.frames :=
    frames.mem_iff.mpr (List.mem_cons_of_mem _ member)
  have later := life.alive.later frame here
  have joined := life.joined
  have table := life.lookup issued here changes
  have torn : (m.shared.slots k).m_isTornDown → (next.shared.slots k).m_isTornDown := by
    obtain ⟨_, -, moves⟩ := step_moves id stepped life.alive.later stays
    exact moves.torn
  constructor
  · exact life.alive.step stepped stays
  · rcases changes.id k with same | ⟨⟨sock, rfl⟩, -⟩
    · rw [same, life.owner]
    · exact absurd (by simp [Frame.prepares]) later
  · rcases changes.socket k with same | ⟨session, sock, rfl, own⟩
    · rw [same, life.connected]
    · exact absurd (joined _ _ _ here own) (by decide)
  · exact changes.mem_log life.accepted
  · intro session sock pc member own
    rcases List.mem_append.mp (frames'.mem_iff.mp member) with member | member
    · rcases leaves _ member with ⟨rfl, -, -⟩ | ⟨last, rfl, follows⟩
      · exact absurd (by simpa [Frame.prepares] using own) later
      · have reached := joined _ _ _ here own
        rw [AcceptPc.stage_next follows]
        omega
    · exact joined _ _ _ (there member) own
  · intro x found
    rcases changes.lookup x with same | ⟨session, sock, rfl, -, inserted⟩ | ⟨session, cause, rfl, -, erased⟩
    · exact life.named x (same ▸ found)
    · have own : session.slot = k := Option.some.inj (inserted.symm.trans found)
      exact absurd (joined _ _ _ here own) (by decide)
    · rw [erased] at found
      cases found
  · rcases table with same | ⟨session, cause, rfl, rfl, erased⟩
    · rw [same]
      exact life.listed.imp_right fun gone => ⟨gone.1, torn gone.2⟩
    · exact .inr ⟨erased, torn (life.alive.torn_of_tearing here (if_pos rfl))⟩
  · intro free
    have kept (done : m.shared.m_sessionMap.lookup id = none ∧ .closed socket ∈ m.shared.log) :
        next.shared.m_sessionMap.lookup id = none ∧ .closed socket ∈ next.shared.log := by
      refine ⟨?_, changes.mem_log done.2⟩
      rcases table with same | ⟨-, -, -, -, erased⟩
      · rw [same, done.1]
      · exact erased
    apply kept
    rcases changes.free with same | ⟨slot, -, shorter⟩ | ⟨session, cause, rfl, longer⟩
    · exact life.ended (same ▸ free)
    · exact life.ended (shorter ▸ List.mem_cons_of_mem _ free)
    · rw [longer] at free
      rcases List.mem_cons.mp free with own | free
      · exact life.progress _ here own.symm
      · exact life.ended free
  · intro f member
    rcases List.mem_append.mp (frames'.mem_iff.mp member) with member | member
    · exact life.progress_left ran (life.progress frame here) f member
    · rcases table with same | ⟨session, cause, rfl, own, erased⟩
      · exact (life.progress f (there member)).mono same fun event => changes.mem_log
      · exact .of_not_tearing fun part => life.alive.tears_once frames (if_pos own) f member part
  · intro f member session handle own
    rcases List.mem_append.mp (frames'.mem_iff.mp member) with member | member
    · rcases (leaves f member).handle handle with ⟨sock, rfl, -⟩ | same | ⟨io, flies, rfl⟩ | found
      · exact absurd (by simpa [Frame.prepares] using own) later
      · exact life.handles frame here session same own
      · exact life.flights io flies own
      · exact life.named _ (own ▸ found)
    · exact life.handles f (there member) session handle own
  · intro io member own
    rcases changes.inFlight io member with flies | posted
    · exact life.flights io flies own
    · exact life.handles frame here io.session posted.handle own

/-- A slot in the free list is torn down, and pushed once. -/
theorem Lifetime.torn_of_free (life : Lifetime m k id socket before)
    (free : k ∈ m.shared.m_sessionFreeList) :
    (m.shared.slots k).m_isTornDown ∧ m.shared.m_sessionFreeList.count k = 1 := by
  have claimed : (whole m k id).claims = before + if (m.shared.slots k).m_isTornDown then 1 else 0 :=
    life.alive.sound.claimed
  have released : before + (whole m k id).among .tearing + m.shared.m_sessionFreeList.count k =
      (whole m k id).claims := life.alive.sound.released
  have pushed := List.count_pos_iff.mpr free
  cases torn : (m.shared.slots k).m_isTornDown with
  | false =>
    rw [torn, if_neg Bool.false_ne_true] at claimed
    omega
  | true =>
    rw [torn, if_pos rfl] at claimed
    exact ⟨rfl, by omega⟩

theorem Lifetime.pop (life : Lifetime m k id socket before) (stepped : CLockFreeCore.step m label = some next)
    (pop : popped m label = some k) (unreached : ∀ frame ∈ m.frames, frame.slot ≠ some k) :
    ∃ sock, Preparing next k (.issue k sock) := by
  have free : k ∈ m.shared.m_sessionFreeList := by
    obtain ⟨frame, left, -, top, ran, -, -⟩ := Stacks.step_frames stepped
    rw [popped, top] at pop
    obtain ⟨-, rest, -, -, free, -⟩ := exec_pop ran pop
    exact free ▸ List.mem_cons_self
  obtain ⟨torn, once⟩ := life.torn_of_free free
  apply Preparing.of_pop stepped pop unreached (life.alive.sealed torn).1 ?_ (Nat.le_of_eq once)
  intro x found
  obtain rfl := life.named x found
  rw [(life.ended free).1] at found
  cases found

end Lifetime

/-- Where a slot is between two pops, with what else is known of the sessions on it. -/
def Phase (Q : Machine → ℕ → ℤ → Prop) (m : Machine) (k : ℕ) : Prop :=
  Unused m k ∨ (∃ frame, Preparing m k frame) ∨
    ∃ id socket before, Lifetime m k id socket before ∧ Q m k id

theorem Phase.step {Q : Machine → ℕ → ℤ → Prop} (phase : Phase Q m k) (issued : Issued m)
    (stepped : step m label = some next) (clean : ¬ Overtakes m label k)
    (opens : ∀ id socket, Opened next k id socket → Q next k id)
    (keeps : ∀ id socket before, Lifetime m k id socket before → Q m k id → popped m label ≠ some k →
      Q next k id) : Phase Q next k := by
  rcases phase with unused | ⟨frame, preparing⟩ | ⟨id, socket, before, life, holds⟩
  · by_cases pop : popped m label = some k
    · exact .inr (.inl ((unused.pop stepped pop).imp' _ fun _ preparing => preparing))
    · exact .inl (unused.step stepped pop)
  · rcases preparing.step stepped with ⟨frame, preparing, -⟩ | ⟨socket, opened, -⟩
    · exact .inr (.inl ⟨frame, preparing⟩)
    · exact .inr (.inr ⟨_, socket, _, opened.lifetime, opens _ socket opened⟩)
  · by_cases pop : popped m label = some k
    · have unreached (frame : Frame) (member : frame ∈ m.frames) : frame.slot ≠ some k :=
        fun here => clean ⟨pop, frame, member, here⟩
      exact .inr (.inl ((life.pop stepped pop unreached).imp' _ fun _ preparing => preparing))
    · exact .inr (.inr ⟨id, socket, before, life.step issued stepped pop, keeps _ _ _ life holds pop⟩)

/-- Whoever has a pointer to a slot, apart from the accept thread, has it in a lifetime. -/
theorem Phase.lifetime {Q : Machine → ℕ → ℤ → Prop} (phase : Phase Q m k) {frame : Frame}
    (member : frame ∈ m.frames) (here : frame.slot = some k) (proper : ¬ frame.isAcceptor) :
    ∃ id socket before, Lifetime m k id socket before ∧ Q m k id := by
  rcases phase with unused | ⟨last, preparing⟩ | life
  · exact absurd here (unused.unreached frame member)
  · obtain rfl := eq_of_alone preparing.alone member here
    have prepared := preparing.prepared
    cases frame with
    | issue slot sock | accepting session sock pc => exact absurd rfl proper
    | _ => cases prepared
  · exact life

/-- All pointers to a slot were obtained for the session that it serves. -/
theorem Phase.handle_id {Q : Machine → ℕ → ℤ → Prop} (phase : Phase Q m k) {frame : Frame}
    {session : Handle} (member : frame ∈ m.frames) (handle : frame.handle = some session)
    (here : session.slot = k) : session.id = (m.shared.slots k).m_sessionId := by
  have own := frame.slot_of_handle handle here
  rcases phase with unused | ⟨last, preparing⟩ | ⟨id, socket, before, life, -⟩
  · exact absurd own (unused.unreached frame member)
  · obtain rfl := eq_of_alone preparing.alone member own
    have prepared := preparing.prepared
    cases frame with
    | issue slot sock => cases handle
    | accepting client sock pc =>
      obtain ⟨rfl, -⟩ := prepared
      cases handle
      rfl
    | _ => cases prepared
  · rw [life.owner]
    exact life.handles frame member session handle here

end Phases

section Start

variable (slots : ℕ → Session) (sessionMax workerMax apps : ℕ)

theorem frames_start : (start slots sessionMax workerMax apps).frames =
    .accept :: (List.replicate workerMax .getStatus ++ List.replicate apps .app) := by
  simp [start, Stacks.frames]

theorem mem_frames_start {frame : Frame} (member : frame ∈ (start slots sessionMax workerMax apps).frames) :
    frame = .accept ∨ frame = .getStatus ∨ frame = .app := by
  rw [frames_start] at member
  simp only [List.mem_cons, List.mem_append, List.mem_replicate] at member
  rcases member with rfl | ⟨-, rfl⟩ | ⟨-, rfl⟩ <;> simp

theorem Issued.start : Issued (start slots sessionMax workerMax apps) := by
  refine ⟨?_, nofun, nofun, nofun, ?_⟩
  · rw [frames_start, List.countP_cons_of_pos rfl, List.countP_append, List.countP_replicate,
      List.countP_replicate]
    simp [Frame.isAcceptor]
  · rintro j (⟨frame, member, session, handle, -⟩ | ⟨io, member, -⟩ | ⟨x, found⟩)
    · rcases mem_frames_start _ _ _ _ member with rfl | rfl | rfl <;> cases handle
    · cases member
    · cases found

theorem Unused.start (k : ℕ) : Unused (start slots sessionMax workerMax apps) k := by
  refine ⟨?_, nofun, nofun, ?_, nofun⟩
  · intro frame member
    rcases mem_frames_start _ _ _ _ member with rfl | rfl | rfl <;> exact nofun
  · simp only [CLockFreeCore.start, List.count_reverse]
    exact List.nodup_iff_count_le_one.mp List.nodup_range k

end Start

end LockFreeCore.CLockFreeCore
