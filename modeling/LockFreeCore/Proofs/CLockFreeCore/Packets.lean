import LockFreeCore.Proofs.CLockFreeCore.SendPending

/-! # Where packets go

Between two sessions on a slot the send ring is emptied, and while `m_isSendPending` is held the
ring keeps at least the packets that the holder has counted. So a post reads no pointer that was
not enqueued, and what is enqueued is for the session that has the slot, as long as no thread still
has a pointer to a slot that is popped.
-/

namespace LockFreeCore.CLockFreeCore

open CountedClose Replay

/-- All packets of the batch are for the session `id`. -/
def Addressed (id : ℤ) (batch : List (Option Packet)) : Prop :=
  ∀ packet, some packet ∈ batch → packet.addressee = id

/-- The ring has `n` pointers or more. -/
def Covers (session : Session) (n : ℕ) : Prop := pointerSize * n ≤ session.m_sendRingBuff.length

/-- A full batch for the session, whose packets are still in the ring. -/
def Batch (session : Session) (id : ℤ) (wsabuf : List (Option Packet)) : Prop :=
  wsabuf.length = session.m_sendPacketCount ∧ Addressed id wsabuf ∧
    Covers session session.m_sendPacketCount

/-- What a post knows of its session; up to the second look at `m_isClosing` a tear-down may have
emptied the ring. -/
def SendPc.Knows (session : Session) (id : ℤ) : SendPc → Prop
  | .store n => session.m_isClosing ∨ Covers session n
  | .cap | .checkSize | .check _ | .count => session.m_isClosing ∨ Covers session session.m_sendPacketCount
  | .storeCap => session.m_isClosing ∨
      1000 ≤ session.m_sendPacketCount ∧ Covers session session.m_sendPacketCount
  | .peek n => session.m_isClosing ∨ n = session.m_sendPacketCount ∧ Covers session n
  | .fill c wsabuf => session.m_isClosing ∨ Batch session id c ∧ Addressed id wsabuf ∧
      wsabuf.length ≤ session.m_sendPacketCount
  | .increment wsabuf | .recheck wsabuf => session.m_isClosing ∨ Batch session id wsabuf
  | .socket wsabuf => Batch session id wsabuf
  | .buffers wsabuf sock | .call wsabuf sock => Batch session id wsabuf ∧ sock = session.m_socket
  | _ => True

/-- What the completion of a send knows of its session. -/
def WorkerPc.Knows (session : Session) : WorkerPc → Prop
  | .sent i => Covers session (session.m_sendPacketCount - i)
  | .sentSize i | .sentTake i =>
      i < session.m_sendPacketCount ∧ Covers session (session.m_sendPacketCount - i)
  | _ => True

/-- What a thread knows of the session on slot `k`. -/
def Frame.Knows (session : Session) (k : ℕ) (id : ℤ) : Frame → Prop
  | .sendPost client pc => client.slot = k → pc.Knows session id
  | .worker client pc => client.slot = k → pc.Knows session
  | .removeSession client _ pc => client.slot = k → pc = .take → Covers session 1
  | _ => True

/-- What holds of the sending side of a slot during a lifetime. -/
structure Sends (m : Machine) (k : ℕ) (id : ℤ) : Prop where
  lock : holders k m.shared m.frames ≤ (m.shared.slots k).m_isSendPending.toNat
  ring : ∀ fragment ∈ (m.shared.slots k).m_sendRingBuff, fragment.packet.addressee = id
  threads : ∀ frame ∈ m.frames, frame.Knows (m.shared.slots k) k id
  posted : ∀ io ∈ m.shared.inFlight, io.sends k →
    Covers (m.shared.slots k) (m.shared.slots k).m_sendPacketCount

section Specs

variable {s s' : CLockFreeCore} {k : ℕ} {id : ℤ} {left : List Frame} {input : Input} {x y : Session}

theorem Covers.mono {n : ℕ} (covers : Covers x n) (length : x.m_sendRingBuff.length ≤ y.m_sendRingBuff.length) :
    Covers y n := Nat.le_trans covers length

theorem Drift.batch {frame : Frame} {wsabuf : List (Option Packet)} (drift : Drift frame x y)
    (batch : Batch x id wsabuf) : Batch y id wsabuf := by
  obtain ⟨length, addressed, covers⟩ := batch
  refine ⟨length.trans drift.count.symm, addressed, ?_⟩
  rw [drift.count]
  exact covers.mono drift.length

theorem SendPc.Knows.drift {frame : Frame} {pc : SendPc} (knows : pc.Knows x id) (drift : Drift frame x y) :
    pc.Knows y id := by
  cases pc with
  | store n => exact knows.imp drift.closing fun covers => covers.mono drift.length
  | cap | checkSize | check size | count =>
    refine knows.imp drift.closing fun covers => ?_
    rw [drift.count]
    exact covers.mono drift.length
  | storeCap =>
    refine knows.imp drift.closing fun ⟨many, covers⟩ => ?_
    rw [drift.count]
    exact ⟨many, covers.mono drift.length⟩
  | peek n =>
    refine knows.imp drift.closing fun ⟨same, covers⟩ => ?_
    rw [drift.count]
    exact ⟨same, covers.mono drift.length⟩
  | fill c wsabuf =>
    refine knows.imp drift.closing fun ⟨batch, addressed, short⟩ => ?_
    rw [drift.count]
    exact ⟨drift.batch batch, addressed, short⟩
  | increment wsabuf | recheck wsabuf => exact knows.imp drift.closing drift.batch
  | socket wsabuf => exact drift.batch knows
  | buffers wsabuf sock | call wsabuf sock =>
    exact ⟨drift.batch knows.1, knows.2.trans drift.socket.symm⟩
  | _ => trivial

theorem WorkerPc.Knows.drift {frame : Frame} {pc : WorkerPc} (knows : pc.Knows x) (drift : Drift frame x y) :
    pc.Knows y := by
  cases pc with
  | sent i =>
    simp only [WorkerPc.Knows, drift.count]
    exact knows.mono drift.length
  | sentSize i | sentTake i =>
    simp only [WorkerPc.Knows, drift.count]
    exact ⟨knows.1, knows.2.mono drift.length⟩
  | _ => trivial

theorem Frame.Knows.drift {frame f : Frame} (knows : f.Knows x k id) (drift : Drift frame x y) :
    f.Knows y k id := by
  cases f with
  | sendPost client pc => exact fun here => (knows here).drift drift
  | worker client pc => exact fun here => (knows here).drift drift
  | removeSession client cause pc => exact fun here take => (knows here take).mono drift.length
  | _ => trivial

/-- Who does not hold `m_isSendPending` knows nothing that its holder can change, unless it tears the
session down. -/
theorem Frame.Knows.of_free {f : Frame} (free : ¬ f.holds k)
    (drains : ∀ session cause, f = .removeSession session cause .take → session.slot = k → Covers x 1) :
    f.Knows x k id := by
  cases f with
  | sendPost client pc =>
    intro here
    cases pc <;> first | trivial | exact absurd (by simp [Frame.holds, here]) free
  | worker client pc =>
    intro here
    cases pc <;> first | trivial | exact absurd (by simp [Frame.holds, here]) free
  | removeSession client cause pc =>
    rintro here rfl
    exact drains client cause rfl here
  | _ => trivial

/-- Once the session is closing and the last user has gone there is nothing left to know. -/
theorem Frame.Knows.of_closing {f : Frame} (closing : x.m_isClosing) (idle : f.role k id ≠ some .working)
    (drains : ∀ session cause, f = .removeSession session cause .take → session.slot ≠ k) :
    f.Knows x k id := by
  cases f with
  | sendPost client pc =>
    intro here
    cases pc <;> first | trivial | exact .inl closing | exact absurd (if_pos here) idle
  | worker client pc =>
    intro here
    cases pc <;> first | trivial | exact absurd (if_pos here) idle
  | removeSession client cause pc =>
    rintro here rfl
    exact absurd here (drains client cause rfl)
  | _ => trivial

theorem decode_mem {bytes : List Fragment} {packet : Packet} (decoded : decode bytes = some packet) :
    ∃ fragment ∈ bytes, fragment.packet = packet := by
  cases bytes with
  | nil => cases decoded
  | cons first rest =>
    simp only [decode] at decoded
    split_ifs at decoded
    cases decoded
    exact ⟨first, List.mem_cons_self, rfl⟩

/-- Pointers that are there are read from the ring. -/
theorem peek_spec {n : ℕ} (input : Input) (covers : Covers x n)
    (ring : ∀ fragment ∈ x.m_sendRingBuff, fragment.packet.addressee = id) :
    (peek x.m_sendRingBuff n input).length = n ∧ Addressed id (peek x.m_sendRingBuff n input) := by
  have filled : pointerSize * n ≤ x.m_sendRingBuff.length := covers
  unfold peek
  rw [if_pos filled]
  refine ⟨by simp, ?_⟩
  intro packet member
  obtain ⟨i, -, decoded⟩ := List.mem_map.mp member
  obtain ⟨fragment, inside, rfl⟩ := decode_mem decoded
  exact ring fragment (List.mem_of_mem_drop (List.mem_of_mem_take inside))

theorem sendPost_knows {session : Handle} {pc : SendPc} (ran : sendPost s session pc input = some (s', left))
    (knows : pc.Knows (s.slots session.slot) id)
    (ring : ∀ fragment ∈ (s.slots session.slot).m_sendRingBuff, fragment.packet.addressee = id) :
    ∀ f ∈ left, f.Knows (s'.slots session.slot) session.slot id := by
  cases pc with
  | exchange =>
    simp only [sendPost] at ran
    split_ifs at ran <;> cases ran <;> simp [Frame.Knows, SendPc.Knows]
  | closing =>
    simp only [sendPost] at ran
    split_ifs at ran <;> cases ran <;> simp [Frame.Knows, SendPc.Knows]
  | release | backOut | failed | failedRelease | report =>
    cases ran
    simp [Frame.Knows, SendPc.Knows]
  | size =>
    cases ran
    have covers : Covers (s.slots session.slot) ((s.slots session.slot).m_sendRingBuff.length / pointerSize) :=
      Nat.mul_div_le ..
    simp [Frame.Knows, SendPc.Knows, covers]
  | store n =>
    cases ran
    simpa [Frame.Knows, SendPc.Knows, Covers] using knows
  | cap =>
    simp only [sendPost] at ran
    split_ifs at ran with many <;> cases ran
    · have knows := knows.imp_right fun covers => And.intro (Nat.le_of_lt many) covers
      simpa [Frame.Knows, SendPc.Knows] using knows
    · simpa [Frame.Knows, SendPc.Knows] using knows
  | storeCap =>
    cases ran
    have fewer : (s.slots session.slot).m_isClosing ∨ Covers (s.slots session.slot) 1000 :=
      knows.imp_right fun known => Nat.le_trans (Nat.mul_le_mul_left _ known.1) known.2
    simpa [Frame.Knows, SendPc.Knows, Covers] using fewer
  | checkSize =>
    cases ran
    simpa [Frame.Knows, SendPc.Knows] using knows
  | check size =>
    simp only [sendPost] at ran
    split_ifs at ran <;> cases ran <;> simpa [Frame.Knows, SendPc.Knows] using knows
  | count =>
    cases ran
    simpa [Frame.Knows, SendPc.Knows] using knows
  | peek n =>
    cases ran
    have filled : (s.slots session.slot).m_isClosing ∨
        Batch (s.slots session.slot) id (peek (s.slots session.slot).m_sendRingBuff n input) ∧
          Addressed id [] ∧ 0 ≤ (s.slots session.slot).m_sendPacketCount := by
      apply knows.imp_right
      rintro ⟨same, covers⟩
      obtain ⟨length, addressed⟩ := peek_spec input covers ring
      exact ⟨⟨length.trans same, addressed, same ▸ covers⟩, by simp [Addressed], Nat.zero_le _⟩
    simpa [Frame.Knows, SendPc.Knows] using filled
  | fill c wsabuf =>
    simp only [sendPost] at ran
    rcases knows with closing | ⟨⟨length, addressed, covers⟩, filled, short⟩
    · split_ifs at ran
      · split at ran <;> cases ran <;> simp [Frame.Knows, SendPc.Knows, closing]
      · cases ran
        simp [Frame.Knows, SendPc.Knows, closing]
    · split_ifs at ran with more
      · have inside : wsabuf.length < c.length := length ▸ more
        rw [List.getElem?_eq_getElem inside] at ran
        cases ran
        have longer : Addressed id (wsabuf ++ [(c)[wsabuf.length]]) := by
          intro packet member
          rcases List.mem_append.mp member with member | member
          · exact filled packet member
          · exact addressed packet (List.mem_singleton.mp member ▸ List.getElem_mem inside)
        have knows : Batch (s.slots session.slot) id c ∧ Addressed id (wsabuf ++ [(c)[wsabuf.length]]) ∧
            wsabuf.length + 1 ≤ (s.slots session.slot).m_sendPacketCount :=
          ⟨⟨length, addressed, covers⟩, longer, more⟩
        simp [Frame.Knows, SendPc.Knows, knows]
      · cases ran
        have batch : Batch (s.slots session.slot) id wsabuf := ⟨by omega, filled, covers⟩
        simp [Frame.Knows, SendPc.Knows, batch]
  | increment wsabuf =>
    cases ran
    simpa [Frame.Knows, SendPc.Knows, Batch, Covers] using knows
  | recheck wsabuf =>
    simp only [sendPost] at ran
    split_ifs at ran with closing <;> cases ran
    · simp [Frame.Knows, SendPc.Knows]
    · have batch := knows.resolve_left closing
      simpa [Frame.Knows, SendPc.Knows] using batch
  | socket wsabuf =>
    cases ran
    simpa [Frame.Knows, SendPc.Knows] using knows
  | buffers wsabuf sock =>
    obtain ⟨⟨length, addressed, covers⟩, same⟩ := knows
    simp only [sendPost, if_pos (Nat.le_of_eq length.symm), List.take_of_length_le (Nat.le_of_eq length)] at ran
    cases ran
    have batch : Batch (s.slots session.slot) id wsabuf := ⟨length, addressed, covers⟩
    simp [Frame.Knows, SendPc.Knows, batch, same]
  | call wsabuf sock =>
    cases input <;> cases ran <;> simp [Frame.Knows, SendPc.Knows]

/-- A pointer is dequeued from the front of a ring that has one. -/
theorem dequeue_snd {ring : List Fragment} (input : Input) (enough : pointerSize ≤ ring.length) :
    (dequeue ring input).2 = ring.drop pointerSize := by
  unfold dequeue
  rw [if_pos enough]

theorem worker_knows {client : Handle} {pc : WorkerPc} (ran : worker s client pc input = some (s', left))
    (knows : pc.Knows (s.slots client.slot)) : ∀ f ∈ left, f.Knows (s'.slots client.slot) client.slot id := by
  cases pc with
  | peerClosed | decrement | peerGone | poll | rejected | sentDone =>
    cases ran
    simp [Frame.Knows, WorkerPc.Knows]
  | received => cases input <;> cases ran <;> simp [Frame.Knows, WorkerPc.Knows]
  | sent i =>
    simp only [worker] at ran
    split_ifs at ran with more <;> cases ran
    · have knows := And.intro more knows
      simpa [Frame.Knows, WorkerPc.Knows] using knows
    · simp [Frame.Knows, WorkerPc.Knows]
  | sentSize i =>
    simp only [worker] at ran
    split_ifs at ran <;> cases ran <;> simpa [Frame.Knows, WorkerPc.Knows] using knows
  | sentTake i =>
    obtain ⟨more, covers⟩ := knows
    unfold Covers pointerSize at covers
    have left : pointerSize * ((s.slots client.slot).m_sendPacketCount - (i + 1)) ≤
        ((s.slots client.slot).m_sendRingBuff.drop pointerSize).length := by
      rw [List.length_drop]
      unfold pointerSize
      omega
    have enough : pointerSize ≤ (s.slots client.slot).m_sendRingBuff.length := by
      unfold pointerSize
      omega
    have taken := dequeue_snd input enough
    simp only [worker] at ran
    generalize dequeue (s.slots client.slot).m_sendRingBuff input = d at ran taken
    cases ran
    simpa [Frame.Knows, WorkerPc.Knows, Covers, taken] using left
  | more | idle =>
    simp only [worker] at ran
    split_ifs at ran <;> cases ran <;> simp [Frame.Knows, SendPc.Knows, WorkerPc.Knows]

/-- A callee gets the pointer of its caller. -/
theorem Leaves.same_slot {frame f : Frame} {session : Handle} {j : ℕ} (leaves : Leaves s frame input f)
    (handle : frame.handle = some session) (here : f.slot = some j) : j = session.slot := by
  cases f with
  | issue slot socket =>
    obtain ⟨rfl, -⟩ := leaves
    cases handle
  | accepting client socket pc =>
    rcases leaves with ⟨rfl, -⟩ | ⟨last, rfl, -⟩
    · cases handle
    · cases handle
      exact (Option.some.inj here).symm
  | worker client pc =>
    rcases leaves with same | ⟨rfl, -⟩
    · rw [same] at handle
      cases handle
      exact (Option.some.inj here).symm
    · cases handle
  | recvPost client pc | sendPost client pc =>
    cases leaves.symm.trans handle
    exact (Option.some.inj here).symm
  | removeSession client cause pc =>
    rcases leaves with ⟨last, rfl⟩ | ⟨mark, rfl, -⟩
    · cases handle
      exact (Option.some.inj here).symm
    · cases handle
  | sendPacket client packet pc =>
    rcases leaves with ⟨last, rfl⟩ | ⟨rfl, -⟩
    · cases handle
      exact (Option.some.inj here).symm
    · cases handle
  | _ => cases here

theorem Frame.Knows.of_slot {f : Frame} (elsewhere : f.slot ≠ some k) : f.Knows x k id := by
  cases f with
  | sendPost client pc => exact fun here => absurd (congrArg some here) elsewhere
  | worker client pc => exact fun here => absurd (congrArg some here) elsewhere
  | removeSession client cause pc => exact fun here => absurd (congrArg some here) elsewhere
  | _ => trivial

/-- What the frames that a step leaves know of the session on slot `k`. -/
theorem exec_knows {frame : Frame} (ran : exec s frame input = some (s', left))
    (knows : frame.Knows (s.slots k) k id)
    (ring : ∀ fragment ∈ (s.slots k).m_sendRingBuff, fragment.packet.addressee = id)
    (posted : ∀ io ∈ s.inFlight, io.sends k → Covers (s.slots k) (s.slots k).m_sendPacketCount) :
    ∀ f ∈ left, f.Knows (s'.slots k) k id := by
  have leaves := (exec_spec ran).2
  have apart {session : Handle} (handle : frame.handle = some session) (elsewhere : session.slot ≠ k) :
      ∀ f ∈ left, f.Knows (s'.slots k) k id := fun f member =>
    .of_slot fun here => elsewhere ((leaves f member).same_slot handle here).symm
  cases frame with
  | worker client pc =>
    by_cases here : client.slot = k
    · subst here
      exact worker_knows ran (knows rfl)
    · exact apart rfl here
  | sendPost session pc =>
    by_cases here : session.slot = k
    · subst here
      exact sendPost_knows ran (knows rfl) ring
    · exact apart rfl here
  | getStatus =>
    cases input with
    | complete index cbTransferred =>
      obtain ⟨io, found, completed⟩ := Option.map_eq_some_iff.mp ran
      split_ifs at completed
      · cases completed
        simp [Frame.Knows, WorkerPc.Knows]
      · split at completed <;> rename_i type <;> cases completed
        · simp [Frame.Knows, WorkerPc.Knows]
        · have covers := posted io (List.mem_of_getElem? found)
          simpa [Frame.Knows, WorkerPc.Knows, Io.sends, type] using covers
    | _ => cases ran
  | removeSession session cause pc =>
    by_cases here : session.slot = k
    · subst here
      cases pc with
      | drain =>
        simp only [exec, removeSession] at ran
        split_ifs at ran with enough <;> cases ran
        · simpa [Frame.Knows, Covers] using enough
        · simp [Frame.Knows]
      | closing | ioCount | swap | rest =>
        simp only [exec, removeSession] at ran
        split_ifs at ran <;> cases ran <;> simp [Frame.Knows]
      | _ =>
        cases ran
        simp [Frame.Knows]
    · exact apart rfl here
  | findRemove x mark cause =>
    simp only [exec, findRemove] at ran
    split at ran <;> cases ran
    · simp
    · cases mark <;> simp [Frame.Knows]
  | sendPacket session packet pc =>
    cases pc with
    | enqueue =>
      cases ran
      simp [Frame.Knows]
    | free | pending =>
      simp only [exec, sendPacket] at ran
      split_ifs at ran <;> cases ran <;> simp [Frame.Knows, SendPc.Knows]
  | recvPost session pc =>
    cases pc with
    | closing | recheck =>
      simp only [exec, recvPost] at ran
      split_ifs at ran <;> cases ran <;> simp [Frame.Knows]
    | call socket => cases input <;> cases ran <;> simp [Frame.Knows]
    | _ =>
      cases ran
      simp [Frame.Knows]
  | accepting session socket pc => cases pc <;> cases ran <;> simp [Frame.Knows]
  | app | accept | asked socket | issue slot socket | findSend packet | drop packet =>
    intro f member
    have comes := leaves f member
    cases f with
    | sendPost client pc => cases comes
    | worker client pc => rcases comes with same | ⟨same, -⟩ <;> cases same
    | removeSession client cause pc => rcases comes with ⟨last, same⟩ | ⟨mark, same, -⟩ <;> cases same
    | _ => trivial

/-- The send that a step posts is a full batch, and its packets are still in the ring. -/
theorem posts_covers {frame : Frame} {io : Io} (ran : exec s frame input = some (s', left))
    (posts : Posts frame io) (sends : io.sends k) (knows : frame.Knows (s.slots k) k id)
    (drift : Drift frame (s.slots k) (s'.slots k)) : Covers (s'.slots k) (s'.slots k).m_sendPacketCount := by
  cases frame with
  | recvPost session pc =>
    cases pc <;> cases posts
    simp [Io.sends] at sends
  | sendPost session pc =>
    cases pc <;> cases posts
    have here : session.slot = k := by simpa [Io.sends] using sends
    rw [drift.count]
    exact (knows here).1.2.2.mono drift.length
  | _ => cases posts

/-- An enqueued pointer adds only its own bytes. -/
theorem mem_enqueue {ring : List Fragment} {packet : Packet} {fragment : Fragment}
    (member : fragment ∈ enqueue ring packet) : fragment ∈ ring ∨ fragment.packet = packet := by
  rcases List.mem_append.mp member with old | new
  · exact .inl old
  · obtain ⟨byte, -, rfl⟩ := List.mem_map.mp (List.mem_of_mem_take new)
    exact .inr rfl

end Specs

section Runs

variable {m next : Machine} {label : ℕ × Input} {k : ℕ} {id : ℤ}

theorem holders_append (s : CLockFreeCore) (first second : List Frame) :
    holders k s (first ++ second) = holders k s first + second.countP (Frame.holds k) := by
  simp [holders, Nat.add_assoc]

theorem holders_perm (s : CLockFreeCore) {first second : List Frame} (perm : first.Perm second) :
    holders k s first = holders k s second := by
  rw [holders, holders, perm.countP_eq]

/-- While one thread holds `m_isSendPending`, no other thread and no posted send does. -/
theorem Sends.alone (sends : Sends m k id) {frame : Frame} {others : List Frame}
    (frames : m.frames.Perm (frame :: others)) (holds : frame.holds k) :
    (∀ f ∈ others, ¬ f.holds k) ∧ ∀ io ∈ m.shared.inFlight, ¬ io.sends k := by
  have lock := sends.lock
  have bit := Bool.toNat_le (m.shared.slots k).m_isSendPending
  rw [holders_perm m.shared frames, holders, List.countP_cons_of_pos holds] at lock
  have threads : others.countP (Frame.holds k) = 0 := by omega
  have flights : m.shared.inFlight.countP (Io.sends k) = 0 := by omega
  exact ⟨List.countP_eq_zero.mp threads, List.countP_eq_zero.mp flights⟩

/-- While a thread holds `m_isSendPending` it is set. -/
theorem Sends.pending_of_holds (sends : Sends m k id) {frame : Frame} (member : frame ∈ m.frames)
    (holds : frame.holds k) : (m.shared.slots k).m_isSendPending := by
  have lock := sends.lock
  have held : 0 < m.frames.countP (Frame.holds k) := List.countP_pos_iff.mpr ⟨frame, member, holds⟩
  rw [holders] at lock
  cases pending : (m.shared.slots k).m_isSendPending with
  | true => rfl
  | false =>
    rw [pending, Bool.toNat_false] at lock
    omega

theorem Frame.slot_of_holds {frame : Frame} (holds : frame.holds k) : frame.slot = some k := by
  cases frame with
  | sendPost session pc =>
    simp only [Frame.holds, Bool.and_eq_true, decide_eq_true_eq] at holds
    exact congrArg some holds.1.1
  | worker session pc =>
    simp only [Frame.holds, Bool.and_eq_true, decide_eq_true_eq] at holds
    exact congrArg some holds.1
  | _ => cases holds

theorem Io.slot_of_sends {io : Io} (sends : io.sends k) : io.session.slot = k := by
  simp only [Io.sends, Bool.and_eq_true, decide_eq_true_eq] at sends
  exact sends.1

theorem Opened.sends {socket : ℕ} (opened : Opened m k id socket) : Sends m k id := by
  have landed (io : Io) (member : io ∈ m.shared.inFlight) : ¬ io.sends k :=
    fun sends => opened.landed io member (Io.slot_of_sends sends)
  have threads (frame : Frame) (member : frame ∈ m.frames) : ¬ frame.holds k := by
    intro holds
    rw [eq_of_alone opened.alone member (Frame.slot_of_holds holds)] at holds
    cases holds
  constructor
  · rw [holders, List.countP_eq_zero.mpr landed, List.countP_eq_zero.mpr threads]
    exact Nat.zero_le _
  · simp [opened.ring]
  · intro frame member
    by_cases here : frame.slot = some k
    · rw [eq_of_alone opened.alone member here]
      trivial
    · exact .of_slot here
  · exact fun io member sends => absurd sends (landed io member)

/-- Setting the packet count leaves the ring alone. -/
theorem sendPost_takes {s s' : CLockFreeCore} {session : Handle} {pc : SendPc} {input : Input}
    {left : List Frame} (ran : exec s (.sendPost session pc) input = some (s', left))
    (takes : (Frame.sendPost session pc).takes k) :
    (s'.slots k).m_sendRingBuff = (s.slots k).m_sendRingBuff ∧ s'.inFlight = s.inFlight := by
  cases pc with
  | store n | storeCap =>
    obtain rfl : session.slot = k := by simpa [Frame.takes] using takes
    cases ran
    simp
  | _ => simp [Frame.takes] at takes

/-- A dequeue leaves the rest of the ring. -/
theorem worker_takes {s s' : CLockFreeCore} {client : Handle} {pc : WorkerPc} {input : Input}
    {left : List Frame} (ran : exec s (.worker client pc) input = some (s', left))
    (takes : (Frame.worker client pc).takes k) (knows : (Frame.worker client pc).Knows (s.slots k) k id) :
    (s'.slots k).m_sendRingBuff = (s.slots k).m_sendRingBuff.drop pointerSize ∧ s'.inFlight = s.inFlight := by
  cases pc with
  | sentTake i =>
    obtain rfl : client.slot = k := by simpa [Frame.takes] using takes
    obtain ⟨more, covers⟩ := knows rfl
    have enough : pointerSize ≤ (s.slots client.slot).m_sendRingBuff.length := by
      unfold Covers pointerSize at covers
      unfold pointerSize
      omega
    have taken := dequeue_snd input enough
    simp only [exec, worker] at ran
    generalize dequeue (s.slots client.slot).m_sendRingBuff input = d at ran taken
    cases ran
    simp [taken]
  | _ => simp [Frame.takes] at takes

theorem removeSession_takes {s s' : CLockFreeCore} {session : Handle} {cause : ℤ} {pc : RemovePc} {input : Input}
    {left : List Frame} (ran : exec s (.removeSession session cause pc) input = some (s', left))
    (takes : (Frame.removeSession session cause pc).takes k)
    (knows : (Frame.removeSession session cause pc).Knows (s.slots k) k id) :
    pc = .take ∧ session.slot = k ∧
      (s'.slots k).m_sendRingBuff = (s.slots k).m_sendRingBuff.drop pointerSize ∧
      s'.inFlight = s.inFlight ∧ (s'.slots k).m_isClosing = (s.slots k).m_isClosing ∧
      (s'.slots k).m_sendPacketCount = (s.slots k).m_sendPacketCount := by
  obtain ⟨rfl, rfl⟩ : session.slot = k ∧ pc = .take := by simpa [Frame.takes] using takes
  have enough : pointerSize ≤ (s.slots session.slot).m_sendRingBuff.length := knows rfl rfl
  have taken := dequeue_snd input enough
  simp only [exec, removeSession] at ran
  generalize dequeue (s.slots session.slot).m_sendRingBuff input = d at ran taken
  cases ran
  simp [taken]

/-- Who sets the packet count or dequeues without tearing the session down holds `m_isSendPending`. -/
theorem Frame.holds_of_takes {frame : Frame} (takes : frame.takes k)
    (other : ∀ session cause, frame ≠ .removeSession session cause .take) : frame.holds k := by
  cases frame with
  | sendPost session pc => cases pc <;> simp_all [Frame.takes, Frame.holds]
  | worker session pc => cases pc <;> simp_all [Frame.takes, Frame.holds]
  | removeSession session cause pc => simp_all [Frame.takes]
  | _ => cases takes

/-- The ring, the other threads and the posted sends after a step. -/
structure Kept (s : CLockFreeCore) (others : List Frame) (k : ℕ) (id : ℤ) : Prop where
  ring : ∀ fragment ∈ (s.slots k).m_sendRingBuff, fragment.packet.addressee = id
  threads : ∀ frame ∈ others, frame.Knows (s.slots k) k id
  posted : ∀ io ∈ s.inFlight, io.sends k → Covers (s.slots k) (s.slots k).m_sendPacketCount

section Kept

variable {socket before : ℕ} {frame : Frame} {left others : List Frame} {input : Input} {s' : CLockFreeCore}

/-- A step that lets the session drift. -/
theorem Sends.drift (sends : Sends m k id) (life : Lifetime m k id socket before)
    (addressed : ∀ session packet pc, .sendPacket session packet pc ∈ m.frames → session.id = packet.addressee)
    (frames : m.frames.Perm (frame :: others)) (ran : exec m.shared frame input = some (s', left))
    (keeps : ¬ frame.takes k) : Kept s' others k id := by
  have here : frame ∈ m.frames := frames.mem_iff.mpr List.mem_cons_self
  have joined (session : Handle) (sock : ℕ) (pc : AcceptPc) (same : frame = .accepting session sock pc)
      (own : session.slot = k) : 8 ≤ pc.stage := life.joined session sock pc (same ▸ here) own
  have drift := exec_drift ran (life.alive.later frame here) joined keeps
  have changes := (exec_spec ran).1
  constructor
  · intro fragment member
    rcases drift.ring with same | ⟨session, packet, rfl, longer⟩
    · exact sends.ring fragment (same ▸ member)
    · by_cases own : session.slot = k
      · rw [longer] at member
        rcases mem_enqueue member with old | rfl
        · exact sends.ring fragment old
        · exact (addressed _ _ _ here).symm.trans (life.handles _ here session rfl own)
      · rw [changes.slots k (fun same => own (Option.some.inj same))] at member
        exact sends.ring fragment member
  · intro f member
    exact (sends.threads f (frames.mem_iff.mpr (List.mem_cons_of_mem _ member))).drift drift
  · intro io member posted
    rcases changes.inFlight io member with old | posts
    · rw [drift.count]
      exact (sends.posted io old posted).mono drift.length
    · exact posts_covers ran posts posted (sends.threads frame here) drift

/-- The holder of `m_isSendPending` sets the packet count or dequeues. -/
theorem Sends.hold (sends : Sends m k id) (frames : m.frames.Perm (frame :: others)) (holds : frame.holds k)
    (ring : ∀ fragment ∈ (s'.slots k).m_sendRingBuff, fragment ∈ (m.shared.slots k).m_sendRingBuff)
    (inFlight : s'.inFlight = m.shared.inFlight)
    (drains : ∀ session cause, .removeSession session cause .take ∈ others → session.slot = k →
      Covers (s'.slots k) 1) : Kept s' others k id := by
  obtain ⟨free, landed⟩ := sends.alone frames holds
  constructor
  · exact fun fragment member => sends.ring fragment (ring fragment member)
  · intro f member
    apply Frame.Knows.of_free (free f member)
    rintro session cause rfl own
    exact drains session cause member own
  · intro io member posted
    exact absurd posted (landed io (inFlight ▸ member))

/-- The thread that tears the session down dequeues. -/
theorem Sends.drain (sends : Sends m k id) (life : Lifetime m k id socket before)
    (frames : m.frames.Perm (frame :: others)) (tearing : frame.role k id = some .tearing)
    (ring : ∀ fragment ∈ (s'.slots k).m_sendRingBuff, fragment ∈ (m.shared.slots k).m_sendRingBuff)
    (inFlight : s'.inFlight = m.shared.inFlight)
    (closing : (s'.slots k).m_isClosing = (m.shared.slots k).m_isClosing) : Kept s' others k id := by
  have torn := life.alive.torn_of_tearing (frames.mem_iff.mpr List.mem_cons_self) tearing
  have once := life.alive.tears_once frames tearing
  obtain ⟨landed, idle⟩ := life.alive.sealed torn
  constructor
  · exact fun fragment member => sends.ring fragment (ring fragment member)
  · intro f member
    apply Frame.Knows.of_closing (closing.trans (life.alive.sound.closed (.inl torn)))
      (idle f (frames.mem_iff.mpr (List.mem_cons_of_mem _ member)))
    rintro session cause rfl own
    exact once _ member (if_pos own)
  · intro io member posted
    exact absurd (Io.slot_of_sends posted) (landed io (inFlight ▸ member))

theorem Sends.kept (sends : Sends m k id) (life : Lifetime m k id socket before)
    (addressed : ∀ session packet pc, .sendPacket session packet pc ∈ m.frames → session.id = packet.addressee)
    (frames : m.frames.Perm (frame :: others)) (ran : exec m.shared frame input = some (s', left)) :
    Kept s' others k id := by
  have here : frame ∈ m.frames := frames.mem_iff.mpr List.mem_cons_self
  have there {f : Frame} (member : f ∈ others) : f ∈ m.frames :=
    frames.mem_iff.mpr (List.mem_cons_of_mem _ member)
  have knows := sends.threads frame here
  by_cases takes : frame.takes k
  · cases frame with
    | sendPost session pc =>
      obtain ⟨ring, inFlight⟩ := sendPost_takes ran takes
      apply sends.hold frames ?_ (fun _ member => ring ▸ member) inFlight
      · intro client cause member own
        unfold Covers
        rw [ring]
        exact sends.threads _ (there member) own rfl
      · refine Frame.holds_of_takes takes fun _ _ same => ?_
        cases same
    | worker client pc =>
      obtain ⟨ring, inFlight⟩ := worker_takes ran takes knows
      apply sends.hold frames ?_ (fun _ => by rw [ring]; exact List.mem_of_mem_drop) inFlight
      · intro session cause member own
        have tearing : (Frame.removeSession session cause .take).role k id = some .tearing := if_pos own
        have idle := (life.alive.sealed (life.alive.torn_of_tearing (there member) tearing)).2 _ here
        cases pc <;> simp_all [Frame.takes, Frame.role, WorkerPc.role]
      · refine Frame.holds_of_takes takes fun _ _ same => ?_
        cases same
    | removeSession session cause pc =>
      obtain ⟨rfl, rfl, ring, inFlight, closing, -⟩ := removeSession_takes ran takes knows
      exact sends.drain life frames (if_pos rfl) (fun _ => by rw [ring]; exact List.mem_of_mem_drop) inFlight closing
    | _ => cases takes
  · exact sends.drift life addressed frames ran takes

end Kept

theorem Sends.step {socket before : ℕ} (sends : Sends m k id) (life : Lifetime m k id socket before)
    (addressed : ∀ session packet pc, .sendPacket session packet pc ∈ m.frames → session.id = packet.addressee)
    (stepped : step m label = some next) : Sends next k id := by
  obtain ⟨frame, left, others, -, ran, frames, frames'⟩ := Stacks.step_frames stepped
  have here : frame ∈ m.frames := frames.mem_iff.mpr List.mem_cons_self
  have later := life.alive.later frame here
  have kept := sends.kept life addressed frames ran
  refine ⟨?_, kept.ring, ?_, kept.posted⟩
  · have passed := exec_holders ran later
    have held := sends.lock
    rw [holders_perm m.shared frames, ← List.singleton_append, holders_append] at held
    rw [holders_perm next.shared frames', holders_append]
    omega
  · intro f member
    rcases List.mem_append.mp (frames'.mem_iff.mp member) with member | member
    · exact exec_knows ran (sends.threads frame here) sends.ring sends.posted f member
    · exact kept.threads f member

/-- What the log says about packets. -/
structure Delivered (m : Machine) : Prop where
  found : ∀ session packet pc, .sendPacket session packet pc ∈ m.frames → session.id = packet.addressee
  enqueued : ∀ slot owner packet, .enqueued slot owner packet ∈ m.shared.log → packet.addressee = owner
  posted : ∀ slot owner socket batch, .posted slot owner socket batch ∈ m.shared.log →
    .accepted owner slot socket ∈ m.shared.log ∧ Addressed owner batch

theorem Delivered.step (delivered : Delivered m) (phase : ∀ k, Phase Sends m k)
    (stepped : step m label = some next) : Delivered next := by
  obtain ⟨frame, left, others, -, ran, frames, frames'⟩ := Stacks.step_frames stepped
  obtain ⟨changes, leaves⟩ := exec_spec ran
  have here : frame ∈ m.frames := frames.mem_iff.mpr List.mem_cons_self
  constructor
  · intro session packet pc member
    rcases List.mem_append.mp (frames'.mem_iff.mp member) with member | member
    · rcases leaves _ member with ⟨last, rfl⟩ | ⟨rfl, same, -⟩
      · exact delivered.found _ _ _ here
      · exact same
    · exact delivered.found _ _ _ (frames.mem_iff.mpr (List.mem_cons_of_mem _ member))
  · intro slot owner packet member
    rcases changes.of_mem_log member with old | ⟨rfl, session, rfl, rfl⟩
    · exact delivered.enqueued _ _ _ old
    · exact (delivered.found _ _ _ here).symm.trans ((phase session.slot).handle_id here rfl rfl)
  · intro slot owner socket batch member
    rcases changes.of_mem_log member with old | ⟨rfl, session, rfl, rfl⟩
    · obtain ⟨accepted, addressed⟩ := delivered.posted _ _ _ _ old
      exact ⟨changes.mem_log accepted, addressed⟩
    · obtain ⟨id, own, before, life, sends⟩ := (phase session.slot).lifetime here rfl nofun
      obtain ⟨⟨-, addressed, -⟩, same⟩ := sends.threads _ here rfl
      rw [life.owner, same, life.connected]
      exact ⟨changes.mem_log life.accepted, addressed⟩

/-- As long as no slot is popped to which some thread still has a pointer, a packet is enqueued for
and posted on the socket of the session it was passed for, and no other. -/
theorem packets_reach_addressee {slots : ℕ → Session} {sessionMax workerMax apps : ℕ}
    {labels : List (ℕ × Input)} {target : Machine}
    (clean : Along CLockFreeCore.step (fun m label => ∀ k, ¬ Overtakes m label k)
      (start slots sessionMax workerMax apps) labels)
    (run : replay CLockFreeCore.step (start slots sessionMax workerMax apps) labels = some target) :
    (∀ slot owner packet, .enqueued slot owner packet ∈ target.shared.log → packet.addressee = owner) ∧
    ∀ slot owner socket batch packet, .posted slot owner socket batch ∈ target.shared.log →
      some packet ∈ batch → packet.addressee = owner ∧ .accepted owner slot socket ∈ target.shared.log ∧
        ∀ j sock, .accepted packet.addressee j sock ∈ target.shared.log → sock = socket := by
  have begins : Delivered (start slots sessionMax workerMax apps) := by
    refine ⟨?_, nofun, nofun⟩
    intro session packet pc member
    rcases mem_frames_start _ _ _ _ member with same | same | same <;> cases same
  obtain ⟨issued, -, delivered⟩ := invariant
    (fun m => Issued m ∧ (∀ k, Phase Sends m k) ∧ Delivered m)
    (fun m label next ⟨issued, phase, delivered⟩ kept stepped => ⟨issued.step stepped,
      fun k => (phase k).step issued stepped (kept k) (fun _ _ opened => opened.sends)
        fun _ _ _ life sends _ => sends.step life delivered.found stepped,
      delivered.step phase stepped⟩)
    ⟨.start .., fun k => .inl (.start _ _ _ _ k), begins⟩ clean run
  refine ⟨delivered.enqueued, ?_⟩
  intro slot owner socket batch packet posted member
  obtain ⟨accepted, addressed⟩ := delivered.posted _ _ _ _ posted
  obtain rfl := addressed packet member
  exact ⟨rfl, accepted, fun j sock other => (issued.once _ _ _ _ _ other accepted).2⟩

end Runs

/-- A packet for the first client; the thread is in `sendPacket` with its session. -/
def sendPauses : List (ℕ × Input) :=
  acceptsFirst ++ goes 0 3 ++ (0, .leave) :: goes 0 6 ++ (2, .sendPacket ⟨0, 5⟩) :: goes 2 1

/-- The first client leaves and the slot goes to the next one; the paused thread enqueues and posts. -/
def sendsToNext : List (ℕ × Input) :=
  sendPauses ++ (1, .complete 0 0) :: goes 1 12 ++ (1, .leave) :: goes 1 2 ++ acceptsFirst ++
    goes 0 3 ++ (0, .leave) :: goes 2 19

theorem packet_reaches_next :
    let target := (replay step (start (fun _ => unwritten) 1 1 1) sendsToNext).get (by decide)
    .accepted 1 0 1 ∈ target.shared.log ∧ .enqueued 0 1 ⟨0, 5⟩ ∈ target.shared.log ∧
      .posted 0 1 1 [some ⟨0, 5⟩] ∈ target.shared.log := by
  decide

/-- A packet is sent to the only client. -/
def sendsToFirst : List (ℕ × Input) := sendPauses ++ goes 2 19

theorem packets_reach_addressee_sendsToFirst :
    let target := (replay step (start (fun _ => unwritten) 1 1 1) sendsToFirst).get (by decide)
    .posted 0 0 0 [some ⟨0, 5⟩] ∈ target.shared.log ∧
      ∀ j sock, .accepted 0 j sock ∈ target.shared.log → sock = 0 :=
  ⟨by decide, ((packets_reach_addressee (by decide) (Option.some_get _).symm).2 0 0 0 [some ⟨0, 5⟩] ⟨0, 5⟩
    (by decide) (by decide)).2.2⟩

end LockFreeCore.CLockFreeCore
