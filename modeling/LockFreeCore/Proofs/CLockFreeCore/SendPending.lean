import LockFreeCore.Proofs.CLockFreeCore.Lifetimes

/-! # `m_isSendPending` as a lock

The exchange in `sendPost` takes it; the send completion, or the post itself when it gives up,
releases it. In between only the holder writes `m_sendPacketCount`, and only the holder or the
thread that tears the session down dequeues from the send ring.
-/

namespace LockFreeCore.CLockFreeCore

open CountedClose

/-- The thread has set `m_isSendPending` and has not passed that on or cleared it. -/
def Frame.holds (k : ℕ) : Frame → Bool
  | .sendPost session pc => session.slot = k && pc ≠ .exchange && pc ≠ .report
  | .worker session pc => session.slot = k && match pc with
    | .sent _ | .sentSize _ | .sentTake _ | .sentDone => true
    | _ => false
  | _ => false

/-- A posted send that has not completed. -/
def Io.sends (k : ℕ) (io : Io) : Bool := io.session.slot = k && io.type = .send

/-- The holders of `m_isSendPending` among the given threads and the posted sends. -/
def holders (k : ℕ) (s : CLockFreeCore) (frames : List Frame) : ℕ :=
  s.inFlight.countP (Io.sends k) + frames.countP (Frame.holds k)

/-- The step dequeues from the send ring of slot `k`, or sets `m_sendPacketCount`. -/
def Frame.takes (k : ℕ) : Frame → Bool
  | .sendPost session pc => session.slot = k && match pc with
    | .store _ | .storeCap => true
    | _ => false
  | .worker session pc => session.slot = k && match pc with
    | .sentTake _ => true
    | _ => false
  | .removeSession session _ pc => session.slot = k && pc = .take
  | _ => false

/-- What all other steps may do to a session: the ring grows, and the session closes. -/
structure Drift (frame : Frame) (x y : Session) : Prop where
  socket : y.m_socket = x.m_socket
  count : y.m_sendPacketCount = x.m_sendPacketCount
  ring : y.m_sendRingBuff = x.m_sendRingBuff ∨ ∃ session packet,
    frame = .sendPacket session packet .enqueue ∧ y.m_sendRingBuff = enqueue x.m_sendRingBuff packet
  closing : x.m_isClosing → y.m_isClosing

section Specs

variable {s s' : CLockFreeCore} {k : ℕ} {left : List Frame} {input : Input}

theorem Drift.refl {frame : Frame} (x : Session) : Drift frame x x := ⟨rfl, rfl, .inl rfl, id⟩

theorem Drift.length {frame : Frame} {x y : Session} (drift : Drift frame x y) :
    x.m_sendRingBuff.length ≤ y.m_sendRingBuff.length := by
  rcases drift.ring with same | ⟨session, packet, -, longer⟩
  · rw [same]
  · rw [longer, enqueue, List.length_append]
    exact Nat.le_add_right ..

/-- A write to one slot, seen from any slot. -/
theorem Drift.modify {frame : Frame} {j : ℕ} {change : Session → Session}
    (drift : Drift frame (s.slots j) (change (s.slots j))) :
    Drift frame (s.slots k) ((s.modify j change).slots k) := by
  by_cases here : k = j
  · subst here
    simpa using drift
  · simpa [here] using Drift.refl _

theorem worker_holders {client : Handle} {pc : WorkerPc} (ran : worker s client pc input = some (s', left)) :
    holders k s' left + (s.slots k).m_isSendPending.toNat ≤
      holders k s [.worker client pc] + (s'.slots k).m_isSendPending.toNat := by
  by_cases here : client.slot = k
  · subst here
    cases pc with
    | peerClosed | decrement | peerGone | poll | rejected | sentTake i =>
      cases ran
      simp [holders, Frame.holds]
    | received => cases input <;> cases ran <;> simp [holders, Frame.holds]
    | sent i | sentSize i | more | idle =>
      simp only [worker] at ran
      split_ifs at ran <;> cases ran <;> simp [holders, Frame.holds]
    | sentDone =>
      cases ran
      have bit := Bool.toNat_le (s.slots client.slot).m_isSendPending
      simp [holders, Frame.holds]
      omega
  · have elsewhere : k ≠ client.slot := Ne.symm here
    cases pc with
    | peerClosed | decrement | peerGone | poll | rejected | sentTake i | sentDone =>
      cases ran
      simp [holders, Frame.holds, here, elsewhere]
    | received => cases input <;> cases ran <;> simp [holders, Frame.holds, here]
    | sent i | sentSize i | more | idle =>
      simp only [worker] at ran
      split_ifs at ran <;> cases ran <;> simp [holders, Frame.holds, here]

theorem sendPost_holders {session : Handle} {pc : SendPc} (ran : sendPost s session pc input = some (s', left)) :
    holders k s' left + (s.slots k).m_isSendPending.toNat ≤
      holders k s [.sendPost session pc] + (s'.slots k).m_isSendPending.toNat := by
  by_cases here : session.slot = k
  · subst here
    cases pc with
    | exchange =>
      simp only [sendPost] at ran
      split_ifs at ran with free <;> cases ran
      · simp [holders, Frame.holds, free]
      · rw [Bool.not_eq_false] at free
        simp [holders, Frame.holds, free]
    | closing | cap | check size | recheck wsabuf =>
      simp only [sendPost] at ran
      split_ifs at ran <;> cases ran <;> simp [holders, Frame.holds]
    | size | store n | storeCap | checkSize | count | peek n | increment wsabuf | backOut | socket wsabuf | failed
      | report =>
      cases ran
      simp [holders, Frame.holds]
    | fill c wsabuf =>
      simp only [sendPost] at ran
      split_ifs at ran
      · split at ran <;> cases ran <;> simp [holders, Frame.holds]
      · cases ran
        simp [holders, Frame.holds]
    | buffers wsabuf socket =>
      simp only [sendPost] at ran
      split_ifs at ran
      · cases ran
        simp [holders, Frame.holds]
      · split at ran <;> cases ran <;> simp [holders, Frame.holds]
    | call wsabuf socket => cases input <;> cases ran <;> simp [holders, Frame.holds, Io.sends]
    | release | failedRelease =>
      cases ran
      have bit := Bool.toNat_le (s.slots session.slot).m_isSendPending
      simp [holders, Frame.holds]
      omega
  · have elsewhere : k ≠ session.slot := Ne.symm here
    cases pc with
    | exchange | closing | cap | check size | recheck wsabuf =>
      simp only [sendPost] at ran
      split_ifs at ran <;> cases ran <;> simp [holders, Frame.holds, here, elsewhere]
    | size | store n | storeCap | checkSize | count | peek n | increment wsabuf | backOut | socket wsabuf | failed
      | report | release | failedRelease =>
      cases ran
      simp [holders, Frame.holds, here, elsewhere]
    | fill c wsabuf =>
      simp only [sendPost] at ran
      split_ifs at ran
      · split at ran <;> cases ran <;> simp [holders, Frame.holds, here]
      · cases ran
        simp [holders, Frame.holds, here]
    | buffers wsabuf socket =>
      simp only [sendPost] at ran
      split_ifs at ran
      · cases ran
        simp [holders, Frame.holds, here]
      · split at ran <;> cases ran <;> simp [holders, Frame.holds, here]
    | call wsabuf socket => cases input <;> cases ran <;> simp [holders, Frame.holds, Io.sends, here]

/-- A change that leaves `m_isSendPending` alone does so on every slot. -/
theorem modify_m_isSendPending {slot : ℕ} {change : Session → Session}
    (keeps : ∀ session, (change session).m_isSendPending = session.m_isSendPending) :
    ((s.modify slot change).slots k).m_isSendPending = (s.slots k).m_isSendPending := by
  by_cases here : k = slot
  · subst here
    rw [modify_slots_self, keeps]
  · rw [modify_slots_of_ne _ _ _ here]

theorem getStatus_holders (ran : getStatus s input = some (s', left)) :
    holders k s' left + (s.slots k).m_isSendPending.toNat ≤
      holders k s [.getStatus] + (s'.slots k).m_isSendPending.toNat := by
  cases input with
  | complete index cbTransferred =>
    obtain ⟨io, found, completed⟩ := Option.map_eq_some_iff.mp ran
    obtain ⟨bound, rfl⟩ := List.getElem?_eq_some_iff.mp found
    have taken := (List.getElem_cons_eraseIdx_perm bound).countP_eq (Io.sends k)
    rw [List.countP_cons] at taken
    split_ifs at completed
    · cases completed
      simp [holders, Frame.holds, ← taken]
    · split at completed <;> rename_i type <;> cases completed
      · simp [holders, Frame.holds, ← taken]
      · simp [holders, Frame.holds, ← taken, Io.sends, type]
  | _ => cases ran

/-- A step passes `m_isSendPending` on, or takes or clears it. -/
theorem exec_holders {frame : Frame} (ran : exec s frame input = some (s', left)) (later : ¬ frame.prepares k) :
    holders k s' left + (s.slots k).m_isSendPending.toNat ≤
      holders k s [frame] + (s'.slots k).m_isSendPending.toNat := by
  cases frame with
  | app => cases input <;> cases ran <;> simp [holders, Frame.holds]
  | accept => cases input <;> cases ran <;> simp [holders, Frame.holds]
  | asked socket =>
    simp only [exec, asked] at ran
    split at ran
    · cases ran
      simp [holders, Frame.holds]
    · split at ran <;> cases ran <;> simp [holders, Frame.holds]
  | issue slot socket =>
    have elsewhere : k ≠ slot := by
      rintro rfl
      exact later (by simp [Frame.prepares])
    cases ran
    simp [holders, Frame.holds, elsewhere]
  | accepting client socket pc =>
    by_cases here : client.slot = k
    · subst here
      cases pc with
      | next | socket | pending | ioCount | closing | tornDown =>
        exact absurd (by simp [Frame.prepares]) later
      | ring | insert | join | post =>
        cases ran
        simp [holders, Frame.holds]
    · have elsewhere : k ≠ client.slot := Ne.symm here
      cases pc <;> cases ran <;> simp [holders, Frame.holds, elsewhere]
  | getStatus => exact getStatus_holders ran
  | worker client pc => exact worker_holders ran
  | recvPost session pc =>
    cases pc with
    | closing | recheck =>
      simp only [exec, recvPost] at ran
      split_ifs at ran <;> cases ran <;> simp [holders, Frame.holds]
    | call socket => cases input <;> cases ran <;> simp [holders, Frame.holds, Io.sends]
    | _ =>
      cases ran
      simp [holders, Frame.holds, modify_m_isSendPending]
  | sendPost session pc => exact sendPost_holders ran
  | findRemove id mark cause =>
    simp only [exec, findRemove] at ran
    split at ran <;> cases ran <;> simp [holders, Frame.holds]
  | removeSession session cause pc =>
    cases pc with
    | closing | ioCount | swap | drain | rest =>
      simp only [exec, removeSession] at ran
      split_ifs at ran <;> cases ran <;> simp [holders, Frame.holds, modify_m_isSendPending]
    | _ =>
      cases ran
      simp [holders, Frame.holds, modify_m_isSendPending]
  | findSend packet =>
    simp only [exec, findSend] at ran
    split at ran <;> cases ran <;> simp [holders, Frame.holds]
  | sendPacket session packet pc =>
    cases pc with
    | enqueue =>
      cases ran
      simp [holders, Frame.holds, modify_m_isSendPending]
    | free | pending =>
      simp only [exec, sendPacket] at ran
      split_ifs at ran <;> cases ran <;> simp [holders, Frame.holds]
  | drop packet =>
    cases ran
    simp [holders, Frame.holds]

/-- A step that does not take from the ring or set the packet count lets the session drift. -/
theorem exec_drift {frame : Frame} (ran : exec s frame input = some (s', left)) (later : ¬ frame.prepares k)
    (joined : ∀ session sock pc, frame = .accepting session sock pc → session.slot = k → 8 ≤ pc.stage)
    (keeps : ¬ frame.takes k) : Drift frame (s.slots k) (s'.slots k) := by
  by_cases own : frame.slot = some k
  · have writes := exec_writes ran own
    generalize s.slots k = x at writes ⊢
    generalize s'.slots k = y at writes ⊢
    cases writes with
    | nothing => exact .refl _
    | issue slot socket => exact absurd (by simpa [Frame.prepares] using Option.some.inj own) later
    | prepare client socket pc _ _ early =>
      exact absurd (decide_eq_true ⟨Option.some.inj own, early⟩) later
    | ring client socket => exact absurd (joined _ _ _ rfl (Option.some.inj own)) (by decide)
    | store session n | storeCap session | sentTake client i | take session cause =>
      exact absurd (by simpa [Frame.takes] using Option.some.inj own) keeps
    | enqueue session packet => exact ⟨rfl, rfl, .inr ⟨session, packet, rfl, rfl⟩, id⟩
    | mark session cause => exact ⟨rfl, rfl, .inl rfl, fun _ => rfl⟩
    | _ => exact ⟨rfl, rfl, .inl rfl, id⟩
  · rw [(exec_spec ran).1.slots k own]
    exact .refl _

end Specs

end LockFreeCore.CLockFreeCore
