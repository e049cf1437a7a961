import LockFreeCore.Proofs.CLockFreeCore.OneSession

/-! # No packet is left behind

A thread that enqueues looks at `m_isSendPending` afterwards, and the send completion that clears it
looks at the ring afterwards. So in a session that is not closing there is always somebody who will
see to what is in the ring: a post or a completion that is under way, a thread that is about to look
again, or one that is about to close the session.
-/

namespace LockFreeCore.CLockFreeCore

open Replay

/-- The thread is inside `sendPacket`, `sendPost` or the send branch of `workerThread`. -/
def Frame.sending (k : ℕ) : Frame → Bool
  | .sendPacket session _ _ | .sendPost session _ => session.slot = k
  | .worker session pc => session.slot = k && match pc with
    | .sent _ | .sentSize _ | .sentTake _ | .sentDone | .more | .idle => true
    | _ => false
  | _ => false

/-- The thread is going to set `m_isClosing`, after a completion with 0 bytes or a failed `WSASend`, or
inside `removeSession`. -/
def Frame.marks (k : ℕ) (id : ℤ) : Frame → Bool
  | .worker session pc => session.slot = k && (pc = .peerClosed || pc = .peerGone)
  | .sendPost session pc => session.slot = k && pc = .report
  | .findRemove x mark _ => x = id && mark
  | .removeSession session _ pc => session.slot = k && pc = .mark
  | _ => false

/-- The thread is going to look at `m_isSendPending` or the ring once more. -/
def Frame.wakes (k : ℕ) : Frame → Bool
  | .sendPacket session _ pc => session.slot = k && pc = .pending
  | .sendPost session pc => session.slot = k && pc = .exchange
  | .worker session pc => session.slot = k && (pc = .more || pc = .idle)
  | _ => false

/-- The thread has found the session closing and gives the post up. -/
def Frame.givesUp (k : ℕ) : Frame → Bool
  | .sendPost session pc => session.slot = k && (pc = .release || pc = .backOut)
  | _ => false

/-- Who sees to the send ring of a session that is not closing. -/
structure Awake (m : Machine) (k : ℕ) (id : ℤ) : Prop where
  held : (m.shared.slots k).m_isClosing = false → (m.shared.slots k).m_isSendPending →
    (∃ io ∈ m.shared.inFlight, io.sends k) ∨ ∃ frame ∈ m.frames, frame.holds k ∨ frame.marks k id
  woken : (m.shared.slots k).m_isClosing = false → (m.shared.slots k).m_isSendPending = false →
    (m.shared.slots k).m_sendRingBuff ≠ [] → ∃ frame ∈ m.frames, frame.wakes k ∨ frame.marks k id
  closing : ∀ frame ∈ m.frames, frame.givesUp k → (m.shared.slots k).m_isClosing

section Specs

variable {s s' : CLockFreeCore} {frame : Frame} {k : ℕ} {id : ℤ} {left : List Frame} {input : Input}

/-- Who is going to close the session does so. -/
theorem exec_marks (ran : exec s frame input = some (s', left)) (marks : frame.marks k id)
    (owner : (s.slots k).m_sessionId = id) (listed : s.m_sessionMap.lookup id = some k) :
    (∃ f ∈ left, f.marks k id) ∨ (s'.slots k).m_isClosing := by
  cases frame with
  | worker session pc =>
    obtain ⟨rfl, rfl | rfl⟩ : session.slot = k ∧ (pc = .peerClosed ∨ pc = .peerGone) := by
      simpa [Frame.marks] using marks
    · cases ran
      simp [Frame.marks]
    · cases ran
      simp [Frame.marks, owner]
  | sendPost session pc =>
    obtain ⟨rfl, rfl⟩ : session.slot = k ∧ pc = .report := by simpa [Frame.marks] using marks
    cases ran
    simp [Frame.marks, owner]
  | findRemove x mark cause =>
    obtain ⟨rfl, rfl⟩ : x = id ∧ mark = true := by simpa [Frame.marks] using marks
    simp only [exec, findRemove, listed] at ran
    cases ran
    simp [Frame.marks]
  | removeSession session cause pc =>
    obtain ⟨rfl, rfl⟩ : session.slot = k ∧ pc = .mark := by simpa [Frame.marks] using marks
    cases ran
    simp
  | _ => cases marks

/-- `m_isSendPending` is passed on until it is cleared. -/
theorem exec_holds (ran : exec s frame input = some (s', left)) (holds : frame.holds k) :
    (∃ f ∈ left, f.holds k) ∨ (∃ io ∈ s'.inFlight, io.sends k) ∨ (s'.slots k).m_isSendPending = false := by
  have own := Frame.slot_of_holds holds
  cases frame with
  | sendPost session pc =>
    obtain rfl : session.slot = k := Option.some.inj own
    cases pc with
    | exchange | report => simp [Frame.holds] at holds
    | closing | cap | check size | recheck wsabuf =>
      simp only [exec, sendPost] at ran
      split_ifs at ran <;> cases ran <;> simp [Frame.holds]
    | fill c wsabuf =>
      simp only [exec, sendPost] at ran
      split_ifs at ran
      · split at ran <;> cases ran <;> simp [Frame.holds]
      · cases ran
        simp [Frame.holds]
    | buffers wsabuf socket =>
      simp only [exec, sendPost] at ran
      split_ifs at ran
      · cases ran
        simp [Frame.holds]
      · split at ran <;> cases ran <;> simp [Frame.holds]
    | call wsabuf socket => cases input <;> cases ran <;> simp [Frame.holds, Io.sends]
    | _ =>
      cases ran
      simp [Frame.holds]
  | worker session pc =>
    obtain rfl : session.slot = k := Option.some.inj own
    cases pc with
    | sent i | sentSize i =>
      simp only [exec, worker] at ran
      split_ifs at ran <;> cases ran <;> simp [Frame.holds]
    | sentTake i | sentDone =>
      cases ran
      simp [Frame.holds]
    | _ => simp [Frame.holds] at holds
  | _ => cases holds

/-- A posted send stays in flight until a worker gets its completion. -/
theorem exec_flies (id : ℤ) (ran : exec s frame input = some (s', left)) {io : Io} (member : io ∈ s.inFlight)
    (sends : io.sends k) : io ∈ s'.inFlight ∨ ∃ f ∈ left, f.holds k ∨ f.marks k id := by
  rcases exec_inFlight ran with same | ⟨other, -, grown⟩ | ⟨index, cbTransferred, done, rfl, rfl, found, shorter⟩
  · exact .inl (same ▸ member)
  · exact .inl (grown ▸ List.mem_cons_of_mem _ member)
  · obtain ⟨bound, rfl⟩ := List.getElem?_eq_some_iff.mp found
    have taken := (List.getElem_cons_eraseIdx_perm bound).mem_iff.mpr member
    rcases List.mem_cons.mp taken with rfl | member
    · right
      obtain ⟨here, send⟩ : s.inFlight[index].session.slot = k ∧ s.inFlight[index].type = .send := by
        simpa [Io.sends] using sends
      simp only [exec, getStatus, found, Option.map_some, send] at ran
      split_ifs at ran <;> cases ran
      · exact ⟨_, List.mem_singleton_self _, .inr (by simp [Frame.marks, here])⟩
      · exact ⟨_, List.mem_singleton_self _, .inl (by simp [Frame.holds, here])⟩
    · exact .inl (shorter ▸ member)

/-- Only the exchange sets `m_isSendPending`, and few accesses clear it. -/
theorem exec_pending (ran : exec s frame input = some (s', left)) (later : ¬ frame.prepares k) :
    (s'.slots k).m_isSendPending = (s.slots k).m_isSendPending ∨ ∃ session, session.slot = k ∧
      (frame = .sendPost session .exchange ∨ frame = .sendPost session .release ∨
        frame = .sendPost session .failedRelease ∨ frame = .worker session .sentDone) := by
  by_cases own : frame.slot = some k
  · have writes := exec_writes ran own
    generalize s.slots k = x at writes ⊢
    generalize s'.slots k = y at writes ⊢
    cases writes with
    | issue slot socket => exact absurd (by simpa [Frame.prepares] using Option.some.inj own) later
    | prepare client socket pc _ _ early =>
      exact absurd (decide_eq_true ⟨Option.some.inj own, early⟩) later
    | exchange session | release session | failedRelease session =>
      exact .inr ⟨session, Option.some.inj own, by simp⟩
    | sentDone client => exact .inr ⟨client, Option.some.inj own, by simp⟩
    | _ => exact .inl rfl
  · exact .inl (by rw [(exec_spec ran).1.slots k own])

/-- Who has just cleared `m_isSendPending` looks at the ring again, closes the session, or has found it
closing. -/
theorem exec_clears (id : ℤ) (ran : exec s frame input = some (s', left)) (later : ¬ frame.prepares k)
    (set : (s.slots k).m_isSendPending) (clear : (s'.slots k).m_isSendPending = false) :
    frame.givesUp k ∨ ∃ f ∈ left, f.wakes k ∨ f.marks k id := by
  rcases exec_pending ran later with same | ⟨session, rfl, rfl | rfl | rfl | rfl⟩
  · rw [same, set] at clear
    cases clear
  · simp only [exec, sendPost, if_neg (Bool.not_eq_false _ ▸ set)] at ran
    cases ran
    simp at clear
  · exact .inl (by simp [Frame.givesUp])
  · cases ran
    simp [Frame.marks]
  · cases ran
    simp [Frame.wakes]

/-- Who is going to look again finds `m_isSendPending` set, or nothing in the ring, or posts. -/
theorem exec_wakes (ran : exec s frame input = some (s', left)) (wakes : frame.wakes k)
    (clear : (s.slots k).m_isSendPending = false) (waiting : (s.slots k).m_sendRingBuff ≠ []) :
    (∃ f ∈ left, f.wakes k) ∨ (s'.slots k).m_isSendPending := by
  cases frame with
  | sendPacket session packet pc =>
    obtain ⟨rfl, rfl⟩ : session.slot = k ∧ pc = .pending := by simpa [Frame.wakes] using wakes
    simp only [exec, sendPacket, if_pos clear] at ran
    cases ran
    simp [Frame.wakes]
  | sendPost session pc =>
    obtain ⟨rfl, rfl⟩ : session.slot = k ∧ pc = .exchange := by simpa [Frame.wakes] using wakes
    simp only [exec, sendPost, if_pos clear] at ran
    cases ran
    simp
  | worker session pc =>
    obtain ⟨rfl, rfl | rfl⟩ : session.slot = k ∧ (pc = .more ∨ pc = .idle) := by
      simpa [Frame.wakes] using wakes
    · simp only [exec, worker, if_pos (List.length_pos_iff.mpr waiting)] at ran
      cases ran
      simp [Frame.wakes]
    · simp only [exec, worker, if_pos clear] at ran
      cases ran
      simp [Frame.wakes]
  | _ => cases wakes

/-- A post is given up only in a session that is closing. -/
theorem exec_givesUp (ran : exec s frame input = some (s', left))
    (closing : frame.givesUp k → (s.slots k).m_isClosing) {f : Frame} (member : f ∈ left)
    (givesUp : f.givesUp k) : (s.slots k).m_isClosing := by
  cases f with
  | sendPost session pc =>
    simp only [Frame.givesUp, Bool.and_eq_true, decide_eq_true_eq, Bool.or_eq_true] at givesUp
    obtain ⟨rfl, either⟩ := givesUp
    rcases exec_sendPost ran member with ⟨last, rfl⟩ | rfl
    · cases last with
      | closing | recheck wsabuf =>
        simp only [exec, sendPost] at ran
        split_ifs at ran with shut <;> cases ran
        · exact shut
        · simp_all
      | backOut => exact closing (by simp [Frame.givesUp])
      | exchange | cap | check size =>
        simp only [exec, sendPost] at ran
        split_ifs at ran <;> cases ran <;> simp_all
      | fill c wsabuf =>
        simp only [exec, sendPost] at ran
        split_ifs at ran
        · split at ran <;> cases ran <;> simp_all
        · cases ran
          simp_all
      | buffers wsabuf socket =>
        simp only [exec, sendPost] at ran
        split_ifs at ran
        · cases ran
          simp_all
        · split at ran <;> cases ran <;> simp_all
      | call wsabuf socket => cases input <;> cases ran <;> simp_all
      | _ =>
        cases ran
        simp_all
    · simp at either
  | _ => cases givesUp

end Specs

section Runs

variable {m next : Machine} {label : ℕ × Input} {k : ℕ} {id : ℤ} {socket before : ℕ}

/-- A step in a session that is not closing. -/
theorem Lifetime.open_before (life : Lifetime m k id socket before)
    (stepped : CLockFreeCore.step m label = some next) (stays : popped m label ≠ some k)
    (open_ : (next.shared.slots k).m_isClosing = false) : (m.shared.slots k).m_isClosing = false := by
  obtain ⟨_, -, moves⟩ := step_moves id stepped life.alive.later stays
  by_contra closing
  rw [Bool.not_eq_false] at closing
  have after : (next.shared.slots k).m_isClosing := moves.closing closing
  rw [open_] at after
  cases after

theorem Lifetime.listed_of_open (life : Lifetime m k id socket before)
    (open_ : (m.shared.slots k).m_isClosing = false) : m.shared.m_sessionMap.lookup id = some k := by
  refine life.listed.resolve_right fun gone => ?_
  have closing : (m.shared.slots k).m_isClosing := life.alive.sound.closed (.inl gone.2)
  rw [open_] at closing
  cases closing

theorem Awake.step_held (awake : Awake m k id) (life : Lifetime m k id socket before)
    (stepped : CLockFreeCore.step m label = some next) (stays : popped m label ≠ some k)
    (open_ : (next.shared.slots k).m_isClosing = false) (set : (next.shared.slots k).m_isSendPending) :
    (∃ io ∈ next.shared.inFlight, io.sends k) ∨ ∃ frame ∈ next.frames, frame.holds k ∨ frame.marks k id := by
  have was := life.open_before stepped stays open_
  obtain ⟨frame, left, others, top, ran, frames, frames'⟩ := Stacks.step_frames stepped
  have here : frame ∈ m.frames := frames.mem_iff.mpr List.mem_cons_self
  have stay {f : Frame} (member : f ∈ left) : f ∈ next.frames := frames'.mem_iff.mpr (List.mem_append_left _ member)
  cases pending : (m.shared.slots k).m_isSendPending with
  | true =>
    rcases awake.held was pending with ⟨io, member, sends⟩ | ⟨f, member, responsible⟩
    · rcases exec_flies id ran member sends with flies | ⟨f, member, responsible⟩
      · exact .inl ⟨io, flies, sends⟩
      · exact .inr ⟨f, stay member, responsible⟩
    · rcases List.mem_cons.mp (frames.mem_iff.mp member) with rfl | member
      · rcases responsible with holds | marks
        · rcases exec_holds ran holds with ⟨f, member, holds⟩ | flies | clear
          · exact .inr ⟨f, stay member, .inl holds⟩
          · exact .inl flies
          · rw [set] at clear
            cases clear
        · rcases exec_marks ran marks life.owner (life.listed_of_open was) with ⟨f, member, marks⟩ | closing
          · exact .inr ⟨f, stay member, .inr marks⟩
          · rw [open_] at closing
            cases closing
      · exact .inr ⟨f, frames'.mem_iff.mpr (List.mem_append_right _ member), responsible⟩
  | false =>
    right
    rcases exec_pending ran (life.alive.later frame here) with same | ⟨session, rfl, rfl | rfl | rfl | rfl⟩
    · rw [same, pending] at set
      cases set
    · simp only [exec, sendPost, if_pos pending] at ran
      obtain ⟨-, rfl⟩ := Prod.mk.inj (Option.some.inj ran)
      exact ⟨_, stay (List.mem_singleton_self _), .inl (by simp [Frame.holds])⟩
    all_goals
      obtain ⟨shared, -⟩ := Prod.mk.inj (Option.some.inj ran)
      rw [← shared] at set
      simp at set

theorem Awake.step_woken (awake : Awake m k id) (life : Lifetime m k id socket before) (sends : Sends m k id)
    (stepped : CLockFreeCore.step m label = some next) (stays : popped m label ≠ some k)
    (open_ : (next.shared.slots k).m_isClosing = false) (clear : (next.shared.slots k).m_isSendPending = false)
    (waiting : (next.shared.slots k).m_sendRingBuff ≠ []) :
    ∃ frame ∈ next.frames, frame.wakes k ∨ frame.marks k id := by
  have was := life.open_before stepped stays open_
  obtain ⟨frame, left, others, top, ran, frames, frames'⟩ := Stacks.step_frames stepped
  have here : frame ∈ m.frames := frames.mem_iff.mpr List.mem_cons_self
  have later := life.alive.later frame here
  have stay {f : Frame} (member : f ∈ left) : f ∈ next.frames := frames'.mem_iff.mpr (List.mem_append_left _ member)
  cases pending : (m.shared.slots k).m_isSendPending with
  | true =>
    rcases exec_clears id ran later pending clear with givesUp | ⟨f, member, responsible⟩
    · have closing := awake.closing frame here givesUp
      rw [was] at closing
      cases closing
    · exact ⟨f, stay member, responsible⟩
  | false =>
    have keeps : ¬ frame.takes k := by
      intro takes
      by_cases tears : ∃ session cause, frame = .removeSession session cause .take
      · obtain ⟨session, cause, rfl⟩ := tears
        obtain ⟨-, rfl, -⟩ := removeSession_takes ran takes (sends.threads _ here)
        have torn := life.alive.torn_of_tearing here (if_pos rfl)
        have closing : (m.shared.slots session.slot).m_isClosing := life.alive.sound.closed (.inl torn)
        rw [was] at closing
        cases closing
      · simp only [not_exists] at tears
        have set := sends.pending_of_holds here (Frame.holds_of_takes takes tears)
        rw [pending] at set
        cases set
    have joined (session : Handle) (sock : ℕ) (pc : AcceptPc) (same : frame = .accepting session sock pc)
        (own : session.slot = k) : 8 ≤ pc.stage := life.joined session sock pc (same ▸ here) own
    by_cases empty : (m.shared.slots k).m_sendRingBuff = []
    · -- a packet comes into the ring, and its thread looks at `m_isSendPending` next
      rcases (exec_drift ran later joined keeps).ring with same | ⟨session, packet, rfl, longer⟩
      · exact absurd (same.trans empty) waiting
      · have own : session.slot = k := by
          by_contra elsewhere
          have same := (exec_spec ran).1.slots k fun at_slot => elsewhere (Option.some.inj at_slot)
          rw [same] at waiting
          exact waiting empty
        obtain ⟨-, rfl⟩ := Prod.mk.inj (Option.some.inj ran)
        exact ⟨_, stay (List.mem_singleton_self _), .inl (by simp [Frame.wakes, own])⟩
    · obtain ⟨f, member, responsible⟩ := awake.woken was pending empty
      rcases List.mem_cons.mp (frames.mem_iff.mp member) with rfl | member
      · rcases responsible with wakes | marks
        · rcases exec_wakes ran wakes pending empty with ⟨f, member, wakes⟩ | set
          · exact ⟨f, stay member, .inl wakes⟩
          · rw [clear] at set
            cases set
        · rcases exec_marks ran marks life.owner (life.listed_of_open was) with ⟨f, member, marks⟩ | closing
          · exact ⟨f, stay member, .inr marks⟩
          · rw [open_] at closing
            cases closing
      · exact ⟨f, frames'.mem_iff.mpr (List.mem_append_right _ member), responsible⟩

theorem Awake.step (awake : Awake m k id) (life : Lifetime m k id socket before) (sends : Sends m k id)
    (stepped : CLockFreeCore.step m label = some next) (stays : popped m label ≠ some k) : Awake next k id := by
  refine ⟨awake.step_held life stepped stays, awake.step_woken life sends stepped stays, ?_⟩
  obtain ⟨_, -, moves⟩ := step_moves id stepped life.alive.later stays
  obtain ⟨frame, left, others, top, ran, frames, frames'⟩ := Stacks.step_frames stepped
  intro f member givesUp
  apply moves.closing
  rcases List.mem_append.mp (frames'.mem_iff.mp member) with member | member
  · exact exec_givesUp ran (awake.closing frame (frames.mem_iff.mpr List.mem_cons_self)) member givesUp
  · exact awake.closing f (frames.mem_iff.mpr (List.mem_cons_of_mem _ member)) givesUp

theorem Opened.awake (opened : Opened m k id socket) : Awake m k id := by
  refine ⟨fun _ set => ?_, fun _ _ waiting => absurd opened.ring waiting, ?_⟩
  · rw [opened.pending] at set
    cases set
  · intro frame member givesUp
    have here : frame.slot = some k := by
      cases frame with
      | sendPost session pc =>
        simp only [Frame.givesUp, Bool.and_eq_true, decide_eq_true_eq] at givesUp
        exact congrArg some givesUp.1
      | _ => cases givesUp
    rw [eq_of_alone opened.alone member here] at givesUp
    cases givesUp

theorem Frame.sending_of_holds {frame : Frame} (holds : frame.holds k) : frame.sending k := by
  cases frame with
  | sendPost session pc => exact decide_eq_true (Option.some.inj (Frame.slot_of_holds holds))
  | worker session pc => cases pc <;> simp_all [Frame.holds, Frame.sending]
  | _ => cases holds

theorem Frame.sending_of_wakes {frame : Frame} (wakes : frame.wakes k) : frame.sending k := by
  cases frame with
  | sendPacket session packet pc => simp_all [Frame.wakes, Frame.sending]
  | sendPost session pc => simp_all [Frame.wakes, Frame.sending]
  | worker session pc => cases pc <;> simp_all [Frame.wakes, Frame.sending]
  | _ => cases wakes

/-- In the run of a session that is not closing, when nobody is inside the functions that send and
nobody is about to close it, packets in the ring wait for a send that is in flight. -/
theorem no_stranded_packet {slots : ℕ → Session} {sessionMax workerMax apps : ℕ}
    {first labels : List (ℕ × Input)} {target : Machine}
    (reached : replay CLockFreeCore.step (start slots sessionMax workerMax apps) first = some m)
    (opened : Opened m k id socket)
    (stays : Along CLockFreeCore.step (fun m label => popped m label ≠ some k) m labels)
    (run : replay CLockFreeCore.step m labels = some target)
    (open_ : (target.shared.slots k).m_isClosing = false)
    (quiet : ∀ frame ∈ target.frames, ¬ frame.sending k ∧ ¬ frame.marks k id)
    (waiting : (target.shared.slots k).m_sendRingBuff ≠ []) :
    (target.shared.slots k).m_isSendPending ∧ ⟨⟨k, id⟩, .send⟩ ∈ target.shared.inFlight := by
  obtain ⟨⟨before, life⟩, -, awake⟩ := opened.along (P := fun _ _ => True) (Q := fun m => Awake m k id) reached
    (stays.imp fun _ _ stays => ⟨stays, trivial⟩) run opened.awake
    fun m label next before _ life sends awake _ stays stepped => awake.step life sends stepped stays
  have nobody {frame : Frame} (member : frame ∈ target.frames) (part : frame.sending k ∨ frame.marks k id) : False :=
    part.elim (quiet frame member).1 (quiet frame member).2
  cases pending : (target.shared.slots k).m_isSendPending with
  | false =>
    obtain ⟨frame, member, responsible⟩ := awake.woken open_ pending waiting
    exact (nobody member (responsible.imp_left Frame.sending_of_wakes)).elim
  | true =>
    refine ⟨rfl, ?_⟩
    rcases awake.held open_ pending with ⟨io, member, sends⟩ | ⟨frame, member, responsible⟩
    · obtain ⟨here, type⟩ : io.session.slot = k ∧ io.type = .send := by simpa [Io.sends] using sends
      have own := life.flights io member here
      obtain ⟨⟨slot, owner⟩, kind⟩ := io
      cases here
      cases type
      cases own
      exact member
    · exact (nobody member (responsible.imp_left Frame.sending_of_holds)).elim

end Runs

theorem no_stranded_packet_sendsBehind :
    let m := (replay step (start (fun _ => unwritten) 1 1 2) opensFirst).get (by decide)
    let target := (replay step m sendsBehind).get (by decide)
    (target.shared.slots 0).m_sendRingBuff = pointer ⟨0, 5⟩ ++ pointer ⟨0, 6⟩ ∧
      (target.shared.slots 0).m_isSendPending ∧ ⟨⟨0, 0⟩, .send⟩ ∈ target.shared.inFlight :=
  ⟨by decide, no_stranded_packet (Option.some_get _).symm opened_opensFirst (by decide)
    (Option.some_get _).symm (by decide) (by decide) (by decide)⟩

end LockFreeCore.CLockFreeCore
