import LockFreeCore.Proofs.CLockFreeCore.Ownership

/-! # What becomes of a packet

A packet that was passed to `sendPacket` is deleted once, by the time its session has left the table,
unless `sendPacket` finds no session, or one whose ring is not drained any more.
-/

namespace LockFreeCore.CLockFreeCore

open CountedClose Replay

/-- `sendPacket` looks up the packet's session and finds none, or one that is torn down and has room in
its ring. -/
def Misses (packet : Packet) (m : Machine) (label : ℕ × Input) : Prop :=
  m.top label.1 = some (.findSend packet) ∧ match m.shared.m_sessionMap.lookup packet.addressee with
    | some k => (m.shared.slots k).m_isTornDown ∧
        pointerSize ≤ capacity - (m.shared.slots k).m_sendRingBuff.length
    | none => True

instance (packet : Packet) (m : Machine) (label : ℕ × Input) : Decidable (Misses packet m label) := by
  unfold Misses
  cases m.shared.m_sessionMap.lookup packet.addressee <;> infer_instance

/-- The tear-down has emptied the ring, and its session is still in the table. -/
def RemovePc.drained : RemovePc → Bool
  | .rest | .socket | .close _ | .leave | .erase => true
  | _ => false

/-- A call that still has the packet found a session that is not torn down, or there is no room. -/
def Standing (packet : Packet) (m : Machine) : Prop :=
  ∀ session pc, .sendPacket session packet pc ∈ m.frames → pc ≠ .pending →
    (m.shared.slots session.slot).m_isTornDown →
      ¬ pointerSize ≤ capacity - (m.shared.slots session.slot).m_sendRingBuff.length

/-- The packet is not in a ring that has been drained. -/
def Drained (packet : Packet) (m : Machine) : Prop :=
  ∀ session cause pc, .removeSession session cause pc ∈ m.frames → pc.drained →
    ⟨packet, 0⟩ ∉ (m.shared.slots session.slot).m_sendRingBuff

section Runs

variable {m next : Machine} {label : ℕ × Input} {packet : Packet}

theorem Standing.step (standing : Standing packet m) (sending : Sending m) (uninterrupted : Uninterrupted m label)
    (finds : ¬ Misses packet m label) (stepped : step m label = some next) : Standing packet next := by
  intro session pc member early
  obtain ⟨frame, left, top, ran, member⟩ := uninterrupted.left_of_call sending.nested stepped member rfl
  rcases (exec_spec ran).2 _ member with ⟨last, rfl⟩ | ⟨rfl, same, found⟩
  · cases last with
    | free =>
      have stands := standing session .free (Stacks.mem_frames_of_top top) (by decide)
      simp only [exec, sendPacket] at ran
      split_ifs at ran with room <;> obtain ⟨shared, rfl⟩ := Prod.mk.inj (Option.some.inj ran) <;> rw [← shared]
      · exact stands
      · simp at member
    | enqueue =>
      obtain ⟨-, rfl⟩ := Prod.mk.inj (Option.some.inj ran)
      simp [early] at member
    | pending =>
      simp only [exec, sendPacket] at ran
      split_ifs at ran <;> obtain ⟨-, rfl⟩ := Prod.mk.inj (Option.some.inj ran) <;> simp at member
  · rw [same] at found
    simp only [exec, findSend, found] at ran
    obtain ⟨shared, -⟩ := Prod.mk.inj (Option.some.inj ran)
    rw [← shared]
    intro torn room
    refine finds ⟨top, ?_⟩
    rw [found]
    exact ⟨torn, room⟩

/-- A session that is being torn down is out of use. -/
theorem Lifetime.tearing {k : ℕ} {id : ℤ} {socket before : ℕ} (life : Lifetime m k id socket before)
    {session : Handle} {cause : ℤ} {pc : RemovePc} (member : .removeSession session cause pc ∈ m.frames)
    (here : session.slot = k) (drained : pc.drained) :
    (Frame.removeSession session cause pc).role k id = some .tearing ∧ (m.shared.slots k).m_isTornDown := by
  have tearing : (Frame.removeSession session cause pc).role k id = some .tearing := by
    cases pc <;> first | exact if_pos here | cases drained
  exact ⟨tearing, life.alive.torn_of_tearing member tearing⟩

theorem Drained.step (drained : Drained packet m) (standing : Standing packet m) (sending : Sending m)
    (stepped : CLockFreeCore.step m label = some next) : Drained packet next := by
  obtain ⟨frame, left, others, -, ran, frames, frames'⟩ := Stacks.step_frames stepped
  have here : frame ∈ m.frames := frames.mem_iff.mpr List.mem_cons_self
  intro session cause pc member late
  rcases List.mem_append.mp (frames'.mem_iff.mp member) with inside | inside
  · rcases (exec_spec ran).2 _ inside with ⟨last, rfl⟩ | ⟨mark, rfl, found⟩
    · obtain ⟨id, socket, before, life, sends, gone, queue, r, pipeline⟩ :=
        (sending.piped session.slot).lifetime here rfl Bool.false_ne_true
      have before := drained session cause last here
      cases last with
      | drain =>
        simp only [exec, removeSession] at ran
        split_ifs at ran with enough <;> obtain ⟨shared, rfl⟩ := Prod.mk.inj (Option.some.inj ran)
        · simp only [List.mem_singleton, Frame.removeSession.injEq] at inside
          rw [inside.2.2] at late
          cases late
        · rw [← shared]
          have empty : queue = [] := by
            rw [pipeline.ring, length_pointers] at enough
            rw [← List.length_eq_zero_iff]
            by_contra some
            exact enough (Nat.le_mul_of_pos_right _ (Nat.pos_of_ne_zero some))
          rw [pipeline.ring, empty]
          exact List.not_mem_nil
      | rest =>
        simp only [exec, removeSession] at ran
        split_ifs at ran <;> obtain ⟨shared, -⟩ := Prod.mk.inj (Option.some.inj ran) <;> rw [← shared] <;>
          exact before rfl
      | socket | close sock | leave =>
        obtain ⟨shared, -⟩ := Prod.mk.inj (Option.some.inj ran)
        rw [← shared]
        exact before rfl
      | closing | ioCount | swap =>
        simp only [exec, removeSession] at ran
        split_ifs at ran <;> obtain ⟨-, rfl⟩ := Prod.mk.inj (Option.some.inj ran) <;> simp at inside
        rw [inside] at late
        cases late
      | mark | take | erase =>
        obtain ⟨-, rfl⟩ := Prod.mk.inj (Option.some.inj ran)
        simp at inside
        rw [inside] at late
        cases late
      | push =>
        obtain ⟨-, rfl⟩ := Prod.mk.inj (Option.some.inj ran)
        simp at inside
    · simp only [exec, findRemove, found] at ran
      obtain ⟨-, rfl⟩ := Prod.mk.inj (Option.some.inj ran)
      simp only [List.mem_singleton, Frame.removeSession.injEq] at inside
      rw [inside.2.2] at late
      cases mark <;> cases late
  · have there := frames.mem_iff.mpr (List.mem_cons_of_mem frame inside)
    have before := drained session cause pc there late
    obtain ⟨id, socket, earlier, life, sends, gone, queue, r, pipeline⟩ :=
      (sending.piped session.slot).lifetime there rfl Bool.false_ne_true
    obtain ⟨tearing, torn⟩ := life.tearing there rfl late
    by_cases shifts : frame.shifts session.slot
    · cases frame with
      | sendPacket client first last =>
        cases last with
        | enqueue =>
          have own : client.slot = session.slot := of_decide_eq_true shifts
          have room := (sending.calling _ _ _ here (by decide)).2 rfl
          have other : first ≠ packet := by
            rintro rfl
            exact standing client .enqueue here (by decide) (by rwa [own]) room
          obtain ⟨shared, -⟩ := Prod.mk.inj (Option.some.inj ran)
          rw [← shared, record_slots, ← own, modify_slots_self]
          intro member
          rcases mem_enqueue member with old | new
          · exact before (own ▸ old)
          · exact other new.symm
        | _ => cases shifts
      | worker client last =>
        cases last with
        | sentTake i => exact absurd (if_pos (of_decide_eq_true shifts)) ((life.alive.sealed torn).2 _ here)
        | _ => cases shifts
      | removeSession client reason last =>
        cases last with
        | take => exact absurd tearing (life.alive.tears_once frames (if_pos (of_decide_eq_true shifts)) _ inside)
        | _ => cases shifts
      | _ => cases shifts
    · have joined (client : Handle) (sock : ℕ) (last : AcceptPc) (same : frame = .accepting client sock last)
          (own : client.slot = session.slot) : 8 ≤ last.stage := life.joined client sock last (same ▸ here) own
      rw [(exec_steady ran (life.alive.later frame here) joined shifts (pipeline.threads frame here) pipeline.free).ring]
      exact before

/-- What holds of a packet whose calls all find a session to take it, `seen` the packets passed so far. -/
structure Disposed (packet : Packet) (m : Machine) (seen : List Packet) : Prop where
  sending : Sending m
  standing : Standing packet m
  drained : Drained packet m
  account : accounted m packet = seen.count packet

theorem Disposed.step {seen : List Packet} (disposed : Disposed packet m seen) (uninterrupted : Uninterrupted m label)
    (finds : ¬ Misses packet m label) (stepped : CLockFreeCore.step m label = some next) :
    Disposed packet next (seen ++ (passing m label).toList) where
  sending := disposed.sending.step uninterrupted stepped
  standing := disposed.standing.step disposed.sending uninterrupted finds stepped
  drained := disposed.drained.step disposed.standing disposed.sending stepped
  account := by
    have account := disposed.sending.account stepped packet
    have kept : lost m label packet = 0 := by
      obtain ⟨frame, left, others, top, -, frames, -⟩ := Stacks.step_frames stepped
      have here : frame ∈ m.frames := frames.mem_iff.mpr List.mem_cons_self
      rw [lost, top]
      cases frame with
      | findSend other =>
        have found : (Frame.findSend other).misses m.shared packet = false := by
          refine Bool.eq_false_iff.mpr fun missed => finds ?_
          obtain ⟨rfl, none⟩ : other = packet ∧ m.shared.m_sessionMap.lookup packet.addressee = none := by
            simpa [Frame.misses] using missed
          exact ⟨top, by rw [none]; trivial⟩
        simp [found, Frame.abandons]
      | removeSession session cause pc =>
        cases pc with
        | erase =>
          obtain ⟨id, socket, before, life, -⟩ := (disposed.sending.piped session.slot).lifetime here rfl Bool.false_ne_true
          have listed : m.shared.m_sessionMap.lookup id = some session.slot := (life.progress _ here rfl).1
          have empty := List.count_eq_zero.mpr (disposed.drained session cause .erase here rfl)
          simp only [Frame.misses, Frame.abandons, life.owner, Bool.toNat_false, Nat.zero_add]
          split
          · rename_i own
            rw [held, own, listed]
            exact empty
          · rfl
        | _ => rfl
      | _ => rfl
    have before := disposed.account
    rw [count_append_toList]
    omega

theorem Disposed.start (packet : Packet) (slots : ℕ → Session) (sessionMax workerMax apps : ℕ) :
    Disposed packet (start slots sessionMax workerMax apps) [] where
  sending := Sending.start slots sessionMax workerMax apps
  standing := by
    intro session pc member
    rcases mem_frames_start _ _ _ _ member with same | same | same <;> cases same
  drained := by
    intro session cause pc member
    rcases mem_frames_start _ _ _ _ member with same | same | same <;> cases same
  account := accounted_start slots sessionMax workerMax apps packet

/-- What is in the ring of a session was enqueued. -/
theorem Sending.enqueued_of_held (sending : Sending m) (inside : 0 < held m.shared packet) :
    ∃ k owner, .enqueued k owner packet ∈ m.shared.log := by
  rw [held] at inside
  cases found : m.shared.m_sessionMap.lookup packet.addressee with
  | none => simp [found] at inside
  | some k =>
    obtain ⟨socket, before, life, sends, gone, queue, r, pipeline⟩ := (sending.piped k).of_listed found
    simp only [found, pipeline.ring, count_pointers] at inside
    have member : packet ∈ enqueuedOn k packet.addressee m.shared.log := by
      rw [pipeline.enqueued]
      exact List.mem_append_right _ (List.count_pos_iff.mp inside)
    obtain ⟨event, traffic, same⟩ := List.mem_filterMap.mp member
    obtain ⟨logged, -⟩ := List.mem_filter.mp (List.mem_reverse.mp traffic)
    cases event with
    | enqueued slot owner other =>
      obtain rfl : other = packet := Option.some.inj same
      exact ⟨slot, owner, logged⟩
    | _ => cases same

/-- In a run without interruption, as long as every call with a packet finds a session that can take it,
the packet is deleted as often as it was passed, less its places in the ring of its session: so all of
them once the session has left the table, and each of them that was not enqueued. -/
theorem packets_disposed {slots : ℕ → Session} {sessionMax workerMax apps : ℕ} {labels : List (ℕ × Input)}
    {target : Machine} (packet : Packet)
    (finds : Along CLockFreeCore.step (fun m label => Uninterrupted m label ∧ ¬ Misses packet m label)
      (start slots sessionMax workerMax apps) labels)
    (run : replay CLockFreeCore.step (start slots sessionMax workerMax apps) labels = some target)
    (returned : ∀ frame ∈ target.frames, ¬ frame.carries packet) :
    target.shared.log.count (.deleted packet) + held target.shared packet =
        (observed CLockFreeCore.step passing (start slots sessionMax workerMax apps) labels).count packet ∧
      (target.shared.m_sessionMap.lookup packet.addressee = none →
        target.shared.log.count (.deleted packet) =
          (observed CLockFreeCore.step passing (start slots sessionMax workerMax apps) labels).count packet) ∧
      ((∀ k owner, .enqueued k owner packet ∉ target.shared.log) →
        target.shared.log.count (.deleted packet) =
          (observed CLockFreeCore.step passing (start slots sessionMax workerMax apps) labels).count packet) := by
  have disposed : Disposed packet target
      (observed CLockFreeCore.step passing (start slots sessionMax workerMax apps) labels) :=
    invariant_observed (Disposed packet) (fun _ _ _ _ disposed clean stepped => disposed.step clean.1 clean.2 stepped)
      (Disposed.start packet slots sessionMax workerMax apps) finds run
  have total := disposed.account
  rw [accounted, List.countP_eq_zero.mpr returned, Nat.zero_add] at total
  refine ⟨total, fun gone => ?_, fun unsent => ?_⟩
  · have nothing : held target.shared packet = 0 := by rw [held, gone]
    rwa [nothing] at total
  · have nothing : held target.shared packet = 0 := by
      by_contra inside
      obtain ⟨k, owner, enqueued⟩ := disposed.sending.enqueued_of_held (Nat.pos_of_ne_zero inside)
      exact unsent k owner enqueued
    rwa [nothing] at total

end Runs

/-- A packet for a session that does not exist. -/
def sendsToNobody : List (ℕ × Input) := (2, .sendPacket ⟨7, 5⟩) :: goes 2 1

theorem packet_leaks :
    let source := start (fun _ => unwritten) 1 1 1
    let target := (replay step source sendsToNobody).get (by decide)
    Along step Uninterrupted source sendsToNobody ∧ (∀ stack ∈ target.threads, AtRest stack) ∧
      observed step passing source sendsToNobody = [⟨7, 5⟩] ∧ target.shared.m_sessionMap = ∅ ∧
      .deleted ⟨7, 5⟩ ∉ target.shared.log := by
  decide

/-- The client that was sent a packet goes away, the send completes, and the session is torn down. -/
def sendsAndLeaves : List (ℕ × Input) :=
  sendsToFirst ++ (1, .complete 1 0) :: goes 1 6 ++ (1, .complete 0 8) :: goes 1 17 ++ (1, .leave) :: goes 1 2

set_option maxRecDepth 2000 in
theorem packets_disposed_sendsAndLeaves :
    let source := start (fun _ => unwritten) 1 1 1
    let target := (replay step source sendsAndLeaves).get (by decide)
    target.shared.log.count (.deleted ⟨0, 5⟩) = (observed step passing source sendsAndLeaves).count ⟨0, 5⟩ :=
  (@packets_disposed (fun _ => unwritten) 1 1 1 sendsAndLeaves _ ⟨0, 5⟩ (by decide) (Option.some_get (by decide)).symm
    (by decide)).2.1 (by decide)

end LockFreeCore.CLockFreeCore
