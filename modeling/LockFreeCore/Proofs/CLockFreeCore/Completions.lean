import LockFreeCore.Proofs.CLockFreeCore.Ownership

/-! # The completion of a send

A completion runs through the packets of its own post: it finds each of them at the front of the ring,
dequeues and deletes it. With the order of the posts this makes the send pipeline of a session.
-/

namespace LockFreeCore.CLockFreeCore

open CountedClose Replay

section Runs

variable {m : Machine} {k : ℕ} {id : ℤ}

/-- The loop of a send completion, from packet `i` on. -/
theorem completes {w : ℕ} {client : Handle} {below : List Frame} {rest : List Packet} (packets : List Packet)
    {m : Machine} {i : ℕ} {inputs : List Input}
    (thread : m.threads[w]? = some (.worker client (.sent i) :: below))
    (ring : (m.shared.slots client.slot).m_sendRingBuff = pointers (packets ++ rest))
    (count : i + packets.length = (m.shared.slots client.slot).m_sendPacketCount)
    (steps : inputs.length = 3 * packets.length + 1) :
    ∃ next, replay step m (inputs.map (w, ·)) = some next ∧
      next.shared.log = (packets.map .deleted).reverse ++ m.shared.log ∧
      (next.shared.slots client.slot).m_sendRingBuff = pointers rest ∧
      next.threads[w]? = some (.worker client .sentDone :: below) := by
  induction packets generalizing m i inputs with
  | nil =>
    obtain ⟨input, rfl⟩ := List.length_eq_one_iff.mp steps
    have ran : exec m.shared (.worker client (.sent i)) input = some (m.shared, [.worker client .sentDone]) := by
      simp only [exec, worker]
      rw [if_neg (by simp at count; omega)]
    obtain ⟨next, stepped, shared, thread⟩ := Stacks.step_of_thread thread ran
    refine ⟨next, by rw [List.map_singleton, replay_of_step stepped]; rfl, by rw [shared]; rfl, ?_, thread⟩
    rw [shared]
    exact ring
  | cons packet packets ih =>
    rw [List.length_cons] at count steps
    obtain ⟨first, inputs, rfl⟩ := List.exists_cons_of_length_eq_add_one steps
    obtain ⟨second, inputs, rfl⟩ := List.exists_cons_of_length_eq_add_one (Nat.succ.inj steps)
    obtain ⟨third, inputs, rfl⟩ := List.exists_cons_of_length_eq_add_one (Nat.succ.inj (Nat.succ.inj steps))
    have more : i < (m.shared.slots client.slot).m_sendPacketCount := by omega
    have enough : ¬ (m.shared.slots client.slot).m_sendRingBuff.length < pointerSize := by
      rw [ring, List.cons_append, length_pointers, List.length_cons]
      exact Nat.not_lt.mpr (Nat.le_mul_of_pos_right _ (Nat.succ_pos _))
    have looks : exec m.shared (.worker client (.sent i)) first =
        some (m.shared, [.worker client (.sentSize i)]) := by
      simp only [exec, worker]
      rw [if_pos more]
    obtain ⟨looked, look, same, thread⟩ := Stacks.step_of_thread thread looks
    have sizes : exec looked.shared (.worker client (.sentSize i)) second =
        some (m.shared, [.worker client (.sentTake i)]) := by
      simp only [exec, worker, same]
      rw [if_neg enough]
    obtain ⟨sized, size, same, thread⟩ := Stacks.step_of_thread thread sizes
    have takes : exec sized.shared (.worker client (.sentTake i)) third =
        some ((m.shared.modify client.slot fun session =>
          { session with m_sendRingBuff := pointers (packets ++ rest) }).record (.deleted packet),
          [.worker client (.sent (i + 1))]) := by
      simp only [exec, worker, same, ring, List.cons_append, dequeue_pointers]
      rfl
    obtain ⟨took, take, same, thread⟩ := Stacks.step_of_thread thread takes
    have remaining : inputs.length = 3 * packets.length + 1 := by
      simp only [List.length_cons] at steps
      omega
    obtain ⟨next, ran, log, left, ends⟩ := ih thread (by simp [same]) (by simp [same]; omega) remaining
    refine ⟨next, ?_, ?_, left, ends⟩
    · rw [List.map_cons, replay_of_step look, List.map_cons, replay_of_step size, List.map_cons, replay_of_step take]
      exact ran
    · rw [log, same, List.map_cons, List.reverse_cons, List.append_assoc]
      rfl

/-- A posted send carries the front of the ring. -/
theorem Piped.of_flying (piped : Piped m k) (flies : ⟨⟨k, id⟩, .send⟩ ∈ m.shared.inFlight) : ∃ socket before,
    Lifetime m k id socket before ∧ Sends m k id ∧ m.shared.m_sessionMap.lookup id = some k ∧
      ∃ packets rest, lastPosted k id m.shared.log = some (packets.map some) ∧
        (m.shared.slots k).m_sendRingBuff = pointers (packets ++ rest) ∧
        packets.length = (m.shared.slots k).m_sendPacketCount := by
  rcases piped with unused | ⟨last, preparing, -⟩ | ⟨x, socket, before, life, sends, gone, queue, r, pipeline⟩
  · exact absurd rfl (unused.landed _ flies)
  · exact absurd rfl (preparing.landed _ flies)
  · obtain rfl : id = x := life.flights _ flies rfl
    obtain ⟨-, batch, last, length, -, read⟩ := pipeline.flying _ flies (by simp [Io.sends])
    have listed : m.shared.m_sessionMap.lookup id = some k :=
      life.listed.resolve_right fun gone => (life.alive.sealed gone.2).1 _ flies rfl
    refine ⟨socket, before, life, sends, listed, queue.take batch.length, queue.drop batch.length, ?_, ?_, ?_⟩
    · rw [last, List.map_take]
      exact congrArg some (List.prefix_iff_eq_take.mp read)
    · rw [List.take_append_drop]
      exact pipeline.ring
    · have within := read.length_le
      rw [List.length_map] at within
      rw [List.length_take, Nat.min_eq_left within, length]

/-- A post takes at most 1000 packets, from the front of the ring. -/
theorem Sending.posts_front (sending : Sending m) {label : ℕ × Input} {next : Machine} {sock : ℕ}
    {batch : List (Option Packet)} (stepped : CLockFreeCore.step m label = some next)
    (posted : next.shared.log = .posted k id sock batch :: m.shared.log) : ∃ packets rest,
      batch = packets.map some ∧ packets.length ≤ 1000 ∧
        (m.shared.slots k).m_sendRingBuff = pointers (packets ++ rest) := by
  obtain ⟨frame, left, others, -, ran, frames, -⟩ := Stacks.step_frames stepped
  have member : frame ∈ m.frames := frames.mem_iff.mpr List.mem_cons_self
  rcases (exec_spec ran).1.log with same | ⟨event, records, grown⟩
  · rw [posted] at same
    exact absurd (congrArg List.length same) (by simp)
  · obtain ⟨rfl, -⟩ := List.cons.inj (grown.symm.trans posted)
    obtain ⟨-, session, rfl, rfl⟩ := records
    obtain ⟨x, socket, before, life, sends, gone, queue, r, pipeline⟩ :=
      (sending.piped session.slot).lifetime member rfl Bool.false_ne_true
    obtain ⟨length, few, read⟩ := (pipeline.threads _ member rfl).1
    refine ⟨queue.take batch.length, queue.drop batch.length, ?_, ?_, ?_⟩
    · rw [List.map_take]
      exact List.prefix_iff_eq_take.mp read
    · rw [List.length_take]
      omega
    · rw [List.take_append_drop]
      exact pipeline.ring

/-- In a run without interruption at most one send of a session is in flight; its packets are posted in
the order in which they were enqueued, in batches of at most 1000 from the front of the ring; no packet
is deleted before its send has completed, and then exactly the packets of that send are. -/
theorem send_pipeline {slots : ℕ → Session} {sessionMax workerMax apps : ℕ} {labels : List (ℕ × Input)}
    {target : Machine} (uninterrupted : Along CLockFreeCore.step Uninterrupted (start slots sessionMax workerMax apps) labels)
    (run : replay CLockFreeCore.step (start slots sessionMax workerMax apps) labels = some target) :
    (∀ k, target.shared.inFlight.countP (Io.sends k) ≤ 1) ∧
    (∀ k id, postedOn k id target.shared.log <+: (enqueuedOn k id target.shared.log).map some) ∧
    (∀ label next k id sock batch, CLockFreeCore.step target label = some next →
      next.shared.log = .posted k id sock batch :: target.shared.log → ∃ packets rest,
        batch = packets.map some ∧ packets.length ≤ 1000 ∧
          (target.shared.slots k).m_sendRingBuff = pointers (packets ++ rest)) ∧
    ∀ k id, ⟨⟨k, id⟩, .send⟩ ∈ target.shared.inFlight → ∃ packets rest,
      lastPosted k id target.shared.log = some (packets.map some) ∧
      (target.shared.slots k).m_sendRingBuff = pointers (packets ++ rest) ∧
      (∀ packet ∈ packets,
        (observed CLockFreeCore.step passing (start slots sessionMax workerMax apps) labels).count packet ≤ 1 →
          .deleted packet ∉ target.shared.log) ∧
      ∀ w index cbTransferred (inputs : List Input) below, target.threads[w]? = some (.getStatus :: below) →
        target.shared.inFlight[index]? = some ⟨⟨k, id⟩, .send⟩ → 0 < cbTransferred →
        inputs.length = 3 * packets.length + 1 → ∃ next,
          replay CLockFreeCore.step target ((w, .complete index cbTransferred) :: inputs.map (w, ·)) = some next ∧
          next.shared.log = (packets.map .deleted).reverse ++ target.shared.log ∧
          (next.shared.slots k).m_sendRingBuff = pointers rest ∧
          next.threads[w]? = some (.worker ⟨k, id⟩ .sentDone :: below) := by
  obtain ⟨sending, owned⟩ := Accounted.run uninterrupted run
  refine ⟨fun k => ?_, sending.ordered, fun label next k id sock batch => sending.posts_front, ?_⟩
  · rcases sending.piped k with unused | ⟨last, preparing, -⟩ | ⟨id, socket, before, life, sends, -⟩
    · rw [List.countP_eq_zero.mpr fun io flies posted => unused.landed io flies (Io.slot_of_sends posted)]
      exact Nat.zero_le 1
    · rw [List.countP_eq_zero.mpr fun io flies posted => preparing.landed io flies (Io.slot_of_sends posted)]
      exact Nat.zero_le 1
    · have lock := sends.lock
      have bit := Bool.toNat_le (target.shared.slots k).m_isSendPending
      rw [holders] at lock
      omega
  · intro k id flies
    obtain ⟨socket, before, life, sends, listed, packets, rest, last, ring, count⟩ :=
      (sending.piped k).of_flying flies
    refine ⟨packets, rest, last, ring, fun packet member once => ?_, ?_⟩
    · have addressee : packet.addressee = id := by
        refine sends.ring ⟨packet, 0⟩ ?_
        rw [ring, ← List.count_pos_iff, count_pointers]
        exact List.count_pos_iff.mpr (List.mem_append_left rest member)
      have inside : 0 < held target.shared packet := by
        rw [held, addressee, listed]
        simp only [ring, count_pointers]
        exact List.count_pos_iff.mpr (List.mem_append_left rest member)
      have total := owned packet
      rw [accounted] at total
      rw [← List.count_eq_zero]
      omega
    · intro w index cbTransferred inputs below thread found positive steps
      have completed : exec target.shared .getStatus (.complete index cbTransferred) =
          some ({ target.shared with inFlight := target.shared.inFlight.eraseIdx index },
            [.worker ⟨k, id⟩ (.sent 0)]) := by
        simp only [exec, getStatus, found, Option.map_some, if_neg (Nat.ne_of_gt positive)]
      obtain ⟨middle, begins, shared, thread⟩ := Stacks.step_of_thread thread completed
      obtain ⟨next, ran, log, left, ends⟩ := completes packets thread (by rw [shared]; exact ring)
        (by rw [shared, Nat.zero_add]; exact count) steps
      refine ⟨next, ?_, by rw [log, shared], left, ends⟩
      rw [replay_of_step begins]
      exact ran

end Runs

/-- A second packet is enqueued while the send of the first one is in flight. -/
def sendsTwo : List (ℕ × Input) := sendsToFirst ++ (2, .sendPacket ⟨0, 6⟩) :: goes 2 4

theorem send_pipeline_sendsTwo :
    let source := start (fun _ => unwritten) 1 1 1
    let target := (replay step source sendsTwo).get (by decide)
    ∃ packets rest, lastPosted 0 0 target.shared.log = some (packets.map some) ∧
      (target.shared.slots 0).m_sendRingBuff = pointers (packets ++ rest) ∧ ∃ next,
        replay step target ((1, .complete 0 8) ::
          (List.replicate (3 * packets.length + 1) Input.go).map ((1 : ℕ), ·)) = some next ∧
        next.shared.log = (packets.map .deleted).reverse ++ target.shared.log ∧
        (next.shared.slots 0).m_sendRingBuff = pointers rest := by
  intro source target
  have all := @send_pipeline (fun _ => unwritten) 1 1 1 sendsTwo target (by decide) (Option.some_get (by decide)).symm
  obtain ⟨packets, rest, last, ring, -, completion⟩ := all.2.2.2 0 0 (by decide)
  obtain ⟨next, ran, log, left, -⟩ := completion 1 0 8 (List.replicate (3 * packets.length + 1) .go) []
    (by decide) (by decide) (by decide) List.length_replicate
  exact ⟨packets, rest, last, ring, next, ran, log, left⟩

end LockFreeCore.CLockFreeCore
