import LockFreeCore.Model.Wire
import LockFreeCore.Proofs.CPacket.Building
import LockFreeCore.Proofs.Framing

/-! # What is sent comes out of the framing loop

On the wire a packet is its size as a `short` followed by the payload. The reference parse of a sequence of
packets gives their payloads back exactly when the loop accepts every size: a larger one is taken for a
bad header, or is not the number of bytes that follow. A stream can be fed byte by byte up to the first bad
header, since the ring is never full.
-/

namespace LockFreeCore.Wire

open CPacket (HEADER_SIZE MAX_PACKET_SIZE)
open Framing

/-- A packet as an application makes it. -/
def Built (pack : CPacket) : Prop := ∃ size allocated fills, HEADER_SIZE ≤ size ∧
  pack = (CPacket.ofSize size allocated).fillAll fills

/-- So is one made by the calls with `int` sums, as long as an `int` holds each of these. -/
theorem built_buildAll {size : ℤ} (least : HEADER_SIZE ≤ size) (allocated : ℤ → UInt8) {fills : List CPacket.Fill}
    (tame : CPacket.Tame size ⟨Circular.linear allocated 0 2, []⟩ (fills.map CPacket.Fill.toBuild)) :
    Built ((CPacket.ofSize size allocated).buildAll (fills.map CPacket.Fill.toBuild)) :=
  ⟨size, allocated, fills, least, (CPacket.holds_ofSize least allocated).buildAll_eq tame⟩

theorem fill_m_curSize (pack : CPacket) (fill : CPacket.Fill) : pack.m_curSize ≤ (pack.fill fill).m_curSize := by
  cases fill with
  | put value =>
    rw [CPacket.fill, CPacket.put_eq, CPacket.insert]
    split_ifs
    · exact Int.le_add_of_nonneg_right (Int.natCast_nonneg _)
    · exact le_rfl
  | setData buff =>
    rw [CPacket.fill, CPacket.setData]
    split_ifs
    · exact Int.le_add_of_nonneg_right (Int.natCast_nonneg _)
    · exact le_rfl

/-- The cursor of a packet never comes back into the header. -/
theorem Built.header_le {pack : CPacket} (built : Built pack) : HEADER_SIZE ≤ pack.m_curSize := by
  obtain ⟨size, allocated, fills, _, rfl⟩ := built
  have grows (pack : CPacket) : pack.m_curSize ≤ (pack.fillAll fills).m_curSize := by
    induction fills generalizing pack with
    | nil => exact le_rfl
    | cons fill rest ih => exact (fill_m_curSize pack fill).trans (ih (pack.fill fill))
  exact grows (CPacket.ofSize size allocated)

/-- The header and the payload on the wire. -/
theorem bytes_eq {pack sent : CPacket} {freeSize : ℤ} (header : HEADER_SIZE ≤ pack.m_curSize)
    (accepted : sendPacket freeSize pack = some sent) :
    bytes sent = LittleEndian.store (BitVec.ofInt (8 * 2) pack.getUseSize) ++ received pack := by
  obtain ⟨count, size⟩ := Int.eq_ofNat_of_zero_le (Int.sub_nonneg_of_le header)
  have two : HEADER_SIZE = (2 : ℕ) := rfl
  have total : pack.m_curSize.toNat = 2 + count := by omega
  have whole : (LittleEndian.store (BitVec.ofInt (8 * 2) pack.getUseSize)).take 2 =
      LittleEndian.store (BitVec.ofInt (8 * 2) pack.getUseSize) :=
    List.take_of_length_le (LittleEndian.length_store _).le
  rw [sendPacket] at accepted
  split_ifs at accepted
  obtain rfl := Option.some.inj accepted
  rw [bytes, CPacket.setHeader, whole]
  change Circular.linear (Circular.write pack.m_buffer 0 _) 0 pack.m_curSize.toNat = _
  rw [total, Circular.linear_add]
  refine congrArg₂ (· ++ ·) Circular.linear_write ?_
  rw [received, CPacket.getUseSize, size]
  refine Circular.linear_congr fun i _ => Circular.write_of_ge ?_
  rw [LittleEndian.length_store]
  omega

/-- The header that the framing loop reads is the `short` that was sent. -/
theorem header_store (size : BitVec (8 * 2)) : header (LittleEndian.store size) = size.toInt := by
  rw [header, LittleEndian.load_store]

theorem length_received {pack : CPacket} (header : HEADER_SIZE ≤ pack.m_curSize) :
    ((received pack).length : ℤ) = pack.getUseSize := by
  have two : HEADER_SIZE = 2 := rfl
  rw [received, Circular.length_linear, CPacket.getUseSize]
  omega

/-- What the loop makes of a stream that starts with a size. -/
theorem parse_store (size : BitVec (8 * 2)) (stream : List UInt8) : parse (LittleEndian.store size ++ stream) =
    if size.toInt < 0 ∨ MAX_PACKET_SIZE < size.toInt then ⟨[], LittleEndian.store size ++ stream, true⟩
    else if stream.length < size.toInt then ⟨[], LittleEndian.store size ++ stream, false⟩
    else ⟨stream.take size.toInt.toNat :: (parse (stream.drop size.toInt.toNat)).payloads,
      (parse (stream.drop size.toInt.toNat)).rest, (parse (stream.drop size.toInt.toNat)).stopped⟩ := by
  obtain ⟨low, high, shape⟩ := List.length_eq_two.mp (LittleEndian.length_store size)
  rw [← header_store size, shape, List.cons_append, List.cons_append, List.nil_append, parse]

/-- The wire bytes of a sequence of packets, each with the size that was sent for it. -/
theorem parse_wire {packs : List CPacket} (headers : ∀ pack ∈ packs, HEADER_SIZE ≤ pack.m_curSize) :
    let stream := packs.flatMap fun pack =>
      LittleEndian.store (BitVec.ofInt (8 * 2) pack.getUseSize) ++ received pack
    ((parse stream).payloads = packs.map received ∧ (parse stream).stopped = false) ↔
      ∀ pack ∈ packs, pack.getUseSize ≤ MAX_PACKET_SIZE := by
  induction packs with
  | nil => simp [parse]
  | cons pack rest ih =>
    obtain ⟨here, later⟩ := List.forall_mem_cons.mp headers
    have length := length_received here
    have most : MAX_PACKET_SIZE = 4000 := rfl
    dsimp only at ih ⊢
    rw [List.flatMap_cons, List.append_assoc, parse_store, List.forall_mem_cons, ← ih later]
    constructor
    · rintro ⟨same, going⟩
      split_ifs at same going with bad waiting
      · cases same
      · obtain ⟨first, others⟩ := List.cons_eq_cons.mp same
        -- the header that was read is the number of bytes of this payload
        have count : (BitVec.ofInt (8 * 2) pack.getUseSize).toInt.toNat = (received pack).length := by
          rw [← first, List.length_take]
          omega
        rw [count, List.drop_left] at others going
        exact ⟨by omega, others, going⟩
    · rintro ⟨small, others, going⟩
      have kept : (BitVec.ofInt (8 * 2) pack.getUseSize).toInt = pack.getUseSize := by
        rw [BitVec.toInt_ofInt]
        exact Int.bmod_eq_of_le (by omega) (by omega)
      have count : pack.getUseSize.toNat = (received pack).length := by omega
      rw [kept, if_neg (by omega), if_neg (by rw [List.length_append]; omega), count, List.drop_left, List.take_left]
      exact ⟨congrArg (received pack :: ·) others, going⟩

/-- Any stream can be fed byte by byte, up to its first bad header. -/
theorem feedable (allocated : ℤ → UInt8) (stream : List UInt8) : ∃ fed, fed <+: stream ∧
    Replay.Along (recvCompletion allocated) Admissible (accepted allocated) (fed.map fun byte => [byte]) ∧
    (fed = stream ∨ (parse fed).stopped = true) := by
  induction stream using List.reverseRecOn with
  | nil => exact ⟨[], List.prefix_rfl, trivial, .inl rfl⟩
  | append_singleton earlier byte ih =>
    obtain ⟨fed, first, cut, ends⟩ := ih
    cases stopped : (parse fed).stopped with
    | true => exact ⟨fed, first.trans (List.prefix_append ..), cut, .inr stopped⟩
    | false =>
      obtain rfl := ends.resolve_right (by simp [stopped])
      refine ⟨fed ++ [byte], List.prefix_rfl, ?_, .inl rfl⟩
      rw [List.map_append, Replay.along_append]
      refine ⟨cut, fun conn run => ⟨?_, fun _ _ => trivial⟩⟩
      obtain ⟨conn', run', framed⟩ := (framed_accepted allocated).replay cut
      obtain rfl := Option.some.inj (run.symm.trans run')
      have bytes : (fed.map fun byte => [byte]).flatten = fed := by rw [← List.flatMap_def]; exact List.flatMap_singleton' fed
      rw [List.nil_append, bytes] at framed
      exact framed.admissible stopped byte

/-- Whatever room the send ring has and however the stream is cut, the framing loop meets no bad header, and when
it has got all the bytes it has delivered exactly the payloads. -/
def RoundTrips (packs : List CPacket) : Prop :=
  ∀ sents, List.Forall₂ (fun pack sent => ∃ freeSize, sendPacket freeSize pack = some sent) packs sents →
    ∀ allocated chunks, chunks.flatten <+: sents.flatMap bytes →
      Replay.Along (recvCompletion allocated) Admissible (accepted allocated) chunks →
        ∃ conn, Replay.replay (recvCompletion allocated) (accepted allocated) chunks = some conn ∧
          conn.posted.isSome ∧ (chunks.flatten = sents.flatMap bytes → conn.payloads = packs.map received)

theorem parse_sent {packs sents : List CPacket} (built : ∀ pack ∈ packs, Built pack)
    (accepted : List.Forall₂ (fun pack sent => ∃ freeSize, sendPacket freeSize pack = some sent) packs sents) :
    ((parse (sents.flatMap bytes)).payloads = packs.map received ∧ (parse (sents.flatMap bytes)).stopped = false) ↔
      ∀ pack ∈ packs, pack.getUseSize ≤ MAX_PACKET_SIZE := by
  have headers (pack : CPacket) (member : pack ∈ packs) : HEADER_SIZE ≤ pack.m_curSize := (built pack member).header_le
  have wire : sents.flatMap bytes = packs.flatMap fun pack =>
      LittleEndian.store (BitVec.ofInt (8 * 2) pack.getUseSize) ++ received pack := by
    clear built
    induction accepted with
    | nil => rfl
    | cons sent _ ih =>
      obtain ⟨here, later⟩ := List.forall_mem_cons.mp headers
      obtain ⟨freeSize, enqueued⟩ := sent
      rw [List.flatMap_cons, List.flatMap_cons, ih later, bytes_eq here enqueued]
  rw [wire]
  exact parse_wire headers

/-- Sizes that the loop accepts are enough. -/
theorem roundTrips_of_le {packs : List CPacket} (built : ∀ pack ∈ packs, Built pack)
    (small : ∀ pack ∈ packs, pack.getUseSize ≤ MAX_PACKET_SIZE) : RoundTrips packs := by
  intro sents accepted allocated chunks first cut
  obtain ⟨payloads, going⟩ := (parse_sent built accepted).mpr small
  obtain ⟨conn, run, framed⟩ := (framed_accepted allocated).replay cut
  rw [List.nil_append] at framed
  obtain ⟨more, whole⟩ := first
  have fine : (parse chunks.flatten).stopped = false := by
    by_contra stopped
    have later := parse_stopped_append more (by simpa using stopped)
    rw [whole, going] at later
    cases later
  refine ⟨conn, run, by rw [framed.posted, fine]; rfl, fun all => ?_⟩
  rw [framed.delivered, all, payloads]

/-- A sequence with a larger packet fails when it is fed byte by byte. -/
theorem RoundTrips.le {packs : List CPacket} (built : ∀ pack ∈ packs, Built pack) (trips : RoundTrips packs) :
    ∀ pack ∈ packs, pack.getUseSize ≤ MAX_PACKET_SIZE := by
  have enqueue (pack : CPacket) : ∃ sent, sendPacket SendPacket.pointerSize pack = some sent :=
    ⟨_, by rw [sendPacket, if_pos le_rfl]⟩
  choose sent enqueued using enqueue
  have accepted : List.Forall₂ (fun pack sent => ∃ freeSize, sendPacket freeSize pack = some sent) packs
      (packs.map sent) :=
    List.forall₂_map_right_iff.mpr (List.forall₂_same.mpr fun pack _ => ⟨_, enqueued pack⟩)
  obtain ⟨fed, first, cut, ends⟩ := feedable (fun _ => 0) ((packs.map sent).flatMap bytes)
  have whole : (fed.map fun byte => [byte]).flatten = fed := by
    rw [← List.flatMap_def]
    exact List.flatMap_singleton' fed
  obtain ⟨conn, run, posted, delivered⟩ := trips _ accepted _ _ (by rwa [whole]) cut
  obtain ⟨conn', run', framed⟩ := (framed_accepted fun _ => 0).replay cut
  obtain rfl := Option.some.inj (run.symm.trans run')
  rw [List.nil_append, whole] at framed
  have going : (parse fed).stopped = false := by
    by_contra stopped
    rw [framed.posted, if_pos (by simpa using stopped)] at posted
    cases posted
  obtain rfl := ends.resolve_right (by simp [going])
  exact (parse_sent built accepted).mp ⟨framed.delivered.symm.trans (delivered whole), going⟩

/-- Packets come back as they were sent exactly when none has a payload larger than the loop accepts. -/
theorem wire_round_trip_iff (packs : List CPacket) (built : ∀ pack ∈ packs, Built pack) :
    RoundTrips packs ↔ ∀ pack ∈ packs, pack.getUseSize ≤ MAX_PACKET_SIZE :=
  ⟨RoundTrips.le built, roundTrips_of_le built⟩

/-- Two values and three bytes in two packets. -/
theorem wire_round_trip_two :
    let packs := [(CPacket.ofSize 512 fun _ => 0).fillAll [.put ⟨.int, 7⟩, .put ⟨.byte, 1⟩],
      (CPacket.ofSize 5 fun _ => 9).fillAll [.setData [1, 2, 3], .put ⟨.WORD, 4⟩]]
    packs.map received = [[7, 0, 0, 0, 1], [1, 2, 3]] ∧
      (RoundTrips packs ↔ ∀ pack ∈ packs, pack.getUseSize ≤ MAX_PACKET_SIZE) := by
  refine ⟨by decide, wire_round_trip_iff _ ?_⟩
  rintro pack (_ | ⟨_, _ | ⟨_, ⟨⟩⟩⟩)
  · exact ⟨512, fun _ => 0, _, by decide, rfl⟩
  · exact ⟨5, fun _ => 9, _, by decide, rfl⟩

/-- A packet of any payload size can be made. -/
theorem exists_built (payload : List UInt8) : ∃ pack, Built pack ∧ pack.getUseSize = payload.length := by
  have two : HEADER_SIZE = 2 := rfl
  refine ⟨(CPacket.ofSize (HEADER_SIZE + payload.length) fun _ => 0).fillAll [.setData payload],
    ⟨_, _, _, by omega, rfl⟩, ?_⟩
  change (CPacket.setData _ payload).getUseSize = payload.length
  simp only [CPacket.setData, CPacket.ofSize, le_refl, if_true]
  exact add_sub_cancel_left HEADER_SIZE (payload.length : ℤ)

/-- A payload of `2 ^ 16` bytes is sent behind a header that says 0. -/
theorem large_packet_garbled : ∃ pack, Built pack ∧ pack.getUseSize = 2 ^ 16 ∧ ¬RoundTrips [pack] := by
  obtain ⟨payload, length⟩ : ∃ payload : List UInt8, payload.length = 2 ^ 16 :=
    ⟨List.replicate (2 ^ 16) 0, List.length_replicate⟩
  obtain ⟨pack, built, size⟩ := exists_built payload
  rw [length] at size
  refine ⟨pack, built, size, fun trips => ?_⟩
  have small := trips.le (by simpa using built) pack (List.mem_singleton.mpr rfl)
  rw [size] at small
  exact absurd small (by decide)

end LockFreeCore.Wire
