import LockFreeCore.Proofs.CPacket.Extraction
import LockFreeCore.Proofs.Framing

/-! # Receives always offer room, and packets come full

What waits in the ring between two completions is less than a packet of the largest size, so there is room to
post a receive for, whatever length the completions have: also one that fills the buffer and makes the ring
look empty. Every packet handed to `onRecv` fills its allocation, and the guard of `getData` wants as many free bytes
behind the payload as it is asked for.
-/

namespace LockFreeCore.Framing

open CPacket (HEADER_SIZE MAX_PACKET_SIZE)

variable {allocated : ℤ → UInt8} {conn left : Framing} {fuel : ℕ} {stopped : Bool}

theorem recvCompletion_eq {bytes : List UInt8} : recvCompletion allocated conn bytes =
    (conn.arrived bytes).bind fun conn => (frames allocated conn.m_recvRingBuff.m_size.toNat conn).map
      fun (conn, protocolError) => if protocolError then conn else conn.recvPost := by
  rw [recvCompletion, arrived]
  cases conn.posted with
  | none => rfl
  | some wsabuf =>
    rw [Option.bind_some, Option.bind_some]
    cases conn.m_recvRingBuff.store wsabuf.buf bytes.length (fun i => bytes.getD i.toNat 0) 0 <;> rfl

/-- The framing loop never asks for more than the ring holds. -/
theorem dequeues_le {ring : CRingBuff} {call : CRingBuff × ℤ} (made : call ∈ dequeues fuel ring) :
    HEADER_SIZE ≤ call.2 ∧ call.2 ≤ HEADER_SIZE + MAX_PACKET_SIZE ∧ call.2 ≤ call.1.getUseSize := by
  induction fuel generalizing ring with
  | zero => cases made
  | succ fuel ih =>
    rw [dequeues] at made
    split_ifs at made with more
    · cases peeked : ring.peek HEADER_SIZE with
      | none => simp [peeked] at made
      | some bytes =>
        rw [peeked, Option.elim_some] at made
        split_ifs at made with bad waiting
        · cases made
        · cases made
        · rcases List.mem_cons.mp made with rfl | later
          · refine ⟨?_, ?_, ?_⟩ <;> dsimp only <;> omega
          · cases took : ring.dequeue (HEADER_SIZE + header bytes) with
            | none => simp [took] at later
            | some taken =>
              rw [took, Option.elim_some] at later
              exact ih later
    · cases made

/-- Each call of the framing loop makes a packet of the size it asks for. -/
theorem frames_delivered (valid : conn.m_recvRingBuff.Valid) (ran : frames allocated fuel conn = some (left, stopped)) :
    ∃ parts : List (List UInt8), left.delivered = conn.delivered ++ parts.map (pack allocated) ∧
      parts.map (fun bytes => (bytes.length : ℤ)) = (dequeues fuel conn.m_recvRingBuff).map Prod.snd := by
  induction fuel generalizing conn with
  | zero => cases ran
  | succ fuel ih =>
    rw [frames] at ran
    rw [dequeues]
    split_ifs at ran ⊢ with more
    · obtain ⟨peeked, front, ran⟩ := Option.bind_eq_some_iff.mp ran
      rw [front, Option.elim_some]
      split_ifs at ran ⊢ with bad waiting
      · cases ran
        exact ⟨[], (List.append_nil _).symm, rfl⟩
      · cases ran
        exact ⟨[], (List.append_nil _).symm, rfl⟩
      · obtain ⟨⟨bytes, ring⟩, took, ran⟩ := Option.bind_eq_some_iff.mp ran
        obtain ⟨count, size⟩ := Int.eq_ofNat_of_zero_le (show 0 ≤ HEADER_SIZE + header peeked by
          have two : HEADER_SIZE = 2 := rfl
          omega)
        obtain ⟨rest, dequeued, valid', -, -, -⟩ := valid.dequeue (show (count : ℤ) ≤ _ by omega)
        have long := valid.length_contents
        rw [size] at took ran ⊢
        rw [dequeued] at took
        obtain ⟨rfl, rfl⟩ := Prod.mk.inj (Option.some.inj took)
        have taken : ((conn.m_recvRingBuff.contents.take count).length : ℤ) = count := by
          rw [List.length_take]
          omega
        have cursor : header peeked + HEADER_SIZE = count := by omega
        rw [cursor] at ran
        obtain ⟨parts, made, sizes⟩ := ih valid' ran
        refine ⟨conn.m_recvRingBuff.contents.take count :: parts, ?_, ?_⟩
        · rw [made, List.map_cons, pack, taken, List.append_assoc]
          rfl
        · rw [dequeued, Option.elim_some, List.map_cons, List.map_cons, sizes, taken]
    · cases ran
      exact ⟨[], (List.append_nil _).symm, rfl⟩

/-- A completion brings at least one byte and at most as many as were posted. -/
def Completes (conn : Framing) (bytes : List UInt8) : Prop :=
  ∃ wsabuf, conn.posted = some wsabuf ∧ 1 ≤ bytes.length ∧ (bytes.length : ℤ) ≤ wsabuf.len

/-- Less than a packet of the largest size waits in the ring while a receive is posted, which has the length that
the ring offers. -/
structure Ready (conn : Framing) : Prop where
  valid : conn.m_recvRingBuff.Valid
  size : conn.m_recvRingBuff.m_size = DEFAULT_BUFFER_SIZE
  waiting : conn.posted.isSome → conn.m_recvRingBuff.getUseSize < HEADER_SIZE + MAX_PACKET_SIZE
  posted : ∀ wsabuf, conn.posted = some wsabuf →
    wsabuf = ⟨conn.m_recvRingBuff.getUseWriteBuffer, conn.m_recvRingBuff.getDirectWriteSize⟩

/-- There is room to post a receive for. -/
theorem Ready.directWriteSize_pos (ready : Ready conn)
    (few : conn.m_recvRingBuff.getUseSize < HEADER_SIZE + MAX_PACKET_SIZE) :
    1 ≤ conn.m_recvRingBuff.getDirectWriteSize := by
  have capacity : conn.m_recvRingBuff.m_size = 30000 := ready.size
  have two : HEADER_SIZE = 2 := rfl
  have most : MAX_PACKET_SIZE = 4000 := rfl
  have use := ready.valid.useSize
  have direct := ready.valid.directWriteSize
  obtain ⟨_, _, _, _, _⟩ := ready.valid
  rw [direct]
  split_ifs at use ⊢ <;> omega

theorem ready_accepted (allocated : ℤ → UInt8) : Ready (accepted allocated) where
  valid := CRingBuff.init_valid (by decide) allocated
  size := rfl
  waiting _ := by
    have empty : (accepted allocated).m_recvRingBuff.getUseSize = 0 := rfl
    rw [empty]
    decide
  posted _ same := (Option.some.inj same).symm

/-- What a completion does: the framing loop comes to its end, and unless a header was bad it leaves less than a
packet of the largest size, and a receive of at least one byte is posted. -/
structure Handled (allocated : ℤ → UInt8) (conn : Framing) (bytes : List UInt8) (start left : Framing)
    (protocolError : Bool) : Prop where
  arrived : conn.arrived bytes = some start
  looped : frames allocated start.m_recvRingBuff.m_size.toNat start = some (left, protocolError)
  asked : ∀ call ∈ dequeues start.m_recvRingBuff.m_size.toNat start.m_recvRingBuff, call.2 ≤ call.1.getUseSize
  bad : protocolError = true → recvCompletion allocated conn bytes = some left
  few : protocolError = false → left.m_recvRingBuff.getUseSize < HEADER_SIZE + MAX_PACKET_SIZE
  room : protocolError = false → 1 ≤ left.m_recvRingBuff.getDirectWriteSize
  posts : protocolError = false → recvCompletion allocated conn bytes = some left.recvPost

/-- The bytes of a completion of any length that was posted arrive. -/
theorem Ready.arrived {bytes : List UInt8} (ready : Ready conn) (completes : Completes conn bytes) :
    ∃ start, conn.arrived bytes = some start ∧ start.m_recvRingBuff.Valid ∧
      start.m_recvRingBuff.m_size = DEFAULT_BUFFER_SIZE ∧ start.delivered = conn.delivered ∧ start.posted = none := by
  obtain ⟨wsabuf, posted, -, fits⟩ := completes
  obtain rfl := ready.posted wsabuf posted
  obtain ⟨stored, copied, moved⟩ := Option.map_eq_some_iff.mp (CRingBuff.directWrite_eq ready.valid fits)
  refine ⟨{ conn with m_recvRingBuff := conn.m_recvRingBuff.appended bytes, posted := none }, ?_,
    ready.valid.appended bytes, ready.size, rfl, rfl⟩
  rw [Framing.arrived, posted, Option.bind_some, copied, Option.map_some, moved]

/-- A completion of any length that was posted is handled. -/
theorem Ready.handled {bytes : List UInt8} (ready : Ready conn) (completes : Completes conn bytes) :
    ∃ start left protocolError, Handled allocated conn bytes start left protocolError ∧
      ∃ next, recvCompletion allocated conn bytes = some next ∧ Ready next := by
  obtain ⟨start, arrived, valid, size, -, idle⟩ := ready.arrived completes
  have long := valid.length_contents
  have bounds := valid.useSize_bounds
  obtain ⟨left, looped, held, same, quiet, -, kept⟩ := frames_eq allocated start.m_recvRingBuff.m_size.toNat start valid
    (by omega)
  rw [idle] at quiet
  have completed := @recvCompletion_eq allocated conn bytes
  rw [arrived, Option.bind_some, looped, Option.map_some] at completed
  have few (going : (parse start.m_recvRingBuff.contents).stopped = false) :
      left.m_recvRingBuff.getUseSize < HEADER_SIZE + MAX_PACKET_SIZE := by
    rw [← held.length_contents, kept]
    exact length_rest_lt going
  have post (stop : (parse start.m_recvRingBuff.contents).stopped = false) : Ready left.recvPost :=
    ⟨held, same.trans size, fun _ => few stop, fun _ same => (Option.some.inj same).symm⟩
  refine ⟨start, left, _, ⟨arrived, looped, fun call made => (dequeues_le made).2.2, fun bad => ?_, few, fun going => ?_,
    fun going => ?_⟩, ?_⟩
  · rw [completed, bad]
    rfl
  · exact (post going).directWriteSize_pos (few going)
  · rw [completed, going]
    rfl
  · refine ⟨_, completed, ?_⟩
    cases stop : (parse start.m_recvRingBuff.contents).stopped with
    | true => exact ⟨held, same.trans size, fun waits => by simp [quiet] at waits, fun _ posts => by simp [quiet] at posts⟩
    | false => exact post stop

/-- In every run of completions of any lengths that were posted, each further one is handled, and every receive that is
posted has room for at least one byte. -/
theorem recvPost_pos (allocated : ℤ → UInt8) (chunks : List (List UInt8))
    (cut : Replay.Along (recvCompletion allocated) Completes (accepted allocated) chunks) :
    ∃ conn, Replay.replay (recvCompletion allocated) (accepted allocated) chunks = some conn ∧
      (∀ wsabuf, conn.posted = some wsabuf → wsabuf.len = conn.m_recvRingBuff.getDirectWriteSize ∧ 1 ≤ wsabuf.len) ∧
      ∀ bytes, Completes conn bytes →
        ∃ start left protocolError, Handled allocated conn bytes start left protocolError := by
  obtain ⟨conn, run, ready⟩ := Replay.completes Ready (fun conn bytes ready completes => by
    obtain ⟨-, -, -, -, next, done, ready'⟩ := @Ready.handled allocated conn bytes ready completes
    exact ⟨next, done, ready'⟩) (ready_accepted allocated) cut
  refine ⟨conn, run, fun wsabuf posted => ?_, fun bytes completes => ?_⟩
  · have room := ready.directWriteSize_pos (ready.waiting (by rw [posted]; rfl))
    rw [ready.posted wsabuf posted]
    exact ⟨rfl, room⟩
  · obtain ⟨start, left, protocolError, handled, -⟩ := @Ready.handled allocated conn bytes ready completes
    exact ⟨start, left, protocolError, handled⟩

/-- A packet of one byte that arrives in two pieces. -/
theorem recvPost_pos_split :
    ∃ conn, Replay.replay (recvCompletion fun _ => 0) (accepted fun _ => 0) [[1], [0, 7]] = some conn ∧
      (∀ wsabuf, conn.posted = some wsabuf → wsabuf.len = conn.m_recvRingBuff.getDirectWriteSize ∧ 1 ≤ wsabuf.len) ∧
      ∀ bytes, Completes conn bytes →
        ∃ start left protocolError, Handled (fun _ => 0) conn bytes start left protocolError := by
  refine recvPost_pos (fun _ => 0) [[1], [0, 7]] ⟨⟨_, rfl, by decide, by decide⟩, fun next first => ?_⟩
  obtain rfl := Option.some.inj first
  exact ⟨⟨_, rfl, by decide, by decide⟩, fun _ _ => trivial⟩

/-- Every packet handed to `onRecv` is one the loop makes of a header and a payload of an admitted size. -/
theorem delivered_pack {chunks : List (List UInt8)} {conn : Framing} {packet : CPacket}
    (cut : Replay.Along (recvCompletion allocated) Completes (accepted allocated) chunks)
    (run : Replay.replay (recvCompletion allocated) (accepted allocated) chunks = some conn)
    (handed : packet ∈ conn.delivered) : ∃ bytes, packet = pack allocated bytes ∧ HEADER_SIZE ≤ bytes.length ∧
      bytes.length ≤ HEADER_SIZE + MAX_PACKET_SIZE := by
  refine (Replay.invariant (fun conn => Ready conn ∧ ∀ packet ∈ conn.delivered, ∃ bytes, packet = pack allocated bytes ∧
    HEADER_SIZE ≤ bytes.length ∧ bytes.length ≤ HEADER_SIZE + MAX_PACKET_SIZE) ?_
    ⟨ready_accepted allocated, fun _ absent => absurd absent List.not_mem_nil⟩ cut run).2 packet handed
  rintro conn bytes next ⟨ready, known⟩ completes done
  obtain ⟨start, left, protocolError, handled, next', done', ready'⟩ := @Ready.handled allocated conn bytes ready completes
  obtain ⟨start', arrived, valid, -, before, -⟩ := ready.arrived completes
  rw [handled.arrived] at arrived
  obtain rfl := Option.some.inj arrived
  rw [done] at done'
  obtain rfl := Option.some.inj done'
  have same : next.delivered = left.delivered := by
    cases stop : protocolError with
    | true =>
      obtain rfl := Option.some.inj (done.symm.trans (handled.bad stop))
      rfl
    | false =>
      obtain rfl := Option.some.inj (done.symm.trans (handled.posts stop))
      rfl
  obtain ⟨parts, made, sizes⟩ := frames_delivered valid handled.looped
  refine ⟨ready', fun packet member => ?_⟩
  rw [same, made, before] at member
  rcases List.mem_append.mp member with old | new
  · exact known packet old
  · obtain ⟨part, inside, rfl⟩ := List.mem_map.mp new
    have length : (part.length : ℤ) ∈ parts.map fun bytes => (bytes.length : ℤ) :=
      List.mem_map_of_mem inside
    rw [sizes] at length
    obtain ⟨call, called, size⟩ := List.mem_map.mp length
    obtain ⟨least, most, -⟩ := dequeues_le called
    rw [size] at least most
    exact ⟨part, rfl, least, most⟩

/-- What an application finds that reads a packet with `getData`: consecutive slices of the payload, and so the bytes
that any `setData` calls have put into a packet of the same contents. -/
structure ReadsRaw (packet : CPacket) (payload : List UInt8) (sizes : List ℕ) : Prop where
  slices : packet.Slices payload sizes
  appended : ∀ size allocated (buffs : List (List UInt8)), HEADER_SIZE + buffs.flatten.length ≤ size →
    received ((CPacket.ofSize size allocated).fillAll (buffs.map .setData)) = payload →
      ∃ parts left, packet.getDataAll sizes = some (parts, left) ∧ parts.flatten = buffs.flatten.take sizes.sum

theorem fillAll_setData {packet : CPacket} {buffs : List (List UInt8)}
    (room : packet.m_curSize + buffs.flatten.length ≤ packet.m_size) : packet.fillAll (buffs.map .setData) =
      ⟨packet.m_size, packet.m_curSize + buffs.flatten.length,
        Circular.write packet.m_buffer packet.m_curSize buffs.flatten⟩ := by
  induction buffs generalizing packet with
  | nil => simp [CPacket.fillAll]
  | cons buff rest ih =>
    rw [List.flatten_cons, List.length_append, Nat.cast_add] at room
    have step : packet.fillAll ((buff :: rest).map .setData) = (packet.setData buff).fillAll (rest.map .setData) := rfl
    have put : packet.setData buff = ⟨packet.m_size, packet.m_curSize + buff.length,
        Circular.write packet.m_buffer packet.m_curSize buff⟩ := if_pos (by omega)
    rw [step, put, ih (by dsimp only; omega), List.flatten_cons, Circular.write_append, List.length_append, Nat.cast_add,
      add_assoc]

/-- `setData` calls that fit put their bytes one behind the other. -/
theorem received_setData {size : ℤ} {buffs : List (List UInt8)} (fits : HEADER_SIZE + buffs.flatten.length ≤ size) :
    received ((CPacket.ofSize size allocated).fillAll (buffs.map .setData)) = buffs.flatten := by
  have whole : (HEADER_SIZE + buffs.flatten.length - HEADER_SIZE).toNat = buffs.flatten.length := by omega
  rw [fillAll_setData fits, received, CPacket.getUseSize]
  change Circular.linear _ HEADER_SIZE (HEADER_SIZE + buffs.flatten.length - HEADER_SIZE).toNat = _
  rw [whole]
  exact Circular.linear_write

/-- A received packet gives its payload to `getData` only when nothing is asked for. -/
theorem readsRaw_iff (allocated : ℤ → UInt8) (low high : UInt8) (payload : List UInt8) (sizes : List ℕ)
    (fits : sizes.sum ≤ payload.length) :
    ReadsRaw (pack allocated (low :: high :: payload)) payload sizes ↔ ∀ size ∈ sizes, size = 0 := by
  have full : (pack allocated (low :: high :: payload)).m_curSize = (pack allocated (low :: high :: payload)).m_size := rfl
  have started : HEADER_SIZE ≤ (pack allocated (low :: high :: payload)).m_curSize := by
    have two : HEADER_SIZE = 2 := rfl
    change HEADER_SIZE ≤ ((low :: high :: payload).length : ℤ)
    rw [List.length_cons, List.length_cons]
    omega
  have exact := @CPacket.slices_iff _ payload sizes full started fits
  refine ⟨fun reads => exact.mp reads.slices, fun zero => ⟨exact.mpr zero, fun size other buffs room same => ?_⟩⟩
  rw [received_setData room] at same
  rw [same]
  exact (exact.mpr zero).getDataAll

/-- Nothing is asked for, twice. -/
theorem readsRaw_nothing : ReadsRaw (pack (fun _ => 0) [2, 0, 7, 8]) [7, 8] [0, 0] :=
  (readsRaw_iff (fun _ => 0) 2 0 [7, 8] [0, 0] (by decide)).mpr (by simp)

/-- Asked for the first byte of its payload, a received packet gives nothing. -/
theorem first_byte_refused : (pack (fun _ => 0) [2, 0, 7, 8]).getDataAll [1] =
      some ([[]], pack (fun _ => 0) [2, 0, 7, 8]) ∧
    ¬ReadsRaw (pack (fun _ => 0) [2, 0, 7, 8]) [7, 8] [1] := by
  refine ⟨rfl, fun reads => ?_⟩
  obtain ⟨next, read, -⟩ := reads.slices
  have other : ((pack (fun _ => 0) [2, 0, 7, 8]).getData 1).map Prod.fst ≠ some [7] := by decide
  exact other (congrArg (Option.map Prod.fst) read)

end LockFreeCore.Framing
