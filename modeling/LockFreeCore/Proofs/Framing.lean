import LockFreeCore.Model.Framing
import LockFreeCore.Proofs.CRingBuff

/-! # Framing does not depend on how the stream is cut

The reference cuts a whole byte stream into payloads. What follows the last whole packet of a
stream is parsed on when more bytes arrive, so a prefix that has been parsed can be replaced by its
unparsed end. After every completion the receive ring holds exactly that end of the bytes received
so far, wherever it lies around the buffer.
-/

namespace LockFreeCore.Framing

open CPacket (HEADER_SIZE MAX_PACKET_SIZE)

/-- What the reference makes of a stream: the payloads, the bytes that follow them, and whether a
bad header stopped it there. -/
structure Parsed where
  payloads : List (List UInt8)
  rest : List UInt8
  stopped : Bool
deriving DecidableEq, Repr

/-- Read a length, stop for good if it is bad, emit that many bytes when they have all arrived. -/
def parse : List UInt8 → Parsed
  | low :: high :: stream =>
    if header [low, high] < 0 ∨ MAX_PACKET_SIZE < header [low, high] then ⟨[], low :: high :: stream, true⟩
    else if stream.length < header [low, high] then ⟨[], low :: high :: stream, false⟩
    else
      let later := parse (stream.drop (header [low, high]).toNat)
      ⟨stream.take (header [low, high]).toNat :: later.payloads, later.rest, later.stopped⟩
  | stream => ⟨[], stream, false⟩
termination_by stream => stream.length
decreasing_by
  rw [List.length_drop, List.length_cons, List.length_cons]
  omega

/-- More bytes are parsed after the payloads that have already been cut off. -/
theorem parse_append (stream more : List UInt8) (going : (parse stream).stopped = false) :
    parse (stream ++ more) = ⟨(parse stream).payloads ++ (parse ((parse stream).rest ++ more)).payloads,
      (parse ((parse stream).rest ++ more)).rest, (parse ((parse stream).rest ++ more)).stopped⟩ := by
  fun_induction parse stream with
  | case1 low high stream bad => simp at going
  | case2 low high stream good waiting => rfl
  | case3 low high stream good whole later ih =>
    have long : (header [low, high]).toNat ≤ stream.length := by omega
    rw [List.cons_append, List.cons_append, parse, if_neg good,
      if_neg (by rw [List.length_append]; omega), List.take_append_of_le_length long,
      List.drop_append_of_le_length long, ih going]
    rfl
  | case4 stream short => rfl

theorem parse_stopped_append {stream : List UInt8} (more : List UInt8) (stopped : (parse stream).stopped = true) :
    (parse (stream ++ more)).stopped = true := by
  fun_induction parse stream with
  | case1 low high stream bad => rw [List.cons_append, List.cons_append, parse, if_pos bad]
  | case2 low high stream good waiting => cases stopped
  | case3 low high stream good whole later ih =>
    have long : (header [low, high]).toNat ≤ stream.length := by omega
    rw [List.cons_append, List.cons_append, parse, if_neg good, if_neg (by rw [List.length_append]; omega),
      List.drop_append_of_le_length long]
    exact ih stopped
  | case4 stream short => cases stopped

/-- What waits for more bytes is less than a packet of the largest size. -/
theorem length_rest_lt {stream : List UInt8} (going : (parse stream).stopped = false) :
    ((parse stream).rest.length : ℤ) < HEADER_SIZE + MAX_PACKET_SIZE := by
  have two : HEADER_SIZE = 2 := rfl
  have most : MAX_PACKET_SIZE = 4000 := rfl
  fun_induction parse stream with
  | case1 low high stream bad => cases going
  | case2 low high stream good waiting =>
    simp only [List.length_cons, Nat.cast_add, Nat.cast_one]
    omega
  | case3 low high stream good whole later ih => exact ih going
  | case4 stream short =>
    match stream with
    | [] | [_] => simp [two, most]
    | low :: high :: rest => exact absurd rfl (short low high rest)

/-- The packet built from the first bytes of the ring carries the payload behind their header. -/
theorem received_pack (allocated : ℤ → UInt8) (low high : UInt8) (payload : List UInt8) (size : ℤ) :
    received (((CPacket.ofSize size allocated).copyIn 0 (low :: high :: payload)).setCur
      (payload.length + HEADER_SIZE)) = payload := by
  have header : HEADER_SIZE = 2 := rfl
  have long : (payload.length + HEADER_SIZE - HEADER_SIZE).toNat = payload.length := by omega
  have split : low :: high :: payload = [low, high] ++ payload := rfl
  rw [received, CPacket.getUseSize, CPacket.setCur, CPacket.copyIn, CPacket.getBuffer]
  simp only [long]
  rw [split, Circular.write_append]
  exact Circular.linear_write

/-- The loop cuts off the payloads that the reference finds in the ring, and leaves it the rest. -/
theorem frames_eq (allocated : ℤ → UInt8) (fuel : ℕ) (conn : Framing) (valid : conn.m_recvRingBuff.Valid)
    (enough : conn.m_recvRingBuff.contents.length < 2 * fuel) :
    ∃ left, frames allocated fuel conn = some (left, (parse conn.m_recvRingBuff.contents).stopped) ∧
      left.m_recvRingBuff.Valid ∧ left.m_recvRingBuff.m_size = conn.m_recvRingBuff.m_size ∧
      left.posted = conn.posted ∧
      left.payloads = conn.payloads ++ (parse conn.m_recvRingBuff.contents).payloads ∧
      left.m_recvRingBuff.contents = (parse conn.m_recvRingBuff.contents).rest := by
  induction fuel generalizing conn with
  | zero => omega
  | succ fuel ih =>
    have two : HEADER_SIZE = (2 : ℕ) := rfl
    have stored := valid.length_contents
    rw [frames]
    by_cases more : HEADER_SIZE ≤ conn.m_recvRingBuff.getUseSize
    · obtain ⟨low, high, stream, shape⟩ : ∃ low high stream,
          conn.m_recvRingBuff.contents = low :: high :: stream := by
        match same : conn.m_recvRingBuff.contents with
        | low :: high :: stream => exact ⟨low, high, stream, rfl⟩
        | [_] | [] => simp [same] at stored; omega
      have peeked : conn.m_recvRingBuff.peek HEADER_SIZE = some [low, high] := by
        rw [two, valid.peek (by omega), shape]
        rfl
      rw [shape] at stored enough ⊢
      simp only [List.length_cons] at stored enough
      simp only [if_pos more, peeked, Option.bind_some]
      rw [parse]
      by_cases bad : header [low, high] < 0 ∨ MAX_PACKET_SIZE < header [low, high]
      · simp only [if_pos bad]
        exact ⟨conn, rfl, valid, rfl, rfl, (List.append_nil _).symm, shape⟩
      · simp only [if_neg bad]
        by_cases waiting : (stream.length : ℤ) < header [low, high]
        · simp only [if_pos waiting]
          rw [if_pos (by omega)]
          exact ⟨conn, rfl, valid, rfl, rfl, (List.append_nil _).symm, shape⟩
        · obtain ⟨count, length⟩ := Int.eq_ofNat_of_zero_le (show 0 ≤ header [low, high] by omega)
          rw [length] at waiting ⊢
          have whole : ((2 + count : ℕ) : ℤ) ≤ conn.m_recvRingBuff.getUseSize := by omega
          obtain ⟨ring, took, valid', size, left, _⟩ := valid.dequeue whole
          have ask : HEADER_SIZE + (count : ℤ) = (2 + count : ℕ) := by omega
          have bytes : (low :: high :: stream).take (2 + count) = low :: high :: stream.take count := by
            rw [Nat.add_comm]
            rfl
          have remain : (low :: high :: stream).drop (2 + count) = stream.drop count := by
            rw [Nat.add_comm]
            rfl
          have taken : (stream.take count).length = count := by
            rw [List.length_take]
            omega
          rw [shape, bytes] at took
          rw [shape, remain] at left
          simp only [if_neg waiting, Int.toNat_natCast]
          rw [if_neg (by omega), ask, took, Option.bind_some]
          obtain ⟨last, looped, held, same, quiet, emitted, kept⟩ := ih { conn with
            m_recvRingBuff := ring, delivered := conn.delivered ++ [((CPacket.ofSize (2 + count : ℕ)
              allocated).copyIn 0 (low :: high :: stream.take count)).setCur (count + HEADER_SIZE)] }
            valid' (by rw [left, List.length_drop]; omega)
          have payload := received_pack allocated low high (stream.take count) (2 + count : ℕ)
          rw [taken] at payload
          rw [left] at looped emitted kept
          refine ⟨last, looped, held, same.trans size, quiet, ?_, kept⟩
          rw [emitted, payloads, List.map_append, List.map_singleton, payload, List.append_assoc]
          rfl
    · -- fewer bytes than a header: nothing to cut off
      rw [if_neg more]
      have short : parse conn.m_recvRingBuff.contents = ⟨[], conn.m_recvRingBuff.contents, false⟩ := by
        match same : conn.m_recvRingBuff.contents with
        | low :: high :: stream => simp [same] at stored; omega
        | [_] | [] => rw [parse]; simp
      rw [short]
      exact ⟨conn, rfl, valid, rfl, rfl, (List.append_nil _).symm, rfl⟩

/-- A receive brings at least one byte and fits what the ring offered when it was posted. -/
def Admissible (conn : Framing) (bytes : List UInt8) : Prop :=
  conn.posted.isSome ∧ 1 ≤ bytes.length ∧
    (bytes.length : ℤ) ≤ min conn.m_recvRingBuff.getDirectWriteSize conn.m_recvRingBuff.getFreeSize

/-- The connection has handed over the reference parse of the bytes received so far, and waits with
the unparsed rest in its ring; it has posted a receive unless a bad header stopped it. -/
structure Framed (stream : List UInt8) (conn : Framing) : Prop where
  valid : conn.m_recvRingBuff.Valid
  size : conn.m_recvRingBuff.m_size = DEFAULT_BUFFER_SIZE
  delivered : conn.payloads = (parse stream).payloads
  rest : conn.m_recvRingBuff.contents = (parse stream).rest
  posted : conn.posted = if (parse stream).stopped then none
    else some ⟨conn.m_recvRingBuff.getUseWriteBuffer, conn.m_recvRingBuff.getDirectWriteSize⟩

theorem framed_accepted (allocated : ℤ → UInt8) : Framed [] (accepted allocated) where
  valid := CRingBuff.init_valid (by decide) allocated
  size := rfl
  delivered := by rw [parse]; rfl; simp
  rest := by
    rw [parse]
    · exact CRingBuff.init_contents _ allocated
    · simp
  posted := by rw [parse]; rfl; simp

/-- An admissible completion is handled to the end, and the parse goes on with its bytes. -/
theorem Framed.recvCompletion {allocated : ℤ → UInt8} {stream bytes : List UInt8} {conn : Framing}
    (framed : Framed stream conn) (admissible : Admissible conn bytes) :
    ∃ next, recvCompletion allocated conn bytes = some next ∧ Framed (stream ++ bytes) next := by
  obtain ⟨valid, size, delivered, rest, posted⟩ := framed
  obtain ⟨waiting, _, fits⟩ := admissible
  have going : (parse stream).stopped = false := by
    by_contra stopped
    rw [posted, if_pos (by simpa using stopped)] at waiting
    contradiction
  rw [going, if_neg (by decide)] at posted
  obtain ⟨ring, arrived, valid', size', contents, use⟩ := CRingBuff.directWrite_contents valid
    (fits.trans (min_le_left _ _)) (fits.trans (min_le_right _ _))
  obtain ⟨stored, copied, rfl⟩ := Option.map_eq_some_iff.mp arrived
  have long := valid'.length_contents
  have bounds := valid'.useSize_bounds
  obtain ⟨last, looped, held, same, quiet, emitted, kept⟩ := frames_eq allocated
    (stored.moveRearPos bytes.length).m_size.toNat
    { conn with m_recvRingBuff := stored.moveRearPos bytes.length, posted := none } valid'
    (by simp only; omega)
  simp only [contents, rest] at looped emitted kept
  have whole := parse_append stream bytes going
  have ran : Framing.recvCompletion allocated conn bytes = some
      (if (parse ((parse stream).rest ++ bytes)).stopped then last else last.recvPost) := by
    rw [Framing.recvCompletion, posted, Option.bind_some, copied, Option.bind_some]
    exact congrArg (Option.map _) looped
  refine ⟨_, ran, ?_⟩
  have payloads : last.payloads = (parse (stream ++ bytes)).payloads := by
    rw [emitted, whole]
    exact congrArg (· ++ _) delivered
  have unparsed : last.m_recvRingBuff.contents = (parse (stream ++ bytes)).rest := by rw [kept, whole]
  have capacity : last.m_recvRingBuff.m_size = DEFAULT_BUFFER_SIZE := (same.trans size').trans size
  have stop : (parse (stream ++ bytes)).stopped = (parse ((parse stream).rest ++ bytes)).stopped := by
    rw [whole]
  rw [← stop]
  cases stopped : (parse (stream ++ bytes)).stopped with
  | true => exact ⟨held, capacity, payloads, unparsed, by rw [stopped, if_pos rfl]; exact quiet⟩
  | false => exact ⟨held, capacity, payloads, unparsed, by rw [stopped]; rfl⟩

/-- While no bad header has come, there is room for one more byte. -/
theorem Framed.admissible {stream : List UInt8} {conn : Framing} (framed : Framed stream conn)
    (going : (parse stream).stopped = false) (byte : UInt8) : Admissible conn [byte] := by
  have few := length_rest_lt going
  have capacity : conn.m_recvRingBuff.m_size = 30000 := framed.size
  have two : HEADER_SIZE = 2 := rfl
  have most : MAX_PACKET_SIZE = 4000 := rfl
  rw [← framed.rest, framed.valid.length_contents, two, most] at few
  have use := framed.valid.useSize
  have direct := framed.valid.directWriteSize
  obtain ⟨_, _, _, _, _⟩ := framed.valid
  refine ⟨by rw [framed.posted, going]; rfl, le_rfl, le_min ?_ ?_⟩
  · rw [direct, List.length_singleton]
    split_ifs at use ⊢ <;> omega
  · rw [CRingBuff.getFreeSize, List.length_singleton]
    omega

/-- Admissible completions one after another are all handled, whatever the ring held before. -/
theorem Framed.replay {allocated : ℤ → UInt8} {stream : List UInt8} {conn : Framing}
    (framed : Framed stream conn) {chunks : List (List UInt8)}
    (cut : Replay.Along (Framing.recvCompletion allocated) Admissible conn chunks) :
    ∃ last, Replay.replay (Framing.recvCompletion allocated) conn chunks = some last ∧
      Framed (stream ++ chunks.flatten) last := by
  induction chunks generalizing stream conn with
  | nil => exact ⟨conn, rfl, by simpa using framed⟩
  | cons bytes chunks ih =>
    obtain ⟨next, completed, framed⟩ := framed.recvCompletion cut.1
    obtain ⟨last, run, framed⟩ := ih framed (cut.2 next completed)
    refine ⟨last, ?_, by simpa using framed⟩
    rw [Replay.replay_of_step completed, run]

/-- Whatever the cut into admissible completions, the payloads handed to `onRecv` are the reference
parse of the bytes received so far; the bytes behind them wait in the ring, and the next receive is
posted unless the reference has stopped. -/
theorem framing_eq_parse (allocated : ℤ → UInt8) (chunks : List (List UInt8))
    (cut : Replay.Along (recvCompletion allocated) Admissible (accepted allocated) chunks) :
    ∃ conn, Replay.replay (recvCompletion allocated) (accepted allocated) chunks = some conn ∧
      conn.payloads = (parse chunks.flatten).payloads ∧
      conn.m_recvRingBuff.contents = (parse chunks.flatten).rest ∧
      conn.posted.isNone = (parse chunks.flatten).stopped := by
  obtain ⟨conn, run, framed⟩ := (framed_accepted allocated).replay cut
  refine ⟨conn, run, framed.delivered, framed.rest, ?_⟩
  rw [framed.posted, List.nil_append]
  cases (parse chunks.flatten).stopped <;> rfl

/-- A packet of one byte that arrives in two pieces. -/
theorem framing_eq_parse_split :
    ∃ conn, Replay.replay (recvCompletion fun _ => 0) (accepted fun _ => 0) [[1], [0, 7]] = some conn ∧
      conn.payloads = (parse [[1], [0, 7]].flatten).payloads ∧
      conn.m_recvRingBuff.contents = (parse [[1], [0, 7]].flatten).rest ∧
      conn.posted.isNone = (parse [[1], [0, 7]].flatten).stopped := by
  refine framing_eq_parse (fun _ => 0) [[1], [0, 7]] ⟨⟨by decide, by decide, by decide⟩, fun next first => ?_⟩
  obtain rfl := Option.some.inj first
  exact ⟨⟨rfl, by decide, by decide⟩, fun _ _ => trivial⟩

end LockFreeCore.Framing
