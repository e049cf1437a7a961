import LockFreeCore.Model.EchoServer
import LockFreeCore.Proofs.Framing.Receiving
import LockFreeCore.Proofs.Framing.RoundTrip

/-! # What the echo server answers

A reply carries eight bytes: those that begin the payload when it has so many, and for a payload of six or
seven bytes also what lies behind the packet, since `operator>>` compares its type with the whole packet. With
fewer it carries whatever its variable held. The bytes that are posted or wait to be are the replies to the
payloads of the reference parse, in order, less those that the full send ring refused.
-/

namespace LockFreeCore.EchoServer

open CPacket (HEADER_SIZE)
open Framing

variable {allocated : ℤ → UInt8} {junk : ℕ → Junk}

/-- A frame begins with the two bytes of its header. -/
theorem exists_frame {part : List UInt8} (whole : 2 ≤ part.length) : ∃ low high payload, part = low :: high :: payload := by
  cases part with
  | nil => cases whole
  | cons low rest =>
    cases rest with
    | nil => exact absurd whole (by simp)
    | cons high payload => exact ⟨low, high, payload, rfl⟩

/-- The eight bytes behind the header of a reply. -/
def echoed (allocated : ℤ → UInt8) (junk : Junk) (payload : List UInt8) : List UInt8 :=
  if 6 ≤ payload.length then (payload ++ Circular.linear allocated (HEADER_SIZE + payload.length) 2).take 8
  else LittleEndian.store (n := 8) junk.d

/-- A reply on the wire. -/
def reply (allocated : ℤ → UInt8) (junk : Junk) (payload : List UInt8) : List UInt8 :=
  LittleEndian.store (n := 2) 8 ++ echoed allocated junk payload

/-- The replies to payloads, of which the first is number `count`. -/
def replies (allocated : ℤ → UInt8) (junk : ℕ → Junk) : ℕ → List (List UInt8) → List (List UInt8)
  | _, [] => []
  | count, payload :: rest => reply allocated (junk count) payload :: replies allocated junk (count + 1) rest

theorem length_echoed (allocated : ℤ → UInt8) (junk : Junk) (payload : List UInt8) :
    (echoed allocated junk payload).length = 8 := by
  rw [echoed]
  split_ifs with long
  · rw [List.length_take, List.length_append, Circular.length_linear]
    omega
  · exact LittleEndian.length_store _

/-- A payload that holds a `double` comes back. -/
theorem echoed_of_le {payload : List UInt8} (junk : Junk) (long : 8 ≤ payload.length) :
    echoed allocated junk payload = payload.take 8 := by
  rw [echoed, if_pos (by omega), List.take_append_of_le_length long]

@[simp] theorem length_replies (count : ℕ) (payloads : List (List UInt8)) :
    (replies allocated junk count payloads).length = payloads.length := by
  induction payloads generalizing count with
  | nil => rfl
  | cons payload rest ih => simp [replies, ih]

theorem replies_append (count : ℕ) (first second : List (List UInt8)) :
    replies allocated junk count (first ++ second) =
      replies allocated junk count first ++ replies allocated junk (count + first.length) second := by
  induction first generalizing count with
  | nil => rfl
  | cons payload rest ih =>
    rw [List.cons_append, replies, replies, ih, List.length_cons, List.cons_append, Nat.add_right_comm, Nat.add_assoc]

/-! ## One packet -/

/-- What stands in memory from the payload on. -/
theorem linear_pack (low high : UInt8) (payload : List UInt8) {n : ℕ} (few : n ≤ payload.length + 2) :
    Circular.linear (Framing.pack allocated (low :: high :: payload)).m_buffer HEADER_SIZE n =
      (payload ++ Circular.linear allocated (HEADER_SIZE + payload.length) 2).take n := by
  have two : HEADER_SIZE = 2 := rfl
  have split : low :: high :: payload = [low, high] ++ payload := rfl
  change Circular.linear (Circular.write allocated 0 (low :: high :: payload)) HEADER_SIZE n = _
  rw [split, Circular.write_append]
  apply List.ext_getElem (by simp; omega)
  intro i bound _
  rw [Circular.length_linear] at bound
  simp only [Circular.linear, List.getElem_map, List.getElem_range, List.getElem_take, List.getElem_append]
  split_ifs with inside
  · exact Circular.write_at inside
  · rw [Circular.write_of_ge (by simp only [List.length_cons, List.length_nil]; omega),
      Circular.write_of_ge (by simp only [List.length_cons, List.length_nil]; omega)]
    congr 1
    omega

/-- The value of a `double` that is read, and that there is a packet afterwards. -/
theorem extractDouble_eq (pack : CPacket) (d : BitVec 64) (header : HEADER_SIZE ≤ pack.m_curSize) :
    ∃ left, pack.extractDouble d = some (if 8 ≤ pack.m_curSize then
      LittleEndian.load 8 (Circular.linear pack.m_buffer HEADER_SIZE 8) else d, left) := by
  have two : HEADER_SIZE = 2 := rfl
  rw [CPacket.extractDouble, CPacket.extract, CPacket.size_t_of_nonneg (by omega), Nat.cast_ofNat]
  split_ifs with enough
  · have out : pack.copyOut HEADER_SIZE 8 = some (Circular.linear pack.m_buffer HEADER_SIZE 8) := if_pos (by decide)
    have within : pack.copyOut 8 (pack.m_curSize - HEADER_SIZE) =
      some (Circular.linear pack.m_buffer 8 (pack.m_curSize - HEADER_SIZE).toNat) := if_pos (by omega)
    rw [out, CPacket.copyWithin, within]
    exact ⟨_, rfl⟩
  · exact ⟨_, rfl⟩

/-- A packet of one `double` on the wire. -/
theorem bytes_double {cells : ℤ → UInt8} {value : BitVec 64} {freeSize : ℤ} {sent : CPacket}
    (accepted : Wire.sendPacket freeSize ((CPacket.ofSize 10 cells).insertDouble value) = some sent) :
    Wire.bytes sent = LittleEndian.store (n := 2) 8 ++ LittleEndian.store (n := 8) value := by
  have cursor : (0 : ℤ) ≤ HEADER_SIZE := by decide
  have fits : HEADER_SIZE + (8 : ℕ) ≤ 10 := by decide
  have header : HEADER_SIZE ≤ HEADER_SIZE + (8 : ℕ) := by decide
  have written := @CPacket.insert_eq (CPacket.ofSize 10 cells) 8 value cursor fits
  rw [CPacket.insertDouble, written] at accepted
  rw [Wire.bytes_eq header accepted]
  exact congrArg (_ ++ ·) (Circular.linear_write_of_length (LittleEndian.length_store (n := 8) value))

/-- `onRecv` sends a packet, and its bytes are the reply. -/
theorem onRecv_eq (allocated : ℤ → UInt8) (junk : Junk) (low high : UInt8) (payload : List UInt8) :
    ∃ pack, onRecv junk (Framing.pack allocated (low :: high :: payload)) = some pack ∧
      ∀ freeSize sent, Wire.sendPacket freeSize pack = some sent → Wire.bytes sent = reply allocated junk payload := by
  have two : HEADER_SIZE = 2 := rfl
  have cursor : (Framing.pack allocated (low :: high :: payload)).m_curSize = payload.length + 2 := by
    change ((low :: high :: payload).length : ℤ) = _
    rw [List.length_cons, List.length_cons]
    omega
  obtain ⟨left, read⟩ := extractDouble_eq (Framing.pack allocated (low :: high :: payload)) junk.d (by omega)
  refine ⟨_, by rw [onRecv, read]; rfl, fun freeSize sent accepted => ?_⟩
  rw [bytes_double accepted, reply]
  congr 1
  have whole := length_echoed allocated junk payload
  rw [cursor]
  unfold echoed at whole ⊢
  split_ifs at whole ⊢ with long enough
  · rw [linear_pack low high payload (by omega)]
    exact (LittleEndian.load_eq_iff whole).mp rfl |>.symm
  · omega
  · omega
  · rfl

/-! ## One session -/

namespace Session

variable {s : Session}

/-- The bytes that were posted, and those that wait for the send in flight. -/
def owed (s : Session) : List UInt8 := s.posted ++ s.waiting.flatMap Wire.bytes

/-- The packets of the send in flight are in the ring. -/
def Fits (s : Session) : Prop := s.m_isSendPending = true → s.m_sendPacketCount ≤ s.m_sendRingBuff.length

@[simp] theorem sendPost_conn : s.sendPost.conn = s.conn := by
  rw [sendPost]
  split_ifs <;> rfl

@[simp] theorem sendPost_refused : s.sendPost.refused = s.refused := by
  rw [sendPost]
  split_ifs <;> rfl

@[simp] theorem sendPost_m_isClosing : s.sendPost.m_isClosing = s.m_isClosing := by
  rw [sendPost]
  split_ifs <;> rfl

@[simp] theorem sendPost_m_sendRingBuff : s.sendPost.m_sendRingBuff = s.m_sendRingBuff := by
  rw [sendPost]
  split_ifs <;> rfl

theorem prefix_posted_sendPost : s.posted <+: s.sendPost.posted := by
  rw [sendPost]
  split_ifs with pending closing many
  · exact List.prefix_rfl
  · exact List.prefix_rfl
  all_goals exact List.prefix_append ..

theorem sendPost_fits (fits : s.Fits) : s.sendPost.Fits := by
  rw [sendPost]
  split_ifs with pending closing many
  · exact fits
  · exact fits
  · exact fun _ => many.le
  · exact fun _ => le_rfl

/-- Posting what waits changes nothing about what is owed. -/
@[simp] theorem sendPost_owed : s.sendPost.owed = s.owed := by
  rw [sendPost]
  split_ifs with pending closing many
  · rfl
  · rfl
  all_goals
    simp only [owed, waiting, if_neg pending, if_true, List.append_assoc, ← List.flatMap_append, List.take_append_drop]

/-- `sendPacket` owes the bytes of its packet, or refuses it. -/
theorem sendPacket_owed (pack : CPacket) (fits : s.Fits) :
    (s.sendPacket pack).conn = s.conn ∧ (s.sendPacket pack).m_isClosing = s.m_isClosing ∧ (s.sendPacket pack).Fits ∧
      ((s.sendPacket pack).refused = s.refused + 1 ∧ (s.sendPacket pack).owed = s.owed ∨
        ∃ sent, Wire.sendPacket s.getFreeSize pack = some sent ∧
          (s.sendPacket pack).refused = s.refused ∧ (s.sendPacket pack).owed = s.owed ++ Wire.bytes sent) := by
  rw [sendPacket]
  split
  · exact ⟨rfl, rfl, fits, .inl ⟨rfl, rfl⟩⟩
  · rename_i sent accepted
    refine ⟨sendPost_conn, sendPost_m_isClosing, sendPost_fits fun pending => ?_,
      .inr ⟨sent, accepted, sendPost_refused, ?_⟩⟩
    · have := fits pending
      rw [List.length_append]
      exact Nat.le_add_right_of_le this
    · rw [sendPost_owed]
      simp only [owed, waiting]
      split_ifs with pending
      · rw [List.drop_append_of_le_length (fits pending)]
        simp
      · simp

theorem length_sendPacket_le (pack : CPacket) :
    (s.sendPacket pack).m_sendRingBuff.length ≤ s.m_sendRingBuff.length + 1 := by
  rw [sendPacket]
  split
  · exact Nat.le_succ _
  · simp

/-- The completion of a send leaves owed what was owed. -/
theorem sendCompletion_owed (pending : s.m_isSendPending = true) : ∃ next, s.sendCompletion = some next ∧
    next.conn = s.conn ∧ next.m_isClosing = s.m_isClosing ∧ next.Fits ∧ next.refused = s.refused ∧ next.owed = s.owed := by
  have left : ({ s with m_sendRingBuff := s.m_sendRingBuff.drop s.m_sendPacketCount, m_isSendPending := false } :
      Session).owed = s.owed := by
    simp [owed, waiting, pending]
  refine ⟨_, if_pos pending, ?_⟩
  split_ifs
  · exact ⟨sendPost_conn, sendPost_m_isClosing, sendPost_fits (fun absurd => by cases absurd), sendPost_refused,
      sendPost_owed.trans left⟩
  · exact ⟨rfl, rfl, fun absurd => (by cases absurd), rfl, left⟩

theorem sendPacket_conn (pack : CPacket) : (s.sendPacket pack).conn = s.conn := by
  rw [sendPacket]
  split
  · rfl
  · exact sendPost_conn

theorem prefix_posted_sendPacket (pack : CPacket) : s.posted <+: (s.sendPacket pack).posted := by
  rw [sendPacket]
  cases Wire.sendPacket s.getFreeSize pack with
  | none => exact List.prefix_rfl
  | some sent => exact prefix_posted_sendPost (s := { s with m_sendRingBuff := s.m_sendRingBuff ++ [sent] })

/-- What was posted stays posted. -/
theorem prefix_posted_serve {count : ℕ} {packs : List CPacket} {next : Session}
    (served : serve junk count packs s = some next) : s.posted <+: next.posted := by
  induction packs generalizing count s with
  | nil => exact Option.some.inj served ▸ List.prefix_rfl
  | cons pack rest ih =>
    obtain ⟨reply, _, later⟩ := Option.bind_eq_some_iff.mp served
    exact (prefix_posted_sendPacket reply).trans (ih later)

theorem prefix_posted_recvCompletion {bytes : List UInt8} {next : Session}
    (completed : s.recvCompletion allocated junk bytes = some next) : s.posted <+: next.posted := by
  obtain ⟨conn, _, ran⟩ := Option.bind_eq_some_iff.mp completed
  obtain ⟨served, answers, rfl⟩ := Option.map_eq_some_iff.mp ran
  have grown := prefix_posted_serve answers
  exact grown

theorem prefix_posted_sendCompletion {next : Session} (completed : s.sendCompletion = some next) :
    s.posted <+: next.posted := by
  rw [sendCompletion] at completed
  split_ifs at completed
  obtain rfl := Option.some.inj completed
  split_ifs
  · exact prefix_posted_sendPost (s := { s with
      m_sendRingBuff := s.m_sendRingBuff.drop s.m_sendPacketCount, m_isSendPending := false })
  · exact List.prefix_rfl

/-- Answering leaves the receiving end alone. -/
theorem serve_conn {count : ℕ} {packs : List CPacket} {next : Session} (served : serve junk count packs s = some next) :
    next.conn = s.conn := by
  induction packs generalizing count s with
  | nil => exact congrArg conn (Option.some.inj served).symm
  | cons pack rest ih =>
    obtain ⟨reply, _, later⟩ := Option.bind_eq_some_iff.mp served
    exact (ih later).trans (sendPacket_conn reply)

/-- Each packet of the framing loop is answered, in order; the ring refuses some of the answers when it is full. -/
theorem serve_owed (allocated : ℤ → UInt8) (junk : ℕ → Junk) (count : ℕ) (parts : List (List UInt8))
    (whole : ∀ part ∈ parts, 2 ≤ part.length) (fits : s.Fits) :
    ∃ (next : Session) (kept : List (List UInt8)),
      serve junk count (parts.map (Framing.pack allocated)) s = some next ∧
      next.conn = s.conn ∧ next.m_isClosing = s.m_isClosing ∧ next.Fits ∧
      kept.Sublist (replies allocated junk count (parts.map (List.drop 2))) ∧
      next.owed = s.owed ++ kept.flatten ∧ kept.length + next.refused = parts.length + s.refused := by
  induction parts generalizing count s with
  | nil => exact ⟨s, [], rfl, rfl, rfl, fits, .slnil, (List.append_nil _).symm, rfl⟩
  | cons part rest ih =>
    obtain ⟨long, later⟩ := List.forall_mem_cons.mp whole
    obtain ⟨low, high, payload, rfl⟩ := exists_frame long
    obtain ⟨pack, ran, bytes⟩ := onRecv_eq allocated (junk count) low high payload
    obtain ⟨conn, closing, fits', outcome⟩ := sendPacket_owed pack fits
    obtain ⟨next, kept, served, conn', closing', fits'', sublist, owed, total⟩ := ih (count + 1) later fits'
    have unfolded : serve junk count (((low :: high :: payload) :: rest).map (Framing.pack allocated)) s = some next := by
      rw [List.map_cons, serve, ran, Option.bind_some, served]
    rw [List.length_cons]
    rcases outcome with ⟨refused, same⟩ | ⟨sent, accepted, refused, more⟩
    · refine ⟨next, kept, unfolded, conn'.trans conn, closing'.trans closing, fits'', sublist.cons _, ?_, ?_⟩
      · rw [owed, same]
      · omega
    · refine ⟨next, reply allocated (junk count) payload :: kept, unfolded, conn'.trans conn, closing'.trans closing,
        fits'', sublist.cons_cons _, ?_, ?_⟩
      · rw [owed, more, bytes _ _ accepted, List.append_assoc, List.flatten_cons]
      · rw [List.length_cons]
        omega

end Session

/-- The packets that a completion hands over were made of whole frames. -/
theorem recvCompletion_delivered {stream bytes : List UInt8} {conn next : Framing} (framed : Framed stream conn)
    (admissible : Admissible conn bytes) (completed : recvCompletion allocated conn bytes = some next) :
    ∃ parts : List (List UInt8), next.delivered = conn.delivered ++ parts.map (Framing.pack allocated) ∧
      ∀ part ∈ parts, 2 ≤ part.length := by
  have two : HEADER_SIZE = 2 := rfl
  obtain ⟨_, _, fits⟩ := admissible
  obtain ⟨ring, moved, valid, _⟩ := CRingBuff.directWrite_contents framed.valid (fits.trans (min_le_left _ _))
    (fits.trans (min_le_right _ _))
  obtain ⟨stored, copied, rfl⟩ := Option.map_eq_some_iff.mp moved
  rw [recvCompletion_eq] at completed
  obtain ⟨start, arrived, completed⟩ := Option.bind_eq_some_iff.mp completed
  obtain ⟨⟨left, protocolError⟩, looped, last⟩ := Option.map_eq_some_iff.mp completed
  have shape : start = { conn with m_recvRingBuff := stored.moveRearPos bytes.length, posted := none } := by
    rw [Framing.arrived, framed.posted] at arrived
    split_ifs at arrived
    · cases arrived
    · rw [Option.bind_some, copied] at arrived
      exact (Option.some.inj arrived).symm
  subst shape
  obtain ⟨parts, made, sizes⟩ := frames_delivered valid looped
  refine ⟨parts, ?_, fun part inside => ?_⟩
  · rw [← last]
    dsimp only
    split_ifs <;> exact made
  · have size := List.mem_map_of_mem (f := fun bytes : List UInt8 => (bytes.length : ℤ)) inside
    rw [sizes] at size
    obtain ⟨call, called, same⟩ := List.mem_map.mp size
    have least := (dequeues_le called).1
    rw [same] at least
    omega

/-- The session has answered the payloads of the stream so far, or holds the answers; it is closing when a bad header
has stopped it. -/
structure Answered (allocated : ℤ → UInt8) (junk : ℕ → Junk) (stream : List UInt8) (s : Session) : Prop where
  framed : Framed stream s.conn
  closing : s.m_isClosing = (parse stream).stopped
  fits : s.Fits
  owed : ∃ kept : List (List UInt8), kept.Sublist (replies allocated junk 0 (parse stream).payloads) ∧
    s.owed = kept.flatten ∧ kept.length + s.refused = (parse stream).payloads.length

theorem answered_accepted : Answered allocated junk [] (accepted allocated) where
  framed := framed_accepted allocated
  closing := by rw [parse]; rfl; simp
  fits absurd := by cases absurd
  owed := by
    have empty : (parse []).payloads = [] := by rw [parse]; simp
    exact ⟨[], List.nil_sublist _, rfl, by rw [empty]; rfl⟩

theorem received_frame (low high : UInt8) (payload : List UInt8) :
    received (Framing.pack allocated (low :: high :: payload)) = payload := by
  have cursor : ((low :: high :: payload).length : ℤ) = payload.length + HEADER_SIZE := by
    have two : HEADER_SIZE = 2 := rfl
    rw [List.length_cons, List.length_cons]
    omega
  rw [Framing.pack, cursor]
  exact received_pack allocated low high payload _

/-- A receive that completes is answered. -/
theorem Answered.recvCompletion {stream bytes : List UInt8} {s : Session} (answered : Answered allocated junk stream s)
    (admissible : Admissible s.conn bytes) : ∃ next, s.recvCompletion allocated junk bytes = some next ∧
      Answered allocated junk (stream ++ bytes) next := by
  obtain ⟨framed, closing, fits, kept, sublist, owed, total⟩ := answered
  obtain ⟨conn, completed, framed'⟩ := framed.recvCompletion admissible
  obtain ⟨parts, delivered, whole⟩ := recvCompletion_delivered framed admissible completed
  have handed : (conn.delivered.drop s.conn.delivered.length) = parts.map (Framing.pack allocated) := by
    rw [delivered, List.drop_left]
  have payloads : (parse (stream ++ bytes)).payloads = (parse stream).payloads ++ parts.map (List.drop 2) := by
    rw [← framed'.delivered, ← framed.delivered, payloads, payloads, delivered, List.map_append, List.map_map]
    congr 1
    refine List.map_congr_left fun part inside => ?_
    obtain ⟨low, high, payload, rfl⟩ := exists_frame (whole part inside)
    exact received_frame low high payload
  have count : s.conn.delivered.length = (parse stream).payloads.length := by
    rw [← framed.delivered, Framing.payloads, List.length_map]
  obtain ⟨next, more, served, conn', -, fits', sublist', owed', total'⟩ := Session.serve_owed allocated junk
    (s := { s with conn }) s.conn.delivered.length parts whole fits
  refine ⟨{ next with m_isClosing := next.conn.posted.isNone }, ?_, ?_, ?_, fits', kept ++ more, ?_, ?_, ?_⟩
  · rw [Session.recvCompletion, completed, Option.bind_some]
    dsimp only
    rw [handed, served]
    rfl
  · rw [conn']
    exact framed'
  · dsimp only
    rw [conn', framed'.posted]
    cases (parse (stream ++ bytes)).stopped <;> rfl
  · rw [payloads, replies_append, Nat.zero_add, ← count]
    exact sublist.append sublist'
  · rw [List.flatten_append, ← owed]
    exact owed'
  · have same : next.refused + more.length = parts.length + s.refused := by
      rw [Nat.add_comm]
      exact total'
    rw [payloads, List.length_append, List.length_append, List.length_map]
    dsimp only
    omega

theorem Answered.sendCompletion {stream : List UInt8} {s : Session} (answered : Answered allocated junk stream s)
    (pending : s.m_isSendPending = true) : ∃ next, s.sendCompletion = some next ∧
      Answered allocated junk stream next := by
  obtain ⟨framed, closing, fits, kept, sublist, owed, total⟩ := answered
  obtain ⟨next, completed, conn, closing', fits', refused, same⟩ := Session.sendCompletion_owed pending
  exact ⟨next, completed, conn ▸ framed, closing'.trans closing, fits', kept, sublist, same.trans owed, refused ▸ total⟩

/-- What a handler can be called for. -/
def Admits (s : Session) : Input → Prop
  | .recv bytes => Admissible s.conn bytes
  | .sent => s.m_isSendPending = true

instance (s : Session) : DecidablePred (Admits s)
  | .recv bytes => inferInstanceAs (Decidable (s.conn.posted.isSome ∧ 1 ≤ bytes.length ∧
      (bytes.length : ℤ) ≤ min s.conn.m_recvRingBuff.getDirectWriteSize s.conn.m_recvRingBuff.getFreeSize))
  | .sent => inferInstanceAs (Decidable (s.m_isSendPending = true))

/-- The bytes that an input brings. -/
def Input.bytes : Input → List UInt8
  | .recv bytes => bytes
  | .sent => []

theorem Answered.step {stream : List UInt8} {s : Session} {input : Input} (answered : Answered allocated junk stream s)
    (admits : Admits s input) : ∃ next, step allocated junk s input = some next ∧
      Answered allocated junk (stream ++ input.bytes) next := by
  cases input with
  | recv bytes => exact answered.recvCompletion admits
  | sent =>
    rw [Input.bytes, List.append_nil]
    exact answered.sendCompletion admits

theorem Answered.replay {stream : List UInt8} {s : Session} {inputs : List Input}
    (answered : Answered allocated junk stream s) (admits : Replay.Along (EchoServer.step allocated junk) Admits s inputs) :
    ∃ last, Replay.replay (EchoServer.step allocated junk) s inputs = some last ∧
      Answered allocated junk (stream ++ inputs.flatMap Input.bytes) last := by
  induction inputs generalizing stream s with
  | nil => exact ⟨s, rfl, by rwa [List.flatMap_nil, List.append_nil]⟩
  | cons input rest ih =>
    obtain ⟨next, stepped, answered⟩ := answered.step admits.1
    obtain ⟨last, run, answered⟩ := ih answered (admits.2 next stepped)
    refine ⟨last, by rw [Replay.replay_of_step stepped, run], ?_⟩
    rwa [List.flatMap_cons, ← List.append_assoc]

end LockFreeCore.EchoServer
