import LockFreeCore.Model.BotClient
import LockFreeCore.Proofs.EchoServer
import LockFreeCore.ToMathlib.WrappingCount

/-! # Every response is the packet that was sent

The packets of a client lie behind each other on the wire, so what has come to the server is some of them and the
beginning of the next. The server answers each with itself, and what has come back to the client is again a
beginning of what it sent. Between its packets the client waits, so the send ring of the server never holds more
than the packet in flight and one behind it.
-/

namespace LockFreeCore.BotClient

open EchoServer (Answered Junk Session)
open Framing (Framed Parsed parse)

variable {index : ℕ}

/-- The first packets of a client on the wire. -/
def wire (index n : ℕ) : List UInt8 := (List.range n).flatMap (packet index)

@[simp] theorem length_packet (index p : ℕ) : (packet index p).length = 10 := by
  rw [packet, List.length_append, LittleEndian.length_store, LittleEndian.length_store]

@[simp] theorem wire_zero (index : ℕ) : wire index 0 = [] := rfl

theorem wire_succ (index n : ℕ) : wire index (n + 1) = wire index n ++ packet index n := by
  rw [wire, List.range_succ, List.flatMap_append, List.flatMap_singleton]
  rfl

@[simp] theorem length_wire (index n : ℕ) : (wire index n).length = 10 * n := by
  induction n with
  | zero => rfl
  | succ n ih =>
    rw [wire_succ, List.length_append, ih, length_packet]
    omega

theorem prefix_of_wire {k n : ℕ} (first : k ≤ n) : wire index k <+: wire index n := by
  induction n, first using Nat.le_induction with
  | base => exact List.prefix_rfl
  | succ n _ ih =>
    rw [wire_succ]
    exact ih.trans (List.prefix_append ..)

/-- A beginning of the wire is whole packets and a beginning of the next. -/
theorem eq_of_prefix_wire {stream : List UInt8} {n : ℕ} (first : stream <+: wire index n) {k j : ℕ}
    (length : stream.length = 10 * k + j) (few : j ≤ 10) :
    stream = wire index k ++ (packet index k).take j := by
  have whole : wire index k ++ (packet index k).take j <+: wire index (k + 1) := by
    rw [wire_succ]
    exact (List.prefix_append_right_inj _).mpr (List.take_prefix ..)
  have long : (wire index k ++ (packet index k).take j).length = stream.length := by
    rw [List.length_append, length_wire, List.length_take, length_packet, length]
    omega
  exact (List.prefix_of_prefix_length_le (first.trans (prefix_of_wire (Nat.le_max_left n (k + 1))))
    (whole.trans (prefix_of_wire (Nat.le_max_right n (k + 1)))) long.ge).eq_of_length long.symm

/-! ## What the server makes of the packets -/

theorem parse_packet (index p : ℕ) :
    parse (packet index p) = ⟨[LittleEndian.store (n := 8) (payload index p)], [], false⟩ := by
  have length : (LittleEndian.store (n := 8) (payload index p)).length = 8 := LittleEndian.length_store _
  have eight : (header : BitVec (8 * 2)).toInt = 8 := by decide
  have most : CPacket.MAX_PACKET_SIZE = 4000 := rfl
  rw [packet, Wire.parse_store, eight, if_neg (by omega), length, if_neg (by decide),
    List.drop_of_length_le (by rw [length]; decide), List.take_of_length_le (by rw [length]; decide), parse]
  simp

theorem parse_part {j : ℕ} (few : j < 10) (index p : ℕ) :
    parse ((packet index p).take j) = ⟨[], (packet index p).take j, false⟩ := by
  have size : (LittleEndian.store (n := 2) header).length = 2 := LittleEndian.length_store _
  have length : (LittleEndian.store (n := 8) (payload index p)).length = 8 := LittleEndian.length_store _
  have eight : (header : BitVec (8 * 2)).toInt = 8 := by decide
  have most : CPacket.MAX_PACKET_SIZE = 4000 := rfl
  by_cases whole : 2 ≤ j
  · rw [packet, List.take_append, List.take_of_length_le (by omega), Wire.parse_store, eight, if_neg (by omega),
      if_pos (by rw [List.length_take]; omega)]
  · match shape : (packet index p).take j with
    | low :: high :: stream =>
      have := congrArg List.length shape
      rw [List.length_take, length_packet, List.length_cons, List.length_cons] at this
      omega
    | [_] | [] => rw [parse]; simp

/-- What has come to the server is parsed into the payloads of the whole packets. -/
theorem parse_wire (index n : ℕ) : parse (wire index n) =
    ⟨(List.range n).map fun p => LittleEndian.store (n := 8) (payload index p), [], false⟩ := by
  induction n with
  | zero => rw [wire_zero, parse]; rfl; simp
  | succ n ih =>
    rw [wire_succ, Framing.parse_append _ _ (by rw [ih]), ih, List.nil_append, parse_packet, List.range_succ,
      List.map_append]
    rfl

theorem parse_wire_part {j : ℕ} (few : j < 10) (index n : ℕ) : parse (wire index n ++ (packet index n).take j) =
    ⟨(List.range n).map fun p => LittleEndian.store (n := 8) (payload index p), (packet index n).take j, false⟩ := by
  rw [Framing.parse_append _ _ (by rw [parse_wire]), parse_wire, List.nil_append, parse_part few, List.append_nil]

/-- The server answers a packet with itself. -/
theorem replies_payloads (allocated : ℤ → UInt8) (junk : ℕ → Junk) (index n : ℕ) :
    (EchoServer.replies allocated junk 0
      ((List.range n).map fun p => LittleEndian.store (n := 8) (payload index p))).flatten = wire index n := by
  induction n with
  | zero => rfl
  | succ n ih =>
    have length : (LittleEndian.store (n := 8) (payload index n)).length = 8 := LittleEndian.length_store _
    rw [List.range_succ, List.map_append, EchoServer.replies_append, List.flatten_append, ih, wire_succ]
    refine congrArg (wire index n ++ ·) ?_
    change EchoServer.reply _ _ _ ++ [] = _
    rw [List.append_nil, EchoServer.reply, EchoServer.echoed_of_le _ length.ge, List.take_of_length_le length.le]
    rfl

/-! ## The session of a client that waits -/

variable {allocated : ℤ → UInt8} {junk : ℕ → Junk} {s next : Session}

/-- The session is open and has sent all its answers; it has one packet in flight while its ring holds any. -/
structure Calm (s : Session) : Prop where
  going : s.m_isClosing = false
  refused : s.refused = 0
  idle : s.m_isSendPending = false → s.m_sendRingBuff = []
  pending : s.m_isSendPending = true → s.m_sendPacketCount = 1 ∧ s.m_sendRingBuff ≠ []
  sizes : ∀ pack ∈ s.m_sendRingBuff, (Wire.bytes pack).length = 10

theorem calm_accepted (allocated : ℤ → UInt8) : Calm (EchoServer.accepted allocated) where
  going := rfl
  refused := rfl
  idle _ := rfl
  pending absurd := by cases absurd
  sizes _ absurd := by cases absurd

/-- One packet waits at most, beside the packet in flight. -/
theorem Calm.length (calm : Calm s) :
    s.m_sendRingBuff.length = s.waiting.length + if s.m_isSendPending then 1 else 0 := by
  rw [Session.waiting]
  split_ifs with pending
  · obtain ⟨one, some⟩ := calm.pending pending
    have := List.length_pos_of_ne_nil some
    rw [one, List.length_drop]
    omega
  · rfl

/-- What is posted and what waits is made of whole packets. -/
theorem Calm.length_owed (calm : Calm s) : s.owed.length = s.posted.length + 10 * s.waiting.length := by
  have inside : ∀ pack ∈ s.waiting, (Wire.bytes pack).length = 10 := by
    intro pack member
    refine calm.sizes pack ?_
    rw [Session.waiting] at member
    split_ifs at member
    · exact List.mem_of_mem_drop member
    · exact member
  rw [Session.owed, List.length_append, List.length_flatMap, List.map_congr_left inside, List.map_const',
    List.sum_replicate_nat, Nat.mul_comm]

/-- A send of the packet at the front of the ring, which is alone there. -/
theorem Calm.sendPost {pack : CPacket} (going : s.m_isClosing = false) (refused : s.refused = 0)
    (idle : s.m_isSendPending = false) (alone : s.m_sendRingBuff = [pack]) (size : (Wire.bytes pack).length = 10) :
    Calm s.sendPost := by
  have posts : s.sendPost = { s with
      m_isSendPending := true, m_sendPacketCount := 1, posted := s.posted ++ Wire.bytes pack } := by
    rw [Session.sendPost, idle, going, alone]
    simp
  rw [posts]
  refine ⟨going, refused, (fun absurd => by cases absurd), fun _ => ⟨rfl, ?_⟩, ?_⟩
  · rw [alone]
    exact List.cons_ne_nil _ _
  · simpa [alone] using size

/-- A packet for a client that waits for it is posted, or put behind the packet in flight. -/
theorem Calm.sendPacket {pack : CPacket} (calm : Calm s) (waiting : s.waiting = [])
    (size : ∀ freeSize sent, Wire.sendPacket freeSize pack = some sent → (Wire.bytes sent).length = 10) :
    Calm (s.sendPacket pack) := by
  obtain ⟨going, refused, idle, pending, sizes⟩ := calm
  have length := Calm.length ⟨going, refused, idle, pending, sizes⟩
  rw [waiting, List.length_nil] at length
  have room : SendPacket.pointerSize ≤ s.getFreeSize := by
    rw [Session.getFreeSize, length]
    split_ifs <;> decide
  obtain ⟨sent, accepted⟩ : ∃ sent, Wire.sendPacket s.getFreeSize pack = some sent := ⟨_, if_pos room⟩
  rw [Session.sendPacket, accepted]
  dsimp only
  cases send : s.m_isSendPending with
  | false => exact Calm.sendPost going refused rfl (by simp [idle send]) (size _ _ accepted)
  | true =>
    rw [Session.sendPost, if_pos rfl]
    refine ⟨going, refused, (fun absurd => by cases absurd), fun _ => ⟨(pending send).1, by simp⟩, ?_⟩
    rw [List.forall_mem_append]
    exact ⟨sizes, by simpa using size _ _ accepted⟩

/-- The packet in flight leaves the ring, and what has come behind it is posted. -/
theorem Calm.sendCompletion (calm : Calm s) (few : s.waiting.length ≤ 1) (completed : s.sendCompletion = some next) :
    Calm next ∧ next.m_sendRingBuff.length + 1 = s.m_sendRingBuff.length := by
  cases send : s.m_isSendPending with
  | false =>
    rw [Session.sendCompletion, if_neg (by simp [send])] at completed
    cases completed
  | true =>
    have length := calm.length
    have left : s.m_sendRingBuff.drop s.m_sendPacketCount = s.waiting := by rw [Session.waiting, if_pos send]
    rw [if_pos send] at length
    rw [Session.sendCompletion, if_pos send] at completed
    dsimp only at completed
    rw [left] at completed
    obtain rfl := Option.some.inj completed
    cases waiting : s.waiting with
    | nil =>
      rw [if_neg (by simp)]
      exact ⟨⟨calm.going, calm.refused, fun _ => rfl, (fun absurd => by cases absurd), fun _ absurd => by cases absurd⟩,
        by rw [length, waiting]⟩
    | cons pack rest =>
      obtain rfl : rest = [] := by
        rw [waiting, List.length_cons] at few
        exact List.length_eq_zero_iff.mp (Nat.le_zero.mp (Nat.le_of_succ_le_succ few))
      have inside : pack ∈ s.m_sendRingBuff := List.mem_of_mem_drop (left ▸ waiting ▸ List.mem_singleton_self pack)
      rw [if_pos (by simp)]
      refine ⟨Calm.sendPost calm.going calm.refused rfl rfl (calm.sizes pack inside), ?_⟩
      rw [Session.sendPost_m_sendRingBuff, length, waiting]

/-- Every answer of the server is ten bytes. -/
theorem length_bytes_onRecv {junk : Junk} {pack reply sent : CPacket} {freeSize : ℤ}
    (ran : EchoServer.onRecv junk pack = some reply) (accepted : Wire.sendPacket freeSize reply = some sent) :
    (Wire.bytes sent).length = 10 := by
  obtain ⟨out, _, rfl⟩ := Option.map_eq_some_iff.mp ran
  rw [EchoServer.bytes_double accepted, List.length_append, LittleEndian.length_store, LittleEndian.length_store]

/-- A receive that brings one packet at most, and that one when nothing waits. -/
theorem Calm.recvCompletion {bytes : List UInt8} (calm : Calm s)
    (completed : s.recvCompletion allocated junk bytes = some next) (going : next.conn.posted.isSome)
    (few : next.conn.delivered.length ≤ s.conn.delivered.length + 1)
    (waiting : s.conn.delivered.length < next.conn.delivered.length → s.waiting = []) :
    Calm next ∧ next.m_sendRingBuff.length ≤ s.m_sendRingBuff.length + 1 := by
  obtain ⟨conn, moved, ran⟩ := Option.bind_eq_some_iff.mp completed
  obtain ⟨served, answers, rfl⟩ := Option.map_eq_some_iff.mp ran
  have closing : served.conn.posted.isNone = false := by
    cases shape : served.conn.posted with
    | none => simp [shape] at going
    | some wsabuf => rfl
  have start : Calm { s with conn } := ⟨calm.going, calm.refused, calm.idle, calm.pending, calm.sizes⟩
  have conn_eq : served.conn = conn := Session.serve_conn answers
  dsimp only at answers few waiting ⊢
  rw [closing]
  rw [conn_eq] at few waiting
  match new : conn.delivered.drop s.conn.delivered.length with
  | [] =>
    rw [new] at answers
    obtain rfl := Option.some.inj answers
    exact ⟨⟨rfl, calm.refused, calm.idle, calm.pending, calm.sizes⟩, Nat.le_succ _⟩
  | [pack] =>
    have more : s.conn.delivered.length < conn.delivered.length := by
      have := congrArg List.length new
      rw [List.length_drop, List.length_singleton] at this
      omega
    rw [new] at answers
    obtain ⟨reply, answered, same⟩ := Option.bind_eq_some_iff.mp answers
    obtain rfl := Option.some.inj same
    have sent := Calm.sendPacket start (waiting more) fun _ _ accepted => length_bytes_onRecv answered accepted
    exact ⟨⟨rfl, sent.refused, sent.idle, sent.pending, sent.sizes⟩, Session.length_sendPacket_le reply⟩
  | first :: second :: rest =>
    have := congrArg List.length new
    rw [List.length_drop, List.length_cons, List.length_cons] at this
    omega

/-! ## One step of a connection -/

variable {packetsPerConn : ℕ} {totals after : Totals} {conn later : Connection} {input : Input} {stream : List UInt8}

/-- What the steps of a connection do, and when. -/
inductive Executed (packetsPerConn : ℕ) (allocated : ℤ → UInt8) (junk : ℕ → Junk) (totals : Totals) (index : ℕ)
    (conn : Connection) : Input → Totals → Connection → Prop
  | connect (here : conn.client = .connecting) :
      Executed packetsPerConn allocated junk totals index conn .connect totals { conn with client := .sending 0 }
  | refuse (here : conn.client = .connecting) :
      Executed packetsPerConn allocated junk totals index conn .refuse
        { totals with totalFailed := totals.totalFailed + 1 } { conn with client := .left 0 0 }
  | send {p : ℕ} (here : conn.client = .sending p) (more : p < packetsPerConn) :
      Executed packetsPerConn allocated junk totals index conn .send { totals with totalSent := totals.totalSent + 1 }
        { conn with client := .receiving p [], upstream := conn.upstream ++ packet index p }
  | sendFails {p sentBytes : ℕ} (here : conn.client = .sending p) (more : p < packetsPerConn) (part : sentBytes < 10) :
      Executed packetsPerConn allocated junk totals index conn (.sendFails sentBytes)
        { totals with totalFailed := totals.totalFailed + 1 }
        { conn with client := .left p p, upstream := conn.upstream ++ (packet index p).take sentBytes }
  | closesocket {p : ℕ} (here : conn.client = .sending p) (last : packetsPerConn ≤ p) :
      Executed packetsPerConn allocated junk totals index conn .closesocket totals { conn with client := .left p p }
  | recv {p n : ℕ} {resp : List UInt8} (here : conn.client = .receiving p resp) (any : 1 ≤ n) (few : n ≤ 10 - resp.length)
      (come : conn.taken + n ≤ conn.session.posted.length) :
      Executed packetsPerConn allocated junk totals index conn (.recv n) (receive totals conn index p resp n).1
        (receive totals conn index p resp n).2
  | recvFails {p : ℕ} {resp : List UInt8} (here : conn.client = .receiving p resp) :
      Executed packetsPerConn allocated junk totals index conn .recvFails
        { totals with totalFailed := totals.totalFailed + 1 } { conn with client := .left (p + 1) p }
  | arrive {n : ℕ} {wsabuf : WSABUF} {session : Session} (posted : conn.session.conn.posted = some wsabuf) (any : 1 ≤ n)
      (come : n ≤ conn.upstream.length) (fits : (n : ℤ) ≤ wsabuf.len)
      (completed : conn.session.recvCompletion allocated junk (conn.upstream.take n) = some session) :
      Executed packetsPerConn allocated junk totals index conn (.arrive n)
        { totals with g_totalPacketsProcessed := totals.g_totalPacketsProcessed +
            BitVec.ofNat 64 (session.conn.delivered.length - conn.session.conn.delivered.length) }
        { conn with session, upstream := conn.upstream.drop n }
  | sent {session : Session} (completed : conn.session.sendCompletion = some session) :
      Executed packetsPerConn allocated junk totals index conn .sent totals { conn with session }

theorem exec_eq_some (ran : exec packetsPerConn allocated junk totals index conn input = some (after, later)) :
    Executed packetsPerConn allocated junk totals index conn input after later := by
  unfold exec at ran
  split at ran
  · cases ran
    exact .connect ‹_›
  · cases ran
    exact .refuse ‹_›
  · split_ifs at ran with more
    cases ran
    exact .send ‹_› more
  · split_ifs at ran with more
    cases ran
    exact .sendFails ‹_› more.1 more.2
  · split_ifs at ran with more
    cases ran
    exact .closesocket ‹_› (Nat.le_of_not_lt more)
  · split_ifs at ran with fits
    obtain ⟨rfl, rfl⟩ := Prod.ext_iff.mp (Option.some.inj ran)
    exact .recv ‹_› fits.1 fits.2.1 fits.2.2
  · cases ran
    exact .recvFails ‹_›
  · obtain ⟨wsabuf, posted, ran⟩ := Option.bind_eq_some_iff.mp ran
    split_ifs at ran with fits
    obtain ⟨session, completed, same⟩ := Option.map_eq_some_iff.mp ran
    cases same
    exact .arrive posted fits.1 fits.2.1 fits.2.2 completed
  · obtain ⟨session, completed, same⟩ := Option.map_eq_some_iff.mp ran
    cases same
    exact .sent completed
  · cases ran

/-! ## What holds of a connection -/

/-- The packets that a client has sent. -/
def Client.sent : Client → ℕ
  | .connecting => 0
  | .sending p => p
  | .receiving p _ => p + 1
  | .left sent _ => sent

/-- The responses that have come to it. -/
def Client.received : Client → ℕ
  | .connecting => 0
  | .sending p => p
  | .receiving p _ => p
  | .left _ received => received

/-- A client that has taken so many bytes has got whole responses, and the beginning of the next one while it waits
for that. -/
def Client.Holds (index packetsPerConn taken : ℕ) : Client → Prop
  | .connecting => taken = 0
  | .sending p => p ≤ packetsPerConn ∧ taken = 10 * p
  | .receiving p resp => p < packetsPerConn ∧ taken = 10 * p + resp.length ∧ resp.length < 10 ∧
      resp = (packet index p).take resp.length
  | .left sent received => sent ≤ packetsPerConn ∧ received ≤ sent ∧ sent ≤ received + 1 ∧ 10 * received ≤ taken

theorem Client.Holds.bounds {client : Client} {taken : ℕ} (holds : client.Holds index packetsPerConn taken) :
    client.received ≤ client.sent ∧ client.sent ≤ client.received + 1 ∧ client.sent ≤ packetsPerConn ∧
      10 * client.received ≤ taken := by
  cases client <;> simp only [Holds, sent, received] at holds ⊢ <;> omega

/-- `stream` has come to the server, and with what is on its way it is what the client has sent. -/
structure Carried (allocated : ℤ → UInt8) (junk : ℕ → Junk) (index : ℕ) (stream : List UInt8) (conn : Connection) :
    Prop where
  answered : Answered allocated junk stream conn.session
  wired : ∃ part < 10, stream ++ conn.upstream =
    wire index conn.client.sent ++ (packet index conn.client.sent).take part ∧
      (part = 0 ∨ ∃ sent received, conn.client = .left sent received)

/-- And the server has kept up with the client. -/
structure Served (allocated : ℤ → UInt8) (junk : ℕ → Junk) (packetsPerConn index : ℕ) (stream : List UInt8)
    (conn : Connection) : Prop extends Carried allocated junk index stream conn where
  calm : Calm conn.session
  taken : conn.taken ≤ conn.session.posted.length
  client : conn.client.Holds index packetsPerConn conn.taken

theorem served_accepted (allocated : ℤ → UInt8) (junk : ℕ → Junk) (packetsPerConn index : ℕ) :
    Served allocated junk packetsPerConn index [] ⟨.connecting, [], EchoServer.accepted allocated, 0⟩ where
  answered := EchoServer.answered_accepted
  calm := calm_accepted allocated
  wired := ⟨0, by decide, rfl, .inl rfl⟩
  taken := Nat.zero_le _
  client := rfl

namespace Carried

variable (carried : Carried allocated junk index stream conn)
include carried

theorem prefix_wire : stream <+: wire index (conn.client.sent + 1) := by
  obtain ⟨part, _, whole, _⟩ := carried.wired
  rw [wire_succ]
  refine (List.prefix_append stream conn.upstream).trans (whole ▸ ?_)
  exact (List.prefix_append_right_inj _).mpr (List.take_prefix ..)

/-- What has come to the server is whole packets and the beginning of the next. -/
theorem stream_eq : stream =
    wire index (stream.length / 10) ++ (packet index (stream.length / 10)).take (stream.length % 10) :=
  eq_of_prefix_wire carried.prefix_wire (by omega) (by omega)

theorem parsed : parse stream = ⟨(List.range (stream.length / 10)).map fun p =>
    LittleEndian.store (n := 8) (payload index p),
    (packet index (stream.length / 10)).take (stream.length % 10), false⟩ := by
  conv_lhs => rw [carried.stream_eq]
  exact parse_wire_part (by omega) ..

theorem delivered : conn.session.conn.delivered.length = stream.length / 10 := by
  have same := congrArg List.length carried.answered.framed.delivered
  rwa [Framing.payloads, List.length_map, carried.parsed, List.length_map, List.length_range] at same

theorem delivered_le : conn.session.conn.delivered.length ≤ conn.client.sent := by
  obtain ⟨part, few, whole, _⟩ := carried.wired
  have length := congrArg List.length whole
  have delivered := carried.delivered
  rw [List.length_append, List.length_append, length_wire, List.length_take, length_packet] at length
  omega

/-- A receive is posted. -/
theorem posted : conn.session.conn.posted = some ⟨conn.session.conn.m_recvRingBuff.getUseWriteBuffer,
    conn.session.conn.m_recvRingBuff.getDirectWriteSize⟩ := by
  rw [carried.answered.framed.posted, carried.parsed]
  rfl

end Carried

namespace Served

variable (served : Served allocated junk packetsPerConn index stream conn)
include served

theorem owed : conn.session.owed = wire index conn.session.conn.delivered.length := by
  obtain ⟨kept, sublist, owed, total⟩ := served.answered.owed
  rw [served.calm.refused, Nat.add_zero, served.parsed] at total
  rw [served.parsed] at sublist
  have all := sublist.eq_of_length (by rw [total, EchoServer.length_replies])
  rw [owed, all, replies_payloads, served.delivered]

theorem prefix_posted : conn.session.posted <+: wire index conn.session.conn.delivered.length :=
  served.owed ▸ List.prefix_append ..

/-- The server has handed over what the client has got responses to. -/
theorem received_le : conn.client.received ≤ conn.session.conn.delivered.length := by
  obtain ⟨_, _, _, got⟩ := served.client.bounds
  have taken := served.taken
  have posted := served.prefix_posted.length_le
  rw [length_wire] at posted
  omega

/-- What waits behind the packet in flight is for the response that the client waits for. -/
theorem waiting_le : conn.session.waiting.length + conn.client.received ≤ conn.session.conn.delivered.length := by
  obtain ⟨_, _, _, got⟩ := served.client.bounds
  have taken := served.taken
  have length := served.calm.length_owed
  rw [served.owed, length_wire] at length
  omega

/-- The bytes that come to the client go on where it was. -/
theorem resp_eq {p n : ℕ} {resp : List UInt8} (here : conn.client = .receiving p resp) (few : n ≤ 10 - resp.length)
    (come : conn.taken + n ≤ conn.session.posted.length) :
    resp ++ (conn.session.posted.drop conn.taken).take n = (packet index p).take (resp.length + n) := by
  have holds := served.client
  rw [here] at holds
  obtain ⟨_, taken, short, part⟩ := holds
  have front := eq_of_prefix_wire ((List.take_prefix (conn.taken + n) _).trans served.prefix_posted)
    (k := p) (j := resp.length + n) (by rw [List.length_take]; omega) (by omega)
  have slice : (conn.session.posted.drop conn.taken).take n =
      ((packet index p).take (resp.length + n)).drop resp.length := by
    rw [List.take_drop, front, taken, ← length_wire index p, List.drop_append, List.drop_eq_nil_of_le (by omega),
      List.nil_append, Nat.add_sub_cancel_left]
  rw [slice]
  conv_lhs => rw [part]
  conv_rhs => rw [← List.take_append_drop resp.length ((packet index p).take (resp.length + n)), List.take_take,
    Nat.min_eq_left (Nat.le_add_right ..)]
  rw [List.length_take, length_packet, Nat.min_eq_left short.le]

theorem waiting_le_one : conn.session.waiting.length ≤ 1 := by
  obtain ⟨_, most, _, _⟩ := served.client.bounds
  have waiting := served.waiting_le
  have delivered := served.delivered_le
  omega

/-- The bytes of a receive fit the ring. -/
theorem admissible {n : ℕ} (any : 1 ≤ n) (come : n ≤ conn.upstream.length)
    (fits : (n : ℤ) ≤ conn.session.conn.m_recvRingBuff.getDirectWriteSize) :
    Framing.Admissible conn.session.conn (conn.upstream.take n) := by
  obtain ⟨part, few, whole, _⟩ := served.wired
  obtain ⟨_, most, _, _⟩ := served.client.bounds
  have length := congrArg List.length whole
  have received := served.received_le
  have delivered := served.delivered
  rw [List.length_append, List.length_append, length_wire, List.length_take, length_packet] at length
  have rest := congrArg List.length served.answered.framed.rest
  rw [served.parsed, List.length_take, length_packet] at rest
  have stored := served.answered.framed.valid.length_contents
  have capacity : conn.session.conn.m_recvRingBuff.m_size = 30000 := served.answered.framed.size
  have here : (conn.upstream.take n).length = n := List.length_take_of_le come
  refine ⟨by rw [served.posted]; rfl, by omega, le_min (by omega) ?_⟩
  rw [CRingBuff.getFreeSize]
  omega

/-- Bytes that come to the server. -/
theorem arrive {n : ℕ} {session : Session} (any : 1 ≤ n) (come : n ≤ conn.upstream.length)
    (fits : (n : ℤ) ≤ conn.session.conn.m_recvRingBuff.getDirectWriteSize)
    (completed : conn.session.recvCompletion allocated junk (conn.upstream.take n) = some session) :
    Served allocated junk packetsPerConn index (stream ++ conn.upstream.take n)
      { conn with session, upstream := conn.upstream.drop n } ∧
      conn.session.conn.delivered.length ≤ session.conn.delivered.length ∧
      session.m_sendRingBuff.length ≤ conn.session.m_sendRingBuff.length + 1 := by
  obtain ⟨next, completed', answered⟩ := served.answered.recvCompletion (served.admissible any come fits)
  obtain rfl := Option.some.inj (completed'.symm.trans completed)
  have carried : Carried allocated junk index (stream ++ conn.upstream.take n)
      { conn with session := next, upstream := conn.upstream.drop n } := by
    refine ⟨answered, ?_⟩
    dsimp only
    rw [List.append_assoc, List.take_append_drop]
    exact served.wired
  have most := carried.delivered_le
  have before := served.delivered
  have after := carried.delivered
  have received := served.received_le
  have waiting := served.waiting_le
  obtain ⟨_, ahead, _, _⟩ := served.client.bounds
  rw [List.length_append] at after
  dsimp only at most after
  obtain ⟨calm, ring⟩ := served.calm.recvCompletion completed' (by rw [carried.posted]; rfl) (by omega)
    fun more => List.length_eq_zero_iff.mp (by omega)
  exact ⟨⟨carried, calm, served.taken.trans (Session.prefix_posted_recvCompletion completed').length_le, served.client⟩,
    by omega, ring⟩

/-- A send that completes. -/
theorem sent {session : Session} (completed : conn.session.sendCompletion = some session) :
    Served allocated junk packetsPerConn index stream { conn with session } ∧ session.conn = conn.session.conn ∧
      session.m_sendRingBuff.length + 1 = conn.session.m_sendRingBuff.length := by
  have pending : conn.session.m_isSendPending = true := by
    by_contra idle
    rw [Session.sendCompletion, if_neg idle] at completed
    cases completed
  obtain ⟨next, completed', answered⟩ := served.answered.sendCompletion pending
  obtain ⟨next', completed'', same, -⟩ := Session.sendCompletion_owed pending
  obtain rfl := Option.some.inj (completed'.symm.trans completed)
  obtain rfl := Option.some.inj (completed''.symm.trans completed)
  obtain ⟨calm, ring⟩ := served.calm.sendCompletion served.waiting_le_one completed
  exact ⟨⟨⟨answered, served.wired⟩, calm,
    served.taken.trans (Session.prefix_posted_sendCompletion completed).length_le, served.client⟩, same, ring⟩

end Served

/-- The counters count what a connection has done. -/
structure Counts (totals after : Totals) (conn later : Connection) : Prop where
  totalSent : after.totalSent + BitVec.ofNat 32 conn.client.sent = totals.totalSent + BitVec.ofNat 32 later.client.sent
  totalRecv : after.totalRecv + BitVec.ofNat 32 conn.client.received =
    totals.totalRecv + BitVec.ofNat 32 later.client.received
  totalMismatch : after.totalMismatch = totals.totalMismatch
  processed : after.g_totalPacketsProcessed + BitVec.ofNat 64 conn.session.conn.delivered.length =
    totals.g_totalPacketsProcessed + BitVec.ofNat 64 later.session.conn.delivered.length

/-- What the client makes of the bytes that come to it. -/
theorem Served.receive {p n : ℕ} {resp : List UInt8} (served : Served allocated junk packetsPerConn index stream conn)
    (here : conn.client = .receiving p resp) (few : n ≤ 10 - resp.length)
    (come : conn.taken + n ≤ conn.session.posted.length) :
    receive totals conn index p resp n =
      if resp.length + n < 10 then (totals, { conn with
        client := .receiving p ((packet index p).take (resp.length + n)), taken := conn.taken + n })
      else ({ totals with totalRecv := totals.totalRecv + 1 },
        { conn with client := .sending (p + 1), taken := conn.taken + n }) := by
  have length : ((packet index p).take (resp.length + n)).length = resp.length + n := by
    rw [List.length_take, length_packet]
    have holds := served.client
    rw [here] at holds
    obtain ⟨_, _, short, _⟩ := holds
    omega
  rw [BotClient.receive, served.resp_eq here few come]
  dsimp only
  rw [length]
  split_ifs with short mismatch
  · rfl
  · refine absurd ?_ mismatch
    have size : (LittleEndian.store (n := 2) header).length = 2 := LittleEndian.length_store _
    have eight : (LittleEndian.store (n := 8) (payload index p)).length = 8 := LittleEndian.length_store _
    have whole : (packet index p).take (resp.length + n) = packet index p :=
      List.take_of_length_le (by rw [length_packet]; omega)
    rw [whole, packet, List.drop_left' size, List.take_of_length_le eight.le]
    exact LittleEndian.load_store (n := 8) (payload index p)
  · rw [show totals.totalMismatch + 0 = totals.totalMismatch from BitVec.add_zero _]

/-- Every step of a connection keeps it served. -/
theorem Served.executed (served : Served allocated junk packetsPerConn index stream conn)
    (executed : Executed packetsPerConn allocated junk totals index conn input after later) :
    ∃ stream, Served allocated junk packetsPerConn index stream later := by
  have holds := served.client
  obtain ⟨part, few, whole, running⟩ := served.wired
  cases executed with
  | connect here =>
    rw [here] at holds whole running
    exact ⟨stream, ⟨served.answered, part, few, whole, by simpa using running⟩, served.calm, served.taken,
      ⟨Nat.zero_le _, holds⟩⟩
  | refuse here =>
    rw [here] at whole
    exact ⟨stream, ⟨served.answered, part, few, whole, .inr ⟨0, 0, rfl⟩⟩, served.calm, served.taken,
      ⟨Nat.zero_le _, le_rfl, Nat.zero_le _, Nat.zero_le _⟩⟩
  | @send p here more =>
    rw [here] at holds whole running
    obtain rfl : part = 0 := by simpa using running
    refine ⟨stream, ⟨served.answered, 0, by decide, ?_, .inl rfl⟩, served.calm, served.taken,
      ⟨more, by simpa using holds.2, by decide, rfl⟩⟩
    rw [← List.append_assoc, whole]
    simp [Client.sent, wire_succ]
  | @sendFails p sentBytes here more short =>
    rw [here] at holds whole running
    obtain rfl : part = 0 := by simpa using running
    refine ⟨stream, ⟨served.answered, sentBytes, short, ?_, .inr ⟨p, p, rfl⟩⟩, served.calm, served.taken,
      ⟨holds.1, le_rfl, Nat.le_succ _, holds.2.ge⟩⟩
    rw [← List.append_assoc, whole]
    simp [Client.sent]
  | @closesocket p here last =>
    rw [here] at holds whole
    exact ⟨stream, ⟨served.answered, part, few, whole, .inr ⟨p, p, rfl⟩⟩, served.calm, served.taken,
      ⟨holds.1, le_rfl, Nat.le_succ _, holds.2.ge⟩⟩
  | @recv p n resp here any less come =>
    rw [served.receive here less come]
    rw [here] at holds whole running
    obtain ⟨more, taken, short, -⟩ := holds
    have length : ((packet index p).take (resp.length + n)).length = resp.length + n := by
      rw [List.length_take, length_packet]
      omega
    split_ifs with going
    · have next : conn.taken + n = 10 * p + (resp.length + n) := by omega
      exact ⟨stream, ⟨served.answered, part, few, whole, by simpa using running⟩, served.calm, come,
        ⟨more, by rw [length]; exact next, by rw [length]; exact going, by rw [length]⟩⟩
    · have next : conn.taken + n = 10 * (p + 1) := by omega
      exact ⟨stream, ⟨served.answered, part, few, whole, by simpa using running⟩, served.calm, come, ⟨more, next⟩⟩
  | @recvFails p resp here =>
    rw [here] at holds whole
    have got : 10 * p ≤ conn.taken := by
      have := holds.2.1
      omega
    exact ⟨stream, ⟨served.answered, part, few, whole, .inr ⟨p + 1, p, rfl⟩⟩, served.calm, served.taken,
      ⟨holds.1, Nat.le_succ _, le_rfl, got⟩⟩
  | arrive posted any come fits completed =>
    obtain rfl := Option.some.inj (served.posted.symm.trans posted)
    exact ⟨_, (served.arrive any come fits completed).1⟩
  | sent completed => exact ⟨_, (served.sent completed).1⟩

/-- Every step of a connection is counted. -/
theorem Served.counts (served : Served allocated junk packetsPerConn index stream conn)
    (executed : Executed packetsPerConn allocated junk totals index conn input after later) :
    Counts totals after conn later := by
  cases executed with
  | connect here => exact ⟨by rw [here]; rfl, by rw [here]; rfl, rfl, rfl⟩
  | refuse here => exact ⟨by rw [here]; rfl, by rw [here]; rfl, rfl, rfl⟩
  | send here more => exact ⟨by rw [here]; exact WrappingCount.add_one_add .., by rw [here]; rfl, rfl, rfl⟩
  | sendFails here more short => exact ⟨by rw [here]; rfl, by rw [here]; rfl, rfl, rfl⟩
  | closesocket here last => exact ⟨by rw [here]; rfl, by rw [here]; rfl, rfl, rfl⟩
  | recv here any less come =>
    rw [served.receive here less come]
    split_ifs with going
    · exact ⟨by rw [here]; rfl, by rw [here]; rfl, rfl, rfl⟩
    · exact ⟨by rw [here]; rfl, by rw [here]; exact WrappingCount.add_one_add .., rfl, rfl⟩
  | recvFails here => exact ⟨by rw [here]; rfl, by rw [here]; rfl, rfl, rfl⟩
  | arrive posted any come fits completed =>
    obtain rfl := Option.some.inj (served.posted.symm.trans posted)
    have grows := (served.arrive any come fits completed).2.1
    refine ⟨rfl, rfl, rfl, ?_⟩
    dsimp only
    rw [BitVec.add_assoc, ← BitVec.ofNat_add]
    congr 2
    omega
  | sent completed => exact ⟨rfl, rfl, rfl, by rw [(served.sent completed).2.1]⟩

end LockFreeCore.BotClient
