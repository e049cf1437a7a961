import LockFreeCore.Model.Wire

/-! # The echo server

`TestServer::onRecv` and a session of the server that runs it. The handlers of one session are executed one
after the other, each without interruption, as a server with one worker thread does (`workerMax` is 1): a
receive that completes, with the `onRecv`s of the packets that it completes, and a send that completes. With
more workers a `sendPacket` can race with the completion of a send, post nothing, and have the session closed
for it; that is not modelled here, and neither is how a session is torn down. `WSASend` passes on the bytes of
its packets in order and does not fail.
-/

namespace LockFreeCore

namespace EchoServer

/-- What `onRecv` finds in memory that was never written: the buffer of its packet and its `double`. -/
structure Junk where
  allocated : ℤ → UInt8
  d : BitVec 64

/-- `onRecv` up to `sendPacket`: the packet it sends. -/
def onRecv (junk : Junk) (pack : CPacket) : Option CPacket :=
  (pack.extractDouble junk.d).map fun out => (CPacket.ofSize 10 junk.allocated).insertDouble out.1

/-- The send ring is the list of the packets that its pointers name; `posted` is all that `WSASend` was ever
given, and `refused` counts the packets that `sendPacket` dropped. -/
structure Session where
  conn : Framing
  m_sendRingBuff : List CPacket
  m_isSendPending : Bool
  m_isClosing : Bool
  m_sendPacketCount : ℕ
  posted : List UInt8
  refused : ℕ

/-- A session when `acceptThread` has posted its first receive. -/
def accepted (allocated : ℤ → UInt8) : Session where
  conn := Framing.accepted allocated
  m_sendRingBuff := []
  m_isSendPending := false
  m_isClosing := false
  m_sendPacketCount := 0
  posted := []
  refused := 0

namespace Session

variable (s : Session)

/-- `getFreeSize` of the send ring. -/
def getFreeSize : ℤ := DEFAULT_BUFFER_SIZE - 1 - SendPacket.pointerSize * s.m_sendRingBuff.length

def sendPost : Session :=
  if s.m_isSendPending then s
  else if s.m_isClosing then s
  else
    let m_sendPacketCount := if 1000 < s.m_sendRingBuff.length then 1000 else s.m_sendRingBuff.length
    { s with
      m_isSendPending := true
      m_sendPacketCount
      posted := s.posted ++ (s.m_sendRingBuff.take m_sendPacketCount).flatMap Wire.bytes }

def sendPacket (pack : CPacket) : Session :=
  match Wire.sendPacket s.getFreeSize pack with
  | none => { s with refused := s.refused + 1 }
  | some pack => { s with m_sendRingBuff := s.m_sendRingBuff ++ [pack] }.sendPost

/-- The `onRecv`s of the packets that one completion hands over; `count` packets have come before. -/
def serve (junk : ℕ → Junk) : ℕ → List CPacket → Session → Option Session
  | _, [], s => some s
  | count, pack :: rest, s => (onRecv (junk count) pack).bind fun reply =>
      serve junk (count + 1) rest (s.sendPacket reply)

/-- The completion of a receive that brings `bytes`. A bad header closes the session behind the packets before
it. -/
def recvCompletion (allocated : ℤ → UInt8) (junk : ℕ → Junk) (bytes : List UInt8) : Option Session :=
  (s.conn.recvCompletion allocated bytes).bind fun conn =>
    let count := s.conn.delivered.length
    (serve junk count (conn.delivered.drop count) { s with conn }).map fun s =>
      { s with m_isClosing := s.conn.posted.isNone }

/-- The completion of a send: its packets leave the ring, and what has come behind them is posted. -/
def sendCompletion : Option Session :=
  if s.m_isSendPending then
    let s := { s with
      m_sendRingBuff := s.m_sendRingBuff.drop s.m_sendPacketCount
      m_isSendPending := false }
    some (if 0 < s.m_sendRingBuff.length then s.sendPost else s)
  else none

/-- The packets of the ring that no `WSASend` was given. -/
def waiting : List CPacket := if s.m_isSendPending then s.m_sendRingBuff.drop s.m_sendPacketCount else s.m_sendRingBuff

end Session

/-- What happens to a session. -/
inductive Input where
  | recv (bytes : List UInt8)
  | sent
deriving DecidableEq, Repr

/-- One handler. -/
def step (allocated : ℤ → UInt8) (junk : ℕ → Junk) (s : Session) : Input → Option Session
  | .recv bytes => s.recvCompletion allocated junk bytes
  | .sent => s.sendCompletion

end EchoServer

end LockFreeCore
