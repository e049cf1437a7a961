import LockFreeCore.Model.CPacket
import LockFreeCore.Model.CRingBuff

/-! # The recv branch of the worker

One connection as the recv branch sees it: the receive ring, the buffer of the `WSARecv` in flight,
and the packets handed to `onRecv`. A completion brings its bytes into the posted buffer, moves the
rear, cuts off every packet that has arrived whole and, unless a header was bad, posts the next
receive. The loop is given fuel; a step is `none` when that runs out or when a copy has no defined
result.
-/

namespace LockFreeCore

def DEFAULT_BUFFER_SIZE : ℤ := 30000

/-- The buffer of a posted receive: the index it starts at and its length. -/
structure WSABUF where
  buf : ℤ
  len : ℤ
deriving DecidableEq, Repr

structure Framing where
  m_recvRingBuff : CRingBuff
  posted : Option WSABUF
  delivered : List CPacket

namespace Framing

open CPacket (HEADER_SIZE MAX_PACKET_SIZE)

/-- The `short` that the first two bytes of a packet hold. -/
def header (bytes : List UInt8) : ℤ := (LittleEndian.load 2 bytes).toInt

/-- The part of `recvPost` that chooses the buffer, for a session that is not closing. -/
def recvPost (conn : Framing) : Framing :=
  let ring := conn.m_recvRingBuff
  { conn with posted := some ⟨ring.getUseWriteBuffer, ring.getDirectWriteSize⟩ }

/-- The framing loop, with `protocolError`; `allocated` is what a fresh packet's memory holds. -/
def frames (allocated : ℤ → UInt8) : ℕ → Framing → Option (Framing × Bool)
  | 0, _ => none
  | fuel + 1, conn =>
    let ring := conn.m_recvRingBuff
    if HEADER_SIZE ≤ ring.getUseSize then
      (ring.peek HEADER_SIZE).bind fun peeked =>
        if header peeked < 0 ∨ MAX_PACKET_SIZE < header peeked then some (conn, true)
        else if ring.getUseSize < header peeked + HEADER_SIZE then some (conn, false)
        else
          (ring.dequeue (HEADER_SIZE + header peeked)).bind fun (bytes, ring) =>
            let pack := CPacket.ofSize (HEADER_SIZE + header peeked) allocated
            let pack := (pack.copyIn CPacket.getHeaderBuffer bytes).setCur (header peeked + HEADER_SIZE)
            frames allocated fuel
              { conn with m_recvRingBuff := ring, delivered := conn.delivered ++ [pack] }
    else some (conn, false)

/-- The completion of a receive that brings `bytes`. -/
def recvCompletion (allocated : ℤ → UInt8) (conn : Framing) (bytes : List UInt8) : Option Framing :=
  conn.posted.bind fun wsabuf =>
    (conn.m_recvRingBuff.store wsabuf.buf bytes.length (fun i => bytes.getD i.toNat 0) 0).bind fun ring =>
      let ring := ring.moveRearPos bytes.length
      (frames allocated ring.m_size.toNat { conn with m_recvRingBuff := ring, posted := none }).map
        fun (conn, protocolError) => if protocolError then conn else conn.recvPost

/-- The connection when the bytes of a completion have arrived and the framing loop begins. -/
def arrived (conn : Framing) (bytes : List UInt8) : Option Framing :=
  conn.posted.bind fun wsabuf =>
    (conn.m_recvRingBuff.store wsabuf.buf bytes.length (fun i => bytes.getD i.toNat 0) 0).map fun ring =>
      { conn with m_recvRingBuff := ring.moveRearPos bytes.length, posted := none }

/-- The `dequeue` calls of the framing loop: the ring each one finds and the size it asks for. -/
def dequeues : ℕ → CRingBuff → List (CRingBuff × ℤ)
  | 0, _ => []
  | fuel + 1, ring =>
    if HEADER_SIZE ≤ ring.getUseSize then
      (ring.peek HEADER_SIZE).elim [] fun peeked =>
        if header peeked < 0 ∨ MAX_PACKET_SIZE < header peeked then []
        else if ring.getUseSize < header peeked + HEADER_SIZE then []
        else
          (ring, HEADER_SIZE + header peeked) ::
            (ring.dequeue (HEADER_SIZE + header peeked)).elim [] fun taken => dequeues fuel taken.2
    else []

/-- The packet that the framing loop makes of the bytes it dequeues. -/
def pack (allocated : ℤ → UInt8) (bytes : List UInt8) : CPacket :=
  ((CPacket.ofSize bytes.length allocated).copyIn CPacket.getHeaderBuffer bytes).setCur bytes.length

/-- A connection when `acceptThread` has posted its first receive. -/
def accepted (allocated : ℤ → UInt8) : Framing :=
  recvPost ⟨CRingBuff.init DEFAULT_BUFFER_SIZE allocated, none, []⟩

/-- The payload that `onRecv` finds in a packet. -/
def received (pack : CPacket) : List UInt8 :=
  Circular.linear pack.m_buffer CPacket.getBuffer pack.getUseSize.toNat

/-- The payloads handed to `onRecv`, in order. -/
def payloads (conn : Framing) : List (List UInt8) := conn.delivered.map received

end Framing

end LockFreeCore
