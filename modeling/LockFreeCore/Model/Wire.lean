import LockFreeCore.Model.Framing
import LockFreeCore.Model.SendPacket

/-! # Packets on the wire

What `sendPacket` does to a packet, and the bytes that `sendPost` gives to `WSASend` for it.
-/

namespace LockFreeCore

namespace Wire

/-- `sendPacket` for a session in the table whose send ring has `freeSize` bytes of room: the packet whose
pointer it enqueues. The payload size becomes a `short`. -/
def sendPacket (freeSize : ℤ) (pack : CPacket) : Option CPacket :=
  let s : BitVec (8 * 2) := BitVec.ofInt (8 * 2) pack.getUseSize
  let pack := pack.setHeader (LittleEndian.store s)
  if SendPacket.pointerSize ≤ freeSize then some pack else none

/-- `getTotalUseSize()` bytes from `getHeaderBuffer()` on. -/
def bytes (pack : CPacket) : List UInt8 :=
  Circular.linear pack.m_buffer CPacket.getHeaderBuffer pack.getTotalUseSize.toNat

end Wire

end LockFreeCore
