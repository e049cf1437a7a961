import LockFreeCore.ToMathlib.Circular
import LockFreeCore.ToMathlib.LittleEndian

/-! # The packet buffer

A packet is a buffer with a cursor; the first `HEADER_SIZE` bytes are the header. `m_buffer` is the
memory from the start of the allocation on, so its cells from `m_size` on are whatever lies behind
it: the shift inside `operator>>` may read a few of those. Overlapping copies move the bytes as they
were before the copy, and a copy of a negative number of bytes, a huge one as `size_t`, is `none`.
-/

namespace LockFreeCore

structure CPacket where
  m_size : ℤ
  m_curSize : ℤ
  m_buffer : ℤ → UInt8

namespace CPacket

def HEADER_SIZE : ℤ := 2

def MAX_PACKET_SIZE : ℤ := 4000

/-- The types that have an `operator<<` and an `operator>>`. -/
inductive Ty where
  | byte | int | WORD | DWORD | short | double
deriving DecidableEq, Repr

def sizeof : Ty → ℕ
  | .byte => 1
  | .int => 4
  | .WORD => 2
  | .DWORD => 4
  | .short => 2
  | .double => 8

/-- An `int` compared with a `size_t`. -/
def size_t (x : ℤ) : ℤ := if x < 0 then x + 2 ^ 64 else x

/-- `CPacket(int size)`; the allocated memory may hold anything. -/
def ofSize (size : ℤ) (allocated : ℤ → UInt8) : CPacket where
  m_size := size
  m_curSize := HEADER_SIZE
  m_buffer := allocated

/-- `CPacket()`. -/
def ofDefault (allocated : ℤ → UInt8) : CPacket := ofSize 512 allocated

variable (packet : CPacket)

def clear : CPacket := { packet with m_curSize := 0 }

def getTotalUseSize : ℤ := packet.m_curSize

def getUseSize : ℤ := packet.m_curSize - HEADER_SIZE

/-- The index `getBuffer` points at. -/
def getBuffer : ℤ := HEADER_SIZE

/-- The index `getHeaderBuffer` points at. -/
def getHeaderBuffer : ℤ := 0

def setCur (size : ℤ) : CPacket := { packet with m_curSize := size }

/-- `memcpy_s` to `m_buffer[target]` of as many bytes as there are. -/
def copyIn (target : ℤ) (bytes : List UInt8) : CPacket :=
  { packet with m_buffer := Circular.write packet.m_buffer target bytes }

/-- `memcpy_s` of `size` bytes from `m_buffer[source]`. -/
def copyOut (source size : ℤ) : Option (List UInt8) :=
  if 0 ≤ size then some (Circular.linear packet.m_buffer source size.toNat) else none

/-- `memcpy_s` of `size` bytes inside the buffer. -/
def copyWithin (target source size : ℤ) : Option CPacket :=
  (packet.copyOut source size).map (packet.copyIn target)

/-- `setData(buff, size)`, for a `buff` of `size` bytes. -/
def setData (buff : List UInt8) : CPacket :=
  if packet.m_curSize + buff.length ≤ packet.m_size then
    (packet.copyIn packet.m_curSize buff).setCur (packet.m_curSize + buff.length)
  else packet

/-- `getData(data, size)`: the bytes copied to `data`, none of them when the guard fails. -/
def getData (size : ℤ) : Option (List UInt8 × CPacket) :=
  if packet.m_curSize + size ≤ packet.m_size then
    (packet.copyOut HEADER_SIZE size).bind fun data =>
      (packet.copyWithin HEADER_SIZE size (packet.m_curSize - HEADER_SIZE)).map fun packet =>
        (data, packet.setCur (packet.m_curSize - size))
  else some ([], packet)

/-- `setHeader(char*)`, for a `buff` of `HEADER_SIZE` bytes. -/
def setHeader (buff : List UInt8) : CPacket := packet.copyIn 0 (buff.take 2)

/-- `getHeader`: the bytes copied to `data`. -/
def getHeader : List UInt8 := Circular.linear packet.m_buffer 0 2

/-- `operator<<` for a type of `n` bytes. -/
def insert (n : ℕ) (data : BitVec (8 * n)) : CPacket :=
  if size_t (packet.m_curSize + n) ≤ size_t packet.m_size then
    (packet.copyIn packet.m_curSize (LittleEndian.store data)).setCur (packet.m_curSize + n)
  else packet

/-- `operator>>` for a type of `n` bytes: the variable and the packet afterwards. What remains of
the payload is copied to its start from `&m_buffer[n]` on. -/
def extract (n : ℕ) (data : BitVec (8 * n)) : Option (BitVec (8 * n) × CPacket) :=
  if n ≤ size_t packet.m_curSize then
    (packet.copyOut HEADER_SIZE n).bind fun bytes =>
      (packet.copyWithin HEADER_SIZE n (packet.m_curSize - HEADER_SIZE)).map fun packet =>
        (LittleEndian.load n bytes, packet.setCur (packet.m_curSize - n))
  else some (data, packet)

def insertByte (data : BitVec 8) : CPacket := packet.insert 1 data
def extractByte (data : BitVec 8) : Option (BitVec 8 × CPacket) := packet.extract 1 data
def insertInt (data : BitVec 32) : CPacket := packet.insert 4 data
def extractInt (data : BitVec 32) : Option (BitVec 32 × CPacket) := packet.extract 4 data
def insertWORD (data : BitVec 16) : CPacket := packet.insert 2 data
def extractWORD (data : BitVec 16) : Option (BitVec 16 × CPacket) := packet.extract 2 data
def insertDWORD (data : BitVec 32) : CPacket := packet.insert 4 data
def extractDWORD (data : BitVec 32) : Option (BitVec 32 × CPacket) := packet.extract 4 data
def insertShort (data : BitVec 16) : CPacket := packet.insert 2 data
def extractShort (data : BitVec 16) : Option (BitVec 16 × CPacket) := packet.extract 2 data
def insertDouble (data : BitVec 64) : CPacket := packet.insert 8 data
def extractDouble (data : BitVec 64) : Option (BitVec 64 × CPacket) := packet.extract 8 data

/-- A variable of one of the types, with its bits. -/
structure Value where
  ty : Ty
  data : BitVec (8 * sizeof ty)
deriving DecidableEq

/-- `operator<<` at the type of the value. -/
def put : Value → CPacket
  | ⟨.byte, data⟩ => packet.insertByte data
  | ⟨.int, data⟩ => packet.insertInt data
  | ⟨.WORD, data⟩ => packet.insertWORD data
  | ⟨.DWORD, data⟩ => packet.insertDWORD data
  | ⟨.short, data⟩ => packet.insertShort data
  | ⟨.double, data⟩ => packet.insertDouble data

/-- `operator>>` into the variable: its new value, and the packet afterwards. -/
def get : Value → Option (Value × CPacket)
  | ⟨.byte, data⟩ => (packet.extractByte data).map fun out => (⟨.byte, out.1⟩, out.2)
  | ⟨.int, data⟩ => (packet.extractInt data).map fun out => (⟨.int, out.1⟩, out.2)
  | ⟨.WORD, data⟩ => (packet.extractWORD data).map fun out => (⟨.WORD, out.1⟩, out.2)
  | ⟨.DWORD, data⟩ => (packet.extractDWORD data).map fun out => (⟨.DWORD, out.1⟩, out.2)
  | ⟨.short, data⟩ => (packet.extractShort data).map fun out => (⟨.short, out.1⟩, out.2)
  | ⟨.double, data⟩ => (packet.extractDouble data).map fun out => (⟨.double, out.1⟩, out.2)

/-- Writing values one after another. -/
def putAll (values : List Value) : CPacket := values.foldl put packet

/-- Reading into variables one after another. -/
def getAll (packet : CPacket) : List Value → Option (List Value × CPacket)
  | [] => some ([], packet)
  | target :: rest => (packet.get target).bind fun (value, packet) =>
      (packet.getAll rest).map fun (values, packet) => (value :: values, packet)

/-- A call that appends to a packet. -/
inductive Fill where
  | put (value : Value)
  | setData (buff : List UInt8)
deriving DecidableEq

def fill : Fill → CPacket
  | .put value => packet.put value
  | .setData buff => packet.setData buff

/-- Appending one call after another. -/
def fillAll (fills : List Fill) : CPacket := fills.foldl fill packet

/-- `getData` of these lengths one after another. -/
def getDataAll (packet : CPacket) : List ℕ → Option (List (List UInt8) × CPacket)
  | [] => some ([], packet)
  | size :: rest => (packet.getData size).bind fun (data, packet) =>
      (packet.getDataAll rest).map fun (parts, packet) => (data :: parts, packet)

/-- A copy of `size` bytes from or to `start` stays inside the allocation. -/
def Inside (start size : ℤ) : Prop := size ≤ 0 ∨ (0 ≤ start ∧ start + size ≤ packet.m_size)

instance decidableInside (start size : ℤ) : Decidable (packet.Inside start size) :=
  inferInstanceAs (Decidable (_ ∨ _))

/-- `copyOut`, with no result when it reads outside the allocation. -/
def copyOutInside (source size : ℤ) : Option (List UInt8) :=
  if packet.Inside source size then packet.copyOut source size else none

/-- `copyWithin`, with no result when it reads or writes outside the allocation. -/
def copyWithinInside (target source size : ℤ) : Option CPacket :=
  if packet.Inside target size then (packet.copyOutInside source size).map (packet.copyIn target) else none

/-- `operator>>` with these copies. -/
def extractInside (n : ℕ) (data : BitVec (8 * n)) : Option (BitVec (8 * n) × CPacket) :=
  if n ≤ size_t packet.m_curSize then
    (packet.copyOutInside HEADER_SIZE n).bind fun bytes =>
      (packet.copyWithinInside HEADER_SIZE n (packet.m_curSize - HEADER_SIZE)).map fun packet =>
        (LittleEndian.load n bytes, packet.setCur (packet.m_curSize - n))
  else some (data, packet)

/-- Reading into variables one after another, with these copies. -/
def getAllInside (packet : CPacket) : List Value → Option (List Value × CPacket)
  | [] => some ([], packet)
  | target :: rest => (packet.extractInside (sizeof target.ty) target.data).bind fun (data, packet) =>
      (packet.getAllInside rest).map fun (values, packet) => (⟨target.ty, data⟩ :: values, packet)

/-- An `int` sum that has wrapped around. -/
def wrap (x : ℤ) : ℤ := x.bmod (2 ^ 32)

/-- `setData` for a `buff` of any length: its guard adds two `int`s. -/
def setDataInt (buff : List UInt8) : CPacket :=
  if wrap (packet.m_curSize + buff.length) ≤ packet.m_size then
    (packet.copyIn packet.m_curSize buff).setCur (wrap (packet.m_curSize + buff.length))
  else packet

/-- A call that writes to a packet; `setHeader` gets the two bytes of the header. -/
inductive Build where
  | put (value : Value)
  | setData (buff : List UInt8)
  | setHeader (low high : UInt8)
  | clear
deriving DecidableEq

def build : Build → CPacket
  | .put value => packet.put value
  | .setData buff => packet.setDataInt buff
  | .setHeader low high => packet.setHeader [low, high]
  | .clear => packet.clear

/-- Writing one call after another. -/
def buildAll (builds : List Build) : CPacket := builds.foldl build packet

end CPacket

end LockFreeCore
