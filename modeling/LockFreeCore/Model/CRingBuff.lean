import LockFreeCore.ToMathlib.Circular

/-! # The ring buffer

Indexes and sizes are the C `int`s of the class, far from overflow for every buffer it is given,
and `%` is the C remainder. Bytes of `m_buffer` are addressed by their index. A copy of a negative
number of bytes, or one that leaves the buffer, has no defined result and is `none`; so every
function that copies is partial, and a caller's buffer is the list of bytes copied to it.
-/

namespace LockFreeCore

structure CRingBuff where
  m_front : ℤ
  m_rear : ℤ
  m_size : ℤ
  m_buffer : ℤ → UInt8

namespace CRingBuff

/-- `init`: the indexes return to 0 and the buffer is freshly allocated, with any contents. -/
def init (BuffSize : ℤ) (allocated : ℤ → UInt8) : CRingBuff where
  m_front := 0
  m_rear := 0
  m_size := BuffSize
  m_buffer := allocated

variable (ring : CRingBuff)

def isEmpty : Bool := ring.m_front = ring.m_rear

def isFull : Bool :=
  ring.m_front = ring.m_rear + 1 ∨ (ring.m_front = 0 ∧ ring.m_rear = ring.m_size - 1)

def getSize : ℤ := ring.m_size - 1

def getUseSize : ℤ :=
  if ring.isEmpty then 0
  else if ring.isFull then ring.m_size - 1
  else if ring.m_front < ring.m_rear then ring.m_rear - ring.m_front
  else ring.m_size - (ring.m_front - ring.m_rear)

def getFreeSize : ℤ := (ring.m_size - 1) - ring.getUseSize

def getDirectReadSize : ℤ :=
  if ring.isEmpty then 0
  else
    let sub := ring.m_rear - ring.m_front
    if 0 < sub then
      if sub < 0 then 0 else sub
    else
      let s := ring.m_size - ring.m_front
      if s < 0 then 0 else ring.m_size - ring.m_front

def getDirectWriteSize : ℤ :=
  if ring.isFull then 0
  else if ring.isEmpty then ring.m_size - ring.m_rear
  else
    let front := ring.m_front
    let rear := ring.m_rear
    if front < rear then
      if front = 0 then
        let tmp := (rear + 1).tmod ring.m_size
        let s := ring.m_size - tmp
        if s < 0 then 0 else s
      else
        let s := ring.m_size - rear
        if s < 0 then 0 else s
    else
      let size := (front - 1) - rear
      if size < 0 then
        if ring.isEmpty then ring.m_size - ring.m_rear else 0
      else size

def moveFrontPos (size : ℤ) : CRingBuff :=
  { ring with m_front := (ring.m_front + size).tmod ring.m_size }

def moveRearPos (size : ℤ) : CRingBuff :=
  { ring with m_rear := (ring.m_rear + size).tmod ring.m_size }

def clearBuffer : CRingBuff := { ring with m_rear := ring.m_front }

/-- The index `getUseWriteBuffer` points at. -/
def getUseWriteBuffer : ℤ := ring.m_rear.tmod ring.m_size

/-- The index `getUseReadBuffer` points at. -/
def getUseReadBuffer : ℤ := ring.m_front.tmod ring.m_size

/-- Copying `size` bytes out of the buffer, from `index` on. -/
def load (index size : ℤ) : Option (List UInt8) :=
  if 0 ≤ size ∧ 0 ≤ index ∧ index + size ≤ ring.m_size then
    some (Circular.linear ring.m_buffer index size.toNat)
  else none

/-- Copying `size` bytes into the buffer, from `index` on; the source is read from `offset` on. -/
def store (index size : ℤ) (source : ℤ → UInt8) (offset : ℤ) : Option CRingBuff :=
  if 0 ≤ size ∧ 0 ≤ index ∧ index + size ≤ ring.m_size then
    some { ring with
      m_buffer := Circular.write ring.m_buffer index (Circular.linear source offset size.toNat) }
  else none

/-- `enqueue`, with the number of bytes it reports. -/
def enqueue (pBuffer : Option (ℤ → UInt8)) (size : ℤ) : Option (ℤ × CRingBuff) :=
  match pBuffer with
  | none => some (0, ring)
  | some source =>
    if size = 0 ∨ ring.isFull then some (0, ring)
    else
      let writeSize := ring.getDirectWriteSize
      let startindex := ring.m_rear.tmod ring.m_size
      if size ≤ writeSize then
        (ring.store startindex size source 0).map fun ring => (size, ring.moveRearPos size)
      else
        (ring.store startindex writeSize source 0).bind fun ring =>
          let tmp_rear := (ring.m_rear + writeSize).tmod ring.m_size
          if ring.m_front = tmp_rear + 1 ∨ (ring.m_front = 0 ∧ tmp_rear = ring.m_size - 1) then
            some (writeSize, ring.moveRearPos writeSize)
          else
            let curSize := size - writeSize
            let curWriteSize := if curSize ≤ ring.m_front - 1 then curSize else ring.m_front - 1
            let curindex := tmp_rear.tmod ring.m_size
            (ring.store curindex curWriteSize source writeSize).map fun ring =>
              (writeSize + curWriteSize, ring.moveRearPos (curWriteSize + writeSize))

/-- `peek` with a non-null target: the bytes it copies there, as many as it reports. -/
def peek (size : ℤ) : Option (List UInt8) :=
  if size = 0 ∨ ring.isEmpty then some []
  else
    let readSize := ring.getDirectReadSize
    let startindex := ring.m_front.tmod ring.m_size
    if size ≤ readSize then ring.load startindex size
    else
      (ring.load startindex readSize).bind fun first =>
        let curSize := size - readSize
        let curReadSize := if curSize ≤ ring.getUseSize then curSize else ring.getUseSize
        let curindex := (ring.m_front + readSize).tmod ring.m_size
        (ring.load curindex curReadSize).map fun second => first ++ second

/-- `dequeue` with a non-null target and without the terminating zero, as every caller asks for it:
the bytes it copies there, and the buffer afterwards. -/
def dequeue (size : ℤ) : Option (List UInt8 × CRingBuff) :=
  (ring.peek size).map fun bytes => (bytes, ring.moveFrontPos bytes.length)

/-- A receive straight into the buffer: the bytes arrive at `getUseWriteBuffer`, and the completion
then moves the rear. -/
def directWrite (bytes : List UInt8) : Option CRingBuff :=
  (ring.store ring.getUseWriteBuffer bytes.length (fun i => bytes.getD i.toNat 0) 0).map
    fun ring => ring.moveRearPos bytes.length

end CRingBuff

end LockFreeCore
