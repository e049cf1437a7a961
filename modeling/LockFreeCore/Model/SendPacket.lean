import LockFreeCore.Model.CRingBuff
import LockFreeCore.ToMathlib.Interleaving
import LockFreeCore.ToMathlib.LittleEndian
import LockFreeCore.ToMathlib.Reads

/-! # Sends on one session

`sendPacket`, `sendPost` and the send completions of one session that stays open and where no
`WSASend` fails, on the ring of bytes, at the grain of one access of `m_front`, `m_rear` or the
buffer inside `getFreeSize` and `enqueue`; the two indexes in one expression are read from left to
right. No step takes the lock of the ring, since nothing in the source calls `lock`. What the holder
of `m_isSendPending` does with the ring (`getUseSize`, `peek`, `dequeue`) is one access each.
-/

namespace LockFreeCore

namespace SendPacket

/-- A `CPacket*`. -/
abbrev Pointer := BitVec (8 * 8)

def pointerSize : ℤ := 8

/-- `DEFAULT_BUFFER_SIZE`. -/
def bufferSize : ℤ := 30000

inductive Index where
  | front
  | rear
deriving DecidableEq, Repr

def indexes (ring : CRingBuff) : Index → ℤ
  | .front => ring.m_front
  | .rear => ring.m_rear

def m_front {α : Type} (rest : ℤ → Reads Index ℤ α) : Reads Index ℤ α := .read .front rest

def m_rear {α : Type} (rest : ℤ → Reads Index ℤ α) : Reads Index ℤ α := .read .rear rest

def isEmpty : Reads Index ℤ Bool := m_front fun front => m_rear fun rear => .done (front = rear)

/-- The test of `isFull` and of `enqueue` against a rear that is read anew each time. -/
def isFull (m_size : ℤ) : Reads Index ℤ Bool :=
  m_front fun front => m_rear fun rear =>
    if front = rear + 1 then .done true
    else m_front fun front =>
      if front = 0 then m_rear fun rear => .done (rear = m_size - 1) else .done false

def getUseSize (m_size : ℤ) : Reads Index ℤ ℤ :=
  isEmpty.bind fun empty => if empty then .done 0 else
  (isFull m_size).bind fun full => if full then .done (m_size - 1) else
  m_front fun front => m_rear fun rear =>
    if front < rear then m_rear fun rear => m_front fun front => .done (rear - front)
    else m_front fun front => m_rear fun rear => .done (m_size - (front - rear))

def getFreeSize (m_size : ℤ) : Reads Index ℤ ℤ := (getUseSize m_size).bind fun use => .done ((m_size - 1) - use)

def getDirectWriteSize (m_size : ℤ) : Reads Index ℤ ℤ :=
  (isFull m_size).bind fun full => if full then .done 0 else
  isEmpty.bind fun empty => if empty then m_rear fun rear => .done (m_size - rear) else
  m_front fun front => m_rear fun rear =>
    if front < rear then
      if front = 0 then
        let tmp := (rear + 1).tmod m_size
        let s := m_size - tmp
        .done (if s < 0 then 0 else s)
      else
        let s := m_size - rear
        .done (if s < 0 then 0 else s)
    else
      let size := (front - 1) - rear
      if size < 0 then
        isEmpty.bind fun empty => if empty then m_rear fun rear => .done (m_size - rear) else .done 0
      else .done size

/-- The test in the middle of `enqueue`: whether the bytes up to `tmp_rear` fill the ring. -/
def stops (m_size tmp_rear : ℤ) : Reads Index ℤ Bool :=
  m_front fun front =>
    if front = tmp_rear + 1 then .done true
    else m_front fun front => .done (front = 0 ∧ tmp_rear = m_size - 1)

/-- Inside `sendPacket`, from the ring on. -/
inductive PacketPc where
  | free (reads : Reads Index ℤ ℤ)
  | full (reads : Reads Index ℤ Bool)
  | writeSize (reads : Reads Index ℤ ℤ)
  | startindex (writeSize : ℤ)
  | copy (startindex : ℤ)
  | copyFirst (writeSize startindex : ℤ)
  | tmp_rear (writeSize : ℤ)
  | stops (writeSize tmp_rear : ℤ) (reads : Reads Index ℤ Bool)
  | curWriteSize (writeSize tmp_rear : ℤ)
  | copyRest (writeSize curindex curWriteSize : ℤ)
  | moveRearPos (size : ℤ)
  | setRear (size rear : ℤ)
  | pending

/-- Inside `sendPost`. -/
inductive PostPc where
  | exchange
  | count
  | cap
  | peek
  | call

/-- Inside the branch of `workerThread` for a send completion. -/
inductive SentPc where
  | sent (i : ℕ)
  | done
  | more
  | idle

inductive Thread where
  | idle
  | sendPacket (pack : Pointer) (pc : PacketPc)
  | sendPost (pc : PostPc)
  | worker (pc : SentPc)

/-- The session, and what has happened to its ring so far, in order. -/
structure Session where
  m_sendRingBuff : CRingBuff
  m_isSendPending : Bool
  m_sendPacketCount : ℕ
  /-- A posted `WSASend` has not completed. -/
  inFlight : Bool
  /-- A copy without a defined result was made. -/
  undefined : Bool
  /-- The packets whose `enqueue` has returned, so that `sendPacket` will return true. -/
  enqueued : List Pointer
  peeked : List (List UInt8)
  dequeued : List (List UInt8)

/-- What an idle thread does next; a thread inside a function just goes on. -/
inductive Input where
  | go
  | sendPacket (pack : Pointer)
  | complete
deriving DecidableEq, Repr

/-- The bytes of the pointer, as `enqueue` is given them. -/
def source (pack : Pointer) : ℤ → UInt8 := fun i => (LittleEndian.store pack).getD i.toNat 0

variable (s : Session)

/-- A copy into the ring; when it has no defined result, the run is marked. -/
def copy (pack : Pointer) (index size offset : ℤ) : Session :=
  match s.m_sendRingBuff.store index size (source pack) offset with
  | some m_sendRingBuff => { s with m_sendRingBuff }
  | none => { s with undefined := true }

/-- `sendPacket` from the ring on. -/
def sendPacket (pack : Pointer) : PacketPc → Session × Thread
  | .free reads => reads.goOn (indexes s.m_sendRingBuff) (fun left => (s, .sendPacket pack (.free left)))
      -- the size is compared as an unsigned number
      fun free => if pointerSize ≤ free ∨ free < 0 then
          (s, .sendPacket pack (.full (isFull s.m_sendRingBuff.m_size)))
        else (s, .idle)
  | .full reads => reads.goOn (indexes s.m_sendRingBuff) (fun left => (s, .sendPacket pack (.full left)))
      fun full => if full then ({ s with enqueued := s.enqueued ++ [pack] }, .sendPacket pack .pending)
        else (s, .sendPacket pack (.writeSize (getDirectWriteSize s.m_sendRingBuff.m_size)))
  | .writeSize reads => reads.goOn (indexes s.m_sendRingBuff)
      (fun left => (s, .sendPacket pack (.writeSize left)))
      fun writeSize => (s, .sendPacket pack (.startindex writeSize))
  | .startindex writeSize =>
      let startindex := s.m_sendRingBuff.m_rear.tmod s.m_sendRingBuff.m_size
      if pointerSize ≤ writeSize then (s, .sendPacket pack (.copy startindex))
      else (s, .sendPacket pack (.copyFirst writeSize startindex))
  | .copy startindex => (copy s pack startindex pointerSize 0, .sendPacket pack (.moveRearPos pointerSize))
  | .copyFirst writeSize startindex =>
      (copy s pack startindex writeSize 0, .sendPacket pack (.tmp_rear writeSize))
  | .tmp_rear writeSize =>
      let tmp_rear := (s.m_sendRingBuff.m_rear + writeSize).tmod s.m_sendRingBuff.m_size
      (s, .sendPacket pack (.stops writeSize tmp_rear (stops s.m_sendRingBuff.m_size tmp_rear)))
  | .stops writeSize tmp_rear reads => reads.goOn (indexes s.m_sendRingBuff)
      (fun left => (s, .sendPacket pack (.stops writeSize tmp_rear left)))
      fun stops => if stops then (s, .sendPacket pack (.moveRearPos writeSize))
        else (s, .sendPacket pack (.curWriteSize writeSize tmp_rear))
  | .curWriteSize writeSize tmp_rear =>
      let curSize := pointerSize - writeSize
      let room := s.m_sendRingBuff.m_front - 1
      let curWriteSize := if curSize ≤ room then curSize else room
      (s, .sendPacket pack (.copyRest writeSize (tmp_rear.tmod s.m_sendRingBuff.m_size) curWriteSize))
  | .copyRest writeSize curindex curWriteSize =>
      (copy s pack curindex curWriteSize writeSize, .sendPacket pack (.moveRearPos (curWriteSize + writeSize)))
  | .moveRearPos size =>
      let rear := (s.m_sendRingBuff.m_rear + size).tmod s.m_sendRingBuff.m_size
      (s, .sendPacket pack (.setRear size rear))
  | .setRear _ rear =>
      ({ s with
          m_sendRingBuff := { s.m_sendRingBuff with m_rear := rear }
          enqueued := s.enqueued ++ [pack] }, .sendPacket pack .pending)
  | .pending => if s.m_isSendPending = false then (s, .sendPost .exchange) else (s, .idle)

def sendPost : PostPc → Session × Thread
  | .exchange =>
      let s' := { s with m_isSendPending := true }
      if s.m_isSendPending = false then (s', .sendPost .count) else (s', .idle)
  | .count =>
      ({ s with m_sendPacketCount := (s.m_sendRingBuff.getUseSize / pointerSize).toNat }, .sendPost .cap)
  | .cap =>
      if 1000 < s.m_sendPacketCount then ({ s with m_sendPacketCount := 1000 }, .sendPost .peek)
      else (s, .sendPost .peek)
  | .peek => match s.m_sendRingBuff.peek (pointerSize * s.m_sendPacketCount) with
      | some bytes => ({ s with peeked := s.peeked ++ [bytes] }, .sendPost .call)
      | none => ({ s with undefined := true }, .sendPost .call)
  | .call => ({ s with inFlight := true }, .idle)

def worker : SentPc → Session × Thread
  | .sent i =>
      if i < s.m_sendPacketCount then
        match s.m_sendRingBuff.dequeue pointerSize with
        | some (bytes, m_sendRingBuff) =>
            ({ s with m_sendRingBuff, dequeued := s.dequeued ++ [bytes] }, .worker (.sent (i + 1)))
        | none => ({ s with undefined := true }, .worker (.sent (i + 1)))
      else (s, .worker .done)
  | .done => ({ s with m_isSendPending := false }, .worker .more)
  | .more => if 0 < s.m_sendRingBuff.getUseSize then (s, .worker .idle) else (s, .idle)
  | .idle => if s.m_isSendPending = false then (s, .sendPost .exchange) else (s, .idle)

/-- The next access of a thread. -/
def exec {τ : Type} (s : Session) (_ : τ) : Thread → Input → Option (Session × Thread)
  | .idle, .sendPacket pack => some (s, .sendPacket pack (.free (getFreeSize s.m_sendRingBuff.m_size)))
  | .idle, .complete =>
      if s.inFlight then some ({ s with inFlight := false }, .worker (.sent 0)) else none
  | .idle, .go => none
  | .sendPacket pack pc, _ => some (sendPacket s pack pc)
  | .sendPost pc, _ => some (sendPost s pc)
  | .worker pc, _ => some (worker s pc)

/-- The session as `acceptThread` hands it over, with every thread idle. -/
def start (τ : Type) (allocated : ℤ → UInt8) (m_sendPacketCount : ℕ) : Pool τ Session Thread where
  shared :=
    { m_sendRingBuff := CRingBuff.init bufferSize allocated, m_isSendPending := false, m_sendPacketCount,
      inFlight := false, undefined := false, enqueued := [], peeked := [], dequeued := [] }
  threads _ := .idle

/-- One access of one thread. -/
abbrev step {τ : Type} [DecidableEq τ] : Pool τ Session Thread → τ × Input → Option (Pool τ Session Thread) :=
  Pool.step exec

end SendPacket

end LockFreeCore
