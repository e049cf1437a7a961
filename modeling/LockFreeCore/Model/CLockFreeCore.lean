import LockFreeCore.ToMathlib.Interleaving
import Mathlib.Data.Finmap

/-! # Sessions, workers and the accept thread

`CLockFreeCore.cpp` at the grain of one shared access: a frame says where a thread is inside one of
the functions, and a call puts the frames of the callee on top. The session table is the finite map
that the tree implements, the free list a stack, and an operation on a send ring one access. The
receive ring is left to the framing: here a receive completion yields any number of packets, or a
bad header.

A `Session*` carries the id it was obtained for and a `removeSession` the id whose event caused it;
no step reads these, nor the log.
-/

namespace LockFreeCore

namespace CLockFreeCore

/-- What is passed to `sendPacket`, named by the id it is passed with and a number. -/
structure Packet where
  addressee : ℤ
  number : ℕ
deriving DecidableEq, Repr

/-- One byte of a `CPacket*`. -/
structure Fragment where
  packet : Packet
  byte : ℕ
deriving DecidableEq, Repr

structure Session where
  m_sessionId : ℤ
  m_socket : ℕ
  m_sendRingBuff : List Fragment
  m_ioCount : ℤ
  m_isSendPending : Bool
  m_isClosing : Bool
  m_isTornDown : Bool
  m_sendPacketCount : ℕ
deriving DecidableEq, Repr

/-- A `Session*` to a slot of `m_sessionPool`, with the id it was obtained for. -/
structure Handle where
  slot : ℕ
  id : ℤ
deriving DecidableEq, Repr

/-- The `type` of an `OverlappedEx`. -/
inductive IoType where
  | recv
  | send
deriving DecidableEq, Repr

/-- A posted `WSARecv` or `WSASend` that has not completed. -/
structure Io where
  session : Handle
  type : IoType
deriving DecidableEq, Repr

inductive Event where
  | accepted (id : ℤ) (slot socket : ℕ)
  | marked (slot : ℕ) (owner cause : ℤ)
  | tornDown (slot : ℕ) (owner cause : ℤ)
  | closed (socket : ℕ)
  | enqueued (slot : ℕ) (owner : ℤ) (packet : Packet)
  | posted (slot : ℕ) (owner : ℤ) (socket : ℕ) (batch : List (Option Packet))
  | deleted (packet : Packet)
deriving DecidableEq, Repr

/-- `DEFAULT_BUFFER_SIZE`, less the cell that a ring keeps free. -/
def capacity : ℕ := 29999

def pointerSize : ℕ := 8

end CLockFreeCore

open CLockFreeCore in
structure CLockFreeCore where
  slots : ℕ → Session
  m_sessionMap : Finmap fun _ : ℤ => ℕ
  m_sessionFreeList : List ℕ
  m_nextSessionId : ℤ
  /-- The number of sockets that `accept` has returned. -/
  sockets : ℕ
  inFlight : List Io
  log : List Event

namespace CLockFreeCore

inductive AcceptPc where
  | next
  | socket
  | pending
  | ioCount
  | closing
  | tornDown
  | ring
  | insert
  | join
  | post
deriving DecidableEq, Repr

inductive WorkerPc where
  | peerClosed
  | peerGone
  | received
  | rejected
  | sent (i : ℕ)
  | sentSize (i : ℕ)
  | sentTake (i : ℕ)
  | sentDone
  | more
  | idle
  | decrement
  | poll
deriving DecidableEq, Repr

inductive RecvPc where
  | closing
  | increment
  | recheck
  | backOut
  | socket
  | call (socket : ℕ)
  | failed
  | report
deriving DecidableEq, Repr

inductive SendPc where
  | exchange
  | closing
  | release
  | size
  | store (n : ℕ)
  | cap
  | storeCap
  | checkSize
  | check (size : ℕ)
  | count
  | peek (n : ℕ)
  | fill (c wsabuf : List (Option Packet))
  | increment (wsabuf : List (Option Packet))
  | recheck (wsabuf : List (Option Packet))
  | backOut
  | socket (wsabuf : List (Option Packet))
  | buffers (wsabuf : List (Option Packet)) (socket : ℕ)
  | call (wsabuf : List (Option Packet)) (socket : ℕ)
  | failed
  | failedRelease
  | report
deriving DecidableEq, Repr

inductive RemovePc where
  | mark
  | closing
  | ioCount
  | swap
  | drain
  | take
  | rest
  | socket
  | close (socket : ℕ)
  | leave
  | erase
  | push
deriving DecidableEq, Repr

inductive PacketPc where
  | free
  | enqueue
  | pending
deriving DecidableEq, Repr

inductive Frame where
  /-- User code: an application thread, or a callback. -/
  | app
  | accept
  | asked (socket : ℕ)
  | issue (slot socket : ℕ)
  | accepting (session : Handle) (socket : ℕ) (pc : AcceptPc)
  | getStatus
  | worker (session : Handle) (pc : WorkerPc)
  | recvPost (session : Handle) (pc : RecvPc)
  | sendPost (session : Handle) (pc : SendPc)
  | findRemove (id : ℤ) (mark : Bool) (cause : ℤ)
  | removeSession (session : Handle) (cause : ℤ) (pc : RemovePc)
  | findSend (packet : Packet)
  | sendPacket (session : Handle) (packet : Packet) (pc : PacketPc)
  | drop (packet : Packet)
deriving DecidableEq, Repr

/-- What a step leaves open: what user code does, which IO completes and how, what memory holds that
was never written. -/
inductive Input where
  | go
  | disconnect (id : ℤ)
  | sendPacket (packet : Packet)
  | leave
  | refuse
  | complete (index cbTransferred : ℕ)
  | packet
  | badHeader
  | fail
  | junk (pointers : List (Option Packet))
  | junkRing (ring : List Fragment)
deriving DecidableEq, Repr

variable (s : CLockFreeCore)

def modify (slot : ℕ) (change : Session → Session) : CLockFreeCore :=
  { s with slots := Function.update s.slots slot (change (s.slots slot)) }

def record (event : Event) : CLockFreeCore := { s with log := event :: s.log }

/-- Deleting what a dequeued pointer points to. -/
def delete : Option Packet → CLockFreeCore
  | some packet => s.record (.deleted packet)
  | none => s

/-- The bytes of a pointer. -/
def pointer (packet : Packet) : List Fragment := (List.range pointerSize).map (⟨packet, ·⟩)

/-- The pointer that the bytes are, if they are one. -/
def decode (bytes : List Fragment) : Option Packet :=
  match bytes with
  | first :: _ => if bytes = pointer first.packet then some first.packet else none
  | [] => none

/-- `enqueue` of a pointer. -/
def enqueue (ring : List Fragment) (packet : Packet) : List Fragment :=
  ring ++ (pointer packet).take (capacity - ring.length)

/-- `peek` of `n` pointers; what it does not fill holds anything. -/
def peek (ring : List Fragment) (n : ℕ) (input : Input) : List (Option Packet) :=
  if pointerSize * n ≤ ring.length then
    (List.range n).map fun i => decode ((ring.drop (pointerSize * i)).take pointerSize)
  else match input with
    | .junk pointers => pointers
    | _ => []

/-- `dequeue` of a pointer: the pointer and the ring; with fewer bytes in the ring it may leave any
ring behind. -/
def dequeue (ring : List Fragment) (input : Input) : Option Packet × List Fragment :=
  if pointerSize ≤ ring.length then (decode (ring.take pointerSize), ring.drop pointerSize)
  else match input with
    | .junkRing left => (none, left)
    | _ => (none, [])

/-- User code calls the server, or returns. -/
def app : Input → Option (CLockFreeCore × List Frame)
  | .disconnect id => some (s, [.findRemove id true id, .app])
  | .sendPacket packet => some (s, [.findSend packet, .app])
  | .leave => some (s, [])
  | _ => none

/-- The loop of `acceptThread` up to the free list. -/
def accept : Input → Option (CLockFreeCore × List Frame)
  | .fail => some (s, [.app])
  | _ => some ({ s with sockets := s.sockets + 1 }, [.app, .asked s.sockets])

def asked (socket : ℕ) : Input → Option (CLockFreeCore × List Frame)
  | .refuse => some (s.record (.closed socket), [.accept])
  | _ => match s.m_sessionFreeList with
    | [] => some (s.record (.closed socket), [.accept])
    | slot :: rest => some ({ s with m_sessionFreeList := rest }, [.issue slot socket])

def issue (slot socket : ℕ) : Option (CLockFreeCore × List Frame) :=
  some ((s.modify slot fun client => { client with m_sessionId := s.m_nextSessionId }).record
    (.accepted s.m_nextSessionId slot socket), [.accepting ⟨slot, s.m_nextSessionId⟩ socket .next])

/-- `acceptThread` from the id on. -/
def accepting (client : Handle) (sock : ℕ) : AcceptPc → Option (CLockFreeCore × List Frame)
  | .next => some ({ s with m_nextSessionId := s.m_nextSessionId + 1 }, [.accepting client sock .socket])
  | .socket => some (s.modify client.slot fun session => { session with m_socket := sock },
      [.accepting client sock .pending])
  | .pending => some (s.modify client.slot fun session => { session with m_isSendPending := false },
      [.accepting client sock .ioCount])
  | .ioCount => some (s.modify client.slot fun session => { session with m_ioCount := 0 },
      [.accepting client sock .closing])
  | .closing => some (s.modify client.slot fun session => { session with m_isClosing := false },
      [.accepting client sock .tornDown])
  | .tornDown => some (s.modify client.slot fun session => { session with m_isTornDown := false },
      [.accepting client sock .ring])
  | .ring => some (s.modify client.slot fun session => { session with m_sendRingBuff := [] },
      [.accepting client sock .insert])
  | .insert =>
      let m_sessionMap := s.m_sessionMap.insert (s.slots client.slot).m_sessionId client.slot
      some ({ s with m_sessionMap }, [.accepting client sock .join])
  | .join => some (s, [.app, .accepting client sock .post])
  | .post => some (s, [.recvPost client .closing, .accept])

/-- `GetQueuedCompletionStatus` and the branch on what it returns. -/
def getStatus : Input → Option (CLockFreeCore × List Frame)
  | .complete index cbTransferred => (s.inFlight[index]?).map fun io =>
      let s := { s with inFlight := s.inFlight.eraseIdx index }
      if cbTransferred = 0 then (s, [.worker io.session .peerClosed])
      else match io.type with
        | .recv => (s, [.worker io.session .received])
        | .send => (s, [.worker io.session (.sent 0)])
  | _ => none

def worker (client : Handle) : WorkerPc → Input → Option (CLockFreeCore × List Frame)
  | .peerClosed, _ => some (s.modify client.slot fun session =>
      { session with m_ioCount := session.m_ioCount - 1 }, [.worker client .peerGone])
  | .peerGone, _ => some (s, [.findRemove (s.slots client.slot).m_sessionId true client.id, .getStatus])
  | .received, .packet => some (s, [.app, .worker client .received])
  | .received, .badHeader => some (s, [.app, .worker client .rejected])
  | .received, _ => some (s, [.recvPost client .closing, .worker client .decrement])
  | .rejected, _ => some (s, [.findRemove (s.slots client.slot).m_sessionId true client.id,
      .worker client .decrement])
  | .sent i, _ =>
      if i < (s.slots client.slot).m_sendPacketCount then some (s, [.worker client (.sentSize i)])
      else some (s, [.worker client .sentDone])
  | .sentSize i, _ =>
      if (s.slots client.slot).m_sendRingBuff.length < pointerSize then
        some (s, [.app, .worker client (.sentTake i)])
      else some (s, [.worker client (.sentTake i)])
  | .sentTake i, input =>
      let (c, ring) := dequeue (s.slots client.slot).m_sendRingBuff input
      some ((s.modify client.slot fun session => { session with m_sendRingBuff := ring }).delete c,
        [.worker client (.sent (i + 1))])
  | .sentDone, _ => some (s.modify client.slot fun session => { session with m_isSendPending := false },
      [.worker client .more])
  | .more, _ =>
      if 0 < (s.slots client.slot).m_sendRingBuff.length then some (s, [.worker client .idle])
      else some (s, [.worker client .decrement])
  | .idle, _ =>
      if (s.slots client.slot).m_isSendPending = false then
        some (s, [.sendPost client .exchange, .worker client .decrement])
      else some (s, [.worker client .decrement])
  | .decrement, _ => some (s.modify client.slot fun session =>
      { session with m_ioCount := session.m_ioCount - 1 }, [.worker client .poll])
  | .poll, _ => some (s, [.findRemove (s.slots client.slot).m_sessionId false client.id, .getStatus])

def recvPost (session : Handle) : RecvPc → Input → Option (CLockFreeCore × List Frame)
  | .closing, _ =>
      if (s.slots session.slot).m_isClosing then some (s, []) else some (s, [.recvPost session .increment])
  | .increment, _ => some (s.modify session.slot fun session =>
      { session with m_ioCount := session.m_ioCount + 1 }, [.recvPost session .recheck])
  | .recheck, _ =>
      if (s.slots session.slot).m_isClosing then some (s, [.recvPost session .backOut])
      else some (s, [.recvPost session .socket])
  | .backOut, _ => some (s.modify session.slot fun session =>
      { session with m_ioCount := session.m_ioCount - 1 }, [])
  | .socket, _ => some (s, [.recvPost session (.call (s.slots session.slot).m_socket)])
  | .call _, .fail => some (s, [.recvPost session .failed])
  | .call _, _ => some ({ s with inFlight := ⟨session, .recv⟩ :: s.inFlight }, [])
  | .failed, _ => some (s.modify session.slot fun session =>
      { session with m_ioCount := session.m_ioCount - 1 }, [.app, .recvPost session .report])
  | .report, _ => some (s, [.findRemove (s.slots session.slot).m_sessionId true session.id])

def sendPost (session : Handle) : SendPc → Input → Option (CLockFreeCore × List Frame)
  | .exchange, _ =>
      let s' := s.modify session.slot fun session => { session with m_isSendPending := true }
      if (s.slots session.slot).m_isSendPending = false then some (s', [.sendPost session .closing])
      else some (s', [])
  | .closing, _ =>
      if (s.slots session.slot).m_isClosing then some (s, [.sendPost session .release])
      else some (s, [.sendPost session .size])
  | .release, _ => some (s.modify session.slot fun session => { session with m_isSendPending := false }, [])
  | .size, _ => some (s, [.sendPost session
      (.store ((s.slots session.slot).m_sendRingBuff.length / pointerSize))])
  | .store n, _ => some (s.modify session.slot fun session => { session with m_sendPacketCount := n },
      [.sendPost session .cap])
  | .cap, _ =>
      if 1000 < (s.slots session.slot).m_sendPacketCount then some (s, [.sendPost session .storeCap])
      else some (s, [.sendPost session .checkSize])
  | .storeCap, _ => some (s.modify session.slot fun session => { session with m_sendPacketCount := 1000 },
      [.sendPost session .checkSize])
  | .checkSize, _ => some (s, [.sendPost session (.check (s.slots session.slot).m_sendRingBuff.length)])
  | .check size, _ =>
      if size < pointerSize * (s.slots session.slot).m_sendPacketCount then
        some (s, [.app, .sendPost session .count])
      else some (s, [.sendPost session .count])
  | .count, _ => some (s, [.sendPost session (.peek (s.slots session.slot).m_sendPacketCount)])
  | .peek n, input => some (s, [.sendPost session
      (.fill (peek (s.slots session.slot).m_sendRingBuff n input) [])])
  | .fill c wsabuf, input =>
      if wsabuf.length < (s.slots session.slot).m_sendPacketCount then
        match (c)[wsabuf.length]?, input with
        | some pointer, _ => some (s, [.sendPost session (.fill c (wsabuf ++ [pointer]))])
        | none, .junk (pointer :: _) => some (s, [.sendPost session (.fill c (wsabuf ++ [pointer]))])
        | none, _ => some (s, [.sendPost session (.fill c (wsabuf ++ [none]))])
      else some (s, [.sendPost session (.increment wsabuf)])
  | .increment wsabuf, _ => some (s.modify session.slot fun session =>
      { session with m_ioCount := session.m_ioCount + 1 }, [.sendPost session (.recheck wsabuf)])
  | .recheck wsabuf, _ =>
      if (s.slots session.slot).m_isClosing then some (s, [.sendPost session .backOut])
      else some (s, [.sendPost session (.socket wsabuf)])
  | .backOut, _ => some (s.modify session.slot fun session =>
      { session with m_ioCount := session.m_ioCount - 1 }, [.sendPost session .release])
  | .socket wsabuf, _ => some (s, [.sendPost session (.buffers wsabuf (s.slots session.slot).m_socket)])
  | .buffers wsabuf socket, input =>
      let count := (s.slots session.slot).m_sendPacketCount
      if count ≤ wsabuf.length then some (s, [.sendPost session (.call (wsabuf.take count) socket)])
      else match input with
        | .junk pointers => some (s, [.sendPost session (.call (wsabuf ++ pointers) socket)])
        | _ => some (s, [.sendPost session (.call wsabuf socket)])
  | .call _ _, .fail => some (s, [.sendPost session .failed])
  | .call wsabuf socket, _ => some (({ s with inFlight := ⟨session, .send⟩ :: s.inFlight } : CLockFreeCore).record
      (.posted session.slot (s.slots session.slot).m_sessionId socket wsabuf), [])
  | .failed, _ => some (s.modify session.slot fun session =>
      { session with m_ioCount := session.m_ioCount - 1 }, [.sendPost session .failedRelease])
  | .failedRelease, _ => some (s.modify session.slot fun session =>
      { session with m_isSendPending := false }, [.app, .sendPost session .report])
  | .report, _ => some (s, [.findRemove (s.slots session.slot).m_sessionId true session.id])

/-- `removeSession` up to the session, with `findSession`. -/
def findRemove (id : ℤ) (mark : Bool) (cause : ℤ) : Option (CLockFreeCore × List Frame) :=
  match s.m_sessionMap.lookup id with
  | none => some (s, [])
  | some slot => some (s, [.removeSession ⟨slot, id⟩ cause (if mark then .mark else .closing)])

def removeSession (session : Handle) (cause : ℤ) : RemovePc → Input → Option (CLockFreeCore × List Frame)
  | .mark, _ => some ((s.modify session.slot fun session => { session with m_isClosing := true }).record
      (.marked session.slot (s.slots session.slot).m_sessionId cause), [.removeSession session cause .closing])
  | .closing, _ =>
      if (s.slots session.slot).m_isClosing then some (s, [.removeSession session cause .ioCount])
      else some (s, [])
  | .ioCount, _ =>
      if (s.slots session.slot).m_ioCount ≠ 0 then some (s, [])
      else some (s, [.removeSession session cause .swap])
  | .swap, _ =>
      if (s.slots session.slot).m_isTornDown then some (s, [])
      else some ((s.modify session.slot fun session => { session with m_isTornDown := true }).record
        (.tornDown session.slot (s.slots session.slot).m_sessionId cause), [.removeSession session cause .drain])
  | .drain, _ =>
      if pointerSize ≤ (s.slots session.slot).m_sendRingBuff.length then
        some (s, [.removeSession session cause .take])
      else some (s, [.removeSession session cause .rest])
  | .take, input =>
      let (c, ring) := dequeue (s.slots session.slot).m_sendRingBuff input
      some ((s.modify session.slot fun session => { session with m_sendRingBuff := ring }).delete c,
        [.removeSession session cause .drain])
  | .rest, _ =>
      if 0 < (s.slots session.slot).m_sendRingBuff.length then
        some (s, [.app, .removeSession session cause .socket])
      else some (s, [.removeSession session cause .socket])
  | .socket, _ => some (s, [.removeSession session cause (.close (s.slots session.slot).m_socket)])
  | .close socket, _ => some (s.record (.closed socket), [.removeSession session cause .leave])
  | .leave, _ => some (s, [.app, .removeSession session cause .erase])
  | .erase, _ => some ({ s with m_sessionMap := s.m_sessionMap.erase (s.slots session.slot).m_sessionId },
      [.removeSession session cause .push])
  | .push, _ => some ({ s with m_sessionFreeList := session.slot :: s.m_sessionFreeList }, [])

/-- `sendPacket` up to the session. -/
def findSend (packet : Packet) : Option (CLockFreeCore × List Frame) :=
  match s.m_sessionMap.lookup packet.addressee with
  | none => some (s, [])
  | some slot => some (s, [.sendPacket ⟨slot, packet.addressee⟩ packet .free])

def sendPacket (session : Handle) (packet : Packet) : PacketPc → Option (CLockFreeCore × List Frame)
  | .free =>
      if pointerSize ≤ capacity - (s.slots session.slot).m_sendRingBuff.length then
        some (s, [.sendPacket session packet .enqueue])
      else some (s, [.app, .drop packet])
  | .enqueue => some ((s.modify session.slot fun session =>
      { session with m_sendRingBuff := CLockFreeCore.enqueue session.m_sendRingBuff packet }).record
      (.enqueued session.slot (s.slots session.slot).m_sessionId packet), [.sendPacket session packet .pending])
  | .pending =>
      if (s.slots session.slot).m_isSendPending = false then some (s, [.sendPost session .exchange])
      else some (s, [])

def getSessionCount : ℤ := s.m_sessionMap.keys.card

/-- The next access of a frame. -/
def exec (s : CLockFreeCore) (frame : Frame) (input : Input) : Option (CLockFreeCore × List Frame) :=
  match frame with
  | .app => app s input
  | .accept => accept s input
  | .asked socket => asked s socket input
  | .issue slot socket => issue s slot socket
  | .accepting client socket pc => accepting s client socket pc
  | .getStatus => getStatus s input
  | .worker client pc => worker s client pc input
  | .recvPost session pc => recvPost s session pc input
  | .sendPost session pc => sendPost s session pc input
  | .findRemove id mark cause => findRemove s id mark cause
  | .removeSession session cause pc => removeSession s session cause pc input
  | .findSend packet => findSend s packet
  | .sendPacket session packet pc => sendPacket s session packet pc
  | .drop packet => some (s.record (.deleted packet), [])

abbrev Machine := Stacks CLockFreeCore Frame

/-- One access of one thread. -/
abbrev step : Machine → ℕ × Input → Option Machine := Stacks.step exec

/-- After `start`: every slot is free, the accept thread, the workers and any number of application
threads are about to begin. -/
def start (slots : ℕ → Session) (sessionMax workerMax apps : ℕ) : Machine where
  shared := ⟨slots, ∅, (List.range sessionMax).reverse, 0, 0, [], []⟩
  threads := [.accept] :: (List.replicate workerMax [.getStatus] ++ List.replicate apps [.app])

end CLockFreeCore

end LockFreeCore
