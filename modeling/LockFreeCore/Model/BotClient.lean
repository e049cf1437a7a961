import LockFreeCore.Model.EchoServer

/-! # Virtual clients of the echo server

`runVirtualClient` of the load test, with the connection it opens and the session of the echo server at its
other end. TCP brings the bytes of each direction in order and cuts them anywhere. Any number of clients run
at once and share the counters, which wrap around; an access of a counter is one step together with the call
before it. Every client that connects gets a session, whose handlers do not overlap, and the session of a
client that has left is not torn down. Times and latencies are left out.
-/

namespace LockFreeCore

namespace BotClient

/-- The bits of `(double)n`, for an `n` of less than 54 bits. -/
def double (n : ℤ) : BitVec 64 :=
  let magnitude := n.natAbs
  if magnitude = 0 then 0
  else
    let exponent := Nat.log2 magnitude
    BitVec.ofBool (n < 0) ++ BitVec.ofNat 11 (1023 + exponent) ++
      BitVec.ofNat 52 (magnitude * 2 ^ (52 - exponent) - 2 ^ 52)

/-- The value of packet `p` of client `index`, computed as an `int` that wraps around. -/
def payload (index p : ℕ) : BitVec 64 := double (CPacket.wrap (index * 100000 + p))

def header : BitVec 16 := 8

def packet (index p : ℕ) : List UInt8 :=
  LittleEndian.store (n := 2) header ++ LittleEndian.store (n := 8) (payload index p)

/-- Where `runVirtualClient` is; `resp` holds the `got` bytes that have come. A client that has left keeps
the numbers of its packets that were sent and received. -/
inductive Client where
  | connecting
  | sending (p : ℕ)
  | receiving (p : ℕ) (resp : List UInt8)
  | left (sent received : ℕ)
deriving DecidableEq, Repr

/-- A client, its bytes that are on their way, the session of the server, and how many of the bytes that the
session has posted have come to the client. -/
structure Connection where
  client : Client
  upstream : List UInt8
  session : EchoServer.Session
  taken : ℕ

@[ext] structure Totals where
  totalSent : BitVec 32
  totalRecv : BitVec 32
  totalFailed : BitVec 32
  totalMismatch : BitVec 32
  g_totalPacketsProcessed : BitVec 64
deriving DecidableEq, Repr

/-- What the next step of a connection is, and what the network makes of it. -/
inductive Input where
  | connect
  | refuse
  | send
  | sendFails (sentBytes : ℕ)
  | recv (n : ℕ)
  | recvFails
  | closesocket
  | arrive (n : ℕ)
  | sent
deriving DecidableEq, Repr

/-- The steps in which nothing fails. -/
def Input.Fine : Input → Bool
  | .refuse | .sendFails _ | .recvFails => false
  | _ => true

variable (packetsPerConn : ℕ) (allocated : ℤ → UInt8) (junk : ℕ → EchoServer.Junk)

/-- A `recv` of the client that brings `n` bytes, and what follows the last byte of a response. -/
def receive (totals : Totals) (conn : Connection) (index p : ℕ) (resp : List UInt8) (n : ℕ) : Totals × Connection :=
  let resp := resp ++ (conn.session.posted.drop conn.taken).take n
  let conn := { conn with taken := conn.taken + n }
  if resp.length < 10 then (totals, { conn with client := .receiving p resp })
  else
    let respValue := LittleEndian.load 8 ((resp.drop 2).take 8)
    let mismatch := if respValue ≠ payload index p then 1 else 0
    ({ totals with totalMismatch := totals.totalMismatch + mismatch, totalRecv := totals.totalRecv + 1 },
      { conn with client := .sending (p + 1) })

/-- One step of connection `index`: the client's next call, bytes that arrive at the server, or a send of the server
that completes. -/
def exec (totals : Totals) (index : ℕ) (conn : Connection) (input : Input) : Option (Totals × Connection) :=
  match conn.client, input with
  | .connecting, .connect => some (totals, { conn with client := .sending 0 })
  | .connecting, .refuse =>
      some ({ totals with totalFailed := totals.totalFailed + 1 }, { conn with client := .left 0 0 })
  | .sending p, .send =>
      if p < packetsPerConn then
        some ({ totals with totalSent := totals.totalSent + 1 },
          { conn with client := .receiving p [], upstream := conn.upstream ++ packet index p })
      else none
  | .sending p, .sendFails sentBytes =>
      if p < packetsPerConn ∧ sentBytes < 10 then
        some ({ totals with totalFailed := totals.totalFailed + 1 },
          { conn with client := .left p p, upstream := conn.upstream ++ (packet index p).take sentBytes })
      else none
  | .sending p, .closesocket =>
      if p < packetsPerConn then none else some (totals, { conn with client := .left p p })
  | .receiving p resp, .recv n =>
      if 1 ≤ n ∧ n ≤ 10 - resp.length ∧ conn.taken + n ≤ conn.session.posted.length then
        some (receive totals conn index p resp n)
      else none
  | .receiving p _, .recvFails =>
      some ({ totals with totalFailed := totals.totalFailed + 1 }, { conn with client := .left (p + 1) p })
  | _, .arrive n =>
      conn.session.conn.posted.bind fun wsabuf =>
        if 1 ≤ n ∧ n ≤ conn.upstream.length ∧ (n : ℤ) ≤ wsabuf.len then
          (conn.session.recvCompletion allocated junk (conn.upstream.take n)).map fun session =>
            let processed := session.conn.delivered.length - conn.session.conn.delivered.length
            ({ totals with g_totalPacketsProcessed := totals.g_totalPacketsProcessed + BitVec.ofNat 64 processed },
              { conn with session, upstream := conn.upstream.drop n })
        else none
  | _, .sent => conn.session.sendCompletion.map fun session => (totals, { conn with session })
  | _, _ => none

/-- `ccu` clients about to connect. -/
def start (ccu : ℕ) : Pool (Fin ccu) Totals Connection :=
  ⟨⟨0, 0, 0, 0, 0⟩, fun _ => ⟨.connecting, [], EchoServer.accepted allocated, 0⟩⟩

/-- One step of one connection. -/
abbrev step (ccu : ℕ) : Pool (Fin ccu) Totals Connection → Fin ccu × Input → Option (Pool (Fin ccu) Totals Connection) :=
  Pool.step fun totals index conn input => exec packetsPerConn allocated junk totals index conn input

end BotClient

end LockFreeCore
