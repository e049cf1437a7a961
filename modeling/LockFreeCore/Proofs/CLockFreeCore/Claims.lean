import LockFreeCore.ToMathlib.Lending
import LockFreeCore.Proofs.CLockFreeCore.SessionPool

/-! # Claims to a slot

Threads that outlive the session they were called for can close the next one on the slot. Even so a
slot is lent to one client at a time: read as claims to the slots, of the free list, of the threads that
prepare or tear down, and of the sessions, every access of every thread is a step of the lending, or
nothing.
-/

namespace LockFreeCore.CLockFreeCore

open Lending Replay

/-- What a thread that tears a session down has of its slot. -/
def RemovePc.claim (session : Session) : RemovePc → Option (Claim ℤ ℕ)
  | .drain | .take | .rest | .socket => some (.ending session.m_socket)
  | .close sock => some (.ending sock)
  | .leave | .erase | .push => some .empty
  | _ => none

/-- What a frame has of slot `k`. -/
def Frame.claim (s : CLockFreeCore) (k : ℕ) : Frame → Option (Claim ℤ ℕ)
  | .issue slot socket => if slot = k then some (.taken socket) else none
  | .accepting client socket pc =>
      if (Frame.accepting client socket pc).prepares k then some (.named client.id socket) else none
  | .removeSession session _ pc => if session.slot = k then pc.claim (s.slots k) else none
  | _ => none

/-- The socket that `accept` has returned to the thread and that has no slot yet. -/
def Frame.waiting : Frame → Option ℕ
  | .asked socket => some socket
  | _ => none

def Event.accepts (k : ℕ) : Event → Bool
  | .accepted _ slot _ => slot = k
  | _ => false

/-- An id was issued for the slot, `acceptThread` has prepared it, and it has not been torn down since. -/
def serves (s : CLockFreeCore) (frames : List Frame) (k : ℕ) : Bool :=
  !(s.slots k).m_isTornDown && s.log.any (Event.accepts k) && !frames.any (Frame.prepares k)

/-- All claims to slot `k`: of the free list, of the threads, and of the session on it. -/
def claims (s : CLockFreeCore) (frames : List Frame) (k : ℕ) : Multiset (Claim ℤ ℕ) :=
  .replicate (s.m_sessionFreeList.count k) .free + ↑(frames.filterMap (Frame.claim s k)) +
    if serves s frames k then {.serving (s.slots k).m_sessionId (s.slots k).m_socket} else 0

def closedSockets (log : List Event) : List ℕ :=
  log.filterMap fun
    | .closed socket => some socket
    | _ => none

/-- The ids of the sessions that were torn down. -/
def endedIds (log : List Event) : List ℤ :=
  log.filterMap fun
    | .tornDown _ owner _ => some owner
    | _ => none

/-- The store and the threads as a state of the lending. -/
def lent (s : CLockFreeCore) (frames : List Frame) : State ℕ ℤ ℕ where
  claims := claims s frames
  waiting := frames.filterMap Frame.waiting
  arrived := .range s.sockets
  returned := closedSockets s.log
  issued := issuedIds s.log
  ended := endedIds s.log

/-- The events that change the books. -/
def Event.booked : Event → Bool
  | .accepted .. | .tornDown .. | .closed _ => true
  | _ => false

/-- The books and the sessions' shares in them stay as they are. -/
structure Quiet (s s' : CLockFreeCore) : Prop where
  session : ∀ k, (s'.slots k).m_sessionId = (s.slots k).m_sessionId ∧
    (s'.slots k).m_socket = (s.slots k).m_socket ∧ (s'.slots k).m_isTornDown = (s.slots k).m_isTornDown
  free : s'.m_sessionFreeList = s.m_sessionFreeList
  sockets : s'.sockets = s.sockets
  log : s'.log.filter Event.booked = s.log.filter Event.booked

section Quiet

variable {s s' : CLockFreeCore} {left : List Frame} {input : Input}

theorem Quiet.refl : Quiet s s := ⟨fun _ => ⟨rfl, rfl, rfl⟩, rfl, rfl, rfl⟩

theorem Quiet.of_slots (slots : s'.slots = s.slots) (free : s'.m_sessionFreeList = s.m_sessionFreeList)
    (sockets : s'.sockets = s.sockets) (log : s'.log = s.log) : Quiet s s' :=
  ⟨fun k => by rw [slots]; exact ⟨rfl, rfl, rfl⟩, free, sockets, by rw [log]⟩

theorem Quiet.modify {k : ℕ} {change : Session → Session}
    (keeps : (change (s.slots k)).m_sessionId = (s.slots k).m_sessionId ∧
      (change (s.slots k)).m_socket = (s.slots k).m_socket ∧
      (change (s.slots k)).m_isTornDown = (s.slots k).m_isTornDown) : Quiet s (s.modify k change) := by
  refine ⟨fun j => ?_, rfl, rfl, rfl⟩
  by_cases here : j = k
  · subst here
    rw [modify_slots_self]
    exact keeps
  · rw [modify_slots_of_ne _ _ _ here]
    exact ⟨rfl, rfl, rfl⟩

theorem Quiet.record (quiet : Quiet s s') {event : Event} (other : event.booked = false) :
    Quiet s (s'.record event) := by
  refine ⟨quiet.session, quiet.free, quiet.sockets, ?_⟩
  rw [record_log, List.filter_cons_of_neg (by simp [other])]
  exact quiet.log

theorem Quiet.delete (quiet : Quiet s s') (c : Option Packet) : Quiet s (s'.delete c) := by
  cases c with
  | none => exact quiet
  | some packet => exact quiet.record rfl

theorem recvPost_quiet {session : Handle} {pc : RecvPc} (ran : recvPost s session pc input = some (s', left)) :
    Quiet s s' := by
  cases pc with
  | closing | recheck =>
    simp only [recvPost] at ran
    split_ifs at ran <;> cases ran <;> exact .refl
  | increment | backOut | failed =>
    cases ran
    exact .modify ⟨rfl, rfl, rfl⟩
  | socket | report =>
    cases ran
    exact .refl
  | call socket => cases input <;> cases ran <;> first | exact .refl | exact .of_slots rfl rfl rfl rfl

theorem sendPost_quiet {session : Handle} {pc : SendPc} (ran : sendPost s session pc input = some (s', left)) :
    Quiet s s' := by
  cases pc with
  | exchange =>
    simp only [sendPost] at ran
    split_ifs at ran <;> cases ran <;> exact .modify ⟨rfl, rfl, rfl⟩
  | closing | cap | check size | recheck wsabuf =>
    simp only [sendPost] at ran
    split_ifs at ran <;> cases ran <;> exact .refl
  | release | store n | storeCap | increment wsabuf | backOut | failed | failedRelease =>
    cases ran
    exact .modify ⟨rfl, rfl, rfl⟩
  | size | checkSize | count | peek n | socket wsabuf | report =>
    cases ran
    exact .refl
  | fill c wsabuf =>
    simp only [sendPost] at ran
    split_ifs at ran
    · split at ran <;> cases ran <;> exact .refl
    · cases ran
      exact .refl
  | buffers wsabuf socket =>
    simp only [sendPost] at ran
    split_ifs at ran
    · cases ran
      exact .refl
    · split at ran <;> cases ran <;> exact .refl
  | call wsabuf socket =>
    have posted : Quiet s { s with inFlight := ⟨session, .send⟩ :: s.inFlight } := .of_slots rfl rfl rfl rfl
    cases input <;> cases ran <;> first | exact .refl | exact posted.record rfl

theorem worker_quiet {client : Handle} {pc : WorkerPc} (ran : worker s client pc input = some (s', left)) :
    Quiet s s' := by
  cases pc with
  | peerClosed | sentDone | decrement =>
    cases ran
    exact .modify ⟨rfl, rfl, rfl⟩
  | sentTake i =>
    cases ran
    exact (Quiet.modify ⟨rfl, rfl, rfl⟩).delete _
  | peerGone | rejected | poll =>
    cases ran
    exact .refl
  | received => cases input <;> cases ran <;> exact .refl
  | sent i | sentSize i | more | idle =>
    simp only [worker] at ran
    split_ifs at ran <;> cases ran <;> exact .refl

theorem getStatus_quiet (ran : getStatus s input = some (s', left)) : Quiet s s' := by
  cases input with
  | complete index cbTransferred =>
    obtain ⟨io, -, completed⟩ := Option.map_eq_some_iff.mp ran
    split_ifs at completed
    · cases completed
      exact .of_slots rfl rfl rfl rfl
    · split at completed <;> cases completed <;> exact .of_slots rfl rfl rfl rfl
  | _ => cases ran

theorem sendPacket_quiet {session : Handle} {packet : Packet} {pc : PacketPc}
    (ran : sendPacket s session packet pc = some (s', left)) : Quiet s s' := by
  cases pc with
  | enqueue =>
    cases ran
    exact (Quiet.modify ⟨rfl, rfl, rfl⟩).record rfl
  | free | pending =>
    simp only [sendPacket] at ran
    split_ifs at ran <;> cases ran <;> exact .refl

end Quiet

section Claims

variable {s s' : CLockFreeCore} {frame : Frame} {left others frames frames' : List Frame} {input : Input} {k : ℕ}

theorem Quiet.filterMap_log {β : Type} (quiet : Quiet s s') (f : Event → Option β)
    (silent : ∀ event : Event, event.booked = false → f event = none) : s'.log.filterMap f = s.log.filterMap f := by
  have booked (log : List Event) : (log.filter Event.booked).filterMap f = log.filterMap f := by
    rw [List.filterMap_filter]
    apply List.filterMap_congr
    intro event _
    cases kind : event.booked with
    | true => rfl
    | false => exact (silent event kind).symm
  rw [← booked, quiet.log, booked]

theorem Quiet.closedSockets (quiet : Quiet s s') : closedSockets s'.log = closedSockets s.log := by
  apply quiet.filterMap_log
  rintro (_ | _ | _ | _ | _ | _ | _) other <;> first | rfl | cases other

theorem Quiet.issuedIds (quiet : Quiet s s') : issuedIds s'.log = issuedIds s.log := by
  apply quiet.filterMap_log
  rintro (_ | _ | _ | _ | _ | _ | _) other <;> first | rfl | cases other

theorem Quiet.endedIds (quiet : Quiet s s') : endedIds s'.log = endedIds s.log := by
  apply quiet.filterMap_log
  rintro (_ | _ | _ | _ | _ | _ | _) other <;> first | rfl | cases other

theorem Quiet.accepts (quiet : Quiet s s') : s'.log.any (Event.accepts k) = s.log.any (Event.accepts k) := by
  have booked (log : List Event) : (log.filter Event.booked).any (Event.accepts k) = log.any (Event.accepts k) := by
    rw [List.any_filter]
    congr 1
    funext event
    cases event <;> rfl
  rw [← booked, quiet.log, booked]

theorem serves_perm (perm : frames.Perm frames') : serves s frames k = serves s frames' k := by
  rw [serves, serves, perm.any_eq]

theorem lent_perm (perm : frames.Perm frames') : lent s frames = lent s frames' := by
  have same (k : ℕ) : claims s frames k = claims s frames' k := by
    rw [claims, claims, serves_perm perm, Multiset.coe_eq_coe.mpr (perm.filterMap _)]
  ext1
  · exact funext same
  · exact Multiset.coe_eq_coe.mpr (perm.filterMap _)
  all_goals rfl

theorem Frame.claim_congr (f : Frame) (same : (s'.slots k).m_socket = (s.slots k).m_socket) :
    f.claim s' k = f.claim s k := by
  cases f with
  | removeSession session cause pc => cases pc <;> simp [Frame.claim, RemovePc.claim, same]
  | _ => rfl

theorem Frame.claim_eq_none (f : Frame) (absent : f.claim s k = none) : f.claim s' k = none := by
  cases f with
  | removeSession session cause pc =>
    by_cases here : session.slot = k
    · cases pc <;> simp_all [Frame.claim, RemovePc.claim]
    · exact if_neg here
  | _ => exact absent

theorem Frame.unprepared {f : Frame} (absent : f.claim s k = none) : ¬ f.prepares k := by
  intro prepares
  cases f with
  | issue slot socket => simp_all [Frame.claim, Frame.prepares]
  | accepting client socket pc => simp [Frame.claim, prepares] at absent
  | _ => cases prepares

/-- A step leaves slot `k` to those who have claims to it. -/
structure Still (s : CLockFreeCore) (frame : Frame) (s' : CLockFreeCore) (left : List Frame) (k : ℕ) : Prop where
  session : (s'.slots k).m_sessionId = (s.slots k).m_sessionId ∧
    (s'.slots k).m_socket = (s.slots k).m_socket ∧ (s'.slots k).m_isTornDown = (s.slots k).m_isTornDown
  free : s'.m_sessionFreeList.count k = s.m_sessionFreeList.count k
  accepts : s'.log.any (Event.accepts k) = s.log.any (Event.accepts k)
  claim : left.filterMap (Frame.claim s' k) = [frame].filterMap (Frame.claim s k)
  prepares : left.any (Frame.prepares k) = [frame].any (Frame.prepares k)

theorem Still.claims (still : Still s frame s' left k) :
    claims s' (left ++ others) k = claims s (frame :: others) k := by
  obtain ⟨⟨id, socket, torn⟩, free, accepts, claim, prepares⟩ := still
  have rest : others.filterMap (Frame.claim s' k) = others.filterMap (Frame.claim s k) :=
    List.filterMap_congr fun f _ => f.claim_congr socket
  have serving : serves s' (left ++ others) k = serves s (frame :: others) k := by
    rw [serves, serves, torn, accepts, List.any_append, prepares, ← List.any_append, List.singleton_append]
  have all : (left ++ others).filterMap (Frame.claim s' k) = (frame :: others).filterMap (Frame.claim s k) := by
    rw [List.filterMap_append, claim, rest, ← List.filterMap_append, List.singleton_append]
  rw [CLockFreeCore.claims, CLockFreeCore.claims, free, all, serving, id, socket]

/-- The books and all claims stay as they are. -/
theorem Quiet.lent (quiet : Quiet s s')
    (claim : ∀ k, left.filterMap (Frame.claim s' k) = [frame].filterMap (Frame.claim s k))
    (waiting : left.filterMap Frame.waiting = [frame].filterMap Frame.waiting)
    (prepares : ∀ k, left.any (Frame.prepares k) = [frame].any (Frame.prepares k)) :
    lent s' (left ++ others) = lent s (frame :: others) := by
  have still (k : ℕ) : Still s frame s' left k :=
    ⟨quiet.session k, by rw [quiet.free], quiet.accepts, claim k, prepares k⟩
  ext1
  · exact funext fun k => (still k).claims
  · have all : (left ++ others).filterMap Frame.waiting = (frame :: others).filterMap Frame.waiting := by
      rw [List.filterMap_append, waiting, ← List.filterMap_append, List.singleton_append]
    exact congrArg Multiset.ofList all
  · exact congrArg Multiset.range quiet.sockets
  · exact congrArg Multiset.ofList quiet.closedSockets
  · exact congrArg Multiset.ofList quiet.issuedIds
  · exact congrArg Multiset.ofList quiet.endedIds

/-- The frame has no claim, and no socket. -/
structure Frame.Idle (frame : Frame) : Prop where
  claim : ∀ s k, frame.claim s k = none
  waiting : frame.waiting = none
  prepares : ∀ k, frame.prepares k = false

theorem Frame.Idle.of_early {session : Handle} {cause : ℤ} {pc : RemovePc} (early : ∀ x, pc.claim x = none) :
    (Frame.removeSession session cause pc).Idle :=
  ⟨fun s k => by simp [Frame.claim, early], rfl, fun _ => rfl⟩

theorem Quiet.lent_of_idle (quiet : Quiet s s') (here : frame.Idle) (there : ∀ f ∈ left, f.Idle) :
    CLockFreeCore.lent s' (left ++ others) = CLockFreeCore.lent s (frame :: others) := by
  apply quiet.lent
  · intro k
    rw [List.filterMap_eq_nil_iff.mpr fun f member => (there f member).claim s' k,
      List.filterMap_eq_nil_iff.mpr (by simpa using here.claim s k)]
  · rw [List.filterMap_eq_nil_iff.mpr fun f member => (there f member).waiting,
      List.filterMap_eq_nil_iff.mpr (by simpa using here.waiting)]
  · intro k
    rw [List.any_eq_false.mpr fun f member => by simp [(there f member).prepares k]]
    simp [here.prepares k]

end Claims

section Exchanges

variable {s s' : CLockFreeCore} {frame : Frame} {left others frames : List Frame} {input : Input} {k : ℕ}
  {claim next : Claim ℤ ℕ} {pool : Finset ℕ}

theorem card_claims : (claims s frames k).card = s.m_sessionFreeList.count k +
    (frames.filterMap (Frame.claim s k)).length + (serves s frames k).toNat := by
  cases serving : serves s frames k <;> simp [claims, serving]

theorem serves_of_prepares {f : Frame} (member : f ∈ frames) (prepares : f.prepares k) :
    serves s frames k = false := by
  have some : frames.any (Frame.prepares k) = true := List.any_eq_true.mpr ⟨f, member, prepares⟩
  simp [serves, some]

theorem claims_le_one (sound : Sound pool (lent s frames)) (k : ℕ) : s.m_sessionFreeList.count k +
    (frames.filterMap (Frame.claim s k)).length + (serves s frames k).toNat ≤ 1 := by
  have one : (claims s frames k).card = if k ∈ pool then 1 else 0 := sound.one k
  rw [← card_claims, one]
  split_ifs <;> simp

/-- A thread with a claim to a slot has it alone. -/
theorem alone_of_claim (sound : Sound pool (lent s (frame :: others))) (has : frame.claim s k = some claim) :
    s.m_sessionFreeList.count k = 0 ∧ (∀ f ∈ others, f.claim s k = none) ∧
      serves s (frame :: others) k = false ∧ claims s (frame :: others) k = {claim} := by
  have most := claims_le_one sound k
  rw [List.filterMap_cons_some has, List.length_cons] at most
  have free : s.m_sessionFreeList.count k = 0 := by omega
  have rest : others.filterMap (Frame.claim s k) = [] := by
    apply List.eq_nil_of_length_eq_zero
    omega
  have serving : serves s (frame :: others) k = false := Bool.toNat_eq_zero.mp (by omega)
  refine ⟨free, List.filterMap_eq_nil_iff.mp rest, serving, ?_⟩
  simp [claims, free, List.filterMap_cons_some has, rest, serving]

/-- No thread has a claim to a slot that is free or serves. -/
theorem unclaimed_of_pos (sound : Sound pool (lent s frames))
    (claimed : 0 < s.m_sessionFreeList.count k + (serves s frames k).toNat) :
    frames.filterMap (Frame.claim s k) = [] := by
  have most := claims_le_one sound k
  apply List.eq_nil_of_length_eq_zero
  omega

theorem alone_of_free {slots : List ℕ} (sound : Sound pool (lent s frames))
    (free : s.m_sessionFreeList = k :: slots) :
    slots.count k = 0 ∧ (∀ f ∈ frames, f.claim s k = none) ∧ claims s frames k = {.free} := by
  have most := claims_le_one sound k
  have inside : s.m_sessionFreeList.count k = slots.count k + 1 := by rw [free, List.count_cons_self]
  have rest := unclaimed_of_pos (k := k) sound (by omega)
  have serving : serves s frames k = false := Bool.toNat_eq_zero.mp (by omega)
  have gone : slots.count k = 0 := by omega
  refine ⟨gone, List.filterMap_eq_nil_iff.mp rest, ?_⟩
  simp [claims, inside, gone, rest, serving]

theorem alone_of_serves (sound : Sound pool (lent s frames)) (serving : serves s frames k) :
    s.m_sessionFreeList.count k = 0 ∧ (∀ f ∈ frames, f.claim s k = none) ∧
      claims s frames k = {.serving (s.slots k).m_sessionId (s.slots k).m_socket} := by
  have most := claims_le_one sound k
  have rest := unclaimed_of_pos (k := k) sound (by simp [serving])
  rw [serving, Bool.toNat_true] at most
  have free : s.m_sessionFreeList.count k = 0 := by omega
  refine ⟨free, List.filterMap_eq_nil_iff.mp rest, ?_⟩
  simp [claims, free, rest, serving]

/-- The thread has exchanged its claim for another. -/
theorem claims_left (rest : ∀ f ∈ others, f.claim s k = none) (free : s'.m_sessionFreeList.count k = 0)
    (has : left.filterMap (Frame.claim s' k) = [next]) (idle : serves s' (left ++ others) k = false) :
    claims s' (left ++ others) k = {next} := by
  have rest : others.filterMap (Frame.claim s' k) = [] :=
    List.filterMap_eq_nil_iff.mpr fun f member => f.claim_eq_none (rest f member)
  rw [claims, List.filterMap_append, rest, List.append_nil, free, has, idle]
  rfl

theorem claims_exchange (after : claims s' (left ++ others) k = {next})
    (elsewhere : ∀ j ≠ k, Still s frame s' left j) :
    claims s' (left ++ others) = exchange (claims s (frame :: others)) k 0 next := by
  funext j
  by_cases here : j = k
  · subst here
    rw [exchange_self, after]
    rfl
  · rw [exchange_of_ne _ here, (elsewhere j here).claims]

theorem issue_lent {socket : ℕ} (sound : Sound pool (lent s (.issue k socket :: others)))
    (ran : exec s (.issue k socket) input = some (s', left)) :
    Step (lent s (.issue k socket :: others)) (lent s' (left ++ others)) := by
  obtain ⟨free, rest, -, before⟩ := alone_of_claim sound (if_pos rfl)
  have after : claims s' (left ++ others) k = {.named s.m_nextSessionId socket} := by
    cases ran
    refine claims_left rest free ?_ ?_
    · simp [Frame.claim, Frame.prepares]
    · exact serves_of_prepares List.mem_cons_self (by simp [Frame.prepares])
  have elsewhere (j : ℕ) (apart : j ≠ k) : Still s (.issue k socket) s' left j := by
    cases ran
    constructor <;> simp [apart, apart.symm, Event.accepts, Frame.claim, Frame.prepares]
  have moved := claims_exchange after elsewhere
  cases ran
  exact .issue s.m_nextSessionId socket k 0 before (State.ext moved rfl rfl rfl rfl rfl)

theorem accept_lent (ran : exec s .accept input = some (s', left)) :
    lent s' (left ++ others) = lent s (.accept :: others) ∨
      Step (lent s (.accept :: others)) (lent s' (left ++ others)) := by
  by_cases fails : input = .fail
  · subst fails
    cases ran
    exact .inl (Quiet.refl.lent (fun _ => rfl) rfl fun _ => rfl)
  · have ran : some ({ s with sockets := s.sockets + 1 }, [.app, .asked s.sockets]) = some (s', left) := by
      rw [← ran]
      cases input <;> first | rfl | exact absurd rfl fails
    have still (j : ℕ) : Still s .accept s' left j := by
      cases ran
      exact ⟨⟨rfl, rfl, rfl⟩, rfl, rfl, rfl, rfl⟩
    have same : claims s' (left ++ others) = claims s (.accept :: others) := funext fun j => (still j).claims
    cases ran
    exact .inr (.arrive s.sockets (State.ext same rfl (Multiset.range_succ _) rfl rfl rfl))

theorem asked_lent {socket : ℕ} (sound : Sound pool (lent s (.asked socket :: others)))
    (ran : asked s socket input = some (s', left)) :
    Step (lent s (.asked socket :: others)) (lent s' (left ++ others)) := by
  have refused (turned : (s', left) = (s.record (.closed socket), [.accept])) :
      Step (lent s (.asked socket :: others)) (lent s' (left ++ others)) := by
    cases turned
    have still (j : ℕ) : Still s (.asked socket) (s.record (.closed socket)) [.accept] j :=
      ⟨⟨rfl, rfl, rfl⟩, rfl, rfl, rfl, rfl⟩
    exact .refuse socket (others.filterMap Frame.waiting) rfl
      (State.ext (funext fun j => (still j).claims) rfl rfl rfl rfl rfl)
  simp only [asked] at ran
  split at ran
  · exact refused (Option.some.inj ran).symm
  · split at ran
    · exact refused (Option.some.inj ran).symm
    · rename_i k slots free
      obtain ⟨gone, rest, before⟩ := alone_of_free sound free
      have rest (f : Frame) (member : f ∈ others) := rest f (List.mem_cons_of_mem _ member)
      have after : claims s' (left ++ others) k = {.taken socket} := by
        cases ran
        refine claims_left rest gone ?_ ?_
        · simp [Frame.claim]
        · exact serves_of_prepares List.mem_cons_self (by simp [Frame.prepares])
      have elsewhere (j : ℕ) (apart : j ≠ k) : Still s (.asked socket) s' left j := by
        cases ran
        constructor <;> simp [free, apart.symm, Frame.claim, Frame.prepares]
      have moved := claims_exchange after elsewhere
      cases ran
      exact .take socket (others.filterMap Frame.waiting) k 0 rfl before (State.ext moved rfl rfl rfl rfl rfl)

/-- The socket of a slot is written by the thread that has the only claim to the slot. -/
theorem socket_lent {client : Handle} {socket : ℕ}
    (sound : Sound pool (lent s (.accepting client socket .socket :: others)))
    (ran : exec s (.accepting client socket .socket) input = some (s', left)) :
    lent s' (left ++ others) = lent s (.accepting client socket .socket :: others) := by
  have prepares : (Frame.accepting client socket .socket).prepares client.slot := by simp [Frame.prepares]
  obtain ⟨free, rest, -, before⟩ := alone_of_claim sound (if_pos prepares)
  have after : claims s' (left ++ others) client.slot = {.named client.id socket} := by
    cases ran
    refine claims_left rest free ?_ ?_
    · simp [Frame.claim, Frame.prepares]
    · exact serves_of_prepares List.mem_cons_self (by simp [Frame.prepares])
  have elsewhere (j : ℕ) (apart : j ≠ client.slot) : Still s (.accepting client socket .socket) s' left j := by
    cases ran
    constructor <;> simp [apart, apart.symm, Frame.claim, Frame.prepares]
  have same : claims s' (left ++ others) = claims s (.accepting client socket .socket :: others) := by
    funext j
    by_cases here : j = client.slot
    · rw [here, before, after]
    · exact (elsewhere j here).claims
  cases ran
  exact State.ext same rfl rfl rfl rfl rfl

/-- With the reset of `m_isTornDown` the slot serves. -/
theorem serves_of_reset {client : Handle} {socket : ℕ}
    (sound : Sound pool (lent s (.accepting client socket .tornDown :: others)))
    (accepted : s.log.any (Event.accepts client.slot))
    (ran : exec s (.accepting client socket .tornDown) input = some (s', left)) :
    serves s' (left ++ others) client.slot := by
  have prepares : (Frame.accepting client socket .tornDown).prepares client.slot := by simp [Frame.prepares]
  obtain ⟨-, rest, -⟩ := alone_of_claim sound (if_pos prepares)
  have unprepared : others.any (Frame.prepares client.slot) = false :=
    List.any_eq_false.mpr fun f member => Frame.unprepared (rest f member)
  cases ran
  simp [serves, accepted, unprepared, Frame.prepares]

theorem tornDown_lent {client : Handle} {socket : ℕ}
    (sound : Sound pool (lent s (.accepting client socket .tornDown :: others)))
    (accepted : s.log.any (Event.accepts client.slot)) (owner : (s.slots client.slot).m_sessionId = client.id)
    (connected : (s.slots client.slot).m_socket = socket)
    (ran : exec s (.accepting client socket .tornDown) input = some (s', left)) :
    Step (lent s (.accepting client socket .tornDown :: others)) (lent s' (left ++ others)) := by
  have prepares : (Frame.accepting client socket .tornDown).prepares client.slot := by simp [Frame.prepares]
  obtain ⟨free, rest, -, before⟩ := alone_of_claim sound (if_pos prepares)
  have unclaimed : others.filterMap (Frame.claim s' client.slot) = [] :=
    List.filterMap_eq_nil_iff.mpr fun f member => f.claim_eq_none (rest f member)
  have after : claims s' (left ++ others) client.slot = {.serving client.id socket} := by
    rw [claims, serves_of_reset sound accepted ran, List.filterMap_append, unclaimed]
    cases ran
    simp [free, owner, connected, Frame.claim, Frame.prepares]
  have elsewhere (j : ℕ) (apart : j ≠ client.slot) : Still s (.accepting client socket .tornDown) s' left j := by
    cases ran
    constructor <;> simp [apart, apart.symm, Frame.claim, Frame.prepares]
  have moved := claims_exchange after elsewhere
  cases ran
  exact .serve client.id socket client.slot 0 before (State.ext moved rfl rfl rfl rfl rfl)

theorem swap_lent {session : Handle} {cause : ℤ}
    (sound : Sound pool (lent s (.removeSession session cause .swap :: others)))
    (serving : serves s (.removeSession session cause .swap :: others) session.slot)
    (ran : exec s (.removeSession session cause .swap) input = some (s', left)) :
    Step (lent s (.removeSession session cause .swap :: others)) (lent s' (left ++ others)) := by
  obtain ⟨free, rest, before⟩ := alone_of_serves sound serving
  have rest (f : Frame) (member : f ∈ others) := rest f (List.mem_cons_of_mem _ member)
  have live : (s.slots session.slot).m_isTornDown = false := by
    simp only [serves, Bool.and_eq_true, Bool.not_eq_true'] at serving
    exact serving.1.1
  simp only [exec, removeSession, live] at ran
  have after : claims s' (left ++ others) session.slot = {.ending (s.slots session.slot).m_socket} := by
    cases ran
    refine claims_left rest free ?_ ?_
    · simp [Frame.claim, RemovePc.claim]
    · simp [serves]
  have elsewhere (j : ℕ) (apart : j ≠ session.slot) : Still s (.removeSession session cause .swap) s' left j := by
    cases ran
    constructor <;> simp [apart, apart.symm, Event.accepts, Frame.claim, Frame.prepares]
  have moved := claims_exchange after elsewhere
  cases ran
  exact .finish _ _ session.slot 0 before (State.ext moved rfl rfl rfl rfl rfl)

theorem close_lent {session : Handle} {cause : ℤ} {socket : ℕ}
    (sound : Sound pool (lent s (.removeSession session cause (.close socket) :: others)))
    (ran : exec s (.removeSession session cause (.close socket)) input = some (s', left)) :
    Step (lent s (.removeSession session cause (.close socket) :: others)) (lent s' (left ++ others)) := by
  obtain ⟨free, rest, idle, before⟩ := alone_of_claim sound (if_pos rfl)
  have after : claims s' (left ++ others) session.slot = {.empty} := by
    cases ran
    refine claims_left rest free ?_ ?_
    · simp [Frame.claim, RemovePc.claim]
    · simpa [serves, Event.accepts, Frame.prepares] using idle
  have elsewhere (j : ℕ) (apart : j ≠ session.slot) :
      Still s (.removeSession session cause (.close socket)) s' left j := by
    cases ran
    constructor <;> simp [apart.symm, Event.accepts, Frame.claim, Frame.prepares]
  have moved := claims_exchange after elsewhere
  cases ran
  exact .give socket session.slot 0 before (State.ext moved rfl rfl rfl rfl rfl)

theorem push_lent {session : Handle} {cause : ℤ}
    (sound : Sound pool (lent s (.removeSession session cause .push :: others)))
    (ran : exec s (.removeSession session cause .push) input = some (s', left)) :
    Step (lent s (.removeSession session cause .push :: others)) (lent s' (left ++ others)) := by
  obtain ⟨free, rest, idle, before⟩ := alone_of_claim sound (if_pos rfl)
  have unclaimed : others.filterMap (Frame.claim s' session.slot) = [] :=
    List.filterMap_eq_nil_iff.mpr fun f member => f.claim_eq_none (rest f member)
  have after : claims s' (left ++ others) session.slot = {.free} := by
    cases ran
    have idle : serves { s with m_sessionFreeList := session.slot :: s.m_sessionFreeList } others session.slot =
        false := by simpa [serves, Frame.prepares] using idle
    rw [List.nil_append, claims, unclaimed, idle]
    simp [free]
  have elsewhere (j : ℕ) (apart : j ≠ session.slot) : Still s (.removeSession session cause .push) s' left j := by
    cases ran
    constructor <;> simp [apart.symm, Frame.claim, Frame.prepares]
  have moved := claims_exchange after elsewhere
  cases ran
  exact .free session.slot 0 before (State.ext moved rfl rfl rfl rfl rfl)

theorem removeSession_lent {session : Handle} {cause : ℤ} {pc : RemovePc}
    (sound : Sound pool (lent s (.removeSession session cause pc :: others)))
    (serving : pc = .swap → (s.slots session.slot).m_isTornDown = false →
      serves s (.removeSession session cause pc :: others) session.slot)
    (ran : exec s (.removeSession session cause pc) input = some (s', left)) :
    lent s' (left ++ others) = lent s (.removeSession session cause pc :: others) ∨
      Step (lent s (.removeSession session cause pc :: others)) (lent s' (left ++ others)) := by
  cases pc with
  | mark =>
    cases ran
    exact .inl (((Quiet.modify ⟨rfl, rfl, rfl⟩).record rfl).lent (fun _ => rfl) rfl fun _ => rfl)
  | closing | ioCount =>
    simp only [exec, removeSession] at ran
    split_ifs at ran <;> cases ran <;> refine .inl (Quiet.refl.lent_of_idle (.of_early fun _ => rfl) ?_) <;>
      first | exact List.forall_mem_singleton.mpr (.of_early fun _ => rfl) | exact List.forall_mem_nil _
  | swap =>
    cases torn : (s.slots session.slot).m_isTornDown with
    | false => exact .inr (swap_lent sound (serving rfl torn) ran)
    | true =>
      simp only [exec, removeSession, torn] at ran
      cases ran
      exact .inl (Quiet.refl.lent_of_idle (.of_early fun _ => rfl) (by simp))
  | drain | rest =>
    simp only [exec, removeSession] at ran
    split_ifs at ran <;> cases ran <;> exact .inl (Quiet.refl.lent (fun _ => rfl) rfl fun _ => rfl)
  | take =>
    have quiet : Quiet s s' := by
      cases ran
      exact (Quiet.modify ⟨rfl, rfl, rfl⟩).delete _
    have kept : left = [.removeSession session cause .drain] := by
      cases ran
      rfl
    subst kept
    refine .inl (quiet.lent (fun k => ?_) rfl fun _ => rfl)
    rw [List.filterMap_congr fun f _ => f.claim_congr (quiet.session k).2.1]
    rfl
  | socket =>
    cases ran
    refine .inl (Quiet.refl.lent (fun k => ?_) rfl fun _ => rfl)
    by_cases here : session.slot = k
    · subst here
      rfl
    · simp [Frame.claim, here]
  | leave =>
    cases ran
    exact .inl (Quiet.refl.lent (fun _ => rfl) rfl fun _ => rfl)
  | erase =>
    cases ran
    exact .inl ((Quiet.of_slots rfl rfl rfl rfl).lent (fun _ => rfl) rfl fun _ => rfl)
  | close socket => exact .inr (close_lent sound ran)
  | push => exact .inr (push_lent sound ran)

/-- The accept thread, once it has an id for the slot. -/
theorem accepting_lent {client : Handle} {socket : ℕ} {pc : AcceptPc}
    (sound : Sound pool (lent s (.accepting client socket pc :: others)))
    (accepted : s.log.any (Event.accepts client.slot)) (owner : (s.slots client.slot).m_sessionId = client.id)
    (connected : 1 < pc.stage → (s.slots client.slot).m_socket = socket)
    (ran : exec s (.accepting client socket pc) input = some (s', left)) :
    lent s' (left ++ others) = lent s (.accepting client socket pc :: others) ∨
      Step (lent s (.accepting client socket pc :: others)) (lent s' (left ++ others)) := by
  cases pc with
  | socket => exact .inl (socket_lent sound ran)
  | tornDown => exact .inr (tornDown_lent sound accepted owner (connected (by decide)) ran)
  | pending | ioCount | closing | ring =>
    cases ran
    left
    apply (Quiet.modify ⟨rfl, rfl, rfl⟩).lent <;>
      simp [List.filterMap_cons, Frame.claim, Frame.waiting, Frame.prepares]
  | next | insert =>
    cases ran
    left
    apply (Quiet.of_slots rfl rfl rfl rfl).lent <;>
      simp [List.filterMap_cons, Frame.claim, Frame.waiting, Frame.prepares]
  | join | post =>
    cases ran
    left
    apply Quiet.refl.lent <;> simp [List.filterMap_cons, Frame.claim, Frame.waiting, Frame.prepares]

/-- A thread outside `acceptThread` and `removeSession` has nothing to do with the books. -/
theorem other_lent (other : ¬ frame.isAcceptor)
    (remover : ∀ session cause pc, frame ≠ .removeSession session cause pc)
    (ran : exec s frame input = some (s', left)) : lent s' (left ++ others) = lent s (frame :: others) := by
  have idle (f : Frame) (other : ¬ f.isAcceptor)
      (early : ∀ session cause pc, f = .removeSession session cause pc → ∀ x, pc.claim x = none) : f.Idle := by
    cases f with
    | accept | asked socket | issue slot socket | accepting client socket pc => exact absurd rfl other
    | removeSession session cause pc => exact .of_early (early session cause pc rfl)
    | _ => exact ⟨fun _ _ => rfl, rfl, fun _ => rfl⟩
  have quiet : Quiet s s' := by
    cases frame with
    | accept | asked socket | issue slot socket | accepting client socket pc => exact absurd rfl other
    | removeSession session cause pc => exact absurd rfl (remover session cause pc)
    | app => cases input <;> cases ran <;> exact .refl
    | getStatus => exact getStatus_quiet ran
    | worker client pc => exact worker_quiet ran
    | recvPost session pc => exact recvPost_quiet ran
    | sendPost session pc => exact sendPost_quiet ran
    | findRemove id mark cause | findSend packet =>
      simp only [exec, findRemove, findSend] at ran
      split at ran <;> cases ran <;> exact .refl
    | sendPacket session packet pc => exact sendPacket_quiet ran
    | drop packet =>
      cases ran
      exact Quiet.refl.record rfl
  apply quiet.lent_of_idle
  · exact idle frame other fun session cause pc same => absurd same (remover session cause pc)
  · intro f member
    have leaves := (exec_spec ran).2 f member
    refine idle f (fun acceptor => other (leaves.isAcceptor acceptor)) ?_
    rintro session cause pc rfl x
    rcases leaves with ⟨last, rfl⟩ | ⟨mark, rfl, found⟩
    · exact absurd rfl (remover session cause last)
    · simp only [exec, findRemove, found] at ran
      cases ran
      cases List.mem_singleton.mp member
      cases mark <;> rfl

end Exchanges

end LockFreeCore.CLockFreeCore
