import LockFreeCore.Model.CLockFreeCore

/-! # What a step can do

Once for all functions: which frames a frame can leave, and what of the store it can change.
-/

namespace LockFreeCore.CLockFreeCore

def isTearDown (k : ℕ) : Event → Bool
  | .tornDown slot _ _ => slot = k
  | _ => false

section Api

variable (s : CLockFreeCore) (k : ℕ) (change : Session → Session) (event : Event) (c : Option Packet)

@[simp] theorem modify_slots_self : (s.modify k change).slots k = change (s.slots k) := Function.update_self ..

@[simp] theorem modify_slots_of_ne {j : ℕ} (apart : j ≠ k) : (s.modify k change).slots j = s.slots j :=
  Function.update_of_ne apart ..

@[simp] theorem modify_inFlight : (s.modify k change).inFlight = s.inFlight := rfl
@[simp] theorem modify_log : (s.modify k change).log = s.log := rfl
@[simp] theorem modify_map : (s.modify k change).m_sessionMap = s.m_sessionMap := rfl
@[simp] theorem modify_free : (s.modify k change).m_sessionFreeList = s.m_sessionFreeList := rfl
@[simp] theorem modify_next : (s.modify k change).m_nextSessionId = s.m_nextSessionId := rfl

@[simp] theorem record_slots : (s.record event).slots = s.slots := rfl
@[simp] theorem record_inFlight : (s.record event).inFlight = s.inFlight := rfl
@[simp] theorem record_log : (s.record event).log = event :: s.log := rfl
@[simp] theorem record_map : (s.record event).m_sessionMap = s.m_sessionMap := rfl
@[simp] theorem record_free : (s.record event).m_sessionFreeList = s.m_sessionFreeList := rfl
@[simp] theorem record_next : (s.record event).m_nextSessionId = s.m_nextSessionId := rfl

@[simp] theorem delete_slots : (s.delete c).slots = s.slots := by cases c <;> rfl
@[simp] theorem delete_inFlight : (s.delete c).inFlight = s.inFlight := by cases c <;> rfl
@[simp] theorem delete_map : (s.delete c).m_sessionMap = s.m_sessionMap := by cases c <;> rfl
@[simp] theorem delete_free : (s.delete c).m_sessionFreeList = s.m_sessionFreeList := by cases c <;> rfl
@[simp] theorem delete_tearDowns : (s.delete c).log.countP (isTearDown k) = s.log.countP (isTearDown k) := by
  cases c <;> simp [delete, isTearDown]
@[simp] theorem delete_next : (s.delete c).m_nextSessionId = s.m_nextSessionId := by cases c <;> rfl

end Api

/-- The `Session*` of a frame. -/
def Frame.handle : Frame → Option Handle
  | .accepting session _ _ | .worker session _ | .recvPost session _ | .sendPost session _
    | .removeSession session _ _ | .sendPacket session _ _ => some session
  | _ => none

/-- The slot that a frame has a `Session*` to. -/
def Frame.slot : Frame → Option ℕ
  | .issue slot _ => some slot
  | frame => frame.handle.map Handle.slot

def Frame.isAcceptor : Frame → Bool
  | .accept | .asked _ | .issue .. | .accepting .. => true
  | _ => false

/-- The slot that a step of the accept thread takes from the free list. -/
def pops (s : CLockFreeCore) : Frame → Input → Option ℕ
  | .asked _, .refuse => none
  | .asked _, _ => s.m_sessionFreeList.head?
  | _, _ => none

def AcceptPc.next? : AcceptPc → Option AcceptPc
  | .next => some .socket
  | .socket => some .pending
  | .pending => some .ioCount
  | .ioCount => some .closing
  | .closing => some .tornDown
  | .tornDown => some .ring
  | .ring => some .insert
  | .insert => some .join
  | .join => some .post
  | .post => none

/-- The frames that a frame can leave: user code, itself further on, a callee with the same
`Session*`, the removal of the id it reads, and what it looks up, pops or completes. -/
def Leaves (s : CLockFreeCore) (frame : Frame) (input : Input) : Frame → Prop
  | .app | .getStatus | .drop _ | .findSend _ => True
  | .accept | .asked _ => frame.isAcceptor
  | .issue slot socket => frame = .asked socket ∧ pops s frame input = some slot
  | .accepting session socket pc =>
      (frame = .issue session.slot socket ∧ session.id = s.m_nextSessionId ∧ pc = .next) ∨
        ∃ last, frame = .accepting session socket last ∧ last.next? = some pc
  | .worker session _ => frame.handle = some session ∨
      frame = .getStatus ∧ ∃ io ∈ s.inFlight, io.session = session
  | .recvPost session _ | .sendPost session _ => frame.handle = some session
  | .findRemove id _ cause => (frame = .app ∧ id = cause) ∨
      ∃ session, frame.handle = some session ∧ id = (s.slots session.slot).m_sessionId ∧ cause = session.id
  | .removeSession session cause _ => (∃ pc, frame = .removeSession session cause pc) ∨
      ∃ mark, frame = .findRemove session.id mark cause ∧
        s.m_sessionMap.lookup session.id = some session.slot
  | .sendPacket session packet _ => (∃ pc, frame = .sendPacket session packet pc) ∨
      frame = .findSend packet ∧ session.id = packet.addressee ∧
        s.m_sessionMap.lookup session.id = some session.slot

/-- The IO that a step of a frame can post. -/
def Posts : Frame → Io → Prop
  | .recvPost session (.call _), io => io = ⟨session, .recv⟩
  | .sendPost session (.call _ _), io => io = ⟨session, .send⟩
  | _, _ => False

theorem Posts.handle {frame : Frame} {io : Io} (posts : Posts frame io) : frame.handle = some io.session := by
  cases frame with
  | recvPost session pc =>
    cases pc <;> cases posts
    rfl
  | sendPost session pc =>
    cases pc <;> cases posts
    rfl
  | _ => cases posts

/-- What a step of a frame can write to the session on its slot. -/
inductive Writes (input : Input) : Frame → Session → Session → Prop
  | nothing (frame x) : Writes input frame x x
  | ioCount (frame x n) : Writes input frame x { x with m_ioCount := n }
  | issue (slot socket x y) : Writes input (.issue slot socket) x y
  | prepare (client socket pc x y) (early : pc ∈ [AcceptPc.next, .socket, .pending, .ioCount, .closing, .tornDown]) :
      Writes input (.accepting client socket pc) x y
  | ring (client socket x) : Writes input (.accepting client socket .ring) x { x with m_sendRingBuff := [] }
  | exchange (session x) : Writes input (.sendPost session .exchange) x { x with m_isSendPending := true }
  | release (session x) : Writes input (.sendPost session .release) x { x with m_isSendPending := false }
  | failedRelease (session x) :
      Writes input (.sendPost session .failedRelease) x { x with m_isSendPending := false }
  | sentDone (client x) : Writes input (.worker client .sentDone) x { x with m_isSendPending := false }
  | store (session n x) : Writes input (.sendPost session (.store n)) x { x with m_sendPacketCount := n }
  | storeCap (session x) : Writes input (.sendPost session .storeCap) x { x with m_sendPacketCount := 1000 }
  | enqueue (session packet x) : Writes input (.sendPacket session packet .enqueue) x
      { x with m_sendRingBuff := enqueue x.m_sendRingBuff packet }
  | sentTake (client i x) : Writes input (.worker client (.sentTake i)) x
      { x with m_sendRingBuff := (dequeue x.m_sendRingBuff input).2 }
  | take (session cause x) : Writes input (.removeSession session cause .take) x
      { x with m_sendRingBuff := (dequeue x.m_sendRingBuff input).2 }
  | mark (session cause x) : Writes input (.removeSession session cause .mark) x { x with m_isClosing := true }
  | swap (session cause x) : Writes input (.removeSession session cause .swap) x { x with m_isTornDown := true }

/-- The packets that a step of a frame can delete. -/
def Deletes (s : CLockFreeCore) : Frame → Packet → Prop
  | .drop last, packet => last = packet
  | .worker client (.sentTake _), packet =>
      ∃ input, (dequeue (s.slots client.slot).m_sendRingBuff input).1 = some packet
  | .removeSession session _ .take, packet =>
      ∃ input, (dequeue (s.slots session.slot).m_sendRingBuff input).1 = some packet
  | _, _ => False

/-- The events that a step of a frame can record. -/
def Records (s : CLockFreeCore) (frame : Frame) : Event → Prop
  | .accepted id slot socket => frame = .issue slot socket ∧ id = s.m_nextSessionId
  | .marked slot owner cause => owner = (s.slots slot).m_sessionId ∧
      ∃ session, session.slot = slot ∧ frame = .removeSession session cause .mark
  | .tornDown slot owner cause => owner = (s.slots slot).m_sessionId ∧
      (s.slots slot).m_isTornDown = false ∧ ∃ session, session.slot = slot ∧ frame = .removeSession session cause .swap
  | .enqueued slot owner packet => owner = (s.slots slot).m_sessionId ∧
      ∃ session, session.slot = slot ∧ frame = .sendPacket session packet .enqueue
  | .posted slot owner socket batch => owner = (s.slots slot).m_sessionId ∧
      ∃ session, session.slot = slot ∧ frame = .sendPost session (.call batch socket)
  | .deleted packet => Deletes s frame packet
  | .closed _ => True

/-- What a step can change of the store, apart from the flags, counts and rings of its own slot. -/
structure Changes (s : CLockFreeCore) (frame : Frame) (input : Input) (s' : CLockFreeCore) : Prop where
  slots : ∀ j, frame.slot ≠ some j → s'.slots j = s.slots j
  id : ∀ j, (s'.slots j).m_sessionId = (s.slots j).m_sessionId ∨
    (∃ socket, frame = .issue j socket) ∧ (s'.slots j).m_sessionId = s.m_nextSessionId
  socket : ∀ j, (s'.slots j).m_socket = (s.slots j).m_socket ∨
    ∃ session socket, frame = .accepting session socket .socket ∧ session.slot = j
  torn : ∀ j, (s.slots j).m_isTornDown → (s'.slots j).m_isTornDown ∨
    ∃ session socket, frame = .accepting session socket .tornDown ∧ session.slot = j
  inFlight : ∀ io ∈ s'.inFlight, io ∈ s.inFlight ∨ Posts frame io
  map : s'.m_sessionMap = s.m_sessionMap ∨
    (∃ session socket, frame = .accepting session socket .insert ∧
      s'.m_sessionMap = s.m_sessionMap.insert (s.slots session.slot).m_sessionId session.slot) ∨
    ∃ session cause, frame = .removeSession session cause .erase ∧
      s'.m_sessionMap = s.m_sessionMap.erase (s.slots session.slot).m_sessionId
  free : s'.m_sessionFreeList = s.m_sessionFreeList ∨
    (∃ slot, pops s frame input = some slot ∧ s.m_sessionFreeList = slot :: s'.m_sessionFreeList) ∨
    ∃ session cause, frame = .removeSession session cause .push ∧
      s'.m_sessionFreeList = session.slot :: s.m_sessionFreeList
  next : s'.m_nextSessionId = s.m_nextSessionId ∨
    (∃ session socket, frame = .accepting session socket .next) ∧
      s'.m_nextSessionId = s.m_nextSessionId + 1
  log : s'.log = s.log ∨ ∃ event, Records s frame event ∧ s'.log = event :: s.log

section Changes

variable {s s' : CLockFreeCore} {frame : Frame} {input : Input}

theorem Changes.of_slots (slots : s'.slots = s.slots)
    (inFlight : ∀ io ∈ s'.inFlight, io ∈ s.inFlight ∨ Posts frame io)
    (map : s'.m_sessionMap = s.m_sessionMap ∨
      (∃ session socket, frame = .accepting session socket .insert ∧
        s'.m_sessionMap = s.m_sessionMap.insert (s.slots session.slot).m_sessionId session.slot) ∨
      ∃ session cause, frame = .removeSession session cause .erase ∧
        s'.m_sessionMap = s.m_sessionMap.erase (s.slots session.slot).m_sessionId)
    (free : s'.m_sessionFreeList = s.m_sessionFreeList ∨
      (∃ slot, pops s frame input = some slot ∧ s.m_sessionFreeList = slot :: s'.m_sessionFreeList) ∨
      ∃ session cause, frame = .removeSession session cause .push ∧
        s'.m_sessionFreeList = session.slot :: s.m_sessionFreeList)
    (next : s'.m_nextSessionId = s.m_nextSessionId ∨
      (∃ session socket, frame = .accepting session socket .next) ∧
        s'.m_nextSessionId = s.m_nextSessionId + 1)
    (log : s'.log = s.log) : Changes s frame input s' where
  slots _ _ := by rw [slots]
  id _ := .inl (by rw [slots])
  socket _ := .inl (by rw [slots])
  torn _ torn := .inl (by rwa [slots])
  inFlight := inFlight
  map := map
  free := free
  next := next
  log := .inl log

theorem Changes.refl : Changes s frame input s :=
  .of_slots rfl (fun _ => .inl) (.inl rfl) (.inl rfl) (.inl rfl) rfl

/-- A write to the frame's own session. -/
theorem Changes.of_modify {k : ℕ} (own : frame.slot = some k) {change : Session → Session}
    (id : (change (s.slots k)).m_sessionId = (s.slots k).m_sessionId ∨
      (∃ socket, frame = .issue k socket) ∧ (change (s.slots k)).m_sessionId = s.m_nextSessionId)
    (socket : (change (s.slots k)).m_socket = (s.slots k).m_socket ∨
      ∃ session socket, frame = .accepting session socket .socket ∧ session.slot = k)
    (torn : (s.slots k).m_isTornDown → (change (s.slots k)).m_isTornDown ∨
      ∃ session socket, frame = .accepting session socket .tornDown ∧ session.slot = k) :
    Changes s frame input (s.modify k change) where
  slots j other := by
    have elsewhere : j ≠ k := by
      rintro rfl
      exact other own
    simp [elsewhere]
  id j := by
    by_cases here : j = k
    · subst here
      simpa using id
    · exact .inl (by simp [here])
  socket j := by
    by_cases here : j = k
    · subst here
      simpa using socket
    · exact .inl (by simp [here])
  torn j := by
    by_cases here : j = k
    · subst here
      simpa using torn
    · exact fun torn => .inl (by simpa [here] using torn)
  inFlight _ := .inl
  map := .inl rfl
  free := .inl rfl
  next := .inl rfl
  log := .inl rfl

/-- Most writes to a session leave its id and its socket alone, and do not revive it. -/
theorem Changes.modify {k : ℕ} (own : frame.slot = some k) {change : Session → Session}
    (keeps : (change (s.slots k)).m_sessionId = (s.slots k).m_sessionId ∧
      (change (s.slots k)).m_socket = (s.slots k).m_socket ∧
      ((s.slots k).m_isTornDown → (change (s.slots k)).m_isTornDown)) :
    Changes s frame input (s.modify k change) :=
  .of_modify own (.inl keeps.1) (.inl keeps.2.1) fun torn => .inl (keeps.2.2 torn)

theorem Changes.record (changes : Changes s frame input s') (silent : s'.log = s.log) {event : Event}
    (records : Records s frame event) : Changes s frame input (s'.record event) :=
  { changes with log := .inr ⟨event, records, congrArg _ silent⟩ }

theorem Changes.delete (changes : Changes s frame input s') (silent : s'.log = s.log) {c : Option Packet}
    (deletes : ∀ packet, c = some packet → Deletes s frame packet) : Changes s frame input (s'.delete c) := by
  cases c with
  | none => exact changes
  | some packet => exact changes.record silent (deletes packet rfl)

/-- Events are not forgotten. -/
theorem Changes.mem_log (changes : Changes s frame input s') {event : Event} (member : event ∈ s.log) :
    event ∈ s'.log := by
  rcases changes.log with same | ⟨event, -, grown⟩
  · rwa [same]
  · rw [grown]
    exact List.mem_cons_of_mem _ member

/-- An event is old, or the step records it. -/
theorem Changes.of_mem_log (changes : Changes s frame input s') {event : Event} (member : event ∈ s'.log) :
    event ∈ s.log ∨ Records s frame event := by
  rcases changes.log with same | ⟨last, records, grown⟩
  · exact .inl (same ▸ member)
  · rw [grown] at member
    rcases List.mem_cons.mp member with rfl | member
    · exact .inr records
    · exact .inl member

end Changes

section Specs

variable {s s' : CLockFreeCore} {left : List Frame} {input : Input}

theorem recvPost_spec {session : Handle} {pc : RecvPc} (ran : recvPost s session pc input = some (s', left)) :
    Changes s (.recvPost session pc) input s' ∧ ∀ frame ∈ left, Leaves s (.recvPost session pc) input frame := by
  cases pc with
  | closing | recheck =>
    simp only [recvPost] at ran
    split_ifs at ran <;> cases ran <;> exact ⟨.refl, by simp [Leaves, Frame.handle]⟩
  | increment | backOut | failed =>
    cases ran
    exact ⟨.modify rfl ⟨rfl, rfl, id⟩, by simp [Leaves, Frame.handle]⟩
  | socket | report =>
    cases ran
    exact ⟨.refl, by simp [Leaves, Frame.handle]⟩
  | call socket =>
    have posted : Changes s (.recvPost session (.call socket)) input
        { s with inFlight := ⟨session, .recv⟩ :: s.inFlight } := by
      refine .of_slots rfl ?_ (.inl rfl) (.inl rfl) (.inl rfl) rfl
      intro io member
      rcases List.mem_cons.mp member with rfl | member
      · exact .inr rfl
      · exact .inl member
    cases input <;> cases ran <;> first | exact ⟨posted, by simp⟩ | exact ⟨.refl, by simp [Leaves, Frame.handle]⟩

theorem sendPost_spec {session : Handle} {pc : SendPc} (ran : sendPost s session pc input = some (s', left)) :
    Changes s (.sendPost session pc) input s' ∧ ∀ frame ∈ left, Leaves s (.sendPost session pc) input frame := by
  cases pc with
  | exchange =>
    simp only [sendPost] at ran
    split_ifs at ran <;> cases ran <;> exact ⟨.modify rfl ⟨rfl, rfl, id⟩, by simp [Leaves, Frame.handle]⟩
  | closing | cap | check size | recheck wsabuf =>
    simp only [sendPost] at ran
    split_ifs at ran <;> cases ran <;> exact ⟨.refl, by simp [Leaves, Frame.handle]⟩
  | release | store n | storeCap | increment wsabuf | backOut | failed | failedRelease =>
    cases ran
    exact ⟨.modify rfl ⟨rfl, rfl, id⟩, by simp [Leaves, Frame.handle]⟩
  | size | checkSize | count | peek n | socket wsabuf | report =>
    cases ran
    exact ⟨.refl, by simp [Leaves, Frame.handle]⟩
  | fill c wsabuf =>
    simp only [sendPost] at ran
    split_ifs at ran
    · split at ran <;> cases ran <;> exact ⟨.refl, by simp [Leaves, Frame.handle]⟩
    · cases ran
      exact ⟨.refl, by simp [Leaves, Frame.handle]⟩
  | buffers wsabuf socket =>
    simp only [sendPost] at ran
    split_ifs at ran
    · cases ran
      exact ⟨.refl, by simp [Leaves, Frame.handle]⟩
    · split at ran <;> cases ran <;> exact ⟨.refl, by simp [Leaves, Frame.handle]⟩
  | call wsabuf socket =>
    have posted : Changes s (.sendPost session (.call wsabuf socket)) input
        { s with inFlight := ⟨session, .send⟩ :: s.inFlight } := by
      refine .of_slots rfl ?_ (.inl rfl) (.inl rfl) (.inl rfl) rfl
      intro io member
      rcases List.mem_cons.mp member with rfl | member
      · exact .inr rfl
      · exact .inl member
    cases input <;> cases ran <;>
      first | exact ⟨posted.record rfl ⟨rfl, session, rfl, rfl⟩, by simp⟩ | exact ⟨.refl, by simp [Leaves, Frame.handle]⟩

theorem worker_spec {client : Handle} {pc : WorkerPc} (ran : worker s client pc input = some (s', left)) :
    Changes s (.worker client pc) input s' ∧ ∀ frame ∈ left, Leaves s (.worker client pc) input frame := by
  cases pc with
  | peerClosed | sentDone | decrement =>
    cases ran
    exact ⟨.modify rfl ⟨rfl, rfl, id⟩, by simp [Leaves, Frame.handle]⟩
  | sentTake i =>
    cases ran
    exact ⟨.delete (.modify rfl ⟨rfl, rfl, id⟩) rfl fun _ taken => ⟨input, taken⟩,
      by simp [Leaves, Frame.handle]⟩
  | peerGone | rejected | poll =>
    cases ran
    exact ⟨.refl, by simp [Leaves, Frame.handle]⟩
  | received => cases input <;> cases ran <;> exact ⟨.refl, by simp [Leaves, Frame.handle]⟩
  | sent i | sentSize i | more | idle =>
    simp only [worker] at ran
    split_ifs at ran <;> cases ran <;> exact ⟨.refl, by simp [Leaves, Frame.handle]⟩

theorem removeSession_spec {session : Handle} {cause : ℤ} {pc : RemovePc}
    (ran : removeSession s session cause pc input = some (s', left)) :
    Changes s (.removeSession session cause pc) input s' ∧
      ∀ frame ∈ left, Leaves s (.removeSession session cause pc) input frame := by
  cases pc with
  | mark =>
    cases ran
    exact ⟨.record (.modify rfl ⟨rfl, rfl, id⟩) rfl ⟨rfl, session, rfl, rfl⟩, by simp [Leaves]⟩
  | swap =>
    simp only [removeSession] at ran
    split_ifs at ran with torn <;> cases ran
    · exact ⟨.refl, by simp⟩
    · rw [Bool.not_eq_true] at torn
      exact ⟨.record (.modify rfl ⟨rfl, rfl, fun _ => rfl⟩) rfl ⟨rfl, torn, session, rfl, rfl⟩, by simp [Leaves]⟩
  | closing | ioCount | drain | rest =>
    simp only [removeSession] at ran
    split_ifs at ran <;> cases ran <;> exact ⟨.refl, by simp [Leaves]⟩
  | take =>
    cases ran
    exact ⟨.delete (.modify rfl ⟨rfl, rfl, id⟩) rfl fun _ taken => ⟨input, taken⟩, by simp [Leaves]⟩
  | socket | leave =>
    cases ran
    exact ⟨.refl, by simp [Leaves]⟩
  | close sock =>
    cases ran
    exact ⟨.record .refl rfl trivial, by simp [Leaves]⟩
  | erase =>
    cases ran
    have erased : Changes s (.removeSession session cause .erase) input
        { s with m_sessionMap := s.m_sessionMap.erase (s.slots session.slot).m_sessionId } :=
      .of_slots rfl (fun _ => .inl) (.inr (.inr ⟨session, cause, rfl, rfl⟩)) (.inl rfl) (.inl rfl) rfl
    exact ⟨erased, by simp [Leaves]⟩
  | push =>
    cases ran
    have pushed : Changes s (.removeSession session cause .push) input
        { s with m_sessionFreeList := session.slot :: s.m_sessionFreeList } :=
      .of_slots rfl (fun _ => .inl) (.inl rfl) (.inr (.inr ⟨session, cause, rfl, rfl⟩)) (.inl rfl) rfl
    exact ⟨pushed, by simp⟩

theorem accepting_spec {client : Handle} {sock : ℕ} {pc : AcceptPc}
    (ran : accepting s client sock pc = some (s', left)) :
    Changes s (.accepting client sock pc) input s' ∧
      ∀ frame ∈ left, Leaves s (.accepting client sock pc) input frame := by
  cases pc with
  | next =>
    cases ran
    have advanced : Changes s (.accepting client sock .next) input
        { s with m_nextSessionId := s.m_nextSessionId + 1 } :=
      .of_slots rfl (fun _ => .inl) (.inl rfl) (.inl rfl) (.inr ⟨⟨client, sock, rfl⟩, rfl⟩) rfl
    exact ⟨advanced, by simp [Leaves, AcceptPc.next?]⟩
  | socket =>
    cases ran
    exact ⟨.of_modify rfl (.inl rfl) (.inr ⟨client, sock, rfl, rfl⟩) .inl, by simp [Leaves, AcceptPc.next?]⟩
  | tornDown =>
    cases ran
    exact ⟨.of_modify rfl (.inl rfl) (.inl rfl) fun _ => .inr ⟨client, sock, rfl, rfl⟩,
      by simp [Leaves, AcceptPc.next?]⟩
  | pending | ioCount | closing | ring =>
    cases ran
    exact ⟨.modify rfl ⟨rfl, rfl, id⟩, by simp [Leaves, AcceptPc.next?]⟩
  | insert =>
    cases ran
    have inserted : Changes s (.accepting client sock .insert) input
        { s with m_sessionMap := s.m_sessionMap.insert (s.slots client.slot).m_sessionId client.slot } :=
      .of_slots rfl (fun _ => .inl) (.inr (.inl ⟨client, sock, rfl, rfl⟩)) (.inl rfl) (.inl rfl) rfl
    exact ⟨inserted, by simp [Leaves, AcceptPc.next?]⟩
  | join =>
    cases ran
    exact ⟨.refl, by simp [Leaves, AcceptPc.next?]⟩
  | post =>
    cases ran
    exact ⟨.refl, by simp [Leaves, Frame.handle, Frame.isAcceptor]⟩

theorem asked_spec {socket : ℕ} (ran : asked s socket input = some (s', left)) :
    Changes s (.asked socket) input s' ∧ ∀ frame ∈ left, Leaves s (.asked socket) input frame := by
  simp only [asked] at ran
  split at ran
  · cases ran
    exact ⟨.record .refl rfl trivial, by simp [Leaves, Frame.isAcceptor]⟩
  · rename_i kept
    have pop : pops s (.asked socket) input = s.m_sessionFreeList.head? := by
      cases input <;> first | rfl | exact absurd rfl kept
    split at ran <;> rename_i free
    · cases ran
      exact ⟨.record .refl rfl trivial, by simp [Leaves, Frame.isAcceptor]⟩
    · rename_i slot rest
      cases ran
      rw [free] at pop
      have taken : Changes s (.asked socket) input { s with m_sessionFreeList := rest } :=
        .of_slots rfl (fun _ => .inl) (.inl rfl) (.inr (.inl ⟨slot, pop, free⟩)) (.inl rfl) rfl
      exact ⟨taken, by simp [Leaves, pop]⟩

theorem getStatus_spec (ran : getStatus s input = some (s', left)) :
    Changes s .getStatus input s' ∧ ∀ frame ∈ left, Leaves s .getStatus input frame := by
  cases input with
  | complete index cbTransferred =>
    obtain ⟨io, found, completed⟩ := Option.map_eq_some_iff.mp ran
    have member : io ∈ s.inFlight := List.mem_of_getElem? found
    have changes : Changes s .getStatus (.complete index cbTransferred)
        { s with inFlight := s.inFlight.eraseIdx index } :=
      .of_slots rfl (fun _ inside => .inl (List.mem_of_mem_eraseIdx inside)) (.inl rfl) (.inl rfl) (.inl rfl) rfl
    have leaves (pc : WorkerPc) :
        Leaves s .getStatus (.complete index cbTransferred) (.worker io.session pc) :=
      .inr ⟨rfl, io, member, rfl⟩
    split_ifs at completed
    · cases completed
      exact ⟨changes, by simp [leaves]⟩
    · split at completed <;> cases completed <;> exact ⟨changes, by simp [leaves]⟩
  | _ => cases ran

/-- What a step of any frame changes, and what it leaves. -/
theorem exec_spec {frame : Frame} (ran : exec s frame input = some (s', left)) :
    Changes s frame input s' ∧ ∀ f ∈ left, Leaves s frame input f := by
  cases frame with
  | app => cases input <;> cases ran <;> exact ⟨.refl, by simp [Leaves]⟩
  | accept =>
    cases input <;> cases ran <;>
      exact ⟨.of_slots rfl (fun _ => .inl) (.inl rfl) (.inl rfl) (.inl rfl) rfl, by simp [Leaves, Frame.isAcceptor]⟩
  | asked socket => exact asked_spec ran
  | issue slot socket =>
    cases ran
    let issued := s.modify slot fun client => { client with m_sessionId := s.m_nextSessionId }
    have changes : Changes s (.issue slot socket) input issued :=
      .of_modify rfl (.inr ⟨⟨socket, rfl⟩, rfl⟩) (.inl rfl) .inl
    exact ⟨changes.record rfl ⟨rfl, rfl⟩, by simp [Leaves]⟩
  | accepting client socket pc => exact accepting_spec ran
  | getStatus => exact getStatus_spec ran
  | worker client pc => exact worker_spec ran
  | recvPost session pc => exact recvPost_spec ran
  | sendPost session pc => exact sendPost_spec ran
  | findRemove id mark cause =>
    simp only [exec, findRemove] at ran
    split at ran <;> rename_i found <;> cases ran
    · exact ⟨.refl, by simp⟩
    · exact ⟨.refl, by simp [Leaves, found]⟩
  | removeSession session cause pc => exact removeSession_spec ran
  | findSend packet =>
    simp only [exec, findSend] at ran
    split at ran <;> rename_i found <;> cases ran
    · exact ⟨.refl, by simp⟩
    · exact ⟨.refl, by simp [Leaves, found]⟩
  | sendPacket session packet pc =>
    cases pc with
    | enqueue =>
      cases ran
      exact ⟨.record (.modify rfl ⟨rfl, rfl, id⟩) rfl ⟨rfl, session, rfl, rfl⟩, by simp [Leaves]⟩
    | free | pending =>
      simp only [exec, sendPacket] at ran
      split_ifs at ran <;> cases ran <;> exact ⟨.refl, by simp [Leaves, Frame.handle]⟩
  | drop packet =>
    cases ran
    exact ⟨.record .refl rfl rfl, by simp⟩

/-- What a step writes to the session on its slot. -/
theorem exec_writes {frame : Frame} {k : ℕ} (ran : exec s frame input = some (s', left)) (own : frame.slot = some k) :
    Writes input frame (s.slots k) (s'.slots k) := by
  cases frame with
  | issue slot socket => exact .issue ..
  | accepting client socket pc =>
    obtain rfl : client.slot = k := Option.some.inj own
    cases pc with
    | ring =>
      cases ran
      rw [modify_slots_self]
      exact .ring ..
    | insert | join | post =>
      cases ran
      exact .nothing ..
    | _ => exact .prepare _ _ _ _ _ (by simp)
  | worker client pc =>
    obtain rfl : client.slot = k := Option.some.inj own
    cases pc with
    | peerClosed | decrement =>
      cases ran
      rw [modify_slots_self]
      exact .ioCount ..
    | sentTake i =>
      cases ran
      rw [delete_slots, modify_slots_self]
      exact .sentTake ..
    | sentDone =>
      cases ran
      rw [modify_slots_self]
      exact .sentDone ..
    | received => cases input <;> cases ran <;> exact .nothing ..
    | sent i | sentSize i | more | idle =>
      simp only [exec, worker] at ran
      split_ifs at ran <;> cases ran <;> exact .nothing ..
    | peerGone | rejected | poll =>
      cases ran
      exact .nothing ..
  | recvPost session pc =>
    obtain rfl : session.slot = k := Option.some.inj own
    cases pc with
    | increment | backOut | failed =>
      cases ran
      rw [modify_slots_self]
      exact .ioCount ..
    | closing | recheck =>
      simp only [exec, recvPost] at ran
      split_ifs at ran <;> cases ran <;> exact .nothing ..
    | call socket => cases input <;> cases ran <;> exact .nothing ..
    | socket | report =>
      cases ran
      exact .nothing ..
  | sendPost session pc =>
    obtain rfl : session.slot = k := Option.some.inj own
    cases pc with
    | exchange =>
      simp only [exec, sendPost] at ran
      split_ifs at ran <;> cases ran <;> rw [modify_slots_self] <;> exact .exchange ..
    | release =>
      cases ran
      rw [modify_slots_self]
      exact .release ..
    | failedRelease =>
      cases ran
      rw [modify_slots_self]
      exact .failedRelease ..
    | store n =>
      cases ran
      rw [modify_slots_self]
      exact .store ..
    | storeCap =>
      cases ran
      rw [modify_slots_self]
      exact .storeCap ..
    | increment wsabuf | backOut | failed =>
      cases ran
      rw [modify_slots_self]
      exact .ioCount ..
    | closing | cap | check size | recheck wsabuf =>
      simp only [exec, sendPost] at ran
      split_ifs at ran <;> cases ran <;> exact .nothing ..
    | fill c wsabuf =>
      simp only [exec, sendPost] at ran
      split_ifs at ran
      · split at ran <;> cases ran <;> exact .nothing ..
      · cases ran
        exact .nothing ..
    | buffers wsabuf socket =>
      simp only [exec, sendPost] at ran
      split_ifs at ran
      · cases ran
        exact .nothing ..
      · split at ran <;> cases ran <;> exact .nothing ..
    | call wsabuf socket => cases input <;> cases ran <;> exact .nothing ..
    | size | checkSize | count | peek n | socket wsabuf | report =>
      cases ran
      exact .nothing ..
  | removeSession session cause pc =>
    obtain rfl : session.slot = k := Option.some.inj own
    cases pc with
    | mark =>
      cases ran
      rw [record_slots, modify_slots_self]
      exact .mark ..
    | swap =>
      simp only [exec, removeSession] at ran
      split_ifs at ran <;> cases ran
      · exact .nothing ..
      · rw [record_slots, modify_slots_self]
        exact .swap ..
    | take =>
      cases ran
      rw [delete_slots, modify_slots_self]
      exact .take ..
    | closing | ioCount | drain | rest =>
      simp only [exec, removeSession] at ran
      split_ifs at ran <;> cases ran <;> exact .nothing ..
    | socket | close sock | leave | erase | push =>
      cases ran
      exact .nothing ..
  | sendPacket session packet pc =>
    obtain rfl : session.slot = k := Option.some.inj own
    cases pc with
    | enqueue =>
      cases ran
      rw [record_slots, modify_slots_self]
      exact .enqueue ..
    | free | pending =>
      simp only [exec, sendPacket] at ran
      split_ifs at ran <;> cases ran <;> exact .nothing ..
  | _ => cases own

/-- A step leaves the posted IO alone, posts one more, or gets one completion. -/
theorem exec_inFlight {frame : Frame} (ran : exec s frame input = some (s', left)) :
    s'.inFlight = s.inFlight ∨ (∃ io, Posts frame io ∧ s'.inFlight = io :: s.inFlight) ∨
      ∃ index cbTransferred io, frame = .getStatus ∧ input = .complete index cbTransferred ∧
        s.inFlight[index]? = some io ∧ s'.inFlight = s.inFlight.eraseIdx index := by
  cases frame with
  | app => cases input <;> cases ran <;> exact .inl rfl
  | accept => cases input <;> cases ran <;> exact .inl rfl
  | asked socket =>
    simp only [exec, asked] at ran
    split at ran
    · cases ran
      exact .inl rfl
    · split at ran <;> cases ran <;> exact .inl rfl
  | accepting client socket pc => cases pc <;> cases ran <;> exact .inl rfl
  | getStatus =>
    cases input with
    | complete index cbTransferred =>
      obtain ⟨io, found, completed⟩ := Option.map_eq_some_iff.mp ran
      refine .inr (.inr ⟨index, cbTransferred, io, rfl, rfl, found, ?_⟩)
      split_ifs at completed
      · cases completed
        rfl
      · split at completed <;> cases completed <;> rfl
    | _ => cases ran
  | worker client pc =>
    cases pc with
    | sentTake i =>
      cases ran
      exact .inl (delete_inFlight ..)
    | received => cases input <;> cases ran <;> exact .inl rfl
    | sent i | sentSize i | more | idle =>
      simp only [exec, worker] at ran
      split_ifs at ran <;> cases ran <;> exact .inl rfl
    | _ =>
      cases ran
      exact .inl rfl
  | recvPost session pc =>
    cases pc with
    | closing | recheck =>
      simp only [exec, recvPost] at ran
      split_ifs at ran <;> cases ran <;> exact .inl rfl
    | call socket => cases input <;> cases ran <;> first | exact .inl rfl | exact .inr (.inl ⟨_, rfl, rfl⟩)
    | _ =>
      cases ran
      exact .inl rfl
  | sendPost session pc =>
    cases pc with
    | exchange | closing | cap | check size | recheck wsabuf =>
      simp only [exec, sendPost] at ran
      split_ifs at ran <;> cases ran <;> exact .inl rfl
    | fill c wsabuf =>
      simp only [exec, sendPost] at ran
      split_ifs at ran
      · split at ran <;> cases ran <;> exact .inl rfl
      · cases ran
        exact .inl rfl
    | buffers wsabuf socket =>
      simp only [exec, sendPost] at ran
      split_ifs at ran
      · cases ran
        exact .inl rfl
      · split at ran <;> cases ran <;> exact .inl rfl
    | call wsabuf socket => cases input <;> cases ran <;> first | exact .inl rfl | exact .inr (.inl ⟨_, rfl, rfl⟩)
    | _ =>
      cases ran
      exact .inl rfl
  | findRemove id mark cause =>
    simp only [exec, findRemove] at ran
    split at ran <;> cases ran <;> exact .inl rfl
  | removeSession session cause pc =>
    cases pc with
    | closing | ioCount | swap | drain | rest =>
      simp only [exec, removeSession] at ran
      split_ifs at ran <;> cases ran <;> exact .inl rfl
    | take =>
      cases ran
      exact .inl (delete_inFlight ..)
    | _ =>
      cases ran
      exact .inl rfl
  | findSend packet =>
    simp only [exec, findSend] at ran
    split at ran <;> cases ran <;> exact .inl rfl
  | sendPacket session packet pc =>
    cases pc with
    | enqueue =>
      cases ran
      exact .inl rfl
    | free | pending =>
      simp only [exec, sendPacket] at ran
      split_ifs at ran <;> cases ran <;> exact .inl rfl
  | _ =>
    cases ran
    exact .inl rfl

theorem issue_id {slot socket : ℕ} (ran : exec s (.issue slot socket) input = some (s', left)) :
    (s'.slots slot).m_sessionId = s.m_nextSessionId := by
  cases ran
  simp

/-- Only the accept thread goes on as the accept thread. -/
theorem Leaves.isAcceptor {frame f : Frame} (leaves : Leaves s frame input f) (acceptor : f.isAcceptor) :
    frame.isAcceptor := by
  cases f with
  | accept | asked socket => exact leaves
  | issue slot socket =>
    obtain ⟨rfl, -⟩ := leaves
    rfl
  | accepting session socket pc => rcases leaves with ⟨rfl, -⟩ | ⟨last, rfl, -⟩ <;> rfl
  | _ => cases acceptor

/-- The accept thread stays one. -/
theorem exec_acceptor {frame : Frame} (ran : exec s frame input = some (s', left)) :
    left.countP Frame.isAcceptor ≤ [frame].countP Frame.isAcceptor := by
  have leaves := (exec_spec ran).2
  cases frame with
  | accept => cases input <;> cases ran <;> simp [Frame.isAcceptor]
  | asked socket =>
    simp only [exec, asked] at ran
    split at ran
    · cases ran
      simp [Frame.isAcceptor]
    · split at ran <;> cases ran <;> simp [Frame.isAcceptor]
  | issue slot socket =>
    cases ran
    simp [Frame.isAcceptor]
  | accepting client socket pc => cases pc <;> cases ran <;> simp [Frame.isAcceptor]
  | _ =>
    apply Nat.le_of_eq
    rw [List.countP_eq_zero.mpr]
    · rfl
    · intro f member acceptor
      cases (leaves f member).isAcceptor acceptor

end Specs

end LockFreeCore.CLockFreeCore
