import LockFreeCore.Proofs.CLockFreeCore.Steps
import LockFreeCore.ToMathlib.CountedClose

/-! # The parties of a session

Seen from one slot, every access of every thread is a step of a resource that counts its users, or
changes nothing of it. The users are the posts between the increment and the completion handler's
decrement, the closers the threads inside `removeSession`.
-/

namespace LockFreeCore.CLockFreeCore

open CountedClose

def RecvPc.role : RecvPc → Option Role
  | .closing | .increment => none
  | .recheck => some .entering
  | .backOut => some .leaving
  | .socket | .call _ | .failed => some .working
  | .report => some .polling

def SendPc.role : SendPc → Option Role
  | .recheck _ => some .entering
  | .backOut => some .leaving
  | .socket _ | .buffers .. | .call .. | .failed => some .working
  | .failedRelease | .report => some .polling
  | _ => none

def WorkerPc.role : WorkerPc → Role
  | .peerGone | .poll => .polling
  | _ => .working

def RemovePc.role : RemovePc → Role
  | .mark | .closing => .polling
  | .ioCount => .reading
  | .swap => .claiming
  | _ => .tearing

/-- The part a frame has in the closing of slot `k` while the slot has the id. -/
def Frame.role (k : ℕ) (id : ℤ) : Frame → Option Role
  | .worker session pc => if session.slot = k then some pc.role else none
  | .recvPost session pc => if session.slot = k then pc.role else none
  | .sendPost session pc => if session.slot = k then pc.role else none
  | .removeSession session _ pc => if session.slot = k then some pc.role else none
  | .findRemove other _ _ => if other = id then some .polling else none
  | _ => none

/-- As many parties as there are roles: one or none. -/
def party : Option Role → Multiset Role
  | some role => {role}
  | none => 0

def parties (k : ℕ) (id : ℤ) (frames : List Frame) : Multiset Role :=
  (frames.map fun frame => party (frame.role k id)).sum

/-- A posted IO is a user until its completion has been handled. -/
def flying (k : ℕ) (inFlight : List Io) : Multiset Role :=
  (inFlight.map fun io => party (if io.session.slot = k then some .working else none)).sum

/-- The slot as a resource with the given parties. -/
def resource (s : CLockFreeCore) (k : ℕ) (parties : Multiset Role) : State where
  count := (s.slots k).m_ioCount
  closing := (s.slots k).m_isClosing
  torn := (s.slots k).m_isTornDown
  claims := s.log.countP (isTearDown k)
  released := s.m_sessionFreeList.count k
  parties := parties

/-- The frame backs out of a post on slot `k`. -/
def Frame.backsOut (k : ℕ) : Frame → Bool
  | .recvPost session .backOut => session.slot = k
  | .sendPost session .backOut => session.slot = k
  | _ => false

/-- The accept thread is preparing slot `k` for a new session: it has not yet reset `m_isTornDown`. -/
def Frame.prepares (k : ℕ) : Frame → Bool
  | .issue slot _ => slot = k
  | .accepting client _ pc => client.slot = k ∧ pc ∈
      [AcceptPc.next, .socket, .pending, .ioCount, .closing, .tornDown]
  | _ => false

/-- Nothing, or one step of the resource; a poll is given up for a reason. -/
def Moves (s : CLockFreeCore) (k : ℕ) (id : ℤ) (frame : Frame) (before after : State) : Prop :=
  before = after ∨ ∃ label, Step before label after ∧ (label = .back → frame.backsOut k) ∧
    (label = .quit → (s.slots k).m_isClosing = false ∨ (s.slots k).m_sessionId ≠ id ∨
      s.m_sessionMap.lookup id ≠ some k)

section Parties

variable {k : ℕ} {id : ℤ} {rest : List Frame} {R : Multiset Role}

@[simp] theorem role_findRemove (x : ℤ) (mark : Bool) (cause : ℤ) :
    (Frame.findRemove x mark cause).role k id = if x = id then some .polling else none := rfl

@[simp] theorem role_app : Frame.app.role k id = none := rfl

@[simp] theorem role_getStatus : Frame.getStatus.role k id = none := rfl

@[simp] theorem party_none : party none + R = R := Multiset.zero_add R

@[simp] theorem party_some (role : Role) : party (some role) + R = role ::ₘ R := Multiset.singleton_add role R

@[simp] theorem parties_nil : parties k id [] + R = R := Multiset.zero_add R

@[simp] theorem parties_cons (frame : Frame) : parties k id (frame :: rest) + R =
    party (frame.role k id) + (parties k id rest + R) := by
  simp [parties, add_assoc]

@[simp] theorem flying_cons (io : Io) (rest : List Io) : flying k (io :: rest) + R =
    party (if io.session.slot = k then some .working else none) + (flying k rest + R) := by
  simp [flying, add_assoc]

end Parties

section Steps

variable {s s' : CLockFreeCore} {k : ℕ} {id : ℤ} {left : List Frame} {input : Input} {R : Multiset Role}

theorem Moves.step {frame : Frame} {before after : State} (step : Step before .other after) :
    Moves s k id frame before after := .inr ⟨.other, step, nofun, nofun⟩

theorem Moves.back {frame : Frame} {before after : State} (step : Step before .back after)
    (backs : frame.backsOut k) : Moves s k id frame before after := .inr ⟨.back, step, fun _ => backs, nofun⟩

theorem Moves.quit {frame : Frame} {before after : State} (step : Step before .quit after)
    (gone : (s.slots k).m_isClosing = false ∨ (s.slots k).m_sessionId ≠ id ∨
      s.m_sessionMap.lookup id ≠ some k) : Moves s k id frame before after :=
  .inr ⟨.quit, step, nofun, fun _ => gone⟩

/-- A thread that passes on the id it reads starts a poll of the slot with that id, or none. -/
theorem moves_report {frame : Frame} (x : ℤ) :
    Moves s k id frame (resource s k R)
      (resource s k (party (if x = id then some .polling else none) + R)) := by
  by_cases same : x = id
  · apply Moves.step
    simpa [same, resource] using Step.call ..
  · exact .inl (by simp [same])

/-- A thread of the slot that passes on its id keeps polling it, as long as it has the id. -/
theorem moves_report_here {frame : Frame} :
    Moves s k id frame (resource s k (.polling ::ₘ R))
      (resource s k (party (if (s.slots k).m_sessionId = id then some .polling else none) + R)) := by
  by_cases same : (s.slots k).m_sessionId = id
  · exact .inl (by simp [same])
  · refine .quit ?_ (.inr (.inl same))
    simpa [same, resource] using Step.quit ..

theorem recvPost_moves {session : Handle} {pc : RecvPc} (ran : recvPost s session pc input = some (s', left)) :
    Moves s k id (.recvPost session pc)
      (resource s k (party ((Frame.recvPost session pc).role k id) + (flying k s.inFlight + R)))
      (resource s' k (parties k id left + (flying k s'.inFlight + R))) := by
  by_cases here : session.slot = k
  · subst here
    cases pc with
    | closing =>
      simp only [recvPost] at ran
      split_ifs at ran <;> cases ran <;> exact .inl (by simp [Frame.role, RecvPc.role])
    | increment =>
      cases ran
      apply Moves.step
      simpa [resource, Frame.role, RecvPc.role] using Step.enter ..
    | recheck =>
      simp only [recvPost] at ran
      split_ifs at ran with closing <;> cases ran <;> apply Moves.step
      · simpa [resource, Frame.role, RecvPc.role, closing] using Step.refuse ..
      · simpa [resource, Frame.role, RecvPc.role, closing] using Step.pass ..
    | backOut =>
      cases ran
      refine .back ?_ (by simp [Frame.backsOut])
      simpa [resource, Frame.role, RecvPc.role] using Step.back ..
    | socket =>
      cases ran
      exact .inl (by simp [Frame.role, RecvPc.role])
    | call socket =>
      cases input <;> cases ran <;> exact .inl (by simp [resource, Frame.role, RecvPc.role])
    | failed =>
      cases ran
      apply Moves.step
      simpa [resource, Frame.role, RecvPc.role] using Step.finish ..
    | report =>
      cases ran
      simpa [Frame.role, RecvPc.role] using moves_report_here
  · have role (pc : RecvPc) : (Frame.recvPost session pc).role k id = none := if_neg here
    have elsewhere : k ≠ session.slot := Ne.symm here
    cases pc with
    | closing | recheck =>
      simp only [recvPost] at ran
      split_ifs at ran <;> cases ran <;> exact .inl (by simp [role])
    | increment | backOut | socket | failed =>
      cases ran
      exact .inl (by simp [resource, role, elsewhere])
    | call socket => cases input <;> cases ran <;> exact .inl (by simp [resource, role, here])
    | report =>
      cases ran
      simpa [role] using moves_report ..

theorem sendPost_moves {session : Handle} {pc : SendPc} (ran : sendPost s session pc input = some (s', left)) :
    Moves s k id (.sendPost session pc)
      (resource s k (party ((Frame.sendPost session pc).role k id) + (flying k s.inFlight + R)))
      (resource s' k (parties k id left + (flying k s'.inFlight + R))) := by
  by_cases here : session.slot = k
  · subst here
    cases pc with
    | exchange | closing | cap | check size =>
      simp only [sendPost] at ran
      split_ifs at ran <;> cases ran <;> exact .inl (by simp [resource, Frame.role, SendPc.role])
    | release | size | store n | storeCap | checkSize | count | peek n | socket wsabuf | failedRelease =>
      cases ran
      exact .inl (by simp [resource, Frame.role, SendPc.role])
    | fill c wsabuf =>
      simp only [sendPost] at ran
      split_ifs at ran
      · split at ran <;> cases ran <;> exact .inl (by simp [Frame.role, SendPc.role])
      · cases ran
        exact .inl (by simp [Frame.role, SendPc.role])
    | increment wsabuf =>
      cases ran
      apply Moves.step
      simpa [resource, Frame.role, SendPc.role] using Step.enter ..
    | recheck wsabuf =>
      simp only [sendPost] at ran
      split_ifs at ran with closing <;> cases ran <;> apply Moves.step
      · simpa [resource, Frame.role, SendPc.role, closing] using Step.refuse ..
      · simpa [resource, Frame.role, SendPc.role, closing] using Step.pass ..
    | backOut =>
      cases ran
      refine .back ?_ (by simp [Frame.backsOut])
      simpa [resource, Frame.role, SendPc.role] using Step.back ..
    | buffers wsabuf socket =>
      simp only [sendPost] at ran
      split_ifs at ran
      · cases ran
        exact .inl (by simp [Frame.role, SendPc.role])
      · split at ran <;> cases ran <;> exact .inl (by simp [Frame.role, SendPc.role])
    | call wsabuf socket =>
      cases input <;> cases ran <;> exact .inl (by simp [resource, isTearDown, Frame.role, SendPc.role])
    | failed =>
      cases ran
      apply Moves.step
      simpa [resource, Frame.role, SendPc.role] using Step.finish ..
    | report =>
      cases ran
      simpa [Frame.role, SendPc.role] using moves_report_here
  · have role (pc : SendPc) : (Frame.sendPost session pc).role k id = none := if_neg here
    have elsewhere : k ≠ session.slot := Ne.symm here
    cases pc with
    | exchange | closing | cap | check size | recheck wsabuf =>
      simp only [sendPost] at ran
      split_ifs at ran <;> cases ran <;> exact .inl (by simp [resource, role, elsewhere])
    | release | size | store n | storeCap | checkSize | count | peek n | socket wsabuf | failedRelease
      | increment wsabuf | backOut | failed =>
      cases ran
      exact .inl (by simp [resource, role, elsewhere])
    | fill c wsabuf =>
      simp only [sendPost] at ran
      split_ifs at ran
      · split at ran <;> cases ran <;> exact .inl (by simp [role])
      · cases ran
        exact .inl (by simp [role])
    | buffers wsabuf socket =>
      simp only [sendPost] at ran
      split_ifs at ran
      · cases ran
        exact .inl (by simp [role])
      · split at ran <;> cases ran <;> exact .inl (by simp [role])
    | call wsabuf socket =>
      cases input <;> cases ran <;> exact .inl (by simp [resource, isTearDown, role, here])
    | report =>
      cases ran
      simpa [role] using moves_report ..

theorem worker_moves {client : Handle} {pc : WorkerPc} (ran : worker s client pc input = some (s', left)) :
    Moves s k id (.worker client pc)
      (resource s k (party ((Frame.worker client pc).role k id) + (flying k s.inFlight + R)))
      (resource s' k (parties k id left + (flying k s'.inFlight + R))) := by
  by_cases here : client.slot = k
  · subst here
    cases pc with
    | peerClosed | decrement =>
      cases ran
      apply Moves.step
      simpa [resource, Frame.role, WorkerPc.role] using Step.finish ..
    | peerGone | poll =>
      cases ran
      simpa [Frame.role, WorkerPc.role] using moves_report_here
    | received =>
      cases input <;> cases ran <;> exact .inl (by simp [Frame.role, WorkerPc.role, RecvPc.role])
    | rejected =>
      cases ran
      simpa [Frame.role, WorkerPc.role] using
        moves_report (R := .working ::ₘ (flying client.slot s.inFlight + R)) _
    | sent i | sentSize i | more | idle =>
      simp only [worker] at ran
      split_ifs at ran <;> cases ran <;> exact .inl (by simp [Frame.role, WorkerPc.role, SendPc.role])
    | sentTake i =>
      cases ran
      exact .inl (by simp [resource, Frame.role, WorkerPc.role])
    | sentDone =>
      cases ran
      exact .inl (by simp [resource, Frame.role, WorkerPc.role])
  · have role (pc : WorkerPc) : (Frame.worker client pc).role k id = none := if_neg here
    have elsewhere : k ≠ client.slot := Ne.symm here
    cases pc with
    | peerClosed | decrement | sentTake i | sentDone =>
      cases ran
      exact .inl (by simp [resource, role, elsewhere])
    | peerGone | poll | rejected =>
      cases ran
      simpa [role] using moves_report ..
    | received => cases input <;> cases ran <;> exact .inl (by simp [Frame.role, here])
    | sent i | sentSize i | more | idle =>
      simp only [worker] at ran
      split_ifs at ran <;> cases ran <;> exact .inl (by simp [Frame.role, here])

theorem removeSession_moves {session : Handle} {cause : ℤ} {pc : RemovePc}
    (ran : removeSession s session cause pc input = some (s', left)) :
    Moves s k id (.removeSession session cause pc)
      (resource s k (party ((Frame.removeSession session cause pc).role k id) + (flying k s.inFlight + R)))
      (resource s' k (parties k id left + (flying k s'.inFlight + R))) := by
  by_cases here : session.slot = k
  · subst here
    cases pc with
    | mark =>
      cases ran
      apply Moves.step
      simpa [resource, isTearDown, Frame.role, RemovePc.role] using Step.mark ..
    | closing =>
      simp only [removeSession] at ran
      split_ifs at ran with closing <;> cases ran
      · apply Moves.step
        simpa [resource, Frame.role, RemovePc.role, closing] using Step.see ..
      · rw [Bool.not_eq_true] at closing
        refine .quit ?_ (.inl closing)
        simpa [resource, Frame.role, RemovePc.role] using Step.quit ..
    | ioCount =>
      simp only [removeSession] at ran
      split_ifs at ran with used <;> cases ran <;> apply Moves.step
      · simpa [resource, Frame.role, RemovePc.role] using Step.busy _ _ _ _ _ _ used
      · rw [not_not] at used
        simpa [resource, Frame.role, RemovePc.role, used] using Step.free ..
    | swap =>
      simp only [removeSession] at ran
      split_ifs at ran with torn <;> cases ran <;> apply Moves.step
      · simpa [resource, Frame.role, RemovePc.role, torn] using Step.lose ..
      · simpa [resource, isTearDown, Frame.role, RemovePc.role, torn] using Step.claim ..
    | drain | rest =>
      simp only [removeSession] at ran
      split_ifs at ran <;> cases ran <;> exact .inl (by simp [Frame.role, RemovePc.role])
    | take | socket | close sock | leave | erase =>
      cases ran
      exact .inl (by simp [resource, isTearDown, Frame.role, RemovePc.role])
    | push =>
      cases ran
      apply Moves.step
      simpa [resource, Frame.role, RemovePc.role] using Step.release ..
  · have role (pc : RemovePc) : (Frame.removeSession session cause pc).role k id = none := if_neg here
    have elsewhere : k ≠ session.slot := Ne.symm here
    cases pc with
    | mark | take | socket | close sock | leave | erase | push =>
      cases ran
      exact .inl (by simp [resource, isTearDown, role, elsewhere, here])
    | closing | ioCount | swap | drain | rest =>
      simp only [removeSession] at ran
      split_ifs at ran <;> cases ran <;> exact .inl (by simp [resource, isTearDown, role, elsewhere, here])

theorem findRemove_moves {x : ℤ} {mark : Bool} {cause : ℤ} (ran : findRemove s x mark cause = some (s', left)) :
    Moves s k id (.findRemove x mark cause)
      (resource s k (party ((Frame.findRemove x mark cause).role k id) + (flying k s.inFlight + R)))
      (resource s' k (parties k id left + (flying k s'.inFlight + R))) := by
  have role (slot : ℕ) : (Frame.removeSession ⟨slot, x⟩ cause (if mark then .mark else .closing)).role k id =
      if slot = k then some .polling else none := by cases mark <;> rfl
  simp only [findRemove] at ran
  split at ran <;> rename_i found <;> cases ran
  · by_cases same : x = id
    · subst same
      refine .quit ?_ (.inr (.inr ?_))
      · simpa [resource] using Step.quit ..
      · simp [found]
    · exact .inl (by simp [same])
  · rename_i slot
    by_cases here : slot = k
    · by_cases same : x = id
      · subst same
        exact .inl (by simp [role, here])
      · apply Moves.step
        simpa [resource, role, here, same] using Step.call ..
    · by_cases same : x = id
      · subst same
        refine .quit ?_ (.inr (.inr ?_))
        · simpa [resource, role, here] using Step.quit ..
        · simp [found, here]
      · exact .inl (by simp [role, here, same])

/-- A completed IO has been in flight. -/
theorem flying_eraseIdx {inFlight : List Io} {index : ℕ} {io : Io} (found : inFlight[index]? = some io) :
    flying k inFlight + R =
      party (if io.session.slot = k then some .working else none) + (flying k (inFlight.eraseIdx index) + R) := by
  obtain ⟨bound, rfl⟩ := List.getElem?_eq_some_iff.mp found
  have perm := (List.getElem_cons_eraseIdx_perm bound).map
    fun io => party (if io.session.slot = k then some .working else none)
  rw [flying, ← perm.sum_eq]
  exact flying_cons ..

theorem getStatus_moves (ran : getStatus s input = some (s', left)) :
    Moves s k id .getStatus (resource s k (flying k s.inFlight + R))
      (resource s' k (parties k id left + (flying k s'.inFlight + R))) := by
  cases input with
  | complete index cbTransferred =>
    obtain ⟨io, found, completed⟩ := Option.map_eq_some_iff.mp ran
    left
    rw [flying_eraseIdx found]
    split_ifs at completed
    · cases completed
      simp [resource, Frame.role, WorkerPc.role]
    · split at completed <;> cases completed <;> simp [resource, Frame.role, WorkerPc.role]
  | _ => cases ran

theorem accepting_moves {client : Handle} {socket : ℕ} {pc : AcceptPc}
    (ran : accepting s client socket pc = some (s', left))
    (later : ¬ (Frame.accepting client socket pc).prepares k) :
    Moves s k id (.accepting client socket pc) (resource s k (flying k s.inFlight + R))
      (resource s' k (parties k id left + (flying k s'.inFlight + R))) := by
  left
  by_cases here : client.slot = k
  · subst here
    cases pc with
    | next | socket | pending | ioCount | closing | tornDown =>
      exact absurd (by simp [Frame.prepares]) later
    | ring | insert | join | post =>
      cases ran
      simp [resource, Frame.role, RecvPc.role]
  · have elsewhere : k ≠ client.slot := Ne.symm here
    cases pc <;> cases ran <;> simp [resource, Frame.role, elsewhere, here]

/-- Seen from a slot that is not being prepared, every access is a step of the resource or nothing. -/
theorem exec_moves (id : ℤ) {frame : Frame} (ran : exec s frame input = some (s', left)) (later : ¬ frame.prepares k)
    (stays : pops s frame input ≠ some k) :
    Moves s k id frame (resource s k (party (frame.role k id) + (flying k s.inFlight + R)))
      (resource s' k (parties k id left + (flying k s'.inFlight + R))) := by
  cases frame with
  | app =>
    cases input <;> cases ran
    · simpa using moves_report ..
    · exact .inl (by simp [Frame.role])
    · exact .inl (by simp)
  | accept =>
    cases input <;> cases ran <;> exact .inl (by simp [resource, Frame.role])
  | asked socket =>
    left
    simp only [exec, asked] at ran
    split at ran
    · cases ran
      simp [resource, isTearDown, Frame.role]
    · split at ran
      · cases ran
        simp [resource, isTearDown, Frame.role]
      · rename_i slot rest free
        cases ran
        have other : slot ≠ k := by
          rintro rfl
          refine stays ?_
          cases input <;> simp_all [pops]
        simp [resource, Frame.role, free, other]
  | issue slot socket =>
    have elsewhere : k ≠ slot := by
      rintro rfl
      exact later (by simp [Frame.prepares])
    cases ran
    exact .inl (by simp [resource, isTearDown, Frame.role, elsewhere])
  | accepting client socket pc => simpa [Frame.role] using accepting_moves ran later
  | getStatus => simpa using getStatus_moves ran
  | worker client pc => exact worker_moves ran
  | recvPost session pc => exact recvPost_moves ran
  | sendPost session pc => exact sendPost_moves ran
  | findRemove x mark cause => exact findRemove_moves ran
  | removeSession session cause pc => exact removeSession_moves ran
  | findSend packet =>
    simp only [exec, findSend] at ran
    split at ran <;> cases ran <;> exact .inl (by simp [Frame.role])
  | sendPacket session packet pc =>
    left
    cases pc with
    | enqueue =>
      cases ran
      by_cases here : session.slot = k
      · subst here
        simp [resource, isTearDown, Frame.role]
      · have elsewhere : k ≠ session.slot := Ne.symm here
        simp [resource, isTearDown, Frame.role, elsewhere]
    | free | pending =>
      simp only [exec, sendPacket] at ran
      split_ifs at ran <;> cases ran <;> simp [Frame.role, SendPc.role]
  | drop packet =>
    cases ran
    exact .inl (by simp [resource, isTearDown, Frame.role])

end Steps

end LockFreeCore.CLockFreeCore
