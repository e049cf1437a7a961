import LockFreeCore.Proofs.CLockFreeCore.SendRing
import LockFreeCore.Proofs.CLockFreeCore.OneSession
import LockFreeCore.Proofs.CLockFreeCore.Sequential

/-! # The send pipeline of a session

The packets of a session pass from the ring to a post and are dequeued when it completes. `gone` are
the packets that have left the ring, `queue` those in it, and the first `r` of these are posted.
-/

namespace LockFreeCore.CLockFreeCore

open CountedClose Replay

/-- A full batch of at most 1000 packets from the front of the ring. -/
def Front (session : Session) (queue : List Packet) (wsabuf : List (Option Packet)) : Prop :=
  wsabuf.length = session.m_sendPacketCount ∧ session.m_sendPacketCount ≤ 1000 ∧ wsabuf <+: queue.map some

/-- What a post has read; up to the second look at `m_isClosing` a tear-down may have emptied the
ring. -/
def SendPc.Exact (session : Session) (queue : List Packet) : SendPc → Prop
  | .checkSize | .check _ | .count => session.m_sendPacketCount ≤ 1000
  | .peek n => n = session.m_sendPacketCount ∧ session.m_sendPacketCount ≤ 1000
  | .fill c wsabuf => session.m_isClosing ∨ Front session queue c ∧ wsabuf <+: c
  | .increment wsabuf | .recheck wsabuf => session.m_isClosing ∨ Front session queue wsabuf
  | .socket wsabuf | .buffers wsabuf _ | .call wsabuf _ => Front session queue wsabuf
  | _ => True

/-- How many packets of the ring are posted, as a completion knows it. -/
def WorkerPc.Exact (session : Session) (r : ℕ) : WorkerPc → Prop
  | .sent i | .sentSize i | .sentTake i => r = session.m_sendPacketCount - i
  | .sentDone => r = 0
  | _ => True

/-- What a thread has read of the sending side of slot `k`. -/
def Frame.Exact (session : Session) (k : ℕ) (queue : List Packet) (r : ℕ) : Frame → Prop
  | .sendPost client pc => client.slot = k →
      pc.Exact session queue ∧ ((Frame.sendPost client pc).holds k → r = 0)
  | .worker client pc => client.slot = k → pc.Exact session r
  | _ => True

structure Pipeline (m : Machine) (k : ℕ) (id : ℤ) (gone queue : List Packet) (r : ℕ) : Prop where
  ring : (m.shared.slots k).m_sendRingBuff = pointers queue
  enqueued : enqueuedOn k id m.shared.log = gone ++ queue
  ordered : postedOn k id m.shared.log <+: (gone ++ queue).map some
  posted : (m.shared.slots k).m_isTornDown = false →
    r ≤ queue.length ∧ postedOn k id m.shared.log = (gone ++ queue.take r).map some
  free : (m.shared.slots k).m_isSendPending = false → r = 0
  threads : ∀ frame ∈ m.frames, frame.Exact (m.shared.slots k) k queue r
  flying : ∀ io ∈ m.shared.inFlight, io.sends k → r = (m.shared.slots k).m_sendPacketCount ∧
    ∃ batch, lastPosted k id m.shared.log = some batch ∧ Front (m.shared.slots k) queue batch

section Specs

variable {s s' : CLockFreeCore} {k : ℕ} {id : ℤ} {left : List Frame} {input : Input} {x y : Session}
  {queue queue' : List Packet} {r : ℕ} {wsabuf : List (Option Packet)}

theorem Front.mono (front : Front x queue wsabuf) (count : y.m_sendPacketCount = x.m_sendPacketCount)
    (grown : queue <+: queue') : Front y queue' wsabuf := by
  obtain ⟨length, few, read⟩ := front
  exact ⟨length.trans count.symm, count ▸ few, read.trans (grown.map some)⟩

theorem SendPc.Exact.mono {pc : SendPc} (exact : pc.Exact x queue)
    (count : y.m_sendPacketCount = x.m_sendPacketCount) (closing : x.m_isClosing → y.m_isClosing)
    (grown : queue <+: queue') : pc.Exact y queue' := by
  cases pc with
  | checkSize | check size | count | peek n =>
    simp only [SendPc.Exact, count]
    exact exact
  | fill c wsabuf => exact exact.imp closing fun ⟨front, read⟩ => ⟨front.mono count grown, read⟩
  | increment wsabuf | recheck wsabuf => exact exact.imp closing fun front => front.mono count grown
  | socket wsabuf | buffers wsabuf sock | call wsabuf sock => exact Front.mono exact count grown
  | _ => trivial

/-- The session drifts and the ring grows. -/
theorem Frame.Exact.mono {f : Frame} (exact : f.Exact x k queue r)
    (count : y.m_sendPacketCount = x.m_sendPacketCount) (closing : x.m_isClosing → y.m_isClosing)
    (grown : queue <+: queue') : f.Exact y k queue' r := by
  cases f with
  | sendPost client pc => exact fun here => ⟨(exact here).1.mono count closing grown, (exact here).2⟩
  | worker client pc =>
    intro here
    have known := exact here
    cases pc <;> simp only [WorkerPc.Exact, count] at known ⊢ <;> exact known
  | _ => trivial

/-- Who does not hold `m_isSendPending` has read nothing that its holder can change. -/
theorem Frame.Exact.of_free {f : Frame} (free : ¬ f.holds k) : f.Exact x k queue r := by
  cases f with
  | sendPost client pc =>
    intro here
    refine ⟨?_, fun holds => absurd holds free⟩
    cases pc <;> first | trivial | exact absurd (by simp [Frame.holds, here]) free
  | worker client pc =>
    intro here
    cases pc <;> first | trivial | exact absurd (by simp [Frame.holds, here]) free
  | _ => trivial

/-- Once the session is closing and the last user has gone, a post may find any ring. -/
theorem Frame.Exact.of_closing {f : Frame} (exact : f.Exact x k queue r)
    (count : y.m_sendPacketCount = x.m_sendPacketCount) (closing : y.m_isClosing)
    (idle : f.role k id ≠ some .working) : f.Exact y k queue' r := by
  cases f with
  | sendPost client pc =>
    intro here
    refine ⟨?_, (exact here).2⟩
    have known := (exact here).1
    cases pc with
    | socket wsabuf | buffers wsabuf sock | call wsabuf sock => exact absurd (if_pos here) idle
    | fill c wsabuf | increment wsabuf | recheck wsabuf => exact .inl closing
    | checkSize | check size | count | peek n =>
      simp only [SendPc.Exact, count]
      exact known
    | _ => trivial
  | worker client pc =>
    intro here
    cases pc <;> first | trivial | exact absurd (if_pos here) idle
  | _ => trivial

theorem Frame.Exact.of_slot {f : Frame} (elsewhere : f.slot ≠ some k) : f.Exact x k queue r := by
  apply Frame.Exact.of_free
  exact fun holds => elsewhere (Frame.slot_of_holds holds)

theorem sendPost_exact {session : Handle} {pc : SendPc} (ran : sendPost s session pc input = some (s', left))
    (exact : pc.Exact (s.slots session.slot) queue)
    (empty : (Frame.sendPost session pc).holds session.slot → r = 0)
    (knows : pc.Knows (s.slots session.slot) id)
    (ring : (s.slots session.slot).m_sendRingBuff = pointers queue)
    (free : (s.slots session.slot).m_isSendPending = false → r = 0) :
    ∀ f ∈ left, f.Exact (s'.slots session.slot) session.slot queue r := by
  cases pc with
  | exchange =>
    simp only [sendPost] at ran
    split_ifs at ran with available <;> cases ran
    · have zero := free available
      simp [Frame.Exact, SendPc.Exact, zero]
    · simp
  | closing =>
    simp only [sendPost] at ran
    have zero := empty (by simp [Frame.holds])
    split_ifs at ran <;> cases ran <;> simp [Frame.Exact, SendPc.Exact, zero]
  | release | backOut | failed | failedRelease | report =>
    cases ran
    simp_all [Frame.Exact, SendPc.Exact, Frame.holds]
  | size | store n | storeCap =>
    cases ran
    have zero := empty (by simp [Frame.holds])
    simp [Frame.Exact, SendPc.Exact, zero]
  | cap =>
    simp only [sendPost] at ran
    have zero := empty (by simp [Frame.holds])
    split_ifs at ran with many <;> cases ran
    · simp [Frame.Exact, SendPc.Exact, zero]
    · have few := Nat.le_of_not_lt many
      simp [Frame.Exact, SendPc.Exact, zero, few]
  | checkSize | count =>
    cases ran
    have zero := empty (by simp [Frame.holds])
    simpa [Frame.Exact, SendPc.Exact, zero] using exact
  | check size =>
    simp only [sendPost] at ran
    have zero := empty (by simp [Frame.holds])
    split_ifs at ran <;> cases ran <;> simpa [Frame.Exact, SendPc.Exact, zero] using exact
  | peek n =>
    cases ran
    have zero := empty (by simp [Frame.holds])
    have filled : (s.slots session.slot).m_isClosing ∨
        Front (s.slots session.slot) queue (peek (s.slots session.slot).m_sendRingBuff n input) := by
      apply knows.imp_right
      rintro ⟨same, covers⟩
      rw [Covers, ring, length_pointers] at covers
      have enough : n ≤ queue.length := Nat.le_of_mul_le_mul_left covers (by decide)
      rw [ring, peek_pointers enough]
      exact ⟨by simpa [same] using enough, exact.2, (List.take_prefix _ _).map some⟩
    simpa [Frame.Exact, SendPc.Exact, zero] using filled
  | fill c wsabuf =>
    simp only [sendPost] at ran
    have zero := empty (by simp [Frame.holds])
    rcases exact with closing | ⟨front, read⟩
    · split_ifs at ran
      · split at ran <;> cases ran <;> simp [Frame.Exact, SendPc.Exact, closing, zero]
      · cases ran
        simp [Frame.Exact, SendPc.Exact, closing, zero]
    · split_ifs at ran with more
      · have inside : wsabuf.length < c.length := front.1 ▸ more
        rw [List.getElem?_eq_getElem inside] at ran
        cases ran
        have longer : wsabuf ++ [(c)[wsabuf.length]] <+: c := by
          have next := List.take_succ_eq_append_getElem inside
          rw [← List.prefix_iff_eq_take.mp read] at next
          rw [← next]
          exact List.take_prefix ..
        simp [Frame.Exact, SendPc.Exact, front, longer, zero]
      · cases ran
        have whole : wsabuf = c := read.eq_of_length_le (front.1 ▸ Nat.le_of_not_lt more)
        subst whole
        simp [Frame.Exact, SendPc.Exact, front, zero]
  | increment wsabuf =>
    cases ran
    have zero := empty (by simp [Frame.holds])
    simpa [Frame.Exact, SendPc.Exact, Front, zero] using exact
  | recheck wsabuf =>
    simp only [sendPost] at ran
    have zero := empty (by simp [Frame.holds])
    split_ifs at ran with closing <;> cases ran
    · simp [Frame.Exact, SendPc.Exact, zero]
    · have front := exact.resolve_left closing
      simpa [Frame.Exact, SendPc.Exact, zero] using front
  | socket wsabuf =>
    cases ran
    have zero := empty (by simp [Frame.holds])
    simpa [Frame.Exact, SendPc.Exact, zero] using exact
  | buffers wsabuf sock =>
    have zero := empty (by simp [Frame.holds])
    have length := exact.1
    simp only [sendPost, if_pos (Nat.le_of_eq length.symm), List.take_of_length_le (Nat.le_of_eq length)] at ran
    cases ran
    simpa [Frame.Exact, SendPc.Exact, zero] using exact
  | call wsabuf sock =>
    have zero := empty (by simp [Frame.holds])
    cases input <;> cases ran <;> simp [Frame.Exact, SendPc.Exact, zero]

theorem worker_exact {client : Handle} {pc : WorkerPc} (ran : worker s client pc input = some (s', left))
    (exact : pc.Exact (s.slots client.slot) r) (stays : ¬ (Frame.worker client pc).takes client.slot) :
    ∀ f ∈ left, f.Exact (s'.slots client.slot) client.slot queue r := by
  cases pc with
  | peerClosed | decrement | peerGone | poll | rejected | sentDone =>
    cases ran
    simp [Frame.Exact, WorkerPc.Exact]
  | received => cases input <;> cases ran <;> simp [Frame.Exact, WorkerPc.Exact]
  | sent i =>
    simp only [worker] at ran
    split_ifs at ran with more <;> cases ran
    · simpa [Frame.Exact, WorkerPc.Exact] using exact
    · have none : r = 0 := exact.trans (Nat.sub_eq_zero_of_le (Nat.le_of_not_lt more))
      simpa [Frame.Exact, WorkerPc.Exact] using none
  | sentSize i =>
    simp only [worker] at ran
    split_ifs at ran <;> cases ran <;> simpa [Frame.Exact, WorkerPc.Exact] using exact
  | sentTake i => exact absurd (by simp [Frame.takes]) stays
  | more | idle =>
    simp only [worker] at ran
    split_ifs at ran <;> cases ran <;> simp [Frame.Exact, SendPc.Exact, WorkerPc.Exact, Frame.holds]

/-- A frame that holds `m_isSendPending` is left by one that does, by an exchange or by a completion. -/
theorem left_holds {frame f : Frame} (ran : exec s frame input = some (s', left)) (member : f ∈ left)
    (holds : f.holds k) : (∃ session pc, frame = .sendPost session pc ∧ session.slot = k) ∨
      (∃ client pc, frame = .worker client pc ∧ client.slot = k) ∨ frame = .getStatus := by
  have leaves := (exec_spec ran).2 f member
  have here := Frame.slot_of_holds holds
  cases f with
  | sendPost client pc =>
    rcases exec_sendPost ran member with ⟨last, rfl⟩ | rfl
    · exact .inl ⟨client, last, rfl, Option.some.inj here⟩
    · simp [Frame.holds] at holds
  | worker client pc =>
    rcases leaves with same | ⟨rfl, -⟩
    · cases frame with
      | worker session last =>
        cases same
        exact .inr (.inl ⟨client, last, rfl, Option.some.inj here⟩)
      | recvPost session last =>
        cases last with
        | closing | recheck =>
          simp only [exec, recvPost] at ran
          split_ifs at ran <;> cases ran <;> simp at member
        | call socket => cases input <;> cases ran <;> simp at member
        | _ =>
          cases ran
          simp at member
      | sendPost session last => exact .inl ⟨session, last, rfl, by cases same; exact Option.some.inj here⟩
      | sendPacket session packet last =>
        cases last with
        | enqueue =>
          cases ran
          simp at member
        | free | pending =>
          simp only [exec, sendPacket] at ran
          split_ifs at ran <;> cases ran <;> simp at member
      | accepting session sock last => cases last <;> cases ran <;> simp at member
      | removeSession session cause last =>
        cases last with
        | closing | ioCount | swap | drain | rest =>
          simp only [exec, removeSession] at ran
          split_ifs at ran <;> cases ran <;> simp at member
        | _ =>
          cases ran
          simp at member
      | _ => cases same
    · exact .inr (.inr rfl)
  | _ => cases holds

/-- What the frames that a step leaves have read of slot `k`, unless it dequeues. -/
theorem exec_exact {frame : Frame} (ran : exec s frame input = some (s', left))
    (exact : frame.Exact (s.slots k) k queue r) (knows : frame.Knows (s.slots k) k id)
    (stays : ∀ client i, frame = .worker client (.sentTake i) → client.slot ≠ k)
    (ring : (s.slots k).m_sendRingBuff = pointers queue)
    (free : (s.slots k).m_isSendPending = false → r = 0)
    (flying : ∀ io ∈ s.inFlight, io.sends k → r = (s.slots k).m_sendPacketCount) :
    ∀ f ∈ left, f.Exact (s'.slots k) k queue r := by
  intro f member
  by_cases holds : f.holds k
  · rcases left_holds ran member holds with ⟨session, pc, rfl, rfl⟩ | ⟨client, pc, rfl, rfl⟩ | rfl
    · exact sendPost_exact ran (exact rfl).1 (exact rfl).2 (knows rfl) ring free f member
    · refine worker_exact ran (exact rfl) (fun takes => ?_) f member
      cases pc with
      | sentTake i => exact stays client i rfl rfl
      | _ => simp [Frame.takes] at takes
    · cases input with
      | complete index cbTransferred =>
        obtain ⟨io, found, completed⟩ := Option.map_eq_some_iff.mp ran
        have count := flying io (List.mem_of_getElem? found)
        split_ifs at completed
        · cases completed
          rw [List.mem_singleton] at member
          subst member
          exact fun _ => trivial
        · split at completed <;> rename_i type <;> cases completed <;> rw [List.mem_singleton] at member <;>
            subst member
          · exact fun _ => trivial
          · exact fun here => count (by simp [Io.sends, type, here])
      | _ => cases ran
  · exact .of_free holds

/-- Traffic of a session is enqueued or posted by a thread with a pointer to its slot. -/
theorem traffic_spec {frame : Frame} (ran : exec s frame input = some (s', left))
    (silent : ∀ session packet, frame = .sendPacket session packet .enqueue → session.slot ≠ k)
    (quiet : ∀ session batch sock, frame = .sendPost session (.call batch sock) → session.slot = k → s'.log = s.log) :
    traffic k id s'.log = traffic k id s.log := by
  rcases (exec_spec ran).1.log with same | ⟨event, records, grown⟩
  · rw [same]
  · rw [grown]
    apply traffic_cons_of_not
    cases event with
    | enqueued slot owner packet =>
      obtain ⟨-, session, rfl, rfl⟩ := records
      have elsewhere := silent session packet rfl
      simp [Event.isTraffic, elsewhere]
    | posted slot owner sock batch =>
      obtain ⟨-, session, rfl, rfl⟩ := records
      by_cases here : session.slot = k
      · have same := quiet session batch sock rfl here
        rw [grown] at same
        exact absurd (congrArg List.length same) (by simp)
      · simp [Event.isTraffic, here]
    | _ => rfl

/-- The step moves a packet into the ring of slot `k` or out of it. -/
def Frame.shifts (k : ℕ) : Frame → Bool
  | .sendPacket session _ .enqueue => session.slot = k
  | .worker client (.sentTake _) => client.slot = k
  | .removeSession session _ .take => session.slot = k
  | _ => false

/-- What any other step may do to a session. -/
structure Steady (frame : Frame) (k r : ℕ) (x y : Session) : Prop where
  ring : y.m_sendRingBuff = x.m_sendRingBuff
  closing : x.m_isClosing → y.m_isClosing
  torn : y.m_isTornDown = false → x.m_isTornDown = false
  free : y.m_isSendPending = false → r = 0
  count : y.m_sendPacketCount = x.m_sendPacketCount ∨ frame.holds k

theorem exec_steady {frame : Frame} (ran : exec s frame input = some (s', left)) (later : ¬ frame.prepares k)
    (joined : ∀ session sock pc, frame = .accepting session sock pc → session.slot = k → 8 ≤ pc.stage)
    (stays : ¬ frame.shifts k) (exact : frame.Exact (s.slots k) k queue r)
    (free : (s.slots k).m_isSendPending = false → r = 0) : Steady frame k r (s.slots k) (s'.slots k) := by
  by_cases own : frame.slot = some k
  · have writes := exec_writes ran own
    generalize s.slots k = x at writes exact free ⊢
    generalize s'.slots k = y at writes ⊢
    cases writes with
    | issue slot socket => exact absurd (by simpa [Frame.prepares] using Option.some.inj own) later
    | prepare client socket pc _ _ early =>
      exact absurd (decide_eq_true ⟨Option.some.inj own, early⟩) later
    | ring client socket => exact absurd (joined _ _ _ rfl (Option.some.inj own)) (by decide)
    | enqueue session packet | sentTake client i | take session cause =>
      exact absurd (decide_eq_true (Option.some.inj own)) stays
    | exchange session => exact ⟨rfl, id, id, fun clear => Bool.noConfusion clear, .inl rfl⟩
    | release session | failedRelease session =>
      have here := Option.some.inj own
      exact ⟨rfl, id, id, fun _ => (exact here).2 (by simpa [Frame.holds] using here), .inl rfl⟩
    | sentDone client => exact ⟨rfl, id, id, fun _ => exact (Option.some.inj own), .inl rfl⟩
    | store session n | storeCap session =>
      exact ⟨rfl, id, id, free, .inr (by simpa [Frame.holds] using Option.some.inj own)⟩
    | mark session cause => exact ⟨rfl, fun _ => rfl, id, free, .inl rfl⟩
    | swap session cause => exact ⟨rfl, id, fun standing => Bool.noConfusion standing, free, .inl rfl⟩
    | _ => exact ⟨rfl, id, id, free, .inl rfl⟩
  · rw [(exec_spec ran).1.slots k own]
    exact ⟨rfl, id, id, free, .inl rfl⟩

end Specs

section Runs

variable {m next : Machine} {label : ℕ × Input} {k : ℕ} {id : ℤ} {socket before r : ℕ}
  {gone queue : List Packet} {frame : Frame} {left others : List Frame}

/-- A step that moves no packet. -/
theorem Pipeline.stay (pipeline : Pipeline m k id gone queue r) (life : Lifetime m k id socket before)
    (sends : Sends m k id) (frames : m.frames.Perm (frame :: others))
    (frames' : next.frames.Perm (left ++ others))
    (ran : exec m.shared frame label.2 = some (next.shared, left)) (stays : ¬ frame.shifts k)
    (quiet : ∀ session batch sock, frame = .sendPost session (.call batch sock) → session.slot = k →
      next.shared.log = m.shared.log ∧ next.shared.inFlight = m.shared.inFlight) :
    Pipeline next k id gone queue r := by
  have here : frame ∈ m.frames := frames.mem_iff.mpr List.mem_cons_self
  have joined (session : Handle) (sock : ℕ) (pc : AcceptPc) (same : frame = .accepting session sock pc)
      (own : session.slot = k) : 8 ≤ pc.stage := life.joined session sock pc (same ▸ here) own
  have steady := exec_steady ran (life.alive.later frame here) joined stays (pipeline.threads frame here)
    pipeline.free
  have same : traffic k id next.shared.log = traffic k id m.shared.log := by
    refine traffic_spec ran ?_ fun session batch sock call own => (quiet session batch sock call own).1
    rintro session packet rfl own
    exact stays (by simpa [Frame.shifts] using own)
  have old (io : Io) (member : io ∈ next.shared.inFlight) (posted : io.sends k) : io ∈ m.shared.inFlight := by
    rcases (exec_spec ran).1.inFlight io member with old | posts
    · exact old
    · cases frame with
      | recvPost session pc =>
        cases pc <;> cases posts
        simp [Io.sends] at posted
      | sendPost session pc =>
        cases pc <;> cases posts
        rw [(quiet session _ _ rfl (by simpa [Io.sends] using posted)).2] at member
        exact member
      | _ => cases posts
  refine ⟨steady.ring.trans pipeline.ring, ?_, ?_, ?_, steady.free, ?_, ?_⟩
  · rw [enqueuedOn, same]
    exact pipeline.enqueued
  · rw [postedOn, same]
    exact pipeline.ordered
  · intro torn
    rw [postedOn, same]
    exact pipeline.posted (steady.torn torn)
  · intro f member
    rcases List.mem_append.mp (frames'.mem_iff.mp member) with member | member
    · refine exec_exact ran (pipeline.threads frame here) (sends.threads frame here) ?_ pipeline.ring
        pipeline.free (fun io flies posted => (pipeline.flying io flies posted).1) f member
      rintro client i rfl own
      exact stays (by simpa [Frame.shifts] using own)
    · rcases steady.count with count | holds
      · exact (pipeline.threads f (frames.mem_iff.mpr (List.mem_cons_of_mem _ member))).mono count steady.closing
          List.prefix_rfl
      · exact .of_free ((sends.alone frames holds).1 f member)
  · intro io member posted
    rcases steady.count with count | holds
    · obtain ⟨all, batch, last, front⟩ := pipeline.flying io (old io member posted) posted
      rw [count, lastPosted, same]
      exact ⟨all, batch, last, front.mono count List.prefix_rfl⟩
    · exact absurd posted ((sends.alone frames holds).2 io (old io member posted))

/-- `sendPacket` puts a packet behind the others. -/
theorem Pipeline.enqueue (pipeline : Pipeline m k id gone queue r) (life : Lifetime m k id socket before)
    {session : Handle} {packet : Packet} (here : session.slot = k)
    (frames : m.frames.Perm (.sendPacket session packet .enqueue :: others))
    (frames' : next.frames.Perm (left ++ others))
    (ran : exec m.shared (.sendPacket session packet .enqueue) label.2 = some (next.shared, left))
    (room : pointerSize ≤ capacity - (m.shared.slots k).m_sendRingBuff.length) :
    Pipeline next k id gone (queue ++ [packet]) r := by
  subst here
  obtain ⟨shared, rfl⟩ := Prod.mk.inj (Option.some.inj ran)
  have log : next.shared.log = .enqueued session.slot id packet :: m.shared.log := by
    rw [← shared, record_log, modify_log, life.owner]
  have slots : next.shared.slots session.slot = { m.shared.slots session.slot with
      m_sendRingBuff := pointers (queue ++ [packet]) } := by
    rw [pipeline.ring] at room
    rw [← shared, record_slots, modify_slots_self, pipeline.ring, enqueue_pointers room]
  have flights : next.shared.inFlight = m.shared.inFlight := by rw [← shared]; rfl
  refine ⟨by rw [slots], ?_, ?_, ?_, ?_, ?_, ?_⟩
  · rw [log, enqueuedOn_enqueued, pipeline.enqueued, List.append_assoc]
  · rw [log, postedOn_enqueued, ← List.append_assoc, List.map_append]
    exact pipeline.ordered.trans (List.prefix_append ..)
  · rw [slots, log, postedOn_enqueued]
    intro torn
    obtain ⟨within, posted⟩ := pipeline.posted torn
    rw [List.take_append_of_le_length within, List.length_append]
    exact ⟨Nat.le_add_right_of_le within, posted⟩
  · rw [slots]
    exact pipeline.free
  · intro f member
    rcases List.mem_append.mp (frames'.mem_iff.mp member) with member | member
    · rw [List.mem_singleton] at member
      subst member
      trivial
    · rw [slots]
      exact (pipeline.threads f (frames.mem_iff.mpr (List.mem_cons_of_mem _ member))).mono rfl (fun closing => closing)
        (List.prefix_append ..)
  · intro io member posted
    rw [flights] at member
    obtain ⟨all, batch, last, front⟩ := pipeline.flying io member posted
    rw [log, slots, lastPosted_enqueued]
    exact ⟨all, batch, last, front.mono rfl (List.prefix_append ..)⟩

theorem exists_cons_of_covers {x : Session} {n : ℕ} (covers : Covers x n) (ring : x.m_sendRingBuff = pointers queue)
    (some : 0 < n) : ∃ packet rest, queue = packet :: rest := by
  rw [Covers, ring, length_pointers] at covers
  have length : n ≤ queue.length := Nat.le_of_mul_le_mul_left covers (by decide)
  exact List.exists_cons_of_length_pos (Nat.lt_of_lt_of_le some length)

/-- A completion dequeues and deletes a posted packet. -/
theorem Pipeline.sentTake (pipeline : Pipeline m k id gone queue r) (life : Lifetime m k id socket before)
    (sends : Sends m k id) {client : Handle} {i : ℕ} (here : client.slot = k)
    (frames : m.frames.Perm (.worker client (.sentTake i) :: others))
    (frames' : next.frames.Perm (left ++ others))
    (ran : exec m.shared (.worker client (.sentTake i)) label.2 = some (next.shared, left)) :
    ∃ packet rest, queue = packet :: rest ∧ next.shared.log = .deleted packet :: m.shared.log ∧
      Pipeline next k id (gone ++ [packet]) rest (r - 1) := by
  subst here
  have member : .worker client (.sentTake i) ∈ m.frames := frames.mem_iff.mpr List.mem_cons_self
  obtain ⟨more, covers⟩ := sends.threads _ member rfl
  have count : r = (m.shared.slots client.slot).m_sendPacketCount - i := pipeline.threads _ member rfl
  obtain ⟨packet, rest, rfl⟩ := exists_cons_of_covers covers pipeline.ring (Nat.sub_pos_of_lt more)
  have holds : (Frame.worker client (.sentTake i)).holds client.slot := by simp [Frame.holds]
  obtain ⟨alone, landed⟩ := sends.alone frames holds
  have torn : (m.shared.slots client.slot).m_isTornDown = false := by
    refine Bool.eq_false_iff.mpr fun torn => (life.alive.sealed torn).2 _ member ?_
    exact if_pos rfl
  simp only [exec, worker, pipeline.ring, dequeue_pointers] at ran
  obtain ⟨shared, rfl⟩ := Prod.mk.inj (Option.some.inj ran)
  have log : next.shared.log = .deleted packet :: m.shared.log := by rw [← shared]; rfl
  have same : traffic client.slot id next.shared.log = traffic client.slot id m.shared.log := by
    rw [log]
    exact traffic_cons_of_not rfl
  have slots : next.shared.slots client.slot = { m.shared.slots client.slot with
      m_sendRingBuff := pointers rest } := by
    rw [← shared, delete_slots, modify_slots_self]
  have flights : next.shared.inFlight = m.shared.inFlight := by rw [← shared]; rfl
  obtain ⟨within, posted⟩ := pipeline.posted torn
  have taken : r = r - 1 + 1 := by omega
  refine ⟨packet, rest, rfl, log, by rw [slots], ?_, ?_, ?_, ?_, ?_, ?_⟩
  · rw [enqueuedOn, same, List.append_assoc]
    exact pipeline.enqueued
  · rw [postedOn, same, List.append_assoc]
    exact pipeline.ordered
  · intro _
    rw [taken, List.take_succ_cons] at posted
    rw [postedOn, same, List.append_assoc]
    exact ⟨by simp at within; omega, posted⟩
  · rw [slots]
    intro free
    rw [sends.pending_of_holds member holds] at free
    cases free
  · intro f member
    rcases List.mem_append.mp (frames'.mem_iff.mp member) with member | member
    · rw [List.mem_singleton] at member
      subst member
      intro _
      rw [slots]
      change r - 1 = (m.shared.slots client.slot).m_sendPacketCount - (i + 1)
      omega
    · exact .of_free (alone f member)
  · intro io member posted
    rw [flights] at member
    exact absurd posted (landed io member)

/-- The tear-down dequeues and deletes a packet. -/
theorem Pipeline.take (pipeline : Pipeline m k id gone queue r) (life : Lifetime m k id socket before)
    (sends : Sends m k id) {session : Handle} {cause : ℤ} (here : session.slot = k)
    (frames : m.frames.Perm (.removeSession session cause .take :: others))
    (frames' : next.frames.Perm (left ++ others))
    (ran : exec m.shared (.removeSession session cause .take) label.2 = some (next.shared, left)) :
    ∃ packet rest, queue = packet :: rest ∧ next.shared.log = .deleted packet :: m.shared.log ∧
      Pipeline next k id (gone ++ [packet]) rest r := by
  subst here
  have member : .removeSession session cause .take ∈ m.frames := frames.mem_iff.mpr List.mem_cons_self
  have covers := sends.threads _ member rfl rfl
  obtain ⟨packet, rest, rfl⟩ := exists_cons_of_covers covers pipeline.ring Nat.one_pos
  have torn : (m.shared.slots session.slot).m_isTornDown :=
    life.alive.torn_of_tearing member (if_pos rfl)
  obtain ⟨landed, idle⟩ := life.alive.sealed torn
  simp only [exec, removeSession, pipeline.ring, dequeue_pointers] at ran
  obtain ⟨shared, rfl⟩ := Prod.mk.inj (Option.some.inj ran)
  have log : next.shared.log = .deleted packet :: m.shared.log := by rw [← shared]; rfl
  have same : traffic session.slot id next.shared.log = traffic session.slot id m.shared.log := by
    rw [log]
    exact traffic_cons_of_not rfl
  have slots : next.shared.slots session.slot = { m.shared.slots session.slot with
      m_sendRingBuff := pointers rest } := by
    rw [← shared, delete_slots, modify_slots_self]
  have flights : next.shared.inFlight = m.shared.inFlight := by rw [← shared]; rfl
  refine ⟨packet, rest, rfl, log, by rw [slots], ?_, ?_, ?_, ?_, ?_, ?_⟩
  · rw [enqueuedOn, same, List.append_assoc]
    exact pipeline.enqueued
  · rw [postedOn, same, List.append_assoc]
    exact pipeline.ordered
  · rw [slots]
    intro standing
    rw [torn] at standing
    cases standing
  · rw [slots]
    exact pipeline.free
  · intro f member
    rcases List.mem_append.mp (frames'.mem_iff.mp member) with member | member
    · rw [List.mem_singleton] at member
      subst member
      trivial
    · have there : f ∈ m.frames := frames.mem_iff.mpr (List.mem_cons_of_mem _ member)
      rw [slots]
      exact (pipeline.threads f there).of_closing rfl (life.alive.sound.closed (.inl torn)) (idle f there)
  · intro io member posted
    rw [flights] at member
    exact absurd (Io.slot_of_sends posted) (landed io member)

/-- `WSASend` posts the front of the ring. -/
theorem Pipeline.post (pipeline : Pipeline m k id gone queue 0) (life : Lifetime m k id socket before)
    (sends : Sends m k id) {session : Handle} {batch : List (Option Packet)} {sock : ℕ} (here : session.slot = k)
    (frames : m.frames.Perm (.sendPost session (.call batch sock) :: others))
    (frames' : next.frames.Perm others)
    (shared : next.shared = ({ m.shared with inFlight := ⟨session, .send⟩ :: m.shared.inFlight } : CLockFreeCore).record
      (.posted session.slot (m.shared.slots session.slot).m_sessionId sock batch)) :
    Pipeline next k id gone queue (m.shared.slots k).m_sendPacketCount := by
  subst here
  have member : .sendPost session (.call batch sock) ∈ m.frames := frames.mem_iff.mpr List.mem_cons_self
  have front : Front (m.shared.slots session.slot) queue batch := (pipeline.threads _ member rfl).1
  have holds : (Frame.sendPost session (.call batch sock)).holds session.slot := by simp [Frame.holds]
  obtain ⟨alone, landed⟩ := sends.alone frames holds
  have torn : (m.shared.slots session.slot).m_isTornDown = false := by
    refine Bool.eq_false_iff.mpr fun torn => (life.alive.sealed torn).2 _ member ?_
    exact if_pos rfl
  have log : next.shared.log = .posted session.slot id sock batch :: m.shared.log := by
    rw [shared, record_log, life.owner]
  have slots : next.shared.slots = m.shared.slots := by rw [shared]; rfl
  have whole : batch = (queue.take (m.shared.slots session.slot).m_sendPacketCount).map some := by
    rw [← front.1, List.map_take]
    exact List.prefix_iff_eq_take.mp front.2.2
  obtain ⟨-, posted⟩ := pipeline.posted torn
  rw [List.take_zero, List.append_nil] at posted
  have grown : postedOn session.slot id next.shared.log =
      (gone ++ queue.take (m.shared.slots session.slot).m_sendPacketCount).map some := by
    rw [log, postedOn_posted, posted, whole, List.map_append]
  refine ⟨by rw [slots]; exact pipeline.ring, ?_, ?_, fun _ => ⟨?_, grown⟩, ?_, ?_, ?_⟩
  · rw [log, enqueuedOn_posted]
    exact pipeline.enqueued
  · rw [grown]
    exact ((List.prefix_append_right_inj gone).mpr (List.take_prefix _ _)).map some
  · have length := front.2.2.length_le
    rwa [front.1, List.length_map] at length
  · rw [slots]
    intro free
    rw [sends.pending_of_holds member holds] at free
    cases free
  · exact fun f member => .of_free (alone f (frames'.mem_iff.mp member))
  · intro io member posted
    rw [slots, log, lastPosted_posted]
    exact ⟨rfl, batch, rfl, front⟩

end Runs

end LockFreeCore.CLockFreeCore
