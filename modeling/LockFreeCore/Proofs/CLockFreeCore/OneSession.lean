import LockFreeCore.Proofs.CLockFreeCore.Packets

/-! # The posts of one session

The run of a single session begins when it is put into the session table and lasts until its slot is
popped again. In it a post carries at least one packet, unless its count finds the ring empty: the
test of `m_isSendPending` that leads to a post and the exchange in it are two accesses, and what was
enqueued may have been sent in between.
-/

namespace LockFreeCore.CLockFreeCore

open Replay

/-- Every `sendPacket` has looked up the addressee of its own packet. -/
def Found (m : Machine) : Prop :=
  ∀ session packet pc, .sendPacket session packet pc ∈ m.frames → session.id = packet.addressee

/-- The thread is about to read the `getUseSize()` that it sets `m_sendPacketCount` from. -/
def Frame.counts (k : ℕ) : Frame → Bool
  | .sendPost session pc => session.slot = k && pc = .size
  | _ => false

/-- A post counts the packets in the ring of slot `k` while there are none. -/
def FindsEmpty (m : Machine) (label : ℕ × Input) (k : ℕ) : Prop :=
  (m.top label.1).any (·.counts k) ∧ (m.shared.slots k).m_isClosing = false ∧
    (m.shared.slots k).m_sendRingBuff.length < pointerSize

instance (m : Machine) (label : ℕ × Input) (k : ℕ) : Decidable (FindsEmpty m label k) :=
  inferInstanceAs (Decidable (_ ∧ _))

/-- A post has counted at least one packet; up to the second look at `m_isClosing` it may have found
none in a closing session. -/
def SendPc.Counted (session : Session) : SendPc → Prop
  | .store n => session.m_isClosing ∨ 0 < n
  | .cap | .storeCap | .checkSize | .check _ | .count | .peek _ | .fill .. | .increment _ | .recheck _ =>
    session.m_isClosing ∨ 0 < session.m_sendPacketCount
  | .socket _ | .buffers .. | .call .. => 0 < session.m_sendPacketCount
  | _ => True

def Frame.Counted (session : Session) (k : ℕ) : Frame → Prop
  | .sendPost client pc => client.slot = k → pc.Counted session
  | _ => True

section Specs

variable {s s' : CLockFreeCore} {k : ℕ} {left : List Frame} {input : Input} {x y : Session}

theorem SendPc.Counted.drift {frame : Frame} {pc : SendPc} (counted : pc.Counted x) (drift : Drift frame x y) :
    pc.Counted y := by
  cases pc with
  | store n => exact counted.imp_left drift.closing
  | cap | storeCap | checkSize | check size | count | peek n | fill c wsabuf | increment wsabuf
    | recheck wsabuf =>
    refine counted.imp drift.closing fun some => ?_
    rwa [drift.count]
  | socket wsabuf | buffers wsabuf sock | call wsabuf sock =>
    simp only [SendPc.Counted, drift.count]
    exact counted
  | _ => trivial

theorem Frame.Counted.of_free {f : Frame} (free : ¬ f.holds k) : f.Counted x k := by
  cases f with
  | sendPost client pc =>
    intro here
    cases pc <;> first | trivial | exact absurd (by simp [Frame.holds, here]) free
  | _ => trivial

theorem sendPost_counted {session : Handle} {pc : SendPc} (ran : sendPost s session pc input = some (s', left))
    (counted : pc.Counted (s.slots session.slot))
    (nonempty : pc = .size → (s.slots session.slot).m_isClosing ∨
      pointerSize ≤ (s.slots session.slot).m_sendRingBuff.length) :
    ∀ f ∈ left, f.Counted (s'.slots session.slot) session.slot := by
  cases pc with
  | exchange | closing =>
    simp only [sendPost] at ran
    split_ifs at ran <;> cases ran <;> simp [Frame.Counted, SendPc.Counted]
  | release | backOut | failed | failedRelease | report =>
    cases ran
    simp [Frame.Counted, SendPc.Counted]
  | size =>
    cases ran
    have some := (nonempty rfl).imp_right fun enough => Nat.div_pos enough (by decide : 0 < pointerSize)
    simpa [Frame.Counted, SendPc.Counted] using some
  | store n =>
    cases ran
    simpa [Frame.Counted, SendPc.Counted] using counted
  | storeCap =>
    cases ran
    simp [Frame.Counted, SendPc.Counted]
  | cap | check size =>
    simp only [sendPost] at ran
    split_ifs at ran <;> cases ran <;> simpa [Frame.Counted, SendPc.Counted] using counted
  | checkSize | count | peek n | increment wsabuf | socket wsabuf =>
    cases ran
    simpa [Frame.Counted, SendPc.Counted] using counted
  | fill c wsabuf =>
    simp only [sendPost] at ran
    split_ifs at ran
    · split at ran <;> cases ran <;> simpa [Frame.Counted, SendPc.Counted] using counted
    · cases ran
      simpa [Frame.Counted, SendPc.Counted] using counted
  | recheck wsabuf =>
    simp only [sendPost] at ran
    split_ifs at ran with closing <;> cases ran
    · simp [Frame.Counted, SendPc.Counted]
    · have some := counted.resolve_left closing
      simpa [Frame.Counted, SendPc.Counted] using some
  | buffers wsabuf sock =>
    simp only [sendPost] at ran
    split_ifs at ran
    · cases ran
      simpa [Frame.Counted, SendPc.Counted] using counted
    · split at ran <;> cases ran <;> simpa [Frame.Counted, SendPc.Counted] using counted
  | call wsabuf sock => cases input <;> cases ran <;> simp [Frame.Counted, SendPc.Counted]

/-- A post begins with its exchange. -/
theorem exec_sendPost {frame : Frame} {client : Handle} {pc : SendPc}
    (ran : exec s frame input = some (s', left)) (member : .sendPost client pc ∈ left) :
    (∃ last, frame = .sendPost client last) ∨ pc = .exchange := by
  have same : frame.handle = some client := (exec_spec ran).2 _ member
  cases frame with
  | sendPost session last =>
    cases same
    exact .inl ⟨last, rfl⟩
  | worker session last =>
    cases last with
    | more | idle | sent i | sentSize i =>
      simp only [exec, worker] at ran
      split_ifs at ran <;> cases ran <;> simp_all
    | received => cases input <;> cases ran <;> simp at member
    | _ =>
      cases ran
      simp at member
  | sendPacket session packet last =>
    cases last with
    | free | pending =>
      simp only [exec, sendPacket] at ran
      split_ifs at ran <;> cases ran <;> simp_all
    | enqueue =>
      cases ran
      simp at member
  | recvPost session last =>
    cases last with
    | closing | recheck =>
      simp only [exec, recvPost] at ran
      split_ifs at ran <;> cases ran <;> simp at member
    | call socket => cases input <;> cases ran <;> simp at member
    | _ =>
      cases ran
      simp at member
  | accepting session sock last => cases last <;> cases ran <;> simp at member
  | removeSession session cause last =>
    cases last with
    | closing | ioCount | swap | drain | rest =>
      simp only [exec, removeSession] at ran
      split_ifs at ran <;> cases ran <;> simp at member
    | _ =>
      cases ran
      simp at member
  | _ => cases same

theorem exec_counted {frame : Frame} (ran : exec s frame input = some (s', left))
    (counted : frame.Counted (s.slots k) k)
    (nonempty : frame.counts k → (s.slots k).m_isClosing ∨ pointerSize ≤ (s.slots k).m_sendRingBuff.length) :
    ∀ f ∈ left, f.Counted (s'.slots k) k := by
  intro f member
  cases f with
  | sendPost client pc =>
    rintro rfl
    rcases exec_sendPost ran member with ⟨last, rfl⟩ | rfl
    · refine sendPost_counted ran (counted rfl) ?_ _ member rfl
      rintro rfl
      exact nonempty (by simp [Frame.counts])
    · trivial
  | _ => trivial

end Specs

section Runs

variable {m next : Machine} {label : ℕ × Input} {k : ℕ} {id : ℤ} {socket before : ℕ}

theorem Found.step (found : Found m) (stepped : step m label = some next) : Found next := by
  obtain ⟨frame, left, others, -, ran, frames, frames'⟩ := Stacks.step_frames stepped
  intro session packet pc member
  rcases List.mem_append.mp (frames'.mem_iff.mp member) with member | member
  · rcases (exec_spec ran).2 _ member with ⟨last, rfl⟩ | ⟨-, same, -⟩
    · exact found _ _ _ (frames.mem_iff.mpr List.mem_cons_self)
    · exact same
  · exact found _ _ _ (frames.mem_iff.mpr (List.mem_cons_of_mem _ member))

/-- What holds in the run of the session on slot `k`. -/
structure InSession (m : Machine) (k : ℕ) (id : ℤ) (socket : ℕ) : Prop where
  issued : Issued m
  found : Found m
  life : ∃ before, Lifetime m k id socket before
  sends : Sends m k id

theorem Opened.inSession {slots : ℕ → Session} {sessionMax workerMax apps : ℕ} {first : List (ℕ × Input)}
    (reached : replay step (start slots sessionMax workerMax apps) first = some m)
    (opened : Opened m k id socket) : InSession m k id socket := by
  obtain ⟨issued, found⟩ := invariant_of_step (fun m => Issued m ∧ Found m)
    (fun m label next both stepped => ⟨both.1.step stepped, both.2.step stepped⟩)
    ⟨.start slots sessionMax workerMax apps, by
      intro session packet pc member
      rcases mem_frames_start _ _ _ _ member with same | same | same <;> cases same⟩ reached
  exact ⟨issued, found, ⟨_, opened.lifetime⟩, opened.sends⟩

theorem InSession.step {label : ℕ × Input} {next : Machine} (inside : InSession m k id socket)
    (kept : popped m label ≠ some k) (stepped : CLockFreeCore.step m label = some next) :
    InSession next k id socket := by
  obtain ⟨issued, found, ⟨before, life⟩, sends⟩ := inside
  exact ⟨issued.step stepped, found.step stepped, ⟨before, life.step issued stepped kept⟩,
    sends.step life found stepped⟩

/-- What the steps of a session keep holds in all of its run. -/
theorem Opened.along {slots : ℕ → Session} {sessionMax workerMax apps : ℕ} {first labels : List (ℕ × Input)}
    {target : Machine} {P : Machine → ℕ × Input → Prop} {Q : Machine → Prop}
    (reached : replay step (start slots sessionMax workerMax apps) first = some m)
    (opened : Opened m k id socket)
    (along : Along step (fun m label => popped m label ≠ some k ∧ P m label) m labels)
    (run : replay step m labels = some target) (opens : Q m)
    (keeps : ∀ m label next before, Issued m → Lifetime m k id socket before → Sends m k id → Q m →
      P m label → popped m label ≠ some k → CLockFreeCore.step m label = some next → Q next) :
    (∃ before, Lifetime target k id socket before) ∧ Sends target k id ∧ Q target := by
  obtain ⟨inside, holds⟩ := invariant (fun m => InSession m k id socket ∧ Q m)
    (fun m label next ⟨inside, holds⟩ kept stepped => ⟨inside.step kept.1 stepped, by
      obtain ⟨before, life⟩ := inside.life
      exact keeps m label next before inside.issued life inside.sends holds kept.2 kept.1 stepped⟩)
    ⟨opened.inSession reached, opens⟩ along run
  exact ⟨inside.life, inside.sends, holds⟩

/-- A step leaves what the other threads have counted. -/
theorem Sends.counted (sends : Sends m k id) (life : Lifetime m k id socket before) {frame : Frame}
    {left others : List Frame} {input : Input} {s' : CLockFreeCore}
    (frames : m.frames.Perm (frame :: others)) (ran : exec m.shared frame input = some (s', left))
    (counted : ∀ f ∈ m.frames, f.Counted (m.shared.slots k) k) : ∀ f ∈ others, f.Counted (s'.slots k) k := by
  have here : frame ∈ m.frames := frames.mem_iff.mpr List.mem_cons_self
  intro f member
  have was := counted f (frames.mem_iff.mpr (List.mem_cons_of_mem _ member))
  by_cases takes : frame.takes k
  · by_cases tears : ∃ session cause, frame = .removeSession session cause .take
    · obtain ⟨session, cause, rfl⟩ := tears
      obtain ⟨-, -, -, -, closing, count⟩ := removeSession_takes ran takes (sends.threads _ here)
      cases f with
      | sendPost client pc =>
        intro own
        cases pc <;> simp only [SendPc.Counted, closing, count] <;> exact was own
      | _ => trivial
    · simp only [not_exists] at tears
      exact .of_free ((sends.alone frames (Frame.holds_of_takes takes tears)).1 f member)
  · cases f with
    | sendPost client pc =>
      intro own
      have joined (session : Handle) (sock : ℕ) (pc : AcceptPc) (same : frame = .accepting session sock pc)
          (own : session.slot = k) : 8 ≤ pc.stage := life.joined session sock pc (same ▸ here) own
      exact (was own).drift (exec_drift ran (life.alive.later frame here) joined takes)
    | _ => trivial

/-- In the run of a session every post carries a packet, as long as no post counts the packets in an
empty ring. -/
theorem posts_packets {slots : ℕ → Session} {sessionMax workerMax apps : ℕ} {first labels : List (ℕ × Input)}
    {target : Machine} (reached : replay step (start slots sessionMax workerMax apps) first = some m)
    (opened : Opened m k id socket)
    (counted : Along step (fun m label => popped m label ≠ some k ∧ ¬ FindsEmpty m label k) m labels)
    (run : replay step m labels = some target) :
    ∃ since, target.shared.log = since ++ m.shared.log ∧
      ∀ owner sock batch, .posted k owner sock batch ∈ since → batch ≠ [] := by
  have begins (frame : Frame) (member : frame ∈ m.frames) : frame.Counted (m.shared.slots k) k := by
    cases frame with
    | sendPost client pc =>
      intro here
      cases eq_of_alone opened.alone member (congrArg some here)
    | _ => trivial
  refine (opened.along
    (Q := fun state => (∀ f ∈ state.frames, f.Counted (state.shared.slots k) k) ∧
      ∃ since, state.shared.log = since ++ m.shared.log ∧
        ∀ owner sock batch, .posted k owner sock batch ∈ since → batch ≠ []) reached counted run
    ⟨begins, [], rfl, nofun⟩ ?_).2.2.2
  · rintro state label next before - life sends ⟨threads, since, log, nonempty⟩ filled - stepped
    obtain ⟨frame, left, others, top, ran, frames, frames'⟩ := Stacks.step_frames stepped
    have here : frame ∈ state.frames := frames.mem_iff.mpr List.mem_cons_self
    refine ⟨?_, ?_⟩
    · intro f member
      rcases List.mem_append.mp (frames'.mem_iff.mp member) with member | member
      · refine exec_counted ran (threads frame here) (fun counts => ?_) f member
        by_contra neither
        rw [not_or, Bool.not_eq_true, not_le] at neither
        exact filled ⟨by rw [top]; exact counts, neither⟩
      · exact sends.counted life frames ran threads f member
    · rcases (exec_spec ran).1.log with same | ⟨event, records, grown⟩
      · exact ⟨since, same.trans log, nonempty⟩
      · refine ⟨event :: since, by rw [grown, log]; rfl, ?_⟩
        intro owner sock batch member
        rcases List.mem_cons.mp member with rfl | member
        · obtain ⟨-, session, own, rfl⟩ := records
          obtain ⟨⟨length, -⟩, -⟩ := sends.threads _ here own
          have some : 0 < (state.shared.slots k).m_sendPacketCount := threads _ here own
          rintro rfl
          exact absurd length (Nat.ne_of_lt some)
        · exact nonempty owner sock batch member

end Runs

/-- The first client is accepted, and its session put into the table. -/
def opensFirst : List (ℕ × Input) := acceptsFirst ++ goes 0 2

/-- With two application threads the only slot is opened for the first client. -/
theorem opened_opensFirst :
    Opened ((replay step (start (fun _ => unwritten) 1 1 2) opensFirst).get (by decide)) 0 0 0 := by
  have table : ((replay step (start (fun _ => unwritten) 1 1 2) opensFirst).get (by decide)).shared.m_sessionMap =
      Finmap.insert 0 0 ∅ := by decide
  refine ⟨by decide, by decide, fun x => ?_, by decide, by decide, by decide, by decide, by decide, by decide,
    by decide, by decide, by decide⟩
  rw [table]
  by_cases first : x = 0
  · exact iff_of_true (first ▸ Finmap.lookup_insert _) first
  · simp [first, Finmap.lookup_insert_of_ne]

/-- One thread enqueues a packet and pauses before its exchange; another one enqueues and posts both,
the send completes, and the first one goes on. -/
def sendsNothing : List (ℕ × Input) :=
  (2, .sendPacket ⟨0, 5⟩) :: goes 2 4 ++ (3, .sendPacket ⟨0, 6⟩) :: goes 3 21 ++ (1, .complete 0 16) :: goes 1 9 ++
    goes 2 15

theorem post_without_packet :
    let m := (replay step (start (fun _ => unwritten) 1 1 2) opensFirst).get (by decide)
    let target := (replay step m sendsNothing).get (by decide)
    Opened m 0 0 0 ∧ Along step (fun m label => popped m label ≠ some 0) m sendsNothing ∧
      target.shared.log = [.posted 0 0 0 [], .deleted ⟨0, 6⟩, .deleted ⟨0, 5⟩,
        .posted 0 0 0 [some ⟨0, 5⟩, some ⟨0, 6⟩], .enqueued 0 0 ⟨0, 6⟩, .enqueued 0 0 ⟨0, 5⟩] ++ m.shared.log :=
  ⟨opened_opensFirst, by decide, by decide⟩

/-- One thread sends a packet. -/
def sendsOne : List (ℕ × Input) := (2, .sendPacket ⟨0, 5⟩) :: goes 2 20

/-- A packet is sent, and while its send is in flight another thread leaves a second one in the ring. -/
def sendsBehind : List (ℕ × Input) := sendsOne ++ (3, .sendPacket ⟨0, 6⟩) :: goes 3 4

/-- The first send completes, and the completion posts the second packet itself. -/
def sendsBoth : List (ℕ × Input) := sendsBehind ++ (1, .complete 0 8) :: goes 1 27

theorem posts_packets_sendsBoth :
    let m := (replay step (start (fun _ => unwritten) 1 1 2) opensFirst).get (by decide)
    let target := (replay step m sendsBoth).get (by decide)
    target.shared.log = [.posted 0 0 0 [some ⟨0, 6⟩], .deleted ⟨0, 5⟩, .enqueued 0 0 ⟨0, 6⟩,
        .posted 0 0 0 [some ⟨0, 5⟩], .enqueued 0 0 ⟨0, 5⟩] ++ m.shared.log ∧
      ∃ since, target.shared.log = since ++ m.shared.log ∧
        ∀ owner sock batch, .posted 0 owner sock batch ∈ since → batch ≠ [] :=
  ⟨by decide, posts_packets (Option.some_get _).symm opened_opensFirst (by decide) (Option.some_get _).symm⟩

end LockFreeCore.CLockFreeCore
