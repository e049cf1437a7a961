import LockFreeCore.Proofs.CLockFreeCore.Pipeline

/-! # The order of sends

In a run without interruption the packets of every session are posted in the order in which they
were enqueued, from the front of its ring.
-/

namespace LockFreeCore.CLockFreeCore

open CountedClose Replay

/-- A `sendPacket` that has not enqueued yet: its session is in the table, and once it has looked at
the free size there is room. -/
def Calling (m : Machine) : Prop :=
  ∀ session packet pc, .sendPacket session packet pc ∈ m.frames → pc ≠ .pending →
    m.shared.m_sessionMap.lookup packet.addressee = some session.slot ∧
      (pc = .enqueue → pointerSize ≤ capacity - (m.shared.slots session.slot).m_sendRingBuff.length)

/-- The traffic in the log is that of accepted sessions. -/
def Owned (m : Machine) : Prop :=
  ∀ event ∈ m.shared.log, ∀ k id, event.isTraffic k id → ∃ sock, .accepted id k sock ∈ m.shared.log

/-- Where the packets of slot `k` are. -/
def Piped (m : Machine) (k : ℕ) : Prop :=
  Unused m k ∨
    (∃ frame, Preparing m k frame ∧
      (frame.handle.isSome → traffic k (m.shared.slots k).m_sessionId m.shared.log = [])) ∨
    ∃ id socket before, Lifetime m k id socket before ∧ Sends m k id ∧
      ∃ gone queue r, Pipeline m k id gone queue r

section Runs

variable {m next : Machine} {label : ℕ × Input} {k : ℕ} {id : ℤ} {socket before : ℕ}

theorem Calling.step (calling : Calling m) (uninterrupted : Uninterrupted m label)
    (nested : ∀ stack ∈ m.threads, Nested stack) (stepped : step m label = some next) : Calling next := by
  intro session packet pc member early
  obtain ⟨frame, left, top, ran, member⟩ := uninterrupted.left_of_call nested stepped member rfl
  rcases (exec_spec ran).2 _ member with ⟨last, rfl⟩ | ⟨rfl, same, found⟩
  · cases last with
    | free =>
      obtain ⟨listed, -⟩ := calling session packet .free (Stacks.mem_frames_of_top top) nofun
      simp only [exec, sendPacket] at ran
      split_ifs at ran with room <;> obtain ⟨shared, rfl⟩ := Prod.mk.inj (Option.some.inj ran) <;> rw [← shared]
      · exact ⟨listed, fun _ => room⟩
      · simp at member
    | enqueue =>
      obtain ⟨-, rfl⟩ := Prod.mk.inj (Option.some.inj ran)
      simp [early] at member
    | pending =>
      simp only [exec, sendPacket] at ran
      split_ifs at ran <;> obtain ⟨-, rfl⟩ := Prod.mk.inj (Option.some.inj ran) <;> simp at member
  · rw [same] at found
    simp only [exec, findSend, found] at ran
    obtain ⟨shared, rfl⟩ := Prod.mk.inj (Option.some.inj ran)
    rw [List.mem_singleton] at member
    rw [← shared]
    refine ⟨found, fun enqueue => ?_⟩
    simp [enqueue] at member

/-- A step that records traffic of a session is taken with a pointer to its slot. -/
theorem slot_of_traffic {s : CLockFreeCore} {frame : Frame} {event : Event} (records : Records s frame event)
    (own : event.isTraffic k id) :
    frame.slot = some k ∧ ¬ frame.isAcceptor ∧ id = (s.slots k).m_sessionId := by
  cases event with
  | enqueued slot owner packet | posted slot owner sock batch =>
    obtain ⟨rfl, rfl⟩ : slot = k ∧ owner = id := by simpa [Event.isTraffic] using own
    obtain ⟨same, session, rfl, rfl⟩ := records
    exact ⟨rfl, Bool.false_ne_true, same⟩
  | _ => cases own

/-- Traffic is that of a session during its lifetime. -/
theorem Piped.lifetime (piped : Piped m k) {frame : Frame} (member : frame ∈ m.frames)
    (here : frame.slot = some k) (proper : ¬ frame.isAcceptor) : ∃ id socket before,
      Lifetime m k id socket before ∧ Sends m k id ∧ ∃ gone queue r, Pipeline m k id gone queue r := by
  have phase : Phase (fun m k id => Sends m k id ∧ ∃ gone queue r, Pipeline m k id gone queue r) m k := by
    rcases piped with unused | ⟨last, preparing, -⟩ | life
    · exact .inl unused
    · exact .inr (.inl ⟨last, preparing⟩)
    · exact .inr (.inr life)
  exact phase.lifetime member here proper

theorem Owned.step (owned : Owned m) (piped : ∀ k, Piped m k) (stepped : step m label = some next) :
    Owned next := by
  obtain ⟨frame, left, others, -, ran, frames, -⟩ := Stacks.step_frames stepped
  have changes := (exec_spec ran).1
  intro event member k id own
  have old (earlier : event ∈ m.shared.log) : ∃ sock, .accepted id k sock ∈ next.shared.log := by
    obtain ⟨sock, accepted⟩ := owned event earlier k id own
    exact ⟨sock, changes.mem_log accepted⟩
  rcases changes.log with same | ⟨latest, records, grown⟩
  · exact old (same ▸ member)
  · rw [grown] at member
    rcases List.mem_cons.mp member with rfl | earlier
    · obtain ⟨here, proper, rfl⟩ := slot_of_traffic records own
      obtain ⟨x, socket, before, life, -⟩ := (piped k).lifetime (frames.mem_iff.mpr List.mem_cons_self) here proper
      rw [life.owner]
      exact ⟨socket, changes.mem_log life.accepted⟩
    · exact old earlier

/-- Every step moves the packets of a session along. -/
theorem Pipeline.step {gone queue : List Packet} {r : ℕ} (pipeline : Pipeline m k id gone queue r)
    (life : Lifetime m k id socket before) (sends : Sends m k id) (calling : Calling m)
    (stepped : step m label = some next) : ∃ gone queue r, Pipeline next k id gone queue r := by
  obtain ⟨frame, left, others, -, ran, frames, frames'⟩ := Stacks.step_frames stepped
  have here : frame ∈ m.frames := frames.mem_iff.mpr List.mem_cons_self
  by_cases shifts : frame.shifts k
  · cases frame with
    | sendPacket session packet pc =>
      cases pc with
      | enqueue =>
        obtain rfl : session.slot = k := of_decide_eq_true shifts
        exact ⟨_, _, _, pipeline.enqueue life rfl frames frames' ran ((calling _ _ _ here nofun).2 rfl)⟩
      | _ => cases shifts
    | worker client pc =>
      cases pc with
      | sentTake i =>
        obtain ⟨packet, rest, -, -, moved⟩ := pipeline.sentTake life sends (of_decide_eq_true shifts) frames frames' ran
        exact ⟨_, _, _, moved⟩
      | _ => cases shifts
    | removeSession session cause pc =>
      cases pc with
      | take =>
        obtain ⟨packet, rest, -, -, moved⟩ := pipeline.take life sends (of_decide_eq_true shifts) frames frames' ran
        exact ⟨_, _, _, moved⟩
      | _ => cases shifts
    | _ => cases shifts
  · by_cases posts : ∃ session batch sock, frame = .sendPost session (.call batch sock) ∧ session.slot = k ∧ label.2 ≠ .fail
    · obtain ⟨session, batch, sock, rfl, own, sent⟩ := posts
      have zero : r = 0 := (pipeline.threads _ here own).2 (by simp [Frame.holds, own])
      subst zero
      have posted : sendPost m.shared session (.call batch sock) label.2 =
          some (({ m.shared with inFlight := ⟨session, .send⟩ :: m.shared.inFlight } : CLockFreeCore).record
            (.posted session.slot (m.shared.slots session.slot).m_sessionId sock batch), []) := by
        rw [sendPost.eq_def]
        split <;> simp_all
      obtain ⟨shared, rfl⟩ := Prod.mk.inj (Option.some.inj (posted.symm.trans ran))
      exact ⟨_, _, _, pipeline.post life sends own frames frames' shared.symm⟩
    · refine ⟨gone, queue, r, pipeline.stay life sends frames frames' ran shifts ?_⟩
      rintro session batch sock rfl own
      have failed : label.2 = .fail := by
        by_contra sent
        exact posts ⟨session, batch, sock, rfl, own, sent⟩
      rw [failed] at ran
      obtain ⟨shared, -⟩ := Prod.mk.inj (Option.some.inj ran)
      exact ⟨by rw [← shared], by rw [← shared]⟩

theorem Opened.pipeline (opened : Opened m k id socket) (fresh : traffic k id m.shared.log = []) :
    Pipeline m k id [] [] 0 := by
  refine ⟨opened.ring, ?_, ?_, fun _ => ⟨Nat.le_refl _, ?_⟩, fun _ => rfl, fun frame member => ?_, ?_⟩
  · rw [enqueuedOn, fresh]
    rfl
  · rw [postedOn, fresh]
    exact List.prefix_rfl
  · rw [postedOn, fresh]
    rfl
  · apply Frame.Exact.of_free
    intro holds
    rw [eq_of_alone opened.alone member (Frame.slot_of_holds holds)] at holds
    cases holds
  · exact fun io member sends => absurd (Io.slot_of_sends sends) (opened.landed io member)

theorem Piped.step (piped : Piped m k) (issued : Issued m) (found : Found m) (owned : Owned m)
    (calling : Calling m) (stepped : CLockFreeCore.step m label = some next) (clean : ¬ Overtakes m label k) :
    Piped next k := by
  rcases piped with unused | ⟨last, preparing, silent⟩ | ⟨id, socket, before, life, sends, gone, queue, r, pipeline⟩
  · by_cases pop : popped m label = some k
    · obtain ⟨sock, preparing⟩ := unused.pop stepped pop
      exact .inr (.inl ⟨_, preparing, nofun⟩)
    · exact .inl (unused.step stepped pop)
  · obtain ⟨inside, at_slot⟩ := preparing.mem
    obtain ⟨frame, left, others, top, ran, frames, frames'⟩ := Stacks.step_frames stepped
    have changes := (exec_spec ran).1
    -- the accept thread records no traffic, and no other thread has the slot
    have same (id : ℤ) : traffic k id next.shared.log = traffic k id m.shared.log := by
      rcases changes.log with same | ⟨event, records, grown⟩
      · rw [same]
      · rw [grown]
        refine traffic_cons_of_not (Bool.eq_false_iff.mpr fun own => ?_)
        obtain ⟨here, proper, -⟩ := slot_of_traffic records own
        obtain rfl := eq_of_alone preparing.alone (frames.mem_iff.mpr List.mem_cons_self) here
        have prepared := preparing.prepared
        cases frame <;> first | exact proper rfl | cases prepared
    rcases preparing.step stepped with ⟨frame', preparing', ⟨handle, own⟩ | ⟨rfl, elsewhere⟩⟩ | ⟨socket, opened, rfl⟩
    · refine .inr (.inl ⟨frame', preparing', fun _ => ?_⟩)
      obtain rfl : frame = last := Option.some.inj (top.symm.trans own)
      rw [same]
      cases frame with
      | issue slot socket =>
        obtain rfl : slot = k := Option.some.inj at_slot
        rw [issue_id ran, traffic, List.filter_eq_nil_iff]
        intro event member own
        obtain ⟨sock, accepted⟩ := owned event member slot _ own
        exact Int.lt_irrefl _ (issued.fresh frames accepted)
      | accepting session socket pc =>
        rcases changes.id k with unchanged | ⟨⟨socket, issue⟩, -⟩
        · rw [unchanged]
          exact silent rfl
        · cases issue
      | _ => cases preparing.prepared
    · refine .inr (.inl ⟨frame', preparing', fun handle => ?_⟩)
      rw [same, changes.slots k (elsewhere frame top)]
      exact silent handle
    · have fresh := silent rfl
      rw [← same] at fresh
      exact .inr (.inr ⟨_, socket, _, opened.lifetime, opened.sends, _, _, _, opened.pipeline fresh⟩)
  · by_cases pop : popped m label = some k
    · have unreached (frame : Frame) (member : frame ∈ m.frames) : frame.slot ≠ some k :=
        fun here => clean ⟨pop, frame, member, here⟩
      obtain ⟨sock, preparing⟩ := life.pop stepped pop unreached
      exact .inr (.inl ⟨_, preparing, nofun⟩)
    · exact .inr (.inr ⟨id, socket, before, life.step issued stepped pop, sends.step life found stepped,
        pipeline.step life sends calling stepped⟩)

/-- What holds of the sends in a run without interruption. -/
structure Sending (m : Machine) : Prop where
  issued : Issued m
  found : Found m
  nested : ∀ stack ∈ m.threads, Nested stack
  calling : Calling m
  owned : Owned m
  piped : ∀ k, Piped m k
  ordered : ∀ k id, postedOn k id m.shared.log <+: (enqueuedOn k id m.shared.log).map some

theorem Sending.step (sending : Sending m) (uninterrupted : Uninterrupted m label)
    (stepped : CLockFreeCore.step m label = some next) : Sending next where
  issued := sending.issued.step stepped
  found := sending.found.step stepped
  nested := nested_step sending.nested stepped
  calling := sending.calling.step uninterrupted sending.nested stepped
  owned := sending.owned.step sending.piped stepped
  piped k := (sending.piped k).step sending.issued sending.found sending.owned sending.calling stepped
    (uninterrupted.not_overtakes sending.nested k)
  ordered := by
    obtain ⟨frame, left, others, top, ran, frames, frames'⟩ := Stacks.step_frames stepped
    intro k id
    have old (same : traffic k id next.shared.log = traffic k id m.shared.log) :
        postedOn k id next.shared.log <+: (enqueuedOn k id next.shared.log).map some := by
      rw [postedOn, enqueuedOn, same]
      exact sending.ordered k id
    rcases (exec_spec ran).1.log with same | ⟨event, records, grown⟩
    · exact old (by rw [same])
    · cases own : event.isTraffic k id with
      | false => exact old (by rw [grown, traffic_cons_of_not own])
      | true =>
        obtain ⟨here, proper, rfl⟩ := slot_of_traffic records own
        obtain ⟨x, socket, before, life, sends, gone, queue, r, pipeline⟩ :=
          (sending.piped k).lifetime (frames.mem_iff.mpr List.mem_cons_self) here proper
        obtain ⟨gone, queue, r, pipeline⟩ := pipeline.step life sends sending.calling stepped
        rw [life.owner, pipeline.enqueued]
        exact pipeline.ordered

theorem Sending.start (slots : ℕ → Session) (sessionMax workerMax apps : ℕ) :
    Sending (start slots sessionMax workerMax apps) where
  issued := Issued.start slots sessionMax workerMax apps
  found := by
    intro session packet pc member
    rcases mem_frames_start _ _ _ _ member with same | same | same <;> cases same
  nested := nested_start slots sessionMax workerMax apps
  calling := by
    intro session packet pc member
    rcases mem_frames_start _ _ _ _ member with same | same | same <;> cases same
  owned := nofun
  piped k := .inl (Unused.start slots sessionMax workerMax apps k)
  ordered _ _ := List.prefix_rfl

end Runs

end LockFreeCore.CLockFreeCore
