import LockFreeCore.Proofs.CLockFreeCore.Lifetimes

/-! # What a session is closed for

Ids are never issued again, but a thread inside `removeSession` has a pointer to a slot, and the
slot is. While no pointer outlives the session it was obtained for, a session is marked and torn
down only for events of its own id, and torn down once.
-/

namespace LockFreeCore.CLockFreeCore

open CountedClose Replay

def tearsDown (id : ℤ) : Event → Bool
  | .tornDown _ owner _ => owner = id
  | _ => false

/-- A session that the event closes is the one whose event it was. -/
def Event.Own : Event → Prop
  | .marked _ owner cause | .tornDown _ owner cause => owner = cause
  | _ => True

/-- A thread that closes does so for the id that it looks up, or has looked up. -/
def Frame.Caused : Frame → Prop
  | .findRemove id _ cause => id = cause
  | .removeSession session cause _ => session.id = cause
  | _ => True

/-- What the log says about tear-downs. -/
structure Recorded (m : Machine) : Prop where
  causes : ∀ frame ∈ m.frames, frame.Caused
  own : ∀ event ∈ m.shared.log, event.Own
  issued : ∀ slot owner cause, .tornDown slot owner cause ∈ m.shared.log →
    ∃ sock, .accepted owner slot sock ∈ m.shared.log
  torn : ∀ slot owner cause, .tornDown slot owner cause ∈ m.shared.log →
    (m.shared.slots slot).m_sessionId = owner → (m.shared.slots slot).m_isTornDown ∧
      ∀ session sock pc, .accepting session sock pc ∈ m.frames → session.slot = slot → 8 ≤ pc.stage
  once : ∀ id, m.shared.log.countP (tearsDown id) ≤ 1

section Runs

variable {m next : Machine} {label : ℕ × Input} {Q : Machine → ℕ → ℤ → Prop}

theorem exists_of_countP {id : ℤ} {log : List Event} (some : 0 < log.countP (tearsDown id)) :
    ∃ slot cause, .tornDown slot id cause ∈ log := by
  obtain ⟨event, member, tears⟩ := List.countP_pos_iff.mp some
  cases event with
  | tornDown slot owner cause =>
    obtain rfl : owner = id := of_decide_eq_true tears
    exact ⟨slot, cause, member⟩
  | _ => cases tears

theorem swap_torn {s s' : CLockFreeCore} {session : Handle} {cause : ℤ} {input : Input} {left : List Frame}
    (ran : exec s (.removeSession session cause .swap) input = some (s', left)) :
    (s'.slots session.slot).m_isTornDown := by
  simp only [exec, removeSession] at ran
  split_ifs at ran with torn <;> cases ran
  · exact torn
  · simp

theorem Recorded.step (recorded : Recorded m) (issued : Issued m) (phase : ∀ k, Phase Q m k)
    (stepped : step m label = some next) : Recorded next := by
  obtain ⟨frame, left, others, top, ran, frames, frames'⟩ := Stacks.step_frames stepped
  obtain ⟨changes, leaves⟩ := exec_spec ran
  have here : frame ∈ m.frames := frames.mem_iff.mpr List.mem_cons_self
  have there {f : Frame} (member : f ∈ others) : f ∈ m.frames :=
    frames.mem_iff.mpr (List.mem_cons_of_mem _ member)
  have caused := recorded.causes frame here
  constructor
  · intro f member
    rcases List.mem_append.mp (frames'.mem_iff.mp member) with member | member
    · cases f with
      | findRemove id mark cause =>
        rcases leaves _ member with ⟨-, same⟩ | ⟨session, handle, rfl, rfl⟩
        · exact same
        · exact ((phase session.slot).handle_id here handle rfl).symm
      | removeSession session cause pc =>
        rcases leaves _ member with ⟨last, rfl⟩ | ⟨mark, rfl, -⟩ <;> exact caused
      | _ => trivial
    · exact recorded.causes f (there member)
  · intro event member
    rcases changes.of_mem_log member with old | records
    · exact recorded.own event old
    · cases event with
      | marked slot owner cause =>
        obtain ⟨rfl, session, rfl, rfl⟩ := records
        exact ((phase session.slot).handle_id here rfl rfl).symm.trans caused
      | tornDown slot owner cause =>
        obtain ⟨rfl, -, session, rfl, rfl⟩ := records
        exact ((phase session.slot).handle_id here rfl rfl).symm.trans caused
      | _ => trivial
  · intro slot owner cause member
    rcases changes.of_mem_log member with old | ⟨rfl, -, session, rfl, rfl⟩
    · obtain ⟨sock, accepted⟩ := recorded.issued slot owner cause old
      exact ⟨sock, changes.mem_log accepted⟩
    · obtain ⟨x, sock, accepted⟩ := issued.known session.slot (.inl ⟨_, here, session, rfl, rfl⟩)
      obtain ⟨sock, owned⟩ := issued.owner _ _ _ accepted
      exact ⟨sock, changes.mem_log owned⟩
  · intro slot owner cause member owns
    rcases changes.of_mem_log member with old | ⟨-, standing, session, rfl, rfl⟩
    · obtain ⟨sock, accepted⟩ := recorded.issued slot owner cause old
      have kept (issues : ∀ sock, frame ≠ .issue slot sock) : (next.shared.slots slot).m_isTornDown ∧
          ∀ session sock pc, .accepting session sock pc ∈ next.frames → session.slot = slot → 8 ≤ pc.stage := by
        have same := (changes.id slot).resolve_right fun ⟨⟨sock, issue⟩, _⟩ => issues sock issue
        obtain ⟨torn, joined⟩ := recorded.torn slot owner cause old (same.symm.trans owns)
        constructor
        · apply (changes.torn slot torn).resolve_right
          rintro ⟨session, sock, rfl, own⟩
          exact absurd (joined _ _ _ here own) (by decide)
        · intro session sock pc accepts own
          rcases List.mem_append.mp (frames'.mem_iff.mp accepts) with accepts | accepts
          · rcases leaves _ accepts with ⟨issue, -, -⟩ | ⟨last, rfl, follows⟩
            · exact absurd (own ▸ issue) (issues sock)
            · have reached := joined _ _ _ here own
              rw [AcceptPc.stage_next follows]
              omega
          · exact joined _ _ _ (there accepts) own
      apply kept
      rintro socket rfl
      rw [issue_id ran] at owns
      subst owns
      exact absurd (issued.fresh frames accepted) (Int.lt_irrefl _)
    · obtain ⟨id, socket, before, life, -⟩ := (phase session.slot).lifetime here rfl nofun
      refine ⟨swap_torn ran, ?_⟩
      intro client sock pc accepts own
      rcases List.mem_append.mp (frames'.mem_iff.mp accepts) with accepts | accepts
      · rcases leaves _ accepts with ⟨issue, -⟩ | ⟨last, same, -⟩
        · cases issue
        · cases same
      · exact life.joined _ _ _ (there accepts) own
  · intro id
    rcases changes.log with same | ⟨event, records, grown⟩
    · rw [same]
      exact recorded.once id
    · rw [grown, List.countP_cons]
      split_ifs with tears
      · cases event with
        | tornDown slot owner cause =>
          obtain rfl : owner = id := of_decide_eq_true tears
          obtain ⟨rfl, standing, session, rfl, rfl⟩ := records
          have none : m.shared.log.countP (tearsDown (m.shared.slots session.slot).m_sessionId) = 0 := by
            by_contra some
            obtain ⟨slot, cause, torn⟩ := exists_of_countP (Nat.pos_of_ne_zero some)
            obtain ⟨sock, accepted⟩ := recorded.issued _ _ _ torn
            have same := issued.slot_of_owner (.inl ⟨_, here, session, rfl, rfl⟩) accepted
            subst same
            cases standing.symm.trans (recorded.torn _ _ _ torn rfl).1
          omega
        | _ => cases tears
      · exact recorded.once id

/-- As long as no slot is popped to which some thread still has a pointer, every session is marked and
torn down for its own events only, and torn down at most once. -/
theorem closed_for_own_events {slots : ℕ → Session} {sessionMax workerMax apps : ℕ}
    {labels : List (ℕ × Input)} {target : Machine}
    (clean : Along step (fun m label => ∀ k, ¬ Overtakes m label k) (start slots sessionMax workerMax apps) labels)
    (run : replay step (start slots sessionMax workerMax apps) labels = some target) :
    (∀ id, target.shared.log.countP (tearsDown id) ≤ 1) ∧
    ∀ slot owner cause, .marked slot owner cause ∈ target.shared.log ∨
      .tornDown slot owner cause ∈ target.shared.log → owner = cause := by
  have begins : Recorded (start slots sessionMax workerMax apps) := by
    refine ⟨?_, nofun, nofun, nofun, fun _ => Nat.zero_le 1⟩
    intro frame member
    rcases mem_frames_start _ _ _ _ member with rfl | rfl | rfl <;> trivial
  obtain ⟨-, -, recorded⟩ := invariant
    (fun m => Issued m ∧ (∀ k, Phase (fun _ _ _ => True) m k) ∧ Recorded m)
    (fun m label next ⟨issued, phase, recorded⟩ kept stepped => ⟨issued.step stepped,
      fun k => (phase k).step issued stepped (kept k) (fun _ _ _ => trivial) fun _ _ _ _ _ _ => trivial,
      recorded.step issued phase stepped⟩)
    ⟨.start .., fun k => .inl (.start _ _ _ _ k), begins⟩ clean run
  refine ⟨recorded.once, ?_⟩
  rintro slot owner cause (marked | tornDown)
  · exact recorded.own _ marked
  · exact recorded.own _ tornDown

end Runs

/-- The first receive is posted, and an application thread disconnects and is about to mark. -/
def disconnectPauses : List (ℕ × Input) :=
  acceptsFirst ++ goes 0 3 ++ (0, .leave) :: goes 0 6 ++ (2, .disconnect 0) :: goes 2 1

/-- The peer closes and the worker tears the session down; the slot is accepted for the next client,
and the paused thread marks it and tears it down. -/
def marksNext : List (ℕ × Input) :=
  disconnectPauses ++ (1, .complete 0 0) :: goes 1 12 ++ (1, .leave) :: goes 1 2 ++ acceptsFirst ++ goes 2 4

theorem next_torn_down_for_last :
    let target := (replay step (start (fun _ => unwritten) 1 1 1) marksNext).get (by decide)
    .accepted 1 0 1 ∈ target.shared.log ∧ .marked 0 1 0 ∈ target.shared.log ∧
      .tornDown 0 1 0 ∈ target.shared.log := by
  decide

/-- Two clients are accepted on one slot, and both leave. -/
def twoClients : List (ℕ × Input) := acceptsFirst ++ peerCloses ++ acceptsFirst ++ peerCloses

set_option maxRecDepth 2000 in
theorem closed_for_own_events_twoClients :
    let target := (replay step (start (fun _ => unwritten) 1 1 1) twoClients).get (by decide)
    .tornDown 0 1 1 ∈ target.shared.log ∧ target.shared.log.countP (tearsDown 1) ≤ 1 :=
  ⟨by decide, (closed_for_own_events (by decide) (Option.some_get _).symm).1 1⟩

end LockFreeCore.CLockFreeCore
