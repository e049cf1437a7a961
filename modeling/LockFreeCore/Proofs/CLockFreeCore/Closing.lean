import LockFreeCore.Proofs.CLockFreeCore.Lifetimes

/-! # Whether a closing session is torn down

A closer that finds `m_ioCount` above zero leaves the tear-down to whoever lowers the count to zero.
A completion handler and a failed post poll after their decrement; a post that backs out does not.
So a closing session is torn down in the end, unless the last user of it backs out when all closers
have gone.
-/

namespace LockFreeCore.CLockFreeCore

open CountedClose Replay

/-- The thread is going to look at `m_isClosing` and `m_ioCount` of the session, or has begun to. -/
def Frame.polls (k : ℕ) (id : ℤ) : Frame → Bool
  | .findRemove x _ _ => x = id
  | .removeSession session _ _ => session.slot = k
  | .worker session pc => session.slot = k && (pc = .peerGone || pc = .poll)
  | .recvPost session pc => session.slot = k && pc = .report
  | .sendPost session pc => session.slot = k && (pc = .failedRelease || pc = .report)
  | _ => false

/-- The last user of slot `k` backs out of a post, and nobody is left to poll. -/
def Strands (m : Machine) (label : ℕ × Input) (k : ℕ) : Prop :=
  (m.top label.1).any (·.backsOut k) ∧ (m.shared.slots k).m_ioCount = 1 ∧
    (m.shared.slots k).m_isTornDown = false ∧
    ∀ frame ∈ m.frames, ¬ frame.polls k (m.shared.slots k).m_sessionId

instance (m : Machine) (label : ℕ × Input) (k : ℕ) : Decidable (Strands m label k) :=
  inferInstanceAs (Decidable (_ ∧ _))

/-- The thread is inside one of the functions that post, complete or close, for session `id` on slot
`k`. -/
def Frame.serves (k : ℕ) (id : ℤ) : Frame → Bool
  | .findRemove x _ _ => x = id
  | .removeSession session _ _ | .worker session _ | .recvPost session _ | .sendPost session _ =>
    session.slot = k
  | _ => false

section Runs

variable {m next : Machine} {label : ℕ × Input} {k : ℕ} {id : ℤ}

theorem Frame.role_of_polls {frame : Frame} (polls : frame.polls k id) :
    ∃ role, frame.role k id = some role ∧ role ≠ .leaving := by
  cases frame with
  | findRemove x mark cause =>
    obtain rfl : x = id := of_decide_eq_true polls
    exact ⟨.polling, if_pos rfl, nofun⟩
  | removeSession session cause pc =>
    obtain rfl : session.slot = k := of_decide_eq_true polls
    exact ⟨pc.role, if_pos rfl, by cases pc <;> exact nofun⟩
  | worker session pc =>
    cases pc <;> simp_all [Frame.polls, role, WorkerPc.role]
  | recvPost session pc =>
    cases pc <;> simp_all [Frame.polls, role, RecvPc.role]
  | sendPost session pc =>
    cases pc <;> simp_all [Frame.polls, role, SendPc.role]
  | _ => cases polls

theorem Frame.serves_of_role {frame : Frame} {role : Role} (part : frame.role k id = some role) :
    frame.serves k id := by
  cases frame <;> simp only [Frame.role] at part <;> try split_ifs at part with here
  all_goals first | exact decide_eq_true here | cases part

theorem mem_parties {frame : Frame} {role : Role} (member : frame ∈ m.frames)
    (part : frame.role k id = some role) : role ∈ (whole m k id).parties := by
  rw [whole, resource, Multiset.mem_add]
  right
  rw [← Multiset.count_pos, count_parties, List.countP_pos_iff]
  exact ⟨frame, member, decide_eq_true part⟩

theorem of_mem_parties {role : Role} (member : role ∈ (whole m k id).parties) :
    (∃ frame ∈ m.frames, frame.role k id = some role) ∨ ∃ io ∈ m.shared.inFlight, io.session.slot = k := by
  rw [whole, resource, Multiset.mem_add, ← Multiset.count_pos, ← Multiset.count_pos, count_flying,
    count_parties] at member
  rcases member with flies | thread
  · split_ifs at flies
    · obtain ⟨io, member, here⟩ := List.countP_pos_iff.mp flies
      exact .inr ⟨io, member, of_decide_eq_true here⟩
    · cases flies
  · obtain ⟨frame, member, part⟩ := List.countP_pos_iff.mp thread
    exact .inl ⟨frame, member, of_decide_eq_true part⟩

/-- Only a step that strands the session leaves it unattended. -/
theorem Lifetime.attended {socket before : ℕ} (life : Lifetime m k id socket before) (issued : Issued m)
    (attended : Attended (whole m k id)) (stepped : CLockFreeCore.step m label = some next)
    (stays : popped m label ≠ some k) (kept : ¬ Strands m label k) : Attended (whole next k id) := by
  have after := (life.step issued stepped stays).alive.sound
  obtain ⟨frame, top, moves⟩ := step_moves id stepped life.alive.later stays
  rcases moves with same | ⟨label', moves, back, quit⟩
  · rwa [← same]
  apply Attended.step life.alive.sound moves
  intro special closing left
  by_cases used : (whole next k id).count ≠ 0
  · exact after.exists_user used
  cases label' with
  | other => exact absurd rfl special
  | quit =>
    generalize source : whole m k id = s at moves
    generalize target : whole next k id = t at moves closing left
    cases moves with
    | quit n c t a r R =>
      rcases quit rfl with open_ | stale | gone
      · cases (congrArg State.closing source).symm.trans open_
        cases closing
      · exact absurd life.owner stale
      · have torn := (life.listed.resolve_left gone).2
        exact absurd ((congrArg State.torn source).symm.trans torn) left
  | back =>
    generalize source : whole m k id = s at moves
    generalize target : whole next k id = t at moves used left
    cases moves with
    | back n c torn a r R =>
      have last : n = 1 := by
        rw [not_not] at used
        exact Int.sub_eq_zero.mp used
      by_contra nobody
      apply kept
      refine ⟨by rw [top]; exact back rfl, (congrArg State.count source).trans last,
        (congrArg State.torn source).trans (Bool.eq_false_iff.mpr left), ?_⟩
      intro poller member polls
      rw [life.owner] at polls
      obtain ⟨role, part, stays⟩ := Frame.role_of_polls polls
      have inside := mem_parties member part
      rw [source] at inside
      refine nobody ⟨role, (Multiset.mem_cons.mp inside).resolve_left stays, ?_⟩
      rintro rfl
      exact left ((congrArg State.torn source).symm.trans (life.alive.torn_of_tearing member part))

theorem closing_torn_down {slots : ℕ → Session} {sessionMax workerMax apps : ℕ} {labels : List (ℕ × Input)}
    {target : Machine} {socket : ℕ}
    (clean : Along step (fun m label => ¬ Overtakes m label k ∧ ¬ Strands m label k)
      (start slots sessionMax workerMax apps) labels)
    (run : replay step (start slots sessionMax workerMax apps) labels = some target)
    (accepted : .accepted id k socket ∈ target.shared.log)
    (owner : (target.shared.slots k).m_sessionId = id)
    (quiet : ∀ frame ∈ target.frames, ¬ frame.serves k id ∧ ¬ frame.prepares k)
    (landed : ∀ io ∈ target.shared.inFlight, io.session.slot ≠ k)
    (closing : (target.shared.slots k).m_isClosing) :
    (target.shared.slots k).m_isTornDown ∧ .closed socket ∈ target.shared.log ∧
      target.shared.m_sessionMap.lookup id = none ∧ k ∈ target.shared.m_sessionFreeList := by
  obtain ⟨issued, phase⟩ := invariant
    (fun m => Issued m ∧ Phase (fun m k id => Attended (whole m k id)) m k)
    (fun m label next holds kept stepped => ⟨holds.1.step stepped, holds.2.step holds.1 stepped kept.1
      (fun id socket opened closing => absurd closing (by simp [whole, resource, opened.closing]))
      (fun id socket before life attended stays => life.attended holds.1 attended stepped stays kept.2)⟩)
    ⟨.start .., .inl (.start ..)⟩ clean run
  rcases phase with unused | ⟨frame, preparing⟩ | ⟨own, sock, before, life, attended⟩
  · exact absurd accepted (unused.unissued id socket)
  · have alone : frame ∈ target.frames.filter (·.slot = some k) := by simp [preparing.alone]
    have unprepared := (quiet frame (List.mem_filter.mp alone).1).2
    have prepared := preparing.prepared
    cases frame with
    | issue slot sock =>
      obtain rfl : slot = k := prepared
      exact absurd (by simp [Frame.prepares]) unprepared
    | accepting session sock pc =>
      obtain ⟨rfl, before, -, -, -, -, clear, -⟩ := prepared
      cases pc with
      | join | post => exact absurd before (by decide)
      | ring | insert => cases (clear (by decide)).symm.trans closing
      | _ => exact absurd (by simp [Frame.prepares]) unprepared
    | _ => cases prepared
  · obtain rfl : own = id := life.owner.symm.trans owner
    obtain rfl : sock = socket := (issued.once _ _ _ _ _ life.accepted accepted).2
    have nobody (role : Role) : role ∉ (whole target k own).parties := by
      intro member
      rcases of_mem_parties member with ⟨frame, member, part⟩ | ⟨io, member, here⟩
      · exact (quiet frame member).1 (Frame.serves_of_role part)
      · exact landed io member here
    have torn : (target.shared.slots k).m_isTornDown := by
      by_contra left
      obtain ⟨role, member, -⟩ := attended closing left
      exact nobody role member
    have pushed : k ∈ target.shared.m_sessionFreeList := by
      have claimed := life.alive.sound.claimed
      have released := life.alive.sound.released
      rw [if_pos (show (whole target k own).torn from torn)] at claimed
      rw [State.among, Multiset.count_eq_zero.mpr (nobody .tearing)] at released
      have count : target.shared.m_sessionFreeList.count k = 1 := by
        change before + 0 + target.shared.m_sessionFreeList.count k = _ at released
        omega
      exact List.count_pos_iff.mp (by omega)
    obtain ⟨erased, closed⟩ := life.ended pushed
    exact ⟨torn, closed, erased, pushed⟩

end Runs

/-- The accept thread's first post counts itself in, a disconnect finds it counted and leaves, and the
post backs out. -/
def backsOutLast : List (ℕ × Input) :=
  acceptsFirst ++ goes 0 3 ++ (0, .leave) :: goes 0 3 ++ (2, .disconnect 0) :: goes 2 4 ++ goes 0 2

theorem closing_never_torn_down :
    let target := (replay step (start (fun _ => unwritten) 1 1 1) backsOutLast).get (by decide)
    (.accepted 0 0 0 ∈ target.shared.log ∧ (target.shared.slots 0).m_sessionId = 0 ∧
      (∀ frame ∈ target.frames, ¬ frame.serves 0 0 ∧ ¬ frame.prepares 0) ∧
      (∀ io ∈ target.shared.inFlight, io.session.slot ≠ 0) ∧ (target.shared.slots 0).m_isClosing) ∧
    ¬ ((target.shared.slots 0).m_isTornDown ∧ .closed 0 ∈ target.shared.log ∧
      target.shared.m_sessionMap.lookup 0 = none ∧ 0 ∈ target.shared.m_sessionFreeList) := by
  decide

theorem closing_torn_down_peerCloses :
    let target := (replay step (start (fun _ => unwritten) 1 1 1) (acceptsFirst ++ peerCloses)).get (by decide)
    (target.shared.slots 0).m_isClosing ∧ (target.shared.slots 0).m_isTornDown ∧
      .closed 0 ∈ target.shared.log ∧ target.shared.m_sessionMap.lookup 0 = none ∧
      0 ∈ target.shared.m_sessionFreeList :=
  ⟨by decide, closing_torn_down (by decide) (Option.some_get _).symm (by decide) (by decide)
    (by decide) (by decide) (by decide)⟩

end LockFreeCore.CLockFreeCore
