import LockFreeCore.Proofs.CLockFreeCore.Sequential

/-! # The session pool and the session table

In a run without interruption a slot is on the free list, or in the hands of the accept thread, or in
the session table under the id of its session. A slot goes back to the free list once for each
session, after its `onClientLeave`.
-/

namespace LockFreeCore.CLockFreeCore

open CountedClose Replay

/-- The id that a step calls `onClientLeave` with. -/
def leaving (m : Machine) (label : ℕ × Input) : Option ℤ :=
  match m.top label.1 with
  | some (.removeSession session _ .leave) => some (m.shared.slots session.slot).m_sessionId
  | _ => none

/-- The thread tears slot `k` down and has not called `onClientLeave`. -/
def Frame.clears (k : ℕ) : Frame → Bool
  | .removeSession session _ pc => session.slot = k && match pc with
    | .drain | .take | .rest | .socket | .close _ | .leave => true
    | _ => false
  | _ => false

/-- Slots that no session has had are on the free list, as `start` has put them there. -/
structure Stocked (m : Machine) (sessionMax : ℕ) : Prop where
  unused : ∀ k, Unused m k → m.shared.m_sessionFreeList.count k = if k < sessionMax then 1 else 0
  beyond : ∀ k, sessionMax ≤ k → Unused m k

/-- How often `onClientLeave` has been called for the sessions of slot `k`. -/
def Reported (m : Machine) (seen : List ℤ) (k : ℕ) : Prop :=
  Unused m k ∨
    (∃ frame, Preparing m k frame ∧ ∀ y sock, .accepted y k sock ∈ m.shared.log →
      seen.count y = if frame.handle.isSome ∧ y = (m.shared.slots k).m_sessionId then 0 else 1) ∨
    ∃ id socket before, Lifetime m k id socket before ∧
      (∀ y sock, .accepted y k sock ∈ m.shared.log → y ≠ id → seen.count y = 1) ∧
      seen.count id + m.frames.countP (Frame.clears k) = (m.shared.slots k).m_isTornDown.toNat

section Specs

variable {s s' : CLockFreeCore} {frame : Frame} {k : ℕ} {left : List Frame} {input : Input}

/-- Whether a frame is the call of `onClientLeave` for slot `k`. -/
def Frame.leaves (k : ℕ) : Frame → Bool
  | .removeSession session _ .leave => session.slot = k
  | _ => false

theorem removeSession_clears {session : Handle} {cause : ℤ} {pc : RemovePc}
    (ran : removeSession s session cause pc input = some (s', left)) :
    ((Frame.removeSession session cause pc).leaves k).toNat + left.countP (Frame.clears k) +
      (s.slots k).m_isTornDown.toNat =
    [Frame.removeSession session cause pc].countP (Frame.clears k) + (s'.slots k).m_isTornDown.toNat := by
  by_cases here : session.slot = k
  · subst here
    cases pc with
    | closing | ioCount | drain | rest =>
      simp only [removeSession] at ran
      split_ifs at ran <;> cases ran <;> simp [Frame.leaves, Frame.clears]
    | swap =>
      simp only [removeSession] at ran
      split_ifs at ran with torn <;> cases ran <;> simp [Frame.leaves, Frame.clears, torn]
    | _ =>
      cases ran
      simp [Frame.leaves, Frame.clears]
  · have elsewhere : k ≠ session.slot := Ne.symm here
    cases pc with
    | closing | ioCount | swap | drain | rest =>
      simp only [removeSession] at ran
      split_ifs at ran <;> cases ran <;> simp [Frame.leaves, Frame.clears, here, elsewhere]
    | _ =>
      cases ran
      simp [Frame.leaves, Frame.clears, here, elsewhere]

/-- Only `removeSession` tears down. -/
theorem exec_torn {frame : Frame} (ran : exec s frame input = some (s', left)) (later : ¬ frame.prepares k)
    (other : ∀ session cause, frame ≠ .removeSession session cause .swap) :
    (s'.slots k).m_isTornDown = (s.slots k).m_isTornDown := by
  by_cases own : frame.slot = some k
  · have writes := exec_writes ran own
    generalize s.slots k = x at writes ⊢
    generalize s'.slots k = y at writes ⊢
    cases writes with
    | issue slot socket => exact absurd (by simpa [Frame.prepares] using Option.some.inj own) later
    | prepare client socket pc _ _ early => exact absurd (decide_eq_true ⟨Option.some.inj own, early⟩) later
    | swap session cause => exact absurd rfl (other session cause)
    | _ => rfl
  · rw [(exec_spec ran).1.slots k own]

/-- A tear-down is begun once by each swap, and reported on its way. -/
theorem exec_reported {frame : Frame} (ran : exec s frame input = some (s', left)) (later : ¬ frame.prepares k) :
    (frame.leaves k).toNat + left.countP (Frame.clears k) + (s.slots k).m_isTornDown.toNat =
      [frame].countP (Frame.clears k) + (s'.slots k).m_isTornDown.toNat := by
  by_cases remover : ∃ session cause pc, frame = .removeSession session cause pc
  · obtain ⟨session, cause, pc, rfl⟩ := remover
    exact removeSession_clears ran
  · have other (session : Handle) (cause : ℤ) (pc : RemovePc) : frame ≠ .removeSession session cause pc :=
      fun same => remover ⟨session, cause, pc, same⟩
    have none : left.countP (Frame.clears k) = 0 := by
      rw [List.countP_eq_zero]
      intro f member clears
      cases f with
      | removeSession session cause pc =>
        rcases (exec_spec ran).2 _ member with ⟨last, rfl⟩ | ⟨mark, rfl, found⟩
        · exact other _ _ _ rfl
        · simp only [exec, findRemove, found] at ran
          cases ran
          cases List.mem_singleton.mp member
          cases mark <;> simp [Frame.clears] at clears
      | _ => cases clears
    have silent : frame.leaves k = false ∧ frame.clears k = false := by
      cases frame with
      | removeSession session cause pc => exact absurd rfl (other session cause pc)
      | _ => exact ⟨rfl, rfl⟩
    rw [none, silent.1, exec_torn ran later fun session cause => other session cause _,
      List.countP_cons_of_neg (by rw [silent.2]; exact Bool.false_ne_true)]
    simp

end Specs

section Runs

variable {m next : Machine} {label : ℕ × Input} {k : ℕ} {seen : List ℤ}

theorem leaving_spec {x : ℤ} (leaves : leaving m label = some x) : ∃ session cause,
    m.top label.1 = some (.removeSession session cause .leave) ∧ x = (m.shared.slots session.slot).m_sessionId := by
  unfold leaving at leaves
  split at leaves
  · rename_i session cause top
    exact ⟨session, cause, top, (Option.some.inj leaves).symm⟩
  · cases leaves

/-- A call for an id that was issued for slot `k` is made by a thread that tears slot `k` down. -/
theorem slot_of_leaving (issued : Issued m) {frame : Frame} {others : List Frame}
    (frames : m.frames.Perm (frame :: others)) (top : m.top label.1 = some frame) {y : ℤ} {sock : ℕ}
    (accepted : .accepted y k sock ∈ m.shared.log) (leaves : leaving m label = some y) : frame.leaves k := by
  obtain ⟨session, cause, here, rfl⟩ := leaving_spec leaves
  rw [top] at here
  obtain rfl := Option.some.inj here
  have refers : Refers m session.slot :=
    .inl ⟨_, frames.mem_iff.mpr List.mem_cons_self, session, rfl, rfl⟩
  exact decide_eq_true (issued.slot_of_owner refers accepted).symm

/-- No thread that tears slot `k` down takes the step. -/
theorem count_leaving_of_not_leaves (issued : Issued m) {frame : Frame} {others : List Frame}
    (frames : m.frames.Perm (frame :: others)) (top : m.top label.1 = some frame) (stays : ¬ frame.leaves k)
    {y : ℤ} {sock : ℕ} (accepted : .accepted y k sock ∈ m.shared.log) :
    (seen ++ (leaving m label).toList).count y = seen.count y := by
  rw [count_append_toList, if_neg fun leaves => stays (slot_of_leaving issued frames top accepted leaves)]
  rfl

theorem Lifetime.reported {id : ℤ} {socket before : ℕ} (life : Lifetime m k id socket before) (issued : Issued m)
    (earlier : ∀ y sock, .accepted y k sock ∈ m.shared.log → y ≠ id → seen.count y = 1)
    (own : seen.count id + m.frames.countP (Frame.clears k) = (m.shared.slots k).m_isTornDown.toNat)
    (stepped : CLockFreeCore.step m label = some next) :
    (∀ y sock, .accepted y k sock ∈ next.shared.log → y ≠ id →
      (seen ++ (leaving m label).toList).count y = 1) ∧
    (seen ++ (leaving m label).toList).count id + next.frames.countP (Frame.clears k) =
      (next.shared.slots k).m_isTornDown.toNat := by
  obtain ⟨frame, left, others, top, ran, frames, frames'⟩ := Stacks.step_frames stepped
  have later := life.alive.later frame (frames.mem_iff.mpr List.mem_cons_self)
  have leaves (y : ℤ) (left : frame.leaves k) : leaving m label = some y ↔ y = id := by
    cases frame with
    | removeSession session cause pc =>
      cases pc with
      | leave =>
        obtain rfl : session.slot = k := of_decide_eq_true left
        simp [leaving, top, life.owner, eq_comm]
      | _ => cases left
    | _ => cases left
  constructor
  · intro y sock accepted different
    rcases (exec_spec ran).1.of_mem_log accepted with old | ⟨rfl, -⟩
    · rw [← earlier y sock old different, count_append_toList, if_neg fun left =>
        different ((leaves y (slot_of_leaving issued frames top old left)).mp left)]
      rfl
    · exact absurd (by simp [Frame.prepares]) later
  · have passed := exec_reported ran later
    have here : (if leaving m label = some id then 1 else 0) = (frame.leaves k).toNat := by
      cases left : frame.leaves k with
      | true => exact if_pos ((leaves id left).mpr rfl)
      | false =>
        refine if_neg fun called => ?_
        have := slot_of_leaving issued frames top life.accepted called
        rw [left] at this
        cases this
    rw [frames.countP_eq, ← List.singleton_append, List.countP_append] at own
    rw [count_append_toList, here, frames'.countP_eq, List.countP_append]
    omega

theorem Frame.slot_of_clears {frame : Frame} (clears : frame.clears k) : frame.slot = some k := by
  cases frame with
  | removeSession session cause pc =>
    simp only [Frame.clears, Bool.and_eq_true, decide_eq_true_eq] at clears
    exact congrArg some clears.1
  | _ => cases clears

theorem Preparing.unleaving {last frame : Frame} (preparing : Preparing m k last) (member : frame ∈ m.frames) :
    ¬ frame.leaves k := by
  intro leaves
  cases frame with
  | removeSession session cause pc =>
    cases pc with
    | leave =>
      obtain rfl := eq_of_alone preparing.alone member (congrArg some (of_decide_eq_true leaves))
      cases preparing.prepared
    | _ => cases leaves
  | _ => cases leaves

/-- Between the pop and the entry in the session table nothing is reported for the slot. -/
theorem Preparing.reported {last : Frame} (preparing : Preparing m k last) (issued : Issued m)
    (known : ∀ y ∈ seen, ∃ j sock, .accepted y j sock ∈ m.shared.log)
    (counts : ∀ y sock, .accepted y k sock ∈ m.shared.log →
      seen.count y = if last.handle.isSome ∧ y = (m.shared.slots k).m_sessionId then 0 else 1)
    (stepped : CLockFreeCore.step m label = some next) :
    Reported next (seen ++ (leaving m label).toList) k := by
  obtain ⟨inside, at_slot⟩ := preparing.mem
  obtain ⟨frame, left, others, top, ran, frames, frames'⟩ := Stacks.step_frames stepped
  have changes := (exec_spec ran).1
  have stays := preparing.unleaving (frames.mem_iff.mpr List.mem_cons_self)
  have old {y : ℤ} {sock : ℕ} (accepted : .accepted y k sock ∈ m.shared.log) :
      (seen ++ (leaving m label).toList).count y =
        if last.handle.isSome ∧ y = (m.shared.slots k).m_sessionId then 0 else 1 := by
    rw [count_leaving_of_not_leaves issued frames top stays accepted, counts y sock accepted]
  right
  rcases preparing.step stepped with ⟨frame', preparing', ⟨handle, own⟩ | ⟨rfl, elsewhere⟩⟩ | ⟨socket, opened, rfl⟩
  · -- the accept thread goes on with the slot
    left
    obtain rfl : frame = last := Option.some.inj (top.symm.trans own)
    refine ⟨frame', preparing', fun y sock accepted => ?_⟩
    rw [handle]
    cases frame with
    | issue slot socket =>
      obtain rfl : slot = k := Option.some.inj at_slot
      rw [issue_id ran]
      rcases changes.of_mem_log accepted with accepted | ⟨issue, rfl⟩
      · rw [old accepted]
        simp [Frame.handle, Int.ne_of_lt (issued.fresh frames accepted)]
      · have absent : seen.count m.shared.m_nextSessionId = 0 := by
          rw [List.count_eq_zero]
          intro member
          obtain ⟨j, sock, accepted⟩ := known _ member
          exact Int.lt_irrefl _ (issued.fresh frames accepted)
        rw [if_pos ⟨rfl, rfl⟩, count_append_toList, absent, leaving, top]
        rfl
    | accepting session socket pc =>
      rcases changes.of_mem_log accepted with accepted | ⟨issue, -⟩
      · rcases changes.id k with same | ⟨⟨socket, issue⟩, -⟩
        · rw [same]
          exact old accepted
        · cases issue
      · cases issue
    | _ => cases preparing.prepared
  · left
    refine ⟨frame', preparing', fun y sock accepted => ?_⟩
    have apart := elsewhere frame top
    rw [changes.slots k apart]
    rcases changes.of_mem_log accepted with accepted | ⟨rfl, -⟩
    · exact old accepted
    · exact absurd rfl apart
  · right
    have unissued (sock : ℕ) : frame ≠ .issue k sock := by
      rintro rfl
      cases eq_of_alone preparing.alone (frames.mem_iff.mpr List.mem_cons_self) rfl
    have counted (y : ℤ) (sock : ℕ) (accepted : .accepted y k sock ∈ next.shared.log) :
        (seen ++ (leaving m label).toList).count y = if y = (m.shared.slots k).m_sessionId then 0 else 1 := by
      rcases changes.of_mem_log accepted with accepted | ⟨issue, -⟩
      · rw [old accepted]
        simp [Frame.handle]
      · exact absurd issue (unissued sock)
    refine ⟨_, socket, _, opened.lifetime, fun y sock accepted different => ?_, ?_⟩
    · rw [counted y sock accepted, if_neg different]
    · have none : next.frames.countP (Frame.clears k) = 0 := by
        rw [List.countP_eq_zero]
        intro f member clears
        rw [eq_of_alone opened.alone member (Frame.slot_of_clears clears)] at clears
        cases clears
      rw [counted _ _ opened.accepted, if_pos rfl, none, opened.tornDown]
      rfl

theorem Reported.step (reported : Reported m seen k) (issued : Issued m)
    (known : ∀ y ∈ seen, ∃ j sock, .accepted y j sock ∈ m.shared.log)
    (stepped : CLockFreeCore.step m label = some next) (clean : ¬ Overtakes m label k) :
    Reported next (seen ++ (leaving m label).toList) k := by
  rcases reported with unused | ⟨last, preparing, counts⟩ | ⟨id, socket, before, life, earlier, own⟩
  · by_cases pop : popped m label = some k
    · obtain ⟨sock, preparing⟩ := unused.pop stepped pop
      obtain ⟨frame, left, others, top, ran, frames, frames'⟩ := Stacks.step_frames stepped
      rw [popped, top] at pop
      obtain ⟨sock', rest, rfl, -, -, shared⟩ := exec_pop ran pop
      refine .inr (.inl ⟨_, preparing, fun y sock accepted => ?_⟩)
      rw [shared] at accepted
      exact absurd accepted (unused.unissued y sock)
    · exact .inl (unused.step stepped pop)
  · exact preparing.reported issued known counts stepped
  · by_cases pop : popped m label = some k
    · -- the last session on the slot was torn down, and nobody is inside
      have unreached (frame : Frame) (member : frame ∈ m.frames) : frame.slot ≠ some k :=
        fun here => clean ⟨pop, frame, member, here⟩
      obtain ⟨sock, preparing⟩ := life.pop stepped pop unreached
      have idle : m.frames.countP (Frame.clears k) = 0 := by
        rw [List.countP_eq_zero]
        exact fun frame member clears => unreached frame member (Frame.slot_of_clears clears)
      obtain ⟨frame, left, others, top, ran, frames, frames'⟩ := Stacks.step_frames stepped
      rw [popped, top] at pop
      obtain ⟨sock', rest, rfl, -, free, shared⟩ := exec_pop ran pop
      obtain ⟨torn, -⟩ := life.torn_of_free (free ▸ List.mem_cons_self)
      rw [idle, torn] at own
      refine .inr (.inl ⟨_, preparing, fun y sock accepted => ?_⟩)
      have silent : leaving m label = none := by simp [leaving, top]
      rw [shared] at accepted
      rw [silent, Option.toList_none, List.append_nil, if_neg (by simp [Frame.handle])]
      by_cases current : y = id
      · rw [current]
        exact own
      · exact earlier y sock accepted current
    · exact .inr (.inr ⟨id, socket, before, life.step issued stepped pop,
        life.reported issued earlier own stepped⟩)

theorem Stocked.step {sessionMax : ℕ} (stocked : Stocked m sessionMax) (reported : ∀ k, Reported m seen k)
    (stepped : CLockFreeCore.step m label = some next) : Stocked next sessionMax := by
  have reached {k : ℕ} {frame : Frame} (alone : next.frames.filter (·.slot = some k) = [frame]) : ¬ Unused next k := by
    intro unused
    have inside : frame ∈ next.frames.filter (·.slot = some k) := by simp [alone]
    obtain ⟨member, here⟩ : frame ∈ next.frames ∧ frame.slot = some k := by simpa using inside
    exact unused.unreached frame member here
  constructor
  · intro k unused'
    rcases reported k with unused | ⟨last, preparing, -⟩ | ⟨id, socket, before, life, -⟩
    · by_cases pop : popped m label = some k
      · obtain ⟨sock, preparing⟩ := unused.pop stepped pop
        exact absurd unused' (reached preparing.alone)
      · obtain ⟨frame, left, others, top, ran, frames, frames'⟩ := Stacks.step_frames stepped
        have other : frame.slot ≠ some k := unused.unreached frame (frames.mem_iff.mpr List.mem_cons_self)
        have stays : pops m.shared frame label.2 ≠ some k := by rwa [popped, top] at pop
        rw [(exec_spec ran).1.count_free other stays, stocked.unused k unused]
    · rcases preparing.step stepped with ⟨last', preparing', -⟩ | ⟨socket, opened, -⟩
      · exact absurd unused' (reached preparing'.alone)
      · exact absurd unused' (reached opened.alone)
    · obtain ⟨frame, left, others, top, ran, frames, frames'⟩ := Stacks.step_frames stepped
      exact absurd ((exec_spec ran).1.mem_log life.accepted) (unused'.unissued id socket)
  · intro k outside
    have unused := stocked.beyond k outside
    refine unused.step stepped fun pop => ?_
    obtain ⟨frame, left, others, top, ran, frames, frames'⟩ := Stacks.step_frames stepped
    rw [popped, top] at pop
    obtain ⟨sock, rest, -, -, free, -⟩ := exec_pop ran pop
    have none := stocked.unused k unused
    rw [if_neg (Nat.not_lt.mpr outside), free, List.count_cons_self] at none
    cases none

/-- The ids in the log, the last one first. -/
def issuedIds (log : List Event) : List ℤ :=
  log.filterMap fun
    | .accepted id _ _ => some id
    | _ => none

theorem mem_issuedIds {log : List Event} {x : ℤ} : x ∈ issuedIds log ↔ ∃ j sock, .accepted x j sock ∈ log := by
  rw [issuedIds, List.mem_filterMap]
  constructor
  · rintro ⟨event, member, same⟩
    cases event with
    | accepted id j sock =>
      obtain rfl : id = x := Option.some.inj same
      exact ⟨j, sock, member⟩
    | _ => cases same
  · rintro ⟨j, sock, member⟩
    exact ⟨_, member, rfl⟩

/-- Every id is issued after all smaller ones. -/
theorem Issued.increasing (issued : Issued m) (sorted : (issuedIds m.shared.log).Pairwise (· > ·))
    (stepped : CLockFreeCore.step m label = some next) : (issuedIds next.shared.log).Pairwise (· > ·) := by
  obtain ⟨frame, left, others, top, ran, frames, frames'⟩ := Stacks.step_frames stepped
  rcases (exec_spec ran).1.log with same | ⟨event, records, grown⟩
  · rwa [same]
  · rw [grown]
    cases event with
    | accepted x j sock =>
      obtain ⟨rfl, rfl⟩ := records
      refine List.pairwise_cons.mpr ⟨fun y member => ?_, sorted⟩
      obtain ⟨j, sock, accepted⟩ := mem_issuedIds.mp member
      exact issued.fresh frames accepted
    | _ => exact sorted

/-- The slots are shared out between the free list and the session table. -/
structure Consistent (s : CLockFreeCore) (sessionMax : ℕ) : Prop where
  placed : ∀ k < sessionMax,
    (s.m_sessionFreeList.count k = 1 ∧ ∀ id, s.m_sessionMap.lookup id ≠ some k) ∨
      s.m_sessionFreeList.count k = 0 ∧ ∃! id, s.m_sessionMap.lookup id = some k
  freed : ∀ k ∈ s.m_sessionFreeList, k < sessionMax
  listed : ∀ id k, s.m_sessionMap.lookup id = some k → k < sessionMax ∧ (s.slots k).m_sessionId = id

/-- So the sessions and the free slots add up to all slots. -/
theorem Consistent.count {s : CLockFreeCore} {sessionMax : ℕ} (consistent : Consistent s sessionMax) :
    s.getSessionCount + s.m_sessionFreeList.length = sessionMax := by
  have nodup : s.m_sessionFreeList.Nodup := by
    rw [List.nodup_iff_count_le_one]
    intro k
    by_cases member : k ∈ s.m_sessionFreeList
    · rcases consistent.placed k (consistent.freed k member) with ⟨once, -⟩ | ⟨none, -⟩ <;> omega
    · rw [List.count_eq_zero.mpr member]
      exact Nat.zero_le 1
  have free : s.m_sessionFreeList.toFinset = (Finset.range sessionMax).filter (· ∈ s.m_sessionFreeList) := by
    ext k
    simp only [List.mem_toFinset, Finset.mem_filter, Finset.mem_range]
    exact ⟨fun member => ⟨consistent.freed k member, member⟩, And.right⟩
  have used : s.m_sessionMap.keys.card = ((Finset.range sessionMax).filter (· ∉ s.m_sessionFreeList)).card := by
    refine Finset.card_bij (fun id _ => (s.m_sessionMap.lookup id).getD 0) ?_ ?_ ?_
    · intro id member
      obtain ⟨k, found⟩ := Finmap.mem_iff.mp (Finmap.mem_keys.mp member)
      obtain ⟨inside, -⟩ := consistent.listed id k found
      rw [found, Option.getD_some, Finset.mem_filter, Finset.mem_range]
      refine ⟨inside, fun free => ?_⟩
      rcases consistent.placed k inside with ⟨-, unlisted⟩ | ⟨none, -⟩
      · exact unlisted id found
      · exact List.count_eq_zero.mp none free
    · intro id member id' member' same
      obtain ⟨k, found⟩ := Finmap.mem_iff.mp (Finmap.mem_keys.mp member)
      obtain ⟨k', found'⟩ := Finmap.mem_iff.mp (Finmap.mem_keys.mp member')
      rw [found, found', Option.getD_some, Option.getD_some] at same
      subst same
      exact (consistent.listed id k found).2.symm.trans (consistent.listed id' k found').2
    · intro k member
      obtain ⟨inside, unfree⟩ := Finset.mem_filter.mp member
      rcases consistent.placed k (Finset.mem_range.mp inside) with ⟨once, -⟩ | ⟨-, id, found, -⟩
      · exact absurd (List.count_pos_iff.mp (by omega)) unfree
      · exact ⟨id, Finmap.mem_keys.mpr (Finmap.mem_iff.mpr ⟨k, found⟩), by rw [found]; rfl⟩
  have split := Finset.card_filter_add_card_filter_not (s := Finset.range sessionMax) (· ∈ s.m_sessionFreeList)
  rw [← free, List.toFinset_card_of_nodup nodup, ← used, Finset.card_range] at split
  rw [getSessionCount]
  omega

/-- Without a pointer to the slot a thread does not tear it down. -/
theorem among_tearing_of_outside {id : ℤ} (outside : ∀ frame ∈ m.frames, frame.slot = none) :
    (whole m k id).among .tearing = 0 := by
  rw [among_tearing, List.countP_eq_zero]
  intro frame member tearing
  have away := outside frame member
  cases frame with
  | worker session pc | recvPost session pc | sendPost session pc | removeSession session cause pc => cases away
  | findRemove x mark cause => simp at tearing
  | _ => cases tearing

/-- While no thread is inside with the slot, it is on the free list exactly when it is torn down. -/
theorem Lifetime.count_free {id : ℤ} {socket before : ℕ} (life : Lifetime m k id socket before)
    (outside : ∀ frame ∈ m.frames, frame.slot = none) :
    m.shared.m_sessionFreeList.count k = (m.shared.slots k).m_isTornDown.toNat := by
  have claimed : (whole m k id).claims = before + if (m.shared.slots k).m_isTornDown then 1 else 0 :=
    life.alive.sound.claimed
  have released : before + (whole m k id).among .tearing + m.shared.m_sessionFreeList.count k =
      (whole m k id).claims := life.alive.sound.released
  rw [among_tearing_of_outside outside] at released
  cases torn : (m.shared.slots k).m_isTornDown <;> simp [torn] at claimed ⊢ <;> omega

/-- While no thread is inside with the slot, its session is in the table until it is torn down. -/
theorem Lifetime.lookup_iff {id : ℤ} {socket before : ℕ} (life : Lifetime m k id socket before)
    (outside : ∀ frame ∈ m.frames, frame.slot = none) (x : ℤ) :
    m.shared.m_sessionMap.lookup x = some k ↔ x = id ∧ (m.shared.slots k).m_isTornDown = false := by
  have free := life.count_free outside
  constructor
  · intro found
    obtain rfl := life.named x found
    refine ⟨rfl, Bool.eq_false_iff.mpr fun torn => ?_⟩
    rw [torn] at free
    have gone := (life.ended (List.count_pos_iff.mp (free ▸ Nat.one_pos))).1
    rw [gone] at found
    cases found
  · rintro ⟨rfl, torn⟩
    refine life.listed.resolve_right fun gone => ?_
    rw [torn] at gone
    cases gone.2

/-- While no thread has a pointer to a slot, every slot is free or in the table. -/
theorem Stocked.consistent {sessionMax : ℕ} (stocked : Stocked m sessionMax) (reported : ∀ k, Reported m seen k)
    (outside : ∀ frame ∈ m.frames, frame.slot = none) : Consistent m.shared sessionMax := by
  have within (k : ℕ) (used : ¬ Unused m k) : k < sessionMax := by
    by_contra beyond
    exact used (stocked.beyond k (Nat.not_lt.mp beyond))
  constructor
  · intro k inside
    rcases reported k with unused | ⟨last, preparing, -⟩ | ⟨id, socket, before, life, -⟩
    · left
      rw [stocked.unused k unused, if_pos inside]
      exact ⟨rfl, unused.unlisted⟩
    · obtain ⟨member, here⟩ := preparing.mem
      rw [outside last member] at here
      cases here
    · have free := life.count_free outside
      have listed := life.lookup_iff outside
      cases torn : (m.shared.slots k).m_isTornDown with
      | true =>
        left
        simp only [torn, Bool.toNat_true] at free listed
        exact ⟨free, fun x found => Bool.noConfusion ((listed x).mp found).2⟩
      | false =>
        right
        simp only [torn, Bool.toNat_false] at free listed
        exact ⟨free, id, (listed id).mpr ⟨rfl, trivial⟩, fun x found => ((listed x).mp found).1⟩
  · intro k member
    by_contra beyond
    have none := stocked.unused k (stocked.beyond k (Nat.not_lt.mp beyond))
    rw [if_neg beyond] at none
    exact List.count_eq_zero.mp none member
  · intro x k found
    rcases reported k with unused | ⟨last, preparing, -⟩ | ⟨id, socket, before, life, -⟩
    · exact absurd found (unused.unlisted x)
    · exact absurd found (preparing.unlisted x)
    · exact ⟨within k fun unused => unused.unissued id socket life.accepted,
        life.owner.trans (life.named x found).symm⟩

/-- While no thread has a pointer to a slot, `onClientLeave` has been called once for each session that
is not in the table any more, and for no other. -/
theorem Reported.count {socket : ℕ} {id : ℤ} (reported : Reported m seen k) (issued : Issued m)
    (named : ∀ x j, m.shared.m_sessionMap.lookup x = some j → (m.shared.slots j).m_sessionId = x)
    (outside : ∀ frame ∈ m.frames, frame.slot = none) (accepted : .accepted id k socket ∈ m.shared.log) :
    seen.count id = if m.shared.m_sessionMap.lookup id = none then 1 else 0 := by
  have place (j : ℕ) (found : m.shared.m_sessionMap.lookup id = some j) : j = k := by
    have accepted := accepted
    rw [← named id j found] at accepted
    exact (issued.slot_of_owner (.inr (.inr ⟨id, found⟩)) accepted).symm
  have gone (unlisted : m.shared.m_sessionMap.lookup id ≠ some k) : m.shared.m_sessionMap.lookup id = none := by
    cases found : m.shared.m_sessionMap.lookup id with
    | none => rfl
    | some j => exact absurd (place j found ▸ found) unlisted
  rcases reported with unused | ⟨last, preparing, -⟩ | ⟨current, sock, before, life, earlier, own⟩
  · exact absurd accepted (unused.unissued id socket)
  · obtain ⟨member, here⟩ := preparing.mem
    rw [outside last member] at here
    cases here
  · have listed := life.lookup_iff outside id
    by_cases same : id = current
    · subst same
      have idle : m.frames.countP (Frame.clears k) = 0 := by
        rw [List.countP_eq_zero]
        intro frame member clears
        have away := outside frame member
        rw [Frame.slot_of_clears clears] at away
        cases away
      rw [idle] at own
      cases torn : (m.shared.slots k).m_isTornDown with
      | true =>
        rw [torn] at own listed
        rw [if_pos (gone fun found => Bool.noConfusion (listed.mp found).2)]
        exact own
      | false =>
        rw [torn] at own listed
        rw [listed.mpr ⟨rfl, rfl⟩, if_neg nofun]
        exact own
    · rw [earlier id socket accepted same, if_pos (gone fun found => same (listed.mp found).1)]

/-- What holds of the pool in a run without interruption, `seen` the ids that `onClientLeave` has been
called with. -/
structure Pooled (m : Machine) (seen : List ℤ) (sessionMax : ℕ) : Prop where
  issued : Issued m
  stocked : Stocked m sessionMax
  reported : ∀ k, Reported m seen k
  known : ∀ y ∈ seen, ∃ j sock, .accepted y j sock ∈ m.shared.log
  sorted : (issuedIds m.shared.log).Pairwise (· > ·)
  nested : ∀ stack ∈ m.threads, Nested stack

theorem Stocked.start (slots : ℕ → Session) (sessionMax workerMax apps : ℕ) :
    Stocked (start slots sessionMax workerMax apps) sessionMax := by
  constructor
  · intro k _
    have total : (CLockFreeCore.start slots sessionMax workerMax apps).shared.m_sessionFreeList.count k =
        (List.range sessionMax).count k := List.count_reverse
    rw [total]
    split
    · rename_i inside
      exact List.count_eq_one_of_mem List.nodup_range (List.mem_range.mpr inside)
    · rename_i outside
      exact List.count_eq_zero.mpr fun member => outside (List.mem_range.mp member)
  · exact fun k _ => Unused.start slots sessionMax workerMax apps k

theorem Pooled.start (slots : ℕ → Session) (sessionMax workerMax apps : ℕ) :
    Pooled (start slots sessionMax workerMax apps) [] sessionMax where
  issued := Issued.start slots sessionMax workerMax apps
  stocked := Stocked.start slots sessionMax workerMax apps
  reported k := .inl (Unused.start slots sessionMax workerMax apps k)
  known := nofun
  sorted := List.Pairwise.nil
  nested := nested_start slots sessionMax workerMax apps

/-- `onClientLeave` is called with an id that was issued. -/
theorem Issued.known_of_leaving (issued : Issued m) {x : ℤ} (leaves : leaving m label = some x) :
    ∃ j sock, .accepted x j sock ∈ m.shared.log := by
  obtain ⟨session, cause, top, rfl⟩ := leaving_spec leaves
  have refers : Refers m session.slot := .inl ⟨_, Stacks.mem_frames_of_top top, session, rfl, rfl⟩
  obtain ⟨y, sock, accepted⟩ := issued.known session.slot refers
  obtain ⟨sock, owned⟩ := issued.owner y session.slot sock accepted
  exact ⟨session.slot, sock, owned⟩

theorem Pooled.step {sessionMax : ℕ} (pooled : Pooled m seen sessionMax)
    (uninterrupted : Uninterrupted m label) (stepped : CLockFreeCore.step m label = some next) :
    Pooled next (seen ++ (leaving m label).toList) sessionMax where
  issued := pooled.issued.step stepped
  stocked := pooled.stocked.step pooled.reported stepped
  reported k := (pooled.reported k).step pooled.issued pooled.known stepped
    (uninterrupted.not_overtakes pooled.nested k)
  known := by
    obtain ⟨frame, left, others, top, ran, frames, frames'⟩ := Stacks.step_frames stepped
    intro y member
    have earlier : ∃ j sock, .accepted y j sock ∈ m.shared.log := by
      rcases List.mem_append.mp member with old | called
      · exact pooled.known y old
      · exact pooled.issued.known_of_leaving (Option.mem_toList.mp called)
    obtain ⟨j, sock, accepted⟩ := earlier
    exact ⟨j, sock, (exec_spec ran).1.mem_log accepted⟩
  sorted := pooled.issued.increasing pooled.sorted stepped
  nested := nested_step pooled.nested stepped

theorem Pooled.run {slots : ℕ → Session} {sessionMax workerMax apps : ℕ} {labels : List (ℕ × Input)}
    {target : Machine}
    (uninterrupted : Along CLockFreeCore.step Uninterrupted (CLockFreeCore.start slots sessionMax workerMax apps) labels)
    (run : replay CLockFreeCore.step (CLockFreeCore.start slots sessionMax workerMax apps) labels = some target) :
    Pooled target
      (observed CLockFreeCore.step leaving (CLockFreeCore.start slots sessionMax workerMax apps) labels) sessionMax :=
  invariant_observed (fun m seen => Pooled m seen sessionMax)
    (fun _ _ _ _ pooled clean stepped => pooled.step clean stepped)
    (Pooled.start slots sessionMax workerMax apps) uninterrupted run

/-- A client is turned away for want of a slot exactly when the free list is empty. -/
theorem asked_closed {socket : ℕ} (top : m.top label.1 = some (.asked socket)) (wanted : label.2 ≠ .refuse)
    (stepped : CLockFreeCore.step m label = some next) :
    next.shared.log = .closed socket :: m.shared.log ↔ m.shared.m_sessionFreeList = [] := by
  obtain ⟨frame, left, others, here, ran, -, -⟩ := Stacks.step_frames stepped
  obtain rfl : .asked socket = frame := Option.some.inj (top.symm.trans here)
  cases free : m.shared.m_sessionFreeList with
  | nil =>
    simp only [exec, asked, free] at ran
    obtain ⟨shared, -⟩ := Prod.mk.inj (Option.some.inj ran)
    simp [← shared]
  | cons slot rest =>
    simp only [exec, asked, free] at ran
    obtain ⟨shared, -⟩ := Prod.mk.inj (Option.some.inj ran)
    simp [← shared]

/-- In a run without interruption the slots stay shared out between the free list and the table, ids
are issued in increasing order, `onClientLeave` is called once for each removed session, and a client
is turned away for want of a slot exactly when all are in use. -/
theorem sessions_consistent {slots : ℕ → Session} {sessionMax workerMax apps : ℕ}
    {labels : List (ℕ × Input)} {target : Machine}
    (uninterrupted : Along CLockFreeCore.step Uninterrupted (start slots sessionMax workerMax apps) labels)
    (run : replay CLockFreeCore.step (start slots sessionMax workerMax apps) labels = some target) :
    ((∀ stack ∈ target.threads, AtRest stack) →
      Consistent target.shared sessionMax ∧
      target.shared.getSessionCount + target.shared.m_sessionFreeList.length = sessionMax ∧
      (∀ id k socket, .accepted id k socket ∈ target.shared.log →
        (observed CLockFreeCore.step leaving (start slots sessionMax workerMax apps) labels).count id =
          if target.shared.m_sessionMap.lookup id = none then 1 else 0) ∧
      ∀ id ∈ observed CLockFreeCore.step leaving (start slots sessionMax workerMax apps) labels,
        ∃ k socket, .accepted id k socket ∈ target.shared.log) ∧
    (issuedIds target.shared.log).Pairwise (· > ·) ∧
    ∀ label next socket, Uninterrupted target label → target.top label.1 = some (.asked socket) →
      label.2 ≠ .refuse → CLockFreeCore.step target label = some next →
      (next.shared.log = .closed socket :: target.shared.log ↔ target.shared.getSessionCount = sessionMax) := by
  have pooled := Pooled.run uninterrupted run
  refine ⟨fun resting => ?_, pooled.sorted, fun label next socket clean top wanted stepped => ?_⟩
  · have outside (frame : Frame) (member : frame ∈ target.frames) : frame.slot = none := by
      obtain ⟨stack, inside, member⟩ := List.mem_flatten.mp member
      exact ((resting stack inside).slot member).1
    have consistent := pooled.stocked.consistent pooled.reported outside
    refine ⟨consistent, consistent.count, fun id k socket accepted => ?_, pooled.known⟩
    exact (pooled.reported k).count pooled.issued (fun x j found => (consistent.listed x j found).2)
      outside accepted
  · have outside := clean.slot_of_asked pooled.nested top
    have total := (pooled.stocked.consistent pooled.reported outside).count
    rw [asked_closed top wanted stepped, ← List.length_eq_zero_iff]
    omega

theorem sessions_consistent_peerCloses :
    let source := start (fun _ => unwritten) 1 1 1
    let target := (replay CLockFreeCore.step source (acceptsFirst ++ peerCloses)).get (by decide)
    Consistent target.shared 1 ∧
      ∀ id k socket, .accepted id k socket ∈ target.shared.log →
        (observed CLockFreeCore.step leaving source (acceptsFirst ++ peerCloses)).count id =
          if target.shared.m_sessionMap.lookup id = none then 1 else 0 :=
  have all := @sessions_consistent (fun _ => unwritten) 1 1 1 (acceptsFirst ++ peerCloses) _ (by decide)
    (Option.some_get (by decide)).symm
  have resting := all.1 (by decide)
  ⟨resting.1, resting.2.2.1⟩

end Runs

end LockFreeCore.CLockFreeCore
