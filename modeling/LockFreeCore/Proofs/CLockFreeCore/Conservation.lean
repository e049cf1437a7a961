import LockFreeCore.Proofs.CLockFreeCore.Claims
import LockFreeCore.Proofs.CLockFreeCore.Recycling

/-! # Slots, sockets and ids are conserved

In every run, also in those in which a slot is popped while threads still have pointers to it.
-/

namespace LockFreeCore.CLockFreeCore

open Lending Replay

/-- What holds in every state: a slot that does not serve is torn down, or has never served. -/
structure Conserved (sessionMax : ℕ) (m : Machine) : Prop where
  issued : Issued m
  sound : Sound (.range sessionMax) (lent m.shared m.frames)
  accepting : ∀ client socket pc, .accepting client socket pc ∈ m.frames →
    (m.shared.slots client.slot).m_sessionId = client.id ∧
      (1 < pc.stage → (m.shared.slots client.slot).m_socket = socket)
  phase : ∀ k, serves m.shared m.frames k ∨ (m.shared.slots k).m_isTornDown ∨ Unused m k ∨
    ∃ frame, Preparing m k frame

section Runs

variable {m next : Machine} {label : ℕ × Input} {k sessionMax : ℕ}

theorem accepts_of_mem {log : List Event} {id : ℤ} {socket : ℕ} (accepted : .accepted id k socket ∈ log) :
    log.any (Event.accepts k) :=
  List.any_eq_true.mpr ⟨_, accepted, decide_eq_true rfl⟩

theorem serves_iff {s : CLockFreeCore} {frames : List Frame} : serves s frames k ↔
    (s.slots k).m_isTornDown = false ∧ (∃ id socket, .accepted id k socket ∈ s.log) ∧
      ∀ frame ∈ frames, ¬ frame.prepares k := by
  have accepted : s.log.any (Event.accepts k) ↔ ∃ id socket, .accepted id k socket ∈ s.log := by
    constructor
    · intro accepts
      obtain ⟨event, member, accepts⟩ := List.any_eq_true.mp accepts
      cases event with
      | accepted id slot socket =>
        obtain rfl : slot = k := of_decide_eq_true accepts
        exact ⟨id, socket, member⟩
      | _ => cases accepts
    · rintro ⟨id, socket, member⟩
      exact accepts_of_mem member
  simp [serves, accepted, and_assoc]

theorem Conserved.accepts (conserved : Conserved sessionMax m) (refers : Refers m k) :
    m.shared.log.any (Event.accepts k) := by
  obtain ⟨id, socket, accepted⟩ := conserved.issued.known k refers
  exact accepts_of_mem accepted

/-- Every access is a step of the lending, or nothing. -/
theorem Conserved.moves (conserved : Conserved sessionMax m) (stepped : step m label = some next) :
    lent next.shared next.frames = lent m.shared m.frames ∨
      Step (lent m.shared m.frames) (lent next.shared next.frames) := by
  obtain ⟨frame, left, others, -, ran, frames, frames'⟩ := Stacks.step_frames stepped
  have here : frame ∈ m.frames := frames.mem_iff.mpr List.mem_cons_self
  have sound := conserved.sound
  rw [lent_perm frames] at sound ⊢
  rw [lent_perm frames']
  cases frame with
  | accept => exact accept_lent ran
  | asked socket => exact .inr (asked_lent sound ran)
  | issue slot socket => exact .inr (issue_lent sound ran)
  | accepting client socket pc =>
    obtain ⟨owner, connected⟩ := conserved.accepting client socket pc here
    exact accepting_lent sound (conserved.accepts (.inl ⟨_, here, client, rfl, rfl⟩)) owner connected ran
  | removeSession session cause pc =>
    refine removeSession_lent sound (fun swaps live => ?_) ran
    have serving : serves m.shared m.frames session.slot := by
      rcases conserved.phase session.slot with serving | torn | unused | ⟨last, preparing⟩
      · exact serving
      · exact absurd (live.symm.trans torn) Bool.false_ne_true
      · exact absurd rfl (unused.unreached _ here)
      · obtain rfl := eq_of_alone preparing.alone here rfl
        exact preparing.prepared.elim
    rwa [← serves_perm frames]
  | _ =>
    refine .inl (other_lent (by simp [Frame.isAcceptor]) (fun session cause pc same => ?_) ran)
    cases same

/-- The accept thread is the only one that writes the id and the socket of a slot. -/
theorem Conserved.accepting_step (conserved : Conserved sessionMax m) (stepped : CLockFreeCore.step m label = some next)
    (client : Handle) (socket : ℕ) (pc : AcceptPc) (member : .accepting client socket pc ∈ next.frames) :
    (next.shared.slots client.slot).m_sessionId = client.id ∧
      (1 < pc.stage → (next.shared.slots client.slot).m_socket = socket) := by
  obtain ⟨frame, left, others, -, ran, frames, frames'⟩ := Stacks.step_frames stepped
  obtain ⟨changes, leaves⟩ := exec_spec ran
  have here : frame ∈ m.frames := frames.mem_iff.mpr List.mem_cons_self
  rcases List.mem_append.mp (frames'.mem_iff.mp member) with member | member
  · rcases leaves _ member with ⟨rfl, fresh, rfl⟩ | ⟨last, rfl, follows⟩
    · exact ⟨(issue_id ran).trans fresh.symm, fun late => absurd late (by decide)⟩
    · obtain ⟨owner, connected⟩ := conserved.accepting client socket last here
      constructor
      · rcases changes.id client.slot with same | ⟨⟨sock, issues⟩, -⟩
        · rw [same, owner]
        · cases issues
      · intro late
        by_cases writes : last = .socket
        · subst writes
          have written : (next.shared.slots client.slot).m_socket = socket := by
            rw [← congrArg (fun r => r.1.slots) (Option.some.inj ran)]
            simp
          exact written
        · rcases changes.socket client.slot with same | ⟨session, sock, last_socket, -⟩
          · rw [same]
            apply connected
            rw [AcceptPc.stage_next follows] at late
            cases last <;> simp_all [AcceptPc.stage]
          · cases last_socket
            exact absurd rfl writes
  · obtain ⟨owner, connected⟩ :=
      conserved.accepting client socket pc (frames.mem_iff.mpr (List.mem_cons_of_mem _ member))
    have other : ¬ frame.isAcceptor := fun acceptor => conserved.issued.alone frames acceptor _ member rfl
    constructor
    · rcases changes.id client.slot with same | ⟨⟨sock, rfl⟩, -⟩
      · rw [same, owner]
      · exact absurd rfl other
    · intro late
      rcases changes.socket client.slot with same | ⟨session, sock, rfl, -⟩
      · rw [same, connected late]
      · exact absurd rfl other

/-- A slot that serves goes on serving, or is torn down. -/
theorem serves_step (sound : Sound (.range sessionMax) (lent m.shared m.frames)) (serving : serves m.shared m.frames k)
    (stepped : step m label = some next) :
    serves next.shared next.frames k ∨ (next.shared.slots k).m_isTornDown := by
  obtain ⟨frame, left, others, -, ran, frames, frames'⟩ := Stacks.step_frames stepped
  obtain ⟨changes, -⟩ := exec_spec ran
  obtain ⟨-, ⟨id, socket, accepted⟩, unprepared⟩ := serves_iff.mp serving
  have taken := (alone_of_serves sound serving).1
  cases torn : (next.shared.slots k).m_isTornDown with
  | true => exact .inr rfl
  | false =>
    refine .inl (serves_iff.mpr ⟨torn, ⟨id, socket, changes.mem_log accepted⟩, ?_⟩)
    have stays : pops m.shared frame label.2 ≠ some k := by
      intro pop
      obtain ⟨sock, rest, -, -, free, -⟩ := exec_pop ran pop
      rw [free, List.count_cons_self] at taken
      cases taken
    intro f member
    rcases List.mem_append.mp (frames'.mem_iff.mp member) with member | member
    · exact exec_prepares ran (unprepared frame (frames.mem_iff.mpr List.mem_cons_self)) stays f member
    · exact unprepared f (frames.mem_iff.mpr (List.mem_cons_of_mem _ member))

/-- A slot that is torn down stays so, until `acceptThread` has it serve again. -/
theorem torn_step (conserved : Conserved sessionMax m) (torn : (m.shared.slots k).m_isTornDown)
    (stepped : step m label = some next) :
    serves next.shared next.frames k ∨ (next.shared.slots k).m_isTornDown := by
  obtain ⟨frame, left, others, -, ran, frames, frames'⟩ := Stacks.step_frames stepped
  obtain ⟨changes, -⟩ := exec_spec ran
  rcases changes.torn k torn with torn | ⟨client, socket, rfl, rfl⟩
  · exact .inr torn
  · left
    have sound := conserved.sound
    rw [lent_perm frames] at sound
    have here : .accepting client socket .tornDown ∈ m.frames := frames.mem_iff.mpr List.mem_cons_self
    rw [serves_perm frames']
    exact serves_of_reset sound (conserved.accepts (.inl ⟨_, here, client, rfl, rfl⟩)) ran

theorem Opened.serves {id : ℤ} {socket : ℕ} (opened : Opened m k id socket) : serves m.shared m.frames k := by
  refine serves_iff.mpr ⟨opened.tornDown, ⟨id, socket, opened.accepted⟩, ?_⟩
  intro frame member prepares
  obtain rfl := eq_of_alone opened.alone member (frame.slot_of_prepares prepares)
  simp [Frame.prepares] at prepares

theorem Conserved.step (conserved : Conserved sessionMax m) (stepped : CLockFreeCore.step m label = some next) :
    Conserved sessionMax next := by
  refine ⟨conserved.issued.step stepped, ?_, conserved.accepting_step stepped, fun k => ?_⟩
  · rcases conserved.moves stepped with same | moved
    · rw [same]
      exact conserved.sound
    · exact conserved.sound.step moved
  · rcases conserved.phase k with serving | torn | unused | ⟨frame, preparing⟩
    · exact (serves_step conserved.sound serving stepped).imp_right .inl
    · exact (torn_step conserved torn stepped).imp_right .inl
    · by_cases pop : popped m label = some k
      · obtain ⟨sock, preparing⟩ := unused.pop stepped pop
        exact .inr (.inr (.inr ⟨_, preparing⟩))
      · exact .inr (.inr (.inl (unused.step stepped pop)))
    · rcases preparing.step stepped with ⟨last, preparing, -⟩ | ⟨socket, opened, -⟩
      · exact .inr (.inr (.inr ⟨last, preparing⟩))
      · exact .inl opened.serves

end Runs

section Start

variable (slots : ℕ → Session) (sessionMax workerMax apps : ℕ)

theorem idle_start {frame : Frame} (member : frame ∈ (start slots sessionMax workerMax apps).frames) :
    (∀ s k, frame.claim s k = none) ∧ frame.waiting = none := by
  rcases mem_frames_start _ _ _ _ member with rfl | rfl | rfl <;> exact ⟨fun _ _ => rfl, rfl⟩

theorem claims_start (k : ℕ) :
    claims (start slots sessionMax workerMax apps).shared (start slots sessionMax workerMax apps).frames k =
      if k < sessionMax then {.free} else 0 := by
  have unclaimed : (start slots sessionMax workerMax apps).frames.filterMap
      (Frame.claim (start slots sessionMax workerMax apps).shared k) = [] :=
    List.filterMap_eq_nil_iff.mpr fun frame member => (idle_start _ _ _ _ member).1 _ k
  have idle : serves (start slots sessionMax workerMax apps).shared
      (start slots sessionMax workerMax apps).frames k = false := by simp [serves, start]
  rw [claims, unclaimed, idle]
  by_cases inside : k < sessionMax
  · simp [start, inside, List.count_eq_one_of_mem List.nodup_range]
  · simp [start, inside]

/-- At the start every slot is free. -/
theorem sound_start : Sound (.range sessionMax) (lent (start slots sessionMax workerMax apps).shared
    (start slots sessionMax workerMax apps).frames) := by
  have waiting : (start slots sessionMax workerMax apps).frames.filterMap Frame.waiting = [] :=
    List.filterMap_eq_nil_iff.mpr fun frame member => (idle_start _ _ _ _ member).2
  have nothing {β : Type} (has : Claim ℤ ℕ → Multiset β) (free : has .free = 0) :
      holdings has (.range sessionMax) (claims (start slots sessionMax workerMax apps).shared
        (start slots sessionMax workerMax apps).frames) = 0 := by
    apply Finset.sum_eq_zero
    intro k inside
    rw [claims_start, if_pos (Finset.mem_range.mp inside)]
    simpa using free
  refine ⟨fun k => ?_, ?_, ?_⟩
  · simp only [lent, claims_start]
    by_cases inside : k < sessionMax <;> simp [inside]
  · simp only [lent, nothing Claim.resources rfl, waiting]
    simp [closedSockets, start]
  · simp only [lent, nothing Claim.names rfl]
    simp [issuedIds, endedIds, start]

theorem Conserved.start : Conserved sessionMax (start slots sessionMax workerMax apps) := by
  refine ⟨.start .., sound_start .., ?_, fun k => .inr (.inr (.inl (.start _ _ _ _ k)))⟩
  intro client socket pc member
  rcases mem_frames_start _ _ _ _ member with same | same | same <;> cases same

end Start

section Rest

variable {s : CLockFreeCore} {frames : List Frame} {sessionMax : ℕ}

theorem card_serves : ((Finset.range sessionMax).filter (serves s frames ·)).card =
    ∑ k ∈ Finset.range sessionMax, (serves s frames k).toNat := by
  rw [Finset.card_filter]
  exact Finset.sum_congr rfl fun k _ => by cases serves s frames k <;> rfl

/-- While no thread has a claim, the slots are those on the free list and those that serve. -/
theorem slots_at_rest (sound : Sound (.range sessionMax) (lent s frames))
    (unclaimed : ∀ k ∈ Finset.range sessionMax, frames.filterMap (Frame.claim s k) = []) :
    s.m_sessionFreeList.length + ((Finset.range sessionMax).filter (serves s frames ·)).card = sessionMax := by
  have one (k : ℕ) : (claims s frames k).card = if k ∈ Finset.range sessionMax then 1 else 0 := sound.one k
  have inside (k : ℕ) (member : k ∈ (s.m_sessionFreeList : Multiset ℕ)) : k ∈ Finset.range sessionMax := by
    by_contra outside
    have none := one k
    have positive := List.count_pos_iff.mpr (Multiset.mem_coe.mp member)
    rw [if_neg outside, card_claims] at none
    omega
  have shared (k : ℕ) (inside : k ∈ Finset.range sessionMax) :
      (s.m_sessionFreeList : Multiset ℕ).count k + (serves s frames k).toNat = 1 := by
    have one := one k
    rw [card_claims, unclaimed k inside, if_pos inside] at one
    rw [Multiset.coe_count]
    exact one
  rw [card_serves, ← Multiset.coe_card, ← Multiset.sum_count_eq_card inside, ← Finset.sum_add_distrib,
    Finset.sum_congr rfl shared, ← Finset.card_eq_sum_ones, Finset.card_range]

/-- While no thread has a claim or a new socket, the open sockets are as many as the slots that serve. -/
theorem sockets_at_rest (sound : Sound (.range sessionMax) (lent s frames))
    (unclaimed : ∀ k ∈ Finset.range sessionMax, frames.filterMap (Frame.claim s k) = [])
    (waiting : frames.filterMap Frame.waiting = []) :
    (closedSockets s.log).length + ((Finset.range sessionMax).filter (serves s frames ·)).card = s.sockets := by
  have of_slots : (holdings Claim.resources (.range sessionMax) (claims s frames)).card =
      ∑ k ∈ Finset.range sessionMax, (serves s frames k).toNat := by
    rw [holdings, Multiset.card_sum]
    refine Finset.sum_congr rfl fun k inside => ?_
    cases serving : serves s frames k <;> simp [claims, unclaimed k inside, serving, Claim.resources]
  have all := congrArg Multiset.card sound.resources
  simp only [lent, waiting, Multiset.card_add, of_slots, Multiset.coe_card, Multiset.card_range,
    List.length_nil, Nat.zero_add] at all
  rw [card_serves, Nat.add_comm]
  exact all

end Rest

/-- Whatever the threads do, and however long they keep their pointers, the run is a run of the lending,
with one claim to each slot and no socket and no id lost. So no slot is free twice, no socket is closed
twice and no id is torn down twice; and whenever no thread is in between, every slot that is not free
serves, and no other socket is open. -/
theorem slots_conserved {slots : ℕ → Session} {sessionMax workerMax apps : ℕ} {labels : List (ℕ × Input)}
    {m : Machine} (run : replay step (start slots sessionMax workerMax apps) labels = some m) :
    Relation.ReflTransGen Step (lent (start slots sessionMax workerMax apps).shared
      (start slots sessionMax workerMax apps).frames) (lent m.shared m.frames) ∧
    Sound (.range sessionMax) (lent m.shared m.frames) ∧
    m.shared.m_sessionFreeList.Nodup ∧ (closedSockets m.shared.log).Nodup ∧ (endedIds m.shared.log).Nodup ∧
    ((∀ frame ∈ m.frames, frame.waiting = none ∧ ∀ k < sessionMax, frame.claim m.shared k = none) →
      m.shared.m_sessionFreeList.length +
        ((Finset.range sessionMax).filter (serves m.shared m.frames ·)).card = sessionMax ∧
      (closedSockets m.shared.log).length +
        ((Finset.range sessionMax).filter (serves m.shared m.frames ·)).card = m.shared.sockets) := by
  obtain ⟨conserved, path⟩ := invariant_of_step
    (fun m => Conserved sessionMax m ∧ Relation.ReflTransGen Step (lent (start slots sessionMax workerMax apps).shared
      (start slots sessionMax workerMax apps).frames) (lent m.shared m.frames))
    (fun m label next ⟨conserved, path⟩ stepped => ⟨conserved.step stepped,
      (conserved.moves stepped).elim (fun same => same ▸ path) path.tail⟩)
    ⟨.start .., .refl⟩ run
  have sound := conserved.sound
  have sorted : (issuedIds m.shared.log).Pairwise (· > ·) :=
    (invariant_of_step (fun m => Issued m ∧ (issuedIds m.shared.log).Pairwise (· > ·))
      (fun _ _ _ holds stepped => ⟨holds.1.step stepped, holds.1.increasing holds.2 stepped⟩)
      ⟨.start .., .nil⟩ run).2
  refine ⟨path, sound, ?_, ?_, ?_, fun rest => ?_⟩
  · rw [List.nodup_iff_count_le_one]
    intro k
    have most := claims_le_one sound k
    omega
  · exact Multiset.coe_nodup.mp (sound.nodup_returned (Multiset.nodup_range _))
  · apply Multiset.coe_nodup.mp (sound.nodup_ended _)
    exact Multiset.coe_nodup.mpr (sorted.imp fun later => ne_of_gt later)
  · have unclaimed (k : ℕ) (inside : k ∈ Finset.range sessionMax) :
        m.frames.filterMap (Frame.claim m.shared k) = [] :=
      List.filterMap_eq_nil_iff.mpr fun frame member => (rest frame member).2 k (Finset.mem_range.mp inside)
    have waiting : m.frames.filterMap Frame.waiting = [] :=
      List.filterMap_eq_nil_iff.mpr fun frame member => (rest frame member).1
    exact ⟨slots_at_rest sound unclaimed, sockets_at_rest sound unclaimed waiting⟩

/-- The paused thread goes on and tears the next session down, for which `acceptThread` has reset `m_isTornDown`,
the last thing that counts as preparing, but not yet the ring. -/
def closesNext : List (ℕ × Input) := marksNext ++ goes 2 5 ++ (2, .leave) :: goes 2 2

set_option maxRecDepth 2000 in
theorem slots_conserved_closesNext :
    let target := (replay step (start (fun _ => unwritten) 1 1 1) closesNext).get (by decide)
    closedSockets target.shared.log = [1, 0] ∧ target.shared.m_sessionFreeList = [0] ∧
      (closedSockets target.shared.log).length +
        ((Finset.range 1).filter (serves target.shared target.frames ·)).card = target.shared.sockets :=
  ⟨by decide, by decide, ((slots_conserved (Option.some_get _).symm).2.2.2.2.2 (by decide)).2⟩

end LockFreeCore.CLockFreeCore
