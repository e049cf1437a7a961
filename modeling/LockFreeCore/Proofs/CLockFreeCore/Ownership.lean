import LockFreeCore.Proofs.CLockFreeCore.SendOrder

/-! # Who has a packet

A packet that was passed to `sendPacket` is in the hands of that call, in the ring of its session, or
deleted. It is lost when its session is not in the table, and when a session is taken out of the
table with packets in its ring.
-/

namespace LockFreeCore.CLockFreeCore

open CountedClose Replay

/-- The packet that a step passes to `sendPacket`. -/
def passing (m : Machine) (label : ℕ × Input) : Option Packet :=
  match m.top label.1, label.2 with
  | some .app, .sendPacket packet => some packet
  | _, _ => none

/-- A call of `sendPacket` that has not disposed of its packet yet. -/
def Frame.carries (packet : Packet) : Frame → Bool
  | .findSend last | .drop last => last = packet
  | .sendPacket _ last pc => last = packet && pc ≠ .pending
  | _ => false

/-- The packet goes to the ring, or is deleted because there is no room. -/
def Frame.settles (packet : Packet) : Frame → Bool
  | .sendPacket _ last .enqueue | .drop last => last = packet
  | _ => false

/-- How often the packet is in the ring of the session that it was passed for. -/
def held (s : CLockFreeCore) (packet : Packet) : ℕ :=
  match s.m_sessionMap.lookup packet.addressee with
  | some k => (s.slots k).m_sendRingBuff.count ⟨packet, 0⟩
  | none => 0

/-- `sendPacket` finds no session with the id. -/
def Frame.misses (s : CLockFreeCore) (packet : Packet) : Frame → Bool
  | .findSend last => last = packet && s.m_sessionMap.lookup packet.addressee = none
  | _ => false

/-- The packets that the session has in its ring when it is taken out of the table. -/
def Frame.abandons (s : CLockFreeCore) (packet : Packet) : Frame → ℕ
  | .removeSession session _ .erase =>
    if packet.addressee = (s.slots session.slot).m_sessionId then held s packet else 0
  | _ => 0

section Specs

variable {s s' : CLockFreeCore} {frame : Frame} {left : List Frame} {input : Input} {packet : Packet}

@[simp] theorem count_pointer (packet other : Packet) :
    (pointer packet).count ⟨other, 0⟩ = if packet = other then 1 else 0 := by
  have bytes : pointer packet = [⟨packet, 0⟩, ⟨packet, 1⟩, ⟨packet, 2⟩, ⟨packet, 3⟩, ⟨packet, 4⟩, ⟨packet, 5⟩,
    ⟨packet, 6⟩, ⟨packet, 7⟩] := rfl
  rw [bytes]
  by_cases same : packet = other <;> simp [same]

theorem count_pointers (queue : List Packet) (packet : Packet) :
    (pointers queue).count ⟨packet, 0⟩ = queue.count packet := by
  induction queue with
  | nil => rfl
  | cons first queue ih =>
    rw [pointers_cons, List.count_append, count_pointer, ih, List.count_cons, Nat.add_comm]
    simp

/-- Only user code, the look-up of `sendPacket` and its look at the free size hand packets on. -/
theorem left_carries {f : Frame} (ran : exec s frame input = some (s', left)) (member : f ∈ left)
    (carries : f.carries packet) :
    frame = .app ∨ (∃ other, frame = .findSend other) ∨ ∃ session other, frame = .sendPacket session other .free := by
  have leaves := (exec_spec ran).2 f member
  cases f with
  | sendPacket session other pc =>
    rcases leaves with ⟨last, rfl⟩ | ⟨rfl, -⟩
    · cases last with
      | free => exact .inr (.inr ⟨session, other, rfl⟩)
      | enqueue =>
        cases ran
        simp only [List.mem_singleton, Frame.sendPacket.injEq] at member
        simp [Frame.carries, member] at carries
      | pending =>
        simp only [exec, sendPacket] at ran
        split_ifs at ran <;> cases ran <;> simp at member
    · exact .inr (.inl ⟨other, rfl⟩)
  | findSend other | drop other =>
    cases frame with
    | app => exact .inl rfl
    | findSend other => exact .inr (.inl ⟨other, rfl⟩)
    | sendPacket session other pc =>
      cases pc with
      | free => exact .inr (.inr ⟨session, other, rfl⟩)
      | enqueue =>
        cases ran
        simp at member
      | pending =>
        simp only [exec, sendPacket] at ran
        split_ifs at ran <;> cases ran <;> simp at member
    | accept => cases input <;> cases ran <;> simp at member
    | asked socket =>
      simp only [exec, asked] at ran
      split at ran
      · cases ran
        simp at member
      · split at ran <;> cases ran <;> simp at member
    | accepting client socket pc => cases pc <;> cases ran <;> simp at member
    | getStatus =>
      cases input with
      | complete index cbTransferred =>
        obtain ⟨io, -, completed⟩ := Option.map_eq_some_iff.mp ran
        split_ifs at completed
        · cases completed
          simp at member
        · split at completed <;> cases completed <;> simp at member
      | _ => cases ran
    | worker client pc =>
      cases pc with
      | received => cases input <;> cases ran <;> simp at member
      | sent i | sentSize i | more | idle =>
        simp only [exec, worker] at ran
        split_ifs at ran <;> cases ran <;> simp at member
      | _ =>
        cases ran
        simp at member
    | recvPost session pc =>
      cases pc with
      | closing | recheck =>
        simp only [exec, recvPost] at ran
        split_ifs at ran <;> cases ran <;> simp at member
      | call socket => cases input <;> cases ran <;> simp at member
      | _ =>
        cases ran
        simp at member
    | sendPost session pc =>
      cases pc with
      | exchange | closing | cap | check size | recheck wsabuf =>
        simp only [exec, sendPost] at ran
        split_ifs at ran <;> cases ran <;> simp at member
      | fill c wsabuf =>
        simp only [exec, sendPost] at ran
        split_ifs at ran
        · split at ran <;> cases ran <;> simp at member
        · cases ran
          simp at member
      | buffers wsabuf socket =>
        simp only [exec, sendPost] at ran
        split_ifs at ran
        · cases ran
          simp at member
        · split at ran <;> cases ran <;> simp at member
      | call wsabuf socket => cases input <;> cases ran <;> simp at member
      | _ =>
        cases ran
        simp at member
    | findRemove id mark cause =>
      simp only [exec, findRemove] at ran
      split at ran <;> cases ran <;> simp at member
    | removeSession session cause pc =>
      cases pc with
      | closing | ioCount | swap | drain | rest =>
        simp only [exec, removeSession] at ran
        split_ifs at ran <;> cases ran <;> simp at member
      | _ =>
        cases ran
        simp at member
    | issue slot socket | drop other =>
      cases ran
      simp at member
  | _ => cases carries

/-- What a step does to the hands that a packet is in. -/
theorem exec_carries (ran : exec s frame input = some (s', left)) (packet : Packet) :
    left.countP (Frame.carries packet) + (frame.settles packet).toNat + (frame.misses s packet).toNat =
      (frame.carries packet).toNat + if frame = .app ∧ input = .sendPacket packet then 1 else 0 := by
  cases frame with
  | app =>
    cases input with
    | sendPacket other =>
      cases ran
      by_cases same : other = packet <;> simp [Frame.carries, Frame.settles, Frame.misses, same]
    | disconnect id | leave =>
      cases ran
      simp [Frame.carries, Frame.settles, Frame.misses]
    | _ => cases ran
  | findSend other =>
    simp only [exec, findSend] at ran
    by_cases same : other = packet
    · subst same
      split at ran <;> rename_i found <;> cases ran <;>
        simp [Frame.carries, Frame.settles, Frame.misses, found]
    · split at ran <;> cases ran <;> simp [Frame.carries, Frame.settles, Frame.misses, same]
  | sendPacket session other pc =>
    cases pc with
    | enqueue =>
      cases ran
      by_cases same : other = packet <;> simp [Frame.carries, Frame.settles, Frame.misses, same]
    | free =>
      simp only [exec, sendPacket] at ran
      by_cases same : other = packet <;> split_ifs at ran <;> cases ran <;>
        simp [Frame.carries, Frame.settles, Frame.misses, same]
    | pending =>
      simp only [exec, sendPacket] at ran
      split_ifs at ran <;> cases ran <;> simp [Frame.carries, Frame.settles, Frame.misses]
  | drop other =>
    cases ran
    by_cases same : other = packet <;> simp [Frame.carries, Frame.settles, Frame.misses, same]
  | _ =>
    rw [List.countP_eq_zero.mpr]
    · simp [Frame.carries, Frame.settles, Frame.misses]
    · intro f member carries
      rcases left_carries ran member carries with same | ⟨other, same⟩ | ⟨session, other, same⟩ <;> cases same

/-- A frame that can delete a packet. -/
def Frame.disposes : Frame → Bool
  | .drop _ | .worker _ (.sentTake _) | .removeSession _ _ .take => true
  | _ => false

theorem deleted_of_not (ran : exec s frame input = some (s', left)) (keeps : ¬ frame.disposes) (packet : Packet) :
    s'.log.count (.deleted packet) = s.log.count (.deleted packet) := by
  rcases (exec_spec ran).1.log with same | ⟨event, records, grown⟩
  · rw [same]
  · rw [grown, List.count_cons_of_ne]
    rintro rfl
    cases frame with
    | worker client pc => cases pc <;> first | exact keeps rfl | cases records
    | removeSession session cause pc => cases pc <;> first | exact keeps rfl | cases records
    | drop other => exact keeps rfl
    | _ => cases records

/-- The packets in the rings of the listed sessions stay. -/
theorem held_congr (map : s'.m_sessionMap = s.m_sessionMap)
    (rings : ∀ k, s.m_sessionMap.lookup packet.addressee = some k →
      (s'.slots k).m_sendRingBuff = (s.slots k).m_sendRingBuff) : held s' packet = held s packet := by
  rw [held, held, map]
  cases found : s.m_sessionMap.lookup packet.addressee with
  | none => rfl
  | some k => exact congrArg (List.count _) (rings k found)

/-- A packet is dequeued and deleted. -/
theorem held_dequeued {k : ℕ} {first : Packet} {rest : List Packet} (map : s'.m_sessionMap = s.m_sessionMap)
    (listed : s.m_sessionMap.lookup first.addressee = some k) (slots : ∀ j, k ≠ j → s'.slots j = s.slots j)
    (ring : (s.slots k).m_sendRingBuff = pointers (first :: rest))
    (ring' : (s'.slots k).m_sendRingBuff = pointers rest) (log : s'.log = .deleted first :: s.log)
    (packet : Packet) :
    s'.log.count (.deleted packet) + held s' packet = s.log.count (.deleted packet) + held s packet := by
  rw [log, List.count_cons, held, held, map]
  cases found : s.m_sessionMap.lookup packet.addressee with
  | none =>
    have other : first ≠ packet := by
      rintro rfl
      rw [listed] at found
      cases found
    simp [other]
  | some j =>
    by_cases here : k = j
    · subst here
      simp only [ring, ring', count_pointers, List.count_cons, beq_iff_eq, Event.deleted.injEq]
      omega
    · have other : first ≠ packet := by
        rintro rfl
        exact here (Option.some.inj (listed.symm.trans found))
      simp [slots j here, other]

end Specs

section Runs

variable {m next : Machine} {label : ℕ × Input} {k : ℕ} {frame : Frame} {left others : List Frame} {packet : Packet}

/-- A session in the table is alive. -/
theorem Piped.of_listed (piped : Piped m k) {x : ℤ} (listed : m.shared.m_sessionMap.lookup x = some k) :
    ∃ socket before, Lifetime m k x socket before ∧ Sends m k x ∧ ∃ gone queue r, Pipeline m k x gone queue r := by
  rcases piped with unused | ⟨last, preparing, -⟩ | ⟨id, socket, before, life, sends, pipeline⟩
  · exact absurd listed (unused.unlisted x)
  · exact absurd listed (preparing.unlisted x)
  · obtain rfl := life.named x listed
    exact ⟨socket, before, life, sends, pipeline⟩

/-- Most steps leave the packets of the listed sessions where they are. -/
theorem Sending.held_of_not (sending : Sending m) (frames : m.frames.Perm (frame :: others))
    (ran : exec m.shared frame label.2 = some (next.shared, left)) (stays : ∀ k, ¬ frame.shifts k)
    (map : next.shared.m_sessionMap = m.shared.m_sessionMap) (packet : Packet) :
    held next.shared packet = held m.shared packet := by
  refine held_congr map fun k listed => ?_
  have here : frame ∈ m.frames := frames.mem_iff.mpr List.mem_cons_self
  obtain ⟨socket, before, life, sends, gone, queue, r, pipeline⟩ := (sending.piped k).of_listed listed
  have joined (session : Handle) (sock : ℕ) (pc : AcceptPc) (same : frame = .accepting session sock pc)
      (own : session.slot = k) : 8 ≤ pc.stage := life.joined session sock pc (same ▸ here) own
  exact (exec_steady ran (life.alive.later frame here) joined (stays k) (pipeline.threads frame here) pipeline.free).ring

theorem Sending.held_enqueue (sending : Sending m) {session : Handle} {first : Packet}
    (frames : m.frames.Perm (.sendPacket session first .enqueue :: others))
    (ran : exec m.shared (.sendPacket session first .enqueue) label.2 = some (next.shared, left)) (packet : Packet) :
    held next.shared packet = held m.shared packet + if first = packet then 1 else 0 := by
  obtain ⟨listed, room⟩ := sending.calling session first .enqueue (frames.mem_iff.mpr List.mem_cons_self) nofun
  have room := room rfl
  obtain ⟨shared, -⟩ := Prod.mk.inj (Option.some.inj ran)
  have map : next.shared.m_sessionMap = m.shared.m_sessionMap := by rw [← shared]; rfl
  have grown : (next.shared.slots session.slot).m_sendRingBuff =
      (m.shared.slots session.slot).m_sendRingBuff ++ pointer first := by
    rw [← shared, record_slots, modify_slots_self]
    exact congrArg _ (List.take_of_length_le (by rwa [length_pointer]))
  rw [held, held, map]
  cases found : m.shared.m_sessionMap.lookup packet.addressee with
  | none =>
    have other : first ≠ packet := by
      rintro rfl
      rw [listed] at found
      cases found
    simp [other]
  | some j =>
    by_cases here : session.slot = j
    · subst here
      simp [grown]
    · have other : first ≠ packet := by
        rintro rfl
        exact here (Option.some.inj (listed.symm.trans found))
      have same : next.shared.slots j = m.shared.slots j :=
        (exec_spec ran).1.slots j fun own => here (Option.some.inj own)
      simp [same, other]

/-- What is in the ring of a session was passed for it. -/
theorem Sends.addressee_of_ring {id : ℤ} (sends : Sends m k id) {first : Packet} {rest : List Packet}
    (ring : (m.shared.slots k).m_sendRingBuff = pointers (first :: rest)) : first.addressee = id := by
  refine sends.ring ⟨first, 0⟩ ?_
  rw [ring, pointers_cons]
  exact List.mem_append_left _ (List.mem_map.mpr ⟨0, by decide, rfl⟩)

theorem Sending.held_sentTake (sending : Sending m) {client : Handle} {i : ℕ}
    (frames : m.frames.Perm (.worker client (.sentTake i) :: others))
    (frames' : next.frames.Perm (left ++ others))
    (ran : exec m.shared (.worker client (.sentTake i)) label.2 = some (next.shared, left)) (packet : Packet) :
    next.shared.log.count (.deleted packet) + held next.shared packet =
      m.shared.log.count (.deleted packet) + held m.shared packet := by
  have member : .worker client (.sentTake i) ∈ m.frames := frames.mem_iff.mpr List.mem_cons_self
  obtain ⟨id, socket, before, life, sends, gone, queue, r, pipeline⟩ :=
    (sending.piped client.slot).lifetime member rfl Bool.false_ne_true
  obtain ⟨first, rest, rfl, log, moved⟩ := pipeline.sentTake life sends rfl frames frames' ran
  have listed : m.shared.m_sessionMap.lookup id = some client.slot :=
    life.listed.resolve_right fun gone => (life.alive.sealed gone.2).2 _ member (if_pos rfl)
  have changes := (exec_spec ran).1
  refine held_dequeued ?_ ?_ (fun j apart => changes.slots j fun own => apart (Option.some.inj own)) pipeline.ring
    moved.ring log packet
  · rcases changes.map with same | ⟨session, socket, other, -⟩ | ⟨session, cause, other, -⟩
    · exact same
    · cases other
    · cases other
  · rw [sends.addressee_of_ring pipeline.ring]
    exact listed

theorem Sending.held_take (sending : Sending m) {session : Handle} {cause : ℤ}
    (frames : m.frames.Perm (.removeSession session cause .take :: others))
    (frames' : next.frames.Perm (left ++ others))
    (ran : exec m.shared (.removeSession session cause .take) label.2 = some (next.shared, left)) (packet : Packet) :
    next.shared.log.count (.deleted packet) + held next.shared packet =
      m.shared.log.count (.deleted packet) + held m.shared packet := by
  have member : .removeSession session cause .take ∈ m.frames := frames.mem_iff.mpr List.mem_cons_self
  obtain ⟨id, socket, before, life, sends, gone, queue, r, pipeline⟩ :=
    (sending.piped session.slot).lifetime member rfl Bool.false_ne_true
  obtain ⟨first, rest, rfl, log, moved⟩ := pipeline.take life sends rfl frames frames' ran
  have changes := (exec_spec ran).1
  refine held_dequeued ?_ ?_ (fun j apart => changes.slots j fun own => apart (Option.some.inj own)) pipeline.ring
    moved.ring log packet
  · rcases changes.map with same | ⟨session, socket, other, -⟩ | ⟨session, cause, other, -⟩
    · exact same
    · cases other
    · cases other
  · rw [sends.addressee_of_ring pipeline.ring]
    exact life.progress _ member rfl

/-- A session is put into the table with an empty ring, and its id is not in it yet. -/
theorem Sending.held_insert (sending : Sending m) {client : Handle} {socket : ℕ}
    (frames : m.frames.Perm (.accepting client socket .insert :: others))
    (ran : exec m.shared (.accepting client socket .insert) label.2 = some (next.shared, left)) (packet : Packet) :
    held next.shared packet = held m.shared packet := by
  have member : .accepting client socket .insert ∈ m.frames := frames.mem_iff.mpr List.mem_cons_self
  obtain ⟨shared, -⟩ := Prod.mk.inj (Option.some.inj ran)
  have slots : next.shared.slots = m.shared.slots := by rw [← shared]
  have map : next.shared.m_sessionMap =
      m.shared.m_sessionMap.insert (m.shared.slots client.slot).m_sessionId client.slot := by rw [← shared]
  by_cases key : packet.addressee = (m.shared.slots client.slot).m_sessionId
  · have preparing : ∃ last, Preparing m client.slot last := by
      rcases sending.piped client.slot with unused | ⟨last, preparing, -⟩ | ⟨id, sock, before, life, -⟩
      · exact absurd rfl (unused.unreached _ member)
      · exact ⟨last, preparing⟩
      · exact absurd (life.joined _ _ _ member rfl) (by decide)
    obtain ⟨last, preparing⟩ := preparing
    obtain rfl := eq_of_alone preparing.alone member rfl
    obtain ⟨-, -, accepted, -, -, -, -, -, ring⟩ := preparing.prepared
    have unlisted : m.shared.m_sessionMap.lookup packet.addressee = none := by
      cases found : m.shared.m_sessionMap.lookup packet.addressee with
      | none => rfl
      | some j =>
        obtain ⟨sock, before, life, -⟩ := (sending.piped j).of_listed found
        have same := sending.issued.once _ _ _ _ _ life.accepted (by
          rw [key]
          have own := preparing.prepared.1
          rw [own] at accepted
          exact accepted)
        rw [same.1] at found
        exact absurd found (preparing.unlisted _)
    have empty := ring (by decide)
    rw [held, held, map, slots, unlisted, key, Finmap.lookup_insert]
    simp [empty]
  · rw [held, held, map, slots, Finmap.lookup_insert_of_ne _ key]

theorem held_erase {s s' : CLockFreeCore} {session : Handle} {cause : ℤ} {input : Input}
    (ran : exec s (.removeSession session cause .erase) input = some (s', left)) (packet : Packet) :
    held s' packet + (Frame.removeSession session cause .erase).abandons s packet = held s packet := by
  obtain ⟨shared, -⟩ := Prod.mk.inj (Option.some.inj ran)
  have slots : s'.slots = s.slots := by rw [← shared]
  have map : s'.m_sessionMap = s.m_sessionMap.erase (s.slots session.slot).m_sessionId := by rw [← shared]
  rw [Frame.abandons]
  by_cases key : packet.addressee = (s.slots session.slot).m_sessionId
  · rw [if_pos key, held, map, key, Finmap.lookup_erase]
    simp
  · rw [if_neg key, held, held, map, slots, Finmap.lookup_erase_ne key, Nat.add_zero]

/-- Where a packet goes that is enqueued, dropped or dequeued. -/
theorem Sending.settles (sending : Sending m) (frames : m.frames.Perm (frame :: others))
    (frames' : next.frames.Perm (left ++ others))
    (ran : exec m.shared frame label.2 = some (next.shared, left)) (packet : Packet) :
    next.shared.log.count (.deleted packet) + held next.shared packet + frame.abandons m.shared packet =
      m.shared.log.count (.deleted packet) + held m.shared packet + (frame.settles packet).toNat := by
  have stays (disposes : ¬ frame.disposes) (shifts : ∀ k, ¬ frame.shifts k)
      (abandons : frame.abandons m.shared packet = 0) (settles : frame.settles packet = false)
      (map : next.shared.m_sessionMap = m.shared.m_sessionMap) :
      next.shared.log.count (.deleted packet) + held next.shared packet + frame.abandons m.shared packet =
        m.shared.log.count (.deleted packet) + held m.shared packet + (frame.settles packet).toNat := by
    rw [deleted_of_not ran disposes, sending.held_of_not frames ran shifts map, abandons, settles]
    rfl
  have map := (exec_spec ran).1.map
  cases frame with
  | drop other =>
    have same := sending.held_of_not frames ran nofun (map.resolve_right (by simp)) packet
    obtain ⟨shared, -⟩ := Prod.mk.inj (Option.some.inj ran)
    rw [same, ← shared]
    simp only [record_log, List.count_cons, beq_iff_eq, Event.deleted.injEq, Frame.abandons, Frame.settles]
    by_cases here : other = packet <;> simp [here]
    omega
  | sendPacket session other pc =>
    have unchanged := map.resolve_right (by simp)
    cases pc with
    | enqueue =>
      rw [deleted_of_not ran Bool.false_ne_true, sending.held_enqueue frames ran]
      by_cases here : other = packet <;> simp [Frame.abandons, Frame.settles, here]
      omega
    | free | pending => exact stays Bool.false_ne_true (fun _ => Bool.false_ne_true) rfl rfl unchanged
  | worker client pc =>
    cases pc with
    | sentTake i => exact sending.held_sentTake frames frames' ran packet
    | _ => exact stays Bool.false_ne_true (fun _ => Bool.false_ne_true) rfl rfl (map.resolve_right (by simp))
  | removeSession session cause pc =>
    cases pc with
    | take => exact sending.held_take frames frames' ran packet
    | erase =>
      rw [deleted_of_not ran Bool.false_ne_true, Nat.add_assoc, held_erase ran]
      rfl
    | _ => exact stays Bool.false_ne_true (fun _ => Bool.false_ne_true) rfl rfl (map.resolve_right (by simp))
  | accepting client socket pc =>
    cases pc with
    | insert =>
      rw [deleted_of_not ran Bool.false_ne_true, sending.held_insert frames ran]
      rfl
    | _ => exact stays Bool.false_ne_true (fun _ => Bool.false_ne_true) rfl rfl (map.resolve_right (by simp))
  | _ => exact stays Bool.false_ne_true (fun _ => Bool.false_ne_true) rfl rfl (map.resolve_right (by simp))

/-- How often a step loses a packet. -/
def lost (m : Machine) (label : ℕ × Input) (packet : Packet) : ℕ :=
  match m.top label.1 with
  | some frame => (frame.misses m.shared packet).toNat + frame.abandons m.shared packet
  | none => 0

/-- The calls of `sendPacket` that have the packet, and the places where it is in a ring or was deleted. -/
def accounted (m : Machine) (packet : Packet) : ℕ :=
  m.frames.countP (Frame.carries packet) + m.shared.log.count (.deleted packet) + held m.shared packet

theorem accounted_start (slots : ℕ → Session) (sessionMax workerMax apps : ℕ) (packet : Packet) :
    accounted (start slots sessionMax workerMax apps) packet = 0 := by
  have carried : (start slots sessionMax workerMax apps).frames.countP (Frame.carries packet) = 0 := by
    rw [List.countP_eq_zero]
    intro frame member carries
    rcases mem_frames_start _ _ _ _ member with rfl | rfl | rfl <;> cases carries
  rw [accounted, carried]
  rfl

/-- A packet goes from hand to hand, unless it is lost. -/
theorem Sending.account (sending : Sending m) (stepped : CLockFreeCore.step m label = some next) (packet : Packet) :
    accounted next packet + lost m label packet =
      accounted m packet + if passing m label = some packet then 1 else 0 := by
  obtain ⟨frame, left, others, top, ran, frames, frames'⟩ := Stacks.step_frames stepped
  have carried := exec_carries ran packet
  have settled := sending.settles frames frames' ran packet
  have passes : passing m label = some packet ↔ frame = .app ∧ label.2 = .sendPacket packet := by
    rw [passing, top]
    cases frame <;> cases label.2 <;> simp
  rw [accounted, accounted, lost, top, frames.countP_eq, frames'.countP_eq, List.countP_append, List.countP_cons]
  simp only [passes]
  have bit : (if frame.carries packet then 1 else 0) = (frame.carries packet).toNat := by
    cases frame.carries packet <;> rfl
  rw [bit]
  omega

/-- No packet is in more hands than it was passed, `seen` the packets that were passed. -/
structure Accounted (m : Machine) (seen : List Packet) : Prop where
  sending : Sending m
  bound : ∀ packet, accounted m packet ≤ seen.count packet

theorem Accounted.step {seen : List Packet} (kept : Accounted m seen) (uninterrupted : Uninterrupted m label)
    (stepped : CLockFreeCore.step m label = some next) : Accounted next (seen ++ (passing m label).toList) where
  sending := kept.sending.step uninterrupted stepped
  bound packet := by
    have account := kept.sending.account stepped packet
    have before := kept.bound packet
    rw [count_append_toList]
    omega

theorem Accounted.start (slots : ℕ → Session) (sessionMax workerMax apps : ℕ) :
    Accounted (CLockFreeCore.start slots sessionMax workerMax apps) [] where
  sending := Sending.start slots sessionMax workerMax apps
  bound packet := Nat.le_of_eq (accounted_start slots sessionMax workerMax apps packet)

theorem Accounted.run {slots : ℕ → Session} {sessionMax workerMax apps : ℕ} {labels : List (ℕ × Input)}
    {target : Machine}
    (uninterrupted : Along CLockFreeCore.step Uninterrupted
      (CLockFreeCore.start slots sessionMax workerMax apps) labels)
    (run : replay CLockFreeCore.step (CLockFreeCore.start slots sessionMax workerMax apps) labels = some target) :
    Accounted target
      (observed CLockFreeCore.step passing (CLockFreeCore.start slots sessionMax workerMax apps) labels) :=
  invariant_observed Accounted (fun _ _ _ _ kept clean stepped => kept.step clean stepped)
    (Accounted.start slots sessionMax workerMax apps) uninterrupted run

end Runs

end LockFreeCore.CLockFreeCore
