import LockFreeCore.Model.LockFreeQueue
import Mathlib.Data.Nat.ModEq
import Mathlib.Tactic.Ring

/-! # Tickets, cells and laps of the queue

Every cell is at each moment free for one ticket or full with one ticket, and the two counters
bound which ticket that can be. A thread between its claim and its sequence store keeps its cell
to itself, so stale positions of other threads fail their compare-and-swap. The assertion of one
thread speaks of its own program point and its own claims; the rule for interleavings then covers
any number of threads.
-/

namespace LockFreeCore.LockFreeQueue

variable {τ T : Type*} {cap : ℕ}

theorem modEq_eq {a b : ℕ} (same : a ≡ b [MOD cap]) (below : a ≤ b) (near : b < a + cap) : a = b := by
  obtain ⟨laps, split⟩ := (Nat.modEq_iff_dvd' below).mp same
  rcases Nat.eq_zero_or_pos laps with rfl | more
  · omega
  · have := Nat.le_mul_of_pos_right cap more
    omega

theorem succ_not_modEq (wide : 2 ≤ cap) (p : ℕ) : ¬ p ≡ p + 1 [MOD cap] := by
  intro same
  have := modEq_eq same (by omega) (by omega)
  omega

namespace Queue

variable (queue : Queue τ T)

@[simp] theorem record_log (event : Event τ T) : (queue.record event).log = event :: queue.log := rfl
@[simp] theorem record_cell (event : Event τ T) (pos : ℕ) :
    (queue.record event).cell pos = queue.cell pos := rfl
@[simp] theorem record_enqueuePos (event : Event τ T) :
    (queue.record event).m_enqueuePos = queue.m_enqueuePos := rfl
@[simp] theorem record_dequeuePos (event : Event τ T) :
    (queue.record event).m_dequeuePos = queue.m_dequeuePos := rfl
@[simp] theorem setCell_log (pos : ℕ) (cell : Cell T) : (queue.setCell pos cell).log = queue.log := rfl
@[simp] theorem setCell_enqueuePos (pos : ℕ) (cell : Cell T) :
    (queue.setCell pos cell).m_enqueuePos = queue.m_enqueuePos := rfl
@[simp] theorem setCell_dequeuePos (pos : ℕ) (cell : Cell T) :
    (queue.setCell pos cell).m_dequeuePos = queue.m_dequeuePos := rfl
@[simp] theorem setCell_self (pos : ℕ) (cell : Cell T) : (queue.setCell pos cell).cell pos = cell :=
  Function.update_self ..
@[simp] theorem storeData_self (pos : ℕ) (value : T) :
    (queue.storeData pos value).cell pos = { queue.cell pos with data := value } := setCell_self ..
@[simp] theorem storeSeq_self (pos sequence : ℕ) :
    (queue.storeSeq pos sequence).cell pos = { queue.cell pos with sequence := sequence } := setCell_self ..
@[simp] theorem storeData_log (pos : ℕ) (value : T) : (queue.storeData pos value).log = queue.log := rfl
@[simp] theorem storeSeq_log (pos sequence : ℕ) : (queue.storeSeq pos sequence).log = queue.log := rfl
@[simp] theorem enqueuePos_cell (pos next : ℕ) :
    { queue with m_enqueuePos := next }.cell pos = queue.cell pos := rfl
@[simp] theorem dequeuePos_cell (pos next : ℕ) :
    { queue with m_dequeuePos := next }.cell pos = queue.cell pos := rfl

/-- Positions are spread over the cells by their remainder. -/
structure Shape (cap : ℕ) (queue : Queue τ T) : Prop where
  wide : 2 ≤ cap
  mask : queue.m_mask + 1 = cap
  slot : ∀ pos, queue.slot pos = pos % cap

variable {queue}

theorem Shape.cell_congr (shape : queue.Shape cap) {a b : ℕ} (same : a ≡ b [MOD cap]) :
    queue.cell a = queue.cell b := by
  simp only [cell, shape.slot, show a % cap = b % cap from same]

theorem setCell_cell (slot : ∀ pos, queue.slot pos = pos % cap) (pos other : ℕ) (cell : Cell T) :
    (queue.setCell pos cell).cell other = if other ≡ pos [MOD cap] then cell else queue.cell other := by
  change Function.update queue.m_buffer (queue.slot pos) cell (queue.slot other) = _
  simp only [Function.update_apply, slot, Nat.ModEq, Queue.cell]

theorem Shape.setCell_cell (shape : queue.Shape cap) (pos other : ℕ) (cell : Cell T) :
    (queue.setCell pos cell).cell other = if other ≡ pos [MOD cap] then cell else queue.cell other :=
  Queue.setCell_cell shape.slot pos other cell

end Queue

/-- The cell of ticket `p` is free for the push with that ticket, claimed or not. -/
structure Free (cap : ℕ) (queue : Queue τ T) (p : ℕ) : Prop where
  sequence : (queue.cell p).sequence = p
  unclaimed : queue.m_dequeuePos ≤ p
  inReach : p < queue.m_dequeuePos + cap

/-- The cell of ticket `p` holds the published value of that ticket, claimed by a pop or not. -/
structure Full (cap : ℕ) (queue : Queue τ T) (p : ℕ) : Prop where
  sequence : (queue.cell p).sequence = p + 1
  claimed : p < queue.m_enqueuePos
  current : queue.m_enqueuePos ≤ p + cap
  value : ∀ u v, .pushClaimed u p v ∈ queue.log → (queue.cell p).data = v

/-- The ticket of a finished pop. -/
def Event.poppedTicket : Event τ T → Option ℕ
  | .popReturned _ p _ => some p
  | _ => none

/-- What the log records about tickets. -/
structure Tickets (cap : ℕ) (queue : Queue τ T) : Prop where
  pushBound : ∀ t p v, .pushClaimed t p v ∈ queue.log → p < queue.m_enqueuePos
  pushUnique : ∀ t u p v w, .pushClaimed t p v ∈ queue.log → .pushClaimed u p w ∈ queue.log → t = u ∧ v = w
  pushExists : ∀ p < queue.m_enqueuePos, ∃ t v, .pushClaimed t p v ∈ queue.log
  popBound : ∀ t p, .popClaimed t p ∈ queue.log → p < queue.m_dequeuePos
  popUnique : ∀ t u p, .popClaimed t p ∈ queue.log → .popClaimed u p ∈ queue.log → t = u
  popExists : ∀ p < queue.m_dequeuePos, ∃ t, .popClaimed t p ∈ queue.log
  pushReturned : ∀ t p v, .pushReturned t p v ∈ queue.log → .pushClaimed t p v ∈ queue.log
  popReturned : ∀ t p v, .popReturned t p v ∈ queue.log →
    .popClaimed t p ∈ queue.log ∧ (∃ u, .pushClaimed u p v ∈ queue.log) ∧ p + cap ≤ (queue.cell p).sequence
  popOnce : (queue.log.filterMap Event.poppedTicket).Nodup

/-- The assertion of the store. -/
structure Sound (cap : ℕ) (queue : Queue τ T) : Prop where
  shape : queue.Shape cap
  behind : queue.m_dequeuePos ≤ queue.m_enqueuePos
  ahead : queue.m_enqueuePos ≤ queue.m_dequeuePos + cap
  phase : ∀ pos, ∃ p, p ≡ pos [MOD cap] ∧ (Free cap queue p ∨ Full cap queue p)
  tickets : Tickets cap queue

/-- What a thread knows at its program point. -/
def Point (queue : Queue τ T) (thread : τ) : Local T → Prop
  | .pushLoadSeq _ pos => pos ≤ queue.m_enqueuePos
  | .pushCas _ pos => pos ≤ queue.m_enqueuePos ∧ pos ≤ (queue.cell pos).sequence
  | .pushStoreData v p => .pushClaimed thread p v ∈ queue.log ∧ (queue.cell p).sequence = p
  | .pushStoreSeq v p => .pushClaimed thread p v ∈ queue.log ∧ (queue.cell p).sequence = p ∧
      (queue.cell p).data = v
  | .popLoadSeq pos => pos ≤ queue.m_dequeuePos
  | .popCas pos => pos ≤ queue.m_dequeuePos ∧ pos + 1 ≤ (queue.cell pos).sequence
  | .popLoadData p => .popClaimed thread p ∈ queue.log ∧ (queue.cell p).sequence = p + 1
  | .popStoreSeq p v => .popClaimed thread p ∈ queue.log ∧ (queue.cell p).sequence = p + 1 ∧
      ∃ u, .pushClaimed u p v ∈ queue.log
  | _ => True

/-- The assertion of one thread: its program point, and each of its claims is published unless it
is the one the thread is still working on. -/
structure Thread (queue : Queue τ T) (thread : τ) (mine : Local T) : Prop where
  point : Point queue thread mine
  published : ∀ p v, .pushClaimed thread p v ∈ queue.log →
    p + 1 ≤ (queue.cell p).sequence ∨ mine = .pushStoreData v p ∨ mine = .pushStoreSeq v p

/-- The ticket a thread holds between its claim and its sequence store. -/
def Local.held : Local T → Option ℕ
  | .pushStoreData _ p | .pushStoreSeq _ p | .popLoadData p | .popStoreSeq p _ => some p
  | _ => none

/-- A held ticket is a push ticket whose cell is free, or a pop ticket whose cell is full. -/
theorem Thread.held_cases {queue : Queue τ T} {thread : τ} {mine : Local T} {p : ℕ}
    (asserted : Thread queue thread mine) (held : mine.held = some p) :
    ((∃ v, .pushClaimed thread p v ∈ queue.log) ∧ (queue.cell p).sequence = p) ∨
      (.popClaimed thread p ∈ queue.log ∧ (queue.cell p).sequence = p + 1) := by
  have point := asserted.point
  cases mine <;> simp only [Local.held, Option.some.injEq, reduceCtorEq] at held <;> subst held
  · exact .inl ⟨⟨_, point.1⟩, point.2⟩
  · exact .inl ⟨⟨_, point.1⟩, point.2.1⟩
  · exact .inr point
  · exact .inr ⟨point.1, point.2.1⟩

/-- Two threads never hold tickets of the same cell. -/
theorem held_exclusive {queue : Queue τ T} {t u : τ} {l m : Local T} {p q : ℕ}
    (sound : Sound cap queue) (mine : Thread queue t l) (theirs : Thread queue u m) (other : u ≠ t)
    (held : l.held = some p) (alsoHeld : m.held = some q) : ¬ q ≡ p [MOD cap] := by
  intro same
  have cells := sound.shape.cell_congr same
  have wide := sound.shape.wide
  rcases mine.held_cases held with ⟨⟨v, claim⟩, seq⟩ | ⟨claim, seq⟩ <;>
    rcases theirs.held_cases alsoHeld with ⟨⟨w, claim'⟩, seq'⟩ | ⟨claim', seq'⟩ <;>
    rw [cells, seq] at seq'
  · subst seq'
    exact other (sound.tickets.pushUnique _ _ _ _ _ claim' claim).1
  · subst seq'
    exact succ_not_modEq wide q same
  · subst seq'
    exact succ_not_modEq wide p same.symm
  · obtain rfl : p = q := by omega
    exact other (sound.tickets.popUnique _ _ _ claim' claim)

/-- How the store may change under the steps of the other threads. -/
structure Advance (cap : ℕ) (thread : τ) (mine : Local T) (queue next : Queue τ T) : Prop where
  logged : ∀ e ∈ queue.log, e ∈ next.log
  own : ∀ u p v, .pushClaimed u p v ∈ next.log → .pushClaimed u p v ∈ queue.log ∨ u = thread
  enqueuePos : queue.m_enqueuePos ≤ next.m_enqueuePos
  dequeuePos : queue.m_dequeuePos ≤ next.m_dequeuePos
  sequence : ∀ pos, (queue.cell pos).sequence ≤ (next.cell pos).sequence
  kept : ∀ pos, (∀ p, mine.held = some p → ¬ pos ≡ p [MOD cap]) → next.cell pos = queue.cell pos

theorem Advance.of_setCell {queue : Queue τ T} (shape : queue.Shape cap) {thread : τ} {mine : Local T}
    {p : ℕ} (held : mine.held = some p) (cell : Cell T)
    (grows : (queue.cell p).sequence ≤ cell.sequence) :
    Advance cap thread mine queue (queue.setCell p cell) where
  logged := fun _ member => member
  own := fun _ _ _ member => .inl member
  enqueuePos := le_refl _
  dequeuePos := le_refl _
  sequence pos := by
    rw [shape.setCell_cell]
    split_ifs with same
    · exact shape.cell_congr same ▸ grows
    · exact le_refl _
  kept pos apart := by rw [shape.setCell_cell, if_neg (apart p held)]

theorem Advance.record {queue next : Queue τ T} {thread : τ} {mine : Local T}
    (advance : Advance cap thread mine queue next) (event : Event τ T)
    (own : ∀ u p v, event = .pushClaimed u p v → u = thread) :
    Advance cap thread mine queue (next.record event) where
  logged e member := List.mem_cons_of_mem _ (advance.logged e member)
  own u p v member := by
    rcases List.mem_cons.mp member with equal | member
    · exact .inr (own u p v equal.symm)
    · exact advance.own u p v member
  enqueuePos := advance.enqueuePos
  dequeuePos := advance.dequeuePos
  sequence := advance.sequence
  kept := advance.kept

theorem Advance.refl (queue : Queue τ T) (thread : τ) (mine : Local T) :
    Advance cap thread mine queue queue := by
  constructor <;> simp +contextual

/-- Only the cell of the ticket a thread holds is written, and sequence numbers only grow. -/
theorem Took.advance {queue next : Queue τ T} {thread : τ} {mine after : Local T}
    (sound : Sound cap queue) (asserted : Thread queue thread mine)
    (took : Took queue thread mine next after) : Advance cap thread mine queue next := by
  have point := asserted.point
  cases took with
  | pushFull | popEmpty => exact (Advance.refl _ _ _).record _ (by simp)
  | pushClaim value pos same =>
    refine Advance.record ⟨?_, ?_, ?_, ?_, ?_, ?_⟩ _ (by simp +contextual) <;> simp +contextual
    omega
  | popClaim pos same =>
    refine Advance.record ⟨?_, ?_, ?_, ?_, ?_, ?_⟩ _ (by simp) <;> simp +contextual
    omega
  | pushData value pos => exact .of_setCell sound.shape rfl _ (le_refl _)
  | pushPublish value pos =>
    exact (Advance.of_setCell sound.shape rfl _ (point.2.1.trans_le (Nat.le_succ pos))).record _ (by simp)
  | popRelease pos value =>
    have mask := sound.shape.mask
    have wide := sound.shape.wide
    refine (Advance.of_setCell sound.shape rfl _ ?_).record _ (by simp)
    rw [point.2.1]
    simp only
    omega
  | _ => exact .refl _ _ _

/-- A thread's assertion survives what the other threads do. -/
theorem Thread.stable {queue next : Queue τ T} {t u : τ} {l m : Local T} (sound : Sound cap queue)
    (mine : Thread queue t l) (theirs : Thread queue u m) (other : u ≠ t)
    (advance : Advance cap t l queue next) : Thread next u m := by
  have kept : ∀ p, m.held = some p → next.cell p = queue.cell p := fun p alsoHeld =>
    advance.kept p fun q held => held_exclusive sound mine theirs other held alsoHeld
  have grows := advance.sequence
  have point := theirs.point
  constructor
  · cases m <;> simp only [Point] at point ⊢
    case pushLoadSeq => exact point.trans advance.enqueuePos
    case pushCas => exact ⟨point.1.trans advance.enqueuePos, point.2.trans (grows _)⟩
    case popLoadSeq => exact point.trans advance.dequeuePos
    case popCas => exact ⟨point.1.trans advance.dequeuePos, point.2.trans (grows _)⟩
    all_goals rw [kept _ rfl]
    case pushStoreData => exact ⟨advance.logged _ point.1, point.2⟩
    case pushStoreSeq => exact ⟨advance.logged _ point.1, point.2⟩
    case popLoadData => exact ⟨advance.logged _ point.1, point.2⟩
    case popStoreSeq =>
      obtain ⟨claim, seq, v, pushed⟩ := point
      exact ⟨advance.logged _ claim, seq, v, advance.logged _ pushed⟩
  · intro p v member
    rcases advance.own u p v member with before | same
    · exact (theirs.published p v before).imp_left fun published => published.trans (grows p)
    · exact absurd same other

variable {queue next : Queue τ T}

/-- The sequence number alone tells that a cell is free for a ticket. -/
theorem Sound.free (sound : Sound cap queue) {p : ℕ} (seq : (queue.cell p).sequence = p) :
    Free cap queue p := by
  obtain ⟨q, same, free | full⟩ := sound.phase p
  · obtain rfl : q = p := free.sequence.symm.trans (sound.shape.cell_congr same ▸ seq)
    exact free
  · obtain rfl : q + 1 = p := full.sequence.symm.trans (sound.shape.cell_congr same ▸ seq)
    exact absurd same (succ_not_modEq sound.shape.wide q)

/-- The sequence number alone tells that a cell is full with a ticket's value. -/
theorem Sound.full (sound : Sound cap queue) {p : ℕ} (seq : (queue.cell p).sequence = p + 1) :
    Full cap queue p := by
  obtain ⟨q, same, free | full⟩ := sound.phase p
  · obtain rfl : q = p + 1 := free.sequence.symm.trans (sound.shape.cell_congr same ▸ seq)
    exact absurd same.symm (succ_not_modEq sound.shape.wide p)
  · obtain rfl : q = p := Nat.succ.inj (full.sequence.symm.trans (sound.shape.cell_congr same ▸ seq))
    exact full

/-- A push whose compare-and-swap succeeds finds its cell free, however old its reads are. -/
theorem Sound.pushClaim_free (sound : Sound cap queue) {pos : ℕ} (same : queue.m_enqueuePos = pos)
    (seen : pos ≤ (queue.cell pos).sequence) : Free cap queue pos := by
  have behind := sound.behind
  obtain ⟨p, residue, free | full⟩ := sound.phase pos
  · have seq := free.sequence
    have reach := free.inReach
    rw [sound.shape.cell_congr residue] at seq
    obtain rfl := modEq_eq residue.symm (by omega) (by omega)
    exact free
  · have seq := full.sequence
    have claimed := full.claimed
    rw [sound.shape.cell_congr residue] at seq
    obtain rfl : p + 1 = pos := by omega
    exact absurd residue (succ_not_modEq sound.shape.wide p)

/-- A pop whose compare-and-swap succeeds finds its cell full. -/
theorem Sound.popClaim_full (sound : Sound cap queue) {pos : ℕ} (same : queue.m_dequeuePos = pos)
    (seen : pos + 1 ≤ (queue.cell pos).sequence) : Full cap queue pos := by
  have ahead := sound.ahead
  obtain ⟨p, residue, free | full⟩ := sound.phase pos
  · have seq := free.sequence
    have reach := free.inReach
    rw [sound.shape.cell_congr residue] at seq
    obtain rfl := modEq_eq residue.symm (by omega) (by omega)
    omega
  · have seq := full.sequence
    have claimed := full.claimed
    rw [sound.shape.cell_congr residue] at seq
    obtain rfl := modEq_eq residue.symm (by omega) (by omega)
    exact full

/-- An event that is neither a claim nor a return leaves the tickets alone. -/
theorem Tickets.record (tickets : Tickets cap queue) {event : Event τ T}
    (push : ∀ t p v, event ≠ .pushClaimed t p v) (pop : ∀ t p, event ≠ .popClaimed t p)
    (pushed : ∀ t p v, event ≠ .pushReturned t p v) (popped : ∀ t p v, event ≠ .popReturned t p v) :
    Tickets cap (queue.record event) where
  pushBound t p v member := tickets.pushBound t p v (by simpa [(push t p v).symm] using member)
  pushUnique t u p v w first second := tickets.pushUnique t u p v w
    (by simpa [(push t p v).symm] using first) (by simpa [(push u p w).symm] using second)
  pushExists p bound := by
    obtain ⟨t, v, member⟩ := tickets.pushExists p bound
    exact ⟨t, v, List.mem_cons_of_mem _ member⟩
  popBound t p member := tickets.popBound t p (by simpa [(pop t p).symm] using member)
  popUnique t u p first second := tickets.popUnique t u p
    (by simpa [(pop t p).symm] using first) (by simpa [(pop u p).symm] using second)
  popExists p bound := by
    obtain ⟨t, member⟩ := tickets.popExists p bound
    exact ⟨t, List.mem_cons_of_mem _ member⟩
  pushReturned t p v member := List.mem_cons_of_mem _
    (tickets.pushReturned t p v (by simpa [(pushed t p v).symm] using member))
  popReturned t p v member := by
    obtain ⟨claim, ⟨u, source⟩, past⟩ :=
      tickets.popReturned t p v (by simpa [(popped t p v).symm] using member)
    exact ⟨List.mem_cons_of_mem _ claim, ⟨u, List.mem_cons_of_mem _ source⟩, past⟩
  popOnce := by
    have none : event.poppedTicket = none := by
      cases event with
      | popReturned t p v => exact absurd rfl (popped t p v)
      | _ => rfl
    simpa [List.filterMap_cons, none] using tickets.popOnce

/-- Writes to cells that only raise sequence numbers keep what the log says about tickets. -/
theorem Tickets.setCell (tickets : Tickets cap queue) (shape : queue.Shape cap) (p : ℕ) {cell : Cell T}
    (grows : (queue.cell p).sequence ≤ cell.sequence) : Tickets cap (queue.setCell p cell) :=
  { tickets with
    popReturned := fun t q v member => by
      obtain ⟨claim, source, past⟩ := tickets.popReturned t q v member
      refine ⟨claim, source, past.trans ?_⟩
      rw [shape.setCell_cell]
      split_ifs with same
      · exact shape.cell_congr same ▸ grows
      · exact le_refl _ }

/-- Exchanging one cell keeps the phases of all other cells. -/
theorem Sound.phase_setCell (sound : Sound cap queue) (p : ℕ) {cell : Cell T} {q : ℕ}
    (same : q ≡ p [MOD cap])
    (changed : Free cap (queue.setCell p cell) q ∨ Full cap (queue.setCell p cell) q) (pos : ℕ) :
    ∃ q, q ≡ pos [MOD cap] ∧
      (Free cap (queue.setCell p cell) q ∨ Full cap (queue.setCell p cell) q) := by
  by_cases here : pos ≡ p [MOD cap]
  · exact ⟨q, same.trans here.symm, changed⟩
  · obtain ⟨r, residue, phase⟩ := sound.phase pos
    have apart : ¬ r ≡ p [MOD cap] := fun equal => here (residue.symm.trans equal)
    have kept : (queue.setCell p cell).cell r = queue.cell r := by
      rw [sound.shape.setCell_cell, if_neg apart]
    refine ⟨r, residue, phase.imp (fun free => ?_) fun full => ?_⟩
    · exact ⟨kept ▸ free.sequence, free.unclaimed, free.inReach⟩
    · exact ⟨kept ▸ full.sequence, full.claimed, full.current, kept ▸ full.value⟩

theorem Sound.record_phase (sound : Sound cap queue) {event : Event τ T}
    (push : ∀ t p v, event ≠ .pushClaimed t p v) (pos : ℕ) : ∃ q, q ≡ pos [MOD cap] ∧
      (Free cap (queue.record event) q ∨ Full cap (queue.record event) q) := by
  obtain ⟨q, same, phase⟩ := sound.phase pos
  refine ⟨q, same, phase.imp (fun free => ⟨free.1, free.2, free.3⟩) fun full => ?_⟩
  exact ⟨full.1, full.2, full.3, fun u v member =>
    full.value u v (by simpa [(push u q v).symm] using member)⟩

theorem Sound.record (sound : Sound cap queue) {event : Event τ T}
    (push : ∀ t p v, event ≠ .pushClaimed t p v) (tickets : Tickets cap (queue.record event)) :
    Sound cap (queue.record event) :=
  ⟨⟨sound.shape.wide, sound.shape.mask, sound.shape.slot⟩, sound.behind, sound.ahead,
    sound.record_phase push, tickets⟩

theorem Sound.pushClaim (sound : Sound cap queue) {thread : τ} {value : T} {pos : ℕ}
    (same : queue.m_enqueuePos = pos) (free : Free cap queue pos) :
    Sound cap ({ queue with m_enqueuePos := pos + 1 }.record (.pushClaimed thread pos value)) := by
  have behind := sound.behind
  have reach := free.inReach
  have tickets := sound.tickets
  have fresh (u : τ) (w : T) : .pushClaimed u pos w ∉ queue.log := fun member => by
    have := tickets.pushBound u pos w member
    omega
  refine ⟨⟨sound.shape.wide, sound.shape.mask, sound.shape.slot⟩, ?_, ?_, fun other => ?_, ?_⟩
  · change queue.m_dequeuePos ≤ pos + 1
    omega
  · change pos + 1 ≤ queue.m_dequeuePos + cap
    omega
  · obtain ⟨q, residue, phase⟩ := sound.phase other
    refine ⟨q, residue, phase.imp (fun free => ⟨free.1, free.2, free.3⟩) fun full => ?_⟩
    have claimed := full.claimed
    have current := full.current
    refine ⟨full.sequence, ?_, ?_, fun u v member => ?_⟩
    · change q < pos + 1
      omega
    · change pos + 1 ≤ q + cap
      rcases Nat.lt_or_ge pos (q + cap) with room | tight
      · omega
      · -- the full cell one lap back would be the claimed cell itself
        have wide := sound.shape.wide
        obtain rfl : pos = q + cap := by omega
        have seq := full.sequence
        rw [sound.shape.cell_congr (show q ≡ q + cap [MOD cap] by simp [Nat.ModEq]), free.sequence] at seq
        omega
    · have before : .pushClaimed u q v ∈ queue.log := by
        rcases List.mem_cons.mp member with equal | member
        · cases equal
          omega
        · exact member
      exact full.value u v before
  · constructor <;> simp only [Queue.record_log, List.mem_cons, Queue.record_enqueuePos,
      Queue.record_dequeuePos, Queue.record_cell, Queue.enqueuePos_cell, reduceCtorEq, false_or]
    · rintro t p v (equal | member)
      · cases equal
        omega
      · have := tickets.pushBound t p v member
        omega
    · rintro t u p v w (first | first) (second | second)
      · cases first
        cases second
        exact ⟨rfl, rfl⟩
      · cases first
        exact absurd second (fresh u w)
      · cases second
        exact absurd first (fresh t v)
      · exact tickets.pushUnique t u p v w first second
    · intro p bound
      rcases Nat.lt_or_ge p pos with below | here
      · obtain ⟨t, v, member⟩ := tickets.pushExists p (same ▸ below)
        exact ⟨t, v, .inr member⟩
      · obtain rfl : p = pos := by omega
        exact ⟨thread, value, .inl rfl⟩
    · exact tickets.popBound
    · exact tickets.popUnique
    · exact tickets.popExists
    · exact fun t p v member => .inr (tickets.pushReturned t p v member)
    · intro t p v member
      obtain ⟨claim, ⟨u, source⟩, past⟩ := tickets.popReturned t p v member
      exact ⟨claim, ⟨u, .inr source⟩, past⟩
    · simpa [List.filterMap_cons, Event.poppedTicket] using tickets.popOnce

theorem Sound.popClaim (sound : Sound cap queue) {thread : τ} {pos : ℕ}
    (same : queue.m_dequeuePos = pos) (full : Full cap queue pos) :
    Sound cap ({ queue with m_dequeuePos := pos + 1 }.record (.popClaimed thread pos)) := by
  have ahead := sound.ahead
  have claimed := full.claimed
  have tickets := sound.tickets
  have fresh (u : τ) : .popClaimed u pos ∉ queue.log := fun member => by
    have := tickets.popBound u pos member
    omega
  refine ⟨⟨sound.shape.wide, sound.shape.mask, sound.shape.slot⟩, ?_, ?_, fun other => ?_, ?_⟩
  · change pos + 1 ≤ queue.m_enqueuePos
    omega
  · change queue.m_enqueuePos ≤ pos + 1 + cap
    omega
  · obtain ⟨q, residue, phase⟩ := sound.phase other
    refine ⟨q, residue, phase.imp (fun free => ⟨free.sequence, ?_, ?_⟩) fun full =>
      ⟨full.1, full.2, full.3, fun u v member => full.value u v (by simpa using member)⟩⟩
    · change pos + 1 ≤ q
      have unclaimed := free.unclaimed
      rcases Nat.lt_or_ge pos q with later | here
      · omega
      · obtain rfl : q = pos := by omega
        have seq := full.sequence
        rw [free.sequence] at seq
        omega
    · change q < pos + 1 + cap
      have reach := free.inReach
      omega
  · constructor <;> simp only [Queue.record_log, List.mem_cons, Queue.record_enqueuePos,
      Queue.record_dequeuePos, Queue.record_cell, Queue.dequeuePos_cell, reduceCtorEq, false_or]
    · exact tickets.pushBound
    · exact tickets.pushUnique
    · exact tickets.pushExists
    · rintro t p (equal | member)
      · cases equal
        omega
      · have := tickets.popBound t p member
        omega
    · rintro t u p (first | first) (second | second)
      · cases first
        cases second
        rfl
      · cases first
        exact absurd second (fresh u)
      · cases second
        exact absurd first (fresh t)
      · exact tickets.popUnique t u p first second
    · intro p bound
      rcases Nat.lt_or_ge p pos with below | here
      · obtain ⟨t, member⟩ := tickets.popExists p (same ▸ below)
        exact ⟨t, .inr member⟩
      · obtain rfl : p = pos := by omega
        exact ⟨thread, .inl rfl⟩
    · exact tickets.pushReturned
    · intro t p v member
      obtain ⟨claim, source, past⟩ := tickets.popReturned t p v member
      exact ⟨.inr claim, source, past⟩
    · simpa [List.filterMap_cons, Event.poppedTicket] using tickets.popOnce

/-- Storing the value touches only the free cell of the claimed ticket. -/
theorem Sound.storeData (sound : Sound cap queue) {p : ℕ} (seq : (queue.cell p).sequence = p)
    (value : T) : Sound cap (queue.storeData p value) := by
  have free := sound.free seq
  refine ⟨⟨sound.shape.wide, sound.shape.mask, sound.shape.slot⟩, sound.behind, sound.ahead,
    sound.phase_setCell p rfl (.inl ⟨?_, free.unclaimed, free.inReach⟩),
    sound.tickets.setCell sound.shape p (le_refl _)⟩
  rw [Queue.setCell_self]
  exact seq

/-- The sequence store of a push turns its cell from free to full. -/
theorem Sound.publish (sound : Sound cap queue) {thread : τ} {p : ℕ} {value : T}
    (claim : .pushClaimed thread p value ∈ queue.log) (seq : (queue.cell p).sequence = p)
    (stored : (queue.cell p).data = value) :
    Sound cap ((queue.storeSeq p (p + 1)).record (.pushReturned thread p value)) := by
  have free := sound.free seq
  have unclaimed := free.unclaimed
  have ahead := sound.ahead
  have grown : (queue.cell p).sequence ≤ p + 1 := seq.trans_le (Nat.le_succ p)
  have grown' : (queue.cell p).sequence ≤ { queue.cell p with sequence := p + 1 : Cell T }.sequence := grown
  have tickets := sound.tickets.setCell sound.shape p grown'
  have stored' : Sound cap (queue.storeSeq p (p + 1)) := by
    refine ⟨⟨sound.shape.wide, sound.shape.mask, sound.shape.slot⟩, sound.behind, sound.ahead,
      sound.phase_setCell p rfl (.inr ⟨?_, sound.tickets.pushBound thread p value claim, ?_, ?_⟩), tickets⟩
    · rw [Queue.setCell_self]
    · change queue.m_enqueuePos ≤ p + cap
      omega
    · intro u v member
      rw [Queue.setCell_self]
      exact stored.trans (sound.tickets.pushUnique _ _ _ _ _ claim member).2
  refine stored'.record (by simp) ⟨?_, ?_, ?_, ?_, ?_, ?_, ?_, ?_, ?_⟩ <;>
    simp only [Queue.record_log, List.mem_cons, Queue.record_enqueuePos, Queue.record_dequeuePos,
      Queue.record_cell, reduceCtorEq, false_or]
  · exact tickets.pushBound
  · exact tickets.pushUnique
  · exact tickets.pushExists
  · exact tickets.popBound
  · exact tickets.popUnique
  · exact tickets.popExists
  · rintro t q v (equal | member)
    · cases equal
      exact claim
    · exact tickets.pushReturned t q v member
  · exact tickets.popReturned
  · simpa [List.filterMap_cons, Event.poppedTicket] using tickets.popOnce

/-- The sequence store of a pop frees its cell for the push of the next lap. -/
theorem Sound.release (sound : Sound cap queue) {thread u : τ} {p : ℕ} {value : T}
    (claim : .popClaimed thread p ∈ queue.log) (seq : (queue.cell p).sequence = p + 1)
    (source : .pushClaimed u p value ∈ queue.log) :
    Sound cap ((queue.storeSeq p (p + queue.m_mask + 1)).record (.popReturned thread p value)) := by
  have full := sound.full seq
  have current := full.current
  have behind := sound.behind
  have wide := sound.shape.wide
  have lap : p + queue.m_mask + 1 = p + cap := by rw [← sound.shape.mask, Nat.add_assoc]
  have reach := sound.tickets.popBound thread p claim
  have again : p + cap ≡ p [MOD cap] := by simp [Nat.ModEq]
  rw [lap]
  have grown : (queue.cell p).sequence ≤ p + cap := by omega
  have grown' : (queue.cell p).sequence ≤ { queue.cell p with sequence := p + cap : Cell T }.sequence := grown
  have tickets := sound.tickets.setCell sound.shape p grown'
  have stored : Sound cap (queue.storeSeq p (p + cap)) := by
    refine ⟨⟨sound.shape.wide, sound.shape.mask, sound.shape.slot⟩, sound.behind, sound.ahead,
      sound.phase_setCell p again (.inl ⟨?_, ?_, ?_⟩), tickets⟩
    · rw [sound.shape.setCell_cell, if_pos again]
    · change queue.m_dequeuePos ≤ p + cap
      omega
    · change p + cap < queue.m_dequeuePos + cap
      omega
  refine stored.record (by simp) ⟨?_, ?_, ?_, ?_, ?_, ?_, ?_, ?_, ?_⟩ <;>
    simp only [Queue.record_log, List.mem_cons, Queue.record_enqueuePos, Queue.record_dequeuePos,
      Queue.record_cell, reduceCtorEq, false_or]
  · exact tickets.pushBound
  · exact tickets.pushUnique
  · exact tickets.pushExists
  · exact tickets.popBound
  · exact tickets.popUnique
  · exact tickets.popExists
  · exact tickets.pushReturned
  · rintro t q v (equal | member)
    · cases equal
      refine ⟨claim, ⟨u, source⟩, ?_⟩
      rw [Queue.storeSeq_self]
    · exact tickets.popReturned t q v member
  · -- an earlier return of this ticket would have released the cell already
    have fresh : p ∉ queue.log.filterMap Event.poppedTicket := by
      intro member
      obtain ⟨event, logged, ticket⟩ := List.mem_filterMap.mp member
      cases event <;> simp only [Event.poppedTicket, reduceCtorEq, Option.some.injEq] at ticket
      subst ticket
      have past := (sound.tickets.popReturned _ _ _ logged).2.2
      omega
    exact List.nodup_cons.mpr ⟨fresh, sound.tickets.popOnce⟩

/-- Every step re-establishes the assertion of the store and of the thread that takes it. -/
theorem Took.sound {thread : τ} {mine after : Local T} (sound : Sound cap queue)
    (asserted : Thread queue thread mine) (took : Took queue thread mine next after) :
    Sound cap next ∧ Thread next thread after := by
  have point := asserted.point
  have published := asserted.published
  have tickets := sound.tickets
  cases took with
  | pushFull value pos =>
    exact ⟨sound.record (by simp) (tickets.record (by simp) (by simp) (by simp) (by simp)),
      trivial, by simpa using published⟩
  | popEmpty pos =>
    exact ⟨sound.record (by simp) (tickets.record (by simp) (by simp) (by simp) (by simp)),
      trivial, by simpa using published⟩
  | pushClaim value pos same =>
    have free := sound.pushClaim_free same point.2
    refine ⟨sound.pushClaim same free, ⟨List.mem_cons_self, free.sequence⟩, fun p v member => ?_⟩
    rcases List.mem_cons.mp member with equal | member
    · cases equal
      exact .inr (.inl rfl)
    · exact .inl (by simpa using published p v member)
  | popClaim pos same =>
    have full := sound.popClaim_full same point.2
    exact ⟨sound.popClaim same full, ⟨List.mem_cons_self, full.sequence⟩, by simpa using published⟩
  | pushData value p =>
    refine ⟨sound.storeData point.2 value, ⟨point.1, ?_, ?_⟩, fun q v member => ?_⟩
    · rw [Queue.storeData_self]
      exact point.2
    · rw [Queue.storeData_self]
    · rcases published q v member with past | same | same
      · exact .inl (past.trans ((Took.advance sound asserted (.pushData value p)).sequence q))
      · cases same
        exact .inr (.inr rfl)
      · cases same
  | pushPublish value p =>
    have advance := Took.advance sound asserted (.pushPublish value p)
    refine ⟨sound.publish point.1 point.2.1 point.2.2, trivial, fun q v member => ?_⟩
    rcases published q v (by simpa using member) with past | same | same
    · exact .inl (past.trans (advance.sequence q))
    · cases same
    · cases same
      left
      rw [Queue.record_cell, Queue.storeSeq_self]
  | popData p =>
    obtain ⟨claim, seq⟩ := point
    have full := sound.full seq
    obtain ⟨u, v, source⟩ := tickets.pushExists p full.claimed
    exact ⟨sound, ⟨claim, seq, u, full.value u v source ▸ source⟩, by simpa using published⟩
  | popRelease p value =>
    obtain ⟨claim, seq, u, source⟩ := point
    have advance := Took.advance sound asserted (.popRelease p value)
    refine ⟨sound.release claim seq source, trivial, fun q v member => .inl ?_⟩
    exact (published q v (by simpa using member)).elim (fun past => past.trans (advance.sequence q))
      (by simp)
  | pushPos | popPos => exact ⟨sound, le_refl _, by simpa using published⟩
  | pushTurn value pos turn => exact ⟨sound, ⟨point, turn.ge⟩, by simpa using published⟩
  | popTurn pos turn => exact ⟨sound, ⟨point, turn.ge⟩, by simpa using published⟩
  | pushLost value pos => exact ⟨sound, point.1, by simpa using published⟩
  | popLost pos => exact ⟨sound, point.1, by simpa using published⟩
  | _ => exact ⟨sound, trivial, by simpa using published⟩

/-- The constructor establishes the assertions, for every capacity that is a power of two above 1. -/
theorem start_annotated {k : ℕ} (several : 1 ≤ k) (data : ℕ → T) :
    Pool.Annotated (Sound (2 ^ k)) Thread (start (τ := τ) (2 ^ k) data) := by
  have wide : 2 ≤ 2 ^ k := by simpa using Nat.pow_le_pow_right (n := 2) (by decide) several
  have slots (pos : ℕ) : (initial (τ := τ) (2 ^ k) data).slot pos = pos % 2 ^ k :=
    Nat.and_two_pow_sub_one_eq_mod ..
  refine ⟨⟨⟨wide, Nat.sub_add_cancel (by omega), slots⟩, le_refl _, Nat.zero_le _, fun pos => ?_, ?_⟩,
    fun t => ⟨trivial, by simp [start, initial]⟩⟩
  · have bound := Nat.mod_lt pos (show 0 < 2 ^ k by omega)
    refine ⟨pos % 2 ^ k, Nat.mod_modEq .., .inl ⟨?_, Nat.zero_le _, ?_⟩⟩
    · simp only [start, Queue.cell, slots]
      simp [initial]
    · simpa [start, initial] using bound
  · constructor <;> simp [start, initial]

variable [DecidableEq τ]

theorem step_annotated {pool after : Pool τ (Queue τ T) (Local T)} {label : τ × Call T}
    (holds : Pool.Annotated (Sound cap) Thread pool) (stepped : step pool label = some after) :
    Pool.Annotated (Sound cap) Thread after :=
  have mine := holds.threads label.1
  holds.step (fun _ _ ran => (exec_took ran).sound holds.shared mine)
    (fun _ _ ran _ other theirs => mine.stable holds.shared theirs other
      ((exec_took ran).advance holds.shared mine)) stepped

theorem run_annotated {k : ℕ} (several : 1 ≤ k) {data : ℕ → T} {labels : List (τ × Call T)}
    {pool : Pool τ (Queue τ T) (Local T)}
    (run : Replay.replay step (start (2 ^ k) data) labels = some pool) :
    Pool.Annotated (Sound (2 ^ k)) Thread pool :=
  Replay.invariant_of_step _ (fun _ _ _ => step_annotated) (start_annotated several data) run

/-- The pushes with the first `bound` tickets have all published. -/
def Settled (bound : ℕ) (queue : Queue τ T) : Prop := ∀ p < bound, p + 1 ≤ (queue.cell p).sequence

/-- From a state whose first `bound` tickets are published, a pop reports empty only after all
of these tickets are claimed by pops. -/
theorem run_popEmpty {bound : ℕ} {labels : List (τ × Call T)} {source target : Pool τ (Queue τ T) (Local T)}
    (holds : Pool.Annotated (Sound cap) Thread source) (settled : Settled bound source.shared)
    (run : Replay.replay step source labels = some target) :
    ∃ recent, target.shared.log = recent ++ source.shared.log ∧
      ∀ t, .popEmpty t ∈ recent → bound ≤ target.shared.m_dequeuePos := by
  refine (Replay.invariant_of_step (fun pool => Pool.Annotated (Sound cap) Thread pool ∧
    Settled bound pool.shared ∧ ∃ recent, pool.shared.log = recent ++ source.shared.log ∧
      ∀ t, .popEmpty t ∈ recent → bound ≤ pool.shared.m_dequeuePos) ?_
    ⟨holds, settled, [], rfl, by simp⟩ run).2.2
  rintro pool label after ⟨annotated, settled, recent, same, empties⟩ stepped
  refine ⟨step_annotated annotated stepped, ?_⟩
  obtain ⟨shared, mine, ran, rfl⟩ := Pool.step_eq_some.mp stepped
  have took := exec_took ran
  have asserted := annotated.threads label.1
  have advance := took.advance annotated.shared asserted
  refine ⟨fun p below => (settled p below).trans (advance.sequence p), ?_⟩
  have point := asserted.point
  have further := advance.dequeuePos
  generalize pool.threads label.1 = before at took point
  cases took with
  | popEmpty pos behind =>
    refine ⟨.popEmpty label.1 :: recent, congrArg _ same, fun t _ => ?_⟩
    have late : ¬ pos < bound := fun below => by
      have := settled pos below
      omega
    exact (Nat.not_lt.mp late).trans point
  | pushFull | pushClaim | pushPublish | popClaim | popRelease =>
    refine ⟨_ :: recent, congrArg _ same, fun t member => ?_⟩
    exact (empties t (by simpa using member)).trans further
  | _ => exact ⟨recent, same, fun t member => (empties t member).trans further⟩

/-- Inside a call of `push`. -/
def Local.inPush : Local T → Bool
  | .pushLoadPos _ | .pushLoadSeq _ _ | .pushCas _ _ | .pushStoreData _ _ | .pushStoreSeq _ _ => true
  | _ => false

omit [DecidableEq τ] in
/-- When no push is running, every claimed ticket is published. -/
theorem settled_of_returned {pool : Pool τ (Queue τ T) (Local T)}
    (holds : Pool.Annotated (Sound cap) Thread pool) (returned : ∀ t, (pool.threads t).inPush = false) :
    Settled pool.shared.m_enqueuePos pool.shared := by
  intro p below
  obtain ⟨t, v, claim⟩ := holds.shared.tickets.pushExists p below
  rcases (holds.threads t).published p v claim with past | inside | inside
  · exact past
  · simpa [inside, Local.inPush] using returned t
  · simpa [inside, Local.inPush] using returned t

/-- What the log says about deliveries: a pop returns the value of the push with its ticket, each
ticket has one push and one pop, and no ticket is returned twice. -/
structure Delivered (log : List (Event τ T)) : Prop where
  source : ∀ t p v, .popReturned t p v ∈ log →
    .popClaimed t p ∈ log ∧ ∃ u, .pushClaimed u p v ∈ log
  onePush : ∀ t u p v w, .pushClaimed t p v ∈ log → .pushClaimed u p w ∈ log → t = u ∧ v = w
  onePop : ∀ t u p, .popClaimed t p ∈ log → .popClaimed u p ∈ log → t = u
  pushed : ∀ t p v, .pushReturned t p v ∈ log → .pushClaimed t p v ∈ log
  once : (log.filterMap Event.poppedTicket).Nodup

/-- In every interleaving of pushes and pops the counters stay within one lap, values are
delivered exactly once and by ticket, a claimed cell is written by nobody else, and after all
pushes have returned a pop reports empty only when every pushed value is claimed. -/
theorem delivers_in_ticket_order {k : ℕ} (several : 1 ≤ k) (data : ℕ → T) (labels : List (τ × Call T))
    (pool : Pool τ (Queue τ T) (Local T))
    (run : Replay.replay step (start (2 ^ k) data) labels = some pool) :
    (pool.shared.m_dequeuePos ≤ pool.shared.m_enqueuePos ∧
      pool.shared.m_enqueuePos ≤ pool.shared.m_dequeuePos + 2 ^ k) ∧
    Delivered pool.shared.log ∧
    (∀ t u v p q, u ≠ t → pool.threads t = .pushStoreData v p → (pool.threads u).held = some q →
      pool.shared.slot q ≠ pool.shared.slot p) ∧
    ((∀ t, (pool.threads t).inPush = false) → ∀ more target,
      Replay.replay step pool more = some target →
        ∃ recent, target.shared.log = recent ++ pool.shared.log ∧
          ((∃ t, .popEmpty t ∈ recent) → ∀ u p v, .pushClaimed u p v ∈ pool.shared.log →
            ∃ w, .popClaimed w p ∈ target.shared.log)) := by
  have holds := run_annotated several run
  have sound := holds.shared
  have tickets := sound.tickets
  refine ⟨⟨sound.behind, sound.ahead⟩, ⟨?_, tickets.pushUnique, tickets.popUnique, tickets.pushReturned,
    tickets.popOnce⟩, ?_, ?_⟩
  · intro t p v member
    obtain ⟨claim, source, _⟩ := tickets.popReturned t p v member
    exact ⟨claim, source⟩
  · intro t u v p q other inside held
    have apart := held_exclusive sound (holds.threads t) (holds.threads u) other
      (by rw [inside]; rfl) held
    rw [sound.shape.slot, sound.shape.slot]
    exact apart
  · intro returned more target next
    obtain ⟨recent, same, empties⟩ := run_popEmpty holds (settled_of_returned holds returned) next
    refine ⟨recent, same, fun ⟨t, empty⟩ u p v claim => ?_⟩
    have final := Replay.invariant_of_step _ (fun _ _ _ => step_annotated) holds next
    exact final.shared.tickets.popExists p ((tickets.pushBound u p v claim).trans_le (empties t empty))

/-- Two threads exchange one value through a queue of two cells, and a second pop finds it empty. -/
def handOver : List (ℕ × Call ℕ) :=
  (0, .push 7) :: List.replicate 5 (0, .go) ++ (1, .pop) :: List.replicate 5 (1, .go) ++
    (1, .pop) :: List.replicate 2 (1, .go)

theorem delivers_handOver :
    let pool := (Replay.replay step (start (2 ^ 1) fun _ => 0) handOver).get (by decide)
    pool.shared.log = [.popEmpty 1, .popReturned 1 0 7, .popClaimed 1 0, .pushReturned 0 0 7,
      .pushClaimed 0 0 7] ∧ Delivered pool.shared.log :=
  ⟨by decide, (delivers_in_ticket_order (le_refl 1) (fun _ => 0) handOver _
    (Option.some_get _).symm).2.1⟩

end LockFreeCore.LockFreeQueue
