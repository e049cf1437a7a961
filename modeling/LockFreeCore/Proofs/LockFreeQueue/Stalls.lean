import LockFreeCore.Proofs.LockFreeQueue

/-! # Threads that stop in the middle of a call

A thread that stops between its claim and its sequence store holds up others in two ways. One that has
read the position before the claim never reads it again: its cell says that it is its turn, and its
compare-and-swap fails, round after round. And one that comes to the cell afterwards takes the queue
for full or empty.
-/

namespace LockFreeCore.LockFreeQueue

open Replay

variable {τ T : Type*} {cap : ℕ} {queue : Queue τ T} {thread : τ} {mine : Local T}

/-- Its position has been claimed by a thread that has not stored the sequence number yet. -/
def Stuck (queue : Queue τ T) : Local T → Prop
  | .pushLoadSeq _ pos | .pushCas _ pos => queue.m_enqueuePos ≠ pos ∧ (queue.cell pos).sequence = pos
  | .popLoadSeq pos | .popCas pos => queue.m_dequeuePos ≠ pos ∧ (queue.cell pos).sequence = pos + 1
  | _ => False

/-- Alone, the thread comes to the end of its call. -/
abbrev Returns (queue : Queue τ T) (thread : τ) (mine : Local T) : Prop :=
  Pool.Alone exec thread .go (· = .idle) queue mine

/-! ## Calls that never return -/

theorem Stuck.step {next : Queue τ T} {after : Local T} (stuck : Stuck queue mine)
    (ran : exec queue thread mine .go = some (next, after)) : Stuck next after := by
  have took := exec_took ran
  cases took with
  | pushTurn value pos turn => exact ⟨stuck.1, turn⟩
  | pushFull value pos behind => exact absurd stuck.2 behind.ne
  | pushStale value pos past => exact absurd stuck.2 past.ne'
  | pushClaim value pos same => exact absurd same stuck.1
  | pushLost value pos => exact stuck
  | popTurn pos turn => exact ⟨stuck.1, turn⟩
  | popEmpty pos behind => exact absurd stuck.2 (Nat.lt_succ_of_le behind).ne
  | popStale pos past => exact absurd stuck.2 past.ne'
  | popClaim pos same => exact absurd same stuck.1
  | popLost pos => exact stuck
  | _ => exact stuck.elim

theorem Stuck.never (stuck : Stuck queue mine) : ¬ Returns queue thread mine := by
  intro returns
  induction returns with
  | done here =>
    subst here
    exact stuck
  | goes ran rest ih => exact ih (stuck.step ran)

/-! ## Calls that return -/

/-- No cell is ahead of a ticket that is not claimed. -/
theorem Sound.sequence_le (sound : Sound cap queue) : (queue.cell queue.m_enqueuePos).sequence ≤ queue.m_enqueuePos := by
  have ahead := sound.ahead
  have behind := sound.behind
  obtain ⟨p, same, free | full⟩ := sound.phase queue.m_enqueuePos
  · rw [← sound.shape.cell_congr same, free.sequence]
    by_contra above
    have reach := free.inReach
    have := modEq_eq same.symm (by omega) (by omega)
    omega
  · rw [← sound.shape.cell_congr same, full.sequence]
    exact full.claimed

theorem Sound.sequence_le_succ (sound : Sound cap queue) :
    (queue.cell queue.m_dequeuePos).sequence ≤ queue.m_dequeuePos + 1 := by
  have ahead := sound.ahead
  obtain ⟨p, same, free | full⟩ := sound.phase queue.m_dequeuePos
  · rw [← sound.shape.cell_congr same, free.sequence]
    have reach := free.inReach
    have := modEq_eq same.symm free.unclaimed reach
    omega
  · rw [← sound.shape.cell_congr same, full.sequence]
    by_contra above
    have claimed := full.claimed
    have := modEq_eq same.symm (by omega) (by omega)
    omega

theorem returns_storeSeq (queue : Queue τ T) (thread : τ) (value : T) (pos : ℕ) :
    Returns queue thread (.pushStoreSeq value pos) :=
  .goes rfl (.done rfl)

theorem returns_claimed (queue : Queue τ T) (thread : τ) (value : T) (pos : ℕ) :
    Returns queue thread (.pushStoreData value pos) :=
  .goes rfl (returns_storeSeq ..)

theorem returns_release (queue : Queue τ T) (thread : τ) (value : T) (pos : ℕ) :
    Returns queue thread (.popStoreSeq pos value) :=
  .goes rfl (.done rfl)

theorem returns_popClaimed (queue : Queue τ T) (thread : τ) (pos : ℕ) :
    Returns queue thread (.popLoadData pos) :=
  .goes rfl (returns_release ..)

theorem returns_pushCas (value : T) {pos : ℕ} (same : queue.m_enqueuePos = pos) :
    Returns queue thread (.pushCas value pos) := by
  have ran : exec queue thread (.pushCas value pos) .go =
      some ({ queue with m_enqueuePos := pos + 1 }.record (.pushClaimed thread pos value), .pushStoreData value pos) := by
    simp only [exec, push, if_pos same, Option.orElse]
  exact .goes ran (returns_claimed ..)

theorem returns_popCas {pos : ℕ} (same : queue.m_dequeuePos = pos) : Returns queue thread (.popCas pos) := by
  have ran : exec queue thread (.popCas pos) .go =
      some ({ queue with m_dequeuePos := pos + 1 }.record (.popClaimed thread pos), .popLoadData pos) := by
    simp only [exec, push, pop, if_pos same, Option.orElse]
  exact .goes ran (returns_popClaimed ..)

/-- A push whose cell is not ahead of it returns, unless it is stuck. -/
theorem returns_pushSeq (value : T) {pos : ℕ} (notPast : (queue.cell pos).sequence ≤ pos)
    (free : ¬ Stuck queue (.pushLoadSeq value pos)) : Returns queue thread (.pushLoadSeq value pos) := by
  rcases notPast.lt_or_eq with behind | turn
  · have ran : exec queue thread (.pushLoadSeq value pos) .go = some (queue.record (.pushFull thread value), .idle) := by
      have diff : ¬ ((queue.cell pos).sequence : ℤ) - pos = 0 := by omega
      have less : ((queue.cell pos).sequence : ℤ) - pos < 0 := by omega
      simp only [exec, push, if_neg diff, if_pos less, Option.orElse]
    exact .goes ran (.done rfl)
  · have ran : exec queue thread (.pushLoadSeq value pos) .go = some (queue, .pushCas value pos) := by
      have diff : ((queue.cell pos).sequence : ℤ) - pos = 0 := by omega
      simp only [exec, push, if_pos diff, Option.orElse]
    have same : queue.m_enqueuePos = pos := by
      by_contra other
      exact free ⟨other, turn⟩
    exact .goes ran (returns_pushCas value same)

/-- A pop whose cell is not ahead of it returns, unless it is stuck. -/
theorem returns_popSeq {pos : ℕ} (notPast : (queue.cell pos).sequence ≤ pos + 1)
    (free : ¬ Stuck queue (.popLoadSeq pos : Local T)) : Returns queue thread (.popLoadSeq pos) := by
  rcases notPast.lt_or_eq with behind | turn
  · have ran : exec queue thread (.popLoadSeq pos) .go = some (queue.record (.popEmpty thread), .idle) := by
      have diff : ¬ ((queue.cell pos).sequence : ℤ) - (pos + 1) = 0 := by omega
      have less : ((queue.cell pos).sequence : ℤ) - (pos + 1) < 0 := by omega
      simp only [exec, push, pop, if_neg diff, if_pos less, Option.orElse]
    exact .goes ran (.done rfl)
  · have ran : exec queue thread (.popLoadSeq pos) .go = some (queue, .popCas pos) := by
      have diff : ((queue.cell pos).sequence : ℤ) - (pos + 1) = 0 := by omega
      simp only [exec, push, pop, if_pos diff, Option.orElse]
    have same : queue.m_dequeuePos = pos := by
      by_contra other
      exact free ⟨other, turn⟩
    exact .goes ran (returns_popCas same)

/-- A push that has just read the position returns. -/
theorem Sound.returns_push (sound : Sound cap queue) (thread : τ) (value : T) :
    Returns queue thread (.pushLoadPos value) :=
  .goes rfl (returns_pushSeq value sound.sequence_le fun stuck => stuck.1 rfl)

theorem Sound.returns_pop (sound : Sound cap queue) (thread : τ) : Returns queue thread .popLoadPos :=
  .goes rfl (returns_popSeq sound.sequence_le_succ fun stuck => stuck.1 rfl)

theorem Sound.returns_pushLoadSeq (sound : Sound cap queue) {value : T} {pos : ℕ}
    (free : ¬ Stuck queue (.pushLoadSeq value pos)) : Returns queue thread (.pushLoadSeq value pos) := by
  rcases Nat.lt_or_ge pos (queue.cell pos).sequence with past | notPast
  · have ran : exec queue thread (.pushLoadSeq value pos) .go = some (queue, .pushLoadPos value) := by
      have diff : ¬ ((queue.cell pos).sequence : ℤ) - pos = 0 := by omega
      have more : ¬ ((queue.cell pos).sequence : ℤ) - pos < 0 := by omega
      simp only [exec, push, if_neg diff, if_neg more, Option.orElse]
    exact .goes ran (sound.returns_push thread value)
  · exact returns_pushSeq value notPast free

theorem Sound.returns_popLoadSeq (sound : Sound cap queue) {pos : ℕ}
    (free : ¬ Stuck queue (.popLoadSeq pos : Local T)) : Returns queue thread (.popLoadSeq pos) := by
  rcases Nat.lt_or_ge (pos + 1) (queue.cell pos).sequence with past | notPast
  · have ran : exec queue thread (.popLoadSeq pos) .go = some (queue, .popLoadPos) := by
      have diff : ¬ ((queue.cell pos).sequence : ℤ) - (pos + 1) = 0 := by omega
      have more : ¬ ((queue.cell pos).sequence : ℤ) - (pos + 1) < 0 := by omega
      simp only [exec, push, pop, if_neg diff, if_neg more, Option.orElse]
    exact .goes ran (sound.returns_pop thread)
  · exact returns_popSeq notPast free

/-- Alone, a thread that is not stuck comes to the end of its call. -/
theorem Sound.returns (sound : Sound cap queue) (free : ¬ Stuck queue mine) : Returns queue thread mine := by
  cases mine with
  | idle => exact .done rfl
  | pushLoadPos value => exact sound.returns_push thread value
  | pushLoadSeq value pos => exact sound.returns_pushLoadSeq free
  | pushCas value pos =>
    by_cases same : queue.m_enqueuePos = pos
    · exact returns_pushCas value same
    · have ran : exec queue thread (.pushCas value pos) .go = some (queue, .pushLoadSeq value pos) := by
        simp only [exec, push, if_neg same, Option.orElse]
      exact .goes ran (sound.returns_pushLoadSeq free)
  | pushStoreData value pos => exact returns_claimed queue thread value pos
  | pushStoreSeq value pos => exact returns_storeSeq queue thread value pos
  | popLoadPos => exact sound.returns_pop thread
  | popLoadSeq pos => exact sound.returns_popLoadSeq free
  | popCas pos =>
    by_cases same : queue.m_dequeuePos = pos
    · exact returns_popCas same
    · have ran : exec queue thread (.popCas pos) .go = some (queue, .popLoadSeq pos) := by
        simp only [exec, push, pop, if_neg same, Option.orElse]
      exact .goes ran (sound.returns_popLoadSeq free)
  | popLoadData pos => exact returns_popClaimed queue thread pos
  | popStoreSeq pos value => exact returns_release queue thread value pos

variable [DecidableEq τ]

/-- From any state that threads can get to, a call whose thread alone goes on returns exactly when the
thread is not stuck. -/
theorem returns_alone_iff {k : ℕ} (several : 1 ≤ k) (data : ℕ → T) (labels : List (τ × Call T))
    (pool : Pool τ (Queue τ T) (Local T)) (run : replay step (start (2 ^ k) data) labels = some pool) (thread : τ) :
    (∃ n final, replay step pool (List.replicate n (thread, .go)) = some final ∧ final.threads thread = .idle) ↔
      ¬ Stuck pool.shared (pool.threads thread) := by
  have sound := (run_annotated several run).shared
  constructor
  · intro returns stuck
    exact stuck.never (Pool.alone_iff.mpr returns)
  · intro free
    exact Pool.alone_iff.mp (sound.returns free)

/-- Two threads read the position of an empty queue, and one of them claims it. -/
def oneClaims : List (Bool × Call ℕ) :=
  (false, .push 7) :: List.replicate 1 (false, .go) ++ (true, .push 8) :: List.replicate 3 (true, .go)

/-- The other one goes round for ever. -/
theorem push_never_returns :
    let pool := (replay step (start (2 ^ 1) fun _ => 0) oneClaims).get (by decide)
    pool.threads false = .pushLoadSeq 7 0 ∧
      ∀ n final, replay step pool (List.replicate n (false, .go)) = some final → final.threads false ≠ .idle := by
  intro pool
  have stuck : Stuck pool.shared (pool.threads false) := by
    change Stuck pool.shared (.pushLoadSeq 7 0)
    exact ⟨by decide, by decide⟩
  refine ⟨rfl, fun n final run here => ?_⟩
  exact stuck.never (Pool.alone_iff.mpr ⟨n, final, run, here⟩)

theorem returns_alone_oneClaims :
    let pool := (replay step (start (2 ^ 1) fun _ => 0) oneClaims).get (by decide)
    ∃ n final, replay step pool (List.replicate n (true, .go)) = some final ∧ final.threads true = .idle :=
  (returns_alone_iff (le_refl 1) (fun _ => 0) oneClaims _ (Option.some_get _).symm true).mpr fun stuck => stuck

/-! ## Full and empty -/

/-- The ticket of a pop between its claim and its sequence store. -/
def Local.popping : Local T → Option ℕ
  | .popLoadData p | .popStoreSeq p _ => some p
  | _ => none

/-- The ticket of a push between its claim and its sequence store. -/
def Local.pushing : Local T → Option ℕ
  | .pushStoreData _ p | .pushStoreSeq _ p => some p
  | _ => none

/-- The step takes a sequence number for full or empty that only waits for a thread between its claim and
its sequence store: for the pop of the ticket a lap before, or, though a later push has returned, for the
push of the ticket. -/
def Misled (cap : ℕ) (pool : Pool τ (Queue τ T) (Local T)) (label : τ × Call T) : Prop :=
  (∃ value q u, pool.threads label.1 = .pushLoadSeq value (q + cap) ∧ (pool.threads u).popping = some q) ∨
  ∃ p u, pool.threads label.1 = .popLoadSeq p ∧ (pool.threads u).pushing = some p ∧
    ∃ w q v, .pushReturned w q v ∈ pool.shared.log ∧ p < q

/-- What has been returned or claimed shows in the cells, but for the pops that are still at it. -/
structure Followed (cap : ℕ) (pool : Pool τ (Queue τ T) (Local T)) : Prop where
  annotated : Pool.Annotated (Sound cap) Thread pool
  returned : ∀ t p v, .pushReturned t p v ∈ pool.shared.log → p + 1 ≤ (pool.shared.cell p).sequence
  popped : ∀ t p, .popClaimed t p ∈ pool.shared.log →
    p + 1 < (pool.shared.cell p).sequence ∨ (pool.threads t).popping = some p

omit [DecidableEq τ] in
theorem Took.returned {next : Queue τ T} {after : Local T} (took : Took queue thread mine next after) {t : τ} {p : ℕ}
    {v : T} (member : .pushReturned t p v ∈ next.log) :
    .pushReturned t p v ∈ queue.log ∨ p + 1 ≤ (next.cell p).sequence := by
  cases took with
  | pushPublish value pos =>
    rcases List.mem_cons.mp member with same | old
    · cases same
      right
      rw [Queue.record_cell, Queue.storeSeq_self]
    · exact .inl old
  | pushFull | pushClaim | popEmpty | popClaim | popRelease =>
    exact .inl (by simpa using member)
  | _ => exact .inl member

omit [DecidableEq τ] in
theorem Took.popped {next : Queue τ T} {after : Local T} (took : Took queue thread mine next after) {t : τ} {p : ℕ}
    (member : .popClaimed t p ∈ next.log) :
    .popClaimed t p ∈ queue.log ∨ (t = thread ∧ after.popping = some p) := by
  cases took with
  | popClaim pos same =>
    rcases List.mem_cons.mp member with here | old
    · cases here
      exact .inr ⟨rfl, rfl⟩
    · exact .inl old
  | pushFull | pushClaim | pushPublish | popEmpty | popRelease =>
    exact .inl (by simpa using member)
  | _ => exact .inl member

omit [DecidableEq τ] in
/-- A pop holds on to its ticket until it has stored the sequence number. -/
theorem Took.popping {next : Queue τ T} {after : Local T} (shape : queue.Shape cap)
    (took : Took queue thread mine next after) {p : ℕ} (held : mine.popping = some p) :
    p + 1 < (next.cell p).sequence ∨ after.popping = some p := by
  have wide := shape.wide
  have mask := shape.mask
  cases took with
  | popData pos => exact .inr held
  | popRelease pos value =>
    cases held
    left
    rw [Queue.record_cell, Queue.storeSeq_self]
    dsimp only
    omega
  | _ => cases held

theorem Followed.step {pool after : Pool τ (Queue τ T) (Local T)} {label : τ × Call T} (followed : Followed cap pool)
    (stepped : step pool label = some after) : Followed cap after := by
  have annotated := step_annotated followed.annotated stepped
  obtain ⟨shared, mine, ran, rfl⟩ := Pool.step_eq_some.mp stepped
  have took := exec_took ran
  have sound := followed.annotated.shared
  have grows := (took.advance sound (followed.annotated.threads label.1)).sequence
  refine ⟨annotated, fun t p v member => ?_, fun t p member => ?_⟩
  · rcases took.returned member with before | now
    · exact (followed.returned t p v before).trans (grows p)
    · exact now
  · dsimp only
    rcases took.popped member with before | ⟨rfl, held⟩
    · rcases followed.popped t p before with past | held
      · exact .inl (past.trans_le (grows p))
      · by_cases same : t = label.1
        · subst same
          rw [Function.update_self]
          exact took.popping sound.shape held
        · exact .inr ((congrArg Local.popping (Function.update_of_ne same ..)).trans held)
    · rw [Function.update_self]
      exact .inr held

omit [DecidableEq τ] in
theorem Took.full {next : Queue τ T} {after : Local T} {value : T} (took : Took queue thread mine next after)
    (log : next.log = .pushFull thread value :: queue.log) :
    ∃ pos, mine = .pushLoadSeq value pos ∧ (queue.cell pos).sequence < pos := by
  cases took with
  | pushFull value' pos behind =>
    cases (List.cons.inj log).1
    exact ⟨pos, rfl, behind⟩
  | pushClaim | pushPublish | popEmpty | popClaim | popRelease => exact absurd (List.cons.inj log).1 (by simp)
  | _ => exact absurd log.symm (List.cons_ne_self _ _)

omit [DecidableEq τ] in
theorem Took.empty {next : Queue τ T} {after : Local T} (took : Took queue thread mine next after)
    (log : next.log = .popEmpty thread :: queue.log) :
    ∃ pos, mine = .popLoadSeq pos ∧ (queue.cell pos).sequence ≤ pos := by
  cases took with
  | popEmpty pos behind => exact ⟨pos, rfl, behind⟩
  | pushFull | pushClaim | pushPublish | popClaim | popRelease => exact absurd (List.cons.inj log).1 (by simp)
  | _ => exact absurd log.symm (List.cons_ne_self _ _)

omit [DecidableEq τ] in
/-- A push that finds its cell behind finds the queue full, or the cell still in the hands of a pop. -/
theorem Followed.full {pool : Pool τ (Queue τ T) (Local T)} (followed : Followed cap pool) {value : T} {pos : ℕ}
    (here : pool.threads thread = .pushLoadSeq value pos) (behind : (pool.shared.cell pos).sequence < pos)
    (clear : ¬ ∃ q u, q + cap = pos ∧ (pool.threads u).popping = some q) :
    pool.shared.m_enqueuePos = pool.shared.m_dequeuePos + cap := by
  have sound := followed.annotated.shared
  have reach : pos ≤ pool.shared.m_enqueuePos := by
    have point := (followed.annotated.threads thread).point
    rwa [here] at point
  have ahead := sound.ahead
  have lap {p : ℕ} (same : p ≡ pos [MOD cap]) (below : p < pos) : p + cap ≤ pos := by
    by_contra near
    have := modEq_eq same below.le (by omega)
    omega
  obtain ⟨p, same, free | full⟩ := sound.phase pos
  · rw [← sound.shape.cell_congr same, free.sequence] at behind
    have := lap same behind
    have := free.unclaimed
    omega
  · rw [← sound.shape.cell_congr same, full.sequence] at behind
    have := lap same (by omega)
    have current := full.current
    by_contra room
    have claimed : p < pool.shared.m_dequeuePos := by omega
    obtain ⟨u, claim⟩ := sound.tickets.popExists p claimed
    rcases followed.popped u p claim with past | held
    · rw [full.sequence] at past
      exact lt_irrefl _ past
    · exact clear ⟨p, u, by omega, held⟩

omit [DecidableEq τ] in
/-- A pop that finds its cell behind finds all that was returned claimed, or the cell still in the hands of
a push while a later one has returned. -/
theorem Followed.empty {pool : Pool τ (Queue τ T) (Local T)} (followed : Followed cap pool) {pos : ℕ}
    (here : pool.threads thread = .popLoadSeq pos) (behind : (pool.shared.cell pos).sequence ≤ pos)
    (clear : ¬ ((∃ u, (pool.threads u).pushing = some pos) ∧ ∃ w q v, .pushReturned w q v ∈ pool.shared.log ∧ pos < q))
    {w : τ} {q : ℕ} {v : T} (returned : .pushReturned w q v ∈ pool.shared.log) :
    ∃ u, .popClaimed u q ∈ pool.shared.log := by
  have sound := followed.annotated.shared
  have reach : pos ≤ pool.shared.m_dequeuePos := by
    have point := (followed.annotated.threads thread).point
    rwa [here] at point
  refine sound.tickets.popExists q ?_
  by_contra unclaimed
  have bound := sound.tickets.pushBound w q v (sound.tickets.pushReturned w q v returned)
  have published := followed.returned w q v returned
  have later : pos < q := by
    refine lt_of_le_of_ne (by omega) ?_
    rintro rfl
    omega
  obtain ⟨u, x, claim⟩ := sound.tickets.pushExists pos (by omega)
  refine clear ⟨⟨u, ?_⟩, w, q, v, returned, later⟩
  rcases (followed.annotated.threads u).published pos x claim with past | held | held
  · omega
  · rw [held]
    rfl
  · rw [held]
    rfl

omit [DecidableEq τ] in
theorem start_followed {k : ℕ} (several : 1 ≤ k) (data : ℕ → T) :
    Followed (2 ^ k) (start (τ := τ) (2 ^ k) data) :=
  ⟨start_annotated several data, fun _ _ _ member => absurd member List.not_mem_nil,
    fun _ _ member => absurd member List.not_mem_nil⟩

/-- In a run in which no thread is misled, the queue is full when a push reports so, and when a pop reports
that the queue is empty, all that has been pushed is claimed. -/
theorem false_means_full_or_empty {k : ℕ} (several : 1 ≤ k) (data : ℕ → T) (labels : List (τ × Call T))
    (pool next : Pool τ (Queue τ T) (Local T)) (thread : τ)
    (clear : Along step (fun pool label => ¬ Misled (2 ^ k) pool label) (start (2 ^ k) data) (labels ++ [(thread, .go)]))
    (run : replay step (start (2 ^ k) data) labels = some pool) (ends : step pool (thread, .go) = some next) :
    (∀ value, next.shared.log = .pushFull thread value :: pool.shared.log →
      pool.shared.m_enqueuePos = pool.shared.m_dequeuePos + 2 ^ k) ∧
    (next.shared.log = .popEmpty thread :: pool.shared.log → ∀ w q v, .pushReturned w q v ∈ pool.shared.log →
      ∃ u, .popClaimed u q ∈ pool.shared.log) := by
  have followed : Followed (2 ^ k) pool := invariant_of_step _ (fun _ _ _ before => before.step)
    (start_followed several data) run
  have last : ¬ Misled (2 ^ k) pool (thread, .go) := ((along_append.mp clear).2 pool run).1
  obtain ⟨shared, mine, ran, rfl⟩ := Pool.step_eq_some.mp ends
  have took := exec_took ran
  refine ⟨fun value full => ?_, fun empty w q v returned => ?_⟩
  · obtain ⟨pos, here, behind⟩ := took.full full
    refine followed.full here behind fun ⟨q, u, same, held⟩ => last (.inl ⟨value, q, u, ?_, held⟩)
    rw [same]
    exact here
  · obtain ⟨pos, here, behind⟩ := took.empty empty
    refine followed.empty here behind (fun ⟨⟨u, held⟩, later⟩ => last (.inr ⟨pos, u, here, held, ?_⟩)) returned
    obtain ⟨w, q, v, returned, after⟩ := later
    exact ⟨w, q, v, returned, after⟩

def Local.loadsSeq : Local T → Bool
  | .pushLoadSeq _ _ | .popLoadSeq _ => true
  | _ => false

omit [DecidableEq τ] in
/-- A thread is not misled while no other one is between its claim and its sequence store. -/
theorem not_misled {cap : ℕ} {pool : Pool τ (Queue τ T) (Local T)} {label : τ × Call T}
    (apart : (pool.threads label.1).loadsSeq = true →
      ∀ u, (pool.threads u).popping = none ∧ (pool.threads u).pushing = none) : ¬ Misled cap pool label := by
  rintro (⟨value, q, u, here, held⟩ | ⟨p, u, here, held, _⟩)
  · rw [here] at apart
    rw [(apart rfl u).1] at held
    cases held
  · rw [here] at apart
    rw [(apart rfl u).2] at held
    cases held

/-- Two threads push at once; one loses the swap and pushes behind the other, which then pushes once more. -/
def pushesMeet : List (Bool × Call ℕ) :=
  [(true, .push 7), (false, .push 8), (true, .go), (false, .go), (true, .go), (false, .go), (true, .go), (false, .go)] ++
    List.replicate 2 (true, .go) ++ List.replicate 6 (false, .go) ++ [(true, .push 9), (true, .go)]

/-- They pop in the same way. -/
def popsMeet : List (Bool × Call ℕ) :=
  [(true, .pop), (false, .pop), (true, .go), (false, .go), (true, .go), (false, .go), (true, .go), (false, .go)] ++
    List.replicate 2 (true, .go) ++ List.replicate 6 (false, .go) ++ [(false, .pop), (false, .go)]

theorem false_means_full_or_empty_meeting :
    (let pool := (replay step (start (2 ^ 1) fun _ => 0) pushesMeet).get (by decide)
      let next := (step pool (true, .go)).get (by decide)
      next.shared.log = .pushFull true 9 :: pool.shared.log ∧
        pool.shared.m_enqueuePos = pool.shared.m_dequeuePos + 2 ^ 1) ∧
    (let pool := (replay step (start (2 ^ 1) fun _ => 0) (pushesMeet ++ (true, .go) :: popsMeet)).get (by decide)
      let next := (step pool (false, .go)).get (by decide)
      next.shared.log = .popEmpty false :: pool.shared.log ∧ .pushReturned false 1 8 ∈ pool.shared.log ∧
        ∃ u, .popClaimed u 1 ∈ pool.shared.log) := by
  constructor
  · intro pool next
    have reported : next.shared.log = .pushFull true 9 :: pool.shared.log := by decide
    have clear : Along step (fun pool label => (pool.threads label.1).loadsSeq = true →
        ∀ u, (pool.threads u).popping = none ∧ (pool.threads u).pushing = none)
        (start (2 ^ 1) fun _ => 0) (pushesMeet ++ [(true, .go)]) := by decide
    exact ⟨reported, (false_means_full_or_empty (le_refl 1) (fun _ => 0) pushesMeet pool next true
      (clear.imp fun _ _ => not_misled) (Option.some_get _).symm (Option.some_get _).symm).1 9 reported⟩
  · intro pool next
    have reported : next.shared.log = .popEmpty false :: pool.shared.log := by decide
    have pushed : .pushReturned false 1 8 ∈ pool.shared.log := by decide
    have clear : Along step (fun pool label => (pool.threads label.1).loadsSeq = true →
        ∀ u, (pool.threads u).popping = none ∧ (pool.threads u).pushing = none)
        (start (2 ^ 1) fun _ => 0) (pushesMeet ++ (true, .go) :: popsMeet ++ [(false, .go)]) := by decide +kernel
    exact ⟨reported, pushed, (false_means_full_or_empty (le_refl 1) (fun _ => 0) _ pool next false
      (clear.imp fun _ _ => not_misled) (Option.some_get _).symm (Option.some_get _).symm).2 reported false 1 8 pushed⟩

/-- Two pushes fill a queue of two cells, and a pop claims the first element and stops there. -/
def popStops : List (Bool × Call ℕ) :=
  (false, .push 7) :: List.replicate 5 (false, .go) ++ (false, .push 8) :: List.replicate 5 (false, .go) ++
    (true, .pop) :: List.replicate 3 (true, .go)

/-- A push claims the first element and stops there, and another one goes through. -/
def pushStops : List (Bool × Call ℕ) :=
  (true, .push 7) :: List.replicate 3 (true, .go) ++ (false, .push 8) :: List.replicate 5 (false, .go)

/-- A push reports full though there was room all the time, and a pop reports empty though a value pushed
long before is there all the time. -/
theorem false_without_full_or_empty :
    (let pool := (replay step (start (2 ^ 1) fun _ => 0) popStops).get (by decide)
      let calls : List (Bool × Call ℕ) := [(false, .push 9), (false, .go), (false, .go)]
      Along step (fun pool _ => pool.shared.m_enqueuePos < pool.shared.m_dequeuePos + 2) pool calls ∧
        (replay step pool calls).map (fun next => next.shared.log) = some (.pushFull false 9 :: pool.shared.log)) ∧
    (let pool := (replay step (start (2 ^ 1) fun _ => 0) pushStops).get (by decide)
      let calls : List (Bool × Call ℕ) := [(false, .pop), (false, .go), (false, .go)]
      Along step (fun pool _ => .pushReturned false 1 8 ∈ pool.shared.log ∧
        .popClaimed true 1 ∉ pool.shared.log ∧ .popClaimed false 1 ∉ pool.shared.log) pool calls ∧
        (replay step pool calls).map (fun next => next.shared.log) = some (.popEmpty false :: pool.shared.log)) := by
  refine ⟨⟨by decide, by decide⟩, by decide, by decide⟩

end LockFreeCore.LockFreeQueue
