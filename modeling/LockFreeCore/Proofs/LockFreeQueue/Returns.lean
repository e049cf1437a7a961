import LockFreeCore.Proofs.LockFreeQueue.Linearization

/-! # What a caller sees of its calls

A call that was started stays a `push` of its value, or a `pop`, until it returns, and what it returns is the event
that it records last. A thread that is outside the queue has returned from all its claims.
-/

namespace LockFreeCore.LockFreeQueue

variable {τ T : Type*} {queue next : Queue τ T} {thread : τ} {mine after : Local T}

/-- The value of the `push` that a thread is inside. -/
def Local.pushed : Local T → Option T
  | .pushLoadPos value | .pushLoadSeq value _ | .pushCas value _ | .pushStoreData value _ | .pushStoreSeq value _ => some value
  | _ => none

/-- Inside a call of `pop`. -/
def Local.inPop : Local T → Bool
  | .popLoadPos | .popLoadSeq _ | .popCas _ | .popLoadData _ | .popStoreSeq _ _ => true
  | _ => false

/-- A step inside a `push`. -/
theorem Took.of_pushed {value : T} (took : Took queue thread mine next after) (inside : mine.pushed = some value) :
    after.pushed = some value ∧ (next.log = queue.log ∨ ∃ p, next.log = .pushClaimed thread p value :: queue.log) ∨
      after = .idle ∧ (next.log = .pushFull thread value :: queue.log ∨
        ∃ p, next.log = .pushReturned thread p value :: queue.log) := by
  cases took with
  | pushFull other pos =>
    obtain rfl := Option.some.inj inside
    exact .inr ⟨rfl, .inl rfl⟩
  | pushClaim other pos =>
    obtain rfl := Option.some.inj inside
    exact .inl ⟨rfl, .inr ⟨pos, rfl⟩⟩
  | pushPublish other pos =>
    obtain rfl := Option.some.inj inside
    exact .inr ⟨rfl, .inr ⟨pos, rfl⟩⟩
  | pushPos | pushTurn | pushStale | pushLost | pushData => exact .inl ⟨inside, .inl rfl⟩
  | _ => cases inside

/-- A step inside a `pop`, which pushes nothing. -/
theorem Took.of_inPop (took : Took queue thread mine next after) (inside : mine.inPop = true) :
    next.m_enqueuePos = queue.m_enqueuePos ∧
      (after.inPop = true ∧ (next.log = queue.log ∨ ∃ p, next.log = .popClaimed thread p :: queue.log) ∨
        after = .idle ∧ ((∃ pos, mine = .popLoadSeq pos ∧ (queue.cell pos).sequence ≤ pos ∧ next = queue.record (.popEmpty thread)) ∨
          ∃ p v, next.log = .popReturned thread p v :: queue.log)) := by
  cases took with
  | popEmpty pos behind => exact ⟨rfl, .inr ⟨rfl, .inl ⟨pos, rfl, behind, rfl⟩⟩⟩
  | popClaim pos => exact ⟨rfl, .inl ⟨rfl, .inr ⟨pos, rfl⟩⟩⟩
  | popRelease pos value => exact ⟨rfl, .inr ⟨rfl, .inr ⟨pos, value, rfl⟩⟩⟩
  | popPos | popTurn | popStale | popLost | popData => exact ⟨rfl, .inl ⟨rfl, .inl rfl⟩⟩
  | _ => cases inside

/-- A thread that holds no ticket has returned from all its claims. -/
structure Returned (queue : Queue τ T) (thread : τ) (mine : Local T) : Prop where
  pushes : ∀ p v, .pushClaimed thread p v ∈ queue.log → .pushReturned thread p v ∈ queue.log ∨ mine.pushing = some p
  pops : ∀ p, .popClaimed thread p ∈ queue.log → (∃ v, .popReturned thread p v ∈ queue.log) ∨ mine.popping = some p

theorem Returned.own {cap : ℕ} (tickets : Tickets cap queue) (asserted : Thread queue thread mine)
    (returned : Returned queue thread mine) (took : Took queue thread mine next after) : Returned next thread after := by
  have point := asserted.point
  obtain ⟨pushes, pops⟩ := returned
  cases took with
  | pushFull | popEmpty =>
    refine ⟨fun p v claimed => ?_, fun p claimed => ?_⟩
    · have done := (pushes p v (by simpa using claimed)).resolve_right (by simp [Local.pushing])
      exact .inl (List.mem_cons_of_mem _ done)
    · obtain ⟨v, done⟩ := (pops p (by simpa using claimed)).resolve_right (by simp [Local.popping])
      exact .inl ⟨v, List.mem_cons_of_mem _ done⟩
  | pushClaim value pos =>
    refine ⟨fun p v claimed => ?_, fun p claimed => ?_⟩
    · rcases List.mem_cons.mp claimed with here | old
      · cases here
        exact .inr rfl
      · exact .inl (List.mem_cons_of_mem _ ((pushes p v old).resolve_right (by simp [Local.pushing])))
    · obtain ⟨v, done⟩ := (pops p (by simpa using claimed)).resolve_right (by simp [Local.popping])
      exact .inl ⟨v, List.mem_cons_of_mem _ done⟩
  | pushPublish value pos =>
    refine ⟨fun p v claimed => .inl ?_, fun p claimed => ?_⟩
    · have old : .pushClaimed thread p v ∈ queue.log := by simpa using claimed
      rcases pushes p v old with done | held
      · exact List.mem_cons_of_mem _ done
      · obtain rfl := Option.some.inj held
        obtain ⟨-, rfl⟩ := tickets.pushUnique _ _ _ _ _ point.1 old
        exact List.mem_cons_self
    · obtain ⟨v, done⟩ := (pops p (by simpa using claimed)).resolve_right (by simp [Local.popping])
      exact .inl ⟨v, List.mem_cons_of_mem _ done⟩
  | popClaim pos =>
    refine ⟨fun p v claimed => ?_, fun p claimed => ?_⟩
    · have done := (pushes p v (by simpa using claimed)).resolve_right (by simp [Local.pushing])
      exact .inl (List.mem_cons_of_mem _ done)
    · rcases List.mem_cons.mp claimed with here | old
      · cases here
        exact .inr rfl
      · obtain ⟨v, done⟩ := (pops p old).resolve_right (by simp [Local.popping])
        exact .inl ⟨v, List.mem_cons_of_mem _ done⟩
  | popRelease pos value =>
    refine ⟨fun p v claimed => ?_, fun p claimed => .inl ?_⟩
    · have done := (pushes p v (by simpa using claimed)).resolve_right (by simp [Local.pushing])
      exact .inl (List.mem_cons_of_mem _ done)
    · rcases pops p (by simpa using claimed) with ⟨v, done⟩ | held
      · exact ⟨v, List.mem_cons_of_mem _ done⟩
      · obtain rfl := Option.some.inj held
        exact ⟨value, List.mem_cons_self⟩
  | pushData | popData => exact ⟨pushes, pops⟩
  | _ => exact ⟨fun p v claimed => (pushes p v claimed).imp_right (by simp [Local.pushing]),
      fun p claimed => (pops p claimed).imp_right (by simp [Local.popping])⟩

theorem Returned.other {other : τ} {theirs : Local T} (apart : other ≠ thread) (returned : Returned queue other theirs)
    (took : Took queue thread mine next after) : Returned next other theirs := by
  obtain ⟨pushes, pops⟩ := returned
  have log : next.log = queue.log ∨ ∃ event, next.log = event :: queue.log ∧
      (∀ p v, event ≠ .pushClaimed other p v) ∧ ∀ p, event ≠ .popClaimed other p := by
    cases took with
    | pushFull | pushClaim | pushPublish | popEmpty | popClaim | popRelease =>
      exact .inr ⟨_, rfl, by simp [apart.symm], by simp [apart.symm]⟩
    | _ => exact .inl rfl
  rcases log with same | ⟨event, more, push, pop⟩
  · rw [← same] at pushes pops
    exact ⟨pushes, pops⟩
  · refine ⟨fun p v claimed => ?_, fun p claimed => ?_⟩
    · rw [more] at claimed ⊢
      have old := (List.mem_cons.mp claimed).resolve_left fun same => push p v same.symm
      exact (pushes p v old).imp_left (List.mem_cons_of_mem _)
    · rw [more] at claimed ⊢
      have old := (List.mem_cons.mp claimed).resolve_left fun same => pop p same.symm
      exact (pops p old).imp_left fun ⟨v, done⟩ => ⟨v, List.mem_cons_of_mem _ done⟩

variable [DecidableEq τ]

theorem run_returned {k : ℕ} (several : 1 ≤ k) {data : ℕ → T} {labels : List (τ × Call T)}
    {pool : Pool τ (Queue τ T) (Local T)} (run : Replay.replay step (start (2 ^ k) data) labels = some pool) (t : τ) :
    Returned pool.shared t (pool.threads t) := by
  have initial (t : τ) : Returned (initial (2 ^ k) data) t .idle := ⟨fun _ _ claimed => (by cases claimed), fun _ claimed => (by cases claimed)⟩
  refine (Replay.invariant_of_step (fun pool => Pool.Annotated (Sound (2 ^ k)) Thread pool ∧
    Pool.Annotated (fun _ => True) Returned pool) ?_ ⟨start_annotated several data, trivial, initial⟩ run).2.threads t
  rintro pool label after ⟨annotated, returned⟩ stepped
  refine ⟨step_annotated annotated stepped,
    returned.step (fun _ _ ran => ⟨trivial, ?_⟩) (fun _ _ ran u apart theirs => theirs.other apart (exec_took ran)) stepped⟩
  exact (returned.threads label.1).own annotated.shared.tickets (annotated.threads label.1) (exec_took ran)

end LockFreeCore.LockFreeQueue
