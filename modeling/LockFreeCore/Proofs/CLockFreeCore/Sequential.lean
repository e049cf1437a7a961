import LockFreeCore.Proofs.CLockFreeCore.Packets

/-! # Runs without interruption

In such a run a thread takes a step only while all others are at rest, so every call goes on until it
returns. The accept thread is at rest between two clients and pops a slot with nothing below it on
its stack, so no thread still has a pointer to a slot that is popped.
-/

namespace LockFreeCore.CLockFreeCore

open Replay

/-- The thread is outside all functions: it waits for the next client or completion, or is in user
code that nobody called. -/
def AtRest (stack : List Frame) : Prop := stack ∈ [[], [.app], [.getStatus], [.accept]]

instance (stack : List Frame) : Decidable (AtRest stack) := inferInstanceAs (Decidable (_ ∈ _))

/-- All threads but the one that takes the step are at rest. -/
def Uninterrupted (m : Machine) (label : ℕ × Input) : Prop :=
  ∀ entry ∈ m.threads.zipIdx, entry.2 ≠ label.1 → AtRest entry.1

instance (m : Machine) (label : ℕ × Input) : Decidable (Uninterrupted m label) :=
  inferInstanceAs (Decidable (∀ entry ∈ m.threads.zipIdx, _))

def Frame.isSendPacket : Frame → Bool
  | .sendPacket .. => true
  | _ => false

/-- Nothing lies below the accept thread, and nothing is called between the look-up of `sendPacket` and
its last access. -/
structure Nested (stack : List Frame) : Prop where
  bottom : ∀ f ∈ stack.dropLast, ¬ f.isAcceptor
  top : ∀ f ∈ stack.tail, ¬ f.isSendPacket

section Specs

variable {s s' : CLockFreeCore} {frame : Frame} {left : List Frame} {input : Input}

theorem exec_bottom (ran : exec s frame input = some (s', left)) : ∀ f ∈ left.dropLast, ¬ f.isAcceptor := by
  intro f member acceptor
  have source := ((exec_spec ran).2 f (List.mem_of_mem_dropLast member)).isAcceptor acceptor
  cases frame with
  | accept =>
    cases input <;> cases ran <;> simp at member
    all_goals
      subst member
      cases acceptor
  | asked socket =>
    simp only [exec, asked] at ran
    split at ran
    · cases ran
      simp at member
    · split at ran <;> cases ran <;> simp at member
  | issue slot socket =>
    cases ran
    simp at member
  | accepting client socket pc =>
    cases pc <;> cases ran <;> simp at member
    all_goals
      subst member
      cases acceptor
  | _ => cases source

theorem exec_top (ran : exec s frame input = some (s', left)) : ∀ f ∈ left.tail, ¬ f.isSendPacket := by
  intro f member call
  have leaves := (exec_spec ran).2 f (List.mem_of_mem_tail member)
  cases f with
  | sendPacket session packet pc =>
    rcases leaves with ⟨last, rfl⟩ | ⟨rfl, -, found⟩
    · cases last with
      | enqueue =>
        cases ran
        simp at member
      | free | pending =>
        simp only [exec, sendPacket] at ran
        split_ifs at ran <;> cases ran <;> simp at member
    · simp only [exec, findSend] at ran
      split at ran <;> cases ran <;> simp at member
  | _ => cases call

/-- The frames that replace the top of a stack keep its shape. -/
theorem Nested.exec {rest : List Frame} (nested : Nested (frame :: rest))
    (ran : exec s frame input = some (s', left)) : Nested (left ++ rest) := by
  constructor
  · intro f member
    cases rest with
    | nil =>
      rw [List.append_nil] at member
      exact exec_bottom ran f member
    | cons below rest =>
      rw [List.dropLast_append_of_ne_nil (List.cons_ne_nil _ _)] at member
      rcases List.mem_append.mp member with member | member
      · intro acceptor
        exact nested.bottom frame (by simp) (((exec_spec ran).2 f member).isAcceptor acceptor)
      · exact nested.bottom f (by simp [member])
  · intro f member
    cases left with
    | nil => exact nested.top f (List.mem_of_mem_tail member)
    | cons head left =>
      rcases List.mem_append.mp member with member | member
      · exact exec_top ran f member
      · exact nested.top f member

end Specs

section Runs

variable {m next : Machine} {label : ℕ × Input}

theorem nested_step (nested : ∀ stack ∈ m.threads, Nested stack) (stepped : step m label = some next) :
    ∀ stack ∈ next.threads, Nested stack := by
  obtain ⟨frame, rest, left, present, ran, threads⟩ := Stacks.step_thread stepped
  intro stack member
  rw [threads] at member
  rcases List.mem_or_eq_of_mem_set member with member | rfl
  · exact nested stack member
  · exact (nested _ (List.mem_of_getElem? present)).exec ran

theorem nested_start (slots : ℕ → Session) (sessionMax workerMax apps : ℕ) :
    ∀ stack ∈ (start slots sessionMax workerMax apps).threads, Nested stack := by
  intro stack member
  simp only [start, List.mem_cons, List.mem_append, List.mem_replicate] at member
  rcases member with rfl | ⟨-, rfl⟩ | ⟨-, rfl⟩ <;> exact ⟨by simp, by simp⟩

/-- A thread at rest has no pointer to a session. -/
theorem AtRest.slot {stack : List Frame} (rest : AtRest stack) {frame : Frame} (member : frame ∈ stack) :
    frame.slot = none ∧ ¬ frame.isSendPacket := by
  simp only [AtRest, List.mem_cons, List.not_mem_nil, or_false] at rest
  rcases rest with rfl | rfl | rfl | rfl <;> simp at member <;> subst member <;> exact ⟨rfl, Bool.false_ne_true⟩

/-- Every frame belongs to the thread that takes the step, or to a thread at rest. -/
theorem Uninterrupted.frames (uninterrupted : Uninterrupted m label) {frame : Frame} (member : frame ∈ m.frames) :
    (∃ stack, m.threads[label.1]? = some stack ∧ frame ∈ stack) ∨
      frame.slot = none ∧ ¬ frame.isSendPacket := by
  obtain ⟨stack, inside, member⟩ := List.mem_flatten.mp member
  obtain ⟨t, bound, found⟩ := List.mem_iff_getElem.mp inside
  have present : m.threads[t]? = some stack := List.getElem?_eq_some_iff.mpr ⟨bound, found⟩
  by_cases own : t = label.1
  · subst own
    exact .inl ⟨stack, present, member⟩
  · have entry : (stack, t) ∈ m.threads.zipIdx := List.mem_zipIdx_iff_getElem?.mpr present
    exact .inr ((uninterrupted _ entry own).slot member)

/-- When the accept thread pops a slot no thread has a pointer to any. -/
theorem Uninterrupted.slot_of_asked (uninterrupted : Uninterrupted m label)
    (nested : ∀ stack ∈ m.threads, Nested stack) {socket : ℕ} (top : m.top label.1 = some (.asked socket)) :
    ∀ frame ∈ m.frames, frame.slot = none := by
  intro frame member
  rcases uninterrupted.frames member with ⟨stack, present, member⟩ | ⟨none, -⟩
  · have shape := nested stack (List.mem_of_getElem? present)
    cases stack with
    | nil => cases member
    | cons head rest =>
      obtain rfl : head = .asked socket := by simpa [Stacks.top, present] using top
      cases rest with
      | nil =>
        rw [List.mem_singleton] at member
        subst member
        rfl
      | cons below rest => exact absurd rfl (shape.bottom (.asked socket) (by simp))
  · exact none

theorem Uninterrupted.not_overtakes (uninterrupted : Uninterrupted m label)
    (nested : ∀ stack ∈ m.threads, Nested stack) (k : ℕ) : ¬ Overtakes m label k := by
  rintro ⟨pop, frame, member, here⟩
  obtain ⟨last, top, pop⟩ := Option.bind_eq_some_iff.mp pop
  cases last with
  | asked socket =>
    rw [uninterrupted.slot_of_asked nested top frame member] at here
    cases here
  | _ => cases pop

/-- In an uninterrupted run a `sendPacket` that has found its session is what the last step has left. -/
theorem Uninterrupted.left_of_call (uninterrupted : Uninterrupted m label)
    (nested : ∀ stack ∈ m.threads, Nested stack) (stepped : step m label = some next) {f : Frame}
    (member : f ∈ next.frames) (call : f.isSendPacket) :
    ∃ frame left, m.top label.1 = some frame ∧ exec m.shared frame label.2 = some (next.shared, left) ∧
      f ∈ left := by
  obtain ⟨frame, rest, left, present, ran, threads⟩ := Stacks.step_thread stepped
  obtain ⟨stack, inside, member⟩ := List.mem_flatten.mp member
  refine ⟨frame, left, by simp [Stacks.top, present], ran, ?_⟩
  obtain ⟨t, bound, found⟩ := List.mem_iff_getElem.mp inside
  have there : next.threads[t]? = some stack := List.getElem?_eq_some_iff.mpr ⟨bound, found⟩
  rw [threads] at there
  by_cases own : t = label.1
  · have within : label.1 < m.threads.length := (List.getElem?_eq_some_iff.mp present).1
    rw [own, List.getElem?_set_self within] at there
    rw [← Option.some.inj there] at member
    rcases List.mem_append.mp member with member | below
    · exact member
    · exact absurd call ((nested _ (List.mem_of_getElem? present)).top f below)
  · rw [List.getElem?_set_ne (Ne.symm own)] at there
    have entry : (stack, t) ∈ m.threads.zipIdx := List.mem_zipIdx_iff_getElem?.mpr there
    exact absurd call ((uninterrupted _ entry own).slot member).2

end Runs

end LockFreeCore.CLockFreeCore
