import LockFreeCore.ToMathlib.Replay
import Mathlib.Algebra.BigOperators.Group.Finset.Piecewise
import Mathlib.Logic.Function.Basic
import Mathlib.Data.List.GetD

/-! # Threads interleaved over a shared store

Two shapes of thread state. In a `Pool` every thread has one local state, and invariants follow
from the rule of Owicki and Gries: an assertion of the store together with one assertion for each
thread, preserved by the thread's own steps and not disturbed by the steps of the others. In a
`Stacks` machine every thread is a stack of frames whose top is executed, so calls nest; there the
invariants count or range over all frames of all threads, and a step exchanges one frame of that
list for the frames that replace it.
-/

/-- A store and one local state for each thread. -/
structure Pool (τ S L : Type*) where
  shared : S
  threads : τ → L

namespace Pool

open scoped BigOperators

variable {τ S L ι : Type*} [DecidableEq τ] (exec : S → τ → L → ι → Option (S × L))

/-- One thread takes one step; the input resolves what the step leaves open. -/
def step (pool : Pool τ S L) (label : τ × ι) : Option (Pool τ S L) :=
  (exec pool.shared label.1 (pool.threads label.1) label.2).map fun next =>
    ⟨next.1, Function.update pool.threads label.1 next.2⟩

variable {exec}

theorem step_eq_some {pool next : Pool τ S L} {label : τ × ι} :
    step exec pool label = some next ↔ ∃ shared mine,
      exec pool.shared label.1 (pool.threads label.1) label.2 = some (shared, mine) ∧
        next = ⟨shared, Function.update pool.threads label.1 mine⟩ := by
  simp only [step, Option.map_eq_some_iff, Prod.exists, eq_comm (a := next)]

/-- The store satisfies `G` and every thread's local state satisfies `A` of the store. -/
structure Annotated (G : S → Prop) (A : S → τ → L → Prop) (pool : Pool τ S L) : Prop where
  shared : G pool.shared
  threads : ∀ t, A pool.shared t (pool.threads t)

variable {G : S → Prop} {A : S → τ → L → Prop}

/-- The step re-establishes its own thread's assertion, and disturbs no other thread's. -/
theorem Annotated.step {pool next : Pool τ S L} {label : τ × ι} (holds : Annotated G A pool)
    (own : ∀ s' l', exec pool.shared label.1 (pool.threads label.1) label.2 = some (s', l') →
      G s' ∧ A s' label.1 l')
    (other : ∀ s' l', exec pool.shared label.1 (pool.threads label.1) label.2 = some (s', l') →
      ∀ u, u ≠ label.1 → A pool.shared u (pool.threads u) → A s' u (pool.threads u))
    (stepped : Pool.step exec pool label = some next) : Annotated G A next := by
  obtain ⟨shared, mine, ran, rfl⟩ := step_eq_some.mp stepped
  have after := own _ _ ran
  refine ⟨after.1, fun t => ?_⟩
  by_cases same : t = label.1
  · subst same
    simpa using after.2
  · simpa [Function.update_of_ne same] using other _ _ ran t same (holds.threads t)

/-- What a thread's share grows by, the sum of all shares grows by. -/
theorem sum_update [Fintype τ] (share : L → ℕ) (threads : τ → L) (t : τ) (mine : L) :
    ∑ u, share (Function.update threads t mine u) + share (threads t) = ∑ u, share (threads u) + share mine := by
  have others : ∑ u ∈ Finset.univ.erase t, share (Function.update threads t mine u) =
      ∑ u ∈ Finset.univ.erase t, share (threads u) :=
    Finset.sum_congr rfl fun u other => by rw [Function.update_of_ne (Finset.ne_of_mem_erase other)]
  rw [← Finset.add_sum_erase _ _ (Finset.mem_univ t), others, Function.update_self,
    ← Finset.add_sum_erase Finset.univ (fun u => share (threads u)) (Finset.mem_univ t)]
  omega

/-- When only one thread takes steps, with the same input each time, it comes to a local state of this
kind. -/
inductive Alone (exec : S → τ → L → ι → Option (S × L)) (t : τ) (input : ι) (ends : L → Prop) : S → L → Prop
  | done {shared : S} {mine : L} (here : ends mine) : Alone exec t input ends shared mine
  | goes {shared next : S} {mine after : L} (ran : exec shared t mine input = some (next, after))
      (rest : Alone exec t input ends next after) : Alone exec t input ends shared mine

theorem alone_iff {t : τ} {input : ι} {ends : L → Prop} {pool : Pool τ S L} :
    Alone exec t input ends pool.shared (pool.threads t) ↔
      ∃ n final, Replay.replay (step exec) pool (List.replicate n (t, input)) = some final ∧ ends (final.threads t) := by
  constructor
  · intro alone
    generalize same : pool.threads t = mine at alone
    generalize store : pool.shared = shared at alone
    induction alone generalizing pool with
    | done here => exact ⟨0, pool, rfl, same ▸ here⟩
    | @goes shared next mine after ran rest ih =>
      subst same store
      have stepped : step exec pool (t, input) = some ⟨next, Function.update pool.threads t after⟩ :=
        step_eq_some.mpr ⟨next, after, ran, rfl⟩
      obtain ⟨n, final, run, here⟩ := @ih ⟨next, Function.update pool.threads t after⟩ (Function.update_self ..) rfl
      refine ⟨n + 1, final, ?_, here⟩
      rw [List.replicate_succ, Replay.replay_of_step stepped]
      exact run
  · rintro ⟨n, final, run, here⟩
    induction n generalizing pool with
    | zero => exact .done (Option.some.inj run ▸ here)
    | succ n ih =>
      rw [List.replicate_succ] at run
      obtain ⟨next, stepped, rest⟩ := Option.bind_eq_some_iff.mp run
      have alone := ih rest
      obtain ⟨shared, mine, ran, rfl⟩ := step_eq_some.mp stepped
      dsimp only at alone
      rw [Function.update_self] at alone
      exact .goes ran alone

/-- When only one thread takes steps, with the same input each time, it comes to a local state of this
kind and leaves the store `final`. -/
inductive Finishes (exec : S → τ → L → ι → Option (S × L)) (t : τ) (input : ι) (ends : L → Prop) (final : S) :
    S → L → Prop
  | done {mine : L} (here : ends mine) : Finishes exec t input ends final final mine
  | goes {shared next : S} {mine after : L} (ran : exec shared t mine input = some (next, after))
      (rest : Finishes exec t input ends final next after) : Finishes exec t input ends final shared mine

omit [DecidableEq τ] in
/-- The steps of one thread leave no choice. -/
theorem Finishes.unique {t : τ} {input : ι} {ends : L → Prop} {final other shared : S} {mine : L}
    (stops : ∀ s l, ends l → exec s t l input = none)
    (finishes : Finishes exec t input ends final shared mine)
    (again : Finishes exec t input ends other shared mine) : final = other := by
  induction finishes with
  | done here =>
    cases again with
    | done _ => rfl
    | goes ran _ => exact absurd (ran.symm.trans (stops _ _ here)) (Option.some_ne_none _)
  | goes ran _ ih =>
    cases again with
    | done here => exact absurd (ran.symm.trans (stops _ _ here)) (Option.some_ne_none _)
    | goes ran' rest =>
      cases Option.some.inj (ran.symm.trans ran')
      exact ih rest

/-- What a thread does by itself is a run of the pool in which only its local state changes. -/
theorem replay_solo {pool : Pool τ S L} {t : τ} {inputs : List ι} {final : S × L}
    (run : Replay.replay (fun state input => exec state.1 t state.2 input) (pool.shared, pool.threads t) inputs =
      some final) :
    Replay.replay (step exec) pool (inputs.map fun input => (t, input)) =
      some ⟨final.1, Function.update pool.threads t final.2⟩ := by
  induction inputs generalizing pool with
  | nil =>
    obtain rfl := Option.some.inj run
    rw [Function.update_eq_self]
    rfl
  | cons input rest ih =>
    obtain ⟨⟨shared, mine⟩, ran, tail⟩ := Option.bind_eq_some_iff.mp run
    have stepped : step exec pool (t, input) = some ⟨shared, Function.update pool.threads t mine⟩ :=
      step_eq_some.mpr ⟨shared, mine, ran, rfl⟩
    have own : Function.update pool.threads t mine t = mine := Function.update_self ..
    have later := @ih ⟨shared, Function.update pool.threads t mine⟩ (by dsimp only; rwa [own])
    rw [List.map_cons, Replay.replay_of_step stepped, later, Function.update_idem]

end Pool

/-- A store and, for each thread, the stack of the calls it is inside, innermost first. -/
structure Stacks (S F : Type*) where
  shared : S
  threads : List (List F)

namespace Stacks

variable {S F ι : Type*} (exec : S → F → ι → Option (S × List F))

/-- The top frame of one thread is executed and replaced by the frames it leaves. -/
def step (machine : Stacks S F) (label : ℕ × ι) : Option (Stacks S F) :=
  match machine.threads[label.1]? with
  | some (frame :: rest) => (exec machine.shared frame label.2).map fun next =>
      ⟨next.1, machine.threads.set label.1 (next.2 ++ rest)⟩
  | _ => none

/-- All frames of all threads. -/
def frames (machine : Stacks S F) : List F := machine.threads.flatten

variable {exec}

/-- The frame a thread executes next. -/
def top (machine : Stacks S F) (thread : ℕ) : Option F := (machine.threads[thread]?).bind List.head?

/-- A thread whose top frame can be executed takes a step, and goes on with the frames left to it. -/
theorem step_of_thread {machine : Stacks S F} {thread : ℕ} {input : ι} {frame : F} {rest left : List F} {shared : S}
    (present : machine.threads[thread]? = some (frame :: rest))
    (ran : exec machine.shared frame input = some (shared, left)) :
    ∃ next, step exec machine (thread, input) = some next ∧ next.shared = shared ∧
      next.threads[thread]? = some (left ++ rest) := by
  refine ⟨⟨shared, machine.threads.set thread (left ++ rest)⟩, by simp [step, present, ran], rfl, ?_⟩
  rw [List.getElem?_set_self (List.getElem?_eq_some_iff.mp present).1]

theorem mem_frames_of_top {machine : Stacks S F} {thread : ℕ} {frame : F}
    (top : machine.top thread = some frame) : frame ∈ machine.frames := by
  obtain ⟨stack, present, head⟩ := Option.bind_eq_some_iff.mp top
  exact List.mem_flatten.mpr ⟨stack, List.mem_of_getElem? present, List.mem_of_mem_head? head⟩

/-- A step executes the top frame of its thread and leaves the frames below it and all other threads
alone. -/
theorem step_thread {machine next : Stacks S F} {label : ℕ × ι}
    (stepped : step exec machine label = some next) :
    ∃ frame rest left, machine.threads[label.1]? = some (frame :: rest) ∧
      exec machine.shared frame label.2 = some (next.shared, left) ∧
      next.threads = machine.threads.set label.1 (left ++ rest) := by
  unfold step at stepped
  split at stepped
  · rename_i frame rest present
    obtain ⟨⟨shared, left⟩, ran, rfl⟩ := Option.map_eq_some_iff.mp stepped
    exact ⟨frame, rest, left, present, ran, rfl⟩
  · contradiction

/-- A step takes one frame out of the list of all frames and puts the frames it leaves in its
place, whichever thread and whatever lies below it on that thread's stack. -/
theorem step_frames {machine next : Stacks S F} {label : ℕ × ι}
    (stepped : step exec machine label = some next) :
    ∃ frame left others, machine.top label.1 = some frame ∧
      exec machine.shared frame label.2 = some (next.shared, left) ∧
      machine.frames.Perm (frame :: others) ∧ next.frames.Perm (left ++ others) := by
  obtain ⟨frame, rest, left, present, ran, threads⟩ := step_thread stepped
  obtain ⟨bound, found⟩ := List.getElem?_eq_some_iff.mp present
  let before := (machine.threads.take label.1).flatten
  let after := rest ++ (machine.threads.drop (label.1 + 1)).flatten
  have whole : machine.threads = machine.threads.take label.1 ++
      (frame :: rest) :: machine.threads.drop (label.1 + 1) := by
    rw [← found, ← List.drop_eq_getElem_cons bound, List.take_append_drop]
  refine ⟨frame, left, before ++ after, by simp [top, present], ran, ?_, ?_⟩
  · have frames : machine.frames = before ++ frame :: after := by
      simpa [Stacks.frames] using congrArg List.flatten whole
    rw [frames]
    exact List.perm_middle
  · have frames : next.frames = before ++ (left ++ after) := by
      simp [Stacks.frames, threads, before, after, List.set_eq_take_append_cons_drop, bound]
    rw [frames]
    exact List.perm_append_comm_assoc before left after

end Stacks
