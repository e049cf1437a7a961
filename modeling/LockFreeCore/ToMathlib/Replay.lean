import Mathlib.Data.List.Basic
import Mathlib.Data.Option.Basic

/-! # Replaying an executable transition function

A system is a partial function from a state and a label to the next state; a label that is not
enabled has no successor. Replaying a tape of labels gives the finite runs of the system, so a
concrete run is evaluated and a statement over every run is one over every tape. `Along` records a
condition met before each step of a run, and `Replay.invariant` is the induction over runs that
uses it.
-/

namespace Replay

variable {σ α : Type*} {step : σ → α → Option σ} {P Q : σ → α → Prop}

/-- The state reached by taking the labels in order, when each of them is enabled. -/
def replay (step : σ → α → Option σ) : σ → List α → Option σ
  | source, [] => some source
  | source, label :: rest => (step source label).bind fun next => replay step next rest

@[simp] theorem replay_nil (source : σ) : replay step source [] = some source := rfl

@[simp] theorem replay_cons (source : σ) (label : α) (rest : List α) :
    replay step source (label :: rest) = (step source label).bind fun next => replay step next rest := rfl

theorem replay_of_step {source middle : σ} {label : α} {rest : List α} (stepped : step source label = some middle) :
    replay step source (label :: rest) = replay step middle rest := by
  rw [replay_cons, stepped, Option.bind_some]

theorem replay_append (source : σ) (first second : List α) :
    replay step source (first ++ second) =
      (replay step source first).bind fun middle => replay step middle second := by
  induction first generalizing source with
  | nil => rfl
  | cons label rest ih => simp only [List.cons_append, replay_cons, ih, Option.bind_assoc]

/-- A run from where another one ends. -/
theorem replay_trans {source middle target : σ} {first second : List α} (run : replay step source first = some middle)
    (rest : replay step middle second = some target) : replay step source (first ++ second) = some target := by
  rw [replay_append, run, Option.bind_some, rest]

/-- A nonempty run ends with one enabled step of the state before it. -/
theorem replay_concat {source target : σ} {labels : List α} {label : α} :
    replay step source (labels ++ [label]) = some target ↔
      ∃ middle, replay step source labels = some middle ∧ step middle label = some target := by
  simp [replay_append, Option.bind_eq_some_iff]

/-- Every step of the run starts in a state and with a label that satisfy `P`. -/
def Along (step : σ → α → Option σ) (P : σ → α → Prop) : σ → List α → Prop
  | _, [] => True
  | source, label :: rest =>
      P source label ∧ ∀ next, step source label = some next → Along step P next rest

@[simp] theorem along_nil (source : σ) : Along step P source [] := trivial

@[simp] theorem along_cons (source : σ) (label : α) (rest : List α) :
    Along step P source (label :: rest) ↔
      P source label ∧ ∀ next, step source label = some next → Along step P next rest := Iff.rfl

instance decidableAlong [∀ s a, Decidable (P s a)] :
    (source : σ) → (labels : List α) → Decidable (Along step P source labels)
  | _, [] => isTrue trivial
  | source, label :: rest =>
    match stepped : step source label with
    | none => decidable_of_iff (P source label) (by simp [stepped])
    | some next =>
      have := decidableAlong next rest
      decidable_of_iff (P source label ∧ Along step P next rest) (by simp [stepped])

theorem Along.imp (weaken : ∀ s a, P s a → Q s a) {source : σ} {labels : List α}
    (along : Along step P source labels) : Along step Q source labels := by
  induction labels generalizing source with
  | nil => trivial
  | cons label rest ih => exact ⟨weaken _ _ along.1, fun next stepped => ih (along.2 next stepped)⟩

/-- A condition on two stretches of a run is a condition on each of them. -/
theorem along_append {source : σ} {first second : List α} :
    Along step P source (first ++ second) ↔ Along step P source first ∧
      ∀ middle, replay step source first = some middle → Along step P middle second := by
  induction first generalizing source with
  | nil => simp
  | cons label rest ih =>
    simp only [List.cons_append, along_cons, ih, replay_cons, and_assoc]
    refine and_congr_right fun _ => ?_
    cases step source label <;> simp

/-- What every permitted step preserves holds after every permitted run. -/
theorem invariant (Inv : σ → Prop)
    (preserved : ∀ s a t, Inv s → P s a → step s a = some t → Inv t)
    {source target : σ} {labels : List α} (initial : Inv source) (along : Along step P source labels)
    (run : replay step source labels = some target) : Inv target := by
  induction labels generalizing source with
  | nil => exact Option.some.inj run ▸ initial
  | cons label rest ih =>
    obtain ⟨next, stepped, tail⟩ := Option.bind_eq_some_iff.mp run
    exact ih (preserved _ _ _ initial along.1 stepped) (along.2 next stepped) tail

theorem along_true (source : σ) (labels : List α) : Along step (fun _ _ => True) source labels := by
  induction labels generalizing source with
  | nil => trivial
  | cons label rest ih => exact ⟨trivial, fun next _ => ih next⟩

/-- The unconditional case: what every step preserves holds after every run. -/
theorem invariant_of_step (Inv : σ → Prop) (preserved : ∀ s a t, Inv s → step s a = some t → Inv t)
    {source target : σ} {labels : List α} (initial : Inv source)
    (run : replay step source labels = some target) : Inv target :=
  invariant (P := fun _ _ => True) Inv (fun s a t inv _ => preserved s a t inv) initial
    (along_true source labels) run

/-- A run whose labels are permitted completes when every permitted step is enabled. -/
theorem completes (Inv : σ → Prop) (enabled : ∀ s a, Inv s → P s a → ∃ t, step s a = some t ∧ Inv t)
    {source : σ} {labels : List α} (initial : Inv source) (along : Along step P source labels) :
    ∃ target, replay step source labels = some target ∧ Inv target := by
  induction labels generalizing source with
  | nil => exact ⟨source, rfl, initial⟩
  | cons label rest ih =>
    obtain ⟨next, stepped, inv⟩ := enabled _ _ initial along.1
    obtain ⟨target, run, last⟩ := ih inv (along.2 next stepped)
    exact ⟨target, by rw [replay_of_step stepped, run], last⟩

/-- A counted loop, by an invariant on its rounds. -/
theorem counted {step : σ → ℕ → Option σ} (Inv : ℕ → σ → Prop) {rounds stride : ℕ}
    (body : ∀ i < rounds, ∀ s, Inv i s → ∃ t, step s (stride * i) = some t ∧ Inv (i + 1) t)
    {source : σ} (initial : Inv 0 source) :
    ∃ target, replay step source (List.range' 0 rounds stride) = some target ∧ Inv rounds target := by
  induction rounds with
  | zero => exact ⟨source, rfl, initial⟩
  | succ rounds ih =>
    obtain ⟨middle, run, inv⟩ := ih fun i bound => body i (Nat.lt_succ_of_lt bound)
    obtain ⟨target, stepped, inv⟩ := body rounds (Nat.lt_succ_self rounds) middle inv
    refine ⟨target, ?_, inv⟩
    rw [List.range'_concat, replay_concat, Nat.zero_add]
    exact ⟨middle, run, stepped⟩

/-- What an invariant makes of the permitted labels holds along every permitted run. -/
theorem Along.strengthen (Inv : σ → Prop) (preserved : ∀ s a t, Inv s → P s a → step s a = some t → Inv t)
    (holds : ∀ s a, Inv s → P s a → Q s a) {source : σ} {labels : List α} (initial : Inv source)
    (along : Along step P source labels) : Along step Q source labels := by
  induction labels generalizing source with
  | nil => trivial
  | cons label rest ih =>
    exact ⟨holds _ _ initial along.1, fun next stepped =>
      ih (preserved _ _ _ initial along.1 stepped) (along.2 next stepped)⟩

/-- A quantity that no step lowers stays below its final value all along the run. -/
theorem along_le (measure : σ → ℕ) (grows : ∀ s a t, step s a = some t → measure s ≤ measure t)
    {source target : σ} {labels : List α} (run : replay step source labels = some target) :
    measure source ≤ measure target ∧
      Along step (fun s _ => measure s ≤ measure target) source labels := by
  induction labels generalizing source with
  | nil => exact ⟨Nat.le_of_eq (congrArg measure (Option.some.inj run)), trivial⟩
  | cons label rest ih =>
    obtain ⟨next, stepped, tail⟩ := Option.bind_eq_some_iff.mp run
    have below := Nat.le_trans (grows _ _ _ stepped) (ih tail).1
    refine ⟨below, below, fun other stepped' => ?_⟩
    obtain rfl := Option.some.inj (stepped.symm.trans stepped')
    exact (ih tail).2

/-- What every permitted step lowers bounds the length of a permitted run. -/
theorem Along.length_add_le (measure : σ → ℕ)
    (lowers : ∀ s a t, P s a → step s a = some t → measure t < measure s)
    {source target : σ} {labels : List α} (along : Along step P source labels)
    (run : replay step source labels = some target) : labels.length + measure target ≤ measure source := by
  induction labels generalizing source with
  | nil => exact Nat.le_of_eq ((Nat.zero_add _).trans (congrArg measure (Option.some.inj run).symm))
  | cons label rest ih =>
    obtain ⟨next, stepped, tail⟩ := Option.bind_eq_some_iff.mp run
    have less := lowers _ _ _ along.1 stepped
    have later := ih (along.2 next stepped) tail
    rw [List.length_cons]
    omega

/-- The unconditional case, with an invariant. -/
theorem length_add_le (Inv : σ → Prop) (measure : σ → ℕ)
    (lowers : ∀ s a t, Inv s → step s a = some t → Inv t ∧ measure t < measure s)
    {source target : σ} {labels : List α} (initial : Inv source)
    (run : replay step source labels = some target) : labels.length + measure target ≤ measure source :=
  Along.length_add_le (P := fun s _ => Inv s) measure (fun s a t inv stepped => (lowers s a t inv stepped).2)
    ((along_true source labels).strengthen Inv (fun s a t inv _ stepped => (lowers s a t inv stepped).1)
      (fun _ _ inv _ => inv) initial) run

section Observed

variable {β : Type*}

/-- What the steps of a run show, in order. -/
def observed (step : σ → α → Option σ) (see : σ → α → Option β) : σ → List α → List β
  | _, [] => []
  | source, label :: rest =>
      (see source label).toList ++ ((step source label).map fun next => observed step see next rest).getD []

theorem observed_cons {see : σ → α → Option β} {source next : σ} {label : α} (rest : List α)
    (stepped : step source label = some next) :
    observed step see source (label :: rest) = (see source label).toList ++ observed step see next rest := by
  rw [observed, stepped]
  rfl

theorem count_append_toList [DecidableEq β] (seen : List β) (last : Option β) (y : β) :
    (seen ++ last.toList).count y = seen.count y + if last = some y then 1 else 0 := by
  rw [List.count_append]
  cases last with
  | none => simp
  | some x => simp [List.count_singleton]

/-- What every permitted step preserves, of the state and of all that was seen up to it, holds after
every permitted run. -/
theorem invariant_observed {see : σ → α → Option β} (Inv : σ → List β → Prop)
    (preserved : ∀ s a t seen, Inv s seen → P s a → step s a = some t → Inv t (seen ++ (see s a).toList))
    {source target : σ} {labels : List α} {seen : List β} (initial : Inv source seen)
    (along : Along step P source labels) (run : replay step source labels = some target) :
    Inv target (seen ++ observed step see source labels) := by
  induction labels generalizing source seen with
  | nil =>
    rw [observed, List.append_nil]
    exact Option.some.inj run ▸ initial
  | cons label rest ih =>
    obtain ⟨next, stepped, tail⟩ := Option.bind_eq_some_iff.mp run
    rw [observed_cons rest stepped, ← List.append_assoc]
    exact ih (preserved _ _ _ _ initial along.1 stepped) (along.2 next stepped) tail

end Observed

end Replay
