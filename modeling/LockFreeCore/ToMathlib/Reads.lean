import Mathlib.Tactic.TypeStar

/-! # Computations that read one cell at a time

A computation over a store that others may write between its reads: it has a value, or it names
the cell it reads next and goes on with what it finds there. `run` is the computation over a store
that stays as it is, and `All P Q` says that it ends in `Q` whatever cells satisfying `P` it finds;
the rules below take it through sequencing and through a single read.
-/

/-- A computation that reads named cells of a store, one after another. -/
inductive Reads (ι V α : Type*) where
  | done (value : α)
  | read (name : ι) (rest : V → Reads ι V α)

namespace Reads

variable {ι V α β : Type*} {P : V → Prop} {Q : α → Prop} {R : β → Prop}

def bind : Reads ι V α → (α → Reads ι V β) → Reads ι V β
  | done value, next => next value
  | read name rest, next => read name fun found => bind (rest found) next

/-- The value over a store that no one writes. -/
def run (store : ι → V) : Reads ι V α → α
  | done value => value
  | read name rest => run store (rest (store name))

/-- One read, or the branch on the value when there is nothing left to read. -/
def goOn (store : ι → V) (again : Reads ι V α → β) (finish : α → β) : Reads ι V α → β
  | done value => finish value
  | read name rest => again (rest (store name))

/-- Whatever it reads in cells that satisfy `P`, its value satisfies `Q`. -/
def All (P : V → Prop) (Q : α → Prop) : Reads ι V α → Prop
  | done value => Q value
  | read _ rest => ∀ found, P found → All P Q (rest found)

@[simp] theorem run_done (store : ι → V) (value : α) : run store (done value : Reads ι V α) = value := rfl

@[simp] theorem run_read (store : ι → V) (name : ι) (rest : V → Reads ι V α) :
    run store (read name rest) = run store (rest (store name)) := rfl

@[simp] theorem run_bind (store : ι → V) (first : Reads ι V α) (next : α → Reads ι V β) :
    run store (first.bind next) = run store (next (run store first)) := by
  induction first with
  | done value => rfl
  | read name rest ih => exact ih (store name)

theorem run_ite (store : ι → V) {c : Prop} {_ : Decidable c} {first second : Reads ι V α} :
    run store (if c then first else second) = if c then run store first else run store second :=
  apply_ite (run store) c first second

@[simp] theorem all_done {value : α} : All P Q (done value : Reads ι V α) ↔ Q value := Iff.rfl

@[simp] theorem all_read {name : ι} {rest : V → Reads ι V α} :
    All P Q (read name rest) ↔ ∀ found, P found → All P Q (rest found) := Iff.rfl

theorem all_true (reads : Reads ι V α) : All P (fun _ => True) reads := by
  induction reads with
  | done value => trivial
  | read name rest ih => exact fun found _ => ih found

/-- Sequencing: what the first value satisfies is all the rest may rely on. -/
theorem All.bind {first : Reads ι V α} {next : α → Reads ι V β} (all : All P Q first)
    (rest : ∀ value, Q value → All P R (next value)) : All P R (first.bind next) := by
  induction first with
  | done value => exact rest value all
  | read name continue' ih => exact fun found ok => ih found (all found ok)

/-- One read from a store whose cells satisfy `P`. -/
theorem All.goOn {store : ι → V} (cells : ∀ name, P (store name)) {reads : Reads ι V α}
    (all : All P Q reads) {again : Reads ι V α → β} {finish : α → β}
    (onAgain : ∀ left, All P Q left → R (again left)) (onFinish : ∀ value, Q value → R (finish value)) :
    R (reads.goOn store again finish) := by
  cases reads with
  | done value => exact onFinish value all
  | read name rest => exact onAgain _ (all _ (cells name))

end Reads
