import Mathlib.Algebra.BigOperators.Group.Finset.Piecewise
import Mathlib.Algebra.BigOperators.Group.Multiset.Basic
import Mathlib.Logic.Function.Basic
import Mathlib.Logic.Relation
import Mathlib.Tactic.Abel

/-! # Slots lent to clients

A client arrives with a resource and waits; it is turned away, or lent a free slot under a new name.
The loan is opened and ends, the resource is returned, and the slot is free again. Several parties
may claim one slot, so the claims to it form a multiset. From a pool whose slots have one claim each,
they always have: a resource is returned once and a name ends once, and until then one slot has it.
-/

namespace Lending

/-- What a party can have of a slot. -/
inductive Claim (ι ρ : Type*) where
  | free
  | taken (resource : ρ)
  | named (name : ι) (resource : ρ)
  | serving (name : ι) (resource : ρ)
  /-- The name has ended; the resource has not been returned. -/
  | ending (resource : ρ)
  | empty
deriving DecidableEq, Repr

namespace Claim

variable {ι ρ : Type*}

def resources : Claim ι ρ → Multiset ρ
  | taken resource | named _ resource | serving _ resource | ending resource => {resource}
  | _ => 0

def names : Claim ι ρ → Multiset ι
  | named name _ | serving name _ => {name}
  | _ => 0

end Claim

/-- The claims to each slot, and the books: all resources that arrived and were returned, and all names
that were issued and have ended. -/
@[ext]
structure State (κ ι ρ : Type*) where
  claims : κ → Multiset (Claim ι ρ)
  waiting : Multiset ρ
  arrived : Multiset ρ
  returned : Multiset ρ
  issued : Multiset ι
  ended : Multiset ι

variable {κ ι ρ : Type*} [DecidableEq κ]

/-- One of the claims to a slot is exchanged for another. -/
def exchange (claims : κ → Multiset (Claim ι ρ)) (k : κ) (others : Multiset (Claim ι ρ)) (claim : Claim ι ρ) :
    κ → Multiset (Claim ι ρ) :=
  Function.update claims k (claim ::ₘ others)

inductive Step (s s' : State κ ι ρ) : Prop
  | arrive (r) (moved : s' = { s with waiting := r ::ₘ s.waiting, arrived := r ::ₘ s.arrived })
  | refuse (r rest) (waits : s.waiting = r ::ₘ rest)
      (moved : s' = { s with waiting := rest, returned := r ::ₘ s.returned })
  | take (r rest k others) (waits : s.waiting = r ::ₘ rest) (here : s.claims k = .free ::ₘ others)
      (moved : s' = { s with waiting := rest, claims := exchange s.claims k others (.taken r) })
  | issue (x r k others) (here : s.claims k = .taken r ::ₘ others)
      (moved : s' = { s with claims := exchange s.claims k others (.named x r), issued := x ::ₘ s.issued })
  | serve (x r k others) (here : s.claims k = .named x r ::ₘ others)
      (moved : s' = { s with claims := exchange s.claims k others (.serving x r) })
  | finish (x r k others) (here : s.claims k = .serving x r ::ₘ others)
      (moved : s' = { s with claims := exchange s.claims k others (.ending r), ended := x ::ₘ s.ended })
  | give (r k others) (here : s.claims k = .ending r ::ₘ others)
      (moved : s' = { s with claims := exchange s.claims k others .empty, returned := r ::ₘ s.returned })
  | free (k others) (here : s.claims k = .empty ::ₘ others)
      (moved : s' = { s with claims := exchange s.claims k others .free })

/-- What the claims to the slots of the pool have between them. -/
def holdings {β : Type*} (has : Claim ι ρ → Multiset β) (pool : Finset κ)
    (claims : κ → Multiset (Claim ι ρ)) : Multiset β :=
  ∑ k ∈ pool, ((claims k).map has).sum

/-- One claim to each slot of the pool, and nothing lost. -/
structure Sound (pool : Finset κ) (s : State κ ι ρ) : Prop where
  one : ∀ k, (s.claims k).card = if k ∈ pool then 1 else 0
  resources : s.waiting + holdings Claim.resources pool s.claims + s.returned = s.arrived
  names : holdings Claim.names pool s.claims + s.ended = s.issued

section Exchange

variable {claims : κ → Multiset (Claim ι ρ)} {k : κ} {others : Multiset (Claim ι ρ)} {claim : Claim ι ρ}
  {pool : Finset κ}

@[simp] theorem exchange_self (next : Claim ι ρ) : exchange claims k others next k = next ::ₘ others :=
  Function.update_self ..

theorem exchange_of_ne (next : Claim ι ρ) {j : κ} (apart : j ≠ k) : exchange claims k others next j = claims j :=
  Function.update_of_ne apart ..

theorem card_exchange (here : claims k = claim ::ₘ others) (next : Claim ι ρ) (j : κ) :
    (exchange claims k others next j).card = (claims j).card := by
  by_cases same : j = k
  · subst same
    rw [exchange_self, here, Multiset.card_cons, Multiset.card_cons]
  · rw [exchange_of_ne next same]

/-- The other slots keep what they have. -/
theorem holdings_exchange {β : Type*} (has : Claim ι ρ → Multiset β) (here : claims k = claim ::ₘ others)
    (inside : k ∈ pool) : ∃ rest, holdings has pool claims = has claim + rest ∧
      ∀ next, holdings has pool (exchange claims k others next) = has next + rest := by
  refine ⟨(others.map has).sum + ∑ j ∈ pool.erase k, ((claims j).map has).sum, ?_, ?_⟩
  · rw [holdings, ← Finset.add_sum_erase pool _ inside, here, Multiset.map_cons, Multiset.sum_cons, add_assoc]
  · intro next
    have elsewhere : ∑ j ∈ pool.erase k, ((exchange claims k others next j).map has).sum =
        ∑ j ∈ pool.erase k, ((claims j).map has).sum := by
      apply Finset.sum_congr rfl
      intro j member
      rw [exchange_of_ne next (Finset.ne_of_mem_erase member)]
    rw [holdings, ← Finset.add_sum_erase pool _ inside, elsewhere, exchange_self, Multiset.map_cons,
      Multiset.sum_cons, add_assoc]

end Exchange

section Sound

variable {pool : Finset κ} {s s' : State κ ι ρ}

theorem Sound.mem (sound : Sound pool s) {k : κ} {claim : Claim ι ρ} {others : Multiset (Claim ι ρ)}
    (here : s.claims k = claim ::ₘ others) : k ∈ pool := by
  by_contra outside
  have none := sound.one k
  rw [if_neg outside, here, Multiset.card_cons] at none
  exact absurd none (Nat.succ_ne_zero _)

/-- What arrived once is returned once. -/
theorem Sound.nodup_returned (sound : Sound pool s) (distinct : s.arrived.Nodup) : s.returned.Nodup := by
  apply Multiset.nodup_of_le _ distinct
  rw [← sound.resources]
  exact Multiset.le_add_left _ _

theorem Sound.nodup_ended (sound : Sound pool s) (distinct : s.issued.Nodup) : s.ended.Nodup := by
  apply Multiset.nodup_of_le _ distinct
  rw [← sound.names]
  exact Multiset.le_add_left _ _

/-- What the party has before the exchange and the books is what it has afterwards and the books. -/
theorem Sound.exchange (sound : Sound pool s) {k : κ} {claim next : Claim ι ρ} {others : Multiset (Claim ι ρ)}
    (here : s.claims k = claim ::ₘ others) (claims : s'.claims = exchange s.claims k others next)
    (arrived : s'.arrived = s.arrived)
    (resources : s'.waiting + next.resources + s'.returned = s.waiting + claim.resources + s.returned)
    (names : next.names + s'.ended + s.issued = claim.names + s.ended + s'.issued) : Sound pool s' := by
  obtain ⟨rest, before, after⟩ := holdings_exchange Claim.resources here (sound.mem here)
  obtain ⟨rest', before', after'⟩ := holdings_exchange Claim.names here (sound.mem here)
  refine ⟨fun j => ?_, ?_, ?_⟩
  · rw [claims, card_exchange here, sound.one j]
  · rw [claims, after, arrived, ← sound.resources, before]
    calc s'.waiting + (next.resources + rest) + s'.returned
        = s'.waiting + next.resources + s'.returned + rest := by abel
      _ = s.waiting + claim.resources + s.returned + rest := by rw [resources]
      _ = s.waiting + (claim.resources + rest) + s.returned := by abel
  · rw [claims, after']
    apply add_left_cancel (a := claim.names + s.ended)
    calc claim.names + s.ended + (next.names + rest' + s'.ended)
        = next.names + s'.ended + (claim.names + rest' + s.ended) := by abel
      _ = next.names + s'.ended + s.issued := by rw [← before', sound.names]
      _ = claim.names + s.ended + s'.issued := names

theorem Sound.step (sound : Sound pool s) (step : Step s s') : Sound pool s' := by
  cases step with
  | arrive r moved =>
    subst moved
    refine ⟨sound.one, ?_, sound.names⟩
    simpa using sound.resources
  | refuse r rest waits moved =>
    subst moved
    refine ⟨sound.one, ?_, sound.names⟩
    simpa [waits] using sound.resources
  | take r rest k others waits here moved =>
    subst moved
    refine sound.exchange here rfl rfl ?_ rfl
    simp only [waits, Claim.resources, ← Multiset.singleton_add]
    abel
  | issue x r k others here moved =>
    subst moved
    refine sound.exchange here rfl rfl rfl ?_
    simp [Claim.names]
  | serve x r k others here moved =>
    subst moved
    exact sound.exchange here rfl rfl rfl rfl
  | finish x r k others here moved =>
    subst moved
    refine sound.exchange here rfl rfl rfl ?_
    simp [Claim.names]
  | give r k others here moved =>
    subst moved
    refine sound.exchange here rfl rfl ?_ rfl
    simp only [Claim.resources, ← Multiset.singleton_add]
    abel
  | free k others here moved =>
    subst moved
    exact sound.exchange here rfl rfl rfl rfl

end Sound

end Lending
