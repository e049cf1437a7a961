import Mathlib.Data.List.Nodup
import Mathlib.Logic.Function.Basic

/-! # Chains of next pointers

A chain stored in memory: each node holds the pointer to the next one and the last pointer is null.
The list of nodes is determined by the store and the first pointer, and it does not depend on what
the nodes outside the chain hold.
-/

/-- From the pointer `first`, the chain of `next` pointers visits exactly these nodes and ends. -/
def Linked {ν : Type*} (next : ν → Option ν) : Option ν → List ν → Prop
  | first, [] => first = none
  | first, node :: rest => first = some node ∧ Linked next (next node) rest

namespace Linked

variable {ν : Type*} {next : ν → Option ν} {first : Option ν} {nodes : List ν}

@[simp] theorem nil_iff : Linked next first [] ↔ first = none := Iff.rfl

@[simp] theorem cons_iff {node : ν} :
    Linked next first (node :: nodes) ↔ first = some node ∧ Linked next (next node) nodes := Iff.rfl

/-- A chain is read off its store: there is at most one list of nodes. -/
theorem unique {others : List ν} (left : Linked next first nodes) (right : Linked next first others) :
    nodes = others := by
  induction nodes generalizing first others with
  | nil =>
    cases others with
    | nil => rfl
    | cons node rest => simp_all
  | cons node rest ih =>
    cases others with
    | nil => simp_all
    | cons other tail =>
      obtain ⟨rfl, chain⟩ := left
      obtain ⟨same, chain'⟩ := right
      obtain rfl := Option.some.inj same
      rw [ih chain chain']

theorem head {node : ν} (chain : Linked next (some node) nodes) :
    ∃ rest, nodes = node :: rest ∧ Linked next (next node) rest := by
  cases nodes with
  | nil => cases chain
  | cons other rest =>
    obtain ⟨same, tail⟩ := chain
    obtain rfl := Option.some.inj same
    exact ⟨rest, rfl, tail⟩

/-- A chain depends on the pointers of its own nodes only. -/
theorem congr {other : ν → Option ν} (same : ∀ node ∈ nodes, other node = next node)
    (chain : Linked next first nodes) : Linked other first nodes := by
  induction nodes generalizing first with
  | nil => exact chain
  | cons node rest ih =>
    refine ⟨chain.1, ?_⟩
    rw [same node (List.mem_cons_self ..)]
    exact ih (fun node member => same node (List.mem_cons_of_mem _ member)) chain.2

/-- Writing the pointer of a node outside the chain leaves the chain alone. -/
theorem update [DecidableEq ν] {node : ν} (outside : node ∉ nodes) (pointer : Option ν) :
    Linked (Function.update next node pointer) first nodes ↔ Linked next first nodes := by
  induction nodes generalizing first with
  | nil => rfl
  | cons other rest ih =>
    rw [List.mem_cons, not_or] at outside
    rw [cons_iff, cons_iff, ih outside.2, Function.update_of_ne (Ne.symm outside.1)]

/-- A node put before a chain that it is not part of. -/
theorem push [DecidableEq ν] {node : ν} (outside : node ∉ nodes) (chain : Linked next first nodes) :
    Linked (Function.update next node first) (some node) (node :: nodes) := by
  refine ⟨rfl, ?_⟩
  rw [Function.update_self]
  exact (update outside first).mpr chain

/-- The node before another one in a chain is made to point past it. -/
theorem bypass [DecidableEq ν] {before after : List ν} {node out : ν} (nodup : (before ++ node :: out :: after).Nodup)
    (chain : Linked next first (before ++ node :: out :: after)) :
    Linked (Function.update next node (next out)) first (before ++ node :: after) := by
  induction before generalizing first with
  | nil =>
    obtain ⟨here, -, rest⟩ := chain
    have outside : node ∉ after := fun member =>
      (List.nodup_cons.mp nodup).1 (List.mem_cons_of_mem _ member)
    refine ⟨here, ?_⟩
    rw [Function.update_self]
    exact (update outside _).mpr rest
  | cons other before ih =>
    obtain ⟨here, rest⟩ := chain
    obtain ⟨apart, nodup⟩ := List.nodup_cons.mp nodup
    have other_ne : other ≠ node := fun same => apart (by simp [same])
    refine ⟨here, ?_⟩
    rw [Function.update_of_ne other_ne]
    exact ih nodup rest

end Linked
