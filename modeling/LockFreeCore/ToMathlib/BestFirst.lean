import Mathlib.Algebra.Order.Group.Defs
import Mathlib.Data.Finset.Card
import Mathlib.Data.List.Sort
import Mathlib.Data.Prod.Lex
import Mathlib.Tactic.Abel

/-! # Best-first search

The search keeps, for each node, the best score found so far and the node it was reached from, and
a queue of nodes ordered by score plus an estimate of what remains. A node taken off the queue is
closed for good; its successors, which may depend on where it was reached from, are then scored.
Closed nodes are not opened again, and entries that a better one has overtaken stay in the queue.

When the estimate is consistent, never above the cost of a step plus the estimate after it, nodes are
closed in the order of score plus estimate. So the successors of a closed node are scored at most
their cost above it, whether they were closed before it or not.
-/

namespace BestFirst

/-- The state of a search. No score stands for infinity. -/
structure Search (V K : Type*) where
  gScore : V → Option K
  cameFrom : V → Option V
  closed : V → Bool
  queue : List (K ×ₗ V)
  nodesExpanded : ℕ

variable {V K : Type*}

/-- The nodes from one back to where it all started. -/
def parents (cameFrom : V → Option V) : ℕ → V → Option (List V)
  | 0, _ => none
  | fuel + 1, v => match cameFrom v with
    | none => some [v]
    | some parent => (parents cameFrom fuel parent).map fun rest => v :: rest

section Algorithm

variable [LinearOrder V] [LinearOrder K] [Add K]

/-- The score is better than what is recorded. -/
def improves (score : K) : Option K → Bool
  | none => true
  | some recorded => score < recorded

def init [Zero K] (estimate : V → K) (source : V) : Search V K where
  gScore := Function.update (fun _ => none) source (some 0)
  cameFrom _ := none
  closed _ := false
  queue := [toLex (estimate source, source)]
  nodesExpanded := 0

/-- A successor of the current node and the cost of getting there. -/
def relax (estimate : V → K) (current : V) (s : Search V K) (next : V × K) : Search V K :=
  if s.closed next.1 then s
  else match s.gScore current with
    | none => s
    | some g =>
      let tentativeG := g + next.2
      if improves tentativeG (s.gScore next.1) then
        { s with
          gScore := Function.update s.gScore next.1 (some tentativeG)
          cameFrom := Function.update s.cameFrom next.1 (some current)
          queue := s.queue.orderedInsert (· ≤ ·) (toLex (tentativeG + estimate next.1, next.1)) }
      else s

/-- The loop, for so many rounds at most: the goal that was reached, if one was, and the state then.
A round fails when the successors of its node are not found. -/
def search (successors : V → Option V → Option (List (V × K))) (isGoal : V → Bool) (estimate : V → K) :
    ℕ → Search V K → Option (Option V × Search V K)
  | 0, _ => none
  | fuel + 1, s => match s.queue with
    | [] => some (none, s)
    | entry :: queue =>
      let current := (ofLex entry).2
      if s.closed current then search successors isGoal estimate fuel { s with queue }
      else
        let s := { s with
          queue
          closed := Function.update s.closed current true
          nodesExpanded := s.nodesExpanded + 1 }
        if isGoal current then some (some current, s)
        else (successors current (s.cameFrom current)).bind fun nexts =>
          search successors isGoal estimate fuel (nexts.foldl (relax estimate current) s)

theorem search_mono {successors : V → Option V → Option (List (V × K))} {isGoal : V → Bool}
    {estimate : V → K} {fuel more : ℕ} (le : fuel ≤ more) {s : Search V K} {result : Option V × Search V K}
    (ran : search successors isGoal estimate fuel s = some result) :
    search successors isGoal estimate more s = some result := by
  induction fuel generalizing more s with
  | zero => contradiction
  | succ fuel ih =>
    obtain ⟨more, rfl⟩ : ∃ n, more = n + 1 := ⟨more - 1, by omega⟩
    rw [search] at ran ⊢
    cases queue : s.queue with
    | nil => rwa [queue] at ran
    | cons entry rest =>
      rw [queue] at ran
      dsimp only at ran ⊢
      split_ifs at ran ⊢ with seen goal
      · exact ih (by omega) ran
      · exact ran
      · obtain ⟨nexts, found, ran⟩ := Option.bind_eq_some_iff.mp ran
        rw [found]
        exact ih (by omega) ran

end Algorithm

theorem parents_mono {cameFrom : V → Option V} {fuel more : ℕ} (le : fuel ≤ more) {v : V} {path : List V}
    (ran : parents cameFrom fuel v = some path) : parents cameFrom more v = some path := by
  induction fuel generalizing more v path with
  | zero => contradiction
  | succ fuel ih =>
    obtain ⟨more, rfl⟩ : ∃ n, more = n + 1 := ⟨more - 1, by omega⟩
    rw [parents] at ran ⊢
    cases from_ : cameFrom v with
    | none => rwa [from_] at ran
    | some parent =>
      rw [from_] at ran
      obtain ⟨rest, found, rfl⟩ := Option.map_eq_some_iff.mp ran
      change (parents cameFrom more parent).map _ = _
      rw [ih (by omega) found]
      rfl

section Invariant

/-- A search problem over a total successor function. -/
structure Problem (V K : Type*) where
  source : V
  isGoal : V → Bool
  estimate : V → K
  successors : V → Option V → List (V × K)

/-- The nodes that can come up are finitely many, steps cost something, and the estimate is
consistent. -/
structure Problem.Consistent [LinearOrder K] [AddCommGroup K] (P : Problem V K) (cells : Finset V) : Prop where
  source : P.source ∈ cells
  closed : ∀ v ∈ cells, ∀ parent, ∀ next ∈ P.successors v parent, next.1 ∈ cells
  positive : ∀ v ∈ cells, ∀ parent, ∀ next ∈ P.successors v parent, 0 < next.2
  estimate : ∀ v ∈ cells, ∀ parent, ∀ next ∈ P.successors v parent,
    P.estimate v ≤ next.2 + P.estimate next.1

/-- The nodes that can be reached by successors that do not depend on the way there, and the cost. -/
inductive Route [Add K] [Zero K] (P : Problem V K) : V → K → Prop
  | source : Route P P.source 0
  | step {v : V} {c : K} {next : V × K} (route : Route P v c)
      (member : ∀ parent, next ∈ P.successors v parent) : Route P next.1 (c + next.2)

/-- What holds of a search whenever a node is taken off the queue, and between two of its
successors. -/
structure Inv [LinearOrder V] [LinearOrder K] [AddCommGroup K] (P : Problem V K) (cells : Finset V)
    (s : Search V K) : Prop where
  known : ∀ v g, s.gScore v = some g → v ∈ cells
  sorted : s.queue.Pairwise (· ≤ ·)
  entries : ∀ entry ∈ s.queue, ∃ g, s.gScore (ofLex entry).2 = some g ∧
    g + P.estimate (ofLex entry).2 ≤ (ofLex entry).1
  queued : ∀ v g, s.gScore v = some g → s.closed v = false → toLex (g + P.estimate v, v) ∈ s.queue
  scored : ∀ v, s.closed v = true → ∃ g, s.gScore v = some g
  root : s.gScore P.source = some 0 ∧ s.cameFrom P.source = none
  orphans : ∀ v g, s.gScore v = some g → s.cameFrom v = none → v = P.source
  /-- Until the source is closed, nothing else is scored. -/
  unopened : s.closed P.source = false → ∀ v g, s.gScore v = some g → v = P.source
  parents : ∀ v parent, s.cameFrom v = some parent → s.closed parent = true ∧
    ∃ g w, s.gScore parent = some g ∧ (v, w) ∈ P.successors parent (s.cameFrom parent) ∧
      s.gScore v = some (g + w)
  /-- Nodes are closed in the order of score plus estimate. -/
  monotone : ∀ v g, s.closed v = true → s.gScore v = some g →
    ∀ entry ∈ s.queue, g + P.estimate v ≤ (ofLex entry).1

/-- The successors of the node are scored. -/
def Relaxed [LE K] [Add K] (P : Problem V K) (s : Search V K) (v : V) : Prop :=
  ∀ g, s.gScore v = some g → ∀ next ∈ P.successors v (s.cameFrom v),
    ∃ g', s.gScore next.1 = some g' ∧ g' ≤ g + next.2

/-- What a search may have done since: what was closed is as it was, and scores only got better. -/
structure Later [LE K] (s s' : Search V K) : Prop where
  closed : s'.closed = s.closed
  score : ∀ v, s.closed v = true → s'.gScore v = s.gScore v
  parent : ∀ v, s.closed v = true → s'.cameFrom v = s.cameFrom v
  better : ∀ v g, s.gScore v = some g → ∃ g', s'.gScore v = some g' ∧ g' ≤ g

variable {P : Problem V K} {cells : Finset V} {s s' s'' : Search V K}

theorem Later.refl [Preorder K] (s : Search V K) : Later s s :=
  ⟨rfl, fun _ _ => rfl, fun _ _ => rfl, fun _ g scored => ⟨g, scored, le_refl g⟩⟩

theorem Later.trans [Preorder K] (first : Later s s') (second : Later s' s'') : Later s s'' where
  closed := second.closed.trans first.closed
  score v done := (second.score v (first.closed ▸ done)).trans (first.score v done)
  parent v done := (second.parent v (first.closed ▸ done)).trans (first.parent v done)
  better v g scored := by
    obtain ⟨g', scored', le⟩ := first.better v g scored
    obtain ⟨g'', scored'', le'⟩ := second.better v g' scored'
    exact ⟨g'', scored'', le'.trans le⟩

theorem Relaxed.later [Preorder K] [Add K] {v : V} (relaxed : Relaxed P s v) (done : s.closed v = true) (later : Later s s') :
    Relaxed P s' v := by
  intro g scored next member
  rw [later.score v done] at scored
  rw [later.parent v done] at member
  obtain ⟨g', known, le⟩ := relaxed g scored next member
  obtain ⟨g'', known', le'⟩ := later.better next.1 g' known
  exact ⟨g'', known', le'.trans le⟩

/-- The cells that are not closed yet. -/
def unclosed (cells : Finset V) (s : Search V K) : Finset V := cells.filter fun v => s.closed v = false

theorem unclosed_card_lt [DecidableEq V] {v : V} (same : s'.closed = Function.update s.closed v true) (cell : v ∈ cells)
    (left : s.closed v = false) : (unclosed cells s').card < (unclosed cells s).card := by
  refine Finset.card_lt_card (Finset.ssubset_iff_of_subset ?_ |>.mpr ⟨v, ?_, ?_⟩)
  · intro u still
    obtain ⟨cell', still⟩ := Finset.mem_filter.mp still
    rw [same] at still
    refine Finset.mem_filter.mpr ⟨cell', ?_⟩
    by_cases here : u = v
    · exact here ▸ left
    · exact (Function.update_of_ne here ..).symm.trans still
  · exact Finset.mem_filter.mpr ⟨cell, left⟩
  · intro still
    obtain ⟨_, still⟩ := Finset.mem_filter.mp still
    rw [same, Function.update_self] at still
    exact Bool.noConfusion still

theorem Route.mem [LinearOrder K] [AddCommGroup K] (consistent : P.Consistent cells) {u : V} {c : K} (route : Route P u c) : u ∈ cells := by
  induction route with
  | source => exact consistent.source
  | step route member ih => exact consistent.closed _ ih none _ (member none)

variable [LinearOrder V] [LinearOrder K] [AddCommGroup K]

theorem init_inv (consistent : P.Consistent cells) : Inv P cells (init P.estimate P.source) := by
  have only {v : V} {g : K} (scored : (init P.estimate P.source).gScore v = some g) :
      v = P.source ∧ g = 0 := by
    simp only [init, Function.update_apply] at scored
    split_ifs at scored with same
    exact ⟨same, (Option.some.inj scored).symm⟩
  have root : (init P.estimate P.source).gScore P.source = some 0 := by
    simp [init]
  refine ⟨fun v g scored => (only scored).1 ▸ consistent.source, List.pairwise_singleton _ _, ?_, ?_,
    fun v done => Bool.noConfusion done, ⟨root, rfl⟩, fun v g scored _ => (only scored).1,
    fun _ v g scored => (only scored).1, fun v parent from_ => (Option.some_ne_none parent from_.symm).elim,
    fun v g done => Bool.noConfusion done⟩
  · intro entry member
    obtain rfl := List.mem_singleton.mp member
    exact ⟨0, root, le_of_eq (zero_add _)⟩
  · intro v g scored _
    obtain ⟨rfl, rfl⟩ := only scored
    rw [zero_add]
    exact List.mem_singleton_self _

/-- An entry of a node that was closed in the meantime is dropped. -/
theorem Inv.skip (inv : Inv P cells s) {entry : K ×ₗ V} {rest : List (K ×ₗ V)}
    (queue : s.queue = entry :: rest) (done : s.closed (ofLex entry).2 = true) :
    Inv P cells { s with queue := rest } := by
  have kept {other : K ×ₗ V} (member : other ∈ rest) : other ∈ s.queue :=
    queue ▸ List.mem_cons_of_mem entry member
  refine ⟨inv.known, (queue ▸ inv.sorted).of_cons, fun other member => inv.entries other (kept member),
    fun v g scored unclosed => ?_, inv.scored, inv.root, inv.orphans, inv.unopened, inv.parents,
    fun v g closed scored other member => inv.monotone v g closed scored other (kept member)⟩
  have queued := inv.queued v g scored unclosed
  rw [queue] at queued
  rcases List.mem_cons.mp queued with rfl | later
  · exact absurd done (Bool.eq_false_iff.mp unclosed)
  · exact later

/-- The node of the first entry is closed; all that was closed before it has no larger score plus
estimate. -/
theorem Inv.close (inv : Inv P cells s) {entry : K ×ₗ V} {rest : List (K ×ₗ V)}
    (queue : s.queue = entry :: rest) (unclosed : s.closed (ofLex entry).2 = false) :
    Inv P cells { s with
      queue := rest
      closed := Function.update s.closed (ofLex entry).2 true
      nodesExpanded := s.nodesExpanded + 1 } ∧
    ∃ g, s.gScore (ofLex entry).2 = some g ∧
      ∀ v g', Function.update s.closed (ofLex entry).2 true v = true → s.gScore v = some g' →
        g' + P.estimate v ≤ g + P.estimate (ofLex entry).2 := by
  set current := (ofLex entry).2
  set closed := Function.update s.closed current true
  have kept {other : K ×ₗ V} (member : other ∈ rest) : other ∈ s.queue :=
    queue ▸ List.mem_cons_of_mem entry member
  have grown {v : V} (done : s.closed v = true) : closed v = true := by
    by_cases same : v = current
    · exact same ▸ Function.update_self ..
    · exact (Function.update_of_ne same ..).trans done
  have split {v : V} (done : closed v = true) : v = current ∨ s.closed v = true := by
    by_cases same : v = current
    · exact .inl same
    · exact .inr ((Function.update_of_ne same ..).symm.trans done)
  have pending {v : V} (left : closed v = false) : v ≠ current ∧ s.closed v = false := by
    have other : v ≠ current := by
      rintro rfl
      exact Bool.noConfusion ((Function.update_self ..).symm.trans left)
    exact ⟨other, (Function.update_of_ne other ..).symm.trans left⟩
  obtain ⟨g, scored, below⟩ := inv.entries entry (queue ▸ List.mem_cons_self)
  have least {other : K ×ₗ V} (member : other ∈ rest) : (ofLex entry).1 ≤ (ofLex other).1 := by
    have le : entry ≤ other := (List.pairwise_cons.mp (queue ▸ inv.sorted)).1 other member
    rcases Prod.Lex.le_iff.mp le with lt | ⟨same, _⟩
    · exact lt.le
    · exact same.le
  refine ⟨⟨inv.known, (queue ▸ inv.sorted).of_cons, fun other member => inv.entries other (kept member),
    ?_, ?_, inv.root, inv.orphans, ?_, ?_, ?_⟩, g, scored, ?_⟩
  · intro v g' scored' left
    obtain ⟨other, left⟩ := pending left
    have queued := inv.queued v g' scored' left
    rw [queue] at queued
    exact (List.mem_cons.mp queued).resolve_left fun first => other (congrArg (fun e => (ofLex e).2) first)
  · intro v done
    rcases split done with rfl | done
    · exact ⟨g, scored⟩
    · exact inv.scored v done
  · intro left
    obtain ⟨other, left⟩ := pending left
    exact absurd (inv.unopened left current g scored).symm other
  · intro v parent from_
    obtain ⟨done, rest⟩ := inv.parents v parent from_
    exact ⟨grown done, rest⟩
  · intro v g' done scored' other member
    rcases split done with rfl | done
    · obtain rfl := Option.some.inj (scored.symm.trans scored')
      exact below.trans (least member)
    · exact inv.monotone v g' done scored' other (kept member)
  · intro v g' done scored'
    rcases split done with rfl | done
    · exact (Option.some.inj (scored.symm.trans scored') ▸ le_refl _)
    · exact inv.monotone v g' done scored' _ (inv.queued current g scored unclosed)

variable [IsOrderedAddMonoid K]

/-- Scoring a successor of the node closed last. -/
theorem relax_inv (consistent : P.Consistent cells) (inv : Inv P cells s) {current : V} {g : K}
    (done : s.closed current = true) (scored : s.gScore current = some g)
    (last : ∀ v g', s.closed v = true → s.gScore v = some g' →
      g' + P.estimate v ≤ g + P.estimate current)
    {next : V × K} (member : next ∈ P.successors current (s.cameFrom current)) :
    Inv P cells (relax P.estimate current s next) ∧ Later s (relax P.estimate current s next) ∧
      ∃ g', (relax P.estimate current s next).gScore next.1 = some g' ∧ g' ≤ g + next.2 := by
  have here := inv.known current g scored
  have step := consistent.estimate current here _ next member
  have cell := consistent.closed current here _ next member
  obtain ⟨j, w⟩ := next
  dsimp only at step cell ⊢
  have ahead : g + P.estimate current ≤ g + w + P.estimate j := by
    rw [add_assoc]
    exact add_le_add_right step g
  rw [relax]
  by_cases past : s.closed j = true
  · -- closed earlier, so with no more than what is offered now
    rw [if_pos past]
    obtain ⟨g', known⟩ := inv.scored j past
    exact ⟨inv, .refl s, g', known, le_of_add_le_add_right ((last j g' past known).trans ahead)⟩
  rw [if_neg past, scored]
  dsimp only
  split_ifs with better
  · set gScore := Function.update s.gScore j (some (g + w))
    set cameFrom := Function.update s.cameFrom j (some current)
    have offered : gScore j = some (g + w) := Function.update_self ..
    have reached : cameFrom j = some current := Function.update_self ..
    have kept {v : V} (other : v ≠ j) : gScore v = s.gScore v := Function.update_of_ne other ..
    have kept' {v : V} (other : v ≠ j) : cameFrom v = s.cameFrom v := Function.update_of_ne other ..
    have other {v : V} (closed : s.closed v = true) : v ≠ j := by
      rintro rfl
      exact past closed
    have opened : s.closed P.source = true := by
      by_contra unopened
      obtain rfl := inv.unopened (Bool.eq_false_iff.mpr unopened) current g scored
      exact unopened done
    have lower {g' : K} (known : s.gScore j = some g') : g + w < g' := by
      rw [known] at better
      exact of_decide_eq_true better
    refine ⟨⟨?_, inv.sorted.orderedInsert _ _, ?_, ?_, ?_, ?_, ?_, ?_, ?_, ?_⟩,
      ⟨rfl, fun v closed => kept (other closed), fun v closed => kept' (other closed), ?_⟩,
      g + w, offered, le_refl _⟩
    · intro v g' scored'
      by_cases same : v = j
      · exact same ▸ cell
      · exact inv.known v g' ((kept same).symm.trans scored')
    · intro entry queued
      rcases (List.mem_orderedInsert _).mp queued with rfl | old
      · exact ⟨g + w, offered, le_refl _⟩
      · obtain ⟨g', known, le⟩ := inv.entries entry old
        by_cases same : (ofLex entry).2 = j
        · rw [same] at known le ⊢
          exact ⟨g + w, offered, (add_le_add_left (lower known).le _).trans le⟩
        · exact ⟨g', (kept same).trans known, le⟩
    · intro v g' scored' unclosed
      refine (List.mem_orderedInsert _).mpr ?_
      by_cases same : v = j
      · subst same
        rw [← Option.some.inj (offered.symm.trans scored')]
        exact .inl rfl
      · exact .inr (inv.queued v g' ((kept same).symm.trans scored') unclosed)
    · intro v closed
      obtain ⟨g', known⟩ := inv.scored v closed
      exact ⟨g', (kept (other closed)).trans known⟩
    · exact ⟨(kept (other opened)).trans inv.root.1, (kept' (other opened)).trans inv.root.2⟩
    · intro v g' scored' orphan
      by_cases same : v = j
      · subst same
        exact (Option.some_ne_none _ (reached.symm.trans orphan)).elim
      · exact inv.orphans v g' ((kept same).symm.trans scored') ((kept' same).symm.trans orphan)
    · intro unopened
      exact absurd opened (Bool.eq_false_iff.mp unopened)
    · intro v parent from_
      by_cases same : v = j
      · subst same
        obtain rfl := Option.some.inj (reached.symm.trans from_)
        refine ⟨done, g, w, (kept (other done)).trans scored, ?_, offered⟩
        change (v, w) ∈ P.successors current (cameFrom current)
        rwa [kept' (other done)]
      · obtain ⟨closed, g', w', known, member', total⟩ :=
          inv.parents v parent ((kept' same).symm.trans from_)
        refine ⟨closed, g', w', (kept (other closed)).trans known, ?_, (kept same).trans total⟩
        change (v, w') ∈ P.successors parent (cameFrom parent)
        rwa [kept' (other closed)]
    · intro v g' closed scored' entry queued
      have scored' := (kept (other closed)).symm.trans scored'
      rcases (List.mem_orderedInsert _).mp queued with rfl | old
      · exact (last v g' closed scored').trans ahead
      · exact inv.monotone v g' closed scored' entry old
    · intro v g' known
      by_cases same : v = j
      · subst same
        exact ⟨g + w, offered, (lower known).le⟩
      · exact ⟨g', (kept same).trans known, le_refl _⟩
  · refine ⟨inv, .refl s, ?_⟩
    cases known : s.gScore j with
    | none =>
      rw [known] at better
      exact absurd rfl better
    | some g' =>
      rw [known] at better
      exact ⟨g', rfl, not_lt.mp fun lower => better (decide_eq_true lower)⟩

/-- Scoring all successors of the node closed last. -/
theorem foldl_relax_inv (consistent : P.Consistent cells) {current : V} {g : K} {nexts : List (V × K)}
    (inv : Inv P cells s) (done : s.closed current = true) (scored : s.gScore current = some g)
    (last : ∀ v g', s.closed v = true → s.gScore v = some g' →
      g' + P.estimate v ≤ g + P.estimate current)
    (members : nexts ⊆ P.successors current (s.cameFrom current)) :
    Inv P cells (nexts.foldl (relax P.estimate current) s) ∧
      Later s (nexts.foldl (relax P.estimate current) s) ∧
      ∀ next ∈ nexts, ∃ g', (nexts.foldl (relax P.estimate current) s).gScore next.1 = some g' ∧
        g' ≤ g + next.2 := by
  induction nexts generalizing s with
  | nil => exact ⟨inv, .refl s, fun next member => absurd member List.not_mem_nil⟩
  | cons next rest ih =>
    obtain ⟨first, rest'⟩ := List.cons_subset.mp members
    obtain ⟨inv', later, g', known, le⟩ := relax_inv consistent inv done scored last first
    have done' : (relax P.estimate current s next).closed current = true := later.closed ▸ done
    obtain ⟨inv'', later', relaxed⟩ := ih inv' done' ((later.score current done).trans scored)
      (fun v g' closed scored' => by
        rw [later.closed] at closed
        exact last v g' closed ((later.score v closed).symm.trans scored'))
      (by rwa [later.parent current done])
    refine ⟨inv'', later.trans later', fun other member => ?_⟩
    rcases List.mem_cons.mp member with rfl | member
    · obtain ⟨g'', known', le'⟩ := later'.better other.1 g' known
      exact ⟨g'', known', le'.trans le⟩
    · exact relaxed other member

/-- Between two rounds: the successors of all closed nodes are scored, but for goals. -/
structure Settled (P : Problem V K) (cells : Finset V) (s : Search V K) : Prop where
  inv : Inv P cells s
  relaxed : ∀ v, s.closed v = true → P.isGoal v = false → Relaxed P s v

/-- The state that a search with these rounds ends in: without a goal it has closed every node it
scored, and otherwise the goal it returns is the only one it closed. -/
inductive Finished (P : Problem V K) (cells : Finset V) : Option V × Search V K → Prop
  | exhausted {s : Search V K} (settled : Settled P cells s) (queue : s.queue = [])
      (goals : ∀ v, s.closed v = true → P.isGoal v = false) : Finished P cells (none, s)
  | reached {s : Search V K} (settled : Settled P cells s) {v : V} (done : s.closed v = true)
      (goal : P.isGoal v = true) (goals : ∀ u, s.closed u = true → P.isGoal u = true → u = v) :
      Finished P cells (some v, s)

/-- The search of a problem. -/
def Problem.run (P : Problem V K) : ℕ → Search V K → Option (Option V × Search V K) :=
  search (fun v parent => some (P.successors v parent)) P.isGoal P.estimate

theorem Settled.close (consistent : P.Consistent cells) (settled : Settled P cells s)
    {entry : K ×ₗ V} {rest : List (K ×ₗ V)} (queue : s.queue = entry :: rest)
    (unclosed : s.closed (ofLex entry).2 = false) :
    let current := (ofLex entry).2
    let closed : Search V K := { s with
      queue := rest
      closed := Function.update s.closed current true
      nodesExpanded := s.nodesExpanded + 1 }
    let next := (P.successors current (closed.cameFrom current)).foldl (relax P.estimate current) closed
    Settled P cells next ∧ next.closed = closed.closed := by
  intro current closed next
  obtain ⟨inv, g, scored, last⟩ := settled.inv.close queue unclosed
  have done : closed.closed current = true := Function.update_self ..
  obtain ⟨inv', later, relaxed⟩ := foldl_relax_inv consistent inv done scored last (List.Subset.refl _)
  refine ⟨⟨inv', fun v done' ordinary => ?_⟩, later.closed⟩
  rw [later.closed] at done'
  by_cases same : v = current
  · subst same
    intro g' scored' other member
    rw [later.parent _ done] at member
    rw [later.score _ done] at scored'
    obtain rfl := Option.some.inj (scored.symm.trans scored')
    exact relaxed other member
  · have before : s.closed v = true := (Function.update_of_ne same ..).symm.trans done'
    have old : Relaxed P closed v := settled.relaxed v before ordinary
    exact old.later done' later

theorem run_finished (consistent : P.Consistent cells) {fuel : ℕ} {result : Option V × Search V K}
    (settled : Settled P cells s) (goals : ∀ v, s.closed v = true → P.isGoal v = false)
    (ran : P.run fuel s = some result) : Finished P cells result := by
  induction fuel generalizing s with
  | zero => contradiction
  | succ fuel ih =>
    rw [Problem.run, search] at ran
    split at ran
    · obtain rfl := Option.some.inj ran
      exact .exhausted settled ‹_› goals
    · rename_i entry rest queue
      dsimp only at ran
      split_ifs at ran with done goal
      · exact ih ⟨settled.inv.skip queue done, settled.relaxed⟩ goals ran
      · have unclosed := Bool.eq_false_iff.mpr done
        obtain rfl := Option.some.inj ran
        have goals' {u : V} (closed : Function.update s.closed (ofLex entry).2 true u = true)
            (isGoal : P.isGoal u = true) : u = (ofLex entry).2 := by
          by_contra other
          exact Bool.eq_false_iff.mp (goals u ((Function.update_of_ne other ..).symm.trans closed)) isGoal
        refine .reached ⟨(settled.inv.close queue unclosed).1, fun v closed plain => ?_⟩
          (Function.update_self ..) goal fun u closed isGoal => goals' closed isGoal
        refine settled.relaxed v ?_ plain
        by_cases same : v = (ofLex entry).2
        · exact absurd goal (same ▸ Bool.eq_false_iff.mp plain)
        · exact (Function.update_of_ne same ..).symm.trans closed
      · have unclosed := Bool.eq_false_iff.mpr done
        obtain ⟨settled', same⟩ := settled.close consistent queue unclosed
        refine ih settled' (fun v closed => ?_) ran
        rw [same] at closed
        by_cases here : v = (ofLex entry).2
        · exact here ▸ Bool.eq_false_iff.mpr goal
        · exact goals v ((Function.update_of_ne here ..).symm.trans closed)

/-- A search ends: each round closes a cell, or drops an entry of the queue and closes none. -/
theorem run_total (consistent : P.Consistent cells) (settled : Settled P cells s) :
    ∃ fuel result, P.run fuel s = some result := by
  induction size : (unclosed cells s).card using Nat.strong_induction_on generalizing s with
  | _ size outer =>
    induction queue : s.queue generalizing s with
    | nil => exact ⟨1, (none, s), by rw [Problem.run, search, queue]⟩
    | cons entry rest inner =>
      by_cases done : s.closed (ofLex entry).2 = true
      · obtain ⟨fuel, result, ran⟩ :=
          @inner { s with queue := rest } ⟨settled.inv.skip queue done, settled.relaxed⟩ size rfl
        refine ⟨fuel + 1, result, ?_⟩
        rw [Problem.run, search, queue]
        dsimp only
        rw [if_pos done]
        exact ran
      by_cases goal : P.isGoal (ofLex entry).2 = true
      · refine ⟨1, (some (ofLex entry).2, { s with
          queue := rest
          closed := Function.update s.closed (ofLex entry).2 true
          nodesExpanded := s.nodesExpanded + 1 }), ?_⟩
        rw [Problem.run, search, queue]
        dsimp only
        rw [if_neg done, if_pos goal]
      · obtain ⟨settled', same⟩ := settled.close consistent queue (Bool.eq_false_iff.mpr done)
        obtain ⟨g, scored, _⟩ := settled.inv.entries entry (queue ▸ List.mem_cons_self)
        have fewer := unclosed_card_lt same (settled.inv.known _ g scored) (Bool.eq_false_iff.mpr done)
        rw [size] at fewer
        obtain ⟨fuel, result, ran⟩ := outer _ fewer settled' rfl
        refine ⟨fuel + 1, result, ?_⟩
        rw [Problem.run, search, queue]
        dsimp only
        rw [if_neg done, if_neg goal]
        exact ran

/-- Where the search of a problem ends. -/
theorem run_init (consistent : P.Consistent cells) :
    ∃ fuel result, P.run fuel (init P.estimate P.source) = some result ∧ Finished P cells result := by
  have settled : Settled P cells (init P.estimate P.source) :=
    ⟨init_inv consistent, fun v done => Bool.noConfusion done⟩
  obtain ⟨fuel, result, ran⟩ := run_total consistent settled
  exact ⟨fuel, result, ran, run_finished consistent settled (fun v done => Bool.noConfusion done) ran⟩

/-! ## What was reached -/

/-- What holds of the source, and of a node when it holds of the one it was reached from, holds of
every scored node: scores fall on the way back to the source. -/
theorem Inv.induction (consistent : P.Consistent cells) (inv : Inv P cells s) {motive : V → K → Prop}
    (source : motive P.source 0)
    (step : ∀ v parent g w, s.cameFrom v = some parent → s.closed parent = true →
      s.gScore parent = some g → (v, w) ∈ P.successors parent (s.cameFrom parent) →
      s.gScore v = some (g + w) → motive parent g → motive v (g + w))
    {v : V} {g : K} (scored : s.gScore v = some g) : motive v g := by
  induction size : (cells.filter fun u => ∃ g', s.gScore u = some g' ∧ g' < g).card
    using Nat.strong_induction_on generalizing v g with
  | _ size ih =>
    cases from_ : s.cameFrom v with
    | none =>
      obtain rfl := inv.orphans v g scored from_
      rw [Option.some.inj (scored.symm.trans inv.root.1)]
      exact source
    | some parent =>
      obtain ⟨done, g', w, known, member, total⟩ := inv.parents v parent from_
      obtain rfl := Option.some.inj (scored.symm.trans total)
      have cell := inv.known parent g' known
      have falls : g' < g' + w := lt_add_of_pos_right g' (consistent.positive parent cell _ _ member)
      refine step v parent g' w from_ done known member total (ih _ ?_ known rfl)
      rw [← size]
      refine Finset.card_lt_card (Finset.ssubset_iff_of_subset ?_ |>.mpr ⟨parent, ?_, ?_⟩)
      · intro u lower
        obtain ⟨cell, g'', known', lt⟩ := Finset.mem_filter.mp lower
        exact Finset.mem_filter.mpr ⟨cell, g'', known', lt.trans falls⟩
      · exact Finset.mem_filter.mpr ⟨cell, g', known, falls⟩
      · intro lower
        obtain ⟨_, g'', known', lt⟩ := Finset.mem_filter.mp lower
        obtain rfl := Option.some.inj (known.symm.trans known')
        exact lt_irrefl _ lt

/-- How far a search is along a route: the node at its end is closed with at most the cost of the
route, or some open node is estimated to be no worse than the end, or a goal was closed before. -/
theorem Settled.route (consistent : P.Consistent cells) (settled : Settled P cells s) {u : V} {c : K}
    (route : Route P u c) :
    (∃ g, s.gScore u = some g ∧ g ≤ c ∧ s.closed u = true) ∨
    (∃ x g, s.closed x = false ∧ s.gScore x = some g ∧ g + P.estimate x ≤ c + P.estimate u) ∨
    ∃ v g, s.closed v = true ∧ P.isGoal v = true ∧ s.gScore v = some g ∧ g ≤ c := by
  induction route with
  | source =>
    cases done : s.closed P.source with
    | true => exact .inl ⟨0, settled.inv.root.1, le_refl _, rfl⟩
    | false => exact .inr (.inl ⟨P.source, 0, done, settled.inv.root.1, le_refl _⟩)
  | @step v c next route member ih =>
    have cell := route.mem consistent
    have ahead : c ≤ c + next.2 :=
      le_add_of_nonneg_right (consistent.positive v cell none next (member none)).le
    rcases ih with ⟨g, scored, le, done⟩ | ⟨x, g, left, scored, le⟩ | ⟨v, g, done, goal, scored, le⟩
    · cases goal : P.isGoal v with
      | true => exact .inr (.inr ⟨v, g, done, goal, scored, le.trans ahead⟩)
      | false =>
        obtain ⟨g', known, le'⟩ := settled.relaxed v done goal g scored next (member _)
        have total := le'.trans (add_le_add_left le next.2)
        cases done' : s.closed next.1 with
        | true => exact .inl ⟨g', known, total, rfl⟩
        | false => exact .inr (.inl ⟨next.1, g', done', known, add_le_add_left total _⟩)
    · refine .inr (.inl ⟨x, g, left, scored, le.trans ?_⟩)
      rw [add_assoc]
      exact add_le_add_right (consistent.estimate v cell none next (member none)) c
    · exact .inr (.inr ⟨v, g, done, goal, scored, le.trans ahead⟩)

/-- A search that ends without a goal has no route to one. -/
theorem Settled.no_route (consistent : P.Consistent cells) (settled : Settled P cells s) (queue : s.queue = [])
    (goals : ∀ v, s.closed v = true → P.isGoal v = false) {u : V} {c : K} (route : Route P u c) :
    P.isGoal u = false := by
  rcases settled.route consistent route with ⟨_, _, _, done⟩ | ⟨x, g, left, scored, _⟩ |
    ⟨v, _, done, goal, _, _⟩
  · exact goals u done
  · have queued := settled.inv.queued x g scored left
    rw [queue] at queued
    exact absurd queued List.not_mem_nil
  · exact absurd goal (Bool.eq_false_iff.mp (goals v done))

/-- A goal that a search ends with is as cheap to reach as any. -/
theorem Settled.optimal (consistent : P.Consistent cells) (settled : Settled P cells s) {v : V} {g : K}
    (done : s.closed v = true) (goals : ∀ u, s.closed u = true → P.isGoal u = true → u = v)
    (scored : s.gScore v = some g) (estimate : ∀ u, P.isGoal u = true → P.estimate u = 0)
    (goal : P.isGoal v = true) {u : V} {c : K} (route : Route P u c) (goal' : P.isGoal u = true) : g ≤ c := by
  rcases settled.route consistent route with ⟨g', scored', le, done'⟩ | ⟨x, g', left, scored', le⟩ |
    ⟨u, g', done', goal', scored', le⟩
  · obtain rfl := goals u done' goal'
    exact Option.some.inj (scored.symm.trans scored') ▸ le
  · have ahead := settled.inv.monotone v g done scored _ (settled.inv.queued x g' scored' left)
    rw [estimate v goal, add_zero] at ahead
    rw [estimate u goal', add_zero] at le
    exact ahead.trans le
  · obtain rfl := goals u done' goal'
    exact Option.some.inj (scored.symm.trans scored') ▸ le

end Invariant

end BestFirst
