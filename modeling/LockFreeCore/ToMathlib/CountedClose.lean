import Mathlib.Data.Multiset.Count
import Mathlib.Data.Multiset.ZeroCons

/-! # Closing a resource that counts its users

Users of a resource count themselves in, look at its closing flag once more and back out when it is
set. Closers set the flag; whoever then sees the flag set and the count at zero claims the tear-down
with a swap. A user that has finished counts itself out and polls, so that the last one out can find
the count at zero; a user that backs out does not poll.

The parties are the users and closers at the points between these accesses. The count is the number
of the users among them, the resource is torn down at most once, and no user is past its second look
at the flag from the moment on at which a closer has seen the count at zero.
-/

namespace CountedClose

/-- Where a user or a closer is. -/
inductive Role where
  /-- Counted in, and about to look at the flag again. -/
  | entering
  /-- Saw the flag set, and about to back out. -/
  | leaving
  /-- Saw the flag clear. -/
  | working
  /-- About to look at the flag, to tear the resource down if it can be. -/
  | polling
  /-- Saw the flag set, and about to look at the count. -/
  | reading
  /-- Saw the count at zero, and about to claim the tear-down. -/
  | claiming
  /-- Tearing the resource down. -/
  | tearing
deriving DecidableEq, Repr

/-- The resource; `claims` counts the claims that succeeded, `released` those carried out. -/
structure State where
  count : ℤ
  closing : Bool
  torn : Bool
  claims : ℕ
  released : ℕ
  parties : Multiset Role

/-- The steps that matter for whether a closed resource is torn down at last. -/
inductive Label where
  | back
  | quit
  | other
deriving DecidableEq, Repr

open Role Label

inductive Step : State → Label → State → Prop
  | enter (n c t a r R) : Step ⟨n, c, t, a, r, R⟩ other ⟨n + 1, c, t, a, r, entering ::ₘ R⟩
  | pass (n t a r R) : Step ⟨n, false, t, a, r, entering ::ₘ R⟩ other ⟨n, false, t, a, r, working ::ₘ R⟩
  | refuse (n t a r R) : Step ⟨n, true, t, a, r, entering ::ₘ R⟩ other ⟨n, true, t, a, r, leaving ::ₘ R⟩
  | back (n c t a r R) : Step ⟨n, c, t, a, r, leaving ::ₘ R⟩ back ⟨n - 1, c, t, a, r, R⟩
  | finish (n c t a r R) : Step ⟨n, c, t, a, r, working ::ₘ R⟩ other ⟨n - 1, c, t, a, r, polling ::ₘ R⟩
  | call (n c t a r R) : Step ⟨n, c, t, a, r, R⟩ other ⟨n, c, t, a, r, polling ::ₘ R⟩
  | quit (n c t a r R) : Step ⟨n, c, t, a, r, polling ::ₘ R⟩ quit ⟨n, c, t, a, r, R⟩
  | mark (n c t a r R) : Step ⟨n, c, t, a, r, polling ::ₘ R⟩ other ⟨n, true, t, a, r, polling ::ₘ R⟩
  | see (n t a r R) : Step ⟨n, true, t, a, r, polling ::ₘ R⟩ other ⟨n, true, t, a, r, reading ::ₘ R⟩
  | busy (n c t a r R) (used : n ≠ 0) : Step ⟨n, c, t, a, r, reading ::ₘ R⟩ other ⟨n, c, t, a, r, R⟩
  | free (c t a r R) : Step ⟨0, c, t, a, r, reading ::ₘ R⟩ other ⟨0, c, t, a, r, claiming ::ₘ R⟩
  | claim (n c a r R) : Step ⟨n, c, false, a, r, claiming ::ₘ R⟩ other ⟨n, c, true, a + 1, r, tearing ::ₘ R⟩
  | lose (n c a r R) : Step ⟨n, c, true, a, r, claiming ::ₘ R⟩ other ⟨n, c, true, a, r, R⟩
  | release (n c t a r R) : Step ⟨n, c, t, a, r, tearing ::ₘ R⟩ other ⟨n, c, t, a, r + 1, R⟩

/-- How many parties there are in a role. -/
abbrev State.among (s : State) (role : Role) : ℕ := s.parties.count role

/-- What holds after every step, whatever the parties do; `before` claims were made earlier. -/
structure Sound (before : ℕ) (s : State) : Prop where
  count : s.count = s.among entering + s.among leaving + s.among working
  closed : s.torn ∨ 0 < s.among leaving ∨ 0 < s.among reading ∨ 0 < s.among claiming → s.closing
  sealed : s.torn ∨ 0 < s.among claiming → s.among working = 0
  claimed : s.claims = before + if s.torn then 1 else 0
  released : before + s.among tearing + s.released = s.claims

variable {before : ℕ} {s t : State} {label : Label}

theorem Sound.step_count (sound : Sound before s) (step : Step s label t) :
    t.count = t.among entering + t.among leaving + t.among working := by
  have count := sound.count
  cases step <;> simp [State.among] at count ⊢ <;> omega

theorem Sound.step_closed (sound : Sound before s) (step : Step s label t) :
    t.torn ∨ 0 < t.among leaving ∨ 0 < t.among reading ∨ 0 < t.among claiming → t.closing := by
  have closed := sound.closed
  cases step <;> simp [State.among] at closed ⊢ <;> simp_all

/-- A closer sees the count at zero when there is no user, and from then on a user that counts itself
in finds the flag set. -/
theorem Sound.step_sealed (sound : Sound before s) (step : Step s label t) :
    t.torn ∨ 0 < t.among claiming → t.among working = 0 := by
  have sealed := sound.sealed
  have closed := sound.closed
  cases step with
  | free c torn a r R =>
    have count := sound.count
    simp only [State.among, Multiset.count_cons, reduceCtorEq, if_false, Nat.add_zero] at count ⊢
    intro _
    omega
  | _ =>
    simp [State.among] at sealed closed ⊢
    simp_all

theorem Sound.step_claimed (sound : Sound before s) (step : Step s label t) :
    t.claims = before + if t.torn then 1 else 0 := by
  have claimed := sound.claimed
  cases step <;> simp at claimed ⊢ <;> omega

theorem Sound.step_released (sound : Sound before s) (step : Step s label t) :
    before + t.among tearing + t.released = t.claims := by
  have released := sound.released
  cases step <;> simp [State.among] at released ⊢ <;> omega

theorem Sound.step (sound : Sound before s) (step : Step s label t) : Sound before t :=
  ⟨sound.step_count step, sound.step_closed step, sound.step_sealed step, sound.step_claimed step,
    sound.step_released step⟩

/-- A closed resource that is not torn down yet has somebody left who will find that out. -/
def Attended (s : State) : Prop := s.closing → ¬ s.torn → ∃ role ∈ s.parties, role ≠ tearing

/-- A party that counts is left as long as the count is not zero. -/
theorem Sound.exists_user (sound : Sound before s) (used : s.count ≠ 0) :
    ∃ user ∈ s.parties, user ≠ tearing := by
  have count := sound.count
  have some : 0 < s.among entering ∨ 0 < s.among leaving ∨ 0 < s.among working := by omega
  rcases some with some | some | some
  · exact ⟨entering, Multiset.count_pos.mp some, nofun⟩
  · exact ⟨leaving, Multiset.count_pos.mp some, nofun⟩
  · exact ⟨working, Multiset.count_pos.mp some, nofun⟩

/-- While somebody tears the resource down it is marked as torn. -/
theorem Sound.torn_of_tearing (sound : Sound before s) (some : 0 < s.among tearing) : s.torn := by
  have claimed := sound.claimed
  have released := sound.released
  cases torn : s.torn with
  | true => rfl
  | false =>
    rw [torn, if_neg Bool.false_ne_true] at claimed
    omega

/-- Only one who backs out, or who gives up the poll, can be the last to attend to a closed
resource. -/
theorem Attended.step (sound : Sound before s) (step : Step s label t)
    (kept : label ≠ other → Attended t) : Attended t := by
  have head {role : Role} {R : Multiset Role} (attends : role ≠ tearing) :
      ∃ party ∈ role ::ₘ R, party ≠ tearing := ⟨role, Multiset.mem_cons_self .., attends⟩
  have after := sound.step step
  cases step with
  | enter | pass | refuse | finish | call | mark | see | free => exact fun _ _ => head nofun
  | back | quit => exact kept nofun
  | busy n c t a r R used => exact fun _ _ => after.exists_user used
  | claim n c a r R => exact fun _ left => absurd rfl left
  | lose n c a r R => exact fun _ left => absurd rfl left
  | release n c t a r R =>
    exact fun _ left => absurd (sound.torn_of_tearing (Multiset.count_pos.mpr (Multiset.mem_cons_self ..))) left

end CountedClose
