import Mathlib.Algebra.Group.Nat.Defs
import Mathlib.Algebra.Order.Ring.Int
import Mathlib.Order.Bounds.Basic
import Mathlib.Order.Interval.Finset.Nat

/-!
# The rounds of `server::run` (`core/server.cpp`)

A round of the loop reads the clock, updates the workers and sleeps; it is due `UPDATE_INTERVAL` after the
one before it was due.

* `steady k` is the steady clock in milliseconds and `offset k` the `offset_` of `time`, which Lua can
  set, at the `k`-th reading of `time::now()`; the reading before the loop is number 0.
* The numbers do not overflow, and `thread_sleep` sleeps at least as long as it is told.

    0 ≤ sleep ≤ 10 * (1 + rounds in which offset_ went down)
    steady j + 10 * rounds from j on in which it did not go up ≤ steady (k + 1)
    due k is the latest of the due j + 10 * (k - j) and the steady i + 10 * (k - i)          (rounds_paced)
-/

namespace HappyServer.Services.Pacing

/-- In milliseconds. -/
def UPDATE_INTERVAL : Int := 10

/-- What a round leaves for the next one. -/
structure Round where
  previous_tick : Int
  sleep_duration : Int

/-- A round that reads `now`. -/
def Round.next (s : Round) (now : Int) : Round :=
  let diff := now - s.previous_tick
  let diff := if diff < 0 then 0 else diff
  if diff ≤ UPDATE_INTERVAL + s.sleep_duration then
    ⟨now, UPDATE_INTERVAL + s.sleep_duration - diff⟩
  else ⟨now, 0⟩

variable (steady offset : Nat → Int)

def now (k : Nat) : Int := steady k + offset k

def rounds : Nat → Round
  | 0 => ⟨now steady offset 0, 0⟩
  | k + 1 => (rounds k).next (now steady offset (k + 1))

def sleep (k : Nat) : Int := (rounds steady offset k).sleep_duration

/-- On the steady clock, when the next round is to begin. -/
def due (k : Nat) : Int := steady k + sleep steady offset k

/-- `thread_sleep` sleeps long enough. -/
def Sleeps : Prop := ∀ k, due steady offset k ≤ steady (k + 1)

variable {steady offset}

theorem previous_tick_eq (k : Nat) : (rounds steady offset k).previous_tick = now steady offset k := by
  cases k with
  | zero => rfl
  | succ k =>
    show ((rounds steady offset k).next (now steady offset (k + 1))).previous_tick = _
    unfold Round.next
    simp only
    split <;> split <;> rfl

/-- What a round does to the time it sleeps. -/
theorem sleep_succ (k : Nat) : sleep steady offset (k + 1) =
    max 0 (10 + sleep steady offset k - max 0 (now steady offset (k + 1) - now steady offset k)) := by
  show ((rounds steady offset k).next (now steady offset (k + 1))).sleep_duration = _
  unfold Round.next sleep UPDATE_INTERVAL
  rw [previous_tick_eq]
  simp only
  split <;> split <;> simp only <;> omega

theorem sleep_nonneg (k : Nat) : 0 ≤ sleep steady offset k := by
  cases k with
  | zero => exact le_refl _
  | succ k =>
    rw [sleep_succ]
    exact le_max_left _ _

/-- The rounds before `k` in which `offset_` went down. -/
def setBack (offset : Nat → Int) (k : Nat) : Finset Nat :=
  (Finset.range k).filter fun i => offset (i + 1) < offset i

/-- The rounds from `j` on in which it did not go up. -/
def notAhead (offset : Nat → Int) (j k : Nat) : Finset Nat :=
  (Finset.Ico j k).filter fun i => offset (i + 1) ≤ offset i

theorem card_setBack_succ (k : Nat) : (setBack offset (k + 1)).card =
    (setBack offset k).card + if offset (k + 1) < offset k then 1 else 0 := by
  unfold setBack
  rw [Finset.range_add_one, Finset.filter_insert]
  split
  · rw [Finset.card_insert_of_notMem (by simp)]
  · rfl

theorem card_notAhead_succ {j k : Nat} (hjk : j ≤ k) : (notAhead offset j (k + 1)).card =
    (notAhead offset j k).card + if offset (k + 1) ≤ offset k then 1 else 0 := by
  unfold notAhead
  rw [show Finset.Ico j (k + 1) = _ from Nat.Ico_succ_right_eq_insert_Ico hjk, Finset.filter_insert]
  split
  · rw [Finset.card_insert_of_notMem (by simp)]
  · rfl

section Sleeping

variable (h : Sleeps steady offset)
include h

theorem sleep_le (k : Nat) : sleep steady offset k ≤ 10 * (1 + (setBack offset k).card : Int) := by
  induction k with
  | zero =>
    show (0 : Int) ≤ _
    omega
  | succ k ih =>
    have hdue := h k
    rw [sleep_succ, card_setBack_succ]
    unfold due at hdue
    unfold now
    split <;> push_cast <;> omega

/-- Unless the clock was set ahead, a round is due 10 ms after the one before was. -/
theorem due_step (k : Nat) : due steady offset k ≤ due steady offset (k + 1) ∧
    (offset (k + 1) ≤ offset k → due steady offset k + 10 ≤ due steady offset (k + 1)) := by
  have hdue := h k
  have hnonneg := @sleep_nonneg steady offset k
  unfold due at *
  rw [sleep_succ]
  unfold now
  constructor <;> omega

theorem due_apart {j k : Nat} (hjk : j ≤ k) :
    due steady offset j + 10 * (notAhead offset j k).card ≤ due steady offset k := by
  induction k, hjk using Nat.le_induction with
  | base => simp [notAhead]
  | succ k hjk ih =>
    obtain ⟨hmono, hapart⟩ := due_step h k
    rw [card_notAhead_succ hjk]
    split
    · have := hapart ‹_›
      push_cast
      omega
    · push_cast
      omega

/-- While the offset is left alone, a late round is not made up for. -/
theorem due_succ (k : Nat) (hoffset : offset (k + 1) = offset k) :
    due steady offset (k + 1) = max (due steady offset k + 10) (steady (k + 1)) := by
  have hdue := h k
  have hnonneg := @sleep_nonneg steady offset k
  unfold due at *
  rw [sleep_succ]
  unfold now
  omega

/-- **The rounds of `run`.**  Where the numbers of milliseconds do not overflow, it never sleeps less than
nothing, nor longer than 10 ms, and 10 ms more for each time the clock was set back.  From the beginning of
the loop `k` rounds take 10 ms each or more, but for those in which the clock was set ahead; from a later
round on the same holds up to one reading more than the rounds.  While it is not set, the rounds are due every
10 ms without drifting, except that a round which is late puts off those that follow: they do not bunch. -/
theorem rounds_paced : (∀ k, 0 ≤ sleep steady offset k ∧
      sleep steady offset k ≤ 10 * (1 + (setBack offset k).card : Int)) ∧
    (∀ j k, j ≤ k → steady j + 10 * ((notAhead offset j k).card : Int) ≤ steady (k + 1)) ∧
    ∀ j k, j ≤ k → (∀ i, j ≤ i → i < k → offset (i + 1) = offset i) →
      IsGreatest ({t | t = due steady offset j + 10 * (k - j : Int)} ∪
        {t | ∃ i, j < i ∧ i ≤ k ∧ t = steady i + 10 * (k - i : Int)}) (due steady offset k) := by
  refine ⟨fun k => ⟨sleep_nonneg k, sleep_le h k⟩, fun j k hjk => ?_, fun j k hjk => ?_⟩
  · have hapart := due_apart h hjk
    have hnonneg := @sleep_nonneg steady offset j
    have hdue := h k
    unfold due at hapart hdue
    omega
  · induction k, hjk using Nat.le_induction with
    | base =>
      refine fun _ => ⟨.inl ?_, ?_⟩
      · show _ = _
        omega
      · rintro t (ht | ⟨i, hji, hij, -⟩)
        · rw [ht]
          omega
        · omega
    | succ k hjk ih =>
      intro hoffset
      obtain ⟨hmem, hub⟩ := ih fun i hji hik => hoffset i hji (by omega)
      rw [due_succ h k (hoffset k hjk (by omega))]
      refine ⟨?_, ?_⟩
      · obtain hle | hlt := le_or_gt (steady (k + 1)) (due steady offset k + 10)
        · rw [max_eq_left hle]
          obtain hj | ⟨i, hji, hik, hi⟩ := hmem
          · refine .inl ?_
            rw [Set.mem_ofPred_eq] at hj ⊢
            push_cast
            omega
          · refine .inr ⟨i, hji, by omega, ?_⟩
            push_cast
            omega
        · rw [max_eq_right (le_of_lt hlt)]
          refine .inr ⟨k + 1, by omega, le_refl _, ?_⟩
          omega
      · rintro t (ht | ⟨i, hji, hik, rfl⟩)
        · have hlate := hub (Set.mem_union_left _ rfl)
          rw [Set.mem_ofPred_eq] at ht
          push_cast at ht
          omega
        · by_cases hlast : i = k + 1
          · subst hlast
            push_cast
            omega
          · have hlate := hub (Set.mem_union_right _ ⟨i, hji, by omega, rfl⟩)
            push_cast
            omega

end Sleeping

/-- Rounds that take 10 ms each leave no time to sleep. -/
theorem sleeps_even : Sleeps (fun k => 10 * k) fun _ => 0 := by
  have hsleep : ∀ k, sleep (fun k => 10 * k) (fun _ => 0) k = 0 := by
    intro k
    induction k with
    | zero => rfl
    | succ k ih =>
      rw [sleep_succ, ih]
      unfold now
      push_cast
      omega
  intro k
  unfold due
  rw [hsleep]
  push_cast
  omega

theorem rounds_paced_even :
    (∀ k, 0 ≤ sleep (fun k => 10 * k) (fun _ => 0) k ∧
      sleep (fun k => 10 * k) (fun _ => 0) k ≤ 10 * (1 + (setBack (fun _ => 0) k).card : Int)) ∧
    (∀ j k : Nat, j ≤ k → 10 * (j : Int) + 10 * ((notAhead (fun _ => 0) j k).card : Int) ≤ 10 * (k + 1 : Nat)) ∧
    ∀ j k : Nat, j ≤ k → (∀ i, j ≤ i → i < k → (0 : Int) = 0) →
      IsGreatest ({t | t = due (fun k => 10 * k) (fun _ => 0) j + 10 * (k - j : Int)} ∪
        {t | ∃ i : Nat, j < i ∧ i ≤ k ∧ t = 10 * (i : Int) + 10 * (k - i : Int)})
        (due (fun k => 10 * k) (fun _ => 0) k) :=
  rounds_paced sleeps_even

end HappyServer.Services.Pacing
