import Mathlib.Algebra.Order.Ring.Nat
import HappyServer.Timer.DueSlot

/-!
# When a timer expires

A timer armed for `d` milliseconds waits `ticks d` ticks.  `ExactlyOnce` says that
`on_timer` was called for it then and not at another time; `dueAt` in closed form
(`dueAt_between`, `dueAt_within`) says when the code keeps this.

* `exact_expiry_iff`: armed between updates, when rounding the duration up to a tick
  does not overflow.
* `exact_rearm_iff`: armed within a tick, when moreover the tick does not end a round
  of wheel 0 or the timer waits less than a round.
* `tick_returns_iff`: a tick calls `on_timer` once for every key that was due, and
  ends, unless it ends a round and arms a timer for a full round.
-/

namespace HappyServer.Timer

open Word Rotation TimerWheel BaseTimer

variable {σ : Type}

/-! ## Reach of the wheels -/

/-- The visits that `L` wheels reach beyond a round of the topmost. -/
def slack (Size : Nat) : Nat → Nat
  | 0 => 0
  | L + 1 => Size * (slack Size L + 1)

theorem stored_iff {Size : Nat} (hS : 0 < Size) (L : Nat) :
    ∀ c y, c ≤ y →
      (Stored Size (L + 1) c y ↔
        y < Size ^ (L + 1) * (c / Size ^ (L + 1) + 1) + slack Size L) := by
  induction L with
  | zero =>
    intro c y hcy
    have hle : c / Size ≤ y / Size := Nat.div_le_div_right hcy
    simp only [Stored, or_false, slack, Nat.zero_add, pow_one, Nat.add_zero]
    rw [Nat.mul_comm, ← Nat.div_lt_iff_lt_mul hS]
    omega
  | succ L ih =>
    intro c y hcy
    have hle : c / Size ≤ y / Size := Nat.div_le_div_right hcy
    have hpow : 0 < Size ^ (L + 1) := Nat.pow_pos hS
    have hdiv : c / Size ^ (L + 2) = c / Size / Size ^ (L + 1) := by
      rw [Nat.div_div_eq_div_mul, pow_succ' Size (L + 1)]
    have hlow := Nat.lt_mul_div_succ (c / Size) hpow
    have hshape : Size ^ (L + 2) * (c / Size ^ (L + 2) + 1) + slack Size (L + 1) =
        (Size ^ (L + 1) * (c / Size / Size ^ (L + 1) + 1) + slack Size L + 1) * Size := by
      rw [hdiv, slack, pow_succ' Size (L + 1)]
      ring
    have hstep := ih (c / Size) (y / Size - 1)
    rw [hshape, ← Nat.div_lt_iff_lt_mul hS, Stored]
    by_cases hq : y / Size = c / Size
    · refine ⟨fun _ => ?_, fun _ => Or.inl hq⟩
      omega
    · have hpos : 0 < y / Size := Nat.lt_of_le_of_lt (Nat.zero_le _) (Nat.lt_of_le_of_ne hle (Ne.symm hq))
      rw [or_iff_right hq, hstep (by omega)]
      omega

/-- Four wheels. -/
theorem stored_four_iff (c y : Nat) (h : c ≤ y) :
    Stored WHEEL_SIZE 4 c y ↔
      y < WHEEL_SIZE ^ 4 * (c / WHEEL_SIZE ^ 4 + 1) + slack WHEEL_SIZE 3 :=
  stored_iff (by decide) 3 c y h

/-! ## `dueAt` in closed form -/

theorem dueAt_between (E : Nat) (d : Int) :
    dueAt E E d =
      if Stored WHEEL_SIZE 4 E (E + slotCount d - 1) then some (E + slotCount d) else none := by
  have h1 := slotCount_pos d
  unfold dueAt armDue
  generalize slotCount d = m at h1
  by_cases hq : (E + m - 1) / WHEEL_SIZE = E / WHEEL_SIZE
  · have hv : visit WHEEL_SIZE E ((E + m - 1) % WHEEL_SIZE) = E + m - 1 := by
      apply visit_of_window _ _ (by omega)
      unfold WHEEL_SIZE at *
      omega
    have hst : Stored WHEEL_SIZE 4 E (E + m - 1) := Or.inl hq
    rw [if_pos hq, if_pos hst, hv, Nat.sub_add_cancel (by omega)]
  · have hst : Stored WHEEL_SIZE 4 E (E + m - 1) ↔
        Stored WHEEL_SIZE 3 (E / WHEEL_SIZE) ((E + m - 1) / WHEEL_SIZE - 1) := or_iff_right hq
    rw [if_neg hq]
    simp only [hst]

/-- Within a tick that does not end a round, or for less than a round, the timer
waits its ticks; otherwise it waits a round less. -/
theorem dueAt_within (E : Nat) (d : Int) :
    dueAt E (within E) d =
      if Stored WHEEL_SIZE 4 (within E) (within E + slotCount d - 1) then
        some (if E % WHEEL_SIZE = WHEEL_SIZE - 1 ∧ WHEEL_SIZE ≤ slotCount d then
          E + 1 + slotCount d - WHEEL_SIZE else E + 1 + slotCount d)
      else none := by
  have h1 := slotCount_pos d
  unfold dueAt armDue
  generalize slotCount d = m at h1
  by_cases hq : (within E + m - 1) / WHEEL_SIZE = within E / WHEEL_SIZE
  · have hst : Stored WHEEL_SIZE 4 (within E) (within E + m - 1) := Or.inl hq
    rw [if_pos hq, if_pos hst]
    congr 1
    by_cases hhit : E % WHEEL_SIZE = WHEEL_SIZE - 1 ∧ WHEEL_SIZE ≤ m
    · -- the slot being drained
      have hslot : (within E + m - 1) % WHEEL_SIZE = E % WHEEL_SIZE := by
        unfold within WHEEL_SIZE at *
        omega
      rw [if_pos hhit, hslot, visit_self (by decide)]
      unfold within WHEEL_SIZE at *
      omega
    · have hslot : (within E + m - 1) % WHEEL_SIZE = (E + m) % WHEEL_SIZE := by
        unfold within WHEEL_SIZE at *
        omega
      rw [if_neg hhit, hslot, visit_of_window _ _ (by omega) (by unfold within WHEEL_SIZE at *; omega)]
      omega
  · have hst : Stored WHEEL_SIZE 4 (within E) (within E + m - 1) ↔
        Stored WHEEL_SIZE 3 (within E / WHEEL_SIZE) ((within E + m - 1) / WHEEL_SIZE - 1) :=
      or_iff_right hq
    rw [if_neg hq]
    simp only [hst]
    congr 2
    unfold within WHEEL_SIZE at *
    split <;> omega

/-- A count that overflowed is out of reach. -/
theorem not_stored_of_not_fits (p : Nat) (d : Int) (hd : Dur d) (hf : ¬Fits d) :
    ¬Stored WHEEL_SIZE 4 p (p + slotCount d - 1) := by
  have h1 := (slotCount_of_not_fits d hd hf).1
  rw [stored_four_iff _ _ (by omega)]
  simp only [slack]
  unfold WHEEL_SIZE
  omega

theorem stored_of_small (p : Nat) (d : Int) (hd : Dur d) (hf : Fits d)
    (h : p + ticks d ≤ WHEEL_SIZE ^ 4) : Stored WHEEL_SIZE 4 p (p + slotCount d - 1) := by
  have h1 := slotCount_pos d
  rw [slotCount_of_fits d hd hf] at h1 ⊢
  rw [stored_four_iff _ _ (by omega)]
  have h2 : WHEEL_SIZE ^ 4 ≤ WHEEL_SIZE ^ 4 * (p / WHEEL_SIZE ^ 4 + 1) :=
    Nat.le_mul_of_pos_right _ (Nat.succ_pos _)
  omega

theorem dueAt_between_of_small (E : Nat) (d : Int) (hd : Dur d) (h : E + ticks d < WHEEL_SIZE ^ 4) :
    dueAt E E d = if Fits d then some (E + ticks d) else none := by
  rw [dueAt_between]
  by_cases hf : Fits d
  · rw [if_pos hf, if_pos (stored_of_small E d hd hf (by omega)), slotCount_of_fits d hd hf]
  · rw [if_neg hf, if_neg (not_stored_of_not_fits E d hd hf)]

theorem dueAt_within_of_small (E : Nat) (d : Int) (hd : Dur d)
    (h : E + 1 + ticks d < WHEEL_SIZE ^ 4) :
    dueAt E (within E) d =
      if Fits d then
        some (if E % WHEEL_SIZE = WHEEL_SIZE - 1 ∧ WHEEL_SIZE ≤ ticks d then
          E + 1 + ticks d - WHEEL_SIZE else E + 1 + ticks d)
      else none := by
  rw [dueAt_within]
  by_cases hf : Fits d
  · have hp : within E ≤ E + 1 := by unfold within WHEEL_SIZE; omega
    rw [if_pos hf, if_pos (stored_of_small _ d hd hf (by omega)), slotCount_of_fits d hd hf]
  · rw [if_neg hf, if_neg (not_stored_of_not_fits _ d hd hf)]

/-! ## Expiry -/

/-- After tick `E`, up to the end of the trace, `on_timer(id)` is called as often as
`others` say and once more, in tick `target`. -/
def ExactlyOnce (trace : List Entry) (E target : Nat) (id : TimerId)
    (others : List (Nat × TimerId)) : Prop :=
  ∀ t, E < t → t ≤ ticksOf trace →
    Multiset.count (t, id) (fires trace) =
      Multiset.count (t, id) others + if t = target then 1 else 0

theorem exactlyOnce_iff (onTimer : σ → TimerId → Option (Fired σ)) (hsane : Sane onTimer)
    {trace : List Entry} {s : BaseTimer σ} (h : Run onTimer trace s) (E target : Nat) (id : TimerId)
    (others : List (Nat × TimerId)) (due : Option Nat)
    (hdues : (↑(dues trace) : Multiset (Nat × TimerId)) = ↑others + ↑(armed due id)) :
    ExactlyOnce trace E target id others ↔
      ∀ t, E < t → t ≤ ticksOf trace → (due = some t ↔ t = target) := by
  unfold ExactlyOnce
  refine forall_congr' fun t => forall_congr' fun _ => forall_congr' fun ht => ?_
  have hcount : Multiset.count (t, id) (↑(armed due id) : Multiset (Nat × TimerId)) = if due = some t then 1 else 0 := by
    cases due with
    | none => simp [armed]
    | some u =>
      by_cases hu : u = t
      · subst hu; simp [armed]
      · rw [if_neg (by simpa using hu)]
        exact Multiset.count_eq_zero_of_notMem (by simpa [armed] using Ne.symm hu)
  rw [count_fires onTimer hsane h t id ht, hdues, Multiset.count_add, hcount]
  split <;> split <;> simp_all

theorem exactlyOnce_arm_iff (onTimer : σ → TimerId → Option (Fired σ)) (hsane : Sane onTimer)
    (pre post : List Entry) (d : Int) (id : TimerId) (s : BaseTimer σ)
    (hrun : Run onTimer (pre ++ .arm d id :: post) s) (target : Nat) :
    ExactlyOnce (pre ++ .arm d id :: post) (ticksOf pre) target id
        (dues pre ++ duesFrom (ticksOf pre) post) ↔
      ∀ t, ticksOf pre < t → t ≤ ticksOf pre + ticksOf post →
        (dueAt (ticksOf pre) (ticksOf pre) d = some t ↔ t = target) := by
  have hdues : (↑(dues (pre ++ .arm d id :: post)) : Multiset (Nat × TimerId)) =
      ↑(dues pre ++ duesFrom (ticksOf pre) post) +
        ↑(armed (dueAt (ticksOf pre) (ticksOf pre) d) id) := by
    unfold dues
    rw [duesFrom_append, Nat.zero_add, duesFrom]
    simp only [← Multiset.coe_add]
    abel
  have hticks : ticksOf (pre ++ .arm d id :: post) = ticksOf pre + ticksOf post := by
    rw [ticksOf_append]; rfl
  rw [exactlyOnce_iff onTimer hsane hrun _ _ id _ _ hdues, hticks]

theorem exactlyOnce_tick_iff (onTimer : σ → TimerId → Option (Fired σ)) (hsane : Sane onTimer)
    (pre post : List Entry) (before after : List Event) (d : Int) (id : TimerId) (s : BaseTimer σ)
    (hrun : Run onTimer (pre ++ .tick (before ++ .arm d id :: after) :: post) s) (target : Nat) :
    ExactlyOnce (pre ++ .tick (before ++ .arm d id :: after) :: post) (ticksOf pre) target id
        (dues pre ++ duesIn (ticksOf pre) (before ++ after) ++ duesFrom (ticksOf pre + 1) post) ↔
      ∀ t, ticksOf pre < t → t ≤ ticksOf pre + 1 + ticksOf post →
        (dueAt (ticksOf pre) (within (ticksOf pre)) d = some t ↔ t = target) := by
  generalize hE : ticksOf pre = E
  have hdues : (↑(dues (pre ++ .tick (before ++ .arm d id :: after) :: post)) :
      Multiset (Nat × TimerId)) =
        ↑(dues pre ++ duesIn E (before ++ after) ++ duesFrom (E + 1) post) +
          ↑(armed (dueAt E (within E) d) id) := by
    have hin : duesIn E (.arm d id :: after) =
        armed (dueAt E (within E) d) id ++ duesIn E after := List.flatMap_cons
    unfold dues
    rw [duesFrom_append, Nat.zero_add, hE, duesFrom, duesIn_append, hin, duesIn_append]
    simp only [← Multiset.coe_add]
    abel
  have hticks : ticksOf (pre ++ .tick (before ++ .arm d id :: after) :: post) =
      E + 1 + ticksOf post := by
    rw [ticksOf_append, hE, ticksOf]; omega
  rw [exactlyOnce_iff onTimer hsane hrun _ _ id _ _ hdues, hticks]

/-- An `on_timer` that always returns the same duration. -/
theorem sane_const (d : Int) (hd : Dur d) : Sane fun (_ : Unit) _ => some ⟨(), [], d⟩ := by
  intro c id r hr a ha
  simp only [Option.some.injEq] at hr
  subst hr
  simp only [Fired.arms, List.nil_append] at ha
  split at ha
  · rw [List.mem_singleton.mp ha]
    exact hd
  · simp at ha

theorem ticks_pos (d : Int) : 0 < ticks d := Nat.lt_of_lt_of_le Nat.one_pos (Nat.le_max_left _ _)

/-- **Armed between updates.**  The timer expires in the `ticks d`-th tick from then,
unless rounding its duration up overflowed; then it never does. -/
theorem exact_expiry_iff (onTimer : σ → TimerId → Option (Fired σ)) (hsane : Sane onTimer)
    (pre post : List Entry) (d : Int) (id : TimerId) (s : BaseTimer σ)
    (hrun : Run onTimer (pre ++ .arm d id :: post) s) (hd : Dur d)
    (hsmall : ticksOf pre + ticks d < WHEEL_SIZE ^ 4) :
    ExactlyOnce (pre ++ .arm d id :: post) (ticksOf pre) (ticksOf pre + ticks d) id
        (dues pre ++ duesFrom (ticksOf pre) post) ↔
      Fits d ∨ ticksOf post < ticks d := by
  have hpos := ticks_pos d
  rw [exactlyOnce_arm_iff onTimer hsane pre post d id s hrun, dueAt_between_of_small _ d hd hsmall]
  by_cases hf : Fits d
  · rw [if_pos hf]
    simp only [hf, true_or, iff_true, Option.some.injEq]
    exact fun t _ _ => eq_comm
  · rw [if_neg hf]
    simp only [hf, false_or, reduceCtorEq, false_iff]
    constructor
    · intro h
      by_contra hlt
      exact h (ticksOf pre + ticks d) (by omega) (by omega) rfl
    · intro h t _ ht
      omega

theorem exact_expiry_first_tick :
    ExactlyOnce [.arm 10 1, .tick [.fire 1]] 0 (0 + ticks 10) 1 (dues [] ++ duesFrom 0 [.tick [.fire 1]]) ↔
      Fits 10 ∨ ticksOf [.tick [.fire 1]] < ticks 10 :=
  exact_expiry_iff _ (sane_const 0 (by decide)) [] [.tick [.fire 1]] 10 1 _
    (.update 2 11 10 _ [[.fire 1]]
      (.insert 10 1 (.update 0 1 0 _ [] (.init ()) rfl) (by decide)) rfl)
    (by decide) (by decide)

/-- A timer armed for 2147483647 ms has not expired after its 214748365 ticks. -/
theorem not_exact_expiry :
    ¬∀ (σ : Type) (onTimer : σ → TimerId → Option (Fired σ)) (pre post : List Entry) (d : Int)
      (id : TimerId) (s : BaseTimer σ), Sane onTimer → Run onTimer (pre ++ .arm d id :: post) s →
        Dur d → ticksOf pre + ticks d < WHEEL_SIZE ^ 4 →
        ExactlyOnce (pre ++ .arm d id :: post) (ticksOf pre) (ticksOf pre + ticks d) id
          (dues pre ++ duesFrom (ticksOf pre) post) := by
  intro hall
  have hsane := sane_const 0 (by decide)
  have hd : Dur 2147483647 := by decide
  have hsmall : ticksOf [] + ticks 2147483647 < WHEEL_SIZE ^ 4 := by decide
  have hdue : dueAt 0 0 2147483647 = none := by
    have h := dueAt_between_of_small 0 _ hd hsmall
    rw [if_neg (by decide)] at h
    exact h
  obtain ⟨s, hrun, -⟩ := run_arm_idle _ hsane () 2147483647 1 (ticks 2147483647) hd
    fun t ht => by rw [hdue] at ht; cases ht
  have h := hall Unit _ [] _ 2147483647 1 s hsane hrun hd hsmall
  rw [exactlyOnce_arm_iff _ hsane [] _ _ _ s hrun, ticksOf_idle] at h
  have := (h (0 + ticks 2147483647) (by decide) (by rfl)).mpr rfl
  rw [show ticksOf [] = 0 from rfl, hdue] at this
  cases this

/-- **Armed within a tick**, by the callback or because `on_timer` returned the
duration.  In the tick that ends a round of wheel 0, a timer that waits a round or more
expires a round early. -/
theorem exact_rearm_iff (onTimer : σ → TimerId → Option (Fired σ)) (hsane : Sane onTimer)
    (pre post : List Entry) (before after : List Event) (d : Int) (id : TimerId) (s : BaseTimer σ)
    (hrun : Run onTimer (pre ++ .tick (before ++ .arm d id :: after) :: post) s) (hd : Dur d)
    (hsmall : ticksOf pre + 1 + ticks d < WHEEL_SIZE ^ 4) :
    ExactlyOnce (pre ++ .tick (before ++ .arm d id :: after) :: post) (ticksOf pre)
        (ticksOf pre + 1 + ticks d) id
        (dues pre ++ duesIn (ticksOf pre) (before ++ after) ++ duesFrom (ticksOf pre + 1) post) ↔
      if Fits d then
        ticksOf pre % WHEEL_SIZE ≠ WHEEL_SIZE - 1 ∨ ticks d < WHEEL_SIZE ∨
          ticksOf post + WHEEL_SIZE < ticks d
      else ticksOf post < ticks d := by
  have hpos := ticks_pos d
  have hround : 0 < WHEEL_SIZE := by decide
  rw [exactlyOnce_tick_iff onTimer hsane pre post before after d id s hrun,
    dueAt_within_of_small _ d hd hsmall]
  by_cases hf : Fits d
  · rw [if_pos hf, if_pos hf]
    simp only [Option.some.injEq]
    by_cases hwrap : ticksOf pre % WHEEL_SIZE = WHEEL_SIZE - 1 ∧ WHEEL_SIZE ≤ ticks d
    · rw [if_pos hwrap]
      constructor
      · intro h
        by_contra hlate
        have := (h (ticksOf pre + 1 + ticks d - WHEEL_SIZE) (by omega) (by omega)).mp rfl
        omega
      · intro h t _ ht
        omega
    · rw [if_neg hwrap]
      refine iff_of_true (fun t _ _ => eq_comm) ?_
      omega
  · rw [if_neg hf, if_neg hf]
    simp only [reduceCtorEq, false_iff]
    constructor
    · intro h
      by_contra hlt
      exact h (ticksOf pre + 1 + ticks d) (by omega) (by omega) rfl
    · intro h t _ ht
      omega

theorem exact_rearm_first_tick :
    ExactlyOnce [.arm 10 1, .tick [.fire 1, .arm 20 1], .tick []] 0 (0 + 1 + ticks 20) 1
        (dues [.arm 10 1] ++ duesIn 0 ([.fire 1] ++ []) ++ duesFrom 1 [.tick []]) ↔
      if Fits 20 then 0 % WHEEL_SIZE ≠ WHEEL_SIZE - 1 ∨ ticks 20 < WHEEL_SIZE ∨
        ticksOf [.tick []] + WHEEL_SIZE < ticks 20
      else ticksOf [.tick []] < ticks 20 :=
  exact_rearm_iff _ (sane_const 20 (by decide)) [.arm 10 1] [.tick []] [.fire 1] [] 20 1 _
    (.update 2 21 20 _ [[.fire 1, .arm 20 1], []]
      (.insert 10 1 (.update 0 1 0 _ [] (.init ()) rfl) (by decide)) rfl)
    (by decide) (by decide)

/-- A callback that arms 2550 ms when it is called first. -/
def armsOnce (done : Bool) (_ : TimerId) : Option (Fired Bool) :=
  some ⟨true, [], if done then 0 else 2550⟩

theorem sane_armsOnce : Sane armsOnce := by
  intro c id r hr a ha
  simp only [armsOnce, Option.some.injEq] at hr
  subst hr
  simp only [Fired.arms, List.nil_append] at ha
  cases c with
  | true => simp at ha
  | false =>
    simp only [Bool.false_eq_true, if_false, ne_eq, OfNat.ofNat_ne_zero, not_false_eq_true, if_true,
      List.mem_singleton] at ha
    rw [ha]
    show Dur 2550
    decide

/-- Armed for 2550 ms in tick 255, the timer expires in tick 255 again. -/
theorem not_exact_rearm :
    ¬∀ (σ : Type) (onTimer : σ → TimerId → Option (Fired σ)) (pre post : List Entry)
      (before after : List Event) (d : Int) (id : TimerId) (s : BaseTimer σ), Sane onTimer →
        Run onTimer (pre ++ .tick (before ++ .arm d id :: after) :: post) s → Dur d →
        ticksOf pre + 1 + ticks d < WHEEL_SIZE ^ 4 →
        ExactlyOnce (pre ++ .tick (before ++ .arm d id :: after) :: post) (ticksOf pre)
          (ticksOf pre + 1 + ticks d) id
          (dues pre ++ duesIn (ticksOf pre) (before ++ after) ++
            duesFrom (ticksOf pre + 1) post) := by
  intro hall
  have hd : Dur 2550 := by decide
  have hdue : dueAt 0 0 2550 = some 255 := dueAt_between_of_small 0 2550 hd (by decide)
  obtain ⟨s, hrun, hr, hchild, hpend⟩ := run_arm_idle armsOnce sane_armsOnce false 2550 1 254 hd
    fun t ht => by rw [hdue, Option.some.injEq] at ht; omega
  obtain ⟨hs, -⟩ := run_law armsOnce sane_armsOnce hrun
  rw [ticksOf, ticksOf_idle] at hs
  -- the timer as `update` finds it a tick later
  obtain ⟨s1, hs1⟩ : ∃ s1, s1 = { s with previousTick := s.previousTick + PRECISION } := ⟨_, rfl⟩
  have hstands : Stands 254 s1 := by rw [hs1]; exact hs.congr rfl
  have hchild1 : s1.child = false := by rw [hs1]; exact hchild
  have hkeys : dueKeys 254 s1 = [1] := by
    apply dueKeys_of_pending 254 s1 1 hstands
    rw [hs1]
    rw [hdue] at hpend
    exact hpend
  have htick := processTick_drain armsOnce sane_armsOnce 3 254 s1 hstands
  rw [hkeys, hchild1] at htick
  obtain ⟨⟨s', events⟩, h, he⟩ := Option.map_eq_some_iff.mp
    (htick.trans (show _ = some (true, [.fire 1, .arm 2550 1, .fire 1]) by decide))
  simp only [Prod.mk.injEq] at he
  obtain ⟨-, rfl⟩ := he
  have hrun' := run_tick armsOnce 3 _ s s' _ hrun hr (hs1 ▸ h)
  have hticks : ticksOf (.arm 2550 1 :: List.replicate 254 (.tick [])) = 254 := ticksOf_idle 254
  have hbad := hall Bool armsOnce _ [] [.fire 1] [.fire 1] 2550 1 s' sane_armsOnce hrun' hd
    (by rw [hticks]; decide)
  rw [exactlyOnce_tick_iff armsOnce sane_armsOnce _ [] [.fire 1] _ _ _ s' hrun', hticks,
    dueAt_within_of_small 254 2550 hd (by decide)] at hbad
  exact absurd ((hbad 255 (by decide) (by decide)).mp (by decide)) (by decide)

/-! ## A tick -/

/-- The ids in the list that `update` hands to `expired`. -/
def frontIds (s : BaseTimer σ) : List TimerId :=
  match s.wheels with
  | [] => []
  | wheel :: _ => wheel.front.map keyId

theorem frontIds_eq (E : Nat) (s : BaseTimer σ) (hs : Stands E s) : frontIds s = dueKeys E s := by
  obtain ⟨w, ws, hw, -⟩ := hs.cons
  have hal := hs.aligned
  rw [hw] at hal
  rw [dueKeys_cons E s w ws hw, ← hal.1]
  unfold frontIds
  rw [hw]
  rfl

/-- The tick returns, having called `on_timer` once for each of these ids, in order,
and for no other. -/
def TickReturns (onTimer : σ → TimerId → Option (Fired σ)) (s : BaseTimer σ) : Prop :=
  ∃ fuel s' events, processTick onTimer fuel s = some (s', events) ∧ fired events = frontIds s

theorem tickReturns_iff_hitIds (onTimer : σ → TimerId → Option (Fired σ)) (hsane : Sane onTimer)
    (E : Nat) (s : BaseTimer σ) (hs : Stands E s) (arms : List (Int × TimerId))
    (hreplay : replay onTimer s.child (frontIds s) = some arms) :
    TickReturns onTimer s ↔ hitIds E arms = [] := by
  have htick := fun fuel => processTick_drain onTimer hsane fuel E s hs
  unfold TickReturns
  rw [frontIds_eq E s hs] at hreplay ⊢
  rw [← drain_iff onTimer E _ _ _ hreplay]
  constructor
  · rintro ⟨fuel, s', events, h, hfired⟩
    have h1 := htick fuel
    rw [h, Option.map_some] at h1
    split at h1
    next hnil =>
      simp only [Option.some.injEq, Prod.mk.injEq] at h1
      exact ⟨1, s.child, [], by rw [hnil]; rfl, by rw [hnil]; rfl⟩
    · exact ⟨fuel, _, events, h1.symm, hfired⟩
  · rintro ⟨fuel, c', events, h, hfired⟩
    have h1 := htick fuel
    split at h1
    next hnil =>
      obtain ⟨⟨s', events'⟩, h2, h3⟩ := Option.map_eq_some_iff.mp h1
      simp only [Prod.mk.injEq] at h3
      obtain ⟨-, rfl⟩ := h3
      exact ⟨fuel, s', [], h2, by rw [hnil]; rfl⟩
    · obtain ⟨⟨s', events'⟩, h2, h3⟩ := Option.map_eq_some_iff.mp (h1.trans h)
      simp only [Prod.mk.injEq] at h3
      obtain ⟨-, rfl⟩ := h3
      exact ⟨fuel, s', events', h2, hfired⟩

/-- **A tick.**  `arms` are the timers armed when `on_timer`, which returns, is called
once for every key that is due. -/
theorem tick_returns_iff (onTimer : σ → TimerId → Option (Fired σ)) (hsane : Sane onTimer)
    (trace : List Entry) (s : BaseTimer σ) (hrun : Run onTimer trace s)
    (arms : List (Int × TimerId)) (hreplay : replay onTimer s.child (frontIds s) = some arms) :
    TickReturns onTimer s ↔
      ticksOf trace % WHEEL_SIZE ≠ WHEEL_SIZE - 1 ∨ ∀ a ∈ arms, ticks a.1 ≠ WHEEL_SIZE := by
  rw [tickReturns_iff_hitIds onTimer hsane _ s (run_law onTimer hsane hrun).1 arms hreplay,
    hitIds_eq_nil]
  unfold Hits
  by_cases hlast : ticksOf trace % WHEEL_SIZE = WHEEL_SIZE - 1
  · simp only [hlast, true_and, not_true_eq_false, ne_eq, false_or]
  · simp only [hlast, false_and, not_false_eq_true, implies_true, ne_eq, true_or]

theorem tick_returns_first_tick :
    TickReturns (fun (_ : Unit) _ => some ⟨(), [], 2550⟩)
        ({ child := () : BaseTimer Unit }.insertTimer 10 1) ↔
      ticksOf [.arm 10 1] % WHEEL_SIZE ≠ WHEEL_SIZE - 1 ∨
        ∀ a ∈ [((2550 : Int), (1 : TimerId))], ticks a.1 ≠ WHEEL_SIZE :=
  tick_returns_iff _ (sane_const 2550 (by decide)) [.arm 10 1] _
    (.insert 10 1 (.init ()) (by decide)) [(2550, 1)] rfl

/-- A timer of 2550 ms armed first: tick 255 does not return. -/
theorem not_tick_returns :
    ¬∀ (σ : Type) (onTimer : σ → TimerId → Option (Fired σ)) (trace : List Entry) (s : BaseTimer σ)
      (arms : List (Int × TimerId)), Sane onTimer → Run onTimer trace s →
        replay onTimer s.child (frontIds s) = some arms → TickReturns onTimer s := by
  intro hall
  have hd : Dur 2550 := by decide
  have hsane := sane_const 2550 hd
  have hdue : dueAt 0 0 2550 = some 255 := dueAt_between_of_small 0 2550 hd (by decide)
  obtain ⟨s, hrun, -, hchild, hpend⟩ := run_arm_idle _ hsane () 2550 1 254 hd
    fun t ht => by rw [hdue, Option.some.injEq] at ht; omega
  obtain ⟨hs, -⟩ := run_law _ hsane hrun
  rw [ticksOf, ticksOf_idle] at hs
  have hfront : frontIds s = [1] := by
    rw [frontIds_eq 254 s hs]
    exact dueKeys_of_pending 254 s 1 hs (by rw [hdue] at hpend; exact hpend)
  have hreplay : replay (fun (_ : Unit) _ => some ⟨(), [], 2550⟩) s.child (frontIds s) =
      some [(2550, 1)] := by
    rw [hfront]
    rfl
  have h := hall Unit _ _ s _ hsane hrun hreplay
  rw [tickReturns_iff_hitIds _ hsane 254 s hs _ hreplay] at h
  exact absurd h (by decide)

end HappyServer.Timer
