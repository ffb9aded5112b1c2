import HappyServer.Timer.Census
import Mathlib.Data.Rat.Floor

/-!
# The duration of a timer (`base_timer::insert_timer`, `worker_timer::repeat`)

* `Takes id ws ws'`: one wheel has a key of `id` more, and nothing else has changed.
* `insertLoop_takes`: `insert_timer` is that or nothing, whatever the wheels hold.

    with all heads at 0, `repeat` arms a timer for ceil(max(d, 10) / 10) ticks, and a wheel takes it
      ↔ d is a multiple of 10 or at most 2147483637                              (armsExactly_iff)
-/

namespace HappyServer.Timer

open Word Rotation TimerWheel BaseTimer WorkerTimer

variable {ω : Type} {Size : Nat} {id : TimerId}

/-! ## What the loop leaves -/

/-- One wheel has one key of `id` more, in one of its slots. -/
inductive Takes (id : TimerId) : List (TimerWheel Size) → List (TimerWheel Size) → Prop
  | here (slot key : Nat) (w : TimerWheel Size) (ws : List (TimerWheel Size)) :
      slot < Size → keyId key = id → Takes id (w :: ws) (w.pushBack slot key :: ws)
  | next (w : TimerWheel Size) (ws ws' : List (TimerWheel Size)) :
      Takes id ws ws' → Takes id (w :: ws) (w :: ws')

/-- The loop of `insert_timer`, from wheel `i` on, where the heads show `c`. -/
theorem insertLoop_takes (hS : 2 ≤ Size) (hS' : Size < 256) (id : TimerId)
    (ws : List (TimerWheel Size)) :
    ∀ i slots m c, Aligned c ws → i + ws.length ≤ 4 → 1 ≤ m → m + Size ≤ 2 ^ 64 →
      slots < 2 ^ (i * 8) →
      (Stored Size ws.length c (c + m - 1) → Takes id ws (insertLoop id i slots m ws)) ∧
      (¬Stored Size ws.length c (c + m - 1) → insertLoop id i slots m ws = ws) := by
  induction ws with
  | nil =>
    intro i slots m c _ _ _ _ _
    exact ⟨fun h => h.elim, fun _ => rfl⟩
  | cons w ws ih =>
    intro i slots m c hal hi h1 hm hslots
    obtain ⟨hw, hal⟩ := hal
    simp only [List.length_cons] at hi
    have hslot : (c + m - 1) % Size < Size := Nat.mod_lt _ (by omega)
    have hnew := byte_lt slots ((c + m - 1) % Size) i (by omega) hslots
    have htop : 2 ^ ((i + 1) * 8) ≤ 2 ^ 32 := Nat.pow_le_pow_right (by omega) (by omega)
    rw [insertLoop_cons id i slots m c w ws hS hw h1 hm hslots]
    by_cases hq : (c + m - 1) / Size = c / Size
    · rw [if_pos hq]
      refine ⟨fun _ => ?_, fun hnot => absurd (Or.inl hq) hnot⟩
      exact .here _ _ w ws hslot (keyId_makeKey id _ (Nat.lt_of_lt_of_le hnew htop))
    · rw [if_neg hq]
      obtain ⟨hlt, hbound, hup⟩ := carry_bounds (by omega) h1 hm hq
      obtain ⟨htakes, hsame⟩ := ih (i + 1) _ ((c + m - 1) / Size - c / Size) (c / Size) hal
        (by omega) (by omega) hbound hnew
      rw [hup] at htakes hsame
      have hstored : Stored Size (w :: ws).length c (c + m - 1) ↔
          Stored Size ws.length (c / Size) ((c + m - 1) / Size - 1) := or_iff_right hq
      rw [hstored]
      refine ⟨fun h => .next w ws _ (htakes h), fun h => ?_⟩
      rw [hsame h]

theorem aligned_zero (ws : List (TimerWheel Size)) (h : ∀ w ∈ ws, w.head = 0) : Aligned 0 ws := by
  induction ws with
  | nil => trivial
  | cons w ws ih =>
    refine ⟨?_, ?_⟩
    · rw [Nat.zero_mod]
      exact h w List.mem_cons_self
    · rw [Nat.zero_div]
      exact ih fun w hw => h w (List.mem_cons_of_mem _ hw)

/-! ## The result -/

/-- What `repeat` is to do for a duration that becomes `d`: no `int32_t` overflows, the ticks are those
of the duration, and a wheel takes the key. -/
structure ArmsExactly (d : Int) (id : TimerId) (wheels wheels' : List (TimerWheel WHEEL_SIZE)) :
    Prop where
  fits : d.tmod PRECISION > 0 → d + PRECISION < 2 ^ 31
  ticks : (slotCount d : Int) = ⌈(d : ℚ) / 10⌉
  stores : Takes id wheels wheels'

theorem ceil_tenth (d : Int) : ⌈(d : ℚ) / 10⌉ = (d + 9) / 10 := by
  have h := Rat.ceil_intCast_div_natCast d 10
  rw [Nat.cast_ofNat, Nat.cast_ofNat] at h
  rw [h]
  omega

theorem fits_iff (d : Int) :
    (d.tmod PRECISION > 0 → d + PRECISION < 2 ^ 31) ↔ Fits d := by
  rw [tmod_precision_pos]
  unfold Fits PRECISION
  omega

/-- `insert_timer` where all heads are 0. -/
theorem insertTimer_takes {d : Int} {wheels : List (TimerWheel WHEEL_SIZE)} (hd : Dur d)
    (hlen : wheels.length = 4) (hheads : ∀ w ∈ wheels, w.head = 0) :
    (Fits d → Takes id wheels (insertTimer d id wheels)) ∧
      (¬Fits d → insertTimer d id wheels = wheels) := by
  obtain ⟨htakes, hsame⟩ := insertLoop_takes (by decide) (by decide) id wheels 0 0 (slotCount d) 0
    (aligned_zero wheels hheads) (by omega) (slotCount_pos d) (slotCount_le d hd) (by decide)
  rw [hlen] at htakes hsame
  constructor
  · intro hf
    apply htakes
    apply stored_of_small 0 d hd hf
    unfold Dur PRECISION at hd
    unfold Timer.ticks PRECISION WHEEL_SIZE
    omega
  · intro hf
    exact hsame (not_stored_of_not_fits 0 d hd hf)

theorem insertTimer_exact {d : Int} {wheels : List (TimerWheel WHEEL_SIZE)} (hpos : 10 ≤ d)
    (hmax : d < 2 ^ 31) (hlen : wheels.length = 4) (hheads : ∀ w ∈ wheels, w.head = 0) :
    ArmsExactly d id wheels (insertTimer d id wheels) ↔ Fits d := by
  have hd : Dur d := ⟨by unfold PRECISION; omega, hmax⟩
  constructor
  · rintro ⟨hfits, -, -⟩
    exact (fits_iff d).mp hfits
  · intro hf
    refine ⟨(fits_iff d).mpr hf, ?_, (insertTimer_takes hd hlen hheads).1 hf⟩
    rw [slotCount_of_fits d hd hf, ceil_tenth]
    unfold Timer.ticks PRECISION
    omega

theorem toInt_clamp (duration : Int32) : (clamp duration).1.toInt = max duration.toInt 10 := by
  unfold clamp
  split
  next h =>
    unfold PRECISION at h
    rw [Int.max_eq_right (by omega)]
    rfl
  next h =>
    unfold PRECISION at h
    rw [Int.max_eq_left (by omega)]

/-- **Duration arithmetic.**  A call of `repeat` where all heads are 0 arms its timer exactly unless
rounding up overflows. -/
theorem armsExactly_iff (s s' : BaseTimer (WorkerTimer ω)) (duration times : Int32)
    (serviceid : UInt32) (r : Repeated ω) (hlen : s.wheels.length = 4)
    (hheads : ∀ w ∈ s.wheels, w.head = 0) (hset : s.child.onTimerSet = true)
    (h : s.repeatTimer duration times serviceid = some (s', r)) :
    ArmsExactly (max duration.toInt 10) r.id s.wheels s'.wheels ↔
      duration.toInt % 10 = 0 ∨ duration.toInt ≤ 2147483637 := by
  obtain ⟨hchild, rfl⟩ := repeatTimer_eq h
  have harmed : r.armed = [(max duration.toInt 10, r.id)] := by
    unfold WorkerTimer.repeatTimer at hchild
    rw [hset] at hchild
    simp only [Bool.not_true, Bool.false_eq_true, if_false, Option.bind_eq_bind,
      Option.bind_eq_some_iff, Option.some.injEq] at hchild
    obtain ⟨uuid, -, rfl⟩ := hchild
    rw [toInt_clamp]
  have hwheels : ({ s with child := r.child }.insertAll r.armed).wheels =
      Timer.insertTimer (max duration.toInt 10) r.id s.wheels := by
    rw [harmed]
    rfl
  rw [hwheels, insertTimer_exact (by omega) (by have := duration.toInt_lt; omega) hlen hheads]
  unfold Fits PRECISION
  omega

/-- A timer with nothing armed. -/
def fresh : BaseTimer (WorkerTimer Unit) := { child := ({ world := () } : WorkerTimer Unit).setOnTimer }

theorem armsExactly_eleven : ∃ s' r, fresh.repeatTimer 11 1 7 = some (s', r) ∧
    ArmsExactly (max (Int32.toInt 11) 10) r.id fresh.wheels s'.wheels :=
  ⟨_, _, rfl, (armsExactly_iff fresh _ 11 1 7 _ rfl (by simp [fresh]) rfl rfl).mpr (by decide)⟩

/-- 2147483639 ms are rounded up to more than an `int32_t` holds. -/
theorem not_armsExactly :
    ¬∀ (s s' : BaseTimer (WorkerTimer Unit)) (duration times : Int32) (serviceid : UInt32)
      (r : Repeated Unit), times < times_mask → s.wheels.length = 4 → (∀ w ∈ s.wheels, w.head = 0) →
      s.child.onTimerSet = true → s.repeatTimer duration times serviceid = some (s', r) →
      ArmsExactly (max duration.toInt 10) r.id s.wheels s'.wheels := by
  intro h
  have hfits := (h fresh _ 2147483639 1 7 _ (by decide) rfl (by simp [fresh]) rfl rfl).fits
  exact absurd (hfits (by decide)) (by decide)

end HappyServer.Timer
