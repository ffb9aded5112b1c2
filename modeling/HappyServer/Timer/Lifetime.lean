import HappyServer.Timer.WorkerTimer

/-!
# The life of a timer

Of one timer, from the call of `repeat` that arms it, only three things are told:
calls of `remove`, of `on_timer` and of the callback.  `Life times ctx l` are the lives
that `timer_context` allows for a timer armed `times` times: `l` happened and the
entry of `timers_` is now `ctx`, `none` when it is erased.

* `Life.spec`: what the counts and flags say of a life, and what is told after `remove`.
* `Reach.tracks`: whatever is called in whatever order, each id lives such a life.
* `fire_counts`: so a timer armed `k` times is called back `k` times and then told
  that it is removed.
-/

namespace HappyServer.Timer

open WorkerTimer

/-! ## The word -/

def Flag.bit : Flag → Nat
  | .removed => 29
  | .infinite => 30

theorem value_toBitVec (v : Flag) : v.value.toBitVec = BitVec.twoPow 32 v.bit := by
  cases v <;> decide

namespace WorkerTimerContext

/-- What is left of the count. -/
def left (ctx : WorkerTimerContext) : Nat := ctx.times.toBitVec.toNat % 2 ^ 28

theorem hasFlag_eq (ctx : WorkerTimerContext) (v : Flag) :
    ctx.hasFlag v = ctx.times.toBitVec.getLsbD v.bit := by
  have hzero : BitVec.twoPow 32 v.bit ≠ 0#32 := by cases v <;> decide
  unfold hasFlag
  rw [Bool.eq_iff_iff, bne_iff_ne, ne_eq, ← Int32.toBitVec_inj, Int32.toBitVec_and, value_toBitVec,
    BitVec.and_twoPow]
  split
  next h => simpa [h] using hzero
  next h => simp [h]

theorem hasFlag_setFlag (ctx : WorkerTimerContext) (v v' : Flag) :
    (ctx.setFlag v).hasFlag v' = (ctx.hasFlag v' || decide (v = v')) := by
  rw [hasFlag_eq, hasFlag_eq, setFlag, Int32.toBitVec_or, BitVec.getLsbD_or, value_toBitVec]
  congr 1
  cases v <;> cases v' <;> decide

theorem setFlag_setFlag (ctx : WorkerTimerContext) (v : Flag) :
    (ctx.setFlag v).setFlag v = ctx.setFlag v := by
  unfold setFlag
  simp only [Int32.or_assoc, Int32.or_self]

@[simp] theorem left_setFlag (ctx : WorkerTimerContext) (v : Flag) : (ctx.setFlag v).left = ctx.left := by
  have hlow : v.value.toBitVec.toNat % 2 ^ 28 = 0 := by cases v <;> decide
  unfold left setFlag
  rw [Int32.toBitVec_or, BitVec.toNat_or, Nat.or_mod_two_pow, hlow, Nat.or_zero]

/-- `times(times() - 1)` while something is left: one less, the flags kept. -/
theorem setTimes_pred (ctx : WorkerTimerContext) (h : 0 < ctx.left) :
    (ctx.setTimes (ctx.times - 1)).1 = decide (1 < ctx.left) ∧
      (ctx.setTimes (ctx.times - 1)).2.left = ctx.left - 1 ∧
      ∀ v, (ctx.setTimes (ctx.times - 1)).2.hasFlag v = ctx.hasFlag v := by
  unfold left at *
  have hnat : (ctx.times - 1).toBitVec.toNat = ctx.times.toBitVec.toNat - 1 := by
    rw [Int32.toBitVec_sub, BitVec.toNat_sub]
    have := ctx.times.toBitVec.isLt
    have hone : (1 : Int32).toBitVec.toNat = 1 := by decide
    rw [hone]
    omega
  have hquot : (ctx.times.toBitVec.toNat - 1) / 2 ^ 28 = ctx.times.toBitVec.toNat / 2 ^ 28 := by omega
  refine ⟨?_, by show (ctx.times - 1).toBitVec.toNat % 2 ^ 28 = _; rw [hnat]; omega, fun v => ?_⟩
  · have hmask : ((ctx.times - 1) &&& times_mask).toBitVec.toNat =
        (ctx.times.toBitVec.toNat - 1) % 2 ^ 28 := by
      rw [Int32.toBitVec_and, BitVec.toNat_and, hnat,
        show times_mask.toBitVec.toNat = 2 ^ 28 - 1 from rfl, Nat.and_two_pow_sub_one_eq_mod]
    show decide ((ctx.times - 1) &&& times_mask > 0) = _
    rw [decide_eq_decide, gt_iff_lt, Int32.lt_iff_toInt_lt, show (0 : Int32).toInt = 0 from rfl]
    show 0 < ((ctx.times - 1) &&& times_mask).toBitVec.toInt ↔ _
    rw [BitVec.toInt_eq_toNat_of_lt (by rw [hmask]; omega), hmask]
    omega
  · rw [hasFlag_eq, hasFlag_eq]
    show (ctx.times - 1).toBitVec.getLsbD _ = _
    have hbit : v.bit = (v.bit - 28) + 28 := by cases v <;> rfl
    rw [BitVec.getLsbD, BitVec.getLsbD, hnat, hbit, ← Nat.testBit_div_two_pow, hquot,
      Nat.testBit_div_two_pow]

/-- The context after `m` calls of `remove`. -/
def marked (ctx : WorkerTimerContext) (m : Nat) : WorkerTimerContext :=
  if m = 0 then ctx else ctx.setFlag .removed

theorem marked_add (ctx : WorkerTimerContext) (m n : Nat) : (ctx.marked m).marked n = ctx.marked (m + n) := by
  unfold marked
  by_cases hm : m = 0 <;> by_cases hn : n = 0 <;> simp [hm, hn, setFlag_setFlag]

@[simp] theorem left_marked (ctx : WorkerTimerContext) (m : Nat) : (ctx.marked m).left = ctx.left := by
  unfold marked
  split <;> simp

@[simp] theorem infinite_marked (ctx : WorkerTimerContext) (m : Nat) :
    (ctx.marked m).hasFlag .infinite = ctx.hasFlag .infinite := by
  unfold marked
  split
  · rfl
  · rw [hasFlag_setFlag]; simp

@[simp] theorem removed_marked (ctx : WorkerTimerContext) (m : Nat) :
    (ctx.marked m).hasFlag .removed = (ctx.hasFlag .removed || decide (m ≠ 0)) := by
  unfold marked
  split
  next h => simp [h]
  next h => rw [hasFlag_setFlag]; simp [h]

end WorkerTimerContext

/-! ## Lives -/

def calls (l : List Happening) : List Bool :=
  l.filterMap fun
    | .call remove => some remove
    | _ => none

def expiries (l : List Happening) : Nat := l.count .expire

/-- What happened from the first call of `remove` on. -/
def after : List Happening → List Happening
  | [] => []
  | h :: l => if h = .remove then h :: l else after l

/-- `on_timer` calls back, and the callback calls `remove` `m` times. -/
def calledBack (remove : Bool) (m : Nat) : List Happening :=
  .call remove :: List.replicate m .remove

/-- The lives of a timer armed with `times`. -/
inductive Life (times : Int32) : Option WorkerTimerContext → List Happening → Prop
  | armed {ctx} : ctx.times = (if times ≤ 0 then Flag.infinite.value else times) →
      Life times (some ctx) []
  | remove {ctx l} : Life times (some ctx) l →
      Life times (some (ctx.setFlag .removed)) (l ++ [.remove])
  | gone {l h} : h = .remove ∨ h = .expire → Life times none l → Life times none (l ++ [h])
  | infinite {ctx l} (m : Nat) : Life times (some ctx) l → ctx.hasFlag .removed = false →
      ctx.hasFlag .infinite = true →
      Life times (some (ctx.marked m)) (l ++ .expire :: calledBack false m)
  | again {ctx l} (m : Nat) : Life times (some ctx) l → ctx.hasFlag .removed = false →
      ctx.hasFlag .infinite = false →
      ((ctx.marked m).setTimes ((ctx.marked m).times - 1)).1 = true →
      Life times (some ((ctx.marked m).setTimes ((ctx.marked m).times - 1)).2)
        (l ++ .expire :: calledBack false m)
  | last {ctx l} (m m' : Nat) : Life times (some ctx) l → ctx.hasFlag .removed = false →
      ctx.hasFlag .infinite = false →
      ((ctx.marked m).setTimes ((ctx.marked m).times - 1)).1 = false →
      Life times none (l ++ .expire :: calledBack false m ++ calledBack true m')
  | removed {ctx l} (m : Nat) : Life times (some ctx) l → ctx.hasFlag .removed = true →
      Life times none (l ++ .expire :: calledBack true m)

@[simp] theorem calls_append (a b : List Happening) : calls (a ++ b) = calls a ++ calls b :=
  List.filterMap_append

@[simp] theorem calls_replicate_remove (m : Nat) : calls (List.replicate m .remove) = [] := by
  unfold calls
  rw [List.filterMap_eq_nil_iff]
  intro h hh
  rw [List.eq_of_mem_replicate hh]

@[simp] theorem calls_calledBack (r : Bool) (m : Nat) : calls (calledBack r m) = [r] := by
  unfold calledBack
  rw [← List.singleton_append, calls_append, calls_replicate_remove]
  rfl

@[simp] theorem calls_expire_cons (l : List Happening) : calls (.expire :: l) = calls l := rfl

@[simp] theorem expiries_append (a b : List Happening) :
    expiries (a ++ b) = expiries a + expiries b := List.count_append

@[simp] theorem expiries_calledBack (r : Bool) (m : Nat) : expiries (calledBack r m) = 0 := by
  unfold expiries calledBack
  simp [List.count_replicate]

@[simp] theorem expiries_expire_cons (l : List Happening) :
    expiries (.expire :: l) = expiries l + 1 := List.count_cons_self

theorem mem_calledBack (r : Bool) (m : Nat) : .remove ∈ calledBack r m ↔ m ≠ 0 := by
  unfold calledBack
  simp [List.mem_replicate]

theorem after_append (a b : List Happening) :
    after (a ++ b) = if .remove ∈ a then after a ++ b else after b := by
  induction a with
  | nil => rfl
  | cons h a ih =>
    rw [List.cons_append, after, after]
    by_cases hr : h = .remove
    · subst hr; simp
    · rw [if_neg hr, if_neg hr, ih]
      simp [Ne.symm hr]

@[simp] theorem after_expire_cons (l : List Happening) : after (.expire :: l) = after l := rfl

/-- The callback runs before the `remove`s it makes. -/
@[simp] theorem calls_after_calledBack (r : Bool) (m : Nat) : calls (after (calledBack r m)) = [] := by
  have hcall : after (calledBack r m) = after (List.replicate m .remove) := rfl
  rw [hcall]
  cases m with
  | zero => rfl
  | succ m => exact calls_replicate_remove (m + 1)

/-- What the entry says of the life so far. -/
structure Alive (times : Int32) (ctx : WorkerTimerContext) (l : List Happening) : Prop where
  removed : ctx.hasFlag .removed = true ↔ .remove ∈ l
  infinite : ctx.hasFlag .infinite = true ↔ times ≤ 0
  calls : calls l = List.replicate (calls l).length false
  count : 0 < times → 0 < ctx.left ∧ (ctx.left : Int) + (Timer.calls l).length = times.toInt
  expiries : .remove ∉ l → expiries l = (Timer.calls l).length
  quiet : Timer.calls (after l) = []

/-- What is known of a life that is over. -/
structure Gone (times : Int32) (l : List Happening) : Prop where
  complete : .remove ∉ l → 0 < times ∧ times.toInt ≤ expiries l ∧
    calls l = List.replicate times.toInt.toNat false ++ [true]
  quiet : calls (after l) = [] ∨ calls (after l) = [true]

theorem alive_armed (times : Int32) (ctx : WorkerTimerContext) (hmask : times < times_mask)
    (h : ctx.times = if times ≤ 0 then Flag.infinite.value else times) : Alive times ctx [] := by
  rw [Int32.lt_iff_toInt_lt, show times_mask.toInt = 2 ^ 28 - 1 from rfl] at hmask
  by_cases ht : times ≤ 0
  · rw [if_pos ht] at h
    refine ⟨?_, ?_, rfl, fun hpos => absurd hpos (Int32.not_lt.mpr ht), fun _ => rfl, rfl⟩
    · rw [WorkerTimerContext.hasFlag, h]; decide
    · rw [WorkerTimerContext.hasFlag, h]; simpa [ht] using by decide
  · rw [if_neg ht] at h
    have hpos : 0 < times.toInt := by
      rw [Int32.le_iff_toInt_le, show (0 : Int32).toInt = 0 from rfl] at ht
      omega
    have hnat : (times.toBitVec.toNat : Int) = times.toInt := by
      have h1 : times.toInt = times.toBitVec.toInt := rfl
      rw [h1, BitVec.toInt_eq_toNat_cond] at hpos hmask ⊢
      split at hpos <;> omega
    have hbit : ∀ v, ctx.hasFlag v = false := by
      intro v
      rw [WorkerTimerContext.hasFlag_eq, h, BitVec.getLsbD, Nat.testBit_lt_two_pow]
      have h2 : 2 ^ 28 ≤ 2 ^ v.bit := Nat.pow_le_pow_right (by decide) (by cases v <;> decide)
      omega
    have hleft : ctx.left = times.toBitVec.toNat := by
      unfold WorkerTimerContext.left
      rw [h]
      omega
    refine ⟨by simp [hbit], by simp [hbit, ht], rfl, fun _ => ?_, fun _ => rfl, rfl⟩
    rw [hleft]
    simp only [calls, List.filterMap_nil, List.length_nil]
    omega

theorem alive_remove {times : Int32} {ctx : WorkerTimerContext} {l : List Happening}
    (h : Alive times ctx l) : Alive times (ctx.setFlag .removed) (l ++ [.remove]) where
  removed := by simp [WorkerTimerContext.hasFlag_setFlag]
  infinite := by
    rw [WorkerTimerContext.hasFlag_setFlag, ← h.infinite]
    simp
  calls := by
    rw [calls_append, show Timer.calls [.remove] = [] from rfl, List.append_nil]
    exact h.calls
  count := by
    rw [calls_append, show Timer.calls [.remove] = [] from rfl, List.append_nil,
      WorkerTimerContext.left_setFlag]
    exact h.count
  expiries := by simp
  quiet := by
    rw [after_append]
    split
    · rw [calls_append, h.quiet]; rfl
    · rfl

/-- A call back that does not end the life. -/
theorem alive_calledBack {times : Int32} {ctx ctx' : WorkerTimerContext} {l : List Happening} (m : Nat)
    (h : Alive times ctx l) (hr : ctx.hasFlag .removed = false)
    (hr' : ctx'.hasFlag .removed = decide (m ≠ 0))
    (hi : ctx'.hasFlag .infinite = ctx.hasFlag .infinite)
    (hleft : 0 < times → 0 < ctx'.left ∧ ctx'.left + 1 = ctx.left) :
    Alive times ctx' (l ++ .expire :: calledBack false m) := by
  have hnot : .remove ∉ l := fun hmem => by rw [h.removed.mpr hmem] at hr; cases hr
  refine ⟨?_, by rw [hi]; exact h.infinite, ?_, fun hpos => ?_, fun hmem => ?_, ?_⟩
  · rw [hr']
    simp [hnot, mem_calledBack]
  · rw [calls_append, calls_expire_cons, calls_calledBack, List.length_append, List.replicate_add,
      ← h.calls]
    rfl
  · obtain ⟨h1, h2⟩ := h.count hpos
    obtain ⟨h3, h4⟩ := hleft hpos
    refine ⟨h3, ?_⟩
    rw [calls_append, calls_expire_cons, calls_calledBack, List.length_append, List.length_singleton]
    omega
  · rw [expiries_append, expiries_expire_cons, expiries_calledBack, h.expiries hnot, calls_append,
      calls_expire_cons, calls_calledBack, List.length_append, List.length_singleton]
  · rw [after_append, if_neg hnot, after_expire_cons, calls_after_calledBack]

theorem gone_last {times : Int32} {ctx : WorkerTimerContext} {l : List Happening} (m m' : Nat)
    (h : Alive times ctx l) (hr : ctx.hasFlag .removed = false) (hi : ctx.hasFlag .infinite = false)
    (hlast : ¬1 < ctx.left) : Gone times (l ++ .expire :: calledBack false m ++ calledBack true m') := by
  have hnot : .remove ∉ l := fun hmem => by rw [h.removed.mpr hmem] at hr; cases hr
  have hpos : 0 < times := by
    rw [← Int32.not_le, ← h.infinite, hi]
    exact Bool.false_ne_true
  obtain ⟨h1, h2⟩ := h.count hpos
  have hlen : times.toInt.toNat = (calls l).length + 1 := by omega
  refine ⟨fun _ => ⟨hpos, ?_, ?_⟩, ?_⟩
  · simp only [expiries_append, expiries_expire_cons, expiries_calledBack, h.expiries hnot]
    omega
  · simp only [calls_append, calls_expire_cons, calls_calledBack]
    rw [hlen, List.replicate_add, ← h.calls]
    rfl
  · rw [List.append_assoc, after_append, if_neg hnot, List.cons_append, after_expire_cons, after_append]
    split
    · rw [calls_append, calls_after_calledBack, calls_calledBack]
      exact Or.inr rfl
    · exact Or.inl (calls_after_calledBack true m')

theorem gone_removed {times : Int32} {ctx : WorkerTimerContext} {l : List Happening} (m : Nat)
    (h : Alive times ctx l) (hr : ctx.hasFlag .removed = true) :
    Gone times (l ++ .expire :: calledBack true m) := by
  have hmem := h.removed.mp hr
  refine ⟨fun hnot => absurd (List.mem_append_left _ hmem) hnot, Or.inr ?_⟩
  rw [after_append, if_pos hmem, calls_append, h.quiet, calls_expire_cons, calls_calledBack]
  rfl

theorem gone_gone {times : Int32} {l : List Happening} {what : Happening}
    (hwhat : what = .remove ∨ what = .expire) (h : Gone times l) : Gone times (l ++ [what]) := by
  have hcall : calls [what] = [] := by rcases hwhat with rfl | rfl <;> rfl
  have hcall' : calls (after [what]) = [] := by rcases hwhat with rfl | rfl <;> rfl
  refine ⟨fun hnot => ?_, ?_⟩
  · obtain ⟨h1, h2, h3⟩ := h.complete fun hmem => hnot (List.mem_append_left _ hmem)
    refine ⟨h1, ?_, ?_⟩
    · rw [expiries_append]; omega
    · rw [calls_append, hcall, List.append_nil, h3]
  · rw [after_append]
    split
    · rw [calls_append, hcall, List.append_nil]; exact h.quiet
    · exact Or.inl hcall'

/-- **Lives.**  What the flags and the count in `times_` come to. -/
theorem Life.spec {times : Int32} {c : Option WorkerTimerContext} {l : List Happening}
    (hmask : times < times_mask) (h : Life times c l) :
    match c with
    | some ctx => Alive times ctx l
    | none => Gone times l := by
  induction h with
  | armed h => exact alive_armed times _ hmask h
  | remove _ ih => exact alive_remove ih
  | gone hwhat _ ih => exact gone_gone hwhat ih
  | @infinite ctx l m _ hr hi ih =>
    refine alive_calledBack m ih hr (by rw [ctx.removed_marked, hr, Bool.false_or])
      (ctx.infinite_marked m) fun hpos => ?_
    exact absurd (ih.infinite.mp hi) (Int32.not_le.mpr hpos)
  | @again ctx l m _ hr hi hmore ih =>
    have hpos : 0 < times := by
      rw [← Int32.not_le, ← ih.infinite, hi]
      exact Bool.false_ne_true
    obtain ⟨h1, -⟩ := ih.count hpos
    obtain ⟨h2, h3, h4⟩ := (ctx.marked m).setTimes_pred (by rwa [ctx.left_marked])
    rw [ctx.left_marked] at h2 h3
    rw [h2, decide_eq_true_iff] at hmore
    refine alive_calledBack m ih hr (by rw [h4, ctx.removed_marked, hr, Bool.false_or])
      (by rw [h4, ctx.infinite_marked]) fun _ => ?_
    rw [h3]
    omega
  | @last ctx l m m' _ hr hi hmore ih =>
    have hpos : 0 < times := by
      rw [← Int32.not_le, ← ih.infinite, hi]
      exact Bool.false_ne_true
    obtain ⟨h1, -⟩ := ih.count hpos
    obtain ⟨h2, -⟩ := (ctx.marked m).setTimes_pred (by rwa [ctx.left_marked])
    rw [h2, ctx.left_marked, decide_eq_false_iff_not] at hmore
    exact gone_last m m' ih hr hi hmore
  | removed m _ hr ih => exact gone_removed m ih hr

/-! ## Every timer lives such a life -/

variable {ω : Type}

def lifeStep (id : TimerId) : Option (Int32 × List Happening) → Note → Option (Int32 × List Happening)
  | life, .arm id' _ times _ => if id' = id then some (times, []) else life
  | life, .of id' what => if id' = id then life.map fun p => (p.1, p.2 ++ [what]) else life

/-- The latest life of `id`: what it was armed with, what happened since. -/
def lifeOf (id : TimerId) (log : List Note) : Option (Int32 × List Happening) :=
  log.foldl (lifeStep id) none

@[simp] theorem lifeOf_append_singleton (id : TimerId) (log : List Note) (n : Note) :
    lifeOf id (log ++ [n]) = lifeStep id (lifeOf id log) n := by
  unfold lifeOf
  rw [List.foldl_append]
  rfl

/-- What happened to `id`. -/
def happened (id : TimerId) (log : List Note) : List Happening :=
  log.filterMap fun
    | .arm _ _ _ _ => none
    | .of id' what => if id' = id then some what else none

theorem lifeOf_arm (id : TimerId) (pre : List Note) (d times : Int32) (sid : UInt32)
    (life : List Note) (h : ∀ d times sid, .arm id d times sid ∉ life) :
    lifeOf id (pre ++ .arm id d times sid :: life) = some (times, happened id life) := by
  have hfold : ∀ l0, life.foldl (lifeStep id) (some (times, l0)) = some (times, l0 ++ happened id life) := by
    induction life with
    | nil => intro l0; simp [happened]
    | cons n life ih =>
      intro l0
      have hrest := ih fun d times sid hm => h d times sid (List.mem_cons_of_mem _ hm)
      rw [List.foldl_cons]
      cases n with
      | arm id' d' times' sid' =>
        have hne : id' ≠ id := by
          rintro rfl
          exact h d' times' sid' List.mem_cons_self
        rw [lifeStep, if_neg hne, hrest]
        rfl
      | of id' what =>
        by_cases hid : id' = id
        · rw [lifeStep, if_pos hid, Option.map_some, hrest]
          simp [happened, hid, List.append_assoc]
        · rw [lifeStep, if_neg hid, hrest]
          simp [happened, hid]
  unfold lifeOf
  rw [List.foldl_append, List.foldl_cons, lifeStep, if_pos rfl, hfold]
  rfl

/-- The entry of `id` is that of its latest life. -/
def Tracks (id : TimerId) (c : WorkerTimer ω) : Prop :=
  match lifeOf id c.log with
  | none => c.timers id = none
  | some (times, l) => Life times (c.timers id) l

theorem tracks_congr {id : TimerId} {c c' : WorkerTimer ω} (hlog : lifeOf id c'.log = lifeOf id c.log)
    (htimers : c'.timers id = c.timers id) (h : Tracks id c) : Tracks id c' := by
  unfold Tracks at *
  rw [hlog, htimers]
  exact h

theorem tracks_repeatTimer {id : TimerId} {c : WorkerTimer ω} {duration times : Int32}
    {serviceid : UInt32} {r : Repeated ω} (hc : Tracks id c)
    (h : c.repeatTimer duration times serviceid = some r) : Tracks id r.child := by
  obtain rfl | ⟨ctx, -, htimes, htimers, hlog, -, -⟩ := repeatTimer_cases h
  · exact hc
  · by_cases hid : r.id = id
    · unfold Tracks
      rw [hlog, lifeOf_append_singleton, lifeStep, if_pos hid, htimers, ← hid, Function.update_self]
      exact .armed htimes
    · refine tracks_congr ?_ ?_ hc
      · rw [hlog, lifeOf_append_singleton, lifeStep, if_neg hid]
      · rw [htimers, Function.update_of_ne (Ne.symm hid)]

theorem tracks_remove {id : TimerId} {c : WorkerTimer ω} (id' : TimerId) (hc : Tracks id c) :
    Tracks id (c.remove id') := by
  obtain ⟨htimers, hlog, -⟩ := remove_timers c id'
  by_cases hid : id' = id
  · subst hid
    unfold Tracks at *
    rw [hlog, lifeOf_append_singleton, lifeStep, if_pos rfl, htimers, Function.update_self]
    cases hlife : lifeOf id' c.log with
    | none => rw [hlife] at hc; simp only at hc; rw [hc]; rfl
    | some p =>
      rw [hlife] at hc
      simp only at hc
      cases hctx : c.timers id' with
      | none => rw [hctx] at hc; exact .gone (Or.inl rfl) hc
      | some ctx => rw [hctx] at hc; exact .remove hc
  · refine tracks_congr ?_ ?_ hc
    · rw [hlog, lifeOf_append_singleton, lifeStep, if_neg hid]
    · rw [htimers, Function.update_of_ne (Ne.symm hid)]

theorem tracks_run {id : TimerId} {p : Prog ω} {c c' : WorkerTimer ω} {armed}
    (hc : Tracks id c) (h : p.run c = some (c', armed)) : Tracks id c' := by
  refine Prog.run_rule (Q := fun c c' _ => Tracks id c → Tracks id c') ?_ ?_ ?_ p h hc
  · intro c world hc
    exact hc
  · intro c duration times serviceid r c' armed hr ih hc
    exact ih (tracks_repeatTimer hc hr)
  · intro c id' c' armed ih hc
    exact ih (tracks_remove id' hc)

/-- A callback does no more to a timer in use than remove it, some number of times. -/
theorem run_marked {id : TimerId} {p : Prog ω} {c c' : WorkerTimer ω} {armed}
    {ctx : WorkerTimerContext} {times l} (hctx : c.timers id = some ctx)
    (hlife : lifeOf id c.log = some (times, l)) (h : p.run c = some (c', armed)) :
    ∃ m, c'.timers id = some (ctx.marked m) ∧
      lifeOf id c'.log = some (times, l ++ List.replicate m .remove) := by
  refine Prog.run_rule (Q := fun c c' _ => ∀ ctx l, c.timers id = some ctx →
    lifeOf id c.log = some (times, l) → ∃ m, c'.timers id = some (ctx.marked m) ∧
      lifeOf id c'.log = some (times, l ++ List.replicate m .remove)) ?_ ?_ ?_ p h ctx l hctx hlife
  · intro c world ctx l hctx hlife
    exact ⟨0, hctx, by simpa using hlife⟩
  · intro c duration times' serviceid r c' armed hr ih ctx l hctx hlife
    obtain rfl | ⟨ctx', hnone, -, htimers, hlog, -, -⟩ := repeatTimer_cases hr
    · exact ih ctx l hctx hlife
    · have hid : r.id ≠ id := by
        intro he
        rw [he, hctx] at hnone
        cases hnone
      refine ih ctx l ?_ ?_
      · rw [htimers, Function.update_of_ne (Ne.symm hid), hctx]
      · rw [hlog, lifeOf_append_singleton, lifeStep, if_neg hid, hlife]
  · intro c id' c' armed ih ctx l hctx hlife
    obtain ⟨htimers, hlog, -⟩ := remove_timers c id'
    by_cases hid : id' = id
    · subst hid
      obtain ⟨m, h1, h2⟩ := ih (ctx.marked 1) (l ++ [.remove])
        (by rw [htimers, Function.update_self, hctx]; rfl)
        (by rw [hlog, lifeOf_append_singleton, lifeStep, if_pos rfl, hlife]; rfl)
      rw [ctx.marked_add] at h1
      refine ⟨1 + m, h1, ?_⟩
      rw [h2, List.append_assoc, List.replicate_add]
      rfl
    · refine ih ctx l ?_ ?_
      · rw [htimers, Function.update_of_ne (Ne.symm hid), hctx]
      · rw [hlog, lifeOf_append_singleton, lifeStep, if_neg hid, hlife]

theorem callback_marked {handler : Handler ω} {id : TimerId} {sid : UInt32} {r : Bool}
    {c c' : WorkerTimer ω} {armed} {ctx : WorkerTimerContext} {times l} (hctx : c.timers id = some ctx)
    (hlife : lifeOf id c.log = some (times, l)) (h : callback handler id sid r c = some (c', armed)) :
    ∃ m, c'.timers id = some (ctx.marked m) ∧
      lifeOf id c'.log = some (times, l ++ calledBack r m) := by
  have hlife' : lifeOf id (c.note (.of id (.call r))).log = some (times, l ++ [.call r]) := by
    rw [note, lifeOf_append_singleton, lifeStep, if_pos rfl, hlife]
    rfl
  have hctx' : (c.note (.of id (.call r))).timers id = some ctx := hctx
  obtain ⟨m, h1, h2⟩ := run_marked hctx' hlife' (callback_some h)
  exact ⟨m, h1, by rw [h2, List.append_assoc]; rfl⟩

theorem tracks_note_of_ne {id id' : TimerId} {c : WorkerTimer ω} {what : Happening} (hid : id' ≠ id)
    (hc : Tracks id c) : Tracks id (c.note (.of id' what)) := by
  refine tracks_congr ?_ ?_ hc
  · rw [note, lifeOf_append_singleton, lifeStep, if_neg hid]
  · rfl

theorem tracks_put_of_ne {id id' : TimerId} {c : WorkerTimer ω} {ctx} (hid : id' ≠ id)
    (hc : Tracks id c) : Tracks id (c.put id' ctx) := by
  refine tracks_congr ?_ ?_ hc
  · rfl
  · exact Function.update_of_ne (Ne.symm hid) _ _

theorem tracks_callback_of_ne {handler : Handler ω} {id id' : TimerId} {sid : UInt32} {r : Bool}
    {c c' : WorkerTimer ω} {armed} (hid : id' ≠ id) (hc : Tracks id c)
    (h : callback handler id' sid r c = some (c', armed)) : Tracks id c' :=
  tracks_run (tracks_note_of_ne hid hc) (callback_some h)

theorem tracks_giveUp_of_ne {handler : Handler ω} {id id' : TimerId} {sid : UInt32} {armed}
    {c : WorkerTimer ω} {r : Fired (WorkerTimer ω)} (hid : id' ≠ id) (hc : Tracks id c)
    (h : giveUp handler id' sid armed c = some r) : Tracks id r.child := by
  obtain ⟨c1, armed1, h1, rfl⟩ := giveUp_some h
  exact tracks_put_of_ne hid (tracks_callback_of_ne hid hc h1)

theorem tracks_giveUp {handler : Handler ω} {id : TimerId} {sid : UInt32} {armed}
    {c : WorkerTimer ω} {r : Fired (WorkerTimer ω)} {ctx : WorkerTimerContext} {times l}
    (hctx : c.timers id = some ctx) (hlife : lifeOf id c.log = some (times, l))
    (hgone : ∀ m, Life times none (l ++ calledBack true m))
    (h : giveUp handler id sid armed c = some r) : Tracks id r.child := by
  obtain ⟨c1, armed1, h1, rfl⟩ := giveUp_some h
  obtain ⟨m, -, h2⟩ := callback_marked hctx hlife h1
  show Tracks id (c1.put id none)
  unfold Tracks
  rw [log_put, h2, timers_put, Function.update_self]
  exact hgone m

theorem lifeOf_expire (id : TimerId) (c : WorkerTimer ω) :
    lifeOf id (c.note (.of id .expire)).log =
      (lifeOf id c.log).map fun p => (p.1, p.2 ++ [.expire]) := by
  rw [note, lifeOf_append_singleton, lifeStep, if_pos rfl]

/-- A timer in use has a life, to which the expiry is added. -/
theorem Tracks.expire {id : TimerId} {c : WorkerTimer ω} {ctx : WorkerTimerContext}
    (hc : Tracks id c) (hctx : c.timers id = some ctx) :
    ∃ times l, (c.note (.of id .expire)).timers id = some ctx ∧
      lifeOf id (c.note (.of id .expire)).log = some (times, l ++ [.expire]) ∧
      Life times (some ctx) l := by
  unfold Tracks at hc
  cases hlife : lifeOf id c.log with
  | none =>
    rw [hlife, hctx] at hc
    cases hc
  | some p =>
    rw [hlife, hctx] at hc
    refine ⟨p.1, p.2, hctx, ?_, hc⟩
    rw [lifeOf_expire, hlife]
    rfl

/-- After its callback, a timer in use is the one that the callback marked. -/
theorem Tracks.called {handler : Handler ω} {id : TimerId} {c c1 : WorkerTimer ω}
    {ctx ctx' : WorkerTimerContext} {sid : UInt32} {remove : Bool} {armed} (hc : Tracks id c)
    (hctx : c.timers id = some ctx)
    (hcall : callback handler id sid remove (c.note (.of id .expire)) = some (c1, armed))
    (hctx' : c1.timers id = some ctx') :
    ∃ times l m, Life times (some ctx) l ∧ ctx' = ctx.marked m ∧
      lifeOf id c1.log = some (times, l ++ ([.expire] ++ calledBack remove m)) := by
  obtain ⟨times, l, hctx, hexp, hlife⟩ := hc.expire hctx
  obtain ⟨m, hctx1, hlife1⟩ := callback_marked hctx hexp hcall
  rw [List.append_assoc] at hlife1
  exact ⟨times, l, m, hlife, Option.some.inj (hctx'.symm.trans hctx1), hlife1⟩

/-- **`on_timer`**: the timer it is called for lives on as `Life` says. -/
theorem tracks_onTimer_self {handler : Handler ω} {id : TimerId} {c : WorkerTimer ω}
    {r : Fired (WorkerTimer ω)} (hc : Tracks id c) (h : onTimer handler c id = some r) :
    Tracks id r.child := by
  cases onTimer_cases h with
  | unknown hnone =>
    have htimers : (c.note (.of id .expire)).timers id = none := hnone
    show Tracks id (c.note (.of id .expire))
    unfold Tracks at *
    rw [lifeOf_expire]
    cases hlife : lifeOf id c.log with
    | none => exact hnone
    | some p =>
      rw [hlife, hnone] at hc
      simp only [Option.map_some, htimers]
      exact .gone (Or.inr rfl) hc
  | removed hctx hr hgive =>
    obtain ⟨times, l, hctx, hexp, hc⟩ := hc.expire hctx
    refine tracks_giveUp hctx hexp (fun m => ?_) hgive
    rw [List.append_assoc]
    exact .removed m hc hr
  | @infinite ctx ctx' c1 armed hctx hr hcall hctx' hi =>
    obtain ⟨times, l, m, hc, rfl, hlife1⟩ := hc.called hctx hcall hctx'
    rw [ctx.infinite_marked] at hi
    show Tracks id c1
    unfold Tracks
    rw [hlife1, hctx']
    exact .infinite m hc hr hi
  | @again ctx ctx' c1 armed hctx hr hcall hctx' hi hmore =>
    obtain ⟨times, l, m, hc, rfl, hlife1⟩ := hc.called hctx hcall hctx'
    rw [ctx.infinite_marked] at hi
    show Tracks id (c1.put id _)
    unfold Tracks
    rw [log_put, hlife1, timers_put, Function.update_self]
    exact .again m hc hr hi hmore
  | @last ctx ctx' c1 armed _ hctx hr hcall hctx' hi hmore hgive =>
    obtain ⟨times, l, m, hc, rfl, hlife1⟩ := hc.called hctx hcall hctx'
    rw [ctx.infinite_marked] at hi
    have hlife2 : lifeOf id (c1.put id
        (some ((ctx.marked m).setTimes ((ctx.marked m).times - 1)).2)).log = _ := hlife1
    exact tracks_giveUp (Function.update_self _ _ _) hlife2
      (fun m' => .last m m' hc hr hi hmore) hgive

theorem tracks_onTimer_of_ne {handler : Handler ω} {id id' : TimerId} {c : WorkerTimer ω}
    {r : Fired (WorkerTimer ω)} (hid : id' ≠ id) (hc : Tracks id c)
    (h : onTimer handler c id' = some r) : Tracks id r.child := by
  have hexpire : Tracks id (c.note (.of id' .expire)) := tracks_note_of_ne hid hc
  cases onTimer_cases h with
  | unknown _ => exact hexpire
  | removed _ _ hgive => exact tracks_giveUp_of_ne hid hexpire hgive
  | infinite _ _ hcall _ _ => exact tracks_callback_of_ne hid hexpire hcall
  | again _ _ hcall _ _ _ => exact tracks_put_of_ne hid (tracks_callback_of_ne hid hexpire hcall)
  | last _ _ hcall _ _ _ hgive =>
    exact tracks_giveUp_of_ne hid (tracks_put_of_ne hid (tracks_callback_of_ne hid hexpire hcall))
      hgive

/-- What becomes of a `worker_timer`, whichever calls are made of it in whatever order:
`on_timer` for any id, so also in an `update` that never returns. -/
inductive Reach (handler : Handler ω) : WorkerTimer ω → Prop
  | init (world : ω) : Reach handler { world := world }
  | setOnTimer {c} : Reach handler c → Reach handler c.setOnTimer
  | repeatTimer {c} (duration times serviceid r) : Reach handler c →
      c.repeatTimer duration times serviceid = some r → Reach handler r.child
  | remove {c} (id) : Reach handler c → Reach handler (c.remove id)
  | onTimer {c} (id r) : Reach handler c → onTimer handler c id = some r → Reach handler r.child

theorem Reach.tracks {handler : Handler ω} {c : WorkerTimer ω} (h : Reach handler c) :
    ∀ id, Tracks id c := by
  induction h with
  | init world => intro id; rfl
  | setOnTimer _ ih => exact ih
  | repeatTimer duration times serviceid r _ hr ih => exact fun id => tracks_repeatTimer (ih id) hr
  | remove id' _ ih => exact fun id => tracks_remove id' (ih id)
  | onTimer id' r _ hr ih =>
    intro id
    by_cases hid : id' = id
    · subst hid
      exact tracks_onTimer_self (ih id') hr
    · exact tracks_onTimer_of_ne hid (ih id) hr

theorem Reach.life {handler : Handler ω} {c : WorkerTimer ω} (h : Reach handler c) {id : TimerId}
    {pre life : List Note} {d times : Int32} {sid : UInt32}
    (hlog : c.log = pre ++ .arm id d times sid :: life)
    (hlife : ∀ d times sid, .arm id d times sid ∉ life) :
    Life times (c.timers id) (happened id life) := by
  have ht := h.tracks id
  unfold Tracks at ht
  rw [hlog, lifeOf_arm id pre d times sid life hlife] at ht
  exact ht

theorem calls_after_remove (a b : List Happening) :
    ∃ x, calls (after (a ++ .remove :: b)) = x ++ calls b := by
  rw [after_append]
  split
  · exact ⟨calls (after a), by rw [calls_append]; rfl⟩
  · exact ⟨[], rfl⟩

theorem Life.complete {times : Int32} {c : Option WorkerTimerContext} {l : List Happening}
    (hmask : times < times_mask) (h : Life times c l) (hpos : 0 < times) (hnot : .remove ∉ l) :
    calls l = List.replicate (min (expiries l) times.toInt.toNat) false ++
        (if times.toInt ≤ expiries l then [true] else []) ∧
      (c.isSome ↔ expiries l < times.toInt) := by
  have hspec := h.spec hmask
  cases c with
  | none =>
    obtain ⟨-, h1, h2⟩ := hspec.complete hnot
    rw [if_pos h1, Nat.min_eq_right (by omega)]
    exact ⟨h2, by simp; omega⟩
  | some ctx =>
    obtain ⟨h1, h2⟩ := hspec.count hpos
    have h3 := hspec.expiries hnot
    rw [if_neg (by omega), Nat.min_eq_left (by omega), h3, List.append_nil]
    exact ⟨hspec.calls, by simp; omega⟩

theorem Life.quiet {times : Int32} {c : Option WorkerTimerContext} {l : List Happening}
    (hmask : times < times_mask) (h : Life times c l) (a b : List Happening)
    (hl : l = a ++ .remove :: b) : calls b = [] ∨ calls b = [true] := by
  have hspec := h.spec hmask
  have hquiet : calls (after l) = [] ∨ calls (after l) = [true] := by
    cases c with
    | none => exact hspec.quiet
    | some ctx => exact Or.inl hspec.quiet
  obtain ⟨x, hx⟩ := calls_after_remove a b
  rw [← hl] at hx
  rw [hx] at hquiet
  rcases hquiet with hq | hq
  · exact Or.inl (List.append_eq_nil_iff.mp hq).2
  · rcases List.append_eq_singleton_iff.mp hq with ⟨-, hb⟩ | ⟨-, hb⟩
    · exact Or.inr hb
    · exact Or.inl hb

theorem Life.forever {times : Int32} {c : Option WorkerTimerContext} {l : List Happening}
    (hmask : times < times_mask) (h : Life times c l) (hle : times ≤ 0) (hnot : .remove ∉ l) :
    calls l = List.replicate (expiries l) false ∧ c.isSome := by
  have hspec := h.spec hmask
  cases c with
  | none => exact absurd (hspec.complete hnot).1 (Int32.not_lt.mpr hle)
  | some ctx =>
    rw [hspec.expiries hnot]
    exact ⟨hspec.calls, rfl⟩

/-- **Fire counts and cancellation.**  `life`: the log since `id` was armed with `times`,
and no timer with that id after it.  An `.expire` is a key that `expired` took out
(`WorkerRun.expiries_eq`).

* Armed `k` times and not removed: `k` calls, one an expiry, then in the `k`-th the
  call that says it is removed; `id` is in `timers_` until then.
* After `remove`: at most the call that says so.
* Armed without a count and not removed: a call in every expiry, and still there. -/
theorem fire_counts (handler : Handler ω) (c : WorkerTimer ω) (h : Reach handler c) (id : TimerId)
    (pre life : List Note) (d times : Int32) (sid : UInt32)
    (hlog : c.log = pre ++ .arm id d times sid :: life)
    (hlife : ∀ d times sid, .arm id d times sid ∉ life) (hmask : times < times_mask) :
    (0 < times → .remove ∉ happened id life →
      calls (happened id life) =
          List.replicate (min (expiries (happened id life)) times.toInt.toNat) false ++
            (if times.toInt ≤ expiries (happened id life) then [true] else []) ∧
        ((c.timers id).isSome ↔ expiries (happened id life) < times.toInt)) ∧
    (∀ a b, happened id life = a ++ .remove :: b → calls b = [] ∨ calls b = [true]) ∧
    (times ≤ 0 → .remove ∉ happened id life →
      calls (happened id life) = List.replicate (expiries (happened id life)) false ∧
        (c.timers id).isSome) :=
  have hl := h.life hlog hlife
  ⟨hl.complete hmask, hl.quiet hmask, hl.forever hmask⟩

/-- Timer 1 is armed for two calls; timer 2 for five, but its callback removes it. -/
theorem fire_counts_twice :
    ∃ c pre life life',
      Reach (fun (_ : Unit) id _ _ => if id = 2 then .remove 2 (.done ()) else .done ()) c ∧
      c.log = .arm 1 10 2 7 :: life ∧ c.log = pre ++ .arm 2 10 5 7 :: life' ∧
      calls (happened 1 life) = [false, false, true] ∧ (c.timers 1).isSome = false ∧
      happened 2 life' = [.expire, .call false, .remove] ++ [.expire, .call true, .remove] ∧
      ∀ a b, happened 2 life' = a ++ .remove :: b → calls b = [] ∨ calls b = [true] := by
  let handler : Handler Unit := fun _ id _ _ => if id = 2 then .remove 2 (.done ()) else .done ()
  let rest : List Note := [.of 1 .expire, .of 1 (.call false), .of 2 .expire, .of 2 (.call false),
    .of 2 .remove, .of 1 .expire, .of 1 (.call false), .of 1 (.call true), .of 2 .expire,
    .of 2 (.call true), .of 2 .remove]
  obtain ⟨c, hrun, hlog⟩ : ∃ c, Reach handler c ∧ c.log = .arm 1 10 2 7 :: .arm 2 10 5 7 :: rest :=
    ⟨_, .onTimer 2 _ (.onTimer 1 _ (.onTimer 2 _ (.onTimer 1 _ (.repeatTimer 10 5 7 _
      (.repeatTimer 10 2 7 _ (.setOnTimer (.init ())) rfl) rfl) rfl) rfl) rfl) rfl, rfl⟩
  have hone : ∀ d times sid, .arm 1 d times sid ∉ Note.arm 2 10 5 7 :: rest := by
    intro d times sid h
    simp [rest] at h
  have htwo : ∀ d times sid, .arm 2 d times sid ∉ rest := by
    intro d times sid h
    simp [rest] at h
  obtain ⟨hcalls, hsome⟩ := (fire_counts handler c hrun 1 [] _ 10 2 7 hlog hone (by decide)).1 (by decide)
    (by decide)
  have hquiet := (fire_counts handler c hrun 2 [.arm 1 10 2 7] _ 10 5 7 hlog htwo (by decide)).2.1
  refine ⟨c, [.arm 1 10 2 7], _, rest, hrun, hlog, hlog, hcalls, ?_, by decide, hquiet⟩
  rw [Bool.eq_false_iff, ne_eq, hsome]
  decide

end HappyServer.Timer
