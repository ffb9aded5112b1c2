import HappyServer.Timer.Exact

/-!
# `worker_timer` (`core/worker_timer.hpp`, `timer_context` of `common/timer.hpp`)

The class derived from `base_timer`, function by function.

* The callback `on_timer_` is code outside: `handler` gives, from a state `ω` of its
  own, a program that may call `repeat` and `remove` and ends (`Prog`).
* The repeat count is the 32-bit word of the source, flags included.
* `log` is not in the source: it notes what happened, for the theorems.
* `none`: the call does not return (all ids taken) or throws (`on_timer_` not set).
  The assertion on `times` is not checked, as in a release build.
* `Prog.run_rule`, `repeatTimer_cases`, `Expiry`: all that the calls can do, for the proofs.
-/

namespace HappyServer.Timer

/-! ## `timer_context` -/

inductive Flag where
  | removed
  | infinite
deriving DecidableEq, Repr

def Flag.value : Flag → Int32
  | .removed => Int32.ofNat (1 <<< 29)
  | .infinite => Int32.ofNat (1 <<< 30)

def times_mask : Int32 := 0xFFFFFFF

structure WorkerTimerContext where
  duration : Int32
  times : Int32
  serviceid : UInt32
  /-- `repeat` arms nothing shorter. -/
  precise : PRECISION ≤ duration.toInt

namespace WorkerTimerContext

variable (ctx : WorkerTimerContext)

def setTimes (value : Int32) : Bool × WorkerTimerContext :=
  (value &&& times_mask > 0, { ctx with times := value })

def setFlag (v : Flag) : WorkerTimerContext := { ctx with times := ctx.times ||| v.value }
def hasFlag (v : Flag) : Bool := ctx.times &&& v.value != 0

end WorkerTimerContext

/-! ## `worker_timer` -/

def MAX_TIMER_NUM : UInt32 := UInt32.ofNat (1 <<< 24 - 1)

/-- What happens to a timer: a call of `remove`, of `on_timer`, of the callback. -/
inductive Happening where
  | remove
  | expire
  | call (remove : Bool)
deriving DecidableEq, Repr

inductive Note where
  | arm (id : TimerId) (duration times : Int32) (serviceid : UInt32)
  | of (id : TimerId) (what : Happening)
deriving DecidableEq, Repr

structure WorkerTimer (ω : Type) where
  uuid : UInt32 := 0
  timers : TimerId → Option WorkerTimerContext := fun _ => none
  /-- whether `on_timer_` is set -/
  onTimerSet : Bool := false
  /-- the state of the callbacks -/
  world : ω
  log : List Note := []

/-- What a callback does to the timer that calls it. -/
inductive Prog (ω : Type) where
  | done (world : ω)
  | repeatTimer (duration times : Int32) (serviceid : UInt32) (next : TimerId → Prog ω)
  | remove (id : TimerId) (next : Prog ω)

abbrev Handler (ω : Type) := ω → TimerId → (serviceid : UInt32) → (remove : Bool) → Prog ω

/-- What a call of `repeat` leaves: the timer, its call of `insert_timer`, its result. -/
structure Repeated (ω : Type) where
  child : WorkerTimer ω
  armed : List (Int × TimerId)
  id : TimerId

namespace WorkerTimer

variable {ω : Type}

def note (c : WorkerTimer ω) (n : Note) : WorkerTimer ω := { c with log := c.log ++ [n] }

def setOnTimer (c : WorkerTimer ω) : WorkerTimer ω := { c with onTimerSet := true }

def put (c : WorkerTimer ω) (id : TimerId) (ctx : Option WorkerTimerContext) : WorkerTimer ω :=
  { c with timers := Function.update c.timers id ctx }

@[simp] theorem timers_put (c : WorkerTimer ω) (id : TimerId) (ctx : Option WorkerTimerContext) :
    (c.put id ctx).timers = Function.update c.timers id ctx := rfl

@[simp] theorem log_put (c : WorkerTimer ω) (id : TimerId) (ctx : Option WorkerTimerContext) :
    (c.put id ctx).log = c.log := rfl

/-- `if (duration < PRECISION) duration = PRECISION;` -/
def clamp (duration : Int32) : { d : Int32 // PRECISION ≤ d.toInt } :=
  if h : duration.toInt < PRECISION then ⟨10, by decide⟩ else ⟨duration, Int.not_lt.mp h⟩

/-- `while (timers_.find(uuid_) != timers_.end()) ++uuid_;` -/
def freshId (timers : TimerId → Option WorkerTimerContext) : (fuel : Nat) → UInt32 → Option UInt32
  | 0, _ => none
  | fuel + 1, uuid => if (timers uuid).isSome then freshId timers fuel (uuid + 1) else some uuid

def repeatTimer (c : WorkerTimer ω) (duration times : Int32) (serviceid : UInt32) :
    Option (Repeated ω) :=
  if !c.onTimerSet then some ⟨c, [], 0⟩
  else do
    let d := clamp duration
    let uuid := if c.uuid = 0 ∨ c.uuid = MAX_TIMER_NUM then 1 else c.uuid
    let uuid ← freshId c.timers (2 ^ 32) uuid
    let word := if times ≤ 0 then Flag.infinite.value else times
    let c := { c.put uuid (some ⟨d.1, word, serviceid, d.2⟩) with uuid := uuid }
    some ⟨c.note (.arm uuid duration times serviceid), [(d.1.toInt, uuid)], uuid⟩

def remove (c : WorkerTimer ω) (id : TimerId) : WorkerTimer ω :=
  match c.timers id with
  | none => c.note (.of id .remove)
  | some ctx => (c.put id (some (ctx.setFlag .removed))).note (.of id .remove)

end WorkerTimer

open WorkerTimer

variable {ω : Type}

/-- The timer after the program, and the calls of `insert_timer` made. -/
def Prog.run : Prog ω → WorkerTimer ω → Option (WorkerTimer ω × List (Int × TimerId))
  | .done world, c => some ({ c with world := world }, [])
  | .repeatTimer duration times serviceid next, c => do
    let r ← c.repeatTimer duration times serviceid
    let (c, armed) ← (next r.id).run r.child
    some (c, r.armed ++ armed)
  | .remove id next, c => next.run (c.remove id)

namespace WorkerTimer

/-- `on_timer_(id, serviceid, remove)` -/
def callback (handler : Handler ω) (id : TimerId) (serviceid : UInt32) (remove : Bool)
    (c : WorkerTimer ω) : Option (WorkerTimer ω × List (Int × TimerId)) :=
  if !c.onTimerSet then none
  else (handler c.world id serviceid remove).run (c.note (.of id (.call remove)))

/-- The last lines of `on_timer`: the callback with `remove`, then `erase`. -/
def giveUp (handler : Handler ω) (id : TimerId) (serviceid : UInt32)
    (armed : List (Int × TimerId)) (c : WorkerTimer ω) : Option (Fired (WorkerTimer ω)) := do
  let (c, armed') ← callback handler id serviceid true c
  some ⟨c.put id none, armed ++ armed', 0⟩

/-- `ctx` is a reference: the callback may set a flag in it.  `iter` is taken to stay valid when a
`repeat` of the callback rehashes `timers_`: what `erase(iter)` erases afterwards is `id`. -/
def onTimer (handler : Handler ω) (c : WorkerTimer ω) (id : TimerId) :
    Option (Fired (WorkerTimer ω)) :=
  let c := c.note (.of id .expire)
  match c.timers id with
  | none => some ⟨c, [], 0⟩
  | some ctx =>
    if !ctx.hasFlag .removed then do
      let (c, armed) ← callback handler id ctx.serviceid false c
      match c.timers id with
      | none => none -- a callback erases nothing
      | some ctx =>
        if ctx.hasFlag .infinite then some ⟨c, armed, ctx.duration.toInt⟩
        else
          let (more, ctx) := ctx.setTimes (ctx.times - 1)
          let c := c.put id (some ctx)
          if more then some ⟨c, armed, ctx.duration.toInt⟩
          else giveUp handler id ctx.serviceid armed c
    else giveUp handler id ctx.serviceid [] c

end WorkerTimer

/-- `repeat` called from outside a callback. -/
def BaseTimer.repeatTimer (s : BaseTimer (WorkerTimer ω)) (duration times : Int32)
    (serviceid : UInt32) : Option (BaseTimer (WorkerTimer ω) × Repeated ω) := do
  let r ← s.child.repeatTimer duration times serviceid
  some ({ s with child := r.child }.insertAll r.armed, r)

/-! ## What one call does -/

variable {handler : Handler ω} {id : TimerId}

theorem freshId_isNone (timers : TimerId → Option WorkerTimerContext) (fuel : Nat) :
    ∀ uuid id, freshId timers fuel uuid = some id → timers id = none := by
  induction fuel with
  | zero => intro uuid id h; simp [freshId] at h
  | succ fuel ih =>
    intro uuid id h
    rw [freshId] at h
    split at h
    · exact ih _ _ h
    next hnone =>
      rw [Option.some.injEq] at h
      subst h
      simpa using hnone

/-- A call of `repeat` changes nothing, or makes an entry under an id not in use. -/
theorem repeatTimer_cases {c : WorkerTimer ω} {duration times : Int32} {serviceid : UInt32}
    {r : Repeated ω} (h : c.repeatTimer duration times serviceid = some r) :
    r = ⟨c, [], 0⟩ ∨
    ∃ ctx, c.timers r.id = none ∧ ctx.times = (if times ≤ 0 then Flag.infinite.value else times) ∧
      r.child.timers = Function.update c.timers r.id (some ctx) ∧
      r.child.log = c.log ++ [.arm r.id duration times serviceid] ∧
      r.child.onTimerSet = c.onTimerSet ∧ r.armed = [(ctx.duration.toInt, r.id)] := by
  unfold repeatTimer at h
  split at h
  · rw [Option.some.injEq] at h
    exact Or.inl h.symm
  · simp only [Option.bind_eq_bind, Option.bind_eq_some_iff, Option.some.injEq] at h
    obtain ⟨uuid, hfresh, rfl⟩ := h
    exact Or.inr ⟨⟨_, _, serviceid, (clamp duration).2⟩, freshId_isNone _ _ _ _ hfresh, rfl, rfl, rfl,
      rfl, rfl⟩

theorem remove_timers (c : WorkerTimer ω) (id : TimerId) :
    (c.remove id).timers = Function.update c.timers id ((c.timers id).map (·.setFlag .removed)) ∧
      (c.remove id).log = c.log ++ [.of id .remove] ∧ (c.remove id).onTimerSet = c.onTimerSet := by
  unfold WorkerTimer.remove
  cases h : c.timers id with
  | none => exact ⟨(Function.update_eq_self_iff.mpr h.symm).symm, rfl, rfl⟩
  | some ctx => exact ⟨rfl, rfl, rfl⟩

/-- **The rule of programs.** -/
theorem Prog.run_rule {Q : WorkerTimer ω → WorkerTimer ω → List (Int × TimerId) → Prop}
    (hdone : ∀ c world, Q c { c with world := world } [])
    (hrepeat : ∀ c duration times serviceid r c' armed,
      c.repeatTimer duration times serviceid = some r → Q r.child c' armed → Q c c' (r.armed ++ armed))
    (hremove : ∀ c id c' armed, Q (c.remove id) c' armed → Q c c' armed) (p : Prog ω) :
    ∀ {c c' : WorkerTimer ω} {armed}, p.run c = some (c', armed) → Q c c' armed := by
  induction p with
  | done world =>
    intro c c' armed h
    simp only [Prog.run, Option.some.injEq, Prod.mk.injEq] at h
    obtain ⟨rfl, rfl⟩ := h
    exact hdone c world
  | repeatTimer duration times serviceid next ih =>
    intro c c' armed h
    simp only [Prog.run, Option.bind_eq_bind, Option.bind_eq_some_iff, Option.some.injEq,
      Prod.mk.injEq, Prod.exists] at h
    obtain ⟨r, hr, c1, armed1, h1, rfl, rfl⟩ := h
    exact hrepeat c duration times serviceid r c1 armed1 hr (ih r.id h1)
  | remove id next ih =>
    intro c c' armed h
    exact hremove c id c' armed (ih h)

theorem callback_some {sid : UInt32} {remove : Bool} {c : WorkerTimer ω}
    {p : WorkerTimer ω × List (Int × TimerId)} (h : callback handler id sid remove c = some p) :
    (handler c.world id sid remove).run (c.note (.of id (.call remove))) = some p := by
  unfold callback at h
  split at h
  · simp at h
  · exact h

theorem giveUp_some {sid : UInt32} {armed : List (Int × TimerId)} {c : WorkerTimer ω}
    {r : Fired (WorkerTimer ω)} (h : giveUp handler id sid armed c = some r) :
    ∃ c' armed', callback handler id sid true c = some (c', armed') ∧
      r = ⟨c'.put id none, armed ++ armed', 0⟩ := by
  simp only [giveUp, Option.bind_eq_bind, Option.bind_eq_some_iff, Option.some.injEq,
    Prod.exists] at h
  obtain ⟨c', armed', hcall, rfl⟩ := h
  exact ⟨c', armed', hcall, rfl⟩

/-- Everything a call of `on_timer` can be. -/
inductive Expiry (handler : Handler ω) (c : WorkerTimer ω) (id : TimerId) :
    Fired (WorkerTimer ω) → Prop
  | unknown : c.timers id = none → Expiry handler c id ⟨c.note (.of id .expire), [], 0⟩
  | removed {ctx r} : c.timers id = some ctx → ctx.hasFlag .removed = true →
      giveUp handler id ctx.serviceid [] (c.note (.of id .expire)) = some r → Expiry handler c id r
  | infinite {ctx ctx' c' armed} : c.timers id = some ctx → ctx.hasFlag .removed = false →
      callback handler id ctx.serviceid false (c.note (.of id .expire)) = some (c', armed) →
      c'.timers id = some ctx' → ctx'.hasFlag .infinite = true →
      Expiry handler c id ⟨c', armed, ctx'.duration.toInt⟩
  | again {ctx ctx' c' armed} : c.timers id = some ctx → ctx.hasFlag .removed = false →
      callback handler id ctx.serviceid false (c.note (.of id .expire)) = some (c', armed) →
      c'.timers id = some ctx' → ctx'.hasFlag .infinite = false →
      (ctx'.setTimes (ctx'.times - 1)).1 = true →
      Expiry handler c id
        ⟨c'.put id (some (ctx'.setTimes (ctx'.times - 1)).2), armed, ctx'.duration.toInt⟩
  | last {ctx ctx' c' armed r} : c.timers id = some ctx → ctx.hasFlag .removed = false →
      callback handler id ctx.serviceid false (c.note (.of id .expire)) = some (c', armed) →
      c'.timers id = some ctx' → ctx'.hasFlag .infinite = false →
      (ctx'.setTimes (ctx'.times - 1)).1 = false →
      giveUp handler id ctx'.serviceid armed
        (c'.put id (some (ctx'.setTimes (ctx'.times - 1)).2)) = some r →
      Expiry handler c id r

theorem onTimer_cases {c : WorkerTimer ω} {r : Fired (WorkerTimer ω)}
    (h : onTimer handler c id = some r) : Expiry handler c id r := by
  unfold onTimer at h
  simp only at h
  split at h
  next hnone =>
    rw [Option.some.injEq] at h
    exact h ▸ .unknown hnone
  next ctx hctx =>
    cases hr : ctx.hasFlag .removed with
    | true =>
      simp only [hr, Bool.not_true, Bool.false_eq_true, if_false] at h
      exact .removed hctx hr h
    | false =>
      simp only [hr, Bool.not_false, if_true, Option.bind_eq_bind, Option.bind_eq_some_iff,
        Prod.exists] at h
      obtain ⟨c', armed, hcall, h⟩ := h
      split at h
      · simp at h
      next ctx' hctx' =>
        cases hi : ctx'.hasFlag .infinite with
        | true =>
          rw [if_pos hi, Option.some.injEq] at h
          exact h ▸ .infinite hctx hr hcall hctx' hi
        | false =>
          rw [if_neg (by rw [hi]; decide)] at h
          split at h
          next hmore =>
            rw [Option.some.injEq] at h
            exact h ▸ .again hctx hr hcall hctx' hi hmore
          next hmore => exact .last hctx hr hcall hctx' hi (Bool.not_eq_true _ ▸ hmore) h

end HappyServer.Timer
