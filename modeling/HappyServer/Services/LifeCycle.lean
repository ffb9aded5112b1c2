import HappyServer.Lib.Runs
import HappyServer.Services.Worker

/-!
# The life cycle of the server (`core/server.cpp`, `happy.cpp`)

The main thread calls `init`, `run` and the destructor, and other threads call `stop`.  One step is
one write of `state_`, or something that another step waits for.

    state_ never goes back ⇐ no stop before run stores ready, and none after wait stores exited
                                                                        (forward_of_orderly)
    the first step that is out of this order takes it back              (back_of_not_orderly)

The workers are not here: the loop of `run` may end once they were asked to stop.
-/

namespace HappyServer.Services

/-- The order of the enumeration. -/
def State.rank : State → Nat
  | .unknown => 0
  | .init => 1
  | .ready => 2
  | .stopping => 3
  | .exited => 4

theorem State.rank_le_exited (s : State) : s.rank ≤ State.exited.rank := by
  cases s <;> decide

/-- What the main thread has done. -/
inductive Main where
  | constructed
  | inited
  /-- `run` has stored `ready` and is in its loop -/
  | running
  /-- `run` is in its `wait` -/
  | waiting
  | ran
  /-- the destructor is in its `wait` -/
  | destroying
  | destroyed
deriving DecidableEq

/-- A `wait` has stored `exited`. -/
def Main.waited : Main → Bool
  | .ran => true
  | .destroying => true
  | .destroyed => true
  | _ => false

structure LifeCycle where
  state_ : State := .unknown
  main : Main := .constructed
  /-- the exchanges of `stop` that have been done -/
  stops : Nat := 0
  /-- the calls of `stop` that go on to the workers -/
  posting : Nat := 0
  /-- the workers have a task to stop -/
  asked : Bool := false
deriving DecidableEq

inductive Event where
  | init
  | run
  /-- all workers have stopped -/
  | endLoop
  | wait
  /-- the destructor begins, with its `stop` -/
  | destroy
  /-- another thread calls `stop` -/
  | stop
  | post
deriving DecidableEq

namespace LifeCycle

/-- `state_.exchange(state::stopping)`, and the test of what it was. -/
def exchange (s : LifeCycle) : LifeCycle :=
  { s with
    state_ := .stopping
    stops := s.stops + 1
    posting := if s.state_.rank > State.ready.rank then s.posting else s.posting + 1 }

def step (s : LifeCycle) : Event → Option LifeCycle
  | .init => if s.main = .constructed then some { s with state_ := .init, main := .inited } else none
  | .run => if s.main = .inited then some { s with state_ := .ready, main := .running } else none
  | .endLoop => if s.main = .running ∧ s.asked then some { s with main := .waiting } else none
  | .wait =>
    match s.main with
    | .waiting => some { s with state_ := .exited, main := .ran }
    | .destroying => some { s with state_ := .exited, main := .destroyed }
    | _ => none
  | .destroy => if s.main = .ran then some { s.exchange with main := .destroying } else none
  | .stop => if s.main ≠ .constructed then some s.exchange else none
  | .post => if 0 < s.posting then some { s with posting := s.posting - 1, asked := true } else none

def system : System LifeCycle Event where
  start s := s = {}
  step s e s' := s.step e = some s'

/-- No `stop` comes before `run` stores `ready` or after `wait` stores `exited`. -/
def Orderly (s : LifeCycle) : Event → Prop
  | .run => s.stops = 0
  | .destroy => s.main.waited = false
  | .stop => s.main.waited = false
  | _ => True

/-! ## Steps -/

variable {s s' : LifeCycle} {e : Event}

inductive Stepped (s : LifeCycle) : Event → LifeCycle → Prop
  | init : s.main = .constructed → Stepped s .init { s with state_ := .init, main := .inited }
  | run : s.main = .inited → Stepped s .run { s with state_ := .ready, main := .running }
  | endLoop : s.main = .running → s.asked = true → Stepped s .endLoop { s with main := .waiting }
  | waitRun : s.main = .waiting → Stepped s .wait { s with state_ := .exited, main := .ran }
  | waitDestructor : s.main = .destroying →
      Stepped s .wait { s with state_ := .exited, main := .destroyed }
  | destroy : s.main = .ran → Stepped s .destroy { s.exchange with main := .destroying }
  | stop : s.main ≠ .constructed → Stepped s .stop s.exchange
  | post : 0 < s.posting → Stepped s .post { s with posting := s.posting - 1, asked := true }

theorem step_cases (h : s.step e = some s') : s.Stepped e s' := by
  unfold LifeCycle.step at h
  cases e with
  | wait =>
    dsimp only at h
    split at h
    next hmain => exact Option.some.inj h ▸ .waitRun hmain
    next hmain => exact Option.some.inj h ▸ .waitDestructor hmain
    · cases h
  | init =>
    obtain ⟨hmain, h⟩ := Option.ite_none_right_eq_some.mp h
    exact Option.some.inj h ▸ .init hmain
  | run =>
    obtain ⟨hmain, h⟩ := Option.ite_none_right_eq_some.mp h
    exact Option.some.inj h ▸ .run hmain
  | endLoop =>
    obtain ⟨hmain, h⟩ := Option.ite_none_right_eq_some.mp h
    exact Option.some.inj h ▸ .endLoop hmain.1 hmain.2
  | destroy =>
    obtain ⟨hmain, h⟩ := Option.ite_none_right_eq_some.mp h
    exact Option.some.inj h ▸ .destroy hmain
  | stop =>
    obtain ⟨hmain, h⟩ := Option.ite_none_right_eq_some.mp h
    exact Option.some.inj h ▸ .stop hmain
  | post =>
    obtain ⟨hposting, h⟩ := Option.ite_none_right_eq_some.mp h
    exact Option.some.inj h ▸ .post hposting

/-! ## Orderly runs -/

structure Inv (s : LifeCycle) : Prop where
  constructed : s.main = .constructed → s.state_ = .unknown ∧ s.stops = 0
  inited : s.main = .inited → s.state_ = if s.stops = 0 then .init else .stopping
  waited : s.main.waited = true → s.main = .ran ∧ s.state_ = .exited
  /-- until then it is at most `stopping` -/
  bound : s.main.waited = false → s.state_.rank ≤ State.stopping.rank

theorem Inv.step (h : s.Inv) (horderly : s.Orderly e) (hstep : s.Stepped e s') : s'.Inv := by
  cases hstep with
  | init hmain =>
    refine ⟨nofun, fun _ => ?_, nofun, fun _ => show State.init.rank ≤ _ by decide⟩
    exact (if_pos (h.constructed hmain).2).symm
  | run hmain => exact ⟨nofun, nofun, nofun, fun _ => show State.ready.rank ≤ _ by decide⟩
  | endLoop hmain => exact ⟨nofun, nofun, nofun, fun _ => h.bound (by rw [hmain]; rfl)⟩
  | waitRun hmain => exact ⟨nofun, nofun, fun _ => ⟨rfl, rfl⟩, nofun⟩
  | waitDestructor hmain =>
    -- the destructor cannot have begun
    have hran := (h.waited (by rw [hmain]; rfl)).1
    rw [hmain] at hran
    cases hran
  | destroy hmain =>
    have hwaited : s.main.waited = false := horderly
    rw [hmain] at hwaited
    cases hwaited
  | stop hmain =>
    have hwaited : s.main.waited = false := horderly
    refine ⟨fun h' => absurd h' hmain, fun _ => ?_, fun h' => ?_, fun _ => Nat.le_refl _⟩
    · exact (if_neg (Nat.succ_ne_zero s.stops)).symm
    · exact Bool.noConfusion (hwaited.symm.trans h')
  | post => exact ⟨h.constructed, h.inited, h.waited, h.bound⟩

theorem inv_of_reach (h : (system.restrict Orderly).Reach s) : s.Inv := by
  refine System.Reach.invariant (fun s hs => ?_) (fun s e s' _ hs hstep => ?_) h
  · rw [hs]
    exact ⟨fun _ => ⟨rfl, rfl⟩, nofun, nofun, fun _ => by decide⟩
  · exact hs.step hstep.1 (step_cases hstep.2)

theorem Inv.forward (h : s.Inv) (horderly : s.Orderly e) (hstep : s.Stepped e s') :
    s.state_.rank ≤ s'.state_.rank := by
  cases hstep with
  | init hmain =>
    rw [(h.constructed hmain).1]
    exact Nat.zero_le _
  | run hmain =>
    rw [h.inited hmain, if_pos (show s.stops = 0 from horderly)]
    show State.init.rank ≤ State.ready.rank
    decide
  | endLoop hmain => exact Nat.le_refl _
  | waitRun hmain => exact State.rank_le_exited s.state_
  | waitDestructor hmain => exact State.rank_le_exited s.state_
  | destroy hmain => exact h.bound horderly
  | stop hmain => exact h.bound horderly
  | post => exact Nat.le_refl _

/-- In an orderly run the state never goes back. -/
theorem forward_of_orderly (h : (system.restrict Orderly).Reach s)
    (hlater : Relation.ReflTransGen (system.restrict Orderly).Next s s') :
    s.state_.rank ≤ s'.state_.rank := by
  induction hlater with
  | refl => exact Nat.le_refl _
  | @tail s₁ s₂ hsteps hnext ih =>
    obtain ⟨e, horderly, hstep⟩ := hnext
    obtain ⟨s₀, hstart, hbefore⟩ := h
    have hreach : (system.restrict Orderly).Reach s₁ := ⟨s₀, hstart, hbefore.trans hsteps⟩
    exact ih.trans ((inv_of_reach hreach).forward horderly (step_cases hstep))

/-- The first step of a run that is not orderly takes the state back. -/
theorem back_of_not_orderly (h : (system.restrict Orderly).Reach s) (hdisorderly : ¬s.Orderly e)
    (hstep : s.step e = some s') : s'.state_.rank < s.state_.rank := by
  have hinv := inv_of_reach h
  have hexited : ¬s.main.waited = false → State.stopping.rank < s.state_.rank := by
    intro hwaited
    rw [(hinv.waited (Bool.not_eq_false _ ▸ hwaited)).2]
    decide
  cases step_cases hstep with
  | run hmain =>
    rw [hinv.inited hmain, if_neg (show s.stops ≠ 0 from hdisorderly)]
    show State.ready.rank < State.stopping.rank
    decide
  | destroy hmain => exact hexited hdisorderly
  | stop hmain => exact hexited hdisorderly
  | _ => exact absurd trivial hdisorderly

/-- A server is started, stopped from outside, and `run` returns. -/
theorem forward_stopped : ∃ s : LifeCycle, s.state_ = .exited ∧ State.ready.rank ≤ s.state_.rank := by
  have h₀ : (system.restrict Orderly).Reach ({} : LifeCycle) := System.Reach.start rfl
  have h₁ := h₀.step (a := Event.init) ⟨trivial, rfl⟩
  have h₂ := h₁.step (a := Event.run) ⟨rfl, rfl⟩
  have hlater : Relation.ReflTransGen (system.restrict Orderly).Next
      { state_ := .ready, main := .running }
      { state_ := .exited, main := .ran, stops := 1, asked := true } := by
    refine .head ⟨.stop, rfl, rfl⟩ (.head ⟨.post, trivial, rfl⟩ ?_)
    exact .head ⟨.endLoop, trivial, rfl⟩ (.single ⟨.wait, trivial, rfl⟩)
  exact ⟨_, rfl, forward_of_orderly h₂ hlater⟩

/-- A stop comes between `init` and `run`, which stores `ready` over it. -/
theorem not_forward : ¬∀ s s' : LifeCycle, system.Reach s →
    Relation.ReflTransGen system.Next s s' → s.state_.rank ≤ s'.state_.rank := by
  intro h
  have h₀ : system.Reach ({} : LifeCycle) := System.Reach.start rfl
  have h₁ := h₀.step (a := Event.init) rfl
  have h₂ := h₁.step (a := Event.stop) rfl
  have hback := h _ _ h₂ (.single ⟨.run, rfl⟩)
  exact absurd hback (by decide)

end LifeCycle

end HappyServer.Services
