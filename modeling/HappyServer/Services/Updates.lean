import HappyServer.Lib.Fair
import HappyServer.Lib.Runs
import HappyServer.Lib.Tally
import Mathlib.Data.List.Basic

/-!
# `worker::update` (`core/worker.cpp`)

Any number of threads `ι` call `worker::update`; in the source it is the thread in `server::run`, once a
tick.  The worker's thread takes the tasks of `queue_`.  `update_state_` is to keep the updates of the
timers from heaping up in `queue_`.

* `other` tasks are those of the other methods.  One that handles messages calls `timer_.update()` after
  each (`handle`), and one can make the worker exit.
* `readings` is not in the source: what `timer_.update()` read of `server::now()`.
* `server::run` stores any reading of the clock in `now_`: Lua can set it back with `time_offset`.

    at most one update in queue_, and the worker updates again and again          (updates_forever)
-/

namespace HappyServer.Services.Updates

inductive Task where
  | update
  | other
deriving DecidableEq

/-- Where the worker's thread is. -/
inductive Pc where
  | loop
  | task (t : Task)
  /-- `timer_.update()` has returned; `update_state_.clear` is next -/
  | updated
  | exited
deriving DecidableEq

structure State (ι : Type) where
  now_ : Int := 0
  update_state_ : Bool := false
  queue_ : List Task := []
  /-- after `test_and_set` gave false, before `emplace_back` -/
  posting : ι → Bool := fun _ => false
  thread : Pc := .loop
  readings : List Int := []

inductive Action (ι : Type) where
  /-- `now_ = time::now()` -/
  | now (t : Int)
  | testAndSet (i : ι)
  | emplaceBack (i : ι)
  /-- another method posts a task -/
  | post
  /-- `timer_.update()` in `handle_one` -/
  | handle
  /-- the worker's next step; `exit` is what an `other` task makes of `state_` -/
  | work (exit : Bool)

variable {ι : Type} [DecidableEq ι]

def work (s : State ι) (exit : Bool) : Option (State ι) :=
  match s.thread with
  | .loop =>
    match s.queue_ with
    | [] => none
    | t :: queue_ => some { s with queue_ := queue_, thread := .task t }
  | .task .update => some { s with readings := s.readings ++ [s.now_], thread := .updated }
  | .task .other => some { s with thread := if exit then .exited else .loop }
  | .updated => some { s with update_state_ := false, thread := .loop }
  | .exited => none

def step (s : State ι) : Action ι → Option (State ι)
  | .now t => some { s with now_ := t }
  | .testAndSet i =>
    if s.posting i then none
    else some { s with
      update_state_ := true
      posting := Function.update s.posting i (!s.update_state_) }
  | .emplaceBack i =>
    if s.posting i then some { s with
      queue_ := s.queue_ ++ [.update]
      posting := Function.update s.posting i false }
    else none
  | .post => some { s with queue_ := s.queue_ ++ [.other] }
  | .handle =>
    if s.thread = .task .other then some { s with readings := s.readings ++ [s.now_] } else none
  | .work exit => work s exit

def updates (ι : Type) [DecidableEq ι] : System (State ι) (Action ι) where
  start s := s = {}
  step s a s' := step s a = some s'

/-! ## At most one -/

/-- An update was taken and `update_state_` is not cleared yet. -/
def Pc.updating : Pc → Bool
  | .task .update | .updated => true
  | _ => false

/-- `update_state_` is set for one update, wherever it is. -/
structure Inv [Fintype ι] (s : State ι) : Prop where
  one : tally id s.posting + s.queue_.count .update + s.thread.updating.toNat = s.update_state_.toNat

section Inv

variable [Fintype ι] {s s' : State ι} {a : Action ι} {exit : Bool}

omit [DecidableEq ι] in
theorem inv_start : Inv ({} : State ι) where
  one := by simp [Pc.updating]

/-- Everything a step of the worker's thread can be. -/
inductive Worked (s : State ι) : State ι → Prop
  | take {t queue_} : s.thread = .loop → s.queue_ = t :: queue_ →
      Worked s { s with queue_ := queue_, thread := .task t }
  | update : s.thread = .task .update →
      Worked s { s with readings := s.readings ++ [s.now_], thread := .updated }
  | other {p} : s.thread = .task .other → p = .exited ∨ p = .loop → Worked s { s with thread := p }
  | clear : s.thread = .updated → Worked s { s with update_state_ := false, thread := .loop }

omit [DecidableEq ι] [Fintype ι] in
theorem work_cases (h : work s exit = some s') : Worked s s' := by
  unfold work at h
  split at h
  next hthread =>
    split at h
    · cases h
    next hqueue =>
      cases h
      exact .take hthread hqueue
  next hthread =>
    cases h
    exact .update hthread
  next hthread =>
    cases h
    refine .other hthread ?_
    cases exit
    · exact .inr rfl
    · exact .inl rfl
  next hthread =>
    cases h
    exact .clear hthread
  · cases h

omit [DecidableEq ι] in
theorem Inv.work (h : Inv s) (hwork : Worked s s') : Inv s' := by
  have hone := h.one
  constructor
  cases hwork with
  | @take t queue_ hthread hqueue =>
    rw [hthread, hqueue] at hone
    cases t with
    | update =>
      rw [List.count_cons_self] at hone
      simp only [Pc.updating, Bool.toNat_false, Bool.toNat_true] at hone ⊢
      omega
    | other =>
      rw [List.count_cons_of_ne (by decide)] at hone
      exact hone
  | update hthread =>
    rw [hthread] at hone
    exact hone
  | other hthread hp =>
    rw [hthread] at hone
    obtain rfl | rfl := hp <;> exact hone
  | clear hthread =>
    rw [hthread] at hone
    have hflag := Bool.toNat_le s.update_state_
    simp only [Pc.updating, Bool.toNat_false, Bool.toNat_true] at hone ⊢
    omega

theorem Inv.step (h : Inv s) (hstep : step s a = some s') : Inv s' := by
  have hone := h.one
  cases a with
  | now t =>
    cases hstep
    exact ⟨hone⟩
  | testAndSet i =>
    obtain ⟨hi, hs⟩ := Option.ite_none_left_eq_some.mp hstep
    cases hs
    constructor
    have hmove := tally_update id s.posting i (!s.update_state_)
    rw [Bool.not_eq_true] at hi
    show tally id (Function.update s.posting i (!s.update_state_)) + _ + _ = _
    cases hflag : s.update_state_ with
    | false =>
      rw [hi, hflag] at hmove
      rw [hflag] at hone
      simp only [id, Bool.toNat_false, Bool.toNat_true, Bool.not_false] at hmove hone ⊢
      omega
    | true =>
      rw [hi, hflag] at hmove
      rw [hflag] at hone
      simp only [id, Bool.toNat_false, Bool.toNat_true, Bool.not_true] at hmove hone ⊢
      omega
  | emplaceBack i =>
    obtain ⟨hi, hs⟩ := Option.ite_none_right_eq_some.mp hstep
    cases hs
    constructor
    have hmove := tally_update id s.posting i false
    rw [hi] at hmove
    show tally id (Function.update s.posting i false) + (s.queue_ ++ [Task.update]).count Task.update +
      s.thread.updating.toNat = s.update_state_.toNat
    rw [List.count_append, List.count_singleton_self]
    simp only [id, Bool.toNat_true, Bool.toNat_false] at hmove
    omega
  | post =>
    cases hstep
    constructor
    show _ + (s.queue_ ++ [Task.other]).count Task.update + _ = _
    rw [List.count_append, show [Task.other].count Task.update = 0 by decide]
    exact hone
  | handle =>
    obtain ⟨-, hs⟩ := Option.ite_none_right_eq_some.mp hstep
    cases hs
    exact ⟨hone⟩
  | work exit => exact h.work (work_cases hstep)

theorem inv_of_reach (h : (updates ι).Reach s) : Inv s := by
  refine h.invariant ?_ fun s a s' _ hs hstep => hs.step hstep
  rintro s rfl
  exact inv_start

end Inv

/-! ## Again and again -/

/-- A run that goes on: the worker's thread does not stop while it has a task, a thread in `update`
returns, and `update` is called again and again. -/
structure FairRun (run : Nat → State ι) (act : Nat → Option (Action ι)) : Prop where
  start : run 0 = {}
  step : ∀ n a, act n = some a → step (run n) a = some (run (n + 1))
  stay : ∀ n, act n = none → run (n + 1) = run n
  worker : ∀ n, ∃ k, n ≤ k ∧ ((∃ exit, act k = some (.work exit)) ∨
    ((run k).thread = .loop ∧ (run k).queue_ = []) ∨ (run k).thread = .exited)
  caller : ∀ n i, (run n).posting i = true → ∃ k, n ≤ k ∧ act k = some (.emplaceBack i)
  calls : ∀ n, ∃ k, n ≤ k ∧ ∃ i, act k = some (.testAndSet i)

/-- The worker updates its timers, or has a task for that. -/
def State.awake (s : State ι) : Prop := s.thread = .task .update ∨ .update ∈ s.queue_

/-- Steps of the worker until `timer_.update()`, at most. -/
def State.rank (s : State ι) : Nat :=
  match s.thread with
  | .task .update => 0
  | .loop => 1 + 2 * s.queue_.idxOf .update
  | _ => 2 + 2 * s.queue_.idxOf .update

section Steps

variable {s s' : State ι} {a : Action ι}

/-- What every step but the worker's leaves as it is. -/
theorem step_other (h : step s a = some s') (ha : ∀ exit, a ≠ .work exit) :
    s'.thread = s.thread ∧ (s'.queue_ = s.queue_ ∨ ∃ t, s'.queue_ = s.queue_ ++ [t]) := by
  cases a with
  | now t =>
    cases h
    exact ⟨rfl, .inl rfl⟩
  | testAndSet i =>
    obtain ⟨-, hs⟩ := Option.ite_none_left_eq_some.mp h
    cases hs
    exact ⟨rfl, .inl rfl⟩
  | emplaceBack i =>
    obtain ⟨-, hs⟩ := Option.ite_none_right_eq_some.mp h
    cases hs
    exact ⟨rfl, .inr ⟨_, rfl⟩⟩
  | post =>
    cases h
    exact ⟨rfl, .inr ⟨_, rfl⟩⟩
  | handle =>
    obtain ⟨-, hs⟩ := Option.ite_none_right_eq_some.mp h
    cases hs
    exact ⟨rfl, .inl rfl⟩
  | work exit => exact absurd rfl (ha exit)

/-- Only `update` sets `update_state_`. -/
theorem step_clear (h : step s a = some s') (ha : ∀ i, a ≠ .testAndSet i)
    (hclear : s.update_state_ = false) : s'.update_state_ = false := by
  cases a with
  | now t =>
    cases h
    exact hclear
  | testAndSet i => exact absurd rfl (ha i)
  | emplaceBack i =>
    obtain ⟨-, hs⟩ := Option.ite_none_right_eq_some.mp h
    cases hs
    exact hclear
  | post =>
    cases h
    exact hclear
  | handle =>
    obtain ⟨-, hs⟩ := Option.ite_none_right_eq_some.mp h
    cases hs
    exact hclear
  | work exit =>
    cases work_cases h with
    | clear => rfl
    | _ => exact hclear

theorem awake_other (h : step s a = some s') (ha : ∀ exit, a ≠ .work exit) (hawake : s.awake) :
    s'.awake ∧ s'.rank = s.rank := by
  obtain ⟨hthread, hqueue⟩ := step_other h ha
  unfold State.awake State.rank at *
  rw [hthread]
  obtain hupdate | hmem := hawake
  · rw [hupdate]
    exact ⟨.inl rfl, rfl⟩
  · obtain hqueue | ⟨t, hqueue⟩ := hqueue
    · rw [hqueue]
      exact ⟨.inr hmem, rfl⟩
    · rw [hqueue, List.idxOf_append_of_mem hmem]
      exact ⟨.inr (List.mem_append_left _ hmem), rfl⟩

omit [DecidableEq ι] in
theorem awake_work (hawake : s.awake) (h : Worked s s') :
    s.thread = .task .update ∨ s'.thread = .exited ∨ (s'.awake ∧ s'.rank < s.rank) := by
  cases h with
  | @take t queue_ hthread hqueue =>
    have hmem : .update ∈ t :: queue_ := by
      rw [← hqueue]
      exact hawake.resolve_left (by rw [hthread]; decide)
    refine .inr (.inr ?_)
    unfold State.awake State.rank
    rw [hthread, hqueue]
    cases t with
    | update => exact ⟨.inl rfl, by simp⟩
    | other =>
      refine ⟨.inr ((List.mem_cons.mp hmem).resolve_left (by decide)), ?_⟩
      rw [List.idxOf_cons_ne _ (by decide)]
      simp only
      omega
  | update hthread => exact .inl hthread
  | @other p hthread hp =>
    obtain rfl | rfl := hp
    · exact .inr (.inl rfl)
    · have hmem := hawake.resolve_left (by rw [hthread]; decide)
      refine .inr (.inr ⟨.inr hmem, ?_⟩)
      unfold State.rank
      rw [hthread]
      simp only
      omega
  | clear hthread =>
    have hmem := hawake.resolve_left (by rw [hthread]; decide)
    refine .inr (.inr ⟨.inr hmem, ?_⟩)
    unfold State.rank
    rw [hthread]
    simp only
    omega

end Steps

section Run

variable [Fintype ι] {run : Nat → State ι} {act : Nat → Option (Action ι)} {n : Nat} {i : ι}

theorem FairRun.inv (hf : FairRun run act) (n : Nat) : Inv (run n) := by
  induction n with
  | zero =>
    rw [hf.start]
    exact inv_start
  | succ n ih =>
    cases ha : act n with
    | none => rwa [hf.stay n ha]
    | some a => exact ih.step (hf.step n a ha)

omit [Fintype ι] in
/-- What all steps of others keep is there when the worker's thread makes its next one. -/
theorem FairRun.until_work (hf : FairRun run act) {I : State ι → Prop} (hI : I (run n))
    (hstep : ∀ {s s' a}, I s → Updates.step s a = some s' → (∀ exit, a ≠ .work exit) → I s') :
    ∃ k, n ≤ k ∧ I (run k) ∧ (Worked (run k) (run (k + 1)) ∨
      ((run k).thread = .loop ∧ (run k).queue_ = []) ∨ (run k).thread = .exited) := by
  have hkeep : ∀ k, n ≤ k → I (run k) → ¬((∃ exit, act k = some (.work exit)) ∨
      ((run k).thread = .loop ∧ (run k).queue_ = []) ∨ (run k).thread = .exited) → I (run (k + 1)) := by
    intro k _ hIk hnot
    cases ha : act k with
    | none => rwa [hf.stay k ha]
    | some a =>
      refine hstep hIk (hf.step k a ha) fun exit heq => hnot (.inl ⟨exit, ?_⟩)
      rw [ha, heq]
  obtain ⟨k, hk, hstop, hIk⟩ := Fair.holds_until n hI hkeep (hf.worker n)
  refine ⟨k, hk, hIk, hstop.imp_left ?_⟩
  rintro ⟨exit, hact⟩
  exact work_cases (hf.step k _ hact)

omit [Fintype ι] in
/-- The task in `queue_` is taken and run. -/
theorem FairRun.reads (hf : FairRun run act) (hlive : ∀ k, n ≤ k → (run k).thread ≠ .exited)
    (hawake : (run n).awake) : ∃ k, n ≤ k ∧ (run k).thread = .task .update ∧
      (run (k + 1)).readings = (run k).readings ++ [(run k).now_] := by
  have hnear : ∀ m, n ≤ m ∧ (run m).awake → ∃ k, m ≤ k ∧ ((n ≤ k ∧ (run k).thread = .task .update ∧
      (run (k + 1)).readings = (run k).readings ++ [(run k).now_]) ∨
      ((n ≤ k ∧ (run k).awake) ∧ (run k).rank < (run m).rank)) := by
    rintro m ⟨hm, hawake⟩
    obtain ⟨k, hk, ⟨hawake', hrank⟩, hwork⟩ := hf.until_work (n := m)
      (I := fun s => s.awake ∧ s.rank = (run m).rank) ⟨hawake, rfl⟩ fun hI hstep ha => by
        obtain ⟨hawake', hrank⟩ := awake_other hstep ha hI.1
        exact ⟨hawake', hrank.trans hI.2⟩
    have hnk : n ≤ k := by omega
    obtain hwork | ⟨hloop, hempty⟩ | hexited := hwork
    · obtain hthread | hexited | ⟨hawake'', hlt⟩ := awake_work hawake' hwork
      · refine ⟨k, hk, .inl ⟨hnk, hthread, ?_⟩⟩
        generalize run (k + 1) = s' at hwork ⊢
        cases hwork with
        | take h => rw [hthread] at h; cases h
        | update h => rfl
        | other h => rw [hthread] at h; cases h
        | clear h => rw [hthread] at h; cases h
      · exact absurd hexited (hlive (k + 1) (by omega))
      · exact ⟨k + 1, by omega, .inr ⟨⟨by omega, hawake''⟩, by omega⟩⟩
    · obtain hupdate | hmem := hawake'
      · rw [hloop] at hupdate
        cases hupdate
      · rw [hempty] at hmem
        cases hmem
    · exact absurd hexited (hlive k hnk)
  obtain ⟨k, -, hread⟩ := Fair.eventually_of_rank (fun m => (run m).rank) hnear n ⟨Nat.le_refl n, hawake⟩
  exact ⟨k, hread⟩

omit [Fintype ι] in
theorem FairRun.awake_of_posting (hf : FairRun run act) (hi : (run n).posting i = true) :
    ∃ k, n ≤ k ∧ (run k).awake := by
  obtain ⟨k, hk, hact⟩ := hf.caller n i hi
  obtain ⟨-, hs⟩ := Option.ite_none_right_eq_some.mp (hf.step k _ hact)
  refine ⟨k + 1, by omega, .inr ?_⟩
  rw [← Option.some.inj hs]
  exact List.mem_append_right _ (List.mem_singleton_self _)

omit [Fintype ι] in
/-- While `update_state_` is clear, the next call posts a task. -/
theorem FairRun.awake_of_clear (hf : FairRun run act) (hflag : (run n).update_state_ = false) :
    ∃ k, n ≤ k ∧ (run k).awake := by
  have hkeep : ∀ k, n ≤ k → (run k).update_state_ = false → ¬(∃ i, act k = some (.testAndSet i)) →
      (run (k + 1)).update_state_ = false := by
    intro k _ hclear hnot
    cases ha : act k with
    | none => rwa [hf.stay k ha]
    | some a => exact step_clear (hf.step k a ha) (fun i heq => hnot ⟨i, by rw [ha, heq]⟩) hclear
  obtain ⟨k, hk, ⟨i, hact⟩, hclear⟩ := Fair.holds_until n hflag hkeep (hf.calls n)
  obtain ⟨-, hs⟩ := Option.ite_none_left_eq_some.mp (hf.step k _ hact)
  have hposting : (run (k + 1)).posting i = true := by
    rw [← Option.some.inj hs]
    simp [hclear]
  obtain ⟨m, hm, hawake⟩ := hf.awake_of_posting hposting
  exact ⟨m, by omega, hawake⟩

theorem FairRun.eventually_awake (hf : FairRun run act)
    (hlive : ∀ k, n ≤ k → (run k).thread ≠ .exited) : ∃ k, n ≤ k ∧ (run k).awake := by
  cases hflag : (run n).update_state_ with
  | false => exact hf.awake_of_clear hflag
  | true =>
    -- the update for which it is set
    have hone := (hf.inv n).one
    rw [hflag, Bool.toNat_true] at hone
    by_cases hposting : ∃ i, (run n).posting i = true
    · obtain ⟨i, hi⟩ := hposting
      exact hf.awake_of_posting hi
    by_cases hqueue : .update ∈ (run n).queue_
    · exact ⟨n, Nat.le_refl n, .inr hqueue⟩
    have hnone : tally id (run n).posting = 0 :=
      tally_eq_zero.mpr fun i => by simpa using not_exists.mp hposting i
    rw [hnone, List.count_eq_zero_of_not_mem hqueue] at hone
    cases hthread : (run n).thread with
    | task t =>
      cases t with
      | update => exact ⟨n, Nat.le_refl n, .inl hthread⟩
      | other => simp [hthread, Pc.updating] at hone
    | updated =>
      obtain ⟨k, hk, hupdated, hwork⟩ := hf.until_work (n := n) (I := fun s => s.thread = .updated)
        hthread fun hI hstep ha => (step_other hstep ha).1.trans hI
      obtain hwork | ⟨hloop, -⟩ | hexited := hwork
      · have hclear : (run (k + 1)).update_state_ = false := by
          generalize run (k + 1) = s' at hwork ⊢
          cases hwork with
          | take h => rw [hupdated] at h; cases h
          | update h => rw [hupdated] at h; cases h
          | other h => rw [hupdated] at h; cases h
          | clear h => rfl
        obtain ⟨m, hm, hawake⟩ := hf.awake_of_clear hclear
        exact ⟨m, by omega, hawake⟩
      · rw [hupdated] at hloop
        cases hloop
      · exact absurd hexited (hlive k hk)
    | loop => simp [hthread, Pc.updating] at hone
    | exited => exact absurd hthread (hlive n (Nat.le_refl n))

/-- **Updates neither heap up nor stop.**  Whatever threads call `update` and however their steps and the
worker's interleave, `queue_` holds at most one update, so that a worker that is busy or has exited gets
no more of them; and in a fair run the timers are updated again and again until the worker exits, however
many calls of `update` found `update_state_` set. -/
theorem updates_forever (ι : Type) [DecidableEq ι] [Fintype ι] :
    (∀ s, (updates ι).Reach s → s.queue_.count .update ≤ 1) ∧
      ∀ (run : Nat → State ι) (act : Nat → Option (Action ι)), FairRun run act →
        (∃ n, (run n).thread = .exited) ∨ ∀ n, ∃ k, n ≤ k ∧ (run k).thread = .task .update ∧
          (run (k + 1)).readings = (run k).readings ++ [(run k).now_] := by
  refine ⟨fun s h => ?_, fun run act hf => ?_⟩
  · have hone := (inv_of_reach h).one
    have hflag := Bool.toNat_le s.update_state_
    omega
  · by_cases hexited : ∃ n, (run n).thread = .exited
    · exact .inl hexited
    · have hlive : ∀ k, (run k).thread ≠ .exited := not_exists.mp hexited
      refine .inr fun n => ?_
      obtain ⟨k, hk, hawake⟩ := hf.eventually_awake (n := n) fun k _ => hlive k
      obtain ⟨m, hm, hread⟩ := hf.reads (n := k) (fun k _ => hlive k) hawake
      exact ⟨m, by omega, hread⟩

/-! ### A run -/

/-- The clock goes back every other time. -/
def clock (m : Nat) : Int := if m % 2 = 0 then 5 else 3

def readingsOf (m : Nat) : List Int := (List.range m).map clock

/-- The clock is read, one thread calls `update`, the worker takes the task and runs it. -/
def stage (m : Nat) : Nat → State Unit
  | 0 => { now_ := if m = 0 then 0 else clock (m - 1), readings := readingsOf m }
  | 1 => { now_ := clock m, readings := readingsOf m }
  | 2 => { now_ := clock m, readings := readingsOf m, update_state_ := true, posting := fun _ => true }
  | 3 => { now_ := clock m, readings := readingsOf m, update_state_ := true, queue_ := [.update] }
  | 4 => { now_ := clock m, readings := readingsOf m, update_state_ := true, thread := .task .update }
  | _ => { now_ := clock m, readings := readingsOf (m + 1), update_state_ := true, thread := .updated }

def stageAct (m : Nat) : Nat → Action Unit
  | 0 => .now (clock m)
  | 1 => .testAndSet ()
  | 2 => .emplaceBack ()
  | _ => .work false

/-- And so on. -/
def cycle (n : Nat) : State Unit := stage (n / 6) (n % 6)

theorem stage_step (m : Nat) :
    ∀ r, r < 5 → step (stage m r) (stageAct m r) = some (stage m (r + 1))
  | 0, _ => rfl
  | 1, _ => rfl
  | 2, _ => rfl
  | 3, _ => rfl
  | 4, _ => by simp [step, work, stage, stageAct, readingsOf, List.range_succ]

theorem cycle_step (n : Nat) : step (cycle n) (stageAct (n / 6) (n % 6)) = some (cycle (n + 1)) := by
  by_cases hlast : n % 6 = 5
  · have hdiv : (n + 1) / 6 = n / 6 + 1 := by omega
    have hmod : (n + 1) % 6 = 0 := by omega
    unfold cycle
    rw [hlast, hdiv, hmod]
    rfl
  · have hdiv : (n + 1) / 6 = n / 6 := by omega
    have hmod : (n + 1) % 6 = n % 6 + 1 := by omega
    unfold cycle
    rw [hdiv, hmod]
    exact stage_step _ _ (by omega)

theorem cycle_fair : FairRun cycle fun n => some (stageAct (n / 6) (n % 6)) where
  start := rfl
  step n a ha := by
    rw [← Option.some.inj ha]
    exact cycle_step n
  stay n ha := by cases ha
  worker n := ⟨6 * n + 3, by omega, .inl ⟨false, by rw [Nat.mul_add_mod]; rfl⟩⟩
  caller n i _ := ⟨6 * n + 2, by omega, by rw [Nat.mul_add_mod]; rfl⟩
  calls n := ⟨6 * n + 1, by omega, (), by rw [Nat.mul_add_mod]; rfl⟩

theorem cycle_reach (n : Nat) : (updates Unit).Reach (cycle n) := by
  induction n with
  | zero => exact System.Reach.start rfl
  | succ n ih => exact ih.step (cycle_step n)

theorem updates_forever_cycle :
    (∀ n, (cycle n).queue_.count .update ≤ 1) ∧
      ((∃ n, (cycle n).thread = .exited) ∨ ∀ n, ∃ k, n ≤ k ∧ (cycle k).thread = .task .update ∧
        (cycle (k + 1)).readings = (cycle k).readings ++ [(cycle k).now_]) :=
  ⟨fun n => (updates_forever Unit).1 _ (cycle_reach n),
    (updates_forever Unit).2 cycle (fun n => some (stageAct (n / 6) (n % 6))) cycle_fair⟩

end Run

end HappyServer.Services.Updates
