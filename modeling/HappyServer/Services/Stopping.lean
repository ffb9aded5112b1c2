import HappyServer.Lib.Fair
import HappyServer.Services.Shutdown
import Mathlib.Data.Finset.Lattice.Fold
import Mathlib.Data.Fintype.Basic

/-!
# The server stops (`server::stop`, `worker::stop`, `server::run`)

What becomes of a call of `server::stop` in a run that goes on: the tasks of `stop` come to the
workers, a worker that has services tells them to exit and waits for their removals, and `run` waits
for the workers.

* `FairRun`: no thread stops where it could go on, and a service that is told to exit is removed or
  asks for it, as `service::exit` does.
* A worker with a task is never stuck: the text that tells of a removal fits.

    init or ready, then stop: run returns, and every service that was added is removed   (server_stops)
-/

namespace HappyServer.Services

open Server

namespace Station

variable {serverState : State} {t t' : Station}

/-- The thread has nothing to do. -/
def Rests (t : Station) : Prop :=
  t.pc = .absent ∨ t.pc = .idle ∧ (t.worker.state_ = .exited ∨ t.queue = [])

/-! ## A task in the queue -/

/-- Steps of the thread until it takes the next task. -/
def Pc.rank : Pc → Nat
  | .absent | .idle => 0
  | .begun | .added _ _ => 1
  | .adding _ _ => 2

theorem start_same (t : Station) : t.start.pc = t.pc ∧ t.start.queue = t.queue := by
  obtain ⟨services, starts, heq, -⟩ := start_from t
  rw [heq]
  exact ⟨rfl, rfl⟩

theorem stop_same (t : Station) : t.stop.pc = t.pc ∧ t.stop.queue = t.queue := by
  obtain ⟨state, atStop, exits, heq⟩ := stop_from t
  rw [heq]
  exact ⟨rfl, rfl⟩

/-- The thread takes the task when it has made `steps` steps, at most. -/
def Away (t : Station) (task : Task) (steps : Nat) : Prop :=
  ∃ ahead rest, t.queue = ahead ++ task :: rest ∧ t.pc ≠ .absent ∧
    3 * ahead.length + t.pc.rank = steps

theorem exists_away {task : Task} (hpc : t.pc ≠ .absent) (hmem : task ∈ t.queue) :
    ∃ steps, t.Away task steps := by
  obtain ⟨ahead, rest, hqueue⟩ := List.append_of_mem hmem
  exact ⟨_, ahead, rest, hqueue, hpc, rfl⟩

/-- The thread takes the task, or comes closer to it. -/
theorem Worked.away (h : Worked serverState t t') {task : Task} {steps : Nat}
    (haway : t.Away task steps) : (t.pc = .idle ∧ ∃ queue, t.queue = task :: queue) ∨
      ∃ steps', steps' < steps ∧ t'.Away task steps' := by
  obtain ⟨ahead, rest, hqueue, -, rfl⟩ := haway
  -- the thread is no farther from the next task than a creation is
  have htake : ∀ {first queue}, t.pc = .idle → t.queue = first :: queue → t'.queue = queue →
      t'.pc ≠ .absent → (t.pc = .idle ∧ ∃ queue, t.queue = task :: queue) ∨
        ∃ steps', steps' < 3 * ahead.length + t.pc.rank ∧ t'.Away task steps' := by
    intro first queue hpc hfirst hqueue' hpc'
    cases ahead with
    | nil => exact .inl ⟨hpc, rest, hqueue⟩
    | cons x ahead =>
      rw [hfirst, List.cons_append] at hqueue
      have hrank : t'.pc.rank ≤ 2 := by
        cases t'.pc <;> simp [Pc.rank]
      refine .inr ⟨_, ?_, ahead, rest, hqueue'.trans (List.cons.inj hqueue).2, hpc', rfl⟩
      rw [List.length_cons, hpc]
      show _ < 3 * (ahead.length + 1) + 0
      omega
  -- or it comes to the end of one
  have hgo : t'.queue = t.queue → t'.pc ≠ .absent → t'.pc.rank < t.pc.rank →
      (t.pc = .idle ∧ ∃ queue, t.queue = task :: queue) ∨
        ∃ steps', steps' < 3 * ahead.length + t.pc.rank ∧ t'.Away task steps' := fun hsame hpc hlt =>
    .inr ⟨_, Nat.add_lt_add_left hlt _, ahead, rest, hsame.trans hqueue, hpc, rfl⟩
  cases h with
  | begin hpc => exact hgo rfl nofun (by rw [hpc]; exact Nat.zero_lt_one)
  | create unique hpc hstate hfirst => exact htake hpc hfirst rfl nofun
  | remove hpc hstate hfirst hremove => exact htake hpc hfirst rfl (by rw [hpc]; nofun)
  | @stop queue hpc hstate hfirst =>
    obtain ⟨hpc', hqueue'⟩ := stop_same { t with queue := queue }
    exact htake hpc hfirst hqueue' (by rw [hpc', hpc]; nofun)
  | @start queue hpc hstate hfirst =>
    obtain ⟨hpc', hqueue'⟩ := start_same { t with queue := queue }
    exact htake hpc hfirst hqueue' (by rw [hpc', hpc]; nofun)
  | other hpc hstate hfirst => exact htake hpc hfirst rfl (by rw [hpc]; nofun)
  | @emplace a new hpc =>
    by_cases hrefused : t.Refused new
    · rw [emplace_refused hrefused] at hgo ⊢
      exact hgo rfl nofun (by rw [hpc]; exact Nat.zero_lt_two)
    · obtain ⟨s, number, rfl, hfree⟩ := not_refused hrefused
      rw [emplace_added hfree] at hgo ⊢
      exact hgo rfl nofun (by rw [hpc]; exact Nat.lt_succ_self _)
  | @look a serviceid hpc =>
    obtain ⟨services, starts, heq, -⟩ := look_from serverState t serviceid
    rw [heq] at hgo ⊢
    exact hgo rfl nofun (by rw [hpc]; exact Nat.zero_lt_one)

theorem stop_closing (t : Station) :
    t.stop.worker.state_ = .stopping ∨ t.stop.worker.state_ = .exited := by
  rcases stop_cases t with ⟨hstate, hstop⟩ | ⟨-, -, hstop⟩ | ⟨-, -, hstop⟩
  · rw [hstop]
    exact hstate
  · rw [hstop]
    exact .inr rfl
  · rw [hstop]
    exact .inl rfl

/-- What it takes is the first task. -/
theorem Worked.first (h : Worked serverState t t') (hpc : t.pc = .idle) {task : Task}
    {queue : List Task} (hqueue : t.queue = task :: queue) :
    (task = .stop → t' = { t with queue := queue }.stop) ∧
      ∀ serviceid sender sessionid, task = .removeService serviceid sender sessionid →
        t'.erased = if serviceid ∈ t.worker.services_ then t.erased ++ [t.number serviceid]
          else t.erased := by
  cases h with
  | begin hnot | emplace hnot | look hnot =>
    rw [hpc] at hnot
    cases hnot
  | create _ _ _ hfirst =>
    rw [hqueue] at hfirst
    cases hfirst
    exact ⟨nofun, nofun⟩
  | remove _ _ hfirst =>
    rw [hqueue] at hfirst
    cases hfirst
    refine ⟨nofun, ?_⟩
    rintro _ _ _ ⟨⟩
    rfl
  | stop _ _ hfirst =>
    rw [hqueue] at hfirst
    cases hfirst
    exact ⟨fun _ => rfl, nofun⟩
  | start _ _ hfirst | other _ _ hfirst =>
    rw [hqueue] at hfirst
    cases hfirst
    exact ⟨nofun, nofun⟩

/-- What all steps but the thread's leave of a worker. -/
structure Kept (t t' : Station) : Prop where
  pc : t.pc ≠ .absent → t'.pc = t.pc
  queue : t.queue <+: t'.queue

theorem kept_refl (t : Station) : Kept t t := ⟨fun _ => rfl, List.prefix_refl _⟩

theorem kept_post (t : Station) (task : Task) : Kept t (t.post task) :=
  ⟨fun _ => rfl, List.prefix_append _ _⟩

theorem Kept.away (h : Kept t t') {task : Task} {steps : Nat} (haway : t.Away task steps) :
    t'.Away task steps := by
  obtain ⟨ahead, rest, hqueue, hpc, rfl⟩ := haway
  obtain ⟨more, hmore⟩ := h.queue
  refine ⟨ahead, rest ++ more, ?_, ?_, ?_⟩
  · rw [← hmore, hqueue, List.append_assoc, List.cons_append]
  · rwa [h.pc hpc]
  · rw [h.pc hpc]

theorem Changed.present (h : Changed serverState t t') (hpc : t.pc ≠ .absent) : t'.pc ≠ .absent := by
  cases h with
  | begin => nofun
  | work hwork =>
    cases hwork with
    | remove hidle => rw [hidle]; nofun
    | @stop queue hidle => rw [(stop_same _).1, hidle]; nofun
    | @start queue hidle => rw [(start_same _).1, hidle]; nofun
    | other hidle => rw [hidle]; nofun
    | @emplace a new hadding =>
      by_cases hrefused : t.Refused new
      · rw [emplace_refused hrefused]; nofun
      · obtain ⟨s, number, rfl, hfree⟩ := not_refused hrefused
        rw [emplace_added hfree]
        nofun
    | _ => nofun
  | _ => exact hpc

/-! ## A worker that is stopping -/

/-- It loses a service, or keeps those it has. -/
theorem Worked.members (hwork : Worked serverState t t') (h : Sound t)
    (hstate : t.worker.state_ = .stopping ∨ t.worker.state_ = .exited) :
    t.erased.length < t'.erased.length ∨ t'.erased = t.erased ∧
      ∀ serviceid, serviceid ∈ t'.worker.services_ ↔ serviceid ∈ t.worker.services_ := by
  cases hwork with
  | begin hpc => exact .inr ⟨rfl, fun _ => Iff.rfl⟩
  | @create a queue unique hpc hexited hqueue =>
    obtain ⟨⟨uuid, huuid⟩, -⟩ := create_spec t.worker unique a.creation
    rw [huuid]
    exact .inr ⟨rfl, fun _ => Iff.rfl⟩
  | @remove serviceid _ _ queue _ _ _ hpc hexited hqueue hremove =>
    rw [removeService_worker hremove]
    by_cases hmem : serviceid ∈ t.worker.services_
    · left
      show _ < (if serviceid ∈ t.worker.services_ then t.erased ++ [t.number serviceid]
        else t.erased).length
      rw [if_pos hmem, List.length_append]
      exact Nat.lt_succ_self _
    · right
      refine ⟨if_neg hmem, fun other => ?_⟩
      show other ∈ t.worker.services_.erase serviceid ↔ _
      rw [erase_of_notMem hmem]
  | @stop queue hpc hexited hqueue =>
    obtain ⟨state, atStop, exits, heq⟩ := stop_from { t with queue := queue }
    rw [heq]
    exact .inr ⟨rfl, fun _ => Iff.rfl⟩
  | @start queue hpc hexited hqueue =>
    obtain ⟨services, starts, heq, hperm⟩ := start_from { t with queue := queue }
    rw [heq]
    refine .inr ⟨rfl, fun other => ?_⟩
    rw [AList.mem_keys, AList.mem_keys]
    exact hperm.mem_iff
  | other hpc hexited hqueue => exact .inr ⟨rfl, fun _ => Iff.rfl⟩
  | @emplace a new hpc =>
    have hrefused : t.Refused new := by
      rintro s number rfl
      have hready := (h.adding _ _ _ hpc).1
      rw [hready] at hstate
      simp at hstate
    rw [emplace_refused hrefused]
    exact .inr ⟨rfl, fun _ => Iff.rfl⟩
  | @look a serviceid hpc =>
    have hready := h.added _ _ hpc
    rw [hready] at hstate
    simp at hstate

theorem Changed.members (hchanged : Changed serverState t t') (h : Sound t)
    (hstate : t.worker.state_ = .stopping ∨ t.worker.state_ = .exited) :
    t.erased.length < t'.erased.length ∨ t'.erased = t.erased ∧
      ∀ serviceid, serviceid ∈ t'.worker.services_ ↔ serviceid ∈ t.worker.services_ := by
  cases hchanged with
  | work hwork => exact hwork.members h hstate
  | _ => exact .inr ⟨rfl, fun _ => Iff.rfl⟩

/-- It stays so, or exits. -/
theorem Orderly.closing (h : Orderly t t')
    (hstate : t.worker.state_ = .stopping ∨ t.worker.state_ = .exited) :
    t'.worker.state_ = .stopping ∨ t'.worker.state_ = .exited := by
  have hforward := h.forward
  rcases hstate with hstate | hstate
  · rw [hstate] at hforward
    generalize t'.worker.state_ = state at hforward
    cases hforward with
    | same => exact .inl rfl
    | settle => exact .inr rfl
  · rw [hstate] at hforward
    generalize t'.worker.state_ = state at hforward
    cases hforward
    exact .inr rfl

theorem Orderly.exited (h : Orderly t t') (hstate : t.worker.state_ = .exited) :
    t'.worker.state_ = .exited := by
  have hforward := h.forward
  rw [hstate] at hforward
  generalize t'.worker.state_ = state at hforward
  cases hforward
  rfl

end Station

namespace Host

variable {router : Router} {ι : Type} [DecidableEq ι] {configs : List Request}
  {s s' : Host router ι} {a : Action router ι}

/-! ## What a step leaves -/

omit [DecidableEq ι] in
theorem kept_setStation {i : Fin router.workers} {t : Station} (h : (s.station i).Kept t)
    (j : Fin router.workers) : (s.station j).Kept ((s.setStation i t).station j) := by
  by_cases hj : j = i
  · subst hj
    rw [setStation_self]
    exact h
  · rw [setStation_of_ne s t hj]
    exact Station.kept_refl _

/-- Only the thread of a worker takes its tasks. -/
theorem Stepped.kept (h : Stepped configs s a s') (j : Fin router.workers)
    (ha : ∀ fresh, a ≠ .work j fresh) : (s.station j).Kept (s'.station j) := by
  have hnew : ∀ (thread : Option ι) (r : Request) (configured : Bool),
      (s.station j).Kept ((s.newService thread r configured).station j) := by
    intro thread r configured
    rcases newService_cases s thread r configured with ⟨i, heq⟩ | heq
    · have hclaim : (s.station i).Kept (s.station i).claim := ⟨fun _ => rfl, List.prefix_refl _⟩
      rw [heq]
      exact kept_setStation hclaim j
    · rw [heq]
      exact Station.kept_refl _
  cases h with
  | @begin i rest hcall hmain hpc =>
    have hbegun : (s.station i).Kept { s.station i with pc := .begun } :=
      ⟨fun hne => absurd hpc hne, List.prefix_refl _⟩
    exact kept_setStation hbegun j
  | ask hcall hmain => exact hnew none _ true
  | postStart hcall hmain => exact kept_setStation (Station.kept_post _ _) j
  | newService r hcall => exact hnew _ r false
  | enqueue hcall => exact kept_setStation (Station.kept_post _ _) j
  | stopOne hcall => exact kept_setStation (Station.kept_post _ _) j
  | post hfree => exact kept_setStation (Station.kept_post _ _) j
  | @work i fresh t unique hwork =>
    have hj : j ≠ i := fun heq => ha fresh (by rw [heq])
    have hsame : (s.setStation i t).station j = s.station j := setStation_of_ne s t hj
    show (s.station j).Kept ((s.setStation i t).station j)
    rw [hsame]
    exact Station.kept_refl _
  | _ => exact Station.kept_refl _

/-- A call goes on in its own thread. -/
theorem Stepped.call (h : Stepped configs s a s') {thread : Option ι} (hbusy : s.call thread ≠ .idle)
    (ha : a ≠ .proceed thread) : s'.call thread = s.call thread := by
  have hother : ∀ {other : Option ι} {c : Call router}, thread ≠ other →
      Function.update s.call other c thread = s.call thread := fun hne => Function.update_of_ne hne ..
  have hnew : ∀ {caller : Option ι} (r : Request) (configured : Bool), s.call caller = .idle →
      (s.newService caller r configured).call thread = s.call thread := by
    intro caller r configured hidle
    have hne : thread ≠ caller := fun heq => hbusy (heq ▸ hidle)
    rcases newService_cases s caller r configured with ⟨i, heq⟩ | heq
    · rw [heq]
      exact hother hne
    · rw [heq]
      exact hother hne
  have hgo : ∀ {other : Option ι} {c : Call router}, a = .proceed other →
      Function.update s.call other c thread = s.call thread := by
    rintro other c rfl
    exact hother fun heq => ha (by rw [heq])
  cases h with
  | ask hcall hmain => exact hnew _ true hcall
  | newService r hcall => exact hnew r false hcall
  | exchange c hcall hc => exact hother fun heq => hbusy (heq ▸ hcall)
  | look hcall => exact hgo rfl
  | chosen hcall => exact hgo rfl
  | enqueue hcall => exact hgo rfl
  | stopOne hcall => exact hgo rfl
  | stopped hcall => exact hgo rfl
  | _ => rfl

/-- The main thread makes a step of its own only between its calls. -/
theorem Stepped.main_of_ne (h : Stepped configs s a s') (ha : a ≠ .main) :
    s'.main = s.main ∧ (s.call none = .idle → s'.call none = .idle) := by
  have hgo : ∀ {thread : Option ι} {d : Call router}, s.call thread ≠ .idle →
      s.call none = .idle → Function.update s.call thread d none = .idle := by
    intro thread d hbusy hidle
    have hne : none ≠ thread := by
      rintro rfl
      exact hbusy hidle
    rwa [Function.update_of_ne hne]
  have hsome : ∀ i : ι, none ≠ some i := fun i => (Option.some_ne_none i).symm
  cases h with
  | @newService i r hcall =>
    refine ⟨newService_main .., fun hidle => ?_⟩
    rcases newService_cases s (some i) r false with ⟨j, heq⟩ | heq
    · rw [heq, setCall_of_ne _ _ (hsome i)]
      exact hidle
    · rw [heq, setCall_of_ne _ _ (hsome i)]
      exact hidle
  | @exchange i c hcall hc =>
    refine ⟨rfl, fun hidle => ?_⟩
    rw [setCall_of_ne _ _ (hsome i)]
    exact hidle
  | look hcall => exact ⟨rfl, hgo (by rw [hcall]; nofun)⟩
  | chosen hcall => exact ⟨rfl, hgo (by rw [hcall]; nofun)⟩
  | enqueue hcall => exact ⟨rfl, hgo (by rw [hcall]; nofun)⟩
  | stopOne hcall => exact ⟨rfl, hgo (by rw [hcall]; nofun)⟩
  | stopped hcall => exact ⟨rfl, hgo (by rw [hcall]; nofun)⟩
  | post hfree => exact ⟨rfl, id⟩
  | work unique hwork => exact ⟨rfl, id⟩
  | _ => exact absurd rfl ha

/-! ## The main thread -/

/-- `server::init` is over. -/
def Main.made : Main router → Prop
  | .making _ => False
  | _ => True

/-- Steps until `run` returns, at most, while the server is not in `init`. -/
def Main.rank : Main router → Nat
  | .making _ | .returned => 0
  | .running => 1
  | .posting rest => 2 + rest.length
  | .storing => 3 + router.workers
  | .testState => 4 + router.workers
  | .asking rest | .counting rest _ => 5 + router.workers + rest.length

def Call.rank : Call router → Nat
  | .idle => 0
  | .post _ _ => 1
  | .stop rest => 1 + rest.length
  | .scan _ _ rest _ => 2 + rest.length

theorem Call.rank_pos {c : Call router} (h : c ≠ .idle) : 0 < c.rank := by
  cases c with
  | idle => exact absurd rfl h
  | _ => simp [Call.rank]

theorem Stepped.call_next {thread : Option ι} (h : Stepped configs s (.proceed thread) s') :
    (s'.call thread).rank < (s.call thread).rank := by
  cases h with
  | look hcall | chosen hcall | enqueue hcall | stopOne hcall | stopped hcall =>
    rw [setCall_self, hcall]
    exact Nat.lt_succ_self _

/-- Only `server::init` stores `init`. -/
theorem Stepped.past_init (h : Stepped configs s a s') (hmade : s.main.made) :
    s'.main.made ∧ (s.state_ ≠ .init → s'.state_ ≠ .init) := by
  cases h with
  | begin hcall hmain => exact ⟨hmade, id⟩
  | made hcall hmain | inited hcall hmain =>
    rw [hmain] at hmade
    exact hmade.elim
  | ask hcall hmain =>
    refine ⟨trivial, fun hstate => ?_⟩
    rwa [← newService_state s none _ true] at hstate
  | asked hcall hmain => exact ⟨trivial, id⟩
  | test hcall hmain =>
    refine ⟨?_, id⟩
    show Main.made (if _ then _ else _)
    split <;> trivial
  | count hcall hmain => exact ⟨trivial, id⟩
  | counted hcall hmain =>
    refine ⟨?_, id⟩
    show Main.made (if _ then _ else _)
    split <;> trivial
  | store hcall hmain => exact ⟨trivial, nofun⟩
  | postStart hcall hmain => exact ⟨trivial, id⟩
  | posted hcall hmain => exact ⟨trivial, id⟩
  | joined hcall hmain hexited => exact ⟨trivial, nofun⟩
  | newService r hcall =>
    rw [newService_main, newService_state]
    exact ⟨hmade, id⟩
  | exchange c hcall hc => exact ⟨hmade, nofun⟩
  | _ => exact ⟨hmade, id⟩

theorem Stepped.main_next (h : Stepped configs s .main s') (hmade : s.main.made)
    (hstate : s.state_ ≠ .init) : s'.main.rank < s.main.rank := by
  cases h with
  | begin hcall hmain | made hcall hmain | inited hcall hmain =>
    rw [hmain] at hmade
    exact hmade.elim
  | ask hcall hmain | count hcall hmain | postStart hcall hmain | posted hcall hmain =>
    rw [hmain]
    exact Nat.lt_succ_self _
  | asked hcall hmain =>
    rw [hmain]
    show 4 + router.workers < 5 + router.workers + 0
    omega
  | test hcall hmain =>
    rw [if_neg hstate, hmain]
    show 3 + router.workers < 4 + router.workers
    omega
  | counted hcall hmain =>
    rw [hmain]
    show Main.rank (if _ then _ else _) < 5 + router.workers + 0
    split
    · show 4 + router.workers < _
      omega
    · show 3 + router.workers < _
      omega
  | store hcall hmain =>
    rw [hmain]
    show 2 + (List.finRange router.workers).length < 3 + router.workers
    rw [List.length_finRange]
    omega
  | joined hcall hmain hexited =>
    rw [hmain]
    exact Nat.lt_succ_self _

/-- It waits for nothing but the workers. -/
theorem mainStep_isSome (hmade : s.main.made) (hmain : s.main ≠ .returned)
    (hexited : ∀ i, (s.station i).worker.state_ = .exited) : (mainStep configs s).isSome = true := by
  unfold mainStep
  cases h : s.main with
  | making rest =>
    rw [h] at hmade
    exact hmade.elim
  | asking rest => cases rest <;> rfl
  | testState => rfl
  | counting rest count => cases rest <;> rfl
  | storing => rfl
  | posting rest => cases rest <;> rfl
  | running =>
    dsimp only
    rw [if_pos hexited]
    rfl
  | returned => exact absurd h hmain

/-- `init` goes on to the next worker when this one has its thread. -/
theorem present_of_made {i : Fin router.workers} {rest : List (Fin router.workers)}
    (hmain : s.main = .making (i :: rest)) (h : mainStep configs s = some s')
    (hmain' : s'.main = .making rest) : (s.station i).pc ≠ .absent := by
  intro hpc
  have hsame : s'.main = s.main := by
    simp only [mainStep, hmain, hpc] at h
    rw [← Option.some.inj h]
    rfl
  rw [hsame, hmain] at hmain'
  exact List.cons_ne_self i rest (Main.making.inj hmain')

/-- Until `server::init` is over, the server is in no state in which it can be stopped. -/
theorem making_state (h : (host router ι configs).Reach s) {rest : List (Fin router.workers)}
    (hmain : s.main = .making rest) : s.state_ ≠ .init ∧ s.state_ ≠ .ready := by
  revert rest
  refine h.invariant (P := fun s => ∀ {rest}, s.main = .making rest →
    s.state_ ≠ .init ∧ s.state_ ≠ .ready) ?_ ?_
  · rintro s rfl _ _
    exact ⟨nofun, nofun⟩
  · intro s a s' _ hstate hstep rest hrest
    cases step_cases hstep with
    | made hcall hmain => exact hstate hmain
    | inited hcall hmain => cases hrest
    | ask hcall hmain => cases hrest
    | asked hcall hmain => cases hrest
    | test hcall hmain =>
      dsimp only at hrest
      split at hrest <;> cases hrest
    | count hcall hmain => cases hrest
    | counted hcall hmain =>
      dsimp only at hrest
      split at hrest <;> cases hrest
    | store hcall hmain => cases hrest
    | postStart hcall hmain => cases hrest
    | posted hcall hmain => cases hrest
    | joined hcall hmain hexited => cases hrest
    | newService r hcall =>
      rw [newService_main] at hrest
      rw [newService_state]
      exact hstate hrest
    | exchange c hcall hc => exact ⟨nofun, nofun⟩
    | _ => exact hstate hrest

/-- A worker without a thread is still to be made. -/
theorem absent_making (h : (host router ι configs).Reach s) {i : Fin router.workers}
    (hpc : (s.station i).pc = .absent) : ∃ rest, s.main = .making rest ∧ i ∈ rest := by
  revert hpc
  refine h.invariant (P := fun s => (s.station i).pc = .absent →
    ∃ rest, s.main = .making rest ∧ i ∈ rest) ?_ ?_
  · rintro s rfl _
    exact ⟨_, rfl, List.mem_finRange i⟩
  · intro s a s' _ habsent hstep hpc'
    have hstepped := step_cases hstep
    have hpc : (s.station i).pc = .absent := by_contra fun hne => (hstepped.changed i).present hne hpc'
    obtain ⟨rest, hrest, hmem⟩ := habsent hpc
    by_cases ha : a = .main
    · subst ha
      have hmade : ¬s.main.made := by
        rw [hrest]
        exact id
      have hnot : ∀ {main : Main router}, s.main = main → ¬main.made := fun heq => heq ▸ hmade
      cases hstepped with
      | begin hcall hmain => exact ⟨rest, hrest, hmem⟩
      | @made j later hcall hmain =>
        have hmainStep : step configs s .main = some { s with main := .making later } := hstep
        unfold step at hmainStep
        simp only [hcall] at hmainStep
        have hpresent : (s.station j).pc ≠ .absent := present_of_made hmain hmainStep rfl
        rw [hrest] at hmain
        obtain rfl := Main.making.inj hmain
        refine ⟨later, rfl, (List.mem_cons.mp hmem).resolve_left ?_⟩
        rintro rfl
        exact hpresent hpc
      | inited hcall hmain =>
        rw [hrest] at hmain
        obtain rfl := Main.making.inj hmain
        cases hmem
      | joined hcall hmain hexited => exact absurd trivial (hnot hmain)
      | ask hcall hmain | asked hcall hmain | test hcall hmain | count hcall hmain
      | counted hcall hmain | store hcall hmain | postStart hcall hmain | posted hcall hmain =>
        exact absurd trivial (hnot hmain)
    · exact ⟨rest, (hstepped.main_of_ne ha).1.trans hrest, hmem⟩

/-! ## Runs that go on -/

/-- No thread stops where it could go on; nothing else is asked of the order of the steps. -/
structure FairRun (configs : List Request) (run : Nat → Host router ι)
    (act : Nat → Option (Action router ι)) : Prop where
  start : run 0 = make router ι
  step : ∀ n a, act n = some a → Host.step configs (run n) a = some (run (n + 1))
  stay : ∀ n, act n = none → run (n + 1) = run n
  main : ∀ n, ∃ k, n ≤ k ∧ (act k = some .main ∨ Host.step configs (run k) .main = none)
  calls : ∀ n thread, ∃ k, n ≤ k ∧ (act k = some (.proceed thread) ∨ (run k).call thread = .idle)
  worker : ∀ n i, ∃ k, n ≤ k ∧ ((∃ fresh, act k = some (.work i fresh)) ∨ ((run k).station i).Rests)
  /-- A service that is told to exit is removed, or asks for it. -/
  quits : ∀ n i serviceid, ((run n).station i).worker.state_ = .stopping →
    serviceid ∈ ((run n).station i).worker.services_ → ∃ k, n ≤ k ∧
      ((∃ sender sessionid, act k = some (.post i (.removeService serviceid sender sessionid))) ∨
        serviceid ∉ ((run k).station i).worker.services_)

section Run

variable {run : Nat → Host router ι} {act : Nat → Option (Action router ι)} {n : Nat}
  {i : Fin router.workers}

theorem FairRun.reach (hf : FairRun configs run act) (n : Nat) :
    (host router ι configs).Reach (run n) := by
  induction n with
  | zero => exact System.Reach.start hf.start
  | succ n ih =>
    cases ha : act n with
    | none => rwa [hf.stay n ha]
    | some a => exact ih.step (hf.step n a ha)

theorem FairRun.sound (hf : FairRun configs run act) (n : Nat) (i : Fin router.workers) :
    ((run n).station i).Sound := sound_of_reach (hf.reach n) i

theorem FairRun.stepped (hf : FairRun configs run act) (ha : act n = some a) :
    Stepped configs (run n) a (run (n + 1)) := step_cases (hf.step n a ha)

theorem FairRun.changed (hf : FairRun configs run act) (n : Nat) (i : Fin router.workers) :
    Station.Changed (run n).state_ ((run n).station i) ((run (n + 1)).station i) := by
  cases ha : act n with
  | none =>
    rw [hf.stay n ha]
    exact .same
  | some a => exact (hf.stepped ha).changed i

theorem FairRun.orderly (hf : FairRun configs run act) (n : Nat) (i : Fin router.workers) :
    Station.Orderly ((run n).station i) ((run (n + 1)).station i) :=
  (hf.changed n i).orderly (hf.sound n i)

/-- What holds stays so until `S`, if the steps before keep it. -/
theorem FairRun.until (hf : FairRun configs run act) {I : Host router ι → Prop} {S : Nat → Prop}
    (hI : I (run n)) (hstep : ∀ {k a}, I (run k) → ¬S k → act k = some a →
      Stepped configs (run k) a (run (k + 1)) → I (run (k + 1)))
    (hstop : ∃ k, n ≤ k ∧ S k) : ∃ k, n ≤ k ∧ S k ∧ I (run k) := by
  refine Fair.holds_until n (I := fun k => I (run k)) hI (fun k _ hIk hnot => ?_) hstop
  cases ha : act k with
  | none => rwa [hf.stay k ha]
  | some a => exact hstep hIk hnot ha (hf.stepped ha)

/-! ### The workers -/

/-- The thread of the worker takes the task. -/
def Takes (run : Nat → Host router ι) (i : Fin router.workers) (task : Station.Task) (n : Nat) :
    Prop :=
  ((run n).station i).pc = .idle ∧ (∃ queue, ((run n).station i).queue = task :: queue) ∧
    Station.Worked (run n).state_ ((run n).station i) ((run (n + 1)).station i)

/-- A task in the queue is taken, unless the worker exits before. -/
theorem FairRun.takes (hf : FairRun configs run act) {task : Station.Task}
    (hpc : ((run n).station i).pc ≠ .absent) (hmem : task ∈ ((run n).station i).queue) :
    ∃ k, n ≤ k ∧ (((run k).station i).worker.state_ = .exited ∨ Takes run i task k) := by
  obtain ⟨steps, haway⟩ := Station.exists_away hpc hmem
  refine Fair.eventually_of_lt (P := fun m steps => ((run m).station i).Away task steps) ?_ n steps
    haway
  intro m steps haway
  obtain ⟨k, hk, hwork, haway⟩ := hf.until (n := m) (I := fun s => (s.station i).Away task steps) haway
    (fun haway hnot ha hstepped => (hstepped.kept i fun fresh heq =>
      hnot (.inl ⟨fresh, by rw [ha, heq]⟩)).away haway) (hf.worker m i)
  rcases hwork with ⟨fresh, hact⟩ | habsent | ⟨-, hexited | hempty⟩
  · have hworked : Station.Worked (run k).state_ ((run k).station i) ((run (k + 1)).station i) := by
      obtain ⟨⟨t, unique⟩, hwork, heq⟩ := Option.map_eq_some_iff.mp (hf.step k _ hact)
      rw [← heq]
      show Station.Worked _ _ (((run k).setStation i t).station i)
      rw [setStation_self]
      exact Station.work_cases hwork
    rcases hworked.away haway with ⟨hidle, hfirst⟩ | hcloser
    · exact ⟨k, hk, .inl (.inr ⟨hidle, hfirst, hworked⟩)⟩
    · exact ⟨k + 1, by omega, .inr hcloser⟩
  · obtain ⟨ahead, rest, hqueue, hpc, -⟩ := haway
    exact absurd habsent hpc
  · exact ⟨k, hk, .inl (.inl hexited)⟩
  · obtain ⟨ahead, rest, hqueue, -⟩ := haway
    rw [hempty] at hqueue
    simp at hqueue

/-- A worker with a task of `stop` stops. -/
theorem FairRun.begins_stop (hf : FairRun configs run act)
    (hpc : ((run n).station i).pc ≠ .absent) (hmem : .stop ∈ ((run n).station i).queue) :
    ∃ k, n ≤ k ∧ (((run k).station i).worker.state_ = .stopping ∨
      ((run k).station i).worker.state_ = .exited) := by
  obtain ⟨k, hk, hexited | ⟨hidle, ⟨queue, hqueue⟩, hwork⟩⟩ := hf.takes hpc hmem
  · exact ⟨k, hk, .inr hexited⟩
  · refine ⟨k + 1, by omega, ?_⟩
    rw [(hwork.first hidle hqueue).1 rfl]
    exact Station.stop_closing _

theorem FairRun.closing (hf : FairRun configs run act)
    (h : ((run n).station i).worker.state_ = .stopping ∨ ((run n).station i).worker.state_ = .exited)
    {k : Nat} (hk : n ≤ k) :
    (((run k).station i).worker.state_ = .stopping ∨ ((run k).station i).worker.state_ = .exited) ∧
      ((run k).station i).emplaced = ((run n).station i).emplaced := by
  induction k, hk using Nat.le_induction with
  | base => exact ⟨h, rfl⟩
  | succ k _ ih =>
    have horderly := hf.orderly k i
    exact ⟨horderly.closing ih.1, (horderly.closed ih.1).trans ih.2⟩

theorem FairRun.stays_exited (hf : FairRun configs run act)
    (h : ((run n).station i).worker.state_ = .exited) {k : Nat} (hk : n ≤ k) :
    ((run k).station i).worker.state_ = .exited := by
  induction k, hk using Nat.le_induction with
  | base => exact h
  | succ k _ ih => exact (hf.orderly k i).exited ih

/-- A worker that is stopping loses a service. -/
theorem FairRun.shrinks (hf : FairRun configs run act)
    (hstopping : ((run n).station i).worker.state_ = .stopping) :
    ∃ k, n ≤ k ∧ ((run n).station i).erased.length < ((run k).station i).erased.length := by
  by_contra hno
  have hsame : ∀ k, n ≤ k → ((run k).station i).erased = ((run n).station i).erased ∧
      ∀ serviceid, serviceid ∈ ((run k).station i).worker.services_ ↔
        serviceid ∈ ((run n).station i).worker.services_ := by
    intro k hk
    induction k, hk using Nat.le_induction with
    | base => exact ⟨rfl, fun _ => Iff.rfl⟩
    | succ k hk ih =>
      rcases (hf.changed k i).members (hf.sound k i) (hf.closing (.inl hstopping) hk).1 with
        hlt | ⟨herased, hmem⟩
      · rw [ih.1] at hlt
        exact absurd ⟨k + 1, by omega, hlt⟩ hno
      · exact ⟨herased.trans ih.1, fun serviceid => (hmem serviceid).trans (ih.2 serviceid)⟩
  obtain ⟨serviceid, hkey⟩ := List.exists_mem_of_ne_nil _ ((hf.sound n i).stopping hstopping)
  have hmem : ∀ k, n ≤ k → serviceid ∈ ((run k).station i).worker.services_ := fun k hk =>
    ((hsame k hk).2 serviceid).mpr (AList.mem_keys.mpr hkey)
  have hlive : ∀ k, n ≤ k → ((run k).station i).worker.state_ ≠ .exited := fun k hk hexited =>
    Station.keys_ne_nil (hmem k hk) ((hf.sound k i).exited hexited)
  obtain ⟨k, hk, ⟨sender, sessionid, hact⟩ | hgone⟩ :=
    hf.quits n i serviceid hstopping (hmem n (Nat.le_refl n))
  · have hpost : .removeService serviceid sender sessionid ∈ ((run (k + 1)).station i).queue := by
      have hstep := hf.step k _ hact
      simp only [Host.step] at hstep
      obtain ⟨-, hs⟩ := Option.ite_none_right_eq_some.mp hstep
      rw [← Option.some.inj hs, setStation_self]
      exact List.mem_append_right _ (List.mem_singleton_self _)
    have hpc : ((run (k + 1)).station i).pc ≠ .absent := by
      intro habsent
      have hinit := (hf.sound (k + 1) i).born.mpr (.inl habsent)
      have hstate := (hf.closing (.inl hstopping) (Nat.le_succ_of_le hk)).1
      rw [hinit] at hstate
      simp at hstate
    obtain ⟨m, hm, hexited | ⟨hidle, ⟨queue, hqueue⟩, hwork⟩⟩ := hf.takes hpc hpost
    · exact hlive m (by omega) hexited
    · have herased := (hwork.first hidle hqueue).2 _ _ _ rfl
      rw [if_pos (hmem m (by omega)), (hsame (m + 1) (by omega)).1, (hsame m (by omega)).1] at herased
      simp at herased
  · exact hgone (hmem k hk)

/-- And exits when it has lost the last. -/
theorem FairRun.exits (hf : FairRun configs run act)
    (h : ((run n).station i).worker.state_ = .stopping ∨
      ((run n).station i).worker.state_ = .exited) :
    ∃ k, n ≤ k ∧ ((run k).station i).worker.state_ = .exited := by
  refine Fair.eventually_of_rank
    (P := fun m => ((run m).station i).worker.state_ = .stopping ∨
      ((run m).station i).worker.state_ = .exited)
    (Q := fun m => ((run m).station i).worker.state_ = .exited)
    (fun m => ((run m).station i).size) ?_ n h
  rintro m (hstopping | hexited)
  · obtain ⟨k, hk, hlt⟩ := hf.shrinks hstopping
    obtain ⟨hclosing, hemplaced⟩ := hf.closing (.inl hstopping) hk
    have hm := (hf.sound m i).balance
    have hkbalance := (hf.sound k i).balance
    rw [hemplaced] at hkbalance
    exact ⟨k, hk, .inr ⟨hclosing, by omega⟩⟩
  · exact ⟨m, Nat.le_refl m, .inl hexited⟩

/-! ### The call of stop -/

/-- The loop of `server::stop` comes to every worker. -/
theorem FairRun.posts (hf : FairRun configs run act) {thread : Option ι}
    {rest : List (Fin router.workers)} (hcall : (run n).call thread = .stop rest) (hmem : i ∈ rest) :
    ∃ k, n ≤ k ∧ .stop ∈ ((run k).station i).queue := by
  induction rest generalizing n with
  | nil => cases hmem
  | cons j rest ih =>
    obtain ⟨k, hk, hact, hcall'⟩ := hf.until (n := n)
      (I := fun s => s.call thread = .stop (j :: rest)) hcall (by
        intro k a hcall' hnot ha hstepped
        rw [← hcall']
        exact hstepped.call (by rw [hcall']; nofun) fun heq => hnot (.inl (by rw [ha, heq])))
      (hf.calls n thread)
    replace hact := hact.resolve_right (by rw [hcall']; nofun)
    have hgo : (run (k + 1)) = ((run k).setStation j (((run k).station j).post .stop)).setCall thread
        (.stop rest) := by
      have hstep := hf.step k _ hact
      simp only [Host.step, proceed, hcall'] at hstep
      exact (Option.some.inj hstep).symm
    rcases List.mem_cons.mp hmem with rfl | hmem
    · refine ⟨k + 1, by omega, ?_⟩
      rw [hgo]
      show .stop ∈ (((run k).setStation i _).station i).queue
      rw [setStation_self]
      exact List.mem_append_right _ (List.mem_singleton_self _)
    · obtain ⟨m, hm, hqueue⟩ := ih (n := k + 1) (by rw [hgo, setCall_self]) hmem
      exact ⟨m, by omega, hqueue⟩

theorem FairRun.past_init (hf : FairRun configs run act) (hmade : (run n).main.made)
    (hstate : (run n).state_ ≠ .init) {k : Nat} (hk : n ≤ k) :
    (run k).main.made ∧ (run k).state_ ≠ .init := by
  induction k, hk using Nat.le_induction with
  | base => exact ⟨hmade, hstate⟩
  | succ k _ ih =>
    cases ha : act k with
    | none => rwa [hf.stay k ha]
    | some a =>
      obtain ⟨hmade', hstate'⟩ := (hf.stepped ha).past_init ih.1
      exact ⟨hmade', hstate' ih.2⟩

/-! ### The main thread -/

theorem Stepped.main_idle (h : Stepped configs s .main s') : s.call none = .idle := by
  cases h <;> assumption

/-- Its call, if there is one, returns. -/
theorem FairRun.main_returns (hf : FairRun configs run act) (n : Nat) :
    ∃ k, n ≤ k ∧ (run k).main = (run n).main ∧ (run k).call none = .idle := by
  refine Fair.eventually_of_rank (P := fun m => (run m).main = (run n).main)
    (Q := fun m => (run m).main = (run n).main ∧ (run m).call none = .idle)
    (fun m => ((run m).call none).rank) (fun m hmain => ?_) n rfl
  by_cases hidle : (run m).call none = .idle
  · exact ⟨m, Nat.le_refl m, .inl ⟨hmain, hidle⟩⟩
  · obtain ⟨k, hk, hact, hmain', hcall⟩ := hf.until (n := m)
      (I := fun s => s.main = (run n).main ∧ s.call none = (run m).call none) ⟨hmain, rfl⟩ (by
        rintro k a ⟨hmain', hcall⟩ hnot ha hstepped
        have hne : a ≠ .main := by
          rintro rfl
          exact hidle (hcall.symm.trans hstepped.main_idle)
        refine ⟨(hstepped.main_of_ne hne).1.trans hmain', ?_⟩
        rw [hstepped.call (by rwa [hcall]) fun heq => hnot (.inl (by rw [ha, heq])), hcall])
      (hf.calls m none)
    have hstepped := hf.stepped (hact.resolve_right (by rwa [hcall]))
    have hlt := hstepped.call_next
    rw [hcall] at hlt
    exact ⟨k + 1, by omega, .inr ⟨(hstepped.main_of_ne nofun).1.trans hmain', hlt⟩⟩

/-- It goes on when the workers have exited. -/
theorem FairRun.main_moves (hf : FairRun configs run act) (hmade : (run n).main.made)
    (hmain : (run n).main ≠ .returned)
    (hexited : ∀ k, n ≤ k → ∀ i, ((run k).station i).worker.state_ = .exited) :
    ∃ k, n ≤ k ∧ (run k).main = (run n).main ∧ Stepped configs (run k) .main (run (k + 1)) := by
  obtain ⟨m, hm, hsame, hidle⟩ := hf.main_returns n
  obtain ⟨k, hk, hact, hsame', hidle'⟩ := hf.until (n := m)
    (I := fun s => s.main = (run n).main ∧ s.call none = .idle) ⟨hsame, hidle⟩ (by
      rintro k a ⟨hsame', hidle'⟩ hnot ha hstepped
      have hother := hstepped.main_of_ne fun heq => hnot (.inl (by rw [ha, heq]))
      exact ⟨hother.1.trans hsame', hother.2 hidle'⟩) (hf.main m)
  refine ⟨k, by omega, hsame', ?_⟩
  rcases hact with hact | hstuck
  · exact hf.stepped hact
  · have hsome : (mainStep configs (run k)).isSome = true :=
      mainStep_isSome (by rwa [hsame']) (by rwa [hsame']) (hexited k (by omega))
    simp only [Host.step, hidle'] at hstuck
    rw [hstuck] at hsome
    cases hsome

/-- **The server stops.**  In every run in which no thread stops where it could go on, and every
service that is told to exit is removed or asks for it, a call of `server::stop` while the server is in
`init` or `ready` makes `run` return: every worker exits, and every service that was ever added has been
removed, and once.  Names fit the text that is formatted when their service is removed: for a longer one
`removeService` is `none`, and the run is none of these. -/
theorem server_stops (router : Router) (ι : Type) [DecidableEq ι] (configs : List Request)
    (run : Nat → Host router ι) (act : Nat → Option (Action router ι)) (hf : FairRun configs run act)
    (n : Nat) (i : ι) (hact : act n = some (.stop i))
    (hstate : (run n).state_ = .init ∨ (run n).state_ = .ready) :
    ∃ k, n ≤ k ∧ (run k).main = .returned ∧ ∀ j, ((run k).station j).worker.state_ = .exited ∧
      ((run k).station j).worker.services_ = ∅ ∧
      ((run k).station j).erased.Perm ((run k).station j).emplaced := by
  have hmade : (run n).main.made := by
    cases hmain : (run n).main with
    | making rest =>
      obtain ⟨hinit, hready⟩ := making_state (hf.reach n) hmain
      exact (hstate.elim hinit hready).elim
    | _ => trivial
  have hstop : run (n + 1) = { run n with state_ := .stopping }.setCall (some i)
      (.stop (List.finRange router.workers)) := by
    have hopen : ¬((run n).state_ = .stopping ∨ (run n).state_ = .exited) := by
      rcases hstate with hstate | hstate <;> rw [hstate] <;> simp
    have hstep := hf.step n _ hact
    simp only [Host.step] at hstep
    split at hstep
    · rw [if_neg hopen] at hstep
      exact (Option.some.inj hstep).symm
    · cases hstep
  have hcall : (run (n + 1)).call (some i) = .stop (List.finRange router.workers) := by
    rw [hstop, setCall_self]
  have hpast : ∀ k, n + 1 ≤ k → (run k).main.made ∧ (run k).state_ ≠ .init := fun k hk => by
    refine hf.past_init (n := n + 1) ?_ ?_ hk
    · rw [hstop]
      exact hmade
    · rw [hstop]
      nofun
  have hpresent : ∀ k, n + 1 ≤ k → ∀ j, ((run k).station j).pc ≠ .absent := by
    intro k hk j habsent
    obtain ⟨rest, hmaking, -⟩ := absent_making (hf.reach k) habsent
    have hover := (hpast k hk).1
    rw [hmaking] at hover
    exact hover
  -- every worker exits
  have hexits : ∀ j, ∃ k, n + 1 ≤ k ∧ ((run k).station j).worker.state_ = .exited := by
    intro j
    obtain ⟨k, hk, hqueue⟩ := hf.posts hcall (List.mem_finRange j)
    obtain ⟨l, hl, hclosing⟩ := hf.begins_stop (hpresent k hk j) hqueue
    obtain ⟨m, hm, hexited⟩ := hf.exits hclosing
    exact ⟨m, by omega, hexited⟩
  choose last hlast hexited using hexits
  have hall : ∀ k, Finset.univ.sup last ≤ k → ∀ j, ((run k).station j).worker.state_ = .exited :=
    fun k hk j => hf.stays_exited (hexited j) ((Finset.le_sup (Finset.mem_univ j)).trans hk)
  -- and then the main thread returns
  have hmain : ∀ m, n + 1 ≤ m ∧ Finset.univ.sup last ≤ m → ∃ k, m ≤ k ∧
      ((n + 1 ≤ k ∧ Finset.univ.sup last ≤ k ∧ (run k).main = .returned) ∨
        (n + 1 ≤ k ∧ Finset.univ.sup last ≤ k) ∧ (run k).main.rank < (run m).main.rank) := by
    rintro m ⟨hm, hlate⟩
    by_cases hreturned : (run m).main = .returned
    · exact ⟨m, Nat.le_refl m, .inl ⟨hm, hlate, hreturned⟩⟩
    · obtain ⟨k, hk, hsame, hstepped⟩ := hf.main_moves (hpast m hm).1 hreturned fun k hk =>
        hall k (hlate.trans hk)
      have hlt := hstepped.main_next (hpast k (by omega)).1 (hpast k (by omega)).2
      rw [hsame] at hlt
      exact ⟨k + 1, by omega, .inr ⟨⟨by omega, by omega⟩, hlt⟩⟩
  obtain ⟨k, -, hk, hlate, hreturned⟩ := Fair.eventually_of_rank
    (fun m => (run m).main.rank) hmain (max (n + 1) (Finset.univ.sup last))
    ⟨Nat.le_max_left _ _, Nat.le_max_right _ _⟩
  refine ⟨k, by omega, hreturned, fun j => ?_⟩
  have hsound := hf.sound k j
  have hnone := hsound.exited (hall k hlate j)
  refine ⟨hall k hlate j, keys_eq_nil.mp hnone, ?_⟩
  have hbalance := hsound.balance
  rw [Station.size, hnone, List.length_nil, Nat.zero_add] at hbalance
  exact (List.subperm_of_subset hsound.erased_nodup hsound.erased_sub).perm_of_length_le
    (Nat.le_of_eq hbalance)

end Run

/-! ### A run -/

/-- The server is stopped while the worker has its service and `run` was not called yet. -/
def stopActions : List (Action oneWorker Unit) :=
  oneAdded ++ [.work onlyWorker fun _ => 0, .stop (), .proceed (some ()), .proceed (some ()),
    .work onlyWorker fun _ => 0, .post onlyWorker (.removeService 0x01000001 0 0),
    .work onlyWorker fun _ => 0, .main, .main, .main, .main, .main, .main]

def stopRun : Nat → Host oneWorker Unit :=
  System.along (step [anywhere]) (make oneWorker Unit) stopActions

/-- At its end nothing can go on. -/
theorem stopRun_end {n : Nat} (hn : stopActions.length ≤ n) :
    step [anywhere] (stopRun n) .main = none ∧ (∀ thread, (stopRun n).call thread = .idle) ∧
      ∀ i, ((stopRun n).station i).Rests ∧ ((stopRun n).station i).worker.services_.keys = [] := by
  have hstay : stopRun n = stopRun stopActions.length := System.along_stay _ hn
  have hmain : (step [anywhere] (stopRun stopActions.length) .main).isNone = true := by decide +kernel
  have hcall : ((stopRun stopActions.length).call none).rank = 0 ∧
      ((stopRun stopActions.length).call (some ())).rank = 0 := by
    decide +kernel
  have hworker : ((stopRun stopActions.length).station onlyWorker).pc.rank = 0 ∧
      ((stopRun stopActions.length).station onlyWorker).worker.state_ = .exited ∧
      ((stopRun stopActions.length).station onlyWorker).worker.services_.keys = [] := by
    decide +kernel
  rw [hstay]
  refine ⟨Option.isNone_iff_eq_none.mp hmain, fun thread => ?_, fun i => ?_⟩
  · have hrank : ((stopRun stopActions.length).call thread).rank = 0 := by
      cases thread with
      | none => exact hcall.1
      | some => exact hcall.2
    by_contra hbusy
    exact absurd hrank (Call.rank_pos hbusy).ne'
  · obtain rfl : i = onlyWorker := Subsingleton.elim (α := Fin 1) _ _
    obtain ⟨hrank, hexited, hnone⟩ := hworker
    refine ⟨?_, hnone⟩
    cases hpc : ((stopRun stopActions.length).station onlyWorker).pc with
    | absent => exact .inl hpc
    | idle => exact .inr ⟨hpc, .inl hexited⟩
    | _ =>
      rw [hpc] at hrank
      cases hrank

theorem stopRun_fair : FairRun [anywhere] stopRun fun n => stopActions[n]? where
  start := System.along_zero _
  step n a ha := System.along_step (by decide +kernel) ha
  stay n ha := by
    have hn := List.getElem?_eq_none_iff.mp ha
    exact (System.along_stay _ (Nat.le_succ_of_le hn)).trans (System.along_stay _ hn).symm
  main n := ⟨max n stopActions.length, Nat.le_max_left _ _,
    .inr (stopRun_end (Nat.le_max_right _ _)).1⟩
  calls n thread := ⟨max n stopActions.length, Nat.le_max_left _ _,
    .inr ((stopRun_end (Nat.le_max_right _ _)).2.1 thread)⟩
  worker n i := ⟨max n stopActions.length, Nat.le_max_left _ _,
    .inr ((stopRun_end (Nat.le_max_right _ _)).2.2 i).1⟩
  quits n i serviceid _ _ := ⟨max n stopActions.length, Nat.le_max_left _ _, .inr fun hmem =>
    Station.keys_ne_nil hmem ((stopRun_end (Nat.le_max_right _ _)).2.2 i).2⟩

theorem server_stops_one : ∃ k, 11 ≤ k ∧ (stopRun k).main = .returned ∧
    ∀ j, ((stopRun k).station j).worker.state_ = .exited ∧
      ((stopRun k).station j).worker.services_ = ∅ ∧
      ((stopRun k).station j).erased.Perm ((stopRun k).station j).emplaced :=
  server_stops oneWorker Unit [anywhere] stopRun _ stopRun_fair 11 () rfl (.inl (by decide +kernel))

end Host

end HappyServer.Services
