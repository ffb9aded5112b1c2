import HappyServer.Worker.Mailbox

/-!
# Delivery of a worker's messages

Safety is `Inv`, over every interleaving.  That a message is handled at all needs
runs that go on (`FairRun`): the worker's thread does not stop while it has a task, and a
thread that owes the mailbox a drain task enqueues it.

    Inv (run 0) → FairRun run act → ∃ k, (run 0).pushed <+: (run k).handled.map Handled.msg

* `rank`: how far the worker is from handling the next message.  Only its own steps lower
  it, and no other thread's step raises it, for tasks are taken in order.
* `queue_` and the senders in flight may be empty with messages in `mq_` between the worker's
  taking of the drain task and its swap, and then only.
-/

namespace HappyServer.Worker

variable {δ : Type}

/-! ## Fair runs -/

/-- A run that goes on: `act n` leads from `run n` to `run (n + 1)`, or nothing happens. -/
structure FairRun (run : Nat → State δ) (act : Nat → Option (Action δ)) : Prop where
  step : ∀ n a, act n = some a → step (run n) a = some (run (n + 1))
  stay : ∀ n, act n = none → run (n + 1) = run n
  worker : ∀ n, ∃ k, n ≤ k ∧
    (act k = some .advance ∨ ((run k).pc = .idle ∧ (run k).queue = []))
  sender : ∀ n t, t ∈ (run n).flight → ∃ k, n ≤ k ∧ act k = some (.enqueue t)

/-- The worker handles a message, is about to, or has a drain task to take. -/
def Pc.awake (queue : List Task) : Pc δ → Prop
  | .handle _ _ rest => rest ≠ [] ∨ .drain ∈ queue
  | .swap => True
  | .drain => True
  | .idle => .drain ∈ queue
  | .task _ => .drain ∈ queue

/-- Steps of the worker until it handles a message, at most. -/
def Pc.rank (queue : List Task) : Pc δ → Nat
  | .handle _ _ (_ :: _) => 0
  | .swap => 1
  | .drain => 2
  | .idle => 3 + 2 * queue.idxOf .drain
  | .task _ => 4 + 2 * queue.idxOf .drain
  | .handle _ _ [] => 4 + 2 * queue.idxOf .drain

theorem awake_append {queue : List Task} {pc : Pc δ} (h : pc.awake queue) (t : Task) :
    pc.awake (queue ++ [t]) := by
  cases pc with
  | drain => trivial
  | swap => trivial
  | idle => exact List.mem_append_left _ h
  | task _ => exact List.mem_append_left _ h
  | handle _ _ rest => exact h.imp_right (List.mem_append_left _)

/-- A task at the end of `queue_` does not come before the drain task. -/
theorem rank_append {queue : List Task} {pc : Pc δ} (h : pc.awake queue) (t : Task) :
    pc.rank (queue ++ [t]) = pc.rank queue := by
  have hidx : Task.drain ∈ queue → (queue ++ [t]).idxOf .drain = queue.idxOf .drain :=
    fun h => List.idxOf_append_of_mem h
  cases pc with
  | drain => rfl
  | swap => rfl
  | idle => rw [Pc.rank, hidx h, Pc.rank]
  | task _ => rw [Pc.rank, hidx h, Pc.rank]
  | handle _ _ rest =>
    cases rest with
    | nil => rw [Pc.rank, hidx (h.resolve_left fun h => h rfl), Pc.rank]
    | cons _ _ => rfl

/-- What every step but the worker's leaves as it is. -/
theorem step_other {s s' : State δ} {a : Action δ} (h : step s a = some s') (ha : a ≠ .advance) :
    s'.handled = s.handled ∧ s'.pc = s.pc ∧
      (s'.queue = s.queue ∨ ∃ t, s'.queue = s.queue ++ [t]) := by
  cases step_cases h with
  | push _ _ => exact ⟨rfl, rfl, Or.inl rfl⟩
  | enqueue _ => exact ⟨rfl, rfl, Or.inr ⟨_, rfl⟩⟩
  | post _ => exact ⟨rfl, rfl, Or.inr ⟨_, rfl⟩⟩
  | advance _ _ => exact absurd rfl ha

/-- `handle_one` was called for the message, with the services of the swap. -/
def Handled.ByHandleOne (h : Handled δ) : Prop :=
  (h.live.Pairwise fun a b => a.id ≠ b.id) ∧
    ∃ ser, (∀ x, ser = some x → x ∈ h.live) ∧ h.dispatched = (handleOne h.live ser h.msg).2

theorem Reach.byHandleOne {s : State δ} (h : Reach s) : ∀ x ∈ s.handled, x.ByHandleOne := by
  induction h with
  | init => exact fun x hx => absurd hx List.not_mem_nil
  | @step s s' a hs hstep ih =>
    by_cases ha : a = .advance
    · subst ha
      cases step_advance hstep with
      | @handle live ser msg rest hpc =>
        obtain ⟨rfl, hser⟩ := hs.inv.live _ _ _ hpc
        intro x hx
        rcases List.mem_append.mp hx with hx | hx
        · exact ih x hx
        · rw [List.mem_singleton.mp hx]
          exact ⟨hs.inv.ids, ser, hser, rfl⟩
      | _ => exact ih
    · exact (step_other hstep ha).1 ▸ ih

theorem awake_other {s s' : State δ} {a : Action δ} (h : step s a = some s') (ha : a ≠ .advance)
    (hawake : s.pc.awake s.queue) :
    s'.pc.awake s'.queue ∧ s'.pc.rank s'.queue = s.pc.rank s.queue := by
  obtain ⟨-, hpc, hq | ⟨t, hq⟩⟩ := step_other h ha
  · rw [hpc, hq]
    exact ⟨hawake, rfl⟩
  · rw [hpc, hq]
    exact ⟨awake_append hawake t, rank_append hawake t⟩

theorem awake_of_mem {queue : List Task} (h : .drain ∈ queue) (pc : Pc δ) : pc.awake queue := by
  cases pc with
  | handle _ _ _ => exact Or.inr h
  | drain => trivial
  | swap => trivial
  | idle => exact h
  | task _ => exact h

theorem Inv.waiting {s : State δ} (hs : Inv s) (hwait : s.handled.length < s.pushed.length)
    (hrest : s.rest = []) : s.mq ≠ [] := by
  intro hmq
  rw [hs.order, hrest, hmq, List.append_nil, List.append_nil, List.length_map] at hwait
  exact Nat.lt_irrefl _ hwait

theorem Inv.awake_or_owed {s : State δ} (hs : Inv s)
    (hwait : s.handled.length < s.pushed.length) : s.pc.awake s.queue ∨ s.flight ≠ [] := by
  have hwake := fun hrest => hs.wake (hs.waiting hwait hrest)
  unfold State.rest State.draining at hwake
  cases hpc : s.pc with
  | drain => exact Or.inl trivial
  | swap => exact Or.inl trivial
  | idle =>
    rw [hpc] at hwake
    exact (hwake rfl).imp_right fun h => h.resolve_right id
  | task t =>
    rw [hpc] at hwake
    exact (hwake rfl).imp_right fun h => h.resolve_right id
  | handle live ser rest =>
    rw [hpc] at hwake
    by_cases hrest : rest = []
    · exact (hwake hrest).imp Or.inr fun h => h.resolve_right id
    · exact Or.inl (Or.inl hrest)

/-- Messages that wait in `mq_` are what makes the worker get anywhere. -/
theorem awake_advance {s s' : State δ} (hs : Inv s) (hwait : s.handled.length < s.pushed.length)
    (hawake : s.pc.awake s.queue) (h : Advance s s') :
    s.handled.length < s'.handled.length ∨
      (s'.handled = s.handled ∧ s'.pc.awake s'.queue ∧
        s'.pc.rank s'.queue < s.pc.rank s.queue) := by
  cases h with
  | @takeDrain queue hpc hq =>
    refine Or.inr ⟨rfl, trivial, ?_⟩
    rw [hpc]
    show 2 < 3 + 2 * _
    omega
  | @takeTask t queue hpc hq hne =>
    rw [hpc, hq] at hawake ⊢
    have hmem := (List.mem_cons.mp hawake).resolve_left (Ne.symm hne)
    refine Or.inr ⟨rfl, hmem, ?_⟩
    show 4 + 2 * queue.idxOf .drain < 3 + 2 * (t :: queue).idxOf .drain
    rw [List.idxOf_cons_ne _ hne]
    omega
  | @finishTask t hpc =>
    rw [hpc] at hawake ⊢
    refine Or.inr ⟨rfl, hawake, ?_⟩
    show 3 + 2 * s.queue.idxOf .drain < 4 + 2 * s.queue.idxOf .drain
    omega
  | nothing hpc hnil =>
    exact absurd hnil (hs.waiting hwait (by rw [State.rest, hpc]))
  | check hpc hne =>
    refine Or.inr ⟨rfl, trivial, ?_⟩
    rw [hpc]
    exact Nat.lt_succ_self 1
  | swap hpc =>
    obtain ⟨msg, rest, hcons⟩ := List.exists_cons_of_ne_nil (hs.swap hpc)
    refine Or.inr ⟨rfl, Or.inl (hs.swap hpc), ?_⟩
    rw [hpc, hcons]
    exact Nat.zero_lt_one
  | @finishDrain live ser hpc =>
    rw [hpc] at hawake ⊢
    have hmem := hawake.resolve_left fun h => h rfl
    refine Or.inr ⟨rfl, hmem, ?_⟩
    show 3 + 2 * s.queue.idxOf .drain < 4 + 2 * s.queue.idxOf .drain
    omega
  | handle hpc =>
    left
    rw [List.length_append]
    exact Nat.lt_succ_self _

/-! ## Along a run -/

section Run

variable {run : Nat → State δ} {act : Nat → Option (Action δ)}

theorem step_handled {s s' : State δ} {a : Action δ} (h : step s a = some s') :
    s.handled <+: s'.handled := by
  by_cases ha : a = .advance
  · subst ha
    cases step_advance h with
    | handle hpc => exact List.prefix_append _ _
    | _ => exact List.prefix_rfl
  · exact (step_other h ha).1 ▸ List.prefix_rfl

theorem step_pushed {s s' : State δ} {a : Action δ} (h : step s a = some s') :
    s.pushed <+: s'.pushed := by
  cases step_cases h with
  | push _ _ => exact List.prefix_append _ _
  | enqueue _ => exact List.prefix_rfl
  | post _ => exact List.prefix_rfl
  | advance _ h => cases h <;> exact List.prefix_rfl

theorem FairRun.keeps (hf : FairRun run act) {P : State δ → State δ → Prop}
    (hrefl : ∀ s, P s s) (htrans : ∀ {a b c}, P a b → P b c → P a c)
    (hstep : ∀ {s s'} {a : Action δ}, Worker.step s a = some s' → P s s') {n k : Nat} (h : n ≤ k) :
    P (run n) (run k) := by
  induction h with
  | refl => exact hrefl _
  | @step k h ih =>
    cases ha : act k with
    | none => rwa [hf.stay k ha]
    | some a => exact htrans ih (hstep (hf.step k a ha))

theorem FairRun.handled (hf : FairRun run act) {n k : Nat} (h : n ≤ k) :
    (run n).handled <+: (run k).handled :=
  hf.keeps (P := fun s s' => s.handled <+: s'.handled) (fun _ => List.prefix_rfl)
    List.IsPrefix.trans step_handled h

theorem FairRun.pushed (hf : FairRun run act) {n k : Nat} (h : n ≤ k) :
    (run n).pushed <+: (run k).pushed :=
  hf.keeps (P := fun s s' => s.pushed <+: s'.pushed) (fun _ => List.prefix_rfl)
    List.IsPrefix.trans step_pushed h

theorem FairRun.inv (hf : FairRun run act) (h : Inv (run 0)) (n : Nat) : Inv (run n) :=
  hf.keeps (P := fun s s' => Inv s → Inv s') (fun _ h => h) (fun h h' => h' ∘ h)
    (fun hstep h => inv_step _ h hstep) (Nat.zero_le n) h

/-- Whoever owes the mailbox a drain task wakes the worker. -/
theorem FairRun.wakes (hf : FairRun run act) {n : Nat} (hs : Inv (run n))
    (hwait : (run n).handled.length < (run n).pushed.length) :
    ∃ k, n ≤ k ∧ (run k).pc.awake (run k).queue := by
  rcases hs.awake_or_owed hwait with hawake | hflight
  · exact ⟨n, Nat.le_refl n, hawake⟩
  · obtain ⟨t, ht⟩ := List.exists_mem_of_ne_nil _ hflight
    obtain ⟨k, hk, hact⟩ := hf.sender n t ht
    refine ⟨k + 1, by omega, awake_of_mem ?_ _⟩
    exact step_enqueue (hf.step k _ hact)

/-- An awake worker's next step handles a message or brings it closer to one. -/
theorem FairRun.advances (hf : FairRun run act) (h : ∀ n, Inv (run n)) {n : Nat}
    (hstill : ∀ k, n ≤ k → (run k).handled.length ≤ (run n).handled.length →
      (run k).handled.length < (run k).pushed.length) (m : Nat)
    (hm : n ≤ m ∧ (run m).pc.awake (run m).queue) :
    ∃ k, m ≤ k ∧ ((run n).handled.length < (run k).handled.length ∨
      ((n ≤ k ∧ (run k).pc.awake (run k).queue) ∧
        (run k).pc.rank (run k).queue < (run m).pc.rank (run m).queue)) := by
  obtain ⟨hnm, hawake⟩ := hm
  -- the worker's own step is the next that matters
  obtain ⟨k, hk, hstop, hkawake, hkrank⟩ := Fair.holds_until
    (I := fun k => (run k).pc.awake (run k).queue ∧
      (run k).pc.rank (run k).queue = (run m).pc.rank (run m).queue)
    (S := fun k => act k = some .advance ∨ ((run k).pc = .idle ∧ (run k).queue = []))
    m ⟨hawake, rfl⟩
    (fun k _ hI hgo => by
      cases ha : act k with
      | none => rwa [hf.stay k ha]
      | some a =>
        have hne : a ≠ .advance := fun h => hgo (Or.inl (h ▸ ha))
        obtain ⟨hnext, hrank⟩ := awake_other (hf.step k a ha) hne hI.1
        exact ⟨hnext, hrank.trans hI.2⟩)
    (hf.worker m)
  rcases hstop with hact | ⟨hpc, hq⟩
  · refine ⟨k + 1, by omega, ?_⟩
    have hle := (hf.handled (show n ≤ k by omega)).length_le
    have hle' := (hf.handled (show k ≤ k + 1 by omega)).length_le
    by_cases hdone : (run n).handled.length < (run k).handled.length
    · exact Or.inl (by omega)
    · have hwait := hstill k (by omega) (by omega)
      have hstep := step_advance (hf.step k _ hact)
      rcases awake_advance (h k) hwait hkawake hstep with hgrow | ⟨-, hnext, hlt⟩
      · exact Or.inl (by omega)
      · exact Or.inr ⟨⟨by omega, hnext⟩, by omega⟩
  · rw [hpc, hq] at hkawake
    exact absurd hkawake (List.not_mem_nil)

/-- While messages wait, some step handles one. -/
theorem FairRun.handles (hf : FairRun run act) (h : ∀ n, Inv (run n)) {n : Nat}
    (hwait : (run n).handled.length < (run n).pushed.length) :
    ∃ k, n ≤ k ∧ (run n).handled.length < (run k).handled.length := by
  -- still waiting at a later state, unless a message was handled
  have hstill : ∀ k, n ≤ k → (run k).handled.length ≤ (run n).handled.length →
      (run k).handled.length < (run k).pushed.length := by
    intro k hk hle
    have := (hf.pushed hk).length_le
    omega
  obtain ⟨m, hm, hawake⟩ := hf.wakes (h n) hwait
  obtain ⟨k, hk, hQ⟩ := Fair.eventually_of_rank
    (P := fun k => n ≤ k ∧ (run k).pc.awake (run k).queue)
    (Q := fun k => (run n).handled.length < (run k).handled.length)
    (fun k => (run k).pc.rank (run k).queue) (hf.advances h hstill) m ⟨hm, hawake⟩
  exact ⟨k, by omega, hQ⟩

/-- Everything accepted so far is handled, in the order it was accepted. -/
theorem FairRun.delivers (hf : FairRun run act) (hs : Inv (run 0)) :
    ∃ k, (run 0).pushed <+: (run k).handled.map Handled.msg := by
  obtain ⟨k, -, hk⟩ := Fair.eventually_le (fun k => (run k).handled.length)
    (run 0).pushed.length (fun n hn => by
      have := (hf.pushed (Nat.zero_le n)).length_le
      exact hf.handles (hf.inv hs) (by omega)) 0
  refine ⟨k, ?_⟩
  have hpushed := hf.pushed (Nat.zero_le k)
  have hhandled : (run k).handled.map Handled.msg <+: (run k).pushed := by
    rw [(hf.inv hs k).order, List.append_assoc]
    exact List.prefix_append _ _
  apply List.prefix_of_prefix_length_le hpushed hhandled
  rw [List.length_map]
  exact hk

end Run

/-! ## Delivery -/

theorem delivery {s : State δ} (h : Reach s) :
    s.pushed = s.handled.map Handled.msg ++ s.rest ++ s.mq ∧
    (s.queue = [] → s.flight = [] → ¬s.draining → s.mq = []) ∧
    (∀ h ∈ s.handled, ∀ x ∈ h.live, x.id = h.msg.receiver → h.dispatched = [x]) ∧
    ∀ run act, run 0 = s → FairRun run act →
      ∃ k, s.pushed <+: (run k).handled.map Handled.msg := by
  refine ⟨h.inv.order, fun hq hflight hdrain => ?_, h.inv.sent, ?_⟩
  · by_contra hmq
    rcases h.inv.wake hmq with hw | hw | hw
    · rw [hq] at hw
      exact absurd hw List.not_mem_nil
    · exact hw hflight
    · exact hdrain hw
  · rintro run act rfl hf
    exact hf.delivers h.inv

/-- A service comes up, and the first message to it is handled. -/
theorem delivery_first_message :
    ∃ s : State Unit, Reach s ∧ s.pushed = [.direct 7 1 ()] ∧ s.rest ++ s.mq = [] ∧
      s.pushed = s.handled.map Handled.msg ++ s.rest ++ s.mq ∧
      ∀ h ∈ s.handled, ∀ x ∈ h.live, x.id = h.msg.receiver → h.dispatched = [x] := by
  let actions : List (Action Unit) :=
    [.post (.addService ⟨1, 0, true, by decide⟩), .advance, .advance,
      .push (.sender 0) (.direct 7 1 ()), .enqueue (.sender 0),
      .advance, .advance, .advance, .advance, .advance]
  have hs := reach_foldlM Reach.init actions rfl
  exact ⟨_, hs, rfl, rfl, (delivery hs).1, (delivery hs).2.2.1⟩

/-- The worker has taken the drain task and has not swapped yet. -/
theorem mailbox_not_empty_before_swap :
    ¬∀ s : State Unit, Reach s → s.queue = [] → s.flight = [] → s.mq = [] := by
  intro h
  let actions : List (Action Unit) :=
    [.push (.sender 0) (.direct 7 1 ()), .enqueue (.sender 0), .advance]
  have hmq := h _ (reach_foldlM Reach.init actions rfl) rfl rfl
  exact absurd hmq (List.cons_ne_nil _ _)

end HappyServer.Worker
