import Mathlib.Logic.Relation

/-!
# Systems and their runs

A system has states to start in and labelled steps.

* `M.restrict ok`: the runs of `M` in which every step `a` from a state `s` has `ok s a`.
* `Reach.invariant`: what holds at the start, and what every step from a reachable state keeps,
  holds of every reachable state.
* `Reach.foldlM`: a run that is computed.
* `along f s actions`: its states, one after the other; after the last action it stays where it is.
-/

structure System (σ ι : Type) where
  start : σ → Prop
  step : σ → ι → σ → Prop

namespace System

variable {σ ι : Type} {M : System σ ι} {ok ok' : σ → ι → Prop} {P : σ → Prop} {s s' : σ} {a : ι}

def restrict (M : System σ ι) (ok : σ → ι → Prop) : System σ ι where
  start := M.start
  step s a s' := ok s a ∧ M.step s a s'

/-- Some step leads from one state to the other. -/
def Next (M : System σ ι) (s s' : σ) : Prop := ∃ a, M.step s a s'

def Reach (M : System σ ι) (s : σ) : Prop := ∃ s₀, M.start s₀ ∧ Relation.ReflTransGen M.Next s₀ s

theorem Reach.start (h : M.start s) : M.Reach s := ⟨s, h, .refl⟩

theorem Reach.step (h : M.Reach s) (hstep : M.step s a s') : M.Reach s' := by
  obtain ⟨s₀, hstart, hsteps⟩ := h
  exact ⟨s₀, hstart, hsteps.tail ⟨a, hstep⟩⟩

@[elab_as_elim]
theorem Reach.invariant (hstart : ∀ s, M.start s → P s)
    (hstep : ∀ s a s', M.Reach s → P s → M.step s a s' → P s') (h : M.Reach s) : P s := by
  obtain ⟨s₀, h₀, hsteps⟩ := h
  induction hsteps with
  | refl => exact hstart s₀ h₀
  | tail hs hnext ih =>
    obtain ⟨a, ha⟩ := hnext
    exact hstep _ a _ ⟨s₀, h₀, hs⟩ ih ha

/-- What every computed step keeps, a computed run keeps. -/
theorem foldlM_invariant {f : σ → ι → Option σ} (hf : ∀ {s a s'}, P s → f s a = some s' → P s')
    (h : P s) (actions : List ι) (hrun : actions.foldlM f s = some s') : P s' := by
  induction actions generalizing s with
  | nil =>
    rw [List.foldlM_nil] at hrun
    exact Option.some.inj hrun ▸ h
  | cons a actions ih =>
    rw [List.foldlM_cons, Option.bind_eq_bind, Option.bind_eq_some_iff] at hrun
    obtain ⟨t, hstep, hrun⟩ := hrun
    exact ih (hf h hstep) hrun

theorem Reach.foldlM {f : σ → ι → Option σ} (hf : ∀ {s a s'}, f s a = some s' → M.step s a s')
    (h : M.Reach s) (actions : List ι) (hrun : actions.foldlM f s = some s') : M.Reach s' :=
  foldlM_invariant (fun h hstep => h.step (hf hstep)) h actions hrun

theorem Reach.restrict_mono (hok : ∀ s a, ok s a → ok' s a) (h : (M.restrict ok).Reach s) :
    (M.restrict ok').Reach s := by
  refine Reach.invariant (fun s hstart => Reach.start hstart) (fun s a s' _ hs hstep => ?_) h
  obtain ⟨ha, hstep⟩ := hstep
  exact hs.step ⟨hok s a ha, hstep⟩

theorem Reach.of_restrict (h : (M.restrict ok).Reach s) : M.Reach s := by
  refine Reach.invariant (fun s hstart => Reach.start hstart) (fun s a s' _ hs hstep => ?_) h
  obtain ⟨-, hstep⟩ := hstep
  exact hs.step hstep

/-! ## The states of a computed run -/

def along (f : σ → ι → Option σ) (s : σ) (actions : List ι) (n : Nat) : σ :=
  ((actions.take n).foldlM f s).getD s

section Along

variable {f : σ → ι → Option σ} {actions : List ι} {n : Nat}

theorem along_zero (s : σ) : along f s actions 0 = s := rfl

theorem along_step (hrun : (actions.foldlM f s).isSome = true) (ha : actions[n]? = some a) :
    f (along f s actions n) a = some (along f s actions (n + 1)) := by
  have htake : actions.take (n + 1) = actions.take n ++ [a] := by
    rw [List.take_add_one, ha]
    rfl
  rw [← List.take_append_drop (n + 1) actions, htake, List.append_assoc, List.foldlM_append] at hrun
  obtain ⟨s', hrun⟩ := Option.isSome_iff_exists.mp hrun
  obtain ⟨t, ht, hrun⟩ := Option.bind_eq_some_iff.mp hrun
  rw [List.singleton_append, List.foldlM_cons] at hrun
  obtain ⟨t', ht', -⟩ := Option.bind_eq_some_iff.mp hrun
  unfold along
  rw [htake, List.foldlM_append, ht, Option.bind_eq_bind, Option.bind_some, List.foldlM_cons, ht']
  exact ht'

theorem along_stay (s : σ) (h : actions.length ≤ n) :
    along f s actions n = along f s actions actions.length := by
  unfold along
  rw [List.take_of_length_le h, List.take_length]

end Along

end System
