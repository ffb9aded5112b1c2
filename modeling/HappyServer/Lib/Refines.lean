import HappyServer.Lib.Runs
import Mathlib.Data.List.Induction

/-!
# Refinement

A run shows the visible ones of its labels.

* `M.Refines vis N vis'`: what a run of `M` shows, a run of `N` shows.
* `refines_of_simulation`: it does where every step of `M` is one of no, one or more steps of `N` that
  shows the same, between states that `R` relates.
-/

namespace System

variable {σ τ υ ι ι' ι'' κ : Type}

/-- The labels from one state to another. -/
inductive Trace (M : System σ ι) (s₀ : σ) : List ι → σ → Prop
  | refl : Trace M s₀ [] s₀
  | step {as s a s'} : Trace M s₀ as s → M.step s a s' → Trace M s₀ (as ++ [a]) s'

section Trace

variable {M : System σ ι} {s s' s'' : σ} {as bs : List ι} {a : ι}

theorem Trace.one (h : M.step s a s') : M.Trace s [a] s' := Trace.refl.step h

theorem Trace.append (h : M.Trace s as s') (h' : M.Trace s' bs s'') : M.Trace s (as ++ bs) s'' := by
  induction h' with
  | refl => rwa [List.append_nil]
  | step _ hstep ih =>
    rw [← List.append_assoc]
    exact ih.step hstep

theorem Trace.last (h : M.Trace s (as ++ [a]) s') : ∃ t, M.Trace s as t ∧ M.step t a s' := by
  generalize hcs : as ++ [a] = cs at h
  cases h with
  | refl => simp at hcs
  | @step as' t b _ htrace hstep =>
    obtain ⟨rfl, hab⟩ := List.append_inj' hcs rfl
    obtain rfl := List.singleton_inj.mp hab
    exact ⟨t, htrace, hstep⟩

theorem Trace.of_one (h : M.Trace s [a] s') : M.step s a s' := by
  obtain ⟨t, htrace, hstep⟩ := Trace.last (show M.Trace s ([] ++ [a]) s' from h)
  generalize hnil : ([] : List ι) = cs at htrace
  cases htrace with
  | refl => exact hstep
  | step => simp at hnil

/-- A run passes through a state between any two of its labels. -/
theorem Trace.split (h : M.Trace s (as ++ bs) s'') : ∃ s', M.Trace s as s' ∧ M.Trace s' bs s'' := by
  induction bs using List.reverseRecOn generalizing s'' with
  | nil => exact ⟨s'', by rwa [List.append_nil] at h, .refl⟩
  | append_singleton bs b ih =>
    rw [← List.append_assoc] at h
    obtain ⟨t, htrace, hstep⟩ := h.last
    obtain ⟨s', hfirst, hrest⟩ := ih htrace
    exact ⟨s', hfirst, hrest.step hstep⟩

theorem Trace.reach (h : M.Trace s as s') (hs : M.Reach s) : M.Reach s' := by
  induction h with
  | refl => exact hs
  | step _ hstep ih => exact ih.step hstep

end Trace

/-- Where a run shows `k`, it makes a step that does. -/
theorem filterMap_split {vis : ι → Option κ} {as : List ι} {h h' : List κ} {k : κ}
    (heq : as.filterMap vis = h ++ k :: h') : ∃ bs a cs, as = bs ++ a :: cs ∧
      bs.filterMap vis = h ∧ vis a = some k ∧ cs.filterMap vis = h' := by
  obtain ⟨bs, ds, rfl, hbs, hds⟩ := List.filterMap_eq_append_iff.mp heq
  obtain ⟨es, a, cs, rfl, hes, ha, hcs⟩ := List.filterMap_eq_cons_iff.mp hds
  refine ⟨bs ++ es, a, cs, (List.append_assoc ..).symm, ?_, ha, hcs⟩
  rw [List.filterMap_append, hbs, List.filterMap_eq_nil_iff.mpr hes, List.append_nil]

/-- Some run shows `h`. -/
def Shows (M : System σ ι) (vis : ι → Option κ) (h : List κ) : Prop :=
  ∃ s₀ as s, M.start s₀ ∧ M.Trace s₀ as s ∧ as.filterMap vis = h

def Refines (M : System σ ι) (vis : ι → Option κ) (N : System τ ι') (vis' : ι' → Option κ) : Prop :=
  ∀ h, M.Shows vis h → N.Shows vis' h

theorem Refines.trans {M : System σ ι} {N : System τ ι'} {O : System υ ι''} {vis : ι → Option κ}
    {vis' : ι' → Option κ} {vis'' : ι'' → Option κ} (h : M.Refines vis N vis')
    (h' : N.Refines vis' O vis'') : M.Refines vis O vis'' :=
  fun l hl => h' l (h l hl)

/-- The steps of `N` show what the step of `M` shows. -/
theorem refines_of_simulation {M : System σ ι} {N : System τ ι'} {vis : ι → Option κ}
    {vis' : ι' → Option κ} (R : σ → τ → Prop) (hstart : ∀ s, M.start s → ∃ t, N.start t ∧ R s t)
    (hstep : ∀ s t a s', R s t → M.step s a s' →
      ∃ bs t', N.Trace t bs t' ∧ bs.filterMap vis' = (vis a).toList ∧ R s' t') :
    M.Refines vis N vis' := by
  rintro h ⟨s₀, as, s, h₀, htrace, rfl⟩
  obtain ⟨t₀, ht₀, hR⟩ := hstart s₀ h₀
  have hrun : ∃ bs t, N.Trace t₀ bs t ∧ bs.filterMap vis' = as.filterMap vis ∧ R s t := by
    clear h₀
    induction htrace with
    | refl => exact ⟨[], t₀, .refl, rfl, hR⟩
    | @step as s a s' _ hstep' ih =>
      obtain ⟨bs, t, hbs, hshow, hRt⟩ := ih
      obtain ⟨cs, t', hcs, hshow', hRt'⟩ := hstep s t a s' hRt hstep'
      refine ⟨bs ++ cs, t', hbs.append hcs, ?_, hRt'⟩
      rw [List.filterMap_append, List.filterMap_append, hshow, hshow']
      cases hvis : vis a with
      | none => rw [List.filterMap_cons_none hvis]; rfl
      | some k => rw [List.filterMap_cons_some hvis]; rfl
  obtain ⟨bs, t, hbs, hshow, -⟩ := hrun
  exact ⟨t₀, bs, t, ht₀, hbs, hshow⟩

end System
