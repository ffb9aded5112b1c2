import HappyServer.Lib.Runs
import HappyServer.Lib.Tally
import Mathlib.Algebra.Order.Group.Multiset
import Mathlib.Data.Multiset.Range
import Mathlib.Order.Bounds.Basic
import Mathlib.Tactic.Abel

/-!
# `common/object_pool.hpp`

`pointer_pool` with a lock (`spin_lock`, as `buffer_cache_` of the logger has; `nonlock` locks nothing), for
any number of threads.  What is done behind the lock is one step; the size is compared with `PoolSize`
before the lock is taken, and `size()` there is one access to `objects_`.

* An object is a number; `new` gives the next one.  `used` are those that were given out.
* `Inv.objects`: of the objects there are, each is in one place.

    max size() = PoolSize + threads - 1          (pool_size)
-/

namespace HappyServer.Common.ObjectPool

/-- Where a thread is. -/
inductive Pc where
  | idle
  /-- in `create`, after the lock was given back -/
  | found (t : Option Nat)
  /-- in `release`, at `if ((PoolSize != 0) && objects_.size() >= PoolSize)` -/
  | releasing (t : Nat)
  /-- that was not so; at `objects_.push_back(t)` -/
  | pushing (t : Nat)
deriving DecidableEq

structure State (ι : Type) where
  objects_ : List Nat := []
  used : List Nat := []
  deleted : List Nat := []
  next : Nat := 0
  pc : ι → Pc := fun _ => .idle

inductive Action (ι : Type) where
  /-- `create`, up to where the lock is given back -/
  | create (i : ι)
  /-- `new T(…)` or `t->init(…)` -/
  | finish (i : ι)
  | release (i : ι) (t : Nat)
  /-- the size is read -/
  | check (i : ι)
  | push (i : ι)

variable {ι : Type} [DecidableEq ι]

def State.goto (s : State ι) (i : ι) (p : Pc) : State ι :=
  { s with pc := Function.update s.pc i p }

/-- Only what is used is released. -/
def step (poolSize : Nat) (s : State ι) : Action ι → Option (State ι)
  | .create i =>
    match s.pc i with
    | .idle =>
      match s.objects_.getLast? with
      | none => some (s.goto i (.found none))
      | some t => some { s.goto i (.found (some t)) with objects_ := s.objects_.dropLast }
    | _ => none
  | .finish i =>
    match s.pc i with
    | .found none => some { s.goto i .idle with used := s.used ++ [s.next], next := s.next + 1 }
    | .found (some t) => some { s.goto i .idle with used := s.used ++ [t] }
    | _ => none
  | .release i t =>
    if s.pc i = .idle ∧ t ∈ s.used then
      some { s.goto i (.releasing t) with used := s.used.erase t }
    else none
  | .check i =>
    match s.pc i with
    | .releasing t =>
      if poolSize ≠ 0 ∧ poolSize ≤ s.objects_.length then
        some { s.goto i .idle with deleted := s.deleted ++ [t] }
      else some (s.goto i (.pushing t))
    | _ => none
  | .push i =>
    match s.pc i with
    | .pushing t => some { s.goto i .idle with objects_ := s.objects_ ++ [t] }
    | _ => none

def pool (poolSize : Nat) (ι : Type) [DecidableEq ι] : System (State ι) (Action ι) where
  start s := s = {}
  step s a s' := step poolSize s a = some s'

/-- The object that a thread has. -/
def Pc.object : Pc → Multiset Nat
  | .found (some t) | .releasing t | .pushing t => {t}
  | _ => 0

def Pc.pushes : Pc → Bool
  | .pushing _ => true
  | _ => false

/-! ## The invariant -/

section Inv

variable [Fintype ι] {poolSize : Nat} {s s' : State ι} {a : Action ι} {i : ι}

structure Inv (poolSize : Nat) (s : State ι) : Prop where
  objects : (s.objects_ : Multiset Nat) + s.used + s.deleted + ∑ i, (s.pc i).object =
    Multiset.range s.next
  size : poolSize ≠ 0 → s.objects_.length + tally Pc.pushes s.pc < poolSize + Fintype.card ι

omit [DecidableEq ι] in
theorem inv_start [Nonempty ι] : Inv poolSize ({} : State ι) where
  objects := by simp [Pc.object]
  size h := by
    have := Fintype.card_pos (α := ι)
    simp [Pc.pushes]
    omega

/-- One thread moves, with its object. -/
theorem Inv.goto (h : Inv poolSize s) {p : Pc} {objects_ used deleted : List Nat} {next : Nat}
    (hobjects : (objects_ : Multiset Nat) + used + deleted + p.object + Multiset.range s.next =
      s.objects_ + s.used + s.deleted + (s.pc i).object + Multiset.range next)
    (hsize : poolSize ≠ 0 →
      objects_.length + p.pushes.toNat ≤ s.objects_.length + (s.pc i).pushes.toNat ∨
        objects_.length < poolSize) :
    Inv poolSize ⟨objects_, used, deleted, next, Function.update s.pc i p⟩ where
  objects := by
    have hmove := sum_update_add Pc.object s.pc i p
    have hold := h.objects
    refine add_right_cancel (b := (s.pc i).object + Multiset.range s.next) ?_
    calc (objects_ : Multiset Nat) + used + deleted + ∑ j, (Function.update s.pc i p j).object +
          ((s.pc i).object + Multiset.range s.next)
        = objects_ + used + deleted + Multiset.range s.next +
          (∑ j, (Function.update s.pc i p j).object + (s.pc i).object) := by abel
      _ = objects_ + used + deleted + p.object + Multiset.range s.next + ∑ j, (s.pc j).object := by
        rw [hmove]; abel
      _ = s.objects_ + s.used + s.deleted + ∑ j, (s.pc j).object + (s.pc i).object +
          Multiset.range next := by rw [hobjects]; abel
      _ = Multiset.range next + ((s.pc i).object + Multiset.range s.next) := by rw [hold]; abel
  size hpool := by
    have hmove := tally_update Pc.pushes s.pc i p
    have hold := h.size hpool
    show objects_.length + tally Pc.pushes (Function.update s.pc i p) < poolSize + Fintype.card ι
    obtain hle | hlt := hsize hpool
    · omega
    · have hcard : tally Pc.pushes (Function.update s.pc i p) ≤ Fintype.card ι := tally_le_card
      omega

theorem Inv.step (h : Inv poolSize s) (hstep : step poolSize s a = some s') : Inv poolSize s' := by
  cases a with
  | create i =>
    simp only [ObjectPool.step] at hstep
    split at hstep
    · rename_i hi
      split at hstep
      · cases hstep
        exact h.goto (by rw [hi]; rfl) fun _ => .inl (by rw [hi]; rfl)
      · rename_i t ht
        obtain ⟨objects_, hobjects⟩ := List.getLast?_eq_some_iff.mp ht
        cases hstep
        refine h.goto ?_ fun _ => .inl ?_
        · rw [hi, hobjects, List.dropLast_concat, ← Multiset.coe_add, Multiset.coe_singleton]
          simp only [Pc.object, State.goto]
          abel
        · rw [hi, List.length_dropLast]
          simp [Pc.pushes]
    · cases hstep
  | finish i =>
    simp only [ObjectPool.step] at hstep
    split at hstep
    · rename_i hi
      cases hstep
      refine h.goto ?_ fun _ => .inl (by rw [hi]; rfl)
      rw [hi, ← Multiset.coe_add, Multiset.coe_singleton, Multiset.range_succ, ← Multiset.singleton_add]
      simp only [Pc.object, State.goto]
      abel
    · rename_i t hi
      cases hstep
      refine h.goto ?_ fun _ => .inl (by rw [hi]; rfl)
      rw [hi, ← Multiset.coe_add, Multiset.coe_singleton]
      simp only [Pc.object, State.goto]
      abel
    · cases hstep
  | release i t =>
    obtain ⟨⟨hi, ht⟩, hs⟩ := Option.ite_none_right_eq_some.mp hstep
    cases hs
    refine h.goto ?_ fun _ => .inl (by rw [hi]; rfl)
    have herase : (t : Nat) ::ₘ ((s.used.erase t : List Nat) : Multiset Nat) = s.used :=
      Multiset.coe_eq_coe.mpr (List.perm_cons_erase ht).symm
    rw [hi, ← herase, ← Multiset.singleton_add]
    simp only [Pc.object, State.goto]
    abel
  | check i =>
    simp only [ObjectPool.step] at hstep
    split at hstep
    · rename_i t hi
      split at hstep
      · cases hstep
        refine h.goto ?_ fun _ => .inl (by rw [hi]; rfl)
        rw [hi, ← Multiset.coe_add, Multiset.coe_singleton]
        simp only [Pc.object, State.goto]
        abel
      · rename_i hsize
        cases hstep
        refine h.goto (by rw [hi]; rfl) fun hpool => .inr ?_
        exact Nat.lt_of_not_le fun hle => hsize ⟨hpool, hle⟩
    · cases hstep
  | push i =>
    simp only [ObjectPool.step] at hstep
    split at hstep
    · rename_i t hi
      cases hstep
      refine h.goto ?_ fun _ => .inl (by simp [hi, Pc.pushes])
      rw [hi, ← Multiset.coe_add, Multiset.coe_singleton]
      simp only [Pc.object, State.goto]
      abel
    · cases hstep

theorem Inv.of_reach [Nonempty ι] (h : (pool poolSize ι).Reach s) : Inv poolSize s := by
  refine h.invariant ?_ fun s a s' _ hinv hstep => hinv.step hstep
  rintro s rfl
  exact inv_start

end Inv

/-! ## How large the pool gets -/

section Size

variable {poolSize : Nat} {s : State ι} {i : ι}

/-- With an empty pool, `create` makes a new object. -/
theorem exists_create (h : (pool poolSize ι).Reach s) (hobjects : s.objects_ = [])
    (hi : s.pc i = .idle) :
    ∃ s', (pool poolSize ι).Reach s' ∧ s'.objects_ = [] ∧ s'.used.length = s.used.length + 1 ∧
      s'.pc = s.pc := by
  have hcreate : step poolSize s (.create i) = some (s.goto i (.found none)) := by
    simp [step, hi, hobjects]
  have hfinish : step poolSize (s.goto i (.found none)) (.finish i) =
      some ⟨[], s.used ++ [s.next], s.deleted, s.next + 1, s.pc⟩ := by
    simp [step, State.goto, hobjects, hi]
  exact ⟨_, (h.step hcreate).step hfinish, rfl, by simp, rfl⟩

/-- Below `PoolSize`, a thread gets past the comparison. -/
theorem exists_pushing (h : (pool poolSize ι).Reach s) (hsize : s.objects_.length < poolSize)
    (hused : s.used ≠ []) (hi : s.pc i = .idle) :
    ∃ s' t, (pool poolSize ι).Reach s' ∧ s'.objects_ = s.objects_ ∧
      s'.used.length + 1 = s.used.length ∧ s'.pc = Function.update s.pc i (.pushing t) := by
  obtain ⟨t, rest, hrest⟩ := List.exists_cons_of_ne_nil hused
  have hrelease : step poolSize s (.release i t) =
      some { s.goto i (.releasing t) with used := rest } := by
    simp [step, hi, hrest]
  have hlt : ¬ poolSize ≤ s.objects_.length := by omega
  have hcheck : step poolSize { s.goto i (.releasing t) with used := rest } (.check i) =
      some ⟨s.objects_, rest, s.deleted, s.next, Function.update s.pc i (.pushing t)⟩ := by
    simp [step, State.goto, hlt]
  exact ⟨_, t, (h.step hrelease).step hcheck, rfl, by simp [hrest], rfl⟩

theorem exists_push {t : Nat} (h : (pool poolSize ι).Reach s) (hi : s.pc i = .pushing t) :
    ∃ s', (pool poolSize ι).Reach s' ∧ s'.objects_.length = s.objects_.length + 1 ∧
      s'.used = s.used ∧ s'.pc = Function.update s.pc i .idle := by
  have hpush : step poolSize s (.push i) =
      some { s.goto i .idle with objects_ := s.objects_ ++ [t] } := by
    simp [step, hi]
  exact ⟨_, h.step hpush, by simp, rfl, rfl⟩

variable [Nonempty ι]

theorem exists_used (poolSize n : Nat) : ∃ s : State ι, (pool poolSize ι).Reach s ∧ s.objects_ = [] ∧
    s.used.length = n ∧ s.pc = fun _ => .idle := by
  obtain ⟨i⟩ := ‹Nonempty ι›
  induction n with
  | zero => exact ⟨{}, .start rfl, rfl, rfl, rfl⟩
  | succ n ih =>
    obtain ⟨s, hs, hobjects, hused, hpc⟩ := ih
    obtain ⟨s', hs', hobjects', hused', hpc'⟩ := exists_create (i := i) hs hobjects (by rw [hpc])
    exact ⟨s', hs', hobjects', by rw [hused', hused], hpc'.trans hpc⟩

/-- One thread fills the pool up to `PoolSize`. -/
theorem exists_filled (k n : Nat) (hk : k ≤ poolSize) : ∃ s : State ι, (pool poolSize ι).Reach s ∧
    s.objects_.length = k ∧ s.used.length = n ∧ s.pc = fun _ => .idle := by
  induction k generalizing n with
  | zero =>
    obtain ⟨s, hs, hobjects, hrest⟩ := @exists_used ι _ _ poolSize n
    exact ⟨s, hs, by rw [hobjects, List.length_nil], hrest⟩
  | succ k ih =>
    obtain ⟨s, hs, hobjects, hused, hpc⟩ := ih (n + 1) (by omega)
    obtain ⟨i⟩ := ‹Nonempty ι›
    obtain ⟨s₁, t, hs₁, hobjects₁, hused₁, hpc₁⟩ := exists_pushing (i := i) hs (by omega)
      (List.length_pos_iff.mp (by omega)) (by rw [hpc])
    obtain ⟨s₂, hs₂, hobjects₂, hused₂, hpc₂⟩ := exists_push (i := i) (t := t) hs₁ (by simp [hpc₁])
    refine ⟨s₂, hs₂, by rw [hobjects₂, hobjects₁, hobjects], by rw [hused₂]; omega, ?_⟩
    rw [hpc₂, hpc₁, hpc, Function.update_idem, Function.update_eq_self_iff]

/-- All of `threads` get past the comparison while one place is free. -/
theorem exists_all_pushing [Fintype ι] (hpool : poolSize ≠ 0) (threads : Finset ι) :
    ∃ s : State ι, (pool poolSize ι).Reach s ∧ s.objects_.length + 1 = poolSize ∧
      s.used.length + threads.card = Fintype.card ι ∧ (∀ i ∈ threads, ∃ t, s.pc i = .pushing t) ∧
      ∀ i ∉ threads, s.pc i = .idle := by
  induction threads using Finset.induction_on with
  | empty =>
    obtain ⟨s, hs, hobjects, hused, hpc⟩ : ∃ s : State ι, (pool poolSize ι).Reach s ∧
        s.objects_.length = poolSize - 1 ∧ s.used.length = Fintype.card ι ∧ s.pc = fun _ => .idle :=
      exists_filled (poolSize - 1) (Fintype.card ι) (by omega)
    exact ⟨s, hs, by omega, by simpa using hused, by simp, fun i _ => by rw [hpc]⟩
  | insert i threads hi ih =>
    obtain ⟨s, hs, hobjects, hused, hpushing, hidle⟩ := ih
    have hcard : (insert i threads).card ≤ Fintype.card ι := Finset.card_le_univ _
    rw [Finset.card_insert_of_notMem hi] at hcard ⊢
    obtain ⟨s', t, hs', hobjects', hused', hpc'⟩ := exists_pushing (i := i) hs (by omega)
      (List.length_pos_iff.mp (by omega)) (hidle i hi)
    refine ⟨s', hs', by rw [hobjects', hobjects], by omega, fun j hj => ?_, fun j hj => ?_⟩
    · rw [hpc']
      by_cases hji : j = i
      · exact ⟨t, by rw [hji, Function.update_self]⟩
      · rw [Function.update_of_ne hji]
        exact hpushing j (Finset.mem_of_mem_insert_of_ne hj hji)
    · rw [Finset.mem_insert, not_or] at hj
      rw [hpc', Function.update_of_ne hj.1]
      exact hidle j hj.2

/-- Then all of them push. -/
theorem exists_all_pushed [Fintype ι] (hpool : poolSize ≠ 0) (threads : Finset ι) :
    ∃ s : State ι, (pool poolSize ι).Reach s ∧ s.objects_.length + 1 = poolSize + threads.card ∧
      ∀ i ∉ threads, ∃ t, s.pc i = .pushing t := by
  induction threads using Finset.induction_on with
  | empty =>
    obtain ⟨s, hs, hobjects, -, hpushing, -⟩ := exists_all_pushing hpool (Finset.univ : Finset ι)
    exact ⟨s, hs, hobjects, fun i _ => hpushing i (Finset.mem_univ i)⟩
  | insert i threads hi ih =>
    obtain ⟨s, hs, hobjects, hpushing⟩ := ih
    obtain ⟨t, ht⟩ := hpushing i hi
    obtain ⟨s', hs', hobjects', -, hpc'⟩ := exists_push hs ht
    refine ⟨s', hs', by rw [Finset.card_insert_of_notMem hi]; omega, fun j hj => ?_⟩
    rw [Finset.mem_insert, not_or] at hj
    rw [hpc', Function.update_of_ne hj.1]
    exact hpushing j hj.2

/-- **The size of the pool.**  Under a `spin_lock` an object is never in the pool twice, nor in the pool while
it is used or after it was deleted.  The comparison of `size()`, one access without the lock, with `PoolSize`
is made before the lock is taken, so the pool can hold more: at most one object less than `PoolSize` and
the threads together, which it can reach. -/
theorem pool_size (ι : Type) [DecidableEq ι] [Fintype ι] [Nonempty ι] (poolSize : Nat)
    (hpool : poolSize ≠ 0) :
    (∀ s, (pool poolSize ι).Reach s → (s.objects_ ++ s.used ++ s.deleted).Nodup) ∧
      IsGreatest {n | ∃ s, (pool poolSize ι).Reach s ∧ s.objects_.length = n}
        (poolSize + Fintype.card ι - 1) := by
  refine ⟨fun s hs => ?_, ?_, ?_⟩
  · have hinv := (Inv.of_reach hs).objects
    have hnodup : (Multiset.range s.next).Nodup := Multiset.nodup_range _
    rw [← hinv] at hnodup
    have hlists := Multiset.nodup_of_le (Multiset.le_add_right _ _) hnodup
    rwa [Multiset.coe_add, Multiset.coe_add, Multiset.coe_nodup] at hlists
  · obtain ⟨s, hs, hobjects, -⟩ := exists_all_pushed hpool (Finset.univ : Finset ι)
    rw [Finset.card_univ] at hobjects
    exact ⟨s, hs, by omega⟩
  · rintro n ⟨s, hs, rfl⟩
    have hsize := (Inv.of_reach hs).size hpool
    omega

/-- `buffer_cache_` with four threads. -/
theorem pool_size_buffer_cache :
    (∀ s, (pool 1000 (Fin 4)).Reach s → (s.objects_ ++ s.used ++ s.deleted).Nodup) ∧
      IsGreatest {n | ∃ s, (pool 1000 (Fin 4)).Reach s ∧ s.objects_.length = n}
        (1000 + Fintype.card (Fin 4) - 1) :=
  pool_size (Fin 4) 1000 (by decide)

end Size

end HappyServer.Common.ObjectPool
