import HappyServer.Common.RwLock
import HappyServer.Lib.Guarded

/-!
# The locks as guards (`common/spinlock.hpp`, `common/rwlock.hpp`)

`spin_lock` is one atomic flag.  Both locks are a `Guard`: what is done behind them is done at once, as
far as other threads can see.

* `SpinLock.Inv`: the flag is up while a thread is inside, and no two are.
* `RwLock.guard`: the lock of `common/rwlock.hpp`, for as many threads as it can count.
-/

namespace HappyServer.Common

open Guarded

/-! ## spin_lock -/

namespace SpinLock

inductive Pc where
  | outside
  /-- `lock`, at `while (!try_lock())` -/
  | trying
  /-- after `lock`; `unlock` is next -/
  | locked
deriving DecidableEq

structure State (ι : Type) where
  flag_ : Bool := false
  pc : ι → Pc := fun _ => .outside

variable {ι : Type} [DecidableEq ι]

def State.goto (s : State ι) (i : ι) (p : Pc) : State ι :=
  { s with pc := Function.update s.pc i p }

/-- `!flag_.test_and_set(std::memory_order_acquire)` -/
def tryLock (s : State ι) : Bool × State ι := (!s.flag_, { s with flag_ := true })

/-- It cannot be shared. -/
def acquire (m : Mode) (i : ι) (s : State ι) : Option (State ι) :=
  if m = .exclusive ∧ s.pc i = .outside then some (s.goto i .trying) else none

def access (i : ι) (s : State ι) : Option (State ι) :=
  match s.pc i with
  | .outside => none
  | .trying =>
    let (locked, s) := tryLock s
    some (if locked then s.goto i .locked else s)
  | .locked => some { s.goto i .outside with flag_ := false }

def Pc.place : Pc → Place
  | .outside => .outside
  | .trying => .acquiring .exclusive
  | .locked => .inside .exclusive

structure Inv (s : State ι) : Prop where
  flag : ∀ i, s.pc i = .locked → s.flag_ = true
  alone : ∀ i j, s.pc i = .locked → s.pc j = .locked → j = i

theorem place_goto (s : State ι) (i : ι) (p : Pc) :
    (fun j => (Function.update s.pc i p j).place) =
      Function.update (fun j => (s.pc j).place) i p.place := by
  funext j
  by_cases hj : j = i
  · subst hj
    rw [Function.update_self, Function.update_self]
  · rw [Function.update_of_ne hj, Function.update_of_ne hj]

/-- A thread moves, and is not inside then. -/
theorem Inv.out {s : State ι} (h : Inv s) {i : ι} {p : Pc} {flag : Bool} (hp : p ≠ .locked)
    (hflag : ∀ j, j ≠ i → s.pc j = .locked → flag = true) :
    Inv ⟨flag, Function.update s.pc i p⟩ := by
  have hne : ∀ j, Function.update s.pc i p j = .locked → j ≠ i ∧ s.pc j = .locked := by
    intro j hj
    by_cases hji : j = i
    · subst hji
      rw [Function.update_self] at hj
      exact absurd hj hp
    · rw [Function.update_of_ne hji] at hj
      exact ⟨hji, hj⟩
  constructor
  · intro j hj
    exact hflag j (hne j hj).1 (hne j hj).2
  · intro j k hj hk
    exact h.alone j k (hne j hj).2 (hne k hk).2

theorem acquire_spec {s s' : State ι} {m : Mode} {i : ι} (h : Inv s)
    (hacquire : acquire m i s = some s') :
    Inv s' ∧ (s.pc i).place = .outside ∧
      (fun j => (s'.pc j).place) = Function.update (fun j => (s.pc j).place) i (.acquiring m) := by
  unfold acquire at hacquire
  rw [Option.ite_none_right_eq_some, Option.some.injEq] at hacquire
  obtain ⟨⟨rfl, hpc⟩, rfl⟩ := hacquire
  refine ⟨h.out (by simp) fun j _ hj => h.flag j hj, ?_, place_goto s i .trying⟩
  rw [hpc]
  rfl

theorem access_spec {s s' : State ι} {i : ι} (h : Inv s) (haccess : access i s = some s') :
    Inv s' ∧ ((∃ m, (s.pc i).place = .acquiring m ∧
        ((fun j => (s'.pc j).place) = (fun j => (s.pc j).place) ∨
          (fun j => (s'.pc j).place) = Function.update (fun j => (s.pc j).place) i (.inside m))) ∨
      ∃ m, (s.pc i).place = .inside m ∧
        (fun j => (s'.pc j).place) = Function.update (fun j => (s.pc j).place) i .outside) := by
  unfold access at haccess
  cases hpc : s.pc i with
  | outside =>
    rw [hpc] at haccess
    cases haccess
  | trying =>
    rw [hpc] at haccess
    have hs' : (if !s.flag_ then State.goto { s with flag_ := true } i .locked
        else { s with flag_ := true }) = s' := Option.some.inj haccess
    cases hflag : s.flag_ with
    | true =>
      rw [hflag] at hs'
      subst hs'
      exact ⟨⟨fun _ _ => rfl, h.alone⟩, Or.inl ⟨.exclusive, rfl, Or.inl rfl⟩⟩
    | false =>
      rw [hflag] at hs'
      subst hs'
      -- nobody was inside, since the flag was down
      have hnone : ∀ j, s.pc j ≠ .locked := by
        intro j hj
        have := h.flag j hj
        rw [hflag] at this
        cases this
      refine ⟨⟨fun _ _ => rfl, ?_⟩, Or.inl ⟨.exclusive, rfl, Or.inr (place_goto s i .locked)⟩⟩
      have honly : ∀ j, Function.update s.pc i .locked j = .locked → j = i := by
        intro j hj
        by_contra hji
        rw [Function.update_of_ne hji] at hj
        exact hnone j hj
      intro j k hj hk
      rw [honly j hj, honly k hk]
  | locked =>
    rw [hpc] at haccess
    have hs' := Option.some.inj haccess
    subst hs'
    refine ⟨h.out (by simp) ?_, Or.inr ⟨.exclusive, rfl, place_goto s i .outside⟩⟩
    intro j hji hj
    exact absurd (h.alone i j hpc hj) hji

def guard (ι : Type) [DecidableEq ι] : Guard ι where
  State := State ι
  start := {}
  acquire := acquire
  access := access
  place s i := (s.pc i).place
  Inv := Inv
  inv_start := ⟨nofun, nofun⟩
  place_start _ := rfl
  acquire_spec h hacquire := acquire_spec h hacquire
  access_spec h haccess := access_spec h haccess
  excludes {s i j m} h hi hj := by
    have hlocked : ∀ k m', (s.pc k).place = .inside m' → s.pc k = .locked := by
      intro k m' hk
      cases hpc : s.pc k with
      | locked => rfl
      | _ =>
        rw [hpc] at hk
        cases hk
    exact h.alone i j (hlocked i _ hi) (hlocked j _ hj)

end SpinLock

/-! ## rwlock -/

namespace RwLock

variable {ι : Type} [DecidableEq ι]

def Pc.place : Pc → Place
  | .outside => .outside
  | .spin | .announce | .check | .retreat => .acquiring .shared
  | .reading => .inside .shared
  | .exchange | .drain => .acquiring .exclusive
  | .writing => .inside .exclusive

theorem place_goto (s : State ι) (i : ι) (p : Pc) :
    (fun j => ((s.goto i p).pc j).place) = Function.update (fun j => (s.pc j).place) i p.place := by
  funext j
  show (Function.update s.pc i p j).place = _
  by_cases hj : j = i
  · subst hj
    rw [Function.update_self, Function.update_self]
  · rw [Function.update_of_ne hj, Function.update_of_ne hj]

def acquire (m : Mode) (i : ι) (s : State ι) : Option (State ι) :=
  match m with
  | .shared => step s (.lockShared i)
  | .exclusive => step s (.lock i)

theorem acquire_place {s s' : State ι} {m : Mode} {i : ι} (hacquire : acquire m i s = some s') :
    (s.pc i).place = .outside ∧
      (fun j => (s'.pc j).place) = Function.update (fun j => (s.pc j).place) i (.acquiring m) := by
  cases m with
  | shared =>
    have hstep : step s (.lockShared i) = some s' := hacquire
    rw [step, Option.ite_none_right_eq_some, Option.some.injEq] at hstep
    obtain ⟨hpc, rfl⟩ := hstep
    rw [hpc]
    exact ⟨rfl, place_goto s i .spin⟩
  | exclusive =>
    have hstep : step s (.lock i) = some s' := hacquire
    rw [step, Option.ite_none_right_eq_some, Option.some.injEq] at hstep
    obtain ⟨hpc, rfl⟩ := hstep
    rw [hpc]
    exact ⟨rfl, place_goto s i .exchange⟩

/-- A thread that moves within the same place leaves all places. -/
theorem place_stay {s : State ι} {i : ι} {p : Pc} (h : p.place = (s.pc i).place) :
    (fun j => ((s.goto i p).pc j).place) = fun j => (s.pc j).place := by
  rw [place_goto, h]
  exact Function.update_eq_self i fun j => (s.pc j).place

theorem access_place {s s' : State ι} {i : ι} (haccess : access s i = some s') :
    (∃ m, (s.pc i).place = .acquiring m ∧
        ((fun j => (s'.pc j).place) = (fun j => (s.pc j).place) ∨
          (fun j => (s'.pc j).place) = Function.update (fun j => (s.pc j).place) i (.inside m))) ∨
      ∃ m, (s.pc i).place = .inside m ∧
        (fun j => (s'.pc j).place) = Function.update (fun j => (s.pc j).place) i .outside := by
  unfold access at haccess
  cases hpc : s.pc i with
  | outside => simp [hpc] at haccess
  | spin =>
    simp only [hpc, Option.some.injEq] at haccess
    subst haccess
    refine Or.inl ⟨.shared, rfl, Or.inl ?_⟩
    split
    · rfl
    · exact place_stay (by rw [hpc]; rfl)
  | announce =>
    simp only [hpc, Option.some.injEq] at haccess
    subst haccess
    exact Or.inl ⟨.shared, rfl, Or.inl (place_stay (by rw [hpc]; rfl))⟩
  | check =>
    simp only [hpc, Option.some.injEq] at haccess
    subst haccess
    refine Or.inl ⟨.shared, rfl, ?_⟩
    cases s.write_ with
    | true => exact Or.inl (place_stay (by rw [hpc]; rfl))
    | false => exact Or.inr (place_goto s i .reading)
  | retreat =>
    simp only [hpc, Option.some.injEq] at haccess
    subst haccess
    exact Or.inl ⟨.shared, rfl, Or.inl (place_stay (by rw [hpc]; rfl))⟩
  | reading =>
    simp only [hpc, Option.some.injEq] at haccess
    subst haccess
    exact Or.inr ⟨.shared, rfl, place_goto s i .outside⟩
  | exchange =>
    simp only [hpc, Option.some.injEq] at haccess
    subst haccess
    refine Or.inl ⟨.exclusive, rfl, Or.inl ?_⟩
    cases s.write_ with
    | true => exact place_stay (p := .exchange) (by rw [hpc])
    | false => exact place_stay (p := .drain) (by rw [hpc]; rfl)
  | drain =>
    simp only [hpc, Option.some.injEq] at haccess
    subst haccess
    refine Or.inl ⟨.exclusive, rfl, ?_⟩
    split
    · exact Or.inl rfl
    · exact Or.inr (place_goto s i .writing)
  | writing =>
    simp only [hpc, Option.some.injEq] at haccess
    subst haccess
    exact Or.inr ⟨.exclusive, rfl, place_goto s i .outside⟩

variable [Fintype ι]

/-- For no more threads than `read_` can tell apart from none. -/
def guard (hcard : Fintype.card ι ≤ 2 ^ 32) : Guard ι where
  State := State ι
  start := {}
  acquire := acquire
  access i s := access s i
  place s i := (s.pc i).place
  Inv := Inv
  inv_start := inv_start
  place_start _ := rfl
  acquire_spec {s m i s'} h hacquire := by
    refine ⟨?_, acquire_place hacquire⟩
    cases m with
    | shared => exact h.step hcard (a := .lockShared i) hacquire
    | exclusive => exact h.step hcard (a := .lock i) hacquire
  access_spec {s i s'} h haccess := ⟨h.access hcard haccess, access_place haccess⟩
  excludes {s i j m} h hi hj := by
    have hwriting : ∀ k, (s.pc k).place = .inside .exclusive → s.pc k = .writing := by
      intro k hk
      cases hpc : s.pc k with
      | writing => rfl
      | _ =>
        rw [hpc] at hk
        cases hk
    obtain ⟨honly, hno⟩ := h.excludes i (hwriting i hi) j
    cases m with
    | exclusive => exact honly (hwriting j hj)
    | shared =>
      exfalso
      apply hno
      cases hpc : s.pc j with
      | reading => rfl
      | _ =>
        rw [hpc] at hj
        cases hj

end RwLock

end HappyServer.Common
