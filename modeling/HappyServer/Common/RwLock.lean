import HappyServer.Lib.Runs
import HappyServer.Lib.Tally

/-!
# The read-write lock (`common/rwlock.hpp`)

`rwlock` is two atomics.  Any number of threads `ι` repeatedly do `lock`/`unlock` or
`lock_shared`/`unlock_shared`; one step is one atomic access of one thread (`step`).

* `Pc` names the next access; `Pc.announced` counts in `read_`, `Pc.holds` has the flag raised.
* `Inv`: what holds between any two accesses; `read_` only modulo `2 ^ 32`, since it is an
  `int32_t`.
* `reach_crowd`: any set of readers can be inside at once, so that `read_` does wrap from
  `2 ^ 31` threads on.
-/

namespace HappyServer.Common.RwLock

/-- Where a thread is. -/
inductive Pc where
  | outside
  /-- `lock_shared`, at `while (write_.load())` -/
  | spin
  /-- at `read_.fetch_add(1)` -/
  | announce
  /-- at `if (write_.load())` -/
  | check
  /-- that was so; at `read_.fetch_sub(1)` -/
  | retreat
  /-- after `lock_shared`; `unlock_shared` is next -/
  | reading
  /-- `lock`, at `while (write_.exchange(true))` -/
  | exchange
  /-- at `while (read_.load())` -/
  | drain
  /-- after `lock`; `unlock` is next -/
  | writing
deriving DecidableEq

/-- Between the increment and the decrement. -/
def Pc.announced : Pc → Bool
  | .check | .retreat | .reading => true
  | _ => false

/-- Between the exchange that returned `false` and the store. -/
def Pc.holds : Pc → Bool
  | .drain | .writing => true
  | _ => false

structure State (ι : Type) where
  read_ : Int32 := 0
  write_ : Bool := false
  pc : ι → Pc := fun _ => .outside

inductive Action (ι : Type) where
  | lockShared (i : ι)
  | lock (i : ι)
  /-- the thread's next access -/
  | access (i : ι)

variable {ι : Type} [DecidableEq ι]

def State.goto (s : State ι) (i : ι) (p : Pc) : State ι :=
  { s with pc := Function.update s.pc i p }

@[simp] theorem State.goto_read (s : State ι) (i : ι) (p : Pc) : (s.goto i p).read_ = s.read_ := rfl
@[simp] theorem State.goto_write (s : State ι) (i : ι) (p : Pc) : (s.goto i p).write_ = s.write_ := rfl

def access (s : State ι) (i : ι) : Option (State ι) :=
  match s.pc i with
  | .outside => none
  | .spin => some (if s.write_ then s else s.goto i .announce)
  | .announce => some { s.goto i .check with read_ := s.read_ + 1 }
  | .check => some (s.goto i (if s.write_ then .retreat else .reading))
  | .retreat => some { s.goto i .spin with read_ := s.read_ - 1 }
  | .reading => some { s.goto i .outside with read_ := s.read_ - 1 }
  | .exchange => some { s.goto i (if s.write_ then .exchange else .drain) with write_ := true }
  | .drain => some (if s.read_ ≠ 0 then s else s.goto i .writing)
  | .writing => some { s.goto i .outside with write_ := false }

def step (s : State ι) : Action ι → Option (State ι)
  | .lockShared i => if s.pc i = .outside then some (s.goto i .spin) else none
  | .lock i => if s.pc i = .outside then some (s.goto i .exchange) else none
  | .access i => access s i

/-- The lock as constructed, and every interleaving of the accesses. -/
def rwlock (ι : Type) [DecidableEq ι] : System (State ι) (Action ι) where
  start s := s = {}
  step s a s' := step s a = some s'

/-- No writer is inside together with another writer or with a reader. -/
def Excludes (s : State ι) : Prop :=
  ∀ i, s.pc i = .writing → ∀ j, (s.pc j = .writing → j = i) ∧ s.pc j ≠ .reading

/-- `read_` is the number of readers inside and of those between their increment and their
retreat or entry. -/
def Exact [Fintype ι] (s : State ι) : Prop := s.read_.toInt = tally Pc.announced s.pc

/-! ## The invariant -/

section

variable {ι : Type} [Fintype ι] {s s' : State ι} {i : ι} {a : Action ι}

structure Inv (s : State ι) : Prop where
  read : s.read_ = Int32.ofNat (tally Pc.announced s.pc)
  write : s.write_.toNat = tally Pc.holds s.pc
  apart : ∀ i, s.pc i = .writing → ∀ j, s.pc j ≠ .reading

theorem inv_start : Inv ({} : State ι) where
  read := by simp [Pc.announced]
  write := by simp [Pc.holds]
  apart := by simp

theorem Inv.write_of_holds (h : Inv s) (hi : (s.pc i).holds) : s.write_ = true := by
  by_contra hw
  have hzero : tally Pc.holds s.pc = 0 := by
    rw [← h.write, Bool.eq_false_iff.mpr hw]
    rfl
  rw [tally_eq_zero.mp hzero i] at hi
  cases hi

/-- Up to `2 ^ 32` threads, one of them not announced: `read_` is 0 only when none is. -/
theorem Inv.no_reader (h : Inv s) (hcard : Fintype.card ι ≤ 2 ^ 32)
    (hi : (s.pc i).announced = false) (hzero : s.read_ = 0) (j : ι) : s.pc j ≠ .reading := by
  intro hj
  have hnat : (Int32.ofNat (tally Pc.announced s.pc)).toUInt32.toNat = 0 := by
    rw [← h.read, hzero]
    rfl
  have hlt : tally Pc.announced s.pc < Fintype.card ι := tally_lt_card hi
  have hnone : tally Pc.announced s.pc = 0 := by
    simp [Int32.toUInt32_ofNat'] at hnat
    omega
  have := tally_eq_zero.mp hnone j
  rw [hj] at this
  cases this

variable [DecidableEq ι]

/-- One thread moves to `p`: `read_` and `write_` follow its own share, a reader enters past
a lowered flag, a writer enters past no reader. -/
theorem Inv.goto (h : Inv s) {p : Pc} {read_ : Int32} {write_ : Bool}
    (hread : read_ + Int32.ofNat (s.pc i).announced.toNat
      = s.read_ + Int32.ofNat p.announced.toNat)
    (hwrite : write_.toNat + (s.pc i).holds.toNat = s.write_.toNat + p.holds.toNat)
    (hreading : p = .reading → s.write_ = false)
    (hwriting : p = .writing → ∀ j, s.pc j ≠ .reading) :
    Inv { read_ := read_, write_ := write_, pc := Function.update s.pc i p } where
  read := by
    have hmove := congrArg Int32.ofNat (tally_update Pc.announced s.pc i p)
    rw [Int32.ofNat_add, Int32.ofNat_add, ← h.read] at hmove
    show read_ = Int32.ofNat (tally Pc.announced (Function.update s.pc i p))
    grind
  write := by
    have hmove := tally_update Pc.holds s.pc i p
    have := h.write
    show write_.toNat = tally Pc.holds (Function.update s.pc i p)
    omega
  apart := by
    show ∀ j, Function.update s.pc i p j = .writing → ∀ k, Function.update s.pc i p k ≠ .reading
    intro j hj k hk
    by_cases hji : j = i
    · subst hji
      rw [Function.update_self] at hj
      by_cases hkj : k = j
      · subst hkj
        rw [Function.update_self, hj] at hk
        cases hk
      · rw [Function.update_of_ne hkj] at hk
        exact hwriting hj k hk
    · rw [Function.update_of_ne hji] at hj
      by_cases hki : k = i
      · subst hki
        rw [Function.update_self] at hk
        have hup := h.write_of_holds (i := j) (by rw [hj]; rfl)
        rw [hreading hk] at hup
        cases hup
      · rw [Function.update_of_ne hki] at hk
        exact h.apart j hj k hk

theorem Inv.access (h : Inv s) (hcard : Fintype.card ι ≤ 2 ^ 32) (hacc : access s i = some s') :
    Inv s' := by
  unfold RwLock.access at hacc
  cases hpc : s.pc i with
  | outside => simp [hpc] at hacc
  | spin =>
    simp only [hpc, Option.some.injEq] at hacc
    subst hacc
    split
    · exact h
    · exact h.goto (by simp [hpc, Pc.announced]) (by simp [hpc, Pc.holds]) nofun nofun
  | announce =>
    simp only [hpc, Option.some.injEq] at hacc
    subst hacc
    exact h.goto (by simp [hpc, Pc.announced]) (by simp [hpc, Pc.holds]) nofun nofun
  | check =>
    simp only [hpc, Option.some.injEq] at hacc
    subst hacc
    cases hw : s.write_ with
    | true => exact h.goto (by simp [hpc, Pc.announced]) (by simp [hpc, Pc.holds]) nofun nofun
    | false =>
      exact h.goto (by simp [hpc, Pc.announced]) (by simp [hpc, Pc.holds]) (fun _ => hw) nofun
  | retreat =>
    simp only [hpc, Option.some.injEq] at hacc
    subst hacc
    exact h.goto (by simp [hpc, Pc.announced]) (by simp [hpc, Pc.holds]) nofun nofun
  | reading =>
    simp only [hpc, Option.some.injEq] at hacc
    subst hacc
    exact h.goto (by simp [hpc, Pc.announced]) (by simp [hpc, Pc.holds]) nofun nofun
  | exchange =>
    simp only [hpc, Option.some.injEq] at hacc
    subst hacc
    cases hw : s.write_ with
    | true => exact h.goto (by simp [hpc, Pc.announced]) (by simp [hpc, hw, Pc.holds]) nofun nofun
    | false => exact h.goto (by simp [hpc, Pc.announced]) (by simp [hpc, hw, Pc.holds]) nofun nofun
  | drain =>
    simp only [hpc, Option.some.injEq] at hacc
    subst hacc
    by_cases hzero : s.read_ = 0
    · rw [if_neg (by simpa using hzero)]
      exact h.goto (by simp [hpc, Pc.announced]) (by simp [hpc, Pc.holds]) nofun
        fun _ => h.no_reader hcard (by rw [hpc]; rfl) hzero
    · rw [if_pos hzero]
      exact h
  | writing =>
    simp only [hpc, Option.some.injEq] at hacc
    subst hacc
    have hup : s.write_ = true := h.write_of_holds (i := i) (by rw [hpc]; rfl)
    exact h.goto (by simp [hpc, Pc.announced]) (by simp [hpc, hup, Pc.holds]) nofun nofun

theorem Inv.step (h : Inv s) (hcard : Fintype.card ι ≤ 2 ^ 32) (hstep : step s a = some s') :
    Inv s' := by
  cases a with
  | lockShared i =>
    simp only [RwLock.step, Option.ite_none_right_eq_some, Option.some.injEq] at hstep
    obtain ⟨hpc, rfl⟩ := hstep
    exact h.goto (by simp [hpc, Pc.announced]) (by simp [hpc, Pc.holds]) nofun nofun
  | lock i =>
    simp only [RwLock.step, Option.ite_none_right_eq_some, Option.some.injEq] at hstep
    obtain ⟨hpc, rfl⟩ := hstep
    exact h.goto (by simp [hpc, Pc.announced]) (by simp [hpc, Pc.holds]) nofun nofun
  | access i => exact h.access hcard hstep

theorem inv_of_reach (hcard : Fintype.card ι ≤ 2 ^ 32) (h : (rwlock ι).Reach s) : Inv s := by
  refine h.invariant ?_ ?_
  · rintro s rfl
    exact inv_start
  · intro s a s' _ hs hstep
    exact hs.step hcard hstep

theorem Inv.excludes (h : Inv s) : Excludes s := by
  intro i hi j
  refine ⟨fun hj => ?_, h.apart i hi j⟩
  have hone : tally Pc.holds s.pc ≤ 1 := by
    rw [← h.write]
    exact Bool.toNat_le _
  exact eq_of_tally_le_one hone (by rw [hj]; rfl) (by rw [hi]; rfl)

omit [DecidableEq ι] in
theorem Inv.exact (h : Inv s) (hcard : Fintype.card ι < 2 ^ 31) : Exact s := by
  have hle : tally Pc.announced s.pc ≤ Fintype.card ι := tally_le_card
  rw [Exact, h.read, Int32.toInt_ofNat_of_lt (by omega)]

end

/-! ## How far `read_` can count -/

section

variable {s : State ι} {i : ι}

/-- An uncontended `lock_shared` ends inside. -/
theorem reach_lockShared (h : (rwlock ι).Reach s) (hpc : s.pc i = .outside)
    (hw : s.write_ = false) :
    (rwlock ι).Reach { s with read_ := s.read_ + 1, pc := Function.update s.pc i .reading } := by
  have h₁ : (rwlock ι).Reach (s.goto i .spin) :=
    h.step (show step s (.lockShared i) = some _ by simp [step, hpc])
  have h₂ : (rwlock ι).Reach (s.goto i .announce) :=
    h₁.step (show step _ (.access i) = some _ by simp [step, access, State.goto, hw])
  have h₃ : (rwlock ι).Reach { s.goto i .check with read_ := s.read_ + 1 } :=
    h₂.step (show step _ (.access i) = some _ by simp [step, access, State.goto])
  exact h₃.step (show step _ (.access i) = some _ by simp [step, access, State.goto, hw])

/-- A thread that finds `read_` 0 ends `lock` inside. -/
theorem reach_lock (h : (rwlock ι).Reach s) (hpc : s.pc i = .outside) (hw : s.write_ = false)
    (hzero : s.read_ = 0) : (rwlock ι).Reach { s.goto i .writing with write_ := true } := by
  have h₁ : (rwlock ι).Reach (s.goto i .exchange) :=
    h.step (show step s (.lock i) = some _ by simp [step, hpc])
  have h₂ : (rwlock ι).Reach { s.goto i .drain with write_ := true } :=
    h₁.step (show step _ (.access i) = some _ by simp [step, access, State.goto, hw])
  exact h₂.step (show step _ (.access i) = some _ by simp [step, access, State.goto, hzero])

/-- The threads of `crowd` are inside as readers, the others outside. -/
def inside (crowd : Finset ι) : State ι where
  read_ := Int32.ofNat crowd.card
  pc i := if i ∈ crowd then .reading else .outside

theorem reach_crowd (crowd : Finset ι) : (rwlock ι).Reach (inside crowd) := by
  induction crowd using Finset.induction_on with
  | empty => exact System.Reach.start (by simp [rwlock, inside])
  | insert i crowd hi ih =>
    have hnext := reach_lockShared (i := i) ih (by simp [inside, hi]) rfl
    convert hnext using 1
    rw [inside, Finset.card_insert_of_notMem hi, Int32.ofNat_add]
    refine congrArg (State.mk _ _) (funext fun j => ?_)
    by_cases hj : j = i
    · subst hj
      simp
    · simp [inside, hj]

variable [Fintype ι]

/-- From `2 ^ 31` threads on, `read_` can be negative. -/
theorem exists_not_exact (hcard : 2 ^ 31 ≤ Fintype.card ι) :
    ∃ s, (rwlock ι).Reach s ∧ ¬ Exact s := by
  obtain ⟨crowd, -, hcrowd⟩ := Finset.exists_subset_card_eq (s := Finset.univ) hcard
  refine ⟨inside crowd, reach_crowd crowd, fun hexact => ?_⟩
  have hneg : (inside crowd).read_.toInt = -2 ^ 31 := by
    rw [inside, hcrowd]
    show (Int32.ofNat (2 ^ 31)).toInt = -2 ^ 31
    decide
  rw [Exact, hneg] at hexact
  omega

/-- Past `2 ^ 32` threads, a writer can take a full round of readers for none. -/
theorem exists_not_excludes (hcard : 2 ^ 32 < Fintype.card ι) :
    ∃ s, (rwlock ι).Reach s ∧ ¬ Excludes s := by
  obtain ⟨crowd, -, hcrowd⟩ := Finset.exists_subset_card_eq (s := Finset.univ) hcard.le
  obtain ⟨i, hi⟩ : ∃ i, i ∉ crowd := by
    by_contra hall
    push Not at hall
    rw [Finset.eq_univ_of_forall hall, Finset.card_univ] at hcrowd
    omega
  obtain ⟨j, hj⟩ : crowd.Nonempty := Finset.card_pos.mp (by omega)
  have hzero : (inside crowd).read_ = 0 := by
    rw [inside, hcrowd]
    show Int32.ofNat (2 ^ 32) = 0
    decide
  refine ⟨_, reach_lock (reach_crowd crowd) (i := i) (by simp [inside, hi]) rfl hzero,
    fun hexcludes => ?_⟩
  have hne : j ≠ i := fun hji => hi (hji ▸ hj)
  have hj_out := (hexcludes i (by simp [State.goto]) j).2
  simp [State.goto, inside, hj, hne] at hj_out

/-- The lock excludes for up to `2 ^ 32` threads and no more, and `read_` counts for fewer than
`2 ^ 31` and no more. -/
theorem excludes_and_exact_iff :
    ((∀ s, (rwlock ι).Reach s → Excludes s) ↔ Fintype.card ι ≤ 2 ^ 32) ∧
      ((∀ s, (rwlock ι).Reach s → Exact s) ↔ Fintype.card ι < 2 ^ 31) := by
  refine ⟨⟨fun h => ?_, fun hcard s hs => ?_⟩, ⟨fun h => ?_, fun hcard s hs => ?_⟩⟩
  · by_contra hcard
    obtain ⟨s, hs, hinside⟩ := exists_not_excludes (Nat.lt_of_not_le hcard)
    exact hinside (h s hs)
  · have hinv : Inv s := inv_of_reach hcard hs
    exact hinv.excludes
  · by_contra hcard
    obtain ⟨s, hs, hinexact⟩ := exists_not_exact (Nat.le_of_not_lt hcard)
    exact hinexact (h s hs)
  · have hinv : Inv s := inv_of_reach (by omega) hs
    exact hinv.exact hcard

theorem not_exact_of_two_pow_threads :
    ¬ ∀ s, (rwlock (Fin (2 ^ 31))).Reach s → Excludes s ∧ Exact s := by
  intro h
  obtain ⟨s, hs, hinexact⟩ := exists_not_exact (ι := Fin (2 ^ 31)) (by rw [Fintype.card_fin])
  exact hinexact (h s hs).2

end

end HappyServer.Common.RwLock
