import HappyServer.Lib.Refines
import Mathlib.Logic.Function.Basic

/-!
# Objects behind a lock

Threads `ι` call operations of an object.  In the atomic object (`atomic`) the whole operation is one step
between the call and the return; behind a lock (`Guard`) it is a run of steps (`Body`), each one access of
the data, and any thread can make a step in between.

* `Guard`: a lock that is shared or exclusive, as a state machine with what its accesses do to the places
  of the threads.
* `Body.Points op a l b`: the operation, begun with the data `a` and alone, can be at `l` with `b`.
* `guarded_refines`: behind a lock an object shows only calls and returns of the atomic one.
* `atomic_refines`: an atomic object shows those of another that it represents.
-/

namespace Guarded

open System

/-! ## Calls and returns -/

section Atomic

variable {ι Op Res α β : Type}

inductive Event (ι Op Res : Type) where
  | call (i : ι) (op : Op)
  | ret (i : ι) (op : Op) (r : Res)
deriving DecidableEq

inductive AtomicAction (ι Op Res : Type) where
  | event (e : Event ι Op Res)
  /-- the operation takes effect -/
  | commit (i : ι)

def AtomicAction.visible : AtomicAction ι Op Res → Option (Event ι Op Res)
  | .event e => some e
  | .commit _ => none

inductive AtomicPc (Op Res : Type) where
  | idle
  | called (op : Op)
  | committed (op : Op) (r : Res)

structure AtomicState (ι Op Res α : Type) where
  data : α
  pc : ι → AtomicPc Op Res

variable [DecidableEq ι]

def AtomicState.goto (t : AtomicState ι Op Res α) (i : ι) (p : AtomicPc Op Res) :
    AtomicState ι Op Res α :=
  { t with pc := Function.update t.pc i p }

inductive AtomicStep (spec : Op → α → Res → α → Prop) :
    AtomicState ι Op Res α → AtomicAction ι Op Res → AtomicState ι Op Res α → Prop
  | call {t i op} : t.pc i = .idle → AtomicStep spec t (.event (.call i op)) (t.goto i (.called op))
  | commit {t i op r b} : t.pc i = .called op → spec op t.data r b →
      AtomicStep spec t (.commit i) { t.goto i (.committed op r) with data := b }
  | ret {t i op r} : t.pc i = .committed op r →
      AtomicStep spec t (.event (.ret i op r)) (t.goto i .idle)

/-- `spec op a r b`: from `a` the operation may return `r` and leave `b`. -/
def atomic (ι : Type) [DecidableEq ι] (spec : Op → α → Res → α → Prop) (start : α) :
    System (AtomicState ι Op Res α) (AtomicAction ι Op Res) where
  start t := t = ⟨start, fun _ => .idle⟩
  step := AtomicStep spec

/-- What the operations of one object do, those of the other do to what it represents. -/
theorem atomic_refines {spec : Op → α → Res → α → Prop} {spec' : Op → β → Res → β → Prop} {a : α} {b : β}
    (repr : α → β → Prop) (hstart : repr a b)
    (hspec : ∀ op a b r a', repr a b → spec op a r a' → ∃ b', spec' op b r b' ∧ repr a' b') :
    (atomic ι spec a).Refines AtomicAction.visible (atomic ι spec' b) AtomicAction.visible := by
  refine refines_of_simulation (fun t u => repr t.data u.data ∧ t.pc = u.pc) ?_ ?_
  · rintro t rfl
    exact ⟨_, rfl, hstart, rfl⟩
  · rintro t ⟨u, upc⟩ e t' ⟨hrepr, hpc⟩ hstep
    dsimp only at hrepr hpc
    subst hpc
    cases hstep with
    | @call i op hi => exact ⟨_, _, .one (.call hi), rfl, hrepr, rfl⟩
    | @commit i op r a' hi hop =>
      obtain ⟨b', hop', hrepr'⟩ := hspec op t.data u r a' hrepr hop
      exact ⟨_, _, .one (.commit hi hop'), rfl, hrepr', rfl⟩
    | @ret i op r hi => exact ⟨_, _, .one (.ret hi), rfl, hrepr, rfl⟩

end Atomic

/-! ## Locks -/

inductive Mode where
  | shared
  | exclusive
deriving DecidableEq

/-- Where a thread is. -/
inductive Place where
  | outside
  | acquiring (m : Mode)
  | inside (m : Mode)
deriving DecidableEq

/-- A lock: `acquire` begins to take it, `access` is the next access that takes it or gives it back. -/
structure Guard (ι : Type) [DecidableEq ι] where
  State : Type
  start : State
  acquire : Mode → ι → State → Option State
  access : ι → State → Option State
  place : State → ι → Place
  Inv : State → Prop
  inv_start : Inv start
  place_start : ∀ i, place start i = .outside
  acquire_spec : ∀ {s m i s'}, Inv s → acquire m i s = some s' →
    Inv s' ∧ place s i = .outside ∧ place s' = Function.update (place s) i (.acquiring m)
  access_spec : ∀ {s i s'}, Inv s → access i s = some s' → Inv s' ∧
    ((∃ m, place s i = .acquiring m ∧
        (place s' = place s ∨ place s' = Function.update (place s) i (.inside m))) ∨
      ∃ m, place s i = .inside m ∧ place s' = Function.update (place s) i .outside)
  excludes : ∀ {s i j m}, Inv s → place s i = .inside .exclusive → place s j = .inside m → j = i

/-! ## Bodies -/

/-- The operations of an object: what each does between taking the lock and giving it back, one access
of the data after another.  `L` is where an operation is. -/
structure Body (Op Res L α : Type) where
  mode : Op → Mode
  enter : Op → L
  run : L → α → α × (L ⊕ Res)

section Body

variable {Op Res L α : Type}

inductive Body.Points (B : Body Op Res L α) (op : Op) (a : α) : L → α → Prop
  | enter : B.Points op a (B.enter op) a
  | run {l l' b b'} : B.Points op a l b → B.run l b = (b', .inl l') → B.Points op a l' b'

/-- The operation alone. -/
def Body.Solo (B : Body Op Res L α) (op : Op) (a : α) (r : Res) (b : α) : Prop :=
  ∃ l b', B.Points op a l b' ∧ B.run l b' = (b, .inr r)

/-- Shared operations only read. -/
def Body.Reads (B : Body Op Res L α) : Prop :=
  ∀ op a l b, B.mode op = .shared → B.Points op a l b → (B.run l b).1 = b

end Body

/-! ## The object behind the lock -/

section Guard

variable {ι Op Res L α : Type} [DecidableEq ι]

inductive Pc (Op Res L : Type) where
  | idle
  | waiting (op : Op)
  | body (op : Op) (l : L)
  /-- the lock is given back next -/
  | leaving (op : Op) (r : Res)
  | done (op : Op) (r : Res)

structure GuardedState (G : Guard ι) (Op Res L α : Type) where
  lock : G.State
  data : α
  pc : ι → Pc Op Res L

inductive Action (ι Op Res : Type) where
  | event (e : Event ι Op Res)
  /-- an access of the lock -/
  | access (i : ι)
  /-- an access of the data -/
  | run (i : ι)

def Action.visible : Action ι Op Res → Option (Event ι Op Res)
  | .event e => some e
  | _ => none

variable {G : Guard ι}

def GuardedState.goto (s : GuardedState G Op Res L α) (i : ι) (p : Pc Op Res L) :
    GuardedState G Op Res L α :=
  { s with pc := Function.update s.pc i p }

inductive GuardedStep (G : Guard ι) (B : Body Op Res L α) :
    GuardedState G Op Res L α → Action ι Op Res → GuardedState G Op Res L α → Prop
  | call {s i op lock} : s.pc i = .idle → G.acquire (B.mode op) i s.lock = some lock →
      GuardedStep G B s (.event (.call i op)) { s.goto i (.waiting op) with lock := lock }
  | wait {s i op lock} : s.pc i = .waiting op → G.access i s.lock = some lock →
      G.place lock i ≠ .inside (B.mode op) → GuardedStep G B s (.access i) { s with lock := lock }
  | enter {s i op lock} : s.pc i = .waiting op → G.access i s.lock = some lock →
      G.place lock i = .inside (B.mode op) →
      GuardedStep G B s (.access i) { s.goto i (.body op (B.enter op)) with lock := lock }
  | run {s i op l l' b} : s.pc i = .body op l → B.run l s.data = (b, .inl l') →
      GuardedStep G B s (.run i) { s.goto i (.body op l') with data := b }
  | result {s i op l r b} : s.pc i = .body op l → B.run l s.data = (b, .inr r) →
      GuardedStep G B s (.run i) { s.goto i (.leaving op r) with data := b }
  | leave {s i op r lock} : s.pc i = .leaving op r → G.access i s.lock = some lock →
      GuardedStep G B s (.access i) { s.goto i (.done op r) with lock := lock }
  | ret {s i op r} : s.pc i = .done op r → GuardedStep G B s (.event (.ret i op r)) (s.goto i .idle)

def guarded (G : Guard ι) (B : Body Op Res L α) (start : α) :
    System (GuardedState G Op Res L α) (Action ι Op Res) where
  start s := s = ⟨G.start, start, fun _ => .idle⟩
  step := GuardedStep G B

/-! ## Refinement -/

variable {B : Body Op Res L α} {s : GuardedState G Op Res L α} {t : AtomicState ι Op Res α} {i j : ι}

/-- A thread at `p` is at `q` of the atomic object, whose data is `a`. -/
def At (B : Body Op Res L α) (place : Place) (a b : α) (p : Pc Op Res L) (q : AtomicPc Op Res) : Prop :=
  match p with
  | .idle => place = .outside ∧ q = .idle
  | .waiting op => place = .acquiring (B.mode op) ∧ q = .called op
  | .body op l => place = .inside (B.mode op) ∧ q = .called op ∧ B.Points op a l b
  | .leaving op r => (∃ m, place = .inside m) ∧ q = .committed op r
  | .done op r => place = .outside ∧ q = .committed op r

/-- The data is that of the atomic object, unless a thread is writing it. -/
structure Matches (B : Body Op Res L α) (s : GuardedState G Op Res L α) (t : AtomicState ι Op Res α) :
    Prop where
  inv : G.Inv s.lock
  threads : ∀ i, At B (G.place s.lock i) t.data s.data (s.pc i) (t.pc i)
  data : (∀ i op l, s.pc i = .body op l → B.mode op = .shared) → s.data = t.data

/-- Only one thread moves; where another is in its body, the data stays. -/
theorem Matches.move (h : Matches B s t) {lock : G.State} {a b : α} {p : Pc Op Res L}
    {q : AtomicPc Op Res} (hinv : G.Inv lock)
    (hplace : ∀ j, j ≠ i → G.place lock j = G.place s.lock j)
    (hi : At B (G.place lock i) a b p q)
    (hframe : ∀ j op l, j ≠ i → s.pc j = .body op l → a = t.data ∧ b = s.data)
    (hdata : (∀ op l, p = .body op l → B.mode op = .shared) →
      (∀ j op l, j ≠ i → s.pc j = .body op l → B.mode op = .shared) → b = a) :
    Matches B ⟨lock, b, Function.update s.pc i p⟩ ⟨a, Function.update t.pc i q⟩ where
  inv := hinv
  threads j := by
    by_cases hj : j = i
    · subst hj
      show At B _ _ _ (Function.update s.pc j p j) (Function.update t.pc j q j)
      rwa [Function.update_self, Function.update_self]
    · show At B _ _ _ (Function.update s.pc i p j) (Function.update t.pc i q j)
      rw [Function.update_of_ne hj, Function.update_of_ne hj, hplace j hj]
      have hold := h.threads j
      cases hpc : s.pc j with
      | body op l =>
        obtain ⟨rfl, rfl⟩ := hframe j op l hj hpc
        rwa [hpc] at hold
      | _ => rwa [hpc] at hold
  data hshared := by
    refine hdata (fun op l hp => hshared i op l ?_) (fun j op l hj hpc => hshared j op l ?_)
    · show Function.update s.pc i p i = _
      rw [Function.update_self, hp]
    · show Function.update s.pc i p j = _
      rw [Function.update_of_ne hj, hpc]

theorem Matches.body (h : Matches B s t) {op : Op} {l : L} (hpc : s.pc i = .body op l) :
    G.place s.lock i = .inside (B.mode op) ∧ t.pc i = .called op ∧ B.Points op t.data l s.data := by
  have hi := h.threads i
  rwa [hpc] at hi

/-- Nobody is in a body beside a thread that has the lock for itself. -/
theorem Matches.alone (h : Matches B s t) (hplace : G.place s.lock i = .inside .exclusive) {op : Op}
    {l : L} (hpc : s.pc j = .body op l) : j = i :=
  G.excludes h.inv hplace (h.body hpc).1

/-- Beside a thread that is inside, whoever else is in a body only reads. -/
theorem Matches.shared (h : Matches B s t) {m : Mode} (hplace : G.place s.lock i = .inside m) {op : Op}
    {l : L} (hj : j ≠ i) (hpc : s.pc j = .body op l) : B.mode op = .shared := by
  have hbody := (h.body hpc).1
  cases hmode : B.mode op with
  | shared => rfl
  | exclusive =>
    rw [hmode] at hbody
    exact absurd (G.excludes h.inv hbody hplace).symm hj

/-- The data of a shared operation is that of the atomic object. -/
theorem Matches.reader (h : Matches B s t) {op : Op} {l : L} (hpc : s.pc i = .body op l)
    (hmode : B.mode op = .shared) : s.data = t.data := by
  apply h.data
  intro j op' l' hj
  by_cases hji : j = i
  · subst hji
    rw [hpc] at hj
    cases hj
    exact hmode
  · exact h.shared (h.body hpc).1 hji hj

/-- A thread that is in no body does not matter. -/
theorem Matches.data_except (h : Matches B s t) (hout : ∀ op l, s.pc i ≠ .body op l)
    (hshared : ∀ j op l, j ≠ i → s.pc j = .body op l → B.mode op = .shared) : s.data = t.data := by
  apply h.data
  intro j op l hj
  by_cases hji : j = i
  · subst hji
    exact absurd hj (hout op l)
  · exact hshared j op l hji hj

/-- An access of the lock by `i` leaves the places of the others. -/
theorem place_of_update {place place' : ι → Place} {p : Place} (h : place' = Function.update place i p) :
    place' i = p ∧ ∀ j, j ≠ i → place' j = place j := by
  subst h
  exact ⟨Function.update_self _ _ _, fun j hj => Function.update_of_ne hj _ _⟩

theorem guarded_step (hreads : B.Reads) (start : α) {e : Action ι Op Res} {s' : GuardedState G Op Res L α}
    (h : Matches B s t) (hstep : GuardedStep G B s e s') :
    ∃ bs t', Trace (atomic ι B.Solo start) t bs t' ∧
      bs.filterMap AtomicAction.visible = e.visible.toList ∧ Matches B s' t' := by
  cases hstep with
  | @call i op lock hpc hlock =>
    have hi := h.threads i
    have hout : ∀ op' l, s.pc i ≠ .body op' l := fun _ _ => by simp [hpc]
    rw [hpc] at hi
    obtain ⟨hinv, -, hplace⟩ := G.acquire_spec h.inv hlock
    obtain ⟨hself, hothers⟩ := place_of_update hplace
    refine ⟨_, _, .one (.call hi.2), rfl, h.move hinv hothers ⟨hself, rfl⟩ (fun _ _ _ _ _ => ⟨rfl, rfl⟩) ?_⟩
    exact fun _ => h.data_except hout
  | @wait i op lock hpc hlock hnot =>
    have hi := h.threads i
    rw [hpc] at hi
    obtain ⟨hinv, ⟨m, hm, hplace | hplace⟩ | ⟨m, hm, -⟩⟩ := G.access_spec h.inv hlock
    · refine ⟨[], t, .refl, rfl, hinv, fun j => ?_, h.data⟩
      show At B (G.place lock j) _ _ _ _
      rw [hplace]
      exact h.threads j
    · -- it would have entered
      obtain ⟨hself, -⟩ := place_of_update hplace
      rw [hi.1] at hm
      cases hm
      exact absurd hself hnot
    · rw [hi.1] at hm
      cases hm
  | @enter i op lock hpc hlock hinside =>
    have hi := h.threads i
    rw [hpc] at hi
    obtain ⟨hinv, ⟨m, hm, hplace | hplace⟩ | ⟨m, hm, -⟩⟩ := G.access_spec h.inv hlock
    · rw [hplace, hi.1] at hinside
      cases hinside
    · obtain ⟨-, hothers⟩ := place_of_update hplace
      -- nobody writes, since this thread is inside now
      have hdata : s.data = t.data := by
        apply h.data
        intro j op' l' hj
        have hji : j ≠ i := by
          rintro rfl
          rw [hpc] at hj
          cases hj
        have hbody := (h.body hj).1
        rw [← hothers j hji] at hbody
        cases hmode : B.mode op' with
        | shared => rfl
        | exclusive =>
          rw [hmode] at hbody
          exact absurd (G.excludes hinv hbody hinside).symm hji
      refine ⟨[], t, .refl, rfl, ?_⟩
      have hat : At B (G.place lock i) t.data s.data (.body op (B.enter op)) (t.pc i) := by
        refine ⟨hinside, hi.2, ?_⟩
        rw [hdata]
        exact .enter
      have hmove := h.move (q := t.pc i) hinv hothers hat (fun _ _ _ _ _ => ⟨rfl, rfl⟩) fun _ _ => hdata
      rwa [Function.update_eq_self] at hmove
    · rw [hi.1] at hm
      cases hm
  | @run i op l l' b hpc hrun =>
    obtain ⟨hplace, hcalled, hpoints⟩ := h.body hpc
    refine ⟨[], t, .refl, rfl, ?_⟩
    have hat : At B (G.place s.lock i) t.data b (.body op l') (t.pc i) :=
      ⟨hplace, hcalled, hpoints.run hrun⟩
    have hmove : Matches B ⟨s.lock, b, Function.update s.pc i (.body op l')⟩
        ⟨t.data, Function.update t.pc i (t.pc i)⟩ := by
      refine h.move h.inv (fun _ _ => rfl) hat ?_ ?_
      · intro j op' l'' hj hpc'
        refine ⟨rfl, ?_⟩
        cases hmode : B.mode op with
        | shared =>
          have := hreads op t.data l s.data hmode hpoints
          rw [hrun] at this
          exact this
        | exclusive =>
          rw [hmode] at hplace
          exact absurd (h.alone hplace hpc') hj
      · intro hmode _
        have hshared := hmode op l' rfl
        have := hreads op t.data l s.data hshared hpoints
        rw [hrun] at this
        exact this.trans (h.reader hpc hshared)
    rwa [Function.update_eq_self] at hmove
  | @result i op l r b hpc hrun =>
    obtain ⟨hplace, hcalled, hpoints⟩ := h.body hpc
    refine ⟨_, _, .one (.commit hcalled ⟨l, s.data, hpoints, hrun⟩), rfl, ?_⟩
    refine h.move h.inv (fun _ _ => rfl) ⟨⟨_, hplace⟩, rfl⟩ ?_ fun _ _ => rfl
    intro j op' l' hj hpc'
    cases hmode : B.mode op with
    | shared =>
      have hb := hreads op t.data l s.data hmode hpoints
      rw [hrun] at hb
      exact ⟨hb.trans (h.reader hpc hmode), hb⟩
    | exclusive =>
      rw [hmode] at hplace
      exact absurd (h.alone hplace hpc') hj
  | @leave i op r lock hpc hlock =>
    have hi := h.threads i
    have hout : ∀ op' l, s.pc i ≠ .body op' l := fun _ _ => by simp [hpc]
    rw [hpc] at hi
    obtain ⟨⟨m, hm⟩, hq⟩ := hi
    obtain ⟨hinv, ⟨m', hm', -⟩ | ⟨m', -, hplace⟩⟩ := G.access_spec h.inv hlock
    · rw [hm] at hm'
      cases hm'
    · obtain ⟨hself, hothers⟩ := place_of_update hplace
      refine ⟨[], t, .refl, rfl, ?_⟩
      have hat : At B (G.place lock i) t.data s.data (.done op r) (t.pc i) := ⟨hself, hq⟩
      have hmove : Matches B ⟨lock, s.data, Function.update s.pc i (.done op r)⟩
          ⟨t.data, Function.update t.pc i (t.pc i)⟩ := by
        refine h.move hinv hothers hat (fun _ _ _ _ _ => ⟨rfl, rfl⟩) ?_
        exact fun _ => h.data_except hout
      rwa [Function.update_eq_self] at hmove
  | @ret i op r hpc =>
    have hi := h.threads i
    have hout : ∀ op' l, s.pc i ≠ .body op' l := fun _ _ => by simp [hpc]
    rw [hpc] at hi
    refine ⟨_, _, .one (.ret hi.2), rfl,
      h.move h.inv (fun _ _ => rfl) ⟨hi.1, rfl⟩ (fun _ _ _ _ _ => ⟨rfl, rfl⟩) ?_⟩
    exact fun _ => h.data_except hout

/-- **Atomicity.**  Behind a lock, operations that only read where they share it seem to be single steps. -/
theorem guarded_refines (G : Guard ι) (B : Body Op Res L α) (hreads : B.Reads) (start : α) :
    (guarded G B start).Refines Action.visible (atomic ι B.Solo start) AtomicAction.visible := by
  refine refines_of_simulation (Matches B) ?_ ?_
  · rintro s rfl
    refine ⟨_, rfl, G.inv_start, fun i => ⟨G.place_start i, rfl⟩, fun _ => rfl⟩
  · intro s t e s' h hstep
    exact guarded_step hreads start h hstep

end Guard

end Guarded
