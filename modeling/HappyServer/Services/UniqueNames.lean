import HappyServer.Common.ConcurrentMap
import HappyServer.Lib.Tally

/-!
# Who has a unique name (`router::set_unique_service`, `router::get_unique_service`)

`unique_services_` is a concurrent map on which the threads only call `try_set`, `try_get_value` and
`size`: no name is taken out of it.

* `Inv h t`: what the calls and returns of `h` tell holds of the map.
* `registered_once`: of any number of threads that register a name one succeeds, all that ask see its id,
  and who asks after a registration has returned sees it.
-/

namespace HappyServer.Services.UniqueNames

open Guarded Common.ConcurrentMap System

variable {K V ι : Type} [DecidableEq K]

/-- What is called on a map of which nothing is taken out or overwritten. -/
def registers : Op K V → Bool
  | .trySet _ _ | .tryGetValue _ | .size | .has _ => true
  | _ => false

/-- The value of the key, where a result tells it. -/
def told (key : K) : Op K V → Res V → Option V
  | .trySet k v, .bool true => if k = key then some v else none
  | .tryGetValue k, .value (some v) => if k = key then some v else none
  | _, _ => none

/-- The call was the one that set the key. -/
def wins (key : K) : Op K V → Res V → Bool
  | .trySet k _, .bool true => k = key
  | _, _ => false

def eventTold (key : K) : Event ι (Op K V) (Res V) → Option V
  | .call _ _ => none
  | .ret _ op r => told key op r

def eventWins (key : K) : Event ι (Op K V) (Res V) → Bool
  | .call _ _ => false
  | .ret _ op r => wins key op r

def eventThread : Event ι (Op K V) (Res V) → ι
  | .call i _ => i
  | .ret i _ _ => i

def pcWins (key : K) : AtomicPc (Op K V) (Res V) → Bool
  | .committed op r => wins key op r
  | _ => false

/-! ## One call -/

/-- A key that is there keeps its value. -/
theorem apply_kept {op : Op K V} {m m' : K → Option V} {r : Res V} (h : Spec op m r m')
    (hop : registers op = true) {key : K} {v : V} (hv : m key = some v) : m' key = some v := by
  cases op with
  | trySet k w =>
    rw [Spec, apply] at h
    by_cases hk : m k = none
    · rw [if_pos hk, Prod.mk.injEq] at h
      obtain ⟨rfl, -⟩ := h
      have hne : key ≠ k := by
        rintro rfl
        rw [hv] at hk
        cases hk
      rw [Function.update_of_ne hne]
      exact hv
    · rw [if_neg hk, Prod.mk.injEq] at h
      obtain ⟨rfl, -⟩ := h
      exact hv
  | tryGetValue k => cases h; exact hv
  | size => cases h; exact hv
  | has k => cases h; exact hv
  | _ => cases hop

theorem apply_told {op : Op K V} {m m' : K → Option V} {r : Res V} (h : Spec op m r m')
    {key : K} {v : V} (ht : told key op r = some v) : m' key = some v := by
  cases op with
  | trySet k w =>
    rw [Spec, apply] at h
    by_cases hk : m k = none
    · rw [if_pos hk, Prod.mk.injEq] at h
      obtain ⟨rfl, rfl⟩ := h
      rw [told, Option.ite_none_right_eq_some, Option.some.injEq] at ht
      obtain ⟨rfl, rfl⟩ := ht
      exact Function.update_self ..
    · rw [if_neg hk, Prod.mk.injEq] at h
      obtain ⟨-, rfl⟩ := h
      cases ht
  | tryGetValue k =>
    cases h
    cases hk : m k with
    | none =>
      rw [hk] at ht
      cases ht
    | some w =>
      rw [hk, told, Option.ite_none_right_eq_some, Option.some.injEq] at ht
      obtain ⟨rfl, rfl⟩ := ht
      exact hk
  | set k w => cases h; cases ht
  | erase k => cases h; cases ht
  | clear => cases h; cases ht
  | size => cases h; cases ht
  | has k => cases h; cases ht

/-- Who sets a key finds it free. -/
theorem apply_wins {op : Op K V} {m m' : K → Option V} {r : Res V} (h : Spec op m r m') {key : K}
    (hw : wins key op r = true) : m key = none ∧ (m' key).isSome = true := by
  cases op with
  | trySet k w =>
    rw [Spec, apply] at h
    by_cases hk : m k = none
    · rw [if_pos hk, Prod.mk.injEq] at h
      obtain ⟨rfl, rfl⟩ := h
      obtain rfl : k = key := of_decide_eq_true hw
      exact ⟨hk, by rw [Function.update_self]; rfl⟩
    · rw [if_neg hk, Prod.mk.injEq] at h
      obtain ⟨-, rfl⟩ := h
      cases hw
  | set k w => cases h; cases hw
  | tryGetValue k => cases h; cases hw
  | erase k => cases h; cases hw
  | clear => cases h; cases hw
  | size => cases h; cases hw
  | has k => cases h; cases hw

/-- After `try_set` the key is there, whoever set it. -/
theorem apply_trySet {key : K} {v : V} {m m' : K → Option V} {r : Res V}
    (h : Spec (.trySet key v) m r m') : m' key ≠ none := by
  rw [Spec, apply] at h
  by_cases hk : m key = none
  · rw [if_pos hk, Prod.mk.injEq] at h
    obtain ⟨rfl, -⟩ := h
    rw [Function.update_self]
    exact Option.some_ne_none v
  · rw [if_neg hk, Prod.mk.injEq] at h
    obtain ⟨rfl, -⟩ := h
    exact hk

/-! ## Runs of the atomic map -/

section Runs

variable [Fintype ι] [DecidableEq ι]

abbrev Map (ι K V : Type) := AtomicState ι (Op K V) (Res V) (K → Option V)

/-- What a thread will tell holds. -/
def PcOk (m : K → Option V) : AtomicPc (Op K V) (Res V) → Prop
  | .idle => True
  | .called op => registers op = true
  | .committed op r =>
    (∀ key v, told key op r = some v → m key = some v) ∧ ∀ key v, op = .trySet key v → m key ≠ none

/-- What `h` tells, and what is told next, holds. -/
structure Inv (h : List (Event ι (Op K V) (Res V))) (t : Map ι K V) : Prop where
  pcs : ∀ i, PcOk t.data (t.pc i)
  told : ∀ e ∈ h, ∀ key v, eventTold key e = some v → t.data key = some v
  once : ∀ key, h.countP (eventWins key) + tally (pcWins key) t.pc ≤ (t.data key).isSome.toNat

omit [DecidableEq ι] in
theorem inv_start : Inv [] (⟨fun _ => none, fun _ => .idle⟩ : Map ι K V) where
  pcs _ := trivial
  told := nofun
  once key := by simp [pcWins]

variable {h : List (Event ι (Op K V) (Res V))} {t t' : Map ι K V} {i : ι}

/-- `i` calls an operation. -/
theorem Inv.call (hinv : Inv h t) {op : Op K V} (hop : registers op = true) (hi : t.pc i = .idle) :
    Inv (h ++ [.call i op]) (t.goto i (.called op)) where
  pcs := (Function.forall_update_iff t.pc fun _ p => PcOk t.data p).mpr ⟨hop, fun j _ => hinv.pcs j⟩
  told e he := by
    rcases List.mem_append.mp he with he | he
    · exact hinv.told e he
    · rw [List.mem_singleton.mp he]
      exact nofun
  once key := by
    have hmove := tally_update (pcWins key) t.pc i (.called op)
    have hold := hinv.once key
    rw [hi] at hmove
    have hcount : (h ++ [Event.call i op]).countP (eventWins key) = h.countP (eventWins key) := by
      rw [List.countP_append, List.countP_singleton]
      rfl
    show _ + tally (pcWins key) (Function.update t.pc i (.called op)) ≤ _
    rw [hcount]
    simp only [pcWins, Bool.toNat_false] at hmove
    show _ ≤ (t.data key).isSome.toNat
    omega

omit [Fintype ι] [DecidableEq ι] in
/-- An effect keeps what the threads will tell. -/
theorem pcOk_kept {m m' : K → Option V} {op : Op K V} {r : Res V} (hspec : Spec op m r m')
    (hop : registers op = true) {p : AtomicPc (Op K V) (Res V)} (h : PcOk m p) : PcOk m' p := by
  cases p with
  | idle => trivial
  | called op' => exact h
  | committed op' r' =>
    refine ⟨fun key v ht => apply_kept hspec hop (h.1 key v ht), fun key v heq => ?_⟩
    obtain ⟨w, hw⟩ := Option.ne_none_iff_exists'.mp (h.2 key v heq)
    rw [apply_kept hspec hop hw]
    exact Option.some_ne_none w

/-- The operation of `i` takes effect. -/
theorem Inv.commit (hinv : Inv h t) {op : Op K V} {r : Res V} {m : K → Option V}
    (hi : t.pc i = .called op) (hspec : Spec op t.data r m) :
    Inv h { t.goto i (.committed op r) with data := m } := by
  have hop : registers op = true := by
    have := hinv.pcs i
    rwa [hi] at this
  refine ⟨?_, fun e he key v hv => apply_kept hspec hop (hinv.told e he key v hv), fun key => ?_⟩
  · refine (Function.forall_update_iff t.pc fun _ p => PcOk m p).mpr ⟨⟨?_, ?_⟩, fun j _ => ?_⟩
    · intro key v ht
      exact apply_told hspec ht
    · rintro key v rfl
      exact apply_trySet hspec
    · exact pcOk_kept hspec hop (hinv.pcs j)
  · have hmove := tally_update (pcWins key) t.pc i (.committed op r)
    have hold := hinv.once key
    rw [hi] at hmove
    simp only [pcWins, Bool.toNat_false] at hmove
    show _ + tally (pcWins key) (Function.update t.pc i (.committed op r)) ≤ (m key).isSome.toNat
    cases hw : wins key op r with
    | true =>
      obtain ⟨hfree, hthere⟩ := apply_wins hspec hw
      rw [hfree] at hold
      rw [hw] at hmove
      rw [hthere]
      simp only [Option.isSome_none, Bool.toNat_false, Bool.toNat_true] at hold hmove ⊢
      omega
    | false =>
      rw [hw] at hmove
      have hle : (t.data key).isSome.toNat ≤ (m key).isSome.toNat := by
        cases hd : t.data key with
        | none => exact Nat.zero_le _
        | some v =>
          rw [apply_kept hspec hop hd]
      simp only [Bool.toNat_false] at hmove
      omega

/-- `i` returns. -/
theorem Inv.ret (hinv : Inv h t) {op : Op K V} {r : Res V} (hi : t.pc i = .committed op r) :
    Inv (h ++ [.ret i op r]) (t.goto i .idle) where
  pcs := (Function.forall_update_iff t.pc fun _ p => PcOk t.data p).mpr ⟨trivial, fun j _ => hinv.pcs j⟩
  told e he key v ht := by
    rcases List.mem_append.mp he with he | he
    · exact hinv.told e he key v ht
    · rw [List.mem_singleton.mp he] at ht
      have hcommitted := hinv.pcs i
      rw [hi] at hcommitted
      exact hcommitted.1 key v ht
  once key := by
    have hmove := tally_update (pcWins key) t.pc i .idle
    have hold := hinv.once key
    rw [hi] at hmove
    have hcount : (h ++ [Event.ret i op r]).countP (eventWins key) =
        h.countP (eventWins key) + (wins key op r).toNat := by
      rw [List.countP_append, List.countP_singleton]
      show _ + (if wins key op r = true then 1 else 0) = _
      cases wins key op r <;> rfl
    show _ + tally (pcWins key) (Function.update t.pc i .idle) ≤ _
    rw [hcount]
    simp only [pcWins, Bool.toNat_false] at hmove
    show _ ≤ (t.data key).isSome.toNat
    omega

/-- The calls of a history are those of a registry. -/
def Registers (h : List (Event ι (Op K V) (Res V))) : Prop :=
  ∀ i op, .call i op ∈ h → registers op = true

theorem inv_trace {as as' : List (AtomicAction ι (Op K V) (Res V))}
    (htrace : Trace (atomic ι (Spec (K := K) (V := V)) fun _ => none) t as' t')
    (h : Inv (as.filterMap AtomicAction.visible) t)
    (hcalls : Registers (as'.filterMap AtomicAction.visible)) :
    Inv ((as ++ as').filterMap AtomicAction.visible) t' := by
  induction htrace with
  | refl => rwa [List.append_nil]
  | @step as' u a u' _ hstep ih =>
    rw [List.filterMap_append] at hcalls
    have hinv := ih fun i op hmem => hcalls i op (List.mem_append_left _ hmem)
    rw [← List.append_assoc, List.filterMap_append]
    cases hstep with
    | @call i op hi =>
      exact hinv.call (hcalls i op (List.mem_append_right _ List.mem_cons_self)) hi
    | @commit i op r b hi hspec =>
      rw [show [AtomicAction.commit i].filterMap AtomicAction.visible =
        ([] : List (Event ι (Op K V) (Res V))) from rfl, List.append_nil]
      exact hinv.commit hi hspec
    | @ret i op r hi => exact hinv.ret hi

/-! ## Who asks after a registration -/

/-- `j` asks for a key that is there. -/
structure Asks (key : K) (j : ι) (t : Map ι K V) : Prop where
  there : t.data key ≠ none
  asking : t.pc j = .called (.tryGetValue key) ∨
    ∃ v, t.pc j = .committed (.tryGetValue key) (.value (some v))

section Steps

variable {a : AtomicAction ι (Op K V) (Res V)} {key : K} {j : ι}

omit [Fintype ι] in
/-- What is there stays there. -/
theorem there_step (hpcs : ∀ i, PcOk t.data (t.pc i)) (hstep : AtomicStep Spec t a t')
    (h : t.data key ≠ none) : t'.data key ≠ none := by
  cases hstep with
  | call hi => exact h
  | @commit i op r m hi hspec =>
    obtain ⟨v, hv⟩ := Option.ne_none_iff_exists'.mp h
    have hop := hpcs i
    rw [hi] at hop
    show m key ≠ none
    rw [apply_kept hspec hop hv]
    exact Option.some_ne_none v
  | ret hi => exact h

omit [Fintype ι] in
/-- Others do not keep `j` from finding it. -/
theorem Asks.step (h : Asks key j t) (hpcs : ∀ i, PcOk t.data (t.pc i))
    (hstep : AtomicStep Spec t a t') (ha : ∀ e, a.visible = some e → eventThread e ≠ j) :
    Asks key j t' := by
  refine ⟨there_step hpcs hstep h.there, ?_⟩
  cases hstep with
  | @call i op hi =>
    have hne : j ≠ i := fun heq => ha _ rfl heq.symm
    show Function.update t.pc i _ j = _ ∨ ∃ v, Function.update t.pc i _ j = _
    rw [Function.update_of_ne hne]
    exact h.asking
  | @commit i op r m hi hspec =>
    show Function.update t.pc i _ j = _ ∨ ∃ v, Function.update t.pc i _ j = _
    by_cases hji : j = i
    · subst hji
      right
      rw [Function.update_self]
      rcases h.asking with hcalled | ⟨v, hcommitted⟩
      · rw [hi] at hcalled
        cases hcalled
        obtain ⟨v, hv⟩ := Option.ne_none_iff_exists'.mp h.there
        rw [Spec, apply, Prod.mk.injEq] at hspec
        obtain ⟨-, rfl⟩ := hspec
        exact ⟨v, by rw [hv]⟩
      · rw [hi] at hcommitted
        cases hcommitted
    · rw [Function.update_of_ne hji]
      exact h.asking
  | @ret i op r hi =>
    have hne : j ≠ i := fun heq => ha _ rfl heq.symm
    show Function.update t.pc i _ j = _ ∨ ∃ v, Function.update t.pc i _ j = _
    rw [Function.update_of_ne hne]
    exact h.asking

end Steps

section Traces

variable {as as' : List (AtomicAction ι (Op K V) (Res V))} {key : K} {j : ι}

theorem there_trace (htrace : Trace (atomic ι (Spec (K := K) (V := V)) fun _ => none) t as' t')
    (h : Inv (as.filterMap AtomicAction.visible) t)
    (hcalls : Registers (as'.filterMap AtomicAction.visible)) (hthere : t.data key ≠ none) :
    t'.data key ≠ none := by
  induction htrace with
  | refl => exact hthere
  | @step as' u a u' htrace' hstep ih =>
    rw [List.filterMap_append] at hcalls
    have hbefore : Registers (as'.filterMap AtomicAction.visible) :=
      fun i op hmem => hcalls i op (List.mem_append_left _ hmem)
    exact there_step (inv_trace htrace' h hbefore).pcs hstep (ih hbefore)

theorem Asks.trace (htrace : Trace (atomic ι (Spec (K := K) (V := V)) fun _ => none) t as' t')
    (h : Inv (as.filterMap AtomicAction.visible) t)
    (hcalls : Registers (as'.filterMap AtomicAction.visible))
    (hothers : ∀ e ∈ as'.filterMap AtomicAction.visible, eventThread e ≠ j) (hasks : Asks key j t) :
    Asks key j t' := by
  induction htrace with
  | refl => exact hasks
  | @step as' u a u' htrace' hstep ih =>
    rw [List.filterMap_append] at hcalls hothers
    have hbefore : Registers (as'.filterMap AtomicAction.visible) :=
      fun i op hmem => hcalls i op (List.mem_append_left _ hmem)
    have hasks' := ih hbefore fun e he => hothers e (List.mem_append_left _ he)
    refine hasks'.step (inv_trace htrace' h hbefore).pcs hstep fun e he => ?_
    refine hothers e (List.mem_append_right _ ?_)
    rw [List.filterMap_cons_some he]
    exact List.mem_cons_self

end Traces

/-- A registration is followed by a question of `j`, whom the map is asked for no more than that. -/
theorem found_after {s₀ : Map ι K V} {as : List (AtomicAction ι (Op K V) (Res V))}
    (htrace : Trace (atomic ι (Spec (K := K) (V := V)) fun _ => none) s₀ as t) (h₀ : Inv [] s₀)
    (hcalls : Registers (as.filterMap AtomicAction.visible)) {key : K} {i j : ι} {v : V} {r : Res V}
    {o : Option V} {h₁ h₂ h₃ h₄ : List (Event ι (Op K V) (Res V))}
    (hh : as.filterMap AtomicAction.visible = h₁ ++ .ret i (.trySet key v) r ::
      (h₂ ++ .call j (.tryGetValue key) :: (h₃ ++ .ret j (.tryGetValue key) (.value o) :: h₄)))
    (hothers : ∀ e ∈ h₃, eventThread e ≠ j) : o ≠ none := by
  obtain ⟨as₁, a₁, bs₁, rfl, rfl, ha₁, hbs₁⟩ := filterMap_split hh
  obtain ⟨as₂, a₂, bs₂, rfl, rfl, ha₂, hbs₂⟩ := filterMap_split hbs₁
  obtain ⟨as₃, a₃, as₄, rfl, rfl, ha₃, rfl⟩ := filterMap_split hbs₂
  rw [hh] at hcalls
  obtain ⟨s₁, hfirst, hrest⟩ := htrace.split
  have hinv₁ : Inv (([] ++ as₁).filterMap AtomicAction.visible) s₁ :=
    inv_trace hfirst h₀ fun i op hmem => hcalls i op (by simp [hmem])
  rw [List.nil_append] at hinv₁
  -- the registration returns
  rw [← List.singleton_append] at hrest
  obtain ⟨s₂, hset, hrest⟩ := hrest.split
  have hinv₂ : Inv ((as₁ ++ [a₁]).filterMap AtomicAction.visible) s₂ :=
    inv_trace hset hinv₁ fun i op hmem => by
      rw [List.filterMap_cons_some ha₁] at hmem
      cases List.mem_singleton.mp hmem
  have hthere : s₂.data key ≠ none := by
    cases hset.of_one with
    | call hi => cases ha₁
    | commit hi hspec => cases ha₁
    | @ret i' op r' hi =>
      cases ha₁
      have hpc := hinv₁.pcs i
      rw [hi] at hpc
      exact hpc.2 key v rfl
  -- up to the question
  obtain ⟨s₃, hbetween, hrest⟩ := hrest.split
  have hbetween_calls : Registers (as₂.filterMap AtomicAction.visible) :=
    fun i op hmem => hcalls i op (by simp [hmem])
  have hinv₃ := inv_trace hbetween hinv₂ hbetween_calls
  have hthere₃ := there_trace hbetween hinv₂ hbetween_calls hthere
  rw [← List.singleton_append] at hrest
  obtain ⟨s₄, hcall, hrest⟩ := hrest.split
  have hinv₄ : Inv ((as₁ ++ [a₁] ++ as₂ ++ [a₂]).filterMap AtomicAction.visible) s₄ :=
    inv_trace hcall hinv₃ fun i op hmem => by
      rw [List.filterMap_cons_some ha₂] at hmem
      cases List.mem_singleton.mp hmem
      rfl
  have hasks : Asks key j s₄ := by
    cases hcall.of_one with
    | commit hi hspec => cases ha₂
    | ret hi => cases ha₂
    | @call i' op hi =>
      cases ha₂
      exact ⟨hthere₃, Or.inl (Function.update_self ..)⟩
  -- up to the answer
  obtain ⟨s₅, hwait, hrest⟩ := hrest.split
  have hasks₅ := Asks.trace hwait hinv₄ (fun i op hmem => hcalls i op (by simp [hmem])) hothers hasks
  rw [← List.singleton_append] at hrest
  obtain ⟨s₆, hret, -⟩ := hrest.split
  cases hret.of_one with
  | call hi => cases ha₃
  | commit hi hspec => cases ha₃
  | @ret i' op r' hi =>
    cases ha₃
    rcases hasks₅.asking with hcalled | ⟨w, hcommitted⟩
    · rw [hi] at hcalled
      cases hcalled
    · rw [hi] at hcommitted
      cases hcommitted
      exact Option.some_ne_none w

end Runs

/-- **The first registers.**  On the concurrent map as it is, with its locks and however its threads
interleave: of those that try to set a key one succeeds at most, no two results tell different values of
it, and who calls `try_get_value` after a `try_set` has returned, with whatever result, finds the key. -/
theorem registered_once (K V ι : Type) [DecidableEq K] [DecidableEq ι] [Fintype ι]
    (hcard : Fintype.card ι ≤ 2 ^ 32) (h : List (Event ι (Op K V) (Res V)))
    (hshows : (concurrentMap K V hcard).Shows Action.visible h) (hcalls : Registers h) (key : K) :
    h.countP (eventWins key) ≤ 1 ∧
    (∀ e ∈ h, ∀ e' ∈ h, ∀ v v', eventTold key e = some v → eventTold key e' = some v' → v = v') ∧
    ∀ h₁ i v r h₂ j h₃ o h₄, h = h₁ ++ .ret i (.trySet key v) r ::
      (h₂ ++ .call j (.tryGetValue key) :: (h₃ ++ .ret j (.tryGetValue key) (.value o) :: h₄)) →
      (∀ e ∈ h₃, eventThread e ≠ j) → o ≠ none := by
  have hatomic : (concurrentMap K V hcard).Refines Action.visible
      (atomic ι (Spec (K := K) (V := V)) fun _ => none) AtomicAction.visible :=
    (guarded_refines (Common.RwLock.guard hcard) body body_reads []).trans (solo_refines K V ι)
  obtain ⟨s₀, as, t, rfl, htrace, rfl⟩ := hatomic h hshows
  have hinv : Inv (([] ++ as).filterMap AtomicAction.visible) t := inv_trace htrace inv_start hcalls
  rw [List.nil_append] at hinv
  refine ⟨?_, ?_, ?_⟩
  · have hone := hinv.once key
    have hle := Bool.toNat_le (t.data key).isSome
    omega
  · intro e he e' he' v v' hv hv'
    have h₁ := hinv.told e he key v hv
    rw [hinv.told e' he' key v' hv'] at h₁
    exact (Option.some.inj h₁).symm
  · intro h₁ i v r h₂ j h₃ o h₄ hh hothers
    exact found_after htrace inv_start hcalls hh hothers

/-- Two threads register 7 and 9 for 5 at the same time, and the second then asks. -/
def registration : List (Event (Fin 2) (Op Nat Nat) (Res Nat)) :=
  [.call 0 (.trySet 5 7), .call 1 (.trySet 5 9), .ret 0 (.trySet 5 7) (.bool true),
    .ret 1 (.trySet 5 9) (.bool false), .call 1 (.tryGetValue 5),
    .ret 1 (.tryGetValue 5) (.value (some 7))]

theorem shows_registered : (concurrentMap Nat Nat card_two).Shows Action.visible registration := by
  let M := concurrentMap Nat Nat card_two
  have hstart : M.Trace ⟨{}, [], fun _ => .idle⟩ [] ⟨{}, [], fun _ => .idle⟩ := .refl
  have hcall : GuardedStep (Common.RwLock.guard card_two) body ⟨{}, [], fun _ => .idle⟩
      (.event (.call 0 (.trySet 5 7))) _ := .call rfl rfl
  have hcalls := (hstart.step hcall).step
    (show GuardedStep _ _ _ (.event (.call 1 (.trySet 5 9))) _ from .call rfl rfl)
  -- the first thread takes the lock, and the second finds it taken
  have hexchange := (hcalls.step (GuardedStep.wait (i := 0) rfl rfl (by decide))).step
    (GuardedStep.wait (i := 1) rfl rfl (by decide))
  have hset := (hexchange.step (GuardedStep.enter (i := 0) rfl rfl rfl)).step
    (GuardedStep.result (i := 0) rfl rfl)
  have hfirst := (hset.step (GuardedStep.leave (i := 0) rfl rfl)).step (GuardedStep.ret (i := 0) rfl)
  have hlock := (hfirst.step (GuardedStep.wait (i := 1) rfl rfl (by decide))).step
    (GuardedStep.enter (i := 1) rfl rfl rfl)
  have hfound := (hlock.step (GuardedStep.result (i := 1) rfl rfl)).step
    (GuardedStep.leave (i := 1) rfl rfl)
  have hsecond := (hfound.step (GuardedStep.ret (i := 1) rfl)).step
    (show GuardedStep _ _ _ (.event (.call 1 (.tryGetValue 5))) _ from .call rfl rfl)
  have hspin := (hsecond.step (GuardedStep.wait (i := 1) rfl rfl (by decide))).step
    (GuardedStep.wait (i := 1) rfl rfl (by decide))
  have hread := (hspin.step (GuardedStep.enter (i := 1) rfl rfl rfl)).step
    (GuardedStep.run (i := 1) rfl rfl)
  have hvalue := (hread.step (GuardedStep.result (i := 1) rfl rfl)).step
    (GuardedStep.leave (i := 1) rfl rfl)
  exact ⟨_, _, _, rfl, hvalue.step (GuardedStep.ret (i := 1) rfl), rfl⟩

/-- One of the two wins, and who asks afterwards finds the name. -/
theorem registered_once_two :
    registration.countP (eventWins (V := Nat) 5) ≤ 1 ∧ ∀ o : Option Nat,
      registration = [.call 0 (.trySet 5 7), .call 1 (.trySet 5 9)] ++
        .ret 0 (.trySet 5 7) (.bool true) :: ([.ret 1 (.trySet 5 9) (.bool false)] ++
          .call 1 (.tryGetValue 5) :: ([] ++ .ret 1 (.tryGetValue 5) (.value o) :: [])) → o ≠ none := by
  have hregisters : Registers registration := by
    intro i op hmem
    simp [registration] at hmem
    rcases hmem with ⟨-, rfl⟩ | ⟨-, rfl⟩ | ⟨-, rfl⟩ <;> rfl
  obtain ⟨hone, -, hfound⟩ :=
    registered_once Nat Nat (Fin 2) card_two registration shows_registered hregisters 5
  exact ⟨hone, fun o h => hfound _ _ _ _ _ _ _ _ _ h (by simp)⟩

end HappyServer.Services.UniqueNames
