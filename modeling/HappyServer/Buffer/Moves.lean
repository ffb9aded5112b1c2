import HappyServer.Buffer.Steady

/-!
# Buffers that are moved

A move copies every member but `heap_data_`, which it takes: what is moved from keeps the `capacity_` of
an array that it has no more.

    heap_data_ = none before every move from it  →  every buffer alive is `Described`

`Objects` are the buffers that are alive, by name.
-/

namespace HappyServer.Buffer

open Block Word

abbrev Objects := Nat → Option Buffer

inductive Action where
  | construct (id : Nat) (capacity : UInt64) (headreserved : UInt32)
  | call (id : Nat) (op : Op)
  | moveConstruct (dst src : Nat)
  | moveAssign (dst src : Nat)
  | destroy (id : Nat)

/-- The buffer of `src` is now that of `dst`, which may be the same. -/
def moved (s : Objects) (dst src : Nat) (b : Buffer) : Objects :=
  Function.update (Function.update s src (some b.movedFrom)) dst (some b)

def objectStep (s : Objects) : Action → Objects → Prop
  | .construct id capacity headreserved, s' => s id = none ∧ headreserved.toNat ≤ STACK_CAPACITY ∧
      ∃ fresh b, make fresh capacity.toNat headreserved.toNat = some b ∧
        s' = Function.update s id (some b)
  | .call id op, s' => op.OnQueue ∧ ∃ b fresh out b', s id = some b ∧
      exec fresh b op = some (out, b') ∧ s' = Function.update s id (some b')
  | .moveConstruct dst src, s' => s dst = none ∧ ∃ b, s src = some b ∧ s' = moved s dst src b
  | .moveAssign dst src, s' => (s dst).isSome ∧ ∃ b, s src = some b ∧ s' = moved s dst src b
  | .destroy id, s' => (s id).isSome ∧ s' = Function.update s id none

def objectSystem : System Objects Action where
  start s := s = fun _ => none
  step := objectStep

/-- `capacity_` is the size of an array that is there, and what is written at the back is written to
it. -/
structure Described (b : Buffer) : Prop where
  capacity_le : b.capacity_ ≤ b.storage.length
  write_le : b.writepos_ ≤ b.capacity_
  /-- where both arrays are in memory -/
  writes : ∀ fresh data, b.storage.length + data.length < 2 ^ 63 → (b.writeBack fresh data).isSome

/-- Only what is on the stack is moved from, and `init` reserves inside the storage. -/
def MovesStack (s : Objects) : Action → Prop
  | .call id op => ∀ b, s id = some b → ReservesInside b op
  | .moveConstruct _ src => ∀ b, s src = some b → b.heap_data_ = none
  | .moveAssign dst src => dst ≠ src → ∀ b, s src = some b → b.heap_data_ = none
  | _ => True

variable {b : Buffer} {s s' : Objects}

theorem Steady.described (h : Steady b) : Described b := by
  have hread := h.read_le
  have hwrite := h.write_le
  have hhead := h.head_le
  have hi := h.intact
  have hsound : Sound b b.readable :=
    ⟨h.toOrdered, hi, holds_readable h.toOrdered hi, Nat.le_trans hhead hwrite⟩
  unfold Intact at hi
  refine ⟨by omega, hwrite, fun fresh data hdata => ?_⟩
  have hroom : b.Room data.length := by
    unfold Room
    by_cases hgrows : b.grows data.length
    · have hadd : add64 b.writepos_ data.length = b.writepos_ + data.length :=
        add64_of_lt _ _ (by omega)
      refine Or.inr (Or.inl ⟨hgrows, ?_⟩)
      rw [hadd]
      exact le_nextPow2 (by omega)
    · exact Or.inr (Or.inr ⟨hgrows, by omega⟩)
  obtain ⟨b', hrun, -⟩ := hsound.writeBack fresh hroom
  exact Option.isSome_iff_exists.mpr ⟨b', hrun⟩

theorem movedFrom_of_stack (h : b.heap_data_ = none) : b.movedFrom = b := by
  cases b
  dsimp only at h
  subst h
  rfl

/-- What was on the heap is not described afterwards. -/
theorem not_described_movedFrom (h : STACK_CAPACITY < b.capacity_) : ¬Described b.movedFrom := by
  intro hdescribed
  have hle : b.capacity_ ≤ b.stack_data_.length := hdescribed.capacity_le
  have := b.stack_length
  omega

/-! ## Every run -/

def AllSteady (s : Objects) : Prop := ∀ id b, s id = some b → Steady b

theorem AllSteady.update (h : AllSteady s) (id : Nat) {o : Option Buffer}
    (ho : ∀ b, o = some b → Steady b) : AllSteady (Function.update s id o) := by
  intro id' b hb
  by_cases heq : id' = id
  · subst heq
    rw [Function.update_self] at hb
    exact ho b hb
  · rw [Function.update_of_ne heq] at hb
    exact h id' b hb

theorem AllSteady.moved (h : AllSteady s) (dst src : Nat) (hb : s src = some b)
    (hstack : dst ≠ src → b.heap_data_ = none) : AllSteady (moved s dst src b) := by
  have hsteady := h src b hb
  by_cases heq : dst = src
  · subst heq
    unfold Buffer.moved
    rw [Function.update_idem]
    exact h.update dst fun b' hb' => Option.some.inj hb' ▸ hsteady
  · refine (h.update src fun b' hb' => ?_).update dst fun b' hb' => Option.some.inj hb' ▸ hsteady
    rw [movedFrom_of_stack (hstack heq)] at hb'
    exact Option.some.inj hb' ▸ hsteady

theorem AllSteady.step {a : Action} (h : AllSteady s) (hcareful : MovesStack s a)
    (hstep : objectStep s a s') : AllSteady s' := by
  cases a with
  | construct id capacity headreserved =>
    obtain ⟨-, hle, fresh, b, hmake, rfl⟩ := hstep
    exact h.update id fun b' hb' => Option.some.inj hb' ▸ Steady.make hle hmake
  | call id op =>
    obtain ⟨hop, b, fresh, out, b', hb, hexec, rfl⟩ := hstep
    refine h.update id fun b'' hb'' => Option.some.inj hb'' ▸ ?_
    exact (h id b hb).exec hop (hcareful b hb) hexec
  | moveConstruct dst src =>
    obtain ⟨-, b, hb, rfl⟩ := hstep
    exact h.moved dst src hb fun _ => hcareful b hb
  | moveAssign dst src =>
    obtain ⟨-, b, hb, rfl⟩ := hstep
    exact h.moved dst src hb fun hne => hcareful hne b hb
  | destroy id =>
    obtain ⟨-, rfl⟩ := hstep
    refine h.update id fun b' hb' => ?_
    cases hb'

/-- **Capacity describes the storage.**  In every run in which only buffers on the stack are moved
from. -/
theorem capacity_described (h : (objectSystem.restrict MovesStack).Reach s) (id : Nat) (b : Buffer)
    (hb : s id = some b) : Described b := by
  have hsteady : AllSteady s := by
    refine System.Reach.invariant (fun s hstart => ?_) (fun s a s' _ hs hstep => ?_) h
    · rw [show s = fun _ => none from hstart]
      intro id b hb
      cases hb
    · exact hs.step hstep.1 hstep.2
  exact (hsteady id b hb).described

/-- A buffer that was made, and then moved to another. -/
theorem reach_moved (ok : Objects → Action → Prop) {capacity : UInt64} {headreserved : UInt32}
    {fresh : Nat → UInt8} (hle : headreserved.toNat ≤ STACK_CAPACITY)
    (hmake : make fresh capacity.toNat headreserved.toNat = some b)
    (hok : ok (fun _ => none) (.construct 0 capacity headreserved))
    (hok' : ok (Function.update (fun _ => none) 0 (some b)) (.moveConstruct 1 0)) :
    (objectSystem.restrict ok).Reach (moved (Function.update (fun _ => none) 0 (some b)) 1 0 b) := by
  have hstart : (objectSystem.restrict ok).Reach fun _ => none := System.Reach.start rfl
  have hmade : (objectSystem.restrict ok).Reach (Function.update (fun _ => none) 0 (some b)) :=
    hstart.step ⟨hok, rfl, hle, fresh, b, hmake, rfl⟩
  exact hmade.step (a := .moveConstruct 1 0)
    ⟨hok', Function.update_of_ne (by decide) _ _, b, Function.update_self _ _ _, rfl⟩

theorem moved_source (s : Objects) (b : Buffer) : moved s 1 0 b 0 = some b.movedFrom := by
  unfold moved
  rw [Function.update_of_ne (by decide), Function.update_self]

theorem capacity_described_moved : Described (blank 14).movedFrom := by
  have hmake : make (fun _ => 0) (64 : UInt64).toNat (14 : UInt32).toNat = some (blank 14) := rfl
  have hreach := reach_moved MovesStack (by decide) hmake trivial fun b hb => by
    rw [Function.update_self] at hb
    rw [← Option.some.inj hb]
    rfl
  exact capacity_described hreach 0 _ (moved_source _ _)

/-- A buffer with 300 bytes of room is on the heap. -/
theorem not_capacity_described :
    ¬∀ s, objectSystem.Reach s → ∀ id b, s id = some b → Described b := by
  intro h
  have hcap : (make (fun _ => 0) (300 : UInt64).toNat (0 : UInt32).toNat).map capacity_ = some 512 := by
    decide +kernel
  obtain ⟨b, hmake, hb⟩ := Option.map_eq_some_iff.mp hcap
  have hreach := reach_moved (fun _ _ => True) (by decide) hmake trivial trivial
  refine not_described_movedFrom ?_ (h _ hreach.of_restrict 0 b.movedFrom (moved_source _ _))
  rw [hb]
  decide

end HappyServer.Buffer
