import Mathlib.Logic.Function.Basic

/-!
# Logs of writes

A log is the writes a program made (an address and a cell each), the oldest first.

* `wrote mem log`: the memory after the writes.
* `Spells addr text log`: what was written is `text`, at `addr 0`, `addr 1`, …, in any order and
  perhaps more than once.
* `Leaves addr text log`: nothing is written elsewhere, and `text` is there afterwards; what was
  written first may have been written over.

    Spells addr s log → Spells (addr from s.length on) t log' → Spells addr (s ++ t) (log ++ log')   (Spells.append)
    Spells addr text log → what `wrote mem log` has at the addresses is `text`                       (Spells.read)
    Spells addr text log → Leaves addr text log                                                      (Spells.leaves)
    Leaves addr s log → Leaves (addr from s.length on) t log' → Leaves addr (s ++ t) (log ++ log')   (Leaves.append)
    Leaves addr text log → Leaves addr (text.set i a) (log ++ [(addr i, a)])                         (Leaves.set)
-/

namespace Writes

variable {α β : Type} {addr : Nat → β} {s t text : List α} {log log' : List (β × α)}

def Spells (addr : Nat → β) (text : List α) (log : List (β × α)) : Prop :=
  ∀ w, w ∈ log ↔ ∃ i, text[i]? = some w.2 ∧ w.1 = addr i

theorem spells_nil (addr : Nat → β) : Spells addr ([] : List α) [] := by
  intro w
  simp

theorem spells_singleton (addr : Nat → β) (a : α) : Spells addr [a] [(addr 0, a)] := by
  intro w
  rw [List.mem_singleton]
  constructor
  · rintro rfl
    exact ⟨0, rfl, rfl⟩
  · rintro ⟨i, hi, haddr⟩
    obtain ⟨hlt, ha⟩ := List.getElem?_eq_some_iff.mp hi
    obtain rfl : i = 0 := by simpa using hlt
    exact Prod.ext haddr ha.symm

/-- The order does not matter, nor do repetitions. -/
theorem Spells.congr (h : Spells addr text log) (hmem : ∀ w, w ∈ log' ↔ w ∈ log) :
    Spells addr text log' := fun w => (hmem w).trans (h w)

theorem Spells.move {addr' : Nat → β} (h : Spells addr text log) (haddr : ∀ i, addr i = addr' i) :
    Spells addr' text log := by
  rwa [← show addr = addr' by ext i; exact haddr i]

theorem Spells.append (hs : Spells addr s log) (ht : Spells (fun i => addr (s.length + i)) t log') :
    Spells addr (s ++ t) (log ++ log') := by
  intro w
  rw [List.mem_append, hs w, ht w]
  constructor
  · rintro (⟨i, hi, haddr⟩ | ⟨i, hi, haddr⟩)
    · obtain ⟨hlt, -⟩ := List.getElem?_eq_some_iff.mp hi
      exact ⟨i, by rw [List.getElem?_append_left hlt, hi], haddr⟩
    · refine ⟨s.length + i, ?_, haddr⟩
      rw [List.getElem?_append_right (by omega), Nat.add_sub_cancel_left, hi]
  · rintro ⟨i, hi, haddr⟩
    by_cases hlt : i < s.length
    · rw [List.getElem?_append_left hlt] at hi
      exact Or.inl ⟨i, hi, haddr⟩
    · rw [List.getElem?_append_right (by omega)] at hi
      refine Or.inr ⟨i - s.length, hi, ?_⟩
      show w.1 = addr (s.length + (i - s.length))
      rwa [show s.length + (i - s.length) = i by omega]

theorem Spells.inside (h : Spells addr text log) {w : β × α} (hw : w ∈ log) :
    ∃ i < text.length, w.1 = addr i := by
  obtain ⟨i, hi, haddr⟩ := (h w).mp hw
  exact ⟨i, (List.getElem?_eq_some_iff.mp hi).1, haddr⟩

/-! ## The memory afterwards -/

section

variable [DecidableEq β]

def wrote (mem : β → α) (log : List (β × α)) : β → α :=
  log.foldl (fun mem w => Function.update mem w.1 w.2) mem

/-- An address to which nothing but `a` is written. -/
theorem wrote_eq {a : α} {x : β} (log : List (β × α)) :
    ∀ mem : β → α, (∀ w ∈ log, w.1 = x → w.2 = a) → (mem x = a ∨ ∃ w ∈ log, w.1 = x) →
      wrote mem log x = a := by
  induction log with
  | nil =>
    rintro mem - (hmem | ⟨w, hw, -⟩)
    · exact hmem
    · exact absurd hw List.not_mem_nil
  | cons w log ih =>
    intro mem honly hhas
    refine ih (Function.update mem w.1 w.2) (fun v hv => honly v (List.mem_cons_of_mem w hv)) ?_
    by_cases hx : w.1 = x
    · subst hx
      rw [Function.update_self]
      exact Or.inl (honly w List.mem_cons_self rfl)
    · rw [Function.update_of_ne (Ne.symm hx)]
      rcases hhas with hmem | ⟨v, hv, hvx⟩
      · exact Or.inl hmem
      · rcases List.mem_cons.mp hv with rfl | hv
        · exact absurd hvx hx
        · exact Or.inr ⟨v, hv, hvx⟩

theorem Spells.read (h : Spells addr text log)
    (hinj : ∀ i < text.length, ∀ j < text.length, addr i = addr j → i = j) (mem : β → α) :
    (List.range text.length).map (fun i => wrote mem log (addr i)) = text := by
  refine List.ext_getElem (by simp) fun i hi hi' => ?_
  rw [List.getElem_map, List.getElem_range]
  refine wrote_eq log mem (fun w hw hx => ?_) (Or.inr ⟨(addr i, text[i]), ?_, rfl⟩)
  · obtain ⟨j, hj, haddr⟩ := (h w).mp hw
    obtain ⟨hlt, hcell⟩ := List.getElem?_eq_some_iff.mp hj
    obtain rfl : j = i := hinj j hlt i hi' (haddr.symm.trans hx)
    exact hcell.symm
  · exact (h _).mpr ⟨i, List.getElem?_eq_getElem hi', rfl⟩

theorem wrote_append (mem : β → α) (log log' : List (β × α)) :
    wrote mem (log ++ log') = wrote (wrote mem log) log' :=
  List.foldl_append

theorem wrote_of_forall_ne {x : β} (log : List (β × α)) (mem : β → α) (h : ∀ w ∈ log, w.1 ≠ x) :
    wrote mem log x = mem x :=
  wrote_eq log mem (fun w hw hx => absurd hx (h w hw)) (Or.inl rfl)

/-! ## What is left in the end -/

structure Leaves (addr : Nat → β) (text : List α) (log : List (β × α)) : Prop where
  inside : ∀ w ∈ log, ∃ i < text.length, w.1 = addr i
  left : ∀ mem i (hi : i < text.length), wrote mem log (addr i) = text[i]

theorem Spells.leaves (h : Spells addr text log)
    (hinj : ∀ i < text.length, ∀ j < text.length, addr i = addr j → i = j) :
    Leaves addr text log := by
  refine ⟨fun w hw => h.inside hw, fun mem i hi => ?_⟩
  have hread := congrArg (fun l : List α => l[i]?) (h.read hinj mem)
  rw [List.getElem?_map, List.getElem?_range hi, List.getElem?_eq_getElem hi] at hread
  exact Option.some.inj hread

theorem Leaves.move {addr' : Nat → β} (h : Leaves addr text log) (haddr : ∀ i, addr i = addr' i) :
    Leaves addr' text log := by
  rwa [← show addr = addr' by ext i; exact haddr i]

theorem Leaves.append (hs : Leaves addr s log) (ht : Leaves (fun i => addr (s.length + i)) t log')
    (hinj : ∀ i < (s ++ t).length, ∀ j < (s ++ t).length, addr i = addr j → i = j) :
    Leaves addr (s ++ t) (log ++ log') := by
  rw [List.length_append] at hinj
  constructor
  · intro w hw
    rw [List.length_append]
    rcases List.mem_append.mp hw with hw | hw
    · obtain ⟨i, hi, haddr⟩ := hs.inside w hw
      exact ⟨i, by omega, haddr⟩
    · obtain ⟨i, hi, haddr⟩ := ht.inside w hw
      exact ⟨s.length + i, by omega, haddr⟩
  · intro mem i hi
    rw [List.length_append] at hi
    rw [wrote_append]
    by_cases hlt : i < s.length
    · -- the later writes are all behind
      rw [wrote_of_forall_ne log' _ ?_, hs.left mem i hlt, List.getElem_append_left hlt]
      intro w hw haddr
      obtain ⟨j, hj, hwj⟩ := ht.inside w hw
      have heq := hinj (s.length + j) (by omega) i hi (hwj.symm.trans haddr)
      omega
    · have hleft := ht.left (wrote mem log) (i - s.length) (by omega)
      rw [List.getElem_append_right (by omega), ← hleft]
      show _ = wrote _ log' (addr (s.length + (i - s.length)))
      rw [show s.length + (i - s.length) = i by omega]

theorem Leaves.set {i : Nat} (h : Leaves addr text log) (a : α) (hi : i < text.length)
    (hinj : ∀ i < text.length, ∀ j < text.length, addr i = addr j → i = j) :
    Leaves addr (text.set i a) (log ++ [(addr i, a)]) := by
  constructor
  · intro w hw
    rw [List.length_set]
    rcases List.mem_append.mp hw with hw | hw
    · exact h.inside w hw
    · obtain rfl := List.mem_singleton.mp hw
      exact ⟨i, hi, rfl⟩
  · intro mem j hj
    rw [List.length_set] at hj
    rw [wrote_append, List.getElem_set]
    show Function.update (wrote mem log) (addr i) a (addr j) = _
    by_cases hij : i = j
    · subst hij
      rw [Function.update_self, if_pos rfl]
    · rw [if_neg hij, Function.update_of_ne (fun heq => hij (hinj j hj i hi heq).symm)]
      exact h.left mem j hj

end

/-- The cells of a text, one after the other. -/
def copied (addr : Nat → β) (text : List α) : List (β × α) :=
  text.mapIdx fun i a => (addr i, a)

theorem spells_copied (addr : Nat → β) (text : List α) : Spells addr text (copied addr text) := by
  intro w
  unfold copied
  rw [List.mem_mapIdx]
  constructor
  · rintro ⟨i, hi, rfl⟩
    exact ⟨i, List.getElem?_eq_getElem hi, rfl⟩
  · rintro ⟨i, hi, haddr⟩
    obtain ⟨hlt, ha⟩ := List.getElem?_eq_some_iff.mp hi
    exact ⟨i, hlt, Prod.ext haddr.symm ha⟩

end Writes
