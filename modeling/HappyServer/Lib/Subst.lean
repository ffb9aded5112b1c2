import Mathlib.Data.List.Infix

/-!
# Substitution in lists

`subst old new xs`: the occurrences of `old` in `xs`, taken from the left and not overlapping,
are replaced by `new`; what was replaced is not looked at again.

`subst_induction` is the induction it is reasoned about with: a list is empty, begins with `old`,
or does not.

`Pieces old xs ps`: the occurrences cut `xs` into `ps`, each the first in what is left of `xs`.

    old ≠ [] → ∃ ps, Pieces old xs ps                                  (exists_pieces)
    Pieces old xs ps → subst old new xs = new.intercalate ps           (Pieces.subst_eq)
-/

variable {α : Type} [DecidableEq α]

/-- The first `skip` elements belong to an occurrence. -/
def substFrom (old new : List α) : (skip : Nat) → List α → List α
  | _, [] => []
  | 0, x :: xs =>
    if old <+: x :: xs then new ++ substFrom old new (old.length - 1) xs
    else x :: substFrom old new 0 xs
  | skip + 1, _ :: xs => substFrom old new skip xs

def subst (old new xs : List α) : List α := substFrom old new 0 xs

variable {old new xs ys : List α} {x y : α}

theorem substFrom_eq_drop (old new : List α) (skip : Nat) :
    ∀ xs, substFrom old new skip xs = subst old new (xs.drop skip) := by
  induction skip with
  | zero => intro xs; rfl
  | succ skip ih =>
    intro xs
    cases xs with
    | nil => rfl
    | cons x xs => exact ih xs

@[simp] theorem subst_nil : subst old new [] = [] := rfl

/-- An occurrence at the head is replaced. -/
theorem subst_append_self (hold : old ≠ []) (xs : List α) :
    subst old new (old ++ xs) = new ++ subst old new xs := by
  cases old with
  | nil => exact absurd rfl hold
  | cons x old =>
    have hpre : x :: old <+: x :: (old ++ xs) := List.prefix_append (x :: old) xs
    show (if x :: old <+: x :: (old ++ xs) then _ else _) = _
    rw [if_pos hpre, substFrom_eq_drop]
    simp

theorem subst_cons_pass (h : ¬ old <+: x :: xs) :
    subst old new (x :: xs) = x :: subst old new xs := if_neg h

@[elab_as_elim]
theorem subst_induction (hold : old ≠ []) {motive : List α → Prop} (nil : motive [])
    (occurs : ∀ xs, motive xs → motive (old ++ xs))
    (passes : ∀ x xs, ¬ old <+: x :: xs → motive xs → motive (x :: xs)) (xs : List α) :
    motive xs := by
  induction hn : xs.length using Nat.strong_induction_on generalizing xs with
  | _ n ih =>
    subst hn
    cases xs with
    | nil => exact nil
    | cons x xs =>
      by_cases hpre : old <+: x :: xs
      · obtain ⟨rest, hrest⟩ := hpre
        rw [← hrest]
        refine occurs rest (ih rest.length ?_ rest rfl)
        have hlen := congrArg List.length hrest
        have := List.length_pos_iff.mpr hold
        rw [List.length_append] at hlen
        omega
      · exact passes x xs hpre (ih xs.length (by simp) xs rfl)

omit [DecidableEq α] in
theorem prefix_cons_mem (hold : old ≠ []) (h : old <+: x :: xs) : x ∈ old := by
  obtain ⟨y, old', rfl⟩ := List.exists_cons_of_ne_nil hold
  rw [List.cons_prefix_cons] at h
  simp [h.1]

/-- What is not in `old` stays where it is. -/
theorem subst_cons_of_not_mem (hold : old ≠ []) (hx : x ∉ old) :
    subst old new (x :: xs) = x :: subst old new xs :=
  subst_cons_pass fun hpre => hx (prefix_cons_mem hold hpre)

/-- Nor does a part of the list in which no occurrence begins. -/
theorem subst_append_of_not_mem {y : α} {old : List α} (hy : y ∉ xs) :
    subst (y :: old) new (xs ++ ys) = xs ++ subst (y :: old) new ys := by
  induction xs with
  | nil => rfl
  | cons x xs ih =>
    rw [List.mem_cons, not_or] at hy
    have hpass : ¬ y :: old <+: x :: (xs ++ ys) := by
      rw [List.cons_prefix_cons]
      exact fun h => hy.1 h.1
    rw [List.cons_append, subst_cons_pass hpass, ih hy.2, List.cons_append]

omit [DecidableEq α] in
theorem not_infix_of_cons (h : ¬ old <:+: x :: xs) : ¬ old <+: x :: xs ∧ ¬ old <:+: xs :=
  ⟨fun hpre => h hpre.isInfix, fun hinf => h (List.infix_cons hinf)⟩

theorem subst_of_absent (h : ¬ old <:+: xs) : subst old new xs = xs := by
  induction xs with
  | nil => rfl
  | cons x xs ih =>
    obtain ⟨hpre, hinf⟩ := not_infix_of_cons h
    rw [subst_cons_pass hpre, ih hinf]

/-- An element that is not in `old` comes from the list, or from a replacement. -/
theorem mem_subst (hold : old ≠ []) (hx : x ∉ old) :
    x ∈ subst old new xs ↔ x ∈ xs ∨ (old <:+: xs ∧ x ∈ new) := by
  induction xs using subst_induction hold with
  | nil => simpa using fun h => absurd h hold
  | occurs xs ih =>
    rw [subst_append_self hold, List.mem_append, ih, List.mem_append]
    have hinf : old <:+: old ++ xs := (List.prefix_append old xs).isInfix
    simp only [hx, hinf, false_or, true_and]
    constructor
    · rintro (h | h | ⟨-, h⟩)
      · exact .inr h
      · exact .inl h
      · exact .inr h
    · rintro (h | h)
      · exact .inr (.inl h)
      · exact .inl h
  | passes y xs hpre ih =>
    rw [subst_cons_pass hpre, List.mem_cons, ih, List.mem_cons, List.infix_cons_iff]
    simp only [hpre, false_or, or_assoc]

/-! ## Pieces -/

omit [DecidableEq α] in
/-- An occurrence after `before`, and none that begins in it. -/
def FirstAt (old before after : List α) : Prop :=
  ∀ i < before.length, ¬ old <+: (before ++ (old ++ after)).drop i

instance (old before after : List α) : Decidable (FirstAt old before after) :=
  inferInstanceAs (Decidable (∀ i < _, _))

theorem subst_first (hold : old ≠ []) (before after : List α) (h : FirstAt old before after) :
    subst old new (before ++ (old ++ after)) = before ++ (new ++ subst old new after) := by
  induction before with
  | nil => exact subst_append_self hold after
  | cons b before ih =>
    have hfirst : ¬ old <+: b :: (before ++ (old ++ after)) := h 0 (by simp)
    rw [List.cons_append, subst_cons_pass hfirst, ih fun i hi => h (i + 1) (by simpa using hi)]
    rfl

omit [DecidableEq α] in
inductive Pieces (old : List α) : List α → List (List α) → Prop where
  | last {xs : List α} (absent : ¬ old <:+: xs) : Pieces old xs [xs]
  | cut {before after : List α} {ps : List (List α)} (first : FirstAt old before after)
      (rest : Pieces old after ps) : Pieces old (before ++ (old ++ after)) (before :: ps)

namespace Pieces

variable {p : List α} {ps qs : List (List α)}

omit [DecidableEq α]

theorem ne_nil (h : Pieces old xs ps) : ps ≠ [] := by
  cases h <;> exact List.cons_ne_nil _ _

/-- One more element in front goes to the first piece, if no occurrence begins with it. -/
theorem cons (h : Pieces old xs (p :: ps)) (hpass : ¬ old <+: x :: xs) :
    Pieces old (x :: xs) ((x :: p) :: ps) := by
  cases h with
  | last absent =>
    refine last fun hinf => ?_
    rcases List.infix_cons_iff.mp hinf with hpre | hinf
    · exact hpass hpre
    · exact absent hinf
  | @cut _ after _ first rest =>
    have hfirst : FirstAt old (x :: p) after := by
      intro i hi
      cases i with
      | zero => exact hpass
      | succ i => exact first i (by simpa using hi)
    exact cut hfirst rest

theorem join (h : Pieces old xs ps) : old.intercalate ps = xs := by
  induction h with
  | last absent => exact List.intercalate_singleton
  | cut first rest ih => rw [List.intercalate_cons_of_ne_nil rest.ne_nil, ih, List.append_assoc]

/-- There is one first occurrence. -/
theorem first_unique {before before' after after' : List α} (h : FirstAt old before after)
    (h' : FirstAt old before' after') (heq : before ++ (old ++ after) = before' ++ (old ++ after')) :
    before = before' ∧ after = after' := by
  have hlen : before.length = before'.length := by
    rcases Nat.lt_trichotomy before.length before'.length with hlt | hlen | hlt
    · refine absurd ?_ (h' _ hlt)
      rw [← heq, List.drop_left]
      exact List.prefix_append old after
    · exact hlen
    · refine absurd ?_ (h _ hlt)
      rw [heq, List.drop_left]
      exact List.prefix_append old after'
  obtain ⟨hbefore, hrest⟩ := List.append_inj heq hlen
  exact ⟨hbefore, List.append_cancel_left hrest⟩

theorem unique (h : Pieces old xs ps) : ∀ {qs}, Pieces old xs qs → qs = ps := by
  have occurs : ∀ before after : List α, old <:+: before ++ (old ++ after) := fun before after =>
    ⟨before, after, List.append_assoc before old after⟩
  induction h with
  | last absent =>
    intro qs h'
    cases h' with
    | last _ => rfl
    | cut _ _ => exact absurd (occurs _ _) absent
  | @cut before after ps first rest ih =>
    intro qs h'
    generalize heq : before ++ (old ++ after) = ys at h'
    cases h' with
    | last absent => exact absurd (heq ▸ occurs before after) absent
    | cut first' rest' =>
      obtain ⟨rfl, rfl⟩ := first_unique first first' heq
      rw [ih rest']

end Pieces

theorem Pieces.subst_eq (hold : old ≠ []) {ps : List (List α)} (h : Pieces old xs ps) :
    subst old new xs = new.intercalate ps := by
  induction h with
  | last absent => rw [subst_of_absent absent, List.intercalate_singleton]
  | cut first rest ih =>
    rw [subst_first hold _ _ first, ih, List.intercalate_cons_of_ne_nil rest.ne_nil,
      List.append_assoc]

theorem exists_pieces (hold : old ≠ []) (xs : List α) : ∃ ps, Pieces old xs ps := by
  induction xs using subst_induction hold with
  | nil => exact ⟨[[]], .last fun h => hold (List.infix_nil.mp h)⟩
  | occurs xs ih =>
    obtain ⟨ps, h⟩ := ih
    have hfirst : FirstAt old [] xs := fun i hi => absurd hi (Nat.not_lt_zero i)
    exact ⟨[] :: ps, .cut hfirst h⟩
  | passes x xs hpass ih =>
    obtain ⟨ps, h⟩ := ih
    obtain ⟨p, ps, rfl⟩ := List.exists_cons_of_ne_nil h.ne_nil
    exact ⟨(x :: p) :: ps, h.cons hpass⟩

/-! ## Maps -/

section

variable {β : Type} {f : α → β}

omit [DecidableEq α] in
theorem prefix_of_prefix_map (hf : ∀ y ∈ old, ∀ x, f x = f y → x = y) :
    ∀ part xs, part ⊆ old → part.map f <+: xs.map f → part <+: xs := by
  intro part
  induction part with
  | nil => intro xs _ _; exact List.nil_prefix
  | cons y part ih =>
    intro xs hsub hpre
    obtain ⟨hy, hpart⟩ := List.cons_subset.mp hsub
    cases xs with
    | nil => simp at hpre
    | cons x xs =>
      rw [List.map_cons, List.map_cons, List.cons_prefix_cons] at hpre
      obtain ⟨hxy, hpre⟩ := hpre
      rw [hf y hy x hxy.symm, List.cons_prefix_cons]
      exact ⟨rfl, ih xs hpart hpre⟩

omit [DecidableEq α] in
/-- A map that takes nothing else to where it takes `old` keeps the occurrences. -/
theorem infix_map_iff (hf : ∀ y ∈ old, ∀ x, f x = f y → x = y) :
    old.map f <:+: xs.map f ↔ old <:+: xs := by
  refine ⟨fun h => ?_, fun h => h.map f⟩
  induction xs with
  | nil =>
    rw [List.map_nil, List.infix_nil, List.map_eq_nil_iff] at h
    rw [h]
  | cons x xs ih =>
    rw [List.map_cons, List.infix_cons_iff] at h
    rcases h with hpre | hinf
    · exact (prefix_of_prefix_map hf old (x :: xs) (List.Subset.refl old) hpre).isInfix
    · exact List.infix_cons (ih hinf)

/-- Such a map commutes with `subst`. -/
theorem subst_map [DecidableEq β] (hf : ∀ y ∈ old, ∀ x, f x = f y → x = y) (hold : old ≠ [])
    (new xs : List α) :
    subst (old.map f) (new.map f) (xs.map f) = (subst old new xs).map f := by
  have hold' : old.map f ≠ [] := by simpa using hold
  induction xs using subst_induction hold with
  | nil => rfl
  | occurs xs ih =>
    rw [List.map_append, subst_append_self hold', subst_append_self hold, ih, List.map_append]
  | passes x xs hpre ih =>
    have hpre' : ¬ old.map f <+: f x :: xs.map f := fun h =>
      hpre (prefix_of_prefix_map hf old (x :: xs) (List.Subset.refl old) h)
    rw [List.map_cons, subst_cons_pass hpre', subst_cons_pass hpre, ih,
      List.map_cons]

end
