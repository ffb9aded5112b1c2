import HappyServer.Lib.Subst
import Mathlib.Data.List.TakeDrop

/-!
# `replace` (`common/string.hpp`)

`find` and `replace` on the bytes of a `std::string`.  The loop has one unit of `fuel` for each
round; `none` when it is spent.  For a pattern that is not empty it is `subst`, and there is fuel
enough for one round more than the string has bytes.
-/

namespace HappyServer.Config

/-- `src.find(old, pos)` -/
def find (src old : List UInt8) (pos : Nat) : Option Nat :=
  (List.range (src.length + 1)).find? fun i => pos ≤ i ∧ old <+: src.drop i

def replaceLoop (old strnew : List UInt8) :
    (fuel : Nat) → (src : List UInt8) → (pos : Nat) → Option (List UInt8)
  | 0, _, _ => none
  | fuel + 1, src, pos =>
    match find src old pos with
    | some pos =>
      let src := src.take pos ++ strnew ++ src.drop (pos + old.length)
      replaceLoop old strnew fuel src (pos + strnew.length)
    | none => some src

def replace (fuel : Nat) (src old strnew : List UInt8) : Option (List UInt8) :=
  replaceLoop old strnew fuel src 0

variable {src old strnew : List UInt8} {pos p : Nat}

theorem find_some (h : find src old pos = some p) :
    pos ≤ p ∧ old <+: src.drop p ∧ ∀ i, pos ≤ i → i < p → ¬ old <+: src.drop i := by
  obtain ⟨hp, -, hbefore⟩ := List.find?_range_eq_some.mp h
  simp only [decide_eq_true_eq] at hp
  refine ⟨hp.1, hp.2, fun i hpos hi hpre => ?_⟩
  have := hbefore i hi
  simp [hpos, hpre] at this

theorem find_none (h : find src old pos = none) :
    ∀ i, pos ≤ i → i ≤ src.length → ¬ old <+: src.drop i := by
  intro i hpos hi hpre
  have hall := List.find?_eq_none.mp h i (by simpa using Nat.lt_succ_of_le hi)
  simp [hpos, hpre] at hall

/-- What is before `pos` is left alone, what is after it is substituted. -/
theorem replaceLoop_eq (hold : old ≠ []) (fuel : Nat) :
    ∀ before rest : List UInt8, rest.length < fuel →
      replaceLoop old strnew fuel (before ++ rest) before.length
        = some (before ++ subst old strnew rest) := by
  induction fuel with
  | zero => intro before rest h; omega
  | succ fuel ih =>
    intro before rest hfuel
    rw [replaceLoop]
    cases hfind : find (before ++ rest) old before.length with
    | none =>
      have hnone : ¬ old <:+: rest := by
        rintro ⟨left, right, hinf⟩
        refine find_none hfind (before.length + left.length) (by omega) ?_ ?_
        · rw [← hinf]
          simp
        · rw [List.drop_length_add_append, ← hinf, List.append_assoc, List.drop_left]
          exact List.prefix_append old right
      rw [subst_of_absent hnone]
    | some p =>
      obtain ⟨hpos, ⟨after, hafter⟩, hfirst⟩ := find_some hfind
      obtain ⟨k, rfl⟩ := Nat.exists_eq_add_of_le hpos
      rw [List.drop_length_add_append] at hafter
      obtain ⟨passed, hpassed, hrest⟩ : ∃ passed, passed.length = k ∧ rest = passed ++ (old ++ after) := by
        have hk : k ≤ rest.length := by
          by_contra hk
          rw [List.drop_eq_nil_of_le (by omega)] at hafter
          exact hold (List.append_eq_nil_iff.mp hafter).1
        exact ⟨rest.take k, List.length_take_of_le hk, by rw [hafter, List.take_append_drop]⟩
      subst hpassed hrest
      have hshort : after.length < fuel := by
        have := List.length_pos_iff.mpr hold
        simp only [List.length_append] at hfuel
        omega
      have hnext := ih (before ++ passed ++ strnew) after hshort
      have hleft : (before ++ (passed ++ (old ++ after))).take (before.length + passed.length)
          = before ++ passed := by
        rw [← List.append_assoc]
        exact List.take_left' (by simp)
      have hright : (before ++ (passed ++ (old ++ after))).drop
          (before.length + passed.length + old.length) = after := by
        rw [← List.append_assoc, ← List.append_assoc]
        exact List.drop_left' (by simp only [List.length_append])
      simp only [hleft, hright]
      rw [← List.length_append, ← List.length_append, hnext, subst_first hold passed after]
      · simp
      · intro i hi hpre
        refine hfirst (before.length + i) (by omega) (by omega) ?_
        rwa [List.drop_length_add_append]

theorem replace_eq (hold : old ≠ []) (fuel : Nat) (h : src.length < fuel) :
    replace fuel src old strnew = some (subst old strnew src) :=
  replaceLoop_eq hold fuel [] src h

/-- **Substitution.**  The loop ends with the pieces that the pattern cuts the string into, joined by the
replacement; the pieces do not depend on it. -/
theorem replace_joins (src old : List UInt8) (hold : old ≠ []) :
    ∃ pieces, Pieces old src pieces ∧ (∀ other, Pieces old src other → other = pieces) ∧
      old.intercalate pieces = src ∧
      ∀ strnew fuel, src.length < fuel → replace fuel src old strnew = some (strnew.intercalate pieces) := by
  obtain ⟨pieces, hpieces⟩ := exists_pieces hold src
  refine ⟨pieces, hpieces, fun other hother => hpieces.unique hother, hpieces.join, ?_⟩
  intro strnew fuel hfuel
  rw [replace_eq hold fuel hfuel, hpieces.subst_eq hold]

/-- `aXbX` with `XX` for `X`: the replacement has the pattern in it. -/
theorem replace_joins_twice :
    replace 5 [97, 88, 98, 88] [88] [88, 88] = some [97, 88, 88, 98, 88, 88] := by
  obtain ⟨pieces, -, huniq, -, hreplace⟩ := replace_joins [97, 88, 98, 88] [88] (by decide)
  have hlast : Pieces [88] [] [([] : List UInt8)] := .last (by decide)
  have hsecond : Pieces [88] [98, 88] [[98], ([] : List UInt8)] :=
    .cut (show FirstAt [(88 : UInt8)] [98] [] by decide) hlast
  have hfirst : Pieces [88] [97, 88, 98, 88] [[97], [98], ([] : List UInt8)] :=
    .cut (show FirstAt [(88 : UInt8)] [97] [98, 88] by decide) hsecond
  rw [hreplace [88, 88] 5 (by decide), ← huniq _ hfirst]
  rfl

end HappyServer.Config
