import Mathlib.Data.List.Basic

/-!
# Computations that log their calls

A `Traced` computation may fail, and logs calls with the number of frames around them.

* `emit c` logs `c`; `frame m` runs `m` one frame deeper; `fail e` ends the computation.
* `follow p m k`: what `p` sees in the log of `m`, and then, if `m` returned, of `k`.
* `Meets Q P m`: the log and the error of `m` are as `Q` says, at any depth, and what it returns
  is as `P` says.  There is a rule for each way to build `m`, for a `Q` that holds of a
  concatenation when it holds of its parts (`Law`).
* `Alike R m m'`: the same log and the same error, or results that `R` relates.
-/

structure Outcome (ε κ α : Type) where
  calls : List (Nat × κ)
  result : Except ε α

def Outcome.error? {ε κ α : Type} (o : Outcome ε κ α) : Option ε :=
  match o.result with
  | .ok _ => none
  | .error e => some e

def Outcome.bind {ε κ α β : Type} (o : Outcome ε κ α) (f : α → Outcome ε κ β) : Outcome ε κ β :=
  match o with
  | ⟨calls, .ok a⟩ => ⟨calls ++ (f a).calls, (f a).result⟩
  | ⟨calls, .error e⟩ => ⟨calls, .error e⟩

/-- The argument is the number of frames around the computation. -/
def Traced (ε κ α : Type) := Nat → Outcome ε κ α

namespace Traced

variable {ε κ α β γ : Type}

instance : Monad (Traced ε κ) where
  pure a := fun _ => ⟨[], .ok a⟩
  bind m f := fun depth => (m depth).bind fun a => f a depth

theorem bind_apply (m : Traced ε κ α) (f : α → Traced ε κ β) (depth : Nat) :
    (m >>= f) depth = (m depth).bind fun a => f a depth := rfl

instance : LawfulMonad (Traced ε κ) :=
  LawfulMonad.mk' _
    (fun m => by
      funext depth
      show (m depth).bind (fun a => ⟨[], .ok a⟩) = m depth
      obtain ⟨calls, e | a⟩ := m depth
      · rfl
      · simp only [Outcome.bind, List.append_nil])
    (fun a f => rfl)
    (fun m f g => by
      funext depth
      simp only [bind_apply]
      obtain ⟨calls, e | a⟩ := m depth
      · rfl
      · simp only [Outcome.bind]
        obtain ⟨calls', e | b⟩ := f a depth
        · rfl
        · simp only [List.append_assoc])

def fail (e : ε) : Traced ε κ α := fun _ => ⟨[], .error e⟩

def emit (c : κ) : Traced ε κ Unit := fun depth => ⟨[(depth, c)], .ok ()⟩

def frame (m : Traced ε κ α) : Traced ε κ α := fun depth => m (depth + 1)

/-! ## Results -/

def Returns (m : Traced ε κ α) (depth : Nat) (a : α) : Prop := (m depth).result = .ok a

@[simp] theorem returns_pure (depth : Nat) (a b : α) :
    Returns (pure a : Traced ε κ α) depth b ↔ a = b := by
  show (Except.ok a : Except ε α) = .ok b ↔ _
  rw [Except.ok.injEq]

@[simp] theorem returns_fail (e : ε) (depth : Nat) (a : α) :
    ¬Returns (fail e : Traced ε κ α) depth a := by
  intro h
  cases h

@[simp] theorem returns_emit (c : κ) (depth : Nat) (u : Unit) :
    Returns (emit c : Traced ε κ Unit) depth u := rfl

theorem returns_bind {m : Traced ε κ α} {f : α → Traced ε κ β} {depth : Nat} {b : β} :
    Returns (m >>= f) depth b ↔ ∃ a, Returns m depth a ∧ Returns (f a) depth b := by
  unfold Returns
  rw [bind_apply]
  obtain ⟨calls, e | a⟩ := m depth
  · simp [Outcome.bind]
  · simp [Outcome.bind]

theorem bind_of_returns {m : Traced ε κ α} {f : α → Traced ε κ β} {depth : Nat} {a : α}
    (h : Returns m depth a) :
    (m >>= f) depth = ⟨(m depth).calls ++ (f a depth).calls, (f a depth).result⟩ := by
  unfold Returns at h
  rw [bind_apply]
  generalize m depth = o at h
  obtain ⟨calls, result⟩ := o
  obtain rfl : result = .ok a := h
  rfl

/-! ## Logs -/

def follow (p : Nat × κ → Option γ) (o : Outcome ε κ α) (k : α → List γ) : List γ :=
  o.calls.filterMap p ++ match o.result with
    | .ok a => k a
    | .error _ => []

variable (p : Nat × κ → Option γ)

@[simp] theorem follow_pure (a : α) (depth : Nat) (k : α → List γ) :
    follow p ((pure a : Traced ε κ α) depth) k = k a := rfl

@[simp] theorem follow_fail (e : ε) (depth : Nat) (k : α → List γ) :
    follow p ((fail e : Traced ε κ α) depth) k = [] := rfl

@[simp] theorem follow_emit (c : κ) (depth : Nat) (k : Unit → List γ) :
    follow p ((emit c : Traced ε κ Unit) depth) k = (p (depth, c)).toList ++ k () := by
  unfold follow emit
  cases h : p (depth, c) with
  | none => rw [List.filterMap_cons_none h]; rfl
  | some x => rw [List.filterMap_cons_some h]; rfl

@[simp] theorem follow_frame (m : Traced ε κ α) (depth : Nat) (k : α → List γ) :
    follow p (frame m depth) k = follow p (m (depth + 1)) k := rfl

@[simp] theorem follow_bind (m : Traced ε κ α) (f : α → Traced ε κ β) (depth : Nat)
    (k : β → List γ) :
    follow p ((m >>= f) depth) k = follow p (m depth) fun a => follow p (f a depth) k := by
  unfold follow
  rw [bind_apply]
  obtain ⟨calls, e | a⟩ := m depth
  · rfl
  · simp only [Outcome.bind, List.filterMap_append, List.append_assoc]

theorem follow_congr {m : Traced ε κ α} {depth : Nat} {k k' : α → List γ}
    (h : ∀ a, Returns m depth a → k a = k' a) :
    follow p (m depth) k = follow p (m depth) k' := by
  unfold follow
  unfold Returns at h
  generalize m depth = o at h
  obtain ⟨calls, e | a⟩ := o
  · rfl
  · simp only [h a rfl]

/-- The log alone. -/
theorem follow_nil (o : Outcome ε κ α) : follow p o (fun _ => []) = o.calls.filterMap p := by
  unfold follow
  cases o.result <;> exact List.append_nil _

/-! ## Rules -/

/-- `Q` of the log and the error holds of nothing and of one part after another. -/
structure Law (Q : List (Nat × κ) → Option ε → Prop) : Prop where
  nil : Q [] none
  append : ∀ {c c' e}, Q c none → Q c' e → Q (c ++ c') e

def Meets (Q : List (Nat × κ) → Option ε → Prop) (P : α → Prop) (m : Traced ε κ α) : Prop :=
  ∀ depth, Q (m depth).calls (m depth).error? ∧ ∀ a, Returns m depth a → P a

variable {Q : List (Nat × κ) → Option ε → Prop} {P : α → Prop} {R : β → Prop}

theorem meets_pure (hQ : Law Q) {a : α} (ha : P a) : Meets Q P (pure a : Traced ε κ α) := by
  intro depth
  refine ⟨hQ.nil, fun b hb => ?_⟩
  rwa [← (returns_pure depth a b).mp hb]

theorem meets_fail {e : ε} (he : Q [] (some e)) : Meets Q P (fail e : Traced ε κ α) :=
  fun depth => ⟨he, fun a h => absurd h (returns_fail e depth a)⟩

theorem meets_emit {c : κ} (hc : ∀ depth, Q [(depth, c)] none) :
    Meets Q (fun _ => True) (emit c : Traced ε κ Unit) :=
  fun depth => ⟨hc depth, fun _ _ => trivial⟩

theorem meets_frame {m : Traced ε κ α} (hm : Meets Q P m) : Meets Q P (frame m) :=
  fun depth => hm (depth + 1)

theorem meets_bind (hQ : Law Q) {m : Traced ε κ α} {f : α → Traced ε κ β} (hm : Meets Q P m)
    (hf : ∀ a, P a → Meets Q R (f a)) : Meets Q R (m >>= f) := by
  intro depth
  obtain ⟨hcalls, hP⟩ := hm depth
  constructor
  · unfold Returns at hP
    rw [bind_apply]
    generalize m depth = o at hcalls hP
    obtain ⟨calls, e | a⟩ := o
    · exact hcalls
    · exact hQ.append hcalls (hf a (hP a rfl) depth).1
  · intro b hb
    obtain ⟨a, ha, hb⟩ := returns_bind.mp hb
    exact (hf a (hP a ha) depth).2 b hb

/-! ## Two computations side by side -/

section Alike

variable {δ : Type}

def Alike (R : α → β → Prop) (m : Traced ε κ α) (m' : Traced ε κ β) : Prop :=
  ∀ depth, (m depth).calls = (m' depth).calls ∧
    ((∃ e, (m depth).result = .error e ∧ (m' depth).result = .error e) ∨
      ∃ a b, Returns m depth a ∧ Returns m' depth b ∧ R a b)

theorem alike_pure {R : α → β → Prop} {a : α} {b : β} (h : R a b) :
    Alike R (pure a : Traced ε κ α) (pure b) :=
  fun _ => ⟨rfl, Or.inr ⟨a, b, rfl, rfl, h⟩⟩

theorem alike_fail {R : α → β → Prop} (e : ε) :
    Alike R (fail e : Traced ε κ α) (fail e : Traced ε κ β) :=
  fun _ => ⟨rfl, Or.inl ⟨e, rfl, rfl⟩⟩

theorem alike_emit (c : κ) :
    Alike (fun _ _ => True) (emit c : Traced ε κ Unit) (emit c : Traced ε κ Unit) :=
  fun _ => ⟨rfl, Or.inr ⟨(), (), rfl, rfl, trivial⟩⟩

theorem alike_frame {R : α → β → Prop} {m : Traced ε κ α} {m' : Traced ε κ β} (h : Alike R m m') :
    Alike R (frame m) (frame m') :=
  fun depth => h (depth + 1)

theorem alike_bind {R : α → β → Prop} {S : γ → δ → Prop} {m : Traced ε κ α} {m' : Traced ε κ β}
    {f : α → Traced ε κ γ} {f' : β → Traced ε κ δ} (hm : Alike R m m')
    (hf : ∀ a b, R a b → Alike S (f a) (f' b)) : Alike S (m >>= f) (m' >>= f') := by
  intro depth
  obtain ⟨hcalls, hresult⟩ := hm depth
  rcases hresult with ⟨e, he, he'⟩ | ⟨a, b, ha, hb, hab⟩
  · rw [bind_apply, bind_apply]
    generalize m depth = o at hcalls he
    generalize m' depth = o' at hcalls he'
    obtain ⟨calls, result⟩ := o
    obtain ⟨calls', result'⟩ := o'
    obtain rfl : result = .error e := he
    obtain rfl : result' = .error e := he'
    exact ⟨hcalls, Or.inl ⟨e, rfl, rfl⟩⟩
  · obtain ⟨hcalls', hresult⟩ := hf a b hab depth
    rw [bind_of_returns ha, bind_of_returns hb]
    refine ⟨?_, ?_⟩
    · show (m depth).calls ++ _ = (m' depth).calls ++ _
      rw [hcalls, hcalls']
    · rcases hresult with hresult | ⟨c, d, hc, hd, hcd⟩
      · exact Or.inl hresult
      · exact Or.inr ⟨c, d, returns_bind.mpr ⟨a, ha, hc⟩, returns_bind.mpr ⟨b, hb, hd⟩, hcd⟩

theorem alike_mono {R S : α → β → Prop} {m : Traced ε κ α} {m' : Traced ε κ β} (h : Alike R m m')
    (hRS : ∀ a b, R a b → S a b) : Alike S m m' := by
  intro depth
  obtain ⟨hcalls, hresult⟩ := h depth
  refine ⟨hcalls, hresult.imp_right ?_⟩
  rintro ⟨a, b, ha, hb, hab⟩
  exact ⟨a, b, ha, hb, hRS a b hab⟩

end Alike

end Traced
