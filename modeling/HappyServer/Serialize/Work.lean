import HappyServer.Serialize.Untrusted

/-!
# The work of decoding

`Spends n m`: from `n` bytes, `m` reads no more type bytes than it takes bytes, and one more where it
fails.  A value takes its type byte, so the loops of `unpack_table` end however many elements a header
declares, and `unpack` never runs out of fuel.

    type bytes read by `unpack` ≤ length + 1                                           (linear_work)
-/

namespace HappyServer.Serialize

open LittleEndian Traced Word

variable {α β : Type}

def typeBytes (calls : List (Nat × Call)) : Nat := calls.countP fun c => c.2 = .typeByte

theorem typeBytes_append (c c' : List (Nat × Call)) :
    typeBytes (c ++ c') = typeBytes c + typeBytes c' := List.countP_append

def Spends (n : Nat) (m : Decode (α × BufferView)) : Prop :=
  ∀ depth, typeBytes (m depth).calls ≤ n + 1 ∧ (m depth).result ≠ .error .outOfFuel ∧
    ∀ a view, Returns m depth (a, view) → typeBytes (m depth).calls + view.rest.length ≤ n

/-! ## Rules -/

variable {n : Nat} {view : BufferView}

theorem spends_pure (a : α) (h : view.rest.length ≤ n) : Spends n (pure (a, view)) := by
  intro depth
  refine ⟨Nat.zero_le _, nofun, fun a' view' h' => ?_⟩
  obtain ⟨rfl, rfl⟩ := Prod.mk.inj ((returns_pure ..).mp h')
  show 0 + _ ≤ n
  omega

theorem spends_fail {e : Error} (he : e ≠ .outOfFuel) : Spends n (fail e : Decode (α × BufferView)) := by
  intro depth
  refine ⟨Nat.zero_le _, fun h => he (Except.error.inj h), fun a' view' h' => ?_⟩
  cases h'

theorem spends_invalidStream (line : Nat) :
    Spends n (invalidStream view line : Decode (α × BufferView)) :=
  spends_fail fun h => by cases h

theorem spends_bind {m : Decode (α × BufferView)} {f : α × BufferView → Decode (β × BufferView)}
    (hm : Spends n m)
    (hf : ∀ depth a view, Returns m depth (a, view) → view.rest.length ≤ n →
      Spends view.rest.length (f (a, view))) : Spends n (m >>= f) := by
  intro depth
  obtain ⟨hcalls, hfuel, hret⟩ := hm depth
  replace hf := hf depth
  unfold Returns at hret hf ⊢
  rw [bind_apply]
  generalize m depth = o at hcalls hfuel hret hf
  obtain ⟨calls, e | ⟨a, view⟩⟩ := o
  · refine ⟨hcalls, fun h => hfuel (congrArg Except.error (Except.error.inj h)), fun _ _ h => ?_⟩
    cases h
  · have hview := hret a view rfl
    obtain ⟨hcalls', hfuel', hret'⟩ := hf a view rfl (by omega) depth
    dsimp only [Outcome.bind] at hview ⊢
    rw [typeBytes_append]
    refine ⟨by omega, hfuel', fun b view' h => ?_⟩
    have := hret' b view' h
    omega

theorem spends_emit {c : Call} {m : Decode (α × BufferView)} (hc : c ≠ .typeByte) (hm : Spends n m) :
    Spends n (emit c >>= fun _ => m) := by
  intro depth
  have hnone : typeBytes ((depth, c) :: (m depth).calls) = typeBytes (m depth).calls := by
    unfold typeBytes
    rw [List.countP_cons_of_neg (by rwa [decide_eq_true_eq])]
  show typeBytes ((depth, c) :: (m depth).calls) ≤ _ ∧ (m depth).result ≠ _ ∧ ∀ a view,
    Returns m depth (a, view) → typeBytes ((depth, c) :: (m depth).calls) + _ ≤ _
  rw [hnone]
  exact hm depth

theorem spends_frame {m : Decode (α × BufferView)} (hm : Spends n m) : Spends n (frame m) :=
  fun depth => hm (depth + 1)

theorem spends_ite {p : Prop} [Decidable p] {m m' : Decode (α × BufferView)} (h : Spends n m)
    (h' : Spends n m') : Spends n (if p then m else m') := by
  split
  · exact h
  · exact h'

/-! ## Reads -/

theorem spends_readOr (view : BufferView) {w : Nat} (line : Nat) (hpos : 0 < w) :
    Spends view.rest.length (readOr view w line) := by
  rcases readOr_cases view line hpos with ⟨-, h⟩ | ⟨-, view', h, hrest⟩
  · rw [h]
    exact spends_invalidStream line
  · rw [h]
    apply spends_pure
    rw [hrest, List.length_drop]
    omega

theorem spends_word (view : BufferView) {w : Nat} (line : Nat) (hpos : 0 < w) (f : Nat → α) :
    Spends view.rest.length (readOr view w line >>= fun r => pure (f r.1, r.2)) :=
  spends_bind (spends_readOr view line hpos) fun _ _ _ _ _ => spends_pure _ (Nat.le_refl _)

theorem spends_getInteger (view : BufferView) (cookie : Nat) :
    Spends view.rest.length (getInteger view cookie) := by
  unfold getInteger
  refine spends_ite (spends_pure _ (Nat.le_refl _)) ?_
  refine spends_ite (spends_word view 268 (by decide) fun n : Nat => (n : Int)) ?_
  refine spends_ite (spends_word view 274 (by decide) fun n : Nat => (n : Int)) ?_
  refine spends_ite (spends_word view 280 (by decide) fun n : Nat => i32 n) ?_
  refine spends_ite (spends_word view 286 (by decide) fun n : Nat => i64 n) ?_
  exact spends_invalidStream 290

/-- A string of a length that is negative or too long is the end. -/
theorem spends_getString (view : BufferView) (n : Nat) :
    Spends view.rest.length (getString view n) := by
  unfold getString
  refine spends_emit (c := .stringHeader n view.size) nofun ?_
  refine spends_bind (n := view.rest.length) ?_ fun _ _ _ _ _ => spends_pure _ (Nat.le_refl _)
  unfold getBuffer
  split
  · exact spends_invalidStream 311
  · refine spends_emit (c := .pushlstring (i32 n) view.size) nofun ?_
    split
    · exact spends_fail fun h => by cases h
    · apply spends_pure
      rw [BufferView.rest_skip, List.length_drop]
      omega

theorem typeBytes_emit {m : Decode α} (depth : Nat) :
    typeBytes ((emit .typeByte >>= fun _ => m) depth).calls = typeBytes (m depth).calls + 1 := by
  show typeBytes ((depth, .typeByte) :: (m depth).calls) = _
  exact List.countP_cons_of_pos (decide_eq_true rfl)

/-- A type byte takes itself. -/
theorem spends_typeByte (view : BufferView) (line : Nat)
    {f : Nat × BufferView → Decode (α × BufferView)}
    (hf : ∀ b view', view'.rest.length + 1 = view.rest.length →
      Spends view'.rest.length (f (b, view'))) :
    Spends view.rest.length (emit .typeByte >>= fun _ => readOr view 1 line >>= f) := by
  intro depth
  rw [typeBytes_emit]
  rcases readOr_cases view line Nat.one_pos with ⟨-, hread⟩ | ⟨hle, view', hread, hrest⟩
  · rw [hread]
    have hspends : Spends 0 (invalidStream view line : Decode (α × BufferView)) :=
      spends_invalidStream line
    obtain ⟨-, hfuel, hret⟩ := hspends depth
    refine ⟨Nat.succ_le_succ (Nat.zero_le _), hfuel, fun a view' h => ?_⟩
    exact absurd (hret a view' h) (by cases h)
  · have hlen : view'.rest.length + 1 = view.rest.length := by
      rw [hrest, List.length_drop]
      omega
    obtain ⟨hcalls, hfuel, hret⟩ := hf (ofBytes (view.rest.take 1)) view' hlen depth
    rw [hread, pure_bind]
    refine ⟨by omega, hfuel, fun a view'' h => ?_⟩
    have := hret a view'' h
    omega

theorem spends_tableLength (view : BufferView) (cookie : Nat) :
    Spends view.rest.length (tableLength view cookie) := by
  unfold tableLength
  split
  · apply spends_typeByte view 323
    intro b view' _
    dsimp only
    split
    · exact spends_invalidStream 326
    · exact spends_bind (spends_getInteger view' _) fun _ _ _ _ _ => spends_pure _ (Nat.le_refl _)
  · exact spends_pure _ (Nat.le_refl _)

/-! ## Tables -/

section Table

variable {one : BufferView → Decode (Tree × BufferView)} {m : Nat}
  (hone : ∀ view, view.rest.length < m → Spends view.rest.length (one view)) (hless : Consumes one)

include hone

/-- As many elements as the header declares, or as there are bytes. -/
theorem spends_unpackElements (hview : view.rest.length < m) (entries : List (Tree × Tree))
    (i count : Nat) : Spends view.rest.length (unpackElements one view entries i count) := by
  induction count generalizing view entries i with
  | zero => exact spends_pure _ (Nat.le_refl _)
  | succ count ih =>
    refine spends_bind (hone view hview) fun _ v view' _ hle => ?_
    exact ih (Nat.lt_of_le_of_lt hle hview) _ (i + 1)

include hless

/-- Each round takes two bytes or more, or is the last. -/
theorem spends_unpackPairs (hview : view.rest.length < m) (fuel : Nat)
    (hfuel : view.rest.length < fuel) (entries : List (Tree × Tree)) :
    Spends view.rest.length (unpackPairs one fuel view entries) := by
  induction fuel generalizing view entries with
  | zero => omega
  | succ fuel ih =>
    refine spends_bind (hone view hview) fun _ k view' hk hle => ?_
    have hkey : view'.rest.length < view.rest.length := (hless view _ _ hk).2
    dsimp only
    split
    · exact spends_pure _ (Nat.le_refl _)
    · refine spends_bind (hone view' (by omega)) fun _ v view'' hv hle' => ?_
      dsimp only
      split
      · exact spends_fail fun h => by cases h
      · exact ih (by omega) (by omega) _

theorem spends_unpackTable (hview : view.rest.length < m) (fuel : Nat)
    (hfuel : view.rest.length < fuel) (cookie : Nat) :
    Spends view.rest.length (unpackTable one fuel view cookie) := by
  apply spends_frame
  refine spends_emit (c := .unpackTable) nofun ?_
  refine spends_bind (spends_tableLength view cookie) fun _ size view' _ hle => ?_
  refine spends_emit (c := .tableHeader size.1 view'.size) nofun
    (spends_emit (c := .createtable size.1 size.2 view'.size) nofun ?_)
  refine spends_bind (spends_unpackElements hone (by omega) [] 1 _) fun _ entries view'' _ hle' => ?_
  exact spends_bind (spends_unpackPairs hone hless (by omega) fuel (by omega) entries)
    fun _ _ _ _ _ => spends_pure _ (Nat.le_refl _)

theorem spends_pushValue (hview : view.rest.length < m) (fuel : Nat)
    (hfuel : view.rest.length < fuel) (type : UInt8) (cookie : Nat) :
    Spends view.rest.length (pushValue one fuel view type cookie) := by
  have hlong : ∀ w line, 0 < w → Spends view.rest.length
      (readOr view w line >>= fun r => getString r.2 r.1) := fun w line hpos =>
    spends_bind (spends_readOr view line hpos) fun _ n view' _ _ => spends_getString view' n
  unfold pushValue
  refine spends_ite (spends_pure _ (Nat.le_refl _)) ?_
  refine spends_ite (spends_pure _ (Nat.le_refl _)) ?_
  refine spends_ite (spends_ite ?_ ?_) ?_
  · exact spends_bind (spends_word view 298 (by decide) UInt64.ofNat)
      fun _ _ _ _ _ => spends_pure _ (Nat.le_refl _)
  · exact spends_bind (spends_getInteger view cookie)
      fun _ _ _ _ _ => spends_pure _ (Nat.le_refl _)
  refine spends_ite ?_ ?_
  · exact spends_bind (spends_word view 305 (by decide) UInt64.ofNat)
      fun _ _ _ _ _ => spends_pure _ (Nat.le_refl _)
  refine spends_ite (spends_getString view cookie) ?_
  refine spends_ite (spends_ite ?_ (spends_ite ?_ ?_)) ?_
  · exact hlong 2 375 (by decide)
  · exact spends_invalidStream 380
  · exact hlong 4 384 (by decide)
  refine spends_ite ?_ (spends_invalidStream 394)
  exact spends_unpackTable hone hless hview fuel hfuel cookie

end Table

/-! ## The result -/

/-- A value. -/
theorem spends_unpackOne (fuel : Nat) (view : BufferView) (h : view.rest.length < fuel) :
    Spends view.rest.length (unpackOne fuel view) := by
  induction fuel generalizing view with
  | zero => omega
  | succ fuel ih =>
    apply spends_typeByte view 403
    intro b view' hlen
    exact spends_pushValue ih (consumes_unpackOne fuel) (by omega) fuel (by omega) _ _

theorem work_unpackValues (fuel : Nat) (view : BufferView) (h : view.rest.length < fuel) (depth : Nat) :
    (unpackValues fuel view depth).result ≠ .error .outOfFuel ∧
      typeBytes (unpackValues fuel view depth).calls ≤ view.rest.length + 1 := by
  induction fuel generalizing view with
  | zero => omega
  | succ fuel ih =>
    by_cases hnil : view.rest = []
    · rw [unpackValues_nil hnil]
      exact ⟨nofun, Nat.succ_le_succ (Nat.zero_le _)⟩
    · rw [unpackValues_cons hnil, bind_apply]
      obtain ⟨hcalls, hfuel, hret⟩ := spends_unpackOne (fuel + 1) view h depth
      have hless := fun r => consumes_unpackOne (fuel + 1) view depth r
      unfold Returns at hret hless
      generalize unpackOne (fuel + 1) view depth = o at hcalls hfuel hret hless
      obtain ⟨calls, e | ⟨a, view'⟩⟩ := o
      · exact ⟨fun h => hfuel (congrArg Except.error (Except.error.inj h)), hcalls⟩
      · have hspent := hret a view' rfl
        have hlt : view'.rest.length < view.rest.length := (hless (a, view') rfl).2
        obtain ⟨hfuel', hcalls'⟩ := ih view' (by omega)
        dsimp only [Outcome.bind] at hspent ⊢
        rw [bind_apply, typeBytes_append]
        cases hrest : unpackValues fuel view' depth with
        | mk calls' result =>
          rw [hrest] at hfuel' hcalls'
          cases result with
          | error e =>
            refine ⟨fun h => hfuel' (congrArg Except.error (Except.error.inj h)), ?_⟩
            show typeBytes calls + typeBytes calls' ≤ _
            dsimp only at hcalls'
            omega
          | ok vs =>
            refine ⟨nofun, ?_⟩
            show typeBytes calls + typeBytes (calls' ++ []) ≤ _
            rw [List.append_nil]
            dsimp only at hcalls'
            omega

/-- **Linear work.**  `unpack` ends, by returning or with an error of its own, and reads a type byte
at most once for each byte and once more. -/
theorem linear_work (data : List UInt8) (depth : Nat) :
    (unpack data depth).result ≠ .error .outOfFuel ∧
      typeBytes (unpack data depth).calls ≤ data.length + 1 := by
  unfold unpack
  split
  · exact ⟨nofun, Nat.zero_le _⟩
  · have h := work_unpackValues (data.length + 1) (.make data)
    rw [BufferView.rest_make] at h
    exact h (Nat.lt_succ_self _) depth

/-- Of a table of `2 ^ 31 - 1` elements that is not there, what follows the header is read. -/
example : typeBytes (unpack [254, 34, 255, 255, 255, 127, 9] 0).calls = 4 := by decide

end HappyServer.Serialize
