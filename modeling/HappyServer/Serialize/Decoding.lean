import HappyServer.Serialize.Scan

/-!
# What decoding returns

* `ReadsWord`, `tableLength_cases`: what one read gives, in the terms of the scan.
* `Leaves Q P n m`: `m` logs as `Q` says, returns as `P` says, and leaves at most `n` bytes.
* Decoding takes a byte or more for a value, and gives no string of `2 ^ 31` bytes or more
  (`Short`); its log is as `Q` says when the logs of its parts are (`Blocks`).
-/

namespace HappyServer.Serialize

open LittleEndian Traced Word

variable {α : Type}

/-! ## What one read does -/

theorem readOr_cases (view : BufferView) {n : Nat} (line : Nat) (hpos : 0 < n) :
    (view.rest.length < n ∧ readOr view n line = invalidStream view line) ∨
      (n ≤ view.rest.length ∧ ∃ view', readOr view n line =
        pure (ofBytes (view.rest.take n), view') ∧ view'.rest = view.rest.drop n) := by
  unfold readOr
  by_cases h : view.rest.length < n
  · rw [view.read_none h]
    exact Or.inl ⟨h, rfl⟩
  · obtain ⟨view', hread, hrest⟩ := view.read_some hpos (show n ≤ view.rest.length by omega)
    rw [hread]
    exact Or.inr ⟨by omega, view', rfl, hrest⟩

/-- `m` reads a number of `w` bytes, or finds too few. -/
def ReadsWord (m : Decode (α × BufferView)) (view : BufferView) (w : Nat) (f : Nat → α) : Prop :=
  (view.rest.length < w ∧ ∃ e, m = fail e) ∨
    (w ≤ view.rest.length ∧ ∃ view', m = pure (f (ofBytes (view.rest.take w)), view') ∧
      view'.rest = view.rest.drop w)

theorem readsWord_map {view : BufferView} {w : Nat} (line : Nat) (hpos : 0 < w) (f : Nat → α) :
    ReadsWord (readOr view w line >>= fun r => pure (f r.1, r.2)) view w f := by
  rcases readOr_cases view line hpos with ⟨hlt, h⟩ | ⟨hle, view', h, hrest⟩
  · rw [h]
    exact Or.inl ⟨hlt, _, rfl⟩
  · rw [h]
    exact Or.inr ⟨hle, view', rfl, hrest⟩

theorem readsWord_bind {β : Type} {m : Decode (α × BufferView)} {view : BufferView} {w : Nat}
    {f : Nat → α} (g : α → β) (h : ReadsWord m view w f) :
    ReadsWord (m >>= fun r => pure (g r.1, r.2)) view w fun n => g (f n) := by
  rcases h with ⟨hlt, e, h⟩ | ⟨hle, view', h, hrest⟩
  · rw [h]
    exact Or.inl ⟨hlt, e, rfl⟩
  · rw [h]
    exact Or.inr ⟨hle, view', rfl, hrest⟩

theorem getInteger_none {view : BufferView} {cookie : Nat} (h : integerWidth cookie = none) :
    getInteger view cookie = invalidStream view 290 := by
  unfold integerWidth at h
  unfold getInteger
  split at h
  · simp at h
  split at h
  · simp at h
  split at h
  · simp at h
  split at h
  · simp at h
  split at h
  · simp at h
  next h0 h1 h2 h4 h6 => rw [if_neg h0, if_neg h1, if_neg h2, if_neg h4, if_neg h6]

theorem signed_byte : signed TYPE_NUMBER_BYTE = fun n : Nat => (n : Int) := by
  funext n
  simp [signed, TYPE_NUMBER_BYTE, TYPE_NUMBER_DWORD, TYPE_NUMBER_QWORD]

theorem signed_word : signed TYPE_NUMBER_WORD = fun n : Nat => (n : Int) := by
  funext n
  simp [signed, TYPE_NUMBER_WORD, TYPE_NUMBER_DWORD, TYPE_NUMBER_QWORD]

theorem signed_dword : signed TYPE_NUMBER_DWORD = fun n : Nat => i32 n := by
  funext n
  rw [signed, if_pos rfl]

theorem signed_qword : signed TYPE_NUMBER_QWORD = fun n : Nat => i64 n := by
  funext n
  simp [signed, TYPE_NUMBER_DWORD, TYPE_NUMBER_QWORD]

theorem getInteger_some {view : BufferView} {cookie w : Nat} (h : integerWidth cookie = some w) :
    ReadsWord (getInteger view cookie) view w (signed cookie) := by
  unfold integerWidth at h
  unfold getInteger
  split at h
  next hc =>
    rw [if_pos hc, ← Option.some.inj h, hc]
    refine Or.inr ⟨Nat.zero_le _, view, ?_, rfl⟩
    have hzero : signed TYPE_NUMBER_ZERO (ofBytes (view.rest.take 0)) = 0 := by
      rw [List.take_zero]
      decide
    rw [hzero]
  next h0 =>
  rw [if_neg h0]
  split at h
  next hc =>
    rw [if_pos hc, ← Option.some.inj h, hc, signed_byte]
    exact readsWord_map 268 (by decide) fun n : Nat => (n : Int)
  next h1 =>
  rw [if_neg h1]
  split at h
  next hc =>
    rw [if_pos hc, ← Option.some.inj h, hc, signed_word]
    exact readsWord_map 274 (by decide) fun n : Nat => (n : Int)
  next h2 =>
  rw [if_neg h2]
  split at h
  next hc =>
    rw [if_pos hc, ← Option.some.inj h, hc, signed_dword]
    exact readsWord_map 280 (by decide) fun n : Nat => i32 n
  next h4 =>
  rw [if_neg h4]
  split at h
  next hc =>
    rw [if_pos hc, ← Option.some.inj h, hc, signed_qword]
    exact readsWord_map 286 (by decide) fun n : Nat => i64 n
  · simp at h

theorem cookie_lt (b : UInt8) : (b >>> 3).toNat < 32 := by
  rw [UInt8.toNat_shiftRight, Nat.shiftRight_eq_div_pow]
  exact Nat.div_lt_of_lt_mul b.toNat_lt

theorem logged_cases {p : Prop} {q : Int → BufferView → Prop} {m : Decode α}
    {r : Int → BufferView → α} (log : Decode Unit)
    (h : (p ∧ ∃ e, m = fail e) ∨ ∃ declared view', q declared view' ∧ m = pure (r declared view')) :
    (p ∧ ∃ e, (log >>= fun _ => m) = log >>= fun _ => fail e) ∨
      ∃ declared view', q declared view' ∧
        (log >>= fun _ => m) = log >>= fun _ => pure (r declared view') := by
  rcases h with ⟨hp, e, rfl⟩ | ⟨declared, view', hq, rfl⟩
  · exact Or.inl ⟨hp, e, rfl⟩
  · exact Or.inr ⟨declared, view', hq, rfl⟩

/-- The length that is read is the length that is declared; its type byte is logged if it has one. -/
theorem tableLength_cases (view : BufferView) {cookie : Nat} (hc : cookie < 32) :
    ∃ log : Decode Unit, (log = pure () ∨ log = emit .typeByte) ∧
      ((declaredLength cookie view.rest = none ∧
          ∃ e, tableLength view cookie = log >>= fun _ => fail e) ∨
        ∃ declared view', declaredLength cookie view.rest = some (declared, view'.rest) ∧
          tableLength view cookie = log >>= fun _ => pure ((declared, i32 declared), view')) := by
  unfold declaredLength
  by_cases hshort : cookie < 31
  · rw [if_pos hshort, tableLength_short view hshort]
    refine ⟨pure (), Or.inl rfl, Or.inr ⟨cookie, view, rfl, ?_⟩⟩
    rw [i32_of_range _ (by omega) (by omega)]
    rfl
  · rw [if_neg hshort, tableLength, if_pos (show (cookie : Int) = MAX_COOKIE - 1 by
      unfold MAX_COOKIE
      omega)]
    refine ⟨emit .typeByte, Or.inr rfl, logged_cases _ ?_⟩
    rcases readOr_cases view 323 Nat.one_pos with ⟨hlt, h⟩ | ⟨hle, view', h, hrest⟩
    · rw [h, List.eq_nil_of_length_eq_zero (show view.rest.length = 0 by omega)]
      exact Or.inl ⟨rfl, _, rfl⟩
    · obtain ⟨b, bytes, hcons⟩ := List.exists_cons_of_length_pos hle
      have hbyte : UInt8.ofNat (ofBytes (view.rest.take 1)) = b := by
        rw [hcons]
        exact ofNat_ofBytes b
      have hrest : view'.rest = bytes := by
        rw [hrest, hcons]
        rfl
      rw [h, pure_bind, hcons]
      dsimp only
      rw [← hcons, hbyte, ← hrest]
      cases hwidth : integerWidth (b >>> 3).toNat with
      | none =>
        left
        refine ⟨rfl, ?_⟩
        rw [getInteger_none hwidth]
        split <;> exact ⟨_, rfl⟩
      | some w =>
        have hreal : (b >>> 3).toNat ≠ TYPE_NUMBER_REAL := by
          intro hreal
          rw [hreal, show integerWidth TYPE_NUMBER_REAL = none from rfl] at hwidth
          exact absurd hwidth (by simp)
        dsimp only
        by_cases htype : b &&& 7 ≠ TYPE_NUMBER
        · rw [if_pos (Or.inl htype), if_pos (Or.inl htype)]
          exact Or.inl ⟨rfl, _, rfl⟩
        · rw [if_neg (not_or.mpr ⟨htype, hreal⟩)]
          rcases getInteger_some hwidth with ⟨hlt, e, hint⟩ | ⟨hle, view'', hint, hrest'⟩
          · rw [if_pos (Or.inr hlt), hint]
            exact Or.inl ⟨rfl, e, rfl⟩
          · rw [if_neg (not_or.mpr ⟨htype, by omega⟩), hint, ← hrest']
            exact Or.inr ⟨_, view'', rfl, rfl⟩

/-! ## Short strings -/

inductive Short : Tree → Prop
  | scalar {s : Scalar} : s.Fits → Short (.scalar s)
  | table {entries : List (Tree × Tree)} : (∀ e ∈ entries, Short e.1) →
      (∀ e ∈ entries, Short e.2) → Short (.table entries)

def ShortEntries (entries : List (Tree × Tree)) : Prop := ∀ e ∈ entries, Short e.1 ∧ Short e.2

theorem shortEntries_nil : ShortEntries [] := fun _ he => absurd he List.not_mem_nil

theorem short_rawset {entries : List (Tree × Tree)} {k v : Tree} (h : ShortEntries entries)
    (hk : Short k) (hv : Short v) : ShortEntries (rawset entries k v) := by
  intro e he
  cases k with
  | table es =>
    rw [rawset] at he
    split at he
    · exact h e he
    · rcases List.mem_append.mp he with he | he
      · exact h e he
      · exact List.mem_singleton.mp he ▸ ⟨hk, hv⟩
  | scalar s =>
    have hnormal : s.normalKey.Fits := by
      cases hk with
      | scalar hs =>
        cases s with
        | number bits =>
          rw [Scalar.normalKey]
          split <;> trivial
        | _ => exact hs
    rw [rawset] at he
    split at he
    · exact h e (List.mem_of_mem_filter he)
    · rcases List.mem_append.mp he with he | he
      · exact h e (List.mem_of_mem_filter he)
      · exact List.mem_singleton.mp he ▸ ⟨.scalar hnormal, hv⟩

/-! ## What is logged, returned and left -/

variable {Q : List (Nat × Call) → Option Error → Prop}

/-- `Q` holds of the parts of a decoding. -/
structure Blocks (Q : List (Nat × Call) → Option Error → Prop) : Prop extends Law Q where
  fail : ∀ e, Q [] (some e)
  typeByte : ∀ depth, Q [(depth, .typeByte)] none
  unpackTable : ∀ depth, Q [(depth, .unpackTable)] none
  string : ∀ view n depth, n < 2 ^ 32 →
    Q (getString view n depth).calls (getString view n depth).error?
  table : ∀ view declared depth, Q (createTable declared (i32 declared) view depth).calls none

theorem blocks_true : Blocks fun _ _ => True where
  nil := trivial
  append _ _ := trivial
  fail _ := trivial
  typeByte _ := trivial
  unpackTable _ := trivial
  string _ _ _ _ := trivial
  table _ _ _ := trivial

def Leaves (Q : List (Nat × Call) → Option Error → Prop) (P : α → Prop) (n : Nat)
    (m : Decode (α × BufferView)) : Prop :=
  Meets Q (fun r => P r.1 ∧ r.2.rest.length ≤ n) m

section Leaves

variable (hQ : Blocks Q) {β : Type} {P : α → Prop} {R : β → Prop} {n n' : Nat} {view : BufferView}

include hQ

theorem leaves_pure {a : α} (ha : P a) (h : view.rest.length ≤ n) :
    Leaves Q P n (pure (a, view)) := meets_pure hQ.toLaw ⟨ha, h⟩

theorem leaves_fail (e : Error) : Leaves Q P n (fail e : Decode (α × BufferView)) :=
  meets_fail (hQ.fail e)

theorem leaves_bind {m : Decode (α × BufferView)} {f : α × BufferView → Decode (β × BufferView)}
    (hm : Leaves Q P n m) (hf : ∀ a view, P a → view.rest.length ≤ n → Leaves Q R n' (f (a, view))) :
    Leaves Q R n' (m >>= f) :=
  meets_bind hQ.toLaw hm fun r hr => hf r.1 r.2 hr.1 hr.2

theorem leaves_map {m : Decode (α × BufferView)} (f : α → β) (hm : Leaves Q P n m)
    (hf : ∀ a, P a → R (f a)) : Leaves Q R n (m >>= fun r => pure (f r.1, r.2)) :=
  leaves_bind hQ hm fun a _ ha h => leaves_pure hQ (hf a ha) h

omit hQ in
theorem leaves_mono {m : Decode (α × BufferView)} (hm : Leaves Q P n m) (h : n ≤ n') :
    Leaves Q P n' m := by
  intro depth
  obtain ⟨hcalls, hr⟩ := hm depth
  exact ⟨hcalls, fun r h' => ⟨(hr r h').1, Nat.le_trans (hr r h').2 h⟩⟩

theorem leaves_word {m : Decode (α × BufferView)} {w : Nat} {f : Nat → α}
    (h : ReadsWord m view w f) (hf : ∀ n, n < 256 ^ w → P (f n)) :
    Leaves Q P (view.rest.length - w) m := by
  rcases h with ⟨-, e, h⟩ | ⟨hle, view', h, hrest⟩
  · rw [h]
    exact leaves_fail hQ e
  · have hlt := ofBytes_lt (view.rest.take w)
    rw [List.length_take, Nat.min_eq_left hle] at hlt
    rw [h]
    exact leaves_pure hQ (hf _ hlt) (by rw [hrest, List.length_drop])

theorem leaves_readOr (view : BufferView) {w : Nat} (line : Nat) (hpos : 0 < w) :
    Leaves Q (fun n => n < 256 ^ w) (view.rest.length - w) (readOr view w line) := by
  have := leaves_word hQ (P := fun n => n < 256 ^ w) (@readsWord_map _ view _ line hpos id)
    fun n hn => hn
  simpa using this

theorem leaves_getInteger (view : BufferView) (cookie : Nat) :
    Leaves Q (fun _ => True) view.rest.length (getInteger view cookie) := by
  cases h : integerWidth cookie with
  | none =>
    rw [getInteger_none h]
    exact leaves_fail hQ _
  | some w =>
    exact leaves_mono (leaves_word hQ (getInteger_some h) fun _ _ => trivial) (Nat.sub_le _ _)

theorem leaves_getString (view : BufferView) {n : Nat} (hn : n < 2 ^ 32) :
    Leaves Q Short view.rest.length (getString view n) := by
  intro depth
  refine ⟨hQ.string view n depth hn, fun r hr => ?_⟩
  obtain ⟨-, -, hr⟩ := returns_bind.mp hr
  obtain ⟨⟨bytes, view'⟩, hbuffer, hr⟩ := returns_bind.mp hr
  rw [← (returns_pure ..).mp hr]
  unfold getBuffer at hbuffer
  split at hbuffer
  · exact absurd hbuffer (returns_fail _ _ _)
  next hcheck =>
    obtain ⟨-, -, hbuffer⟩ := returns_bind.mp hbuffer
    split at hbuffer
    · exact absurd hbuffer (returns_fail _ _ _)
    next hneg =>
      obtain ⟨rfl, rfl⟩ := Prod.mk.inj ((returns_pure ..).mp hbuffer)
      have hrange := i32_range view.size
      have hle : (view.bytes (i32 n).toNat).length ≤ (i32 n).toNat := List.length_take_le _ _
      refine ⟨.scalar ?_, ?_⟩
      · unfold Scalar.Fits
        omega
      · rw [BufferView.rest_skip, List.length_drop]
        exact Nat.sub_le _ _

section Table

variable {one : BufferView → Decode (Tree × BufferView)}
  (hone : ∀ view, Leaves Q Short view.rest.length (one view))

include hone

theorem leaves_unpackElements (view : BufferView) {entries : List (Tree × Tree)}
    (h : ShortEntries entries) (i n : Nat) :
    Leaves Q ShortEntries view.rest.length (unpackElements one view entries i n) := by
  induction n generalizing view entries i with
  | zero => exact leaves_pure hQ h (Nat.le_refl _)
  | succ n ih =>
    have hkey : Short (.scalar (.integer (Int64.ofNat i))) := .scalar trivial
    apply leaves_bind hQ (hone view)
    intro v view' hv hle
    exact leaves_mono (ih view' (short_rawset h hkey hv) (i + 1)) hle

theorem leaves_unpackPairs (fuel : Nat) (view : BufferView) {entries : List (Tree × Tree)}
    (h : ShortEntries entries) :
    Leaves Q ShortEntries view.rest.length (unpackPairs one fuel view entries) := by
  induction fuel generalizing view entries with
  | zero => exact leaves_fail hQ _
  | succ fuel ih =>
    apply leaves_bind hQ (hone view)
    intro k view' hk hle
    dsimp only
    split
    · exact leaves_pure hQ h hle
    · apply leaves_bind hQ (hone view')
      intro v view'' hv hle'
      dsimp only
      split
      · exact leaves_fail hQ _
      · exact leaves_mono (ih view'' (short_rawset h hk hv)) (Nat.le_trans hle' hle)

theorem leaves_unpackTable (fuel : Nat) (view : BufferView) {cookie : Nat} (hc : cookie < 32) :
    Leaves Q Short view.rest.length (unpackTable one fuel view cookie) := by
  refine meets_frame (meets_bind hQ.toLaw (meets_emit hQ.unpackTable) fun _ _ => ?_)
  obtain ⟨log, hlog, hcases⟩ := tableLength_cases view hc
  have hmeets : Meets Q (fun _ => True) log := by
    rcases hlog with rfl | rfl
    · exact meets_pure hQ.toLaw trivial
    · exact meets_emit hQ.typeByte
  rcases hcases with ⟨-, e, h⟩ | ⟨declared, view', hlength, h⟩
  · rw [h, bind_assoc]
    exact meets_bind hQ.toLaw hmeets fun _ _ => leaves_fail hQ e
  · have hle := length_declaredLength hlength
    have htable : Meets Q (fun _ => True) (createTable declared (i32 declared) view') :=
      fun depth => ⟨hQ.table view' declared depth, fun _ _ => trivial⟩
    rw [h, bind_assoc]
    refine meets_bind hQ.toLaw hmeets fun _ _ => ?_
    rw [pure_bind]
    apply meets_bind hQ.toLaw htable
    intro _ _
    refine leaves_bind hQ (leaves_unpackElements hQ hone view' shortEntries_nil 1 _)
      fun entries view'' he h' => ?_
    refine leaves_mono (leaves_map hQ Tree.table (leaves_unpackPairs hQ hone fuel view'' he)
      fun entries he => ?_) (Nat.le_trans h' hle)
    exact .table (fun e hmem => (he e hmem).1) fun e hmem => (he e hmem).2

theorem leaves_pushValue (fuel : Nat) (view : BufferView) (type : UInt8) {cookie : Nat}
    (hc : cookie < 32) : Leaves Q Short view.rest.length (pushValue one fuel view type cookie) := by
  have hreal := readsWord_bind (fun bits => Tree.scalar (.number bits))
    (@readsWord_map _ view 8 298 (by decide) UInt64.ofNat)
  have hpointer := readsWord_bind (fun p => Tree.scalar (.lightuserdata p))
    (@readsWord_map _ view 8 305 (by decide) UInt64.ofNat)
  have hlong : ∀ w line, 0 < w → w ≤ 4 → Leaves Q Short view.rest.length
      (readOr view w line >>= fun r => getString r.2 r.1) := by
    intro w line hpos hw
    apply leaves_bind hQ (leaves_readOr hQ view line hpos)
    intro n view' hn h
    have : 256 ^ w ≤ 256 ^ 4 := Nat.pow_le_pow_right (by decide) hw
    exact leaves_mono (leaves_getString hQ view' (by omega)) (by omega)
  unfold pushValue
  by_cases hnil : type = TYPE_NIL
  · rw [if_pos hnil]
    exact leaves_pure hQ (.scalar trivial) (Nat.le_refl _)
  rw [if_neg hnil]
  by_cases hboolean : type = TYPE_BOOLEAN
  · rw [if_pos hboolean]
    exact leaves_pure hQ (.scalar trivial) (Nat.le_refl _)
  rw [if_neg hboolean]
  by_cases hnumber : type = TYPE_NUMBER
  · rw [if_pos hnumber]
    split
    · exact leaves_mono (leaves_word hQ hreal fun _ _ => .scalar trivial) (Nat.sub_le _ _)
    · exact leaves_map hQ (fun x => Tree.scalar (.integer (Int64.ofInt x)))
        (leaves_getInteger hQ view cookie) fun _ _ => .scalar trivial
  rw [if_neg hnumber]
  by_cases huserdata : type = TYPE_USERDATA
  · rw [if_pos huserdata]
    exact leaves_mono (leaves_word hQ hpointer fun _ _ => .scalar trivial) (Nat.sub_le _ _)
  rw [if_neg huserdata]
  by_cases hshort : type = TYPE_SHORT_STRING
  · rw [if_pos hshort]
    exact leaves_getString hQ view (by omega)
  rw [if_neg hshort]
  by_cases hlongString : type = TYPE_LONG_STRING
  · rw [if_pos hlongString]
    split
    · exact hlong 2 375 (by decide) (by decide)
    split
    · exact leaves_fail hQ _
    · exact hlong 4 384 (by decide) (by decide)
  rw [if_neg hlongString]
  by_cases htable : type = TYPE_TABLE
  · rw [if_pos htable]
    exact leaves_unpackTable hQ hone fuel view hc
  · rw [if_neg htable]
    exact leaves_fail hQ _

end Table

/-- A value takes a byte at least. -/
theorem meets_unpackOne (fuel : Nat) (view : BufferView) :
    Meets Q (fun r => Short r.1 ∧ r.2.rest.length < view.rest.length) (unpackOne fuel view) := by
  induction fuel generalizing view with
  | zero => exact meets_fail (hQ.fail _)
  | succ fuel ih =>
    have hone : ∀ view, Leaves Q Short view.rest.length (unpackOne fuel view) := by
      intro view depth
      obtain ⟨hcalls, hr⟩ := ih view depth
      exact ⟨hcalls, fun r h => ⟨(hr r h).1, Nat.le_of_lt (hr r h).2⟩⟩
    apply meets_bind hQ.toLaw (meets_emit hQ.typeByte)
    intro _ _
    rcases readOr_cases view 403 Nat.one_pos with ⟨-, h⟩ | ⟨hle, view', h, hrest⟩
    · rw [h]
      exact meets_fail (hQ.fail _)
    · rw [h, pure_bind]
      have hlen : view'.rest.length = view.rest.length - 1 := by rw [hrest, List.length_drop]
      intro depth
      obtain ⟨hcalls, hr⟩ := leaves_pushValue hQ hone fuel view' _ (cookie_lt _) depth
      refine ⟨hcalls, fun r h => ?_⟩
      obtain ⟨hshort, hle'⟩ := hr r h
      exact ⟨hshort, by omega⟩

theorem meets_unpackValues (fuel : Nat) (view : BufferView) :
    Meets Q (fun ws => ∀ w ∈ ws, Short w) (unpackValues fuel view) := by
  have hnil : ∀ w ∈ ([] : List Tree), Short w := fun w hw => absurd hw List.not_mem_nil
  induction fuel generalizing view with
  | zero => exact meets_fail (hQ.fail _)
  | succ fuel ih =>
    by_cases h : view.rest = []
    · rw [unpackValues_nil h]
      exact meets_bind hQ.toLaw (meets_emit hQ.typeByte) fun _ _ => meets_pure hQ.toLaw hnil
    · rw [unpackValues_cons h]
      apply meets_bind hQ.toLaw (meets_unpackOne hQ (fuel + 1) view)
      intro r hr
      refine meets_bind hQ.toLaw (ih r.2) fun vs hvs => meets_pure hQ.toLaw fun w hw => ?_
      rcases List.mem_cons.mp hw with rfl | hw
      · exact hr.1
      · exact hvs w hw

theorem meets_unpack (data : List UInt8) :
    Meets Q (fun ws => ∀ w ∈ ws, Short w) (unpack data) := by
  unfold unpack
  split
  · exact meets_pure hQ.toLaw fun w hw => absurd hw List.not_mem_nil
  · exact meets_unpackValues hQ _ _

theorem meets_luaUnpackOne (data : List UInt8) : Meets Q (fun _ => True) (luaUnpackOne data) := by
  by_cases h : data = []
  · rw [h, luaUnpackOne_nil]
    exact meets_bind hQ.toLaw (meets_emit hQ.typeByte) fun _ _ => meets_pure hQ.toLaw trivial
  · rw [luaUnpackOne_cons h]
    exact meets_bind hQ.toLaw (meets_unpackOne hQ _ _) fun _ _ => meets_pure hQ.toLaw trivial

end Leaves

/-- What is read is short, and takes a byte at least. -/
def Consumes (one : BufferView → Decode (Tree × BufferView)) : Prop :=
  ∀ view depth r, Returns (one view) depth r → Short r.1 ∧ r.2.rest.length < view.rest.length

theorem Consumes.leaves {one : BufferView → Decode (Tree × BufferView)} (h : Consumes one)
    (view : BufferView) : Leaves (fun _ _ => True) Short view.rest.length (one view) :=
  fun depth => ⟨trivial, fun r hr => ⟨(h view depth r hr).1, Nat.le_of_lt (h view depth r hr).2⟩⟩

theorem consumes_unpackOne (fuel : Nat) : Consumes (unpackOne fuel) :=
  fun view depth => (meets_unpackOne blocks_true fuel view depth).2

end HappyServer.Serialize
