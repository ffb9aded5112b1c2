import HappyServer.Serialize.Decoding

/-!
# Decoding meets the headers of the byte string

`header` is what the log says of headers.  A value is read in a context of open tables
(`frames`): what its decoding logs, followed by what the scan finds after it, is what the
scan finds from its first byte (`follow_unpackOne`).  The induction is on the fuel; the loops
over the elements and the pairs of a table are its two inner inductions.
-/

namespace HappyServer.Serialize

open LittleEndian Traced Word

variable {α : Type}

def header : Nat × Call → Option (Nat × Header)
  | (depth, .unpackTable) => some (depth, .enter)
  | (depth, .stringHeader n left) => some (depth, .string n left)
  | (depth, .tableHeader n left) => some (depth, .table n left)
  | _ => none

/-! ## Strings -/

theorem toNat_i32 {n : Nat} (hn : n < 2 ^ 32) (h : 0 ≤ i32 (n : Int)) : (i32 (n : Int)).toNat = n := by
  unfold i32 at *
  omega

theorem follow_getString (view : BufferView) {n : Nat} (hn : n < 2 ^ 32) (depth : Nat)
    (k : Tree × BufferView → List (Nat × Header)) :
    follow header (getString view n depth) k = (depth, .string n view.rest.length) ::
      if accepted n view.rest.length then
        k (.scalar (.string (view.bytes n)), view.skip n)
      else [] := by
  have hlog : header (depth, .stringHeader n view.size) = some (depth, .string n view.size) := rfl
  have hpush : header (depth, .pushlstring (i32 n) view.size) = none := rfl
  unfold getString getBuffer accepted
  rw [BufferView.length_rest, follow_bind, follow_emit, hlog, Option.toList_some,
    List.singleton_append]
  apply congrArg
  rw [follow_bind]
  by_cases hcheck : i32 view.size < i32 n
  · simp only [hcheck, not_true_eq_false, false_and, if_true, if_false, invalidStream, follow_fail]
  · by_cases hneg : i32 (n : Int) < 0
    · have hnot : ¬0 ≤ i32 (n : Int) := by omega
      simp only [hcheck, hneg, hnot, and_false, if_true, if_false, follow_bind, follow_emit, hpush,
        Option.toList_none, List.nil_append, follow_fail]
    · have hpos : 0 ≤ i32 (n : Int) := by omega
      simp only [hcheck, hneg, hpos, toNat_i32 hn hpos, not_false_eq_true, and_true, if_true,
        if_false, follow_bind, follow_emit, hpush, Option.toList_none, List.nil_append, follow_pure]

/-! ## One reading -/

section Agrees

variable (single : Bool)

/-- What the scan finds after a value. -/
def after (frames : List Frame) (r : Tree × BufferView) : List (Nat × Header) :=
  next single (scanAll single) frames (r.1.isScalar .nil) r.1.isNaN r.2.rest

/-- From fewer than `n` bytes, `one` meets the headers that the scan finds. -/
def Agrees (n : Nat) (one : BufferView → Decode (Tree × BufferView)) : Prop :=
  ∀ view frames, view.rest.length < n →
    follow header (one view frames.length) (after single frames) = scanAll single frames view.rest

theorem next_cons {frames frames' : List Frame} {isNil isNaN : Bool} (f : Frame) (rest : List UInt8)
    (h : completed frames isNil isNaN = some (f :: frames')) :
    next single (scanAll single) frames isNil isNaN rest = scanAll single (f :: frames') rest := by
  unfold next
  rw [h]
  exact if_neg (by simp)

def waiting (n : Nat) : Frame := if n = 0 then .key else .elements n

theorem opened_eq (narr : Int) : opened narr = waiting narr.toNat := rfl

theorem completed_waiting (n : Nat) (frames : List Frame) (isNil isNaN : Bool) :
    completed (waiting (n + 1) :: frames) isNil isNaN = some (waiting n :: frames) := by
  unfold waiting
  rw [if_neg (Nat.succ_ne_zero n), completed]
  by_cases h : n = 0
  · rw [if_pos h, if_pos (by omega)]
  · rw [if_neg h, if_neg (by omega), Nat.add_sub_cancel]

variable {single} {one : BufferView → Decode (Tree × BufferView)} {m : Nat}
  (hone : Agrees single m one) (hless : Consumes one)

include hone hless

theorem follow_unpackElements (frames : List Frame) (view : BufferView) (hview : view.rest.length < m)
    (entries : List (Tree × Tree)) (i n : Nat) :
    follow header (unpackElements one view entries i n (frames.length + 1))
      (fun r => scanAll single (.key :: frames) r.2.rest) =
      scanAll single (waiting n :: frames) view.rest := by
  induction n generalizing view entries i with
  | zero => exact follow_pure ..
  | succ n ih =>
    have hstep := hone view (waiting (n + 1) :: frames) hview
    rw [← hstep, unpackElements, follow_bind]
    apply follow_congr
    intro r hr
    have hlt := (hless view _ r hr).2
    rw [after, next_cons single (waiting n) r.2.rest (completed_waiting ..)]
    exact ih r.2 (by omega) _ (i + 1)

theorem follow_unpackPairs (frames : List Frame) (fuel : Nat) (view : BufferView)
    (hview : view.rest.length < m) (hfuel : view.rest.length < fuel) (entries : List (Tree × Tree)) :
    follow header (unpackPairs one fuel view entries (frames.length + 1))
      (fun r => next single (scanAll single) frames false false r.2.rest) =
      scanAll single (.key :: frames) view.rest := by
  induction fuel generalizing view entries with
  | zero => omega
  | succ fuel ih =>
    have hkey := hone view (.key :: frames) hview
    rw [← hkey, unpackPairs, follow_bind]
    apply follow_congr
    rintro ⟨k, view'⟩ hk
    have hk : view'.rest.length < view.rest.length := (hless view _ _ hk).2
    dsimp only [after]
    by_cases hnil : k.isScalar .nil = true
    · -- the table is complete
      simp only [hnil, if_true]
      rfl
    · have hvalue := hone view' (.value k.isNaN :: frames) (by omega)
      have hnext : completed (.key :: frames) (k.isScalar .nil) k.isNaN =
          some (.value k.isNaN :: frames) := if_neg hnil
      rw [next_cons single _ _ hnext, ← hvalue]
      simp only [hnil, Bool.false_eq_true, if_false, follow_bind]
      apply follow_congr
      rintro ⟨v, view''⟩ hv
      have hv : view''.rest.length < view'.rest.length := (hless view' _ _ hv).2
      dsimp only [after]
      by_cases hnan : k.isNaN = true
      · simp only [hnan, if_true]
        rfl
      · have hnext : completed (.value k.isNaN :: frames) (v.isScalar .nil) v.isNaN =
            some (.key :: frames) := if_neg hnan
        rw [next_cons single _ _ hnext]
        simp only [hnan, Bool.false_eq_true, if_false]
        exact ih view'' (by omega) (by omega) _

theorem follow_entries (frames : List Frame) (fuel : Nat) (view : BufferView)
    (hview : view.rest.length < m) (hfuel : view.rest.length < fuel) (n : Nat) :
    follow header ((unpackElements one view [] 1 n >>= fun r => unpackPairs one fuel r.2 r.1 >>=
      fun r => pure (Tree.table r.1, r.2)) (frames.length + 1)) (after single frames) =
      scanAll single (waiting n :: frames) view.rest := by
  rw [← follow_unpackElements hone hless frames view hview [] 1 n, follow_bind]
  apply follow_congr
  rintro ⟨entries, view'⟩ hr
  have hle : view'.rest.length ≤ view.rest.length :=
    ((leaves_unpackElements blocks_true hless.leaves view shortEntries_nil 1 n _).2 _ hr).2
  rw [← follow_unpackPairs hone hless frames fuel view' (by omega) (by omega) entries, follow_bind]
  rfl

theorem follow_unpackTable (frames : List Frame) (fuel : Nat) (view : BufferView)
    (hview : view.rest.length < m) (hfuel : view.rest.length < fuel) {cookie : Nat}
    (hc : cookie < 32) :
    follow header (unpackTable one fuel view cookie frames.length) (after single frames) =
      scanToken single (scanAll single) frames
        (match declaredLength cookie view.rest with
          | none => .invalidTable
          | some (declared, rest) => .table declared rest) := by
  unfold unpackTable
  rw [follow_frame, follow_bind, follow_emit]
  obtain ⟨log, hlog, hcases⟩ := tableLength_cases view hc
  have hsilent : ∀ (depth : Nat) (k : Unit → List (Nat × Header)),
      follow header (log depth) k = k () := by
    intro depth k
    rcases hlog with rfl | rfl <;> rfl
  rcases hcases with ⟨hnone, e, h⟩ | ⟨declared, view', hsome, h⟩
  · rw [h, hnone, bind_assoc, follow_bind, hsilent]
    rfl
  · have hlen := length_declaredLength hsome
    have hentries := follow_entries hone hless frames fuel view' (by omega) (by omega)
      (i32 declared).toNat
    rw [h, hsome, scanToken, opened_eq, ← hentries, bind_assoc, follow_bind, hsilent, pure_bind]
    simp only [createTable, bind_assoc, follow_bind, follow_emit, header, Option.toList_some,
      Option.toList_none, List.singleton_append, List.nil_append, BufferView.length_rest]

omit hone hless in
/-- A value of a fixed number of bytes. -/
theorem follow_word {v : Decode (Tree × BufferView)} {view : BufferView} {w : Nat} {f : Nat → Tree}
    (h : ReadsWord v view w f) (hnil : ∀ n, (f n).isScalar .nil = false) (frames : List Frame)
    (depth : Nat) :
    follow header (v depth) (after single frames) =
      scanToken single (scanAll single) frames
        (word w view.rest fun n rest => .scalar false (f n).isNaN rest) := by
  unfold word
  rcases h with ⟨hlt, e, h⟩ | ⟨hle, view', h, hrest⟩
  · rw [h, if_pos hlt, follow_fail]
    rfl
  · rw [h, if_neg (by omega), follow_pure, after, hnil, hrest]
    rfl

omit hone hless in
theorem follow_string (view : BufferView) {n : Nat} (hn : n < 2 ^ 32) (frames : List Frame) :
    follow header (getString view n frames.length) (after single frames) =
      scanToken single (scanAll single) frames (.string n view.rest) := by
  rw [follow_getString view hn, scanToken]
  by_cases h : accepted n view.rest.length
  · rw [if_pos h, if_pos h, after, BufferView.rest_skip]
    rfl
  · rw [if_neg h, if_neg h]

omit hone hless in
/-- A string whose length is a word of its own. -/
theorem follow_longString (view : BufferView) {w : Nat} (line : Nat) (hpos : 0 < w) (hw : w ≤ 4)
    (frames : List Frame) :
    follow header ((readOr view w line >>= fun r => getString r.2 r.1) frames.length)
      (after single frames) =
      scanToken single (scanAll single) frames (word w view.rest .string) := by
  unfold word
  rcases readOr_cases view line hpos with ⟨hlt, h⟩ | ⟨hle, view', h, hrest⟩
  · rw [h, if_pos hlt]
    rfl
  · have hn : ofBytes (view.rest.take w) < 2 ^ 32 := by
      have hlt := ofBytes_lt (view.rest.take w)
      rw [List.length_take, Nat.min_eq_left hle] at hlt
      have : 256 ^ w ≤ 256 ^ 4 := Nat.pow_le_pow_right (by decide) hw
      omega
    rw [h, pure_bind, if_neg (by omega), ← hrest]
    exact follow_string view' hn frames

theorem follow_pushValue (frames : List Frame) (fuel : Nat) (view : BufferView)
    (hview : view.rest.length < m) (hfuel : view.rest.length < fuel) (type : UInt8) {cookie : Nat}
    (hc : cookie < 32) :
    follow header (pushValue one fuel view type cookie frames.length) (after single frames) =
      scanToken single (scanAll single) frames (token type cookie view.rest) := by
  unfold pushValue token
  by_cases hnil : type = TYPE_NIL
  · rw [if_pos hnil, if_pos hnil]
    rfl
  rw [if_neg hnil, if_neg hnil]
  by_cases hboolean : type = TYPE_BOOLEAN
  · rw [if_pos hboolean, if_pos hboolean]
    rfl
  rw [if_neg hboolean, if_neg hboolean]
  by_cases hnumber : type = TYPE_NUMBER
  · rw [if_pos hnumber, if_pos hnumber]
    split
    · have := readsWord_bind (fun bits => Tree.scalar (.number bits))
        (@readsWord_map _ view 8 298 (by decide) UInt64.ofNat)
      exact follow_word this (fun _ => rfl) frames _
    · cases hwidth : integerWidth cookie with
      | none =>
        rw [getInteger_none hwidth]
        rfl
      | some w =>
        have := readsWord_bind (fun x => Tree.scalar (.integer (Int64.ofInt x)))
          (@getInteger_some view _ _ hwidth)
        exact follow_word this (fun _ => rfl) frames _
  rw [if_neg hnumber, if_neg hnumber]
  by_cases huserdata : type = TYPE_USERDATA
  · rw [if_pos huserdata, if_pos huserdata]
    have := readsWord_bind (fun p => Tree.scalar (.lightuserdata p))
      (@readsWord_map _ view 8 305 (by decide) UInt64.ofNat)
    exact follow_word this (fun _ => rfl) frames _
  rw [if_neg huserdata, if_neg huserdata]
  by_cases hshort : type = TYPE_SHORT_STRING
  · rw [if_pos hshort, if_pos hshort]
    exact follow_string view (by omega) frames
  rw [if_neg hshort, if_neg hshort]
  by_cases hlong : type = TYPE_LONG_STRING
  · rw [if_pos hlong, if_pos hlong]
    split
    · exact follow_longString view 375 (by decide) (by decide) frames
    next h2 =>
      by_cases h4 : cookie = 4
      · rw [if_neg (not_not.mpr h4), if_pos h4]
        exact follow_longString view 384 (by decide) (by decide) frames
      · rw [if_pos h4, if_neg h4]
        rfl
  rw [if_neg hlong, if_neg hlong]
  by_cases htable : type = TYPE_TABLE
  · rw [if_pos htable, if_pos htable]
    exact follow_unpackTable hone hless frames fuel view hview hfuel hc
  · rw [if_neg htable, if_neg htable]
    rfl

end Agrees

theorem agrees_unpackOne (single : Bool) (fuel : Nat) : Agrees single fuel (unpackOne fuel) := by
  induction fuel with
  | zero => exact fun view frames h => absurd h (Nat.not_lt_zero _)
  | succ fuel ih =>
    intro view frames hview
    have htype : header (frames.length, .typeByte) = none := rfl
    rw [unpackOne, follow_bind, follow_emit, htype, Option.toList_none, List.nil_append]
    rcases readOr_cases view 403 Nat.one_pos with ⟨hlt, h⟩ | ⟨hle, view', h, hrest⟩
    · rw [h, List.eq_nil_of_length_eq_zero (show view.rest.length = 0 by omega)]
      rfl
    · obtain ⟨b, bytes, hcons⟩ := List.exists_cons_of_length_pos hle
      have hrest : view'.rest = bytes := by
        rw [hrest, hcons]
        rfl
      have hbyte : UInt8.ofNat (ofBytes (List.take 1 (b :: view'.rest))) = b := ofNat_ofBytes b
      rw [hcons, List.length_cons, ← hrest] at hview
      rw [h, pure_bind, hcons, scanAll_cons, ← hrest]
      dsimp only
      rw [hbyte]
      exact follow_pushValue ih (consumes_unpackOne fuel) frames fuel view' (by omega) (by omega)
        (b &&& 7) (cookie_lt b)

/-! ## Whole byte strings -/

theorem headers_unpackValues (fuel : Nat) (view : BufferView) (h : view.rest.length < fuel) :
    follow header (unpackValues fuel view 0) (fun _ => []) = scanAll false [] view.rest := by
  induction fuel generalizing view with
  | zero => omega
  | succ fuel ih =>
    by_cases hnil : view.rest = []
    · rw [unpackValues_nil hnil, hnil]
      rfl
    · have hone := agrees_unpackOne false (fuel + 1) view [] h
      rw [unpackValues_cons hnil, ← hone, follow_bind]
      apply follow_congr
      rintro ⟨v, view'⟩ hr
      have hlt : view'.rest.length < view.rest.length :=
        (consumes_unpackOne (fuel + 1) view 0 _ hr).2
      rw [follow_bind]
      exact ih view' (by omega)

theorem headers_unpack (data : List UInt8) :
    (unpack data 0).calls.filterMap header = headers false data := by
  rw [← follow_nil, unpack]
  split
  next h =>
    rw [List.eq_nil_of_length_eq_zero h]
    rfl
  · rw [headers_unpackValues _ _ (by rw [BufferView.rest_make]; omega), BufferView.rest_make]
    rfl

theorem headers_luaUnpackOne (data : List UInt8) :
    (luaUnpackOne data 0).calls.filterMap header = headers true data := by
  rw [← follow_nil]
  by_cases hnil : data = []
  · rw [hnil]
    rfl
  · have hone := agrees_unpackOne true (data.length + 1) (.make data) []
      (by rw [BufferView.rest_make]; omega)
    rw [BufferView.rest_make] at hone
    rw [luaUnpackOne_cons hnil, follow_bind]
    exact hone

end HappyServer.Serialize
