import HappyServer.Serialize.Unpack

/-!
# The headers in a byte string

A reading of the bytes from left to right, with no recursion: a stack holds, for every
table that is open, what it waits for (`Frame`).  It gives the headers in the order they are met,
with the length each declares and the number of bytes after it, and it ends where decoding ends.

    (unpack data 0).calls.filterMap header = headers false data     (headers_unpack)
-/

namespace HappyServer.Serialize

open LittleEndian Traced Word

inductive Header where
  /-- of a table, before its length is read -/
  | enter
  | table (declared : Int) (left : Nat)
  | string (declared left : Nat)
deriving DecidableEq

inductive Frame where
  /-- one element or more -/
  | elements (n : Nat)
  | key
  | value (nan : Bool)
deriving DecidableEq

/-- What a type byte and the bytes after it begin; `rest` are the bytes after that. -/
inductive Token where
  | invalid
  | invalidTable
  | scalar (isNil isNaN : Bool) (rest : List UInt8)
  | string (declared : Nat) (rest : List UInt8)
  | table (declared : Int) (rest : List UInt8)

/-- The first `w` bytes, as a number. -/
def word (w : Nat) (bytes : List UInt8) (k : Nat → List UInt8 → Token) : Token :=
  if bytes.length < w then .invalid else k (ofBytes (bytes.take w)) (bytes.drop w)

def integerWidth (cookie : Nat) : Option Nat :=
  if cookie = TYPE_NUMBER_ZERO then some 0
  else if cookie = TYPE_NUMBER_BYTE then some 1
  else if cookie = TYPE_NUMBER_WORD then some 2
  else if cookie = TYPE_NUMBER_DWORD then some 4
  else if cookie = TYPE_NUMBER_QWORD then some 8
  else none

def signed (cookie n : Nat) : Int :=
  if cookie = TYPE_NUMBER_DWORD then i32 n else if cookie = TYPE_NUMBER_QWORD then i64 n else n

/-- The length of a table, and the bytes after its header. -/
def declaredLength (cookie : Nat) (bytes : List UInt8) : Option (Int × List UInt8) :=
  if cookie < 31 then some (cookie, bytes)
  else
    match bytes with
    | [] => none
    | b :: bytes =>
      let cookie := (b >>> 3).toNat
      match integerWidth cookie with
      | none => none
      | some w =>
        if b &&& 7 ≠ TYPE_NUMBER ∨ bytes.length < w then none
        else some (signed cookie (ofBytes (bytes.take w)), bytes.drop w)

def token (type : UInt8) (cookie : Nat) (bytes : List UInt8) : Token :=
  if type = TYPE_NIL then .scalar true false bytes
  else if type = TYPE_BOOLEAN then .scalar false false bytes
  else if type = TYPE_NUMBER then
    if cookie = TYPE_NUMBER_REAL then
      word 8 bytes fun n rest => .scalar false (isNaN (UInt64.ofNat n)) rest
    else
      match integerWidth cookie with
      | none => .invalid
      | some w => word w bytes fun _ rest => .scalar false false rest
  else if type = TYPE_USERDATA then word 8 bytes fun _ rest => .scalar false false rest
  else if type = TYPE_SHORT_STRING then .string cookie bytes
  else if type = TYPE_LONG_STRING then
    if cookie = 2 then word 2 bytes .string
    else if cookie = 4 then word 4 bytes .string
    else .invalid
  else if type = TYPE_TABLE then
    match declaredLength cookie bytes with
    | none => .invalidTable
    | some (declared, rest) => .table declared rest
  else .invalid

/-- What the open tables wait for after a value; none if its key is NaN. -/
def completed : List Frame → (isNil isNaN : Bool) → Option (List Frame)
  | [], _, _ => some []
  | .elements n :: frames, _, _ => some ((if n ≤ 1 then .key else .elements (n - 1)) :: frames)
  | .key :: frames, isNil, isNaN =>
    if isNil then completed frames false false else some (.value isNaN :: frames)
  | .value nan :: frames, _, _ => if nan then none else some (.key :: frames)

/-- What a table that was just opened waits for. -/
def opened (narr : Int) : Frame := if narr.toNat = 0 then .key else .elements narr.toNat

/-- The check of `get_buffer`, and a length that Lua takes. -/
def accepted (declared left : Nat) : Prop := ¬i32 left < i32 declared ∧ 0 ≤ i32 declared

instance (declared left : Nat) : Decidable (accepted declared left) :=
  inferInstanceAs (Decidable (_ ∧ _))

section Scan

variable (single : Bool)

/-- After a value; `single` is whether only one is read. -/
def next (scan : List Frame → List UInt8 → List (Nat × Header)) (frames : List Frame)
    (isNil isNaN : Bool) (rest : List UInt8) : List (Nat × Header) :=
  match completed frames isNil isNaN with
  | none => []
  | some frames => if single ∧ frames = [] then [] else scan frames rest

def scanToken (scan : List Frame → List UInt8 → List (Nat × Header)) (frames : List Frame) :
    Token → List (Nat × Header)
  | .invalid => []
  | .invalidTable => [(frames.length + 1, .enter)]
  | .scalar isNil isNaN rest => next single scan frames isNil isNaN rest
  | .string n rest =>
    (frames.length, .string n rest.length) ::
      if accepted n rest.length then next single scan frames false false (rest.drop n) else []
  | .table declared rest =>
    (frames.length + 1, .enter) :: (frames.length + 1, .table declared rest.length) ::
      scan (opened (i32 declared) :: frames) rest

def scan : Nat → List Frame → List UInt8 → List (Nat × Header)
  | 0, _, _ => []
  | _ + 1, _, [] => []
  | fuel + 1, frames, b :: bytes =>
    scanToken single (scan fuel) frames (token (b &&& 7) (b >>> 3).toNat bytes)

/-- The headers in a byte string, read value by value or as one value. -/
def headers (data : List UInt8) : List (Nat × Header) := scan single data.length [] data

/-! ## Enough fuel -/

theorem length_declaredLength {cookie : Nat} {bytes rest : List UInt8} {declared : Int}
    (h : declaredLength cookie bytes = some (declared, rest)) : rest.length ≤ bytes.length := by
  unfold declaredLength at h
  split at h
  · rw [Option.some.injEq, Prod.mk.injEq] at h
    rw [h.2]
  · split at h
    · simp at h
    next b bytes =>
      simp only at h
      split at h
      · simp at h
      · split at h
        · simp at h
        · rw [Option.some.injEq, Prod.mk.injEq] at h
          rw [← h.2, List.length_drop, List.length_cons]
          omega

/-- Two readings that agree on shorter byte strings agree after a token. -/
theorem scanToken_congr {scan scan' : List Frame → List UInt8 → List (Nat × Header)}
    {frames : List Frame} {bytes : List UInt8} {type : UInt8} {cookie : Nat}
    (h : ∀ frames rest, rest.length ≤ bytes.length → scan frames rest = scan' frames rest) :
    scanToken single scan frames (token type cookie bytes) =
      scanToken single scan' frames (token type cookie bytes) := by
  have hnext : ∀ isNil isNaN rest, rest.length ≤ bytes.length →
      next single scan frames isNil isNaN rest = next single scan' frames isNil isNaN rest := by
    intro isNil isNaN rest hrest
    unfold next
    split
    · rfl
    · rw [h _ rest hrest]
  have hscalar : ∀ isNil isNaN rest, rest.length ≤ bytes.length →
      scanToken single scan frames (.scalar isNil isNaN rest) =
        scanToken single scan' frames (.scalar isNil isNaN rest) := hnext
  have hstring : ∀ n rest, rest.length ≤ bytes.length →
      scanToken single scan frames (.string n rest) =
        scanToken single scan' frames (.string n rest) := by
    intro n rest hrest
    rw [scanToken, scanToken, hnext false false (rest.drop n) (by rw [List.length_drop]; omega)]
  have hword : ∀ w (k : Nat → List UInt8 → Token), (∀ n rest, rest.length ≤ bytes.length →
      scanToken single scan frames (k n rest) = scanToken single scan' frames (k n rest)) →
      scanToken single scan frames (word w bytes k) = scanToken single scan' frames (word w bytes k) := by
    intro w k hk
    unfold word
    split
    · rfl
    · exact hk _ _ (by rw [List.length_drop]; omega)
  unfold token
  split
  · exact hscalar _ _ _ (Nat.le_refl _)
  split
  · exact hscalar _ _ _ (Nat.le_refl _)
  split
  · split
    · exact hword _ _ fun n rest hrest => hscalar _ _ rest hrest
    · split
      · rfl
      · exact hword _ _ fun n rest hrest => hscalar _ _ rest hrest
  split
  · exact hword _ _ fun n rest hrest => hscalar _ _ rest hrest
  split
  · exact hstring _ _ (Nat.le_refl _)
  split
  · split
    · exact hword _ _ fun n rest hrest => hstring n rest hrest
    split
    · exact hword _ _ fun n rest hrest => hstring n rest hrest
    · rfl
  split
  · split
    · rfl
    next declared rest hlength =>
      rw [scanToken, scanToken, h _ rest (length_declaredLength hlength)]
  · rfl

theorem scan_fuel {fuel fuel' : Nat} {frames : List Frame} {bytes : List UInt8}
    (h : bytes.length ≤ fuel) (h' : bytes.length ≤ fuel') :
    scan single fuel frames bytes = scan single fuel' frames bytes := by
  induction fuel generalizing fuel' frames bytes with
  | zero =>
    have hnil := List.eq_nil_of_length_eq_zero (Nat.le_zero.mp h)
    subst hnil
    cases fuel' <;> rfl
  | succ fuel ih =>
    cases bytes with
    | nil => cases fuel' <;> rfl
    | cons b bytes =>
      rw [List.length_cons] at h h'
      obtain ⟨n, rfl⟩ : ∃ n, fuel' = n + 1 := ⟨fuel' - 1, by omega⟩
      rw [scan, scan]
      exact scanToken_congr single fun frames rest hrest => ih (by omega) (by omega)

/-- A reading with as much fuel as there are bytes. -/
def scanAll (frames : List Frame) (bytes : List UInt8) : List (Nat × Header) :=
  scan single bytes.length frames bytes

theorem scanAll_cons (frames : List Frame) (b : UInt8) (bytes : List UInt8) :
    scanAll single frames (b :: bytes) =
      scanToken single (scanAll single) frames (token (b &&& 7) (b >>> 3).toNat bytes) := by
  rw [scanAll, List.length_cons, scan]
  exact scanToken_congr single fun frames rest hrest => scan_fuel single hrest (Nat.le_refl _)

end Scan

end HappyServer.Serialize
