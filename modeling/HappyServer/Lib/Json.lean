import HappyServer.Lib.Subst
import Mathlib.Algebra.Order.BigOperators.Group.List
import Mathlib.Algebra.GroupWithZero.Nat
import Mathlib.Algebra.Order.Group.Nat

/-!
# JSON documents and their compact text

`Json δ σ` has the doubles of `δ` and the strings of `σ`; members keep their order.  Its text is a
sequence of bytes and strings (`parts`), each string between quotes (`Closed`).

* `subst_textOf`: what substitution does to a text, from what it does to the strings.
* `write`: the text with escaped strings.  `strokes` counts the bytes that only the quotes of
  strings, escapes and words can have.
-/

/-- An integer of 64 bits, signed or not. -/
structure JsonInt where
  val : Int
  low : -2 ^ 63 ≤ val
  high : val < 2 ^ 64
deriving DecidableEq

inductive Json (δ σ : Type) where
  | null
  | bool (b : Bool)
  | int (n : JsonInt)
  | double (x : δ)
  | string (s : σ)
  | array (items : List (Json δ σ))
  | object (members : List (σ × Json δ σ))

/-- How doubles are written. -/
structure Doubles (δ : Type) where
  text : δ → List UInt8
  plain : ∀ x, ∀ b ∈ text x, b ∈ "0123456789+-.eE".toUTF8.toList

namespace Json

inductive Part (σ : Type) where
  | byte (b : UInt8)
  | str (s : σ)

def quote : UInt8 := 34
def backslash : UInt8 := 92

def lit (s : String) : List UInt8 := s.toUTF8.toList

def decimal (n : Int) : List UInt8 :=
  (if n < 0 then lit "-" else []) ++ (Nat.toDigits 10 n.natAbs).map fun c => c.toNat.toUInt8

theorem toList_loop (bytes : ByteArray) (i : Nat) (r : List UInt8) :
    ByteArray.toList.loop bytes i r = r.reverse ++ bytes.data.toList.drop i := by
  fun_induction ByteArray.toList.loop bytes i r with
  | case1 i r hlt ih =>
    have hget : bytes.get! i = bytes.data.toList.get ⟨i, hlt⟩ := by
      show bytes.data[i]! = _
      rw [getElem!_pos bytes.data i hlt, List.get_eq_getElem, Array.getElem_toList]
    rw [ih, List.reverse_cons, List.append_assoc, hget, List.singleton_append,
      List.get_eq_getElem, ← List.drop_eq_getElem_cons]
  | case2 i r hle =>
    rw [List.drop_eq_nil_of_le (Nat.le_of_not_lt hle), List.append_nil]

/-- The right side evaluates. -/
theorem lit_eq (s : String) : lit s = s.toUTF8.data.toList := toList_loop s.toUTF8 0 []

variable {δ σ τ : Type}

def bytes (bs : List UInt8) : List (Part σ) := bs.map .byte

def quoted (s : σ) : List (Part σ) := [.byte quote, .str s, .byte quote]

mutual

def parts (num : Doubles δ) : Json δ σ → List (Part σ)
  | .null => bytes (lit "null")
  | .bool b => bytes (if b then lit "true" else lit "false")
  | .int n => bytes (decimal n.val)
  | .double x => bytes (num.text x)
  | .string s => quoted s
  | .array items => bytes (lit "[") ++ partsItems num items ++ bytes (lit "]")
  | .object members => bytes (lit "\x7b") ++ partsMembers num members ++ bytes (lit "\x7d")
termination_by structural x => x

def partsItems (num : Doubles δ) : List (Json δ σ) → List (Part σ)
  | [] => []
  | d :: ds => d.parts num ++ (if ds.isEmpty then [] else bytes (lit ",")) ++ partsItems num ds
termination_by structural x => x

def partsMembers (num : Doubles δ) : List (σ × Json δ σ) → List (Part σ)
  | [] => []
  | (k, d) :: ms =>
    quoted k ++ bytes (lit ":") ++ d.parts num ++ (if ms.isEmpty then [] else bytes (lit ",")) ++
      partsMembers num ms
termination_by structural x => x

end

mutual

/-- Every string and every key. -/
def map (f : σ → τ) : Json δ σ → Json δ τ
  | .null => .null
  | .bool b => .bool b
  | .int n => .int n
  | .double x => .double x
  | .string s => .string (f s)
  | .array items => .array (mapItems f items)
  | .object members => .object (mapMembers f members)
termination_by structural x => x

def mapItems (f : σ → τ) : List (Json δ σ) → List (Json δ τ)
  | [] => []
  | d :: ds => d.map f :: mapItems f ds
termination_by structural x => x

def mapMembers (f : σ → τ) : List (σ × Json δ σ) → List (τ × Json δ τ)
  | [] => []
  | (k, d) :: ms => (f k, d.map f) :: mapMembers f ms
termination_by structural x => x

end

/-! ## Parts -/

def Part.map (f : σ → τ) : Part σ → Part τ
  | .byte b => .byte b
  | .str s => .str (f s)

def Part.text (render : σ → List UInt8) : Part σ → List UInt8
  | .byte b => [b]
  | .str s => render s

@[simp] theorem bytes_map (f : σ → τ) (bs : List UInt8) :
    (bytes bs : List (Part σ)).map (Part.map f) = bytes bs := by
  simp [bytes, Part.map]

@[simp] theorem quoted_map (f : σ → τ) (s : σ) : (quoted s).map (Part.map f) = quoted (f s) := rfl

@[simp] theorem mapItems_isEmpty (f : σ → τ) (items : List (Json δ σ)) :
    (mapItems f items).isEmpty = items.isEmpty := by
  cases items <;> rfl

@[simp] theorem mapMembers_isEmpty (f : σ → τ) (members : List (σ × Json δ σ)) :
    (mapMembers f members).isEmpty = members.isEmpty := by
  cases members <;> rfl

mutual

theorem parts_map (num : Doubles δ) (f : σ → τ) :
    ∀ d : Json δ σ, (d.map f).parts num = (d.parts num).map (Part.map f)
  | .null => by simp [map, parts]
  | .bool b => by simp [map, parts]
  | .int n => by simp [map, parts]
  | .double x => by simp [map, parts]
  | .string s => by simp [map, parts]
  | .array items => by simp [map, parts, partsItems_map num f items]
  | .object members => by simp [map, parts, partsMembers_map num f members]
termination_by structural x => x

theorem partsItems_map (num : Doubles δ) (f : σ → τ) :
    ∀ items : List (Json δ σ), partsItems num (mapItems f items) = (partsItems num items).map (Part.map f)
  | [] => rfl
  | d :: ds => by
    simp only [mapItems, partsItems, mapItems_isEmpty, parts_map num f d, partsItems_map num f ds,
      List.map_append]
    split <;> simp
termination_by structural x => x

theorem partsMembers_map (num : Doubles δ) (f : σ → τ) :
    ∀ members : List (σ × Json δ σ),
      partsMembers num (mapMembers f members) = (partsMembers num members).map (Part.map f)
  | [] => rfl
  | (k, d) :: ms => by
    simp only [mapMembers, partsMembers, mapMembers_isEmpty, parts_map num f d,
      partsMembers_map num f ms, List.map_append, quoted_map, bytes_map]
    split <;> simp
termination_by structural x => x

end

/-- No byte is `avoid`, and a quote follows every string. -/
inductive Closed (avoid : UInt8) : List (Part σ) → Prop
  | nil : Closed avoid []
  | byte {b ps} : b ≠ avoid → Closed avoid ps → Closed avoid (.byte b :: ps)
  | str {s ps} : Closed avoid ps → Closed avoid (.str s :: .byte quote :: ps)

section

variable {avoid : UInt8} {ps qs : List (Part σ)}

theorem Closed.append (hps : Closed avoid ps) (hqs : Closed avoid qs) : Closed avoid (ps ++ qs) := by
  induction hps with
  | nil => exact hqs
  | byte hb _ ih => exact .byte hb ih
  | str _ ih => exact .str ih

theorem closed_bytes {bs : List UInt8} (h : ∀ b ∈ bs, b ≠ avoid) :
    Closed avoid (bytes bs : List (Part σ)) := by
  induction bs with
  | nil => exact .nil
  | cons b bs ih =>
    rw [List.forall_mem_cons] at h
    exact .byte h.1 (ih h.2)

theorem closed_quoted (h : quote ≠ avoid) (s : σ) : Closed avoid (quoted s) :=
  .byte h (.str .nil)

/-- A byte that is in no text outside of strings. -/
structure Foreign (num : Doubles δ) (avoid : UInt8) : Prop where
  quote_ne : quote ≠ avoid
  lit : ∀ s ∈ ["null", "true", "false", "[", "]", "\x7b", "\x7d", ",", ":"], ∀ b ∈ lit s, b ≠ avoid
  decimal : ∀ n, ∀ b ∈ decimal n, b ≠ avoid
  double : ∀ x, ∀ b ∈ num.text x, b ≠ avoid

variable {num : Doubles δ}

mutual

theorem closed_parts (h : Foreign num avoid) : ∀ d : Json δ σ, Closed avoid (d.parts num)
  | .null => closed_bytes (h.lit _ (by simp))
  | .bool b => closed_bytes (by cases b <;> exact h.lit _ (by simp))
  | .int n => closed_bytes (h.decimal n.val)
  | .double x => closed_bytes (h.double x)
  | .string s => closed_quoted h.quote_ne s
  | .array items =>
    ((closed_bytes (h.lit _ (by simp))).append (closed_partsItems h items)).append
      (closed_bytes (h.lit _ (by simp)))
  | .object members =>
    ((closed_bytes (h.lit _ (by simp))).append (closed_partsMembers h members)).append
      (closed_bytes (h.lit _ (by simp)))
termination_by structural x => x

theorem closed_partsItems (h : Foreign num avoid) :
    ∀ items : List (Json δ σ), Closed avoid (partsItems num items)
  | [] => .nil
  | d :: ds => by
    refine ((closed_parts h d).append ?_).append (closed_partsItems h ds)
    split
    · exact .nil
    · exact closed_bytes (h.lit _ (by simp))
termination_by structural x => x

theorem closed_partsMembers (h : Foreign num avoid) :
    ∀ members : List (σ × Json δ σ), Closed avoid (partsMembers num members)
  | [] => .nil
  | (k, d) :: ms => by
    refine ((((closed_quoted h.quote_ne k).append (closed_bytes (h.lit _ (by simp)))).append
      (closed_parts h d)).append ?_).append (closed_partsMembers h ms)
    split
    · exact .nil
    · exact closed_bytes (h.lit _ (by simp))
termination_by structural x => x

end

end

/-! ## Texts -/

def textOf (num : Doubles δ) (render : σ → List UInt8) (d : Json δ σ) : List UInt8 :=
  (d.parts num).flatMap (Part.text render)

def strings (num : Doubles δ) (d : Json δ σ) : List σ :=
  (d.parts num).filterMap fun
    | .byte _ => none
    | .str s => some s

variable {num : Doubles δ} {render : σ → List UInt8}

theorem textOf_map (render : τ → List UInt8) (f : σ → τ) (d : Json δ σ) :
    (d.map f).textOf num render = d.textOf num (render ∘ f) := by
  rw [textOf, parts_map, List.flatMap_map]
  refine List.flatMap_congr fun p _ => ?_
  cases p <;> rfl

theorem mem_strings {s : σ} {d : Json δ σ} : s ∈ d.strings num ↔ .str s ∈ d.parts num := by
  rw [strings, List.mem_filterMap]
  constructor
  · rintro ⟨p, hp, hs⟩
    cases p with
    | byte b => cases hs
    | str t =>
      cases hs
      exact hp
  · intro h
    exact ⟨_, h, rfl⟩

theorem textOf_congr {render' : σ → List UInt8} {d : Json δ σ}
    (h : ∀ s ∈ d.strings num, render s = render' s) : d.textOf num render = d.textOf num render' := by
  refine List.flatMap_congr fun p hp => ?_
  cases p with
  | byte b => rfl
  | str s => exact h s (mem_strings.mpr hp)

/-- What is substituted in every string up to its closing quote is substituted in the text. -/
theorem subst_textOf {avoid : UInt8} {old new : List UInt8} {f : σ → σ} (h : Foreign num avoid)
    (hstring : ∀ s rest, subst (avoid :: old) new (render s ++ quote :: rest)
      = render (f s) ++ quote :: subst (avoid :: old) new rest)
    (d : Json δ σ) (rest : List UInt8) :
    subst (avoid :: old) new (d.textOf num render ++ rest)
      = (d.map f).textOf num render ++ subst (avoid :: old) new rest := by
  rw [textOf_map, textOf, textOf]
  have hclosed : Closed avoid (d.parts num) := closed_parts h d
  generalize d.parts num = ps at hclosed
  induction hclosed with
  | nil => rfl
  | @byte b ps hb _ ih =>
    have hpass : ∀ more, subst (avoid :: old) new ([b] ++ more)
        = [b] ++ subst (avoid :: old) new more :=
      fun more => subst_append_of_not_mem (by simpa using hb.symm)
    simp only [List.flatMap_cons, Part.text, List.append_assoc]
    rw [hpass, ih]
  | @str s ps _ ih =>
    simp only [List.flatMap_cons, Part.text, List.append_assoc, List.nil_append,
      List.cons_append, Function.comp_apply]
    rw [hstring, ih]

/-- Texts with commas between them. -/
def join : List (List UInt8) → List UInt8
  | [] => []
  | t :: ts => t ++ (if ts.isEmpty then [] else lit ",") ++ join ts

theorem bytes_textOf (bs : List UInt8) :
    (bytes bs : List (Part σ)).flatMap (Part.text render) = bs := by
  induction bs with
  | nil => rfl
  | cons b bs ih => exact congrArg (b :: ·) ih

theorem partsItems_textOf (items : List (Json δ σ)) :
    (partsItems num items).flatMap (Part.text render) = join (items.map (textOf num render)) := by
  induction items with
  | nil => rfl
  | cons d ds ih =>
    simp only [partsItems, List.flatMap_append, ih, List.map_cons, join, List.isEmpty_map]
    split
    · rfl
    · rw [bytes_textOf]
      rfl

theorem textOf_array (items : List (Json δ σ)) :
    (Json.array items).textOf num render
      = lit "[" ++ join (items.map (textOf num render)) ++ lit "]" := by
  simp only [textOf, parts, List.flatMap_append, bytes_textOf, partsItems_textOf]

theorem textOf_object_head (num : Doubles δ) (render : σ → List UInt8) (members : List (σ × Json δ σ)) :
    ∃ more, (Json.object members).textOf num render = lit "\x7b" ++ more := by
  simp only [textOf, parts, List.flatMap_append, bytes_textOf, List.append_assoc]
  exact ⟨_, rfl⟩

/-! ## Escapes -/

def escapable (c : UInt8) : Bool := c < 0x20 || c == quote || c == backslash

/-- A digit as `Writer` puts it after `\u00`. -/
def hexDigit (n : UInt8) : UInt8 := if n < 10 then 48 + n else 55 + n

def escape (c : UInt8) : List UInt8 :=
  if c = quote then lit "\\\""
  else if c = backslash then lit "\\\\"
  else if c = 8 then lit "\\b"
  else if c = 9 then lit "\\t"
  else if c = 10 then lit "\\n"
  else if c = 12 then lit "\\f"
  else if c = 13 then lit "\\r"
  else if c < 0x20 then lit "\\u00" ++ [hexDigit (c / 16), hexDigit (c % 16)]
  else [c]

/-- The text that `Writer` makes. -/
def write (num : Doubles δ) (d : Json δ (List UInt8)) : List UInt8 :=
  d.textOf num fun s => s.flatMap escape

theorem escape_plain {c : UInt8} (h : escapable c = false) : escape c = [c] := by
  simp only [escapable, Bool.or_eq_false_iff, decide_eq_false_iff_not, beq_eq_false_iff_ne] at h
  obtain ⟨⟨hcontrol, hquote⟩, hbackslash⟩ := h
  have hshort : ∀ b : UInt8, b < 0x20 → c ≠ b := by
    rintro b hb rfl
    exact hcontrol hb
  rw [escape, if_neg hquote, if_neg hbackslash, if_neg (hshort 8 (by decide)),
    if_neg (hshort 9 (by decide)), if_neg (hshort 10 (by decide)), if_neg (hshort 12 (by decide)),
    if_neg (hshort 13 (by decide)), if_neg hcontrol]

/-- The bytes of `"`, `\` and `u`. -/
def stroke (b : UInt8) : Bool := b == quote || b == backslash || b == 117

/-- Of these, a text has as few as it can: the quotes of strings, a backslash for each character
that needs one, and a second of them with it where its escape is no single letter. -/
def strokes (text : List UInt8) : Nat := text.countP stroke

theorem escape_escapable {c : UInt8} (h : escapable c = true) :
    (escape c).head? = some backslash ∧ 35 ∉ escape c ∧ strokes [c] < strokes (escape c) := by
  have hall : ∀ n < 93, escapable (UInt8.ofNat n) = true →
      (escape (UInt8.ofNat n)).head? = some backslash ∧ 35 ∉ escape (UInt8.ofNat n) ∧
        strokes [UInt8.ofNat n] < strokes (escape (UInt8.ofNat n)) := by
    decide +kernel
  have hlt : c.toNat < 93 := by
    simp only [escapable, Bool.or_eq_true, decide_eq_true_eq, beq_iff_eq] at h
    rcases h with (hcontrol | rfl) | rfl
    · have := UInt8.lt_iff_toNat_lt.mp hcontrol
      exact this.trans (by decide)
    · decide
    · decide
  have hc := hall c.toNat hlt
  rw [UInt8.ofNat_toNat] at hc
  exact hc h

/-- A number is written with digits and a sign. -/
theorem mem_decimal {n : Int} {b : UInt8} (h : b ∈ decimal n) :
    b = 45 ∨ 48 ≤ b.toNat ∧ b.toNat ≤ 57 := by
  rw [decimal, List.mem_append] at h
  rcases h with hsign | hdigit
  · split at hsign
    · have hminus : lit "-" = [45] := lit_eq _
      rw [hminus, List.mem_singleton] at hsign
      exact .inl hsign
    · cases hsign
  · obtain ⟨c, hc, rfl⟩ := List.mem_map.mp hdigit
    have hd := Nat.isDigit_of_mem_toDigits (by decide) (by decide) hc
    simp only [Char.isDigit, Bool.and_eq_true, decide_eq_true_eq] at hd
    have hlow : 48 ≤ c.toNat := UInt32.le_iff_toNat_le.mp hd.1
    have hhigh : c.toNat ≤ 57 := UInt32.le_iff_toNat_le.mp hd.2
    refine .inr ?_
    rw [Nat.toUInt8_eq, UInt8.toNat_ofNat_of_lt' (hhigh.trans_lt (by decide))]
    exact ⟨hlow, hhigh⟩

theorem foreign_hash (num : Doubles δ) : Foreign num 35 where
  quote_ne := by decide
  lit := by decide +kernel
  decimal := by
    rintro n b hb rfl
    exact absurd (mem_decimal hb) (by decide)
  double := by
    rintro x b hb rfl
    exact absurd (num.plain x 35 hb) (by decide +kernel)

/-! ## Counting strokes -/

theorem strokes_append (a b : List UInt8) : strokes (a ++ b) = strokes a + strokes b :=
  List.countP_append

theorem strokes_flatMap {α : Type} (f : α → List UInt8) (l : List α) :
    strokes (l.flatMap f) = (l.map fun x => strokes (f x)).sum := by
  induction l with
  | nil => rfl
  | cons x l ih => rw [List.flatMap_cons, strokes_append, ih, List.map_cons, List.sum_cons]

theorem strokes_join (ts : List (List UInt8)) : strokes (join ts) = (ts.map strokes).sum := by
  have hcomma : strokes (lit ",") = 0 := by
    rw [lit_eq]
    decide
  induction ts with
  | nil => rfl
  | cons t ts ih =>
    rw [join, strokes_append, strokes_append, ih, List.map_cons, List.sum_cons]
    split
    · rfl
    · rw [hcomma, Nat.add_zero]

section

variable {d : Json δ σ} {render' : σ → List UInt8}

theorem strokes_part_le (h : ∀ s ∈ d.strings num, strokes (render s) ≤ strokes (render' s)) :
    ∀ p ∈ d.parts num, strokes (p.text render) ≤ strokes (p.text render') := by
  intro p hp
  cases p with
  | byte b => exact Nat.le_refl _
  | str s => exact h s (mem_strings.mpr hp)

theorem strokes_textOf_le (h : ∀ s ∈ d.strings num, strokes (render s) ≤ strokes (render' s)) :
    strokes (d.textOf num render) ≤ strokes (d.textOf num render') := by
  rw [textOf, textOf, strokes_flatMap, strokes_flatMap]
  exact List.sum_le_sum (strokes_part_le h)

theorem strokes_textOf_lt (h : ∀ s ∈ d.strings num, strokes (render s) ≤ strokes (render' s))
    {s : σ} (hs : s ∈ d.strings num) (hlt : strokes (render s) < strokes (render' s)) :
    strokes (d.textOf num render) < strokes (d.textOf num render') := by
  rw [textOf, textOf, strokes_flatMap, strokes_flatMap]
  exact List.sum_lt_sum _ _ (strokes_part_le h) ⟨.str s, mem_strings.mp hs, hlt⟩

end

end Json
