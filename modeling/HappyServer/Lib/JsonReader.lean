import HappyServer.Lib.Json

/-!
# Reading compact JSON back

A reader for documents without doubles, on the texts of `write`: it skips over what it need not
look at.  `read_write`: it inverts the writer, so that no two documents have one text.
-/

namespace Json

abbrev Doc := Json Empty (List UInt8)

def noDoubles : Doubles Empty := ⟨nofun, nofun⟩

def isDigit (b : UInt8) : Bool := 48 ≤ b.toNat && b.toNat ≤ 57

def readNat (bs : List UInt8) : Nat :=
  Nat.ofDigitChars 10 ((bs.takeWhile isDigit).map fun b => Char.ofNat b.toNat) 0

def readInt (bs : List UInt8) : Int × List UInt8 :=
  if bs.head? = some 45 then (-(readNat bs.tail : Int), bs.tail.dropWhile isDigit)
  else (readNat bs, bs.dropWhile isDigit)

def unhex (b : UInt8) : UInt8 := if b ≤ 57 then b - 48 else b - 55

/-- What an escape stands for, after its backslash. -/
def unescape : List UInt8 → Option (UInt8 × List UInt8)
  | [] => none
  | b :: bs =>
    if b = 117 then some (unhex (bs.getD 2 0) * 16 + unhex (bs.getD 3 0), bs.drop 4)
    else if b = 98 then some (8, bs)
    else if b = 116 then some (9, bs)
    else if b = 110 then some (10, bs)
    else if b = 102 then some (12, bs)
    else if b = 114 then some (13, bs)
    else some (b, bs)

def readString : (fuel : Nat) → List UInt8 → Option (List UInt8 × List UInt8)
  | 0, _ => none
  | _, [] => none
  | fuel + 1, b :: bs =>
    if b = quote then some ([], bs)
    else if b = backslash then do
      let (c, bs) ← unescape bs
      let (s, bs) ← readString fuel bs
      some (c :: s, bs)
    else do
      let (s, bs) ← readString fuel bs
      some (b :: s, bs)

def skipComma (bs : List UInt8) : List UInt8 := if bs.head? = some 44 then bs.tail else bs

mutual

def readValue : (fuel : Nat) → List UInt8 → Option (Doc × List UInt8)
  | 0, _ => none
  | _, [] => none
  | fuel + 1, b :: bs =>
    if b = 110 then some (.null, bs.drop 3)
    else if b = 116 then some (.bool true, bs.drop 3)
    else if b = 102 then some (.bool false, bs.drop 4)
    else if b = quote then (readString fuel bs).map fun r => (.string r.1, r.2)
    else if b = 91 then (readItems fuel bs).map fun r => (.array r.1, r.2)
    else if b = 123 then (readMembers fuel bs).map fun r => (.object r.1, r.2)
    else
      let (n, bs) := readInt (b :: bs)
      if h : -2 ^ 63 ≤ n ∧ n < 2 ^ 64 then some (.int ⟨n, h.1, h.2⟩, bs) else none

def readItems : (fuel : Nat) → List UInt8 → Option (List Doc × List UInt8)
  | 0, _ => none
  | fuel + 1, bs =>
    if bs.head? = some 93 then some ([], bs.tail)
    else do
      let (d, bs) ← readValue fuel bs
      let (ds, bs) ← readItems fuel (skipComma bs)
      some (d :: ds, bs)

def readMembers : (fuel : Nat) → List UInt8 → Option (List (List UInt8 × Doc) × List UInt8)
  | 0, _ => none
  | fuel + 1, bs =>
    if bs.head? = some 125 then some ([], bs.tail)
    else do
      let (k, bs) ← readString fuel bs.tail
      let (d, bs) ← readValue fuel bs.tail
      let (ms, bs) ← readMembers fuel (skipComma bs)
      some ((k, d) :: ms, bs)

end

/-! ## Numbers -/

/-- No digit comes next. -/
def NoDigit (bs : List UInt8) : Prop := ∀ b ∈ bs.head?, isDigit b = false

theorem takeWhile_digits {ds rest : List UInt8} (hds : ∀ b ∈ ds, isDigit b = true) (h : NoDigit rest) :
    (ds ++ rest).takeWhile isDigit = ds ∧ (ds ++ rest).dropWhile isDigit = rest := by
  rw [List.takeWhile_append_of_pos hds, List.dropWhile_append_of_pos hds]
  cases rest with
  | nil => simp
  | cons b rest =>
    have hb := h b rfl
    simp [hb]

theorem isDigit_toUInt8 {c : Char} (h : c.isDigit = true) :
    isDigit c.toNat.toUInt8 = true ∧ Char.ofNat c.toNat.toUInt8.toNat = c := by
  simp only [Char.isDigit, Bool.and_eq_true, decide_eq_true_eq] at h
  have hlow : 48 ≤ c.toNat := UInt32.le_iff_toNat_le.mp h.1
  have hhigh : c.toNat ≤ 57 := UInt32.le_iff_toNat_le.mp h.2
  have hbyte : c.toNat.toUInt8.toNat = c.toNat := by
    rw [Nat.toUInt8_eq, UInt8.toNat_ofNat_of_lt' (hhigh.trans_lt (by decide))]
  rw [isDigit, hbyte, Char.ofNat_toNat]
  simp [hlow, hhigh]

def digits (n : Nat) : List UInt8 := (Nat.toDigits 10 n).map fun c => c.toNat.toUInt8

theorem isDigit_of_mem {n : Nat} {b : UInt8} (h : b ∈ digits n) : isDigit b = true := by
  obtain ⟨c, hc, rfl⟩ := List.mem_map.mp h
  exact (isDigit_toUInt8 (Nat.isDigit_of_mem_toDigits (by decide) (by decide) hc)).1

theorem readNat_digits (n : Nat) {rest : List UInt8} (h : NoDigit rest) :
    readNat (digits n ++ rest) = n := by
  have hchars : (digits n).map (fun b => Char.ofNat b.toNat) = Nat.toDigits 10 n := by
    rw [digits, List.map_map]
    conv_rhs => rw [← List.map_id (Nat.toDigits 10 n)]
    refine List.map_congr_left fun c hc => ?_
    exact (isDigit_toUInt8 (Nat.isDigit_of_mem_toDigits (by decide) (by decide) hc)).2
  rw [readNat, (takeWhile_digits (fun b hb => isDigit_of_mem hb) h).1, hchars,
    Nat.ofDigitChars_ten_toDigits]

theorem digits_ne_nil (n : Nat) : digits n ≠ [] := by
  simp [digits, Nat.toDigits_ne_nil]

theorem readInt_decimal (n : Int) {rest : List UInt8} (h : NoDigit rest) :
    readInt (decimal n ++ rest) = (n, rest) := by
  have hdrop := fun m : Nat => (takeWhile_digits (fun b hb => isDigit_of_mem (n := m) hb) h).2
  have hminus : lit "-" = [45] := lit_eq _
  by_cases hneg : n < 0
  · have htext : decimal n ++ rest = 45 :: (digits n.natAbs ++ rest) := by
      rw [decimal, if_pos hneg, hminus]
      rfl
    rw [htext, readInt, if_pos List.head?_cons]
    simp only [List.tail_cons, readNat_digits _ h, hdrop]
    congr 1
    omega
  · have htext : decimal n ++ rest = digits n.natAbs ++ rest := by
      rw [decimal, if_neg hneg]
      rfl
    have hhead : (digits n.natAbs ++ rest).head? ≠ some 45 := by
      obtain ⟨b, more, hcons⟩ := List.exists_cons_of_ne_nil (digits_ne_nil n.natAbs)
      have hb : isDigit b = true := isDigit_of_mem (n := n.natAbs) (by simp [hcons])
      rw [hcons]
      rintro ⟨rfl⟩
      exact absurd hb (by decide)
    rw [htext, readInt, if_neg hhead, readNat_digits _ h, hdrop]
    congr 1
    omega

/-! ## Strings -/

theorem unescape_escape {c : UInt8} (h : escapable c = true) (rest : List UInt8) :
    ∃ more, escape c = backslash :: more ∧ unescape (more ++ rest) = some (c, rest) := by
  by_cases hshort : c = 34 ∨ c = 92 ∨ c = 8 ∨ c = 9 ∨ c = 10 ∨ c = 12 ∨ c = 13
  · rcases hshort with rfl | rfl | rfl | rfl | rfl | rfl | rfl
    · exact ⟨[34], lit_eq _, rfl⟩
    · exact ⟨[92], lit_eq _, rfl⟩
    · exact ⟨[98], lit_eq _, rfl⟩
    · exact ⟨[116], lit_eq _, rfl⟩
    · exact ⟨[110], lit_eq _, rfl⟩
    · exact ⟨[102], lit_eq _, rfl⟩
    · exact ⟨[114], lit_eq _, rfl⟩
  · have hcontrol : c < 0x20 := by
      simp only [escapable, Bool.or_eq_true, decide_eq_true_eq, beq_iff_eq] at h
      tauto
    have hhex : ∀ n < 32, unhex (hexDigit (UInt8.ofNat n / 16)) * 16
        + unhex (hexDigit (UInt8.ofNat n % 16)) = UInt8.ofNat n := by
      decide +kernel
    have hc := hhex c.toNat (UInt8.lt_iff_toNat_lt.mp hcontrol)
    rw [UInt8.ofNat_toNat] at hc
    have hlong : escape c = lit "\\u00" ++ [hexDigit (c / 16), hexDigit (c % 16)] := by
      simp only [not_or] at hshort
      obtain ⟨h1, h2, h3, h4, h5, h6, h7⟩ := hshort
      rw [escape, if_neg (show c ≠ quote from h1), if_neg (show c ≠ backslash from h2), if_neg h3,
        if_neg h4, if_neg h5, if_neg h6, if_neg h7, if_pos hcontrol]
    have hprefix : lit "\\u00" = [backslash, 117, 48, 48] := lit_eq _
    refine ⟨[117, 48, 48, hexDigit (c / 16), hexDigit (c % 16)], ?_, ?_⟩
    · rw [hlong, hprefix]
      rfl
    · show some (unhex (hexDigit (c / 16)) * 16 + unhex (hexDigit (c % 16)), rest) = some (c, rest)
      rw [hc]

theorem readString_escape (s : List UInt8) :
    ∀ fuel rest, s.length < fuel →
      readString fuel (s.flatMap escape ++ quote :: rest) = some (s, rest) := by
  induction s with
  | nil =>
    intro fuel rest hfuel
    obtain ⟨fuel, rfl⟩ := Nat.exists_eq_succ_of_ne_zero hfuel.ne'
    rfl
  | cons c s ih =>
    intro fuel rest hfuel
    obtain ⟨fuel, rfl⟩ := Nat.exists_eq_succ_of_ne_zero (Nat.ne_of_gt (Nat.zero_lt_of_lt hfuel))
    have hrest := ih fuel rest (by simpa using hfuel)
    rw [List.flatMap_cons, List.append_assoc]
    cases hc : escapable c with
    | true =>
      obtain ⟨more, hmore, hun⟩ := unescape_escape hc (s.flatMap escape ++ quote :: rest)
      rw [hmore, List.cons_append, readString, if_neg (by decide), if_pos rfl, hun]
      simp [hrest]
    | false =>
      have hplain := hc
      simp only [escapable, Bool.or_eq_false_iff, beq_eq_false_iff_ne] at hplain
      rw [escape_plain hc, List.singleton_append, readString, if_neg hplain.1.2, if_neg hplain.2]
      simp [hrest]

theorem length_le_escape (s : List UInt8) : s.length ≤ (s.flatMap escape).length := by
  induction s with
  | nil => exact Nat.le_refl _
  | cons c s ih =>
    have hone : 0 < (escape c).length := by
      cases hc : escapable c with
      | true =>
        obtain ⟨more, hmore, -⟩ := unescape_escape hc []
        simp [hmore]
      | false => simp [escape_plain hc]
    rw [List.flatMap_cons, List.length_append, List.length_cons]
    omega

/-! ## Documents -/

def text (d : Doc) : List UInt8 := d.write noDoubles
def textItems (ds : List Doc) : List UInt8 := join (ds.map text)

def textMembers (ms : List (List UInt8 × Doc)) : List UInt8 :=
  (partsMembers noDoubles ms).flatMap (Part.text fun s => s.flatMap escape)

theorem text_null : text .null = [110, 117, 108, 108] := by
  rw [text, write, textOf, parts, bytes_textOf]
  exact lit_eq _

theorem text_bool (b : Bool) :
    text (.bool b) = if b then [116, 114, 117, 101] else [102, 97, 108, 115, 101] := by
  rw [text, write, textOf, parts, bytes_textOf]
  cases b
  · exact lit_eq _
  · exact lit_eq _

theorem text_int (n : JsonInt) : text (.int n) = decimal n.val := by
  rw [text, write, textOf, parts, bytes_textOf]

theorem text_string (s : List UInt8) : text (.string s) = quote :: (s.flatMap escape ++ [quote]) := rfl

theorem text_array (ds : List Doc) : text (.array ds) = 91 :: (textItems ds ++ [93]) := by
  have hopen : lit "[" = [91] := lit_eq _
  have hclose : lit "]" = [93] := lit_eq _
  rw [text, write, textOf_array, hopen, hclose]
  rfl

theorem text_object (ms : List (List UInt8 × Doc)) :
    text (.object ms) = 123 :: (textMembers ms ++ [125]) := by
  have hopen : lit "\x7b" = [123] := lit_eq _
  have hclose : lit "\x7d" = [125] := lit_eq _
  simp only [text, write, textOf, parts, List.flatMap_append, bytes_textOf, hopen, hclose]
  rfl

theorem textItems_cons (d : Doc) (ds : List Doc) :
    textItems (d :: ds) = text d ++ ((if ds.isEmpty then [] else [44]) ++ textItems ds) := by
  have hcomma : lit "," = [44] := lit_eq _
  simp only [textItems, List.map_cons, join, List.isEmpty_map, hcomma, List.append_assoc]

theorem textMembers_cons (k : List UInt8) (d : Doc) (ms : List (List UInt8 × Doc)) :
    textMembers ((k, d) :: ms) = quote :: (k.flatMap escape ++ quote :: 58 ::
      (text d ++ ((if ms.isEmpty then [] else [44]) ++ textMembers ms))) := by
  have hcomma : lit "," = [44] := lit_eq _
  have hcolon : lit ":" = [58] := lit_eq _
  simp only [textMembers, partsMembers, List.flatMap_append, bytes_textOf, hcolon, hcomma]
  split <;> simp [quoted, Part.text, bytes, text, write, textOf]

/-- The head of a number. -/
theorem decimal_head (n : Int) :
    ∃ b more, decimal n = b :: more ∧ (b = 45 ∨ 48 ≤ b.toNat ∧ b.toNat ≤ 57) := by
  have hne : decimal n ≠ [] := by
    simp [decimal, Nat.toDigits_ne_nil]
  obtain ⟨b, more, hcons⟩ := List.exists_cons_of_ne_nil hne
  exact ⟨b, more, hcons, mem_decimal (n := n) (by simp [hcons])⟩

/-- The head of a text closes nothing. -/
theorem text_head (d : Doc) : ∃ b more, text d = b :: more ∧ b ≠ 93 ∧ b ≠ 125 := by
  cases d with
  | null => exact ⟨_, _, text_null, by decide, by decide⟩
  | bool b =>
    rw [text_bool]
    cases b
    · exact ⟨_, _, rfl, by decide, by decide⟩
    · exact ⟨_, _, rfl, by decide, by decide⟩
  | int n =>
    obtain ⟨b, more, hcons, hb⟩ := decimal_head n.val
    refine ⟨b, more, (text_int n).trans hcons, ?_, ?_⟩
    · rintro rfl
      exact absurd hb (by decide)
    · rintro rfl
      exact absurd hb (by decide)
  | double x => exact x.elim
  | string s => exact ⟨_, _, text_string s, by decide, by decide⟩
  | array ds => exact ⟨_, _, text_array ds, by decide, by decide⟩
  | object ms => exact ⟨_, _, text_object ms, by decide, by decide⟩

theorem noDigit_cons {b : UInt8} {bs : List UInt8} (h : isDigit b = false) : NoDigit (b :: bs) := by
  rintro c ⟨⟩
  exact h

/-- What follows an item: a comma and the others, or the end. -/
theorem noDigit_after {α : Type} (more : List α) (others : List UInt8) {close : UInt8} {rest : List UInt8}
    (hothers : more.isEmpty → others = []) (hclose : isDigit close = false) :
    NoDigit ((if more.isEmpty then [] else [44]) ++ others ++ close :: rest) := by
  cases more with
  | nil =>
    rw [hothers rfl]
    exact noDigit_cons hclose
  | cons x more => exact noDigit_cons (by decide)

theorem skipComma_after {α : Type} (more : List α) (others : List UInt8) {close : UInt8}
    {rest : List UInt8} (hothers : more.isEmpty → others = []) (hclose : close ≠ 44) :
    skipComma ((if more.isEmpty then [] else [44]) ++ others ++ close :: rest)
      = others ++ close :: rest := by
  cases more with
  | nil =>
    rw [hothers rfl]
    simp [skipComma, hclose]
  | cons x more => rfl

mutual

theorem readValue_text : ∀ (d : Doc) (fuel : Nat) (rest : List UInt8), (text d).length < fuel →
    NoDigit rest → readValue fuel (text d ++ rest) = some (d, rest)
  | .null, fuel + 1, rest, _, _ => by
    rw [text_null]
    rfl
  | .bool b, fuel + 1, rest, _, _ => by
    rw [text_bool]
    cases b <;> rfl
  | .int n, fuel + 1, rest, _, hrest => by
    obtain ⟨b, more, hcons, hb⟩ := decimal_head n.val
    have hne : ∀ c : UInt8, ¬ (c = 45 ∨ 48 ≤ c.toNat ∧ c.toNat ≤ 57) → b ≠ c := by
      rintro c hc rfl
      exact hc hb
    have hread := readInt_decimal n.val hrest
    rw [hcons, List.cons_append] at hread
    rw [text_int, hcons, List.cons_append, readValue, if_neg (hne 110 (by decide)),
      if_neg (hne 116 (by decide)), if_neg (hne 102 (by decide)), if_neg (hne quote (by decide)),
      if_neg (hne 91 (by decide)), if_neg (hne 123 (by decide)), hread]
    exact dif_pos ⟨n.low, n.high⟩
  | .string s, fuel + 1, rest, hfuel, _ => by
    have hlen : s.length < fuel := by
      have := length_le_escape s
      simp only [text_string, List.length_cons, List.length_append] at hfuel
      omega
    rw [text_string, List.cons_append, List.append_assoc, readValue]
    simp only [if_neg (show quote ≠ 110 by decide), if_neg (show quote ≠ 116 by decide),
      if_neg (show quote ≠ 102 by decide), if_true, List.singleton_append,
      readString_escape s fuel rest hlen, Option.map_some]
  | .array ds, fuel + 1, rest, hfuel, _ => by
    rw [text_array] at hfuel ⊢
    have hitems := readItems_text ds fuel rest (by simpa using hfuel)
    rw [List.cons_append, List.append_assoc, readValue]
    simp only [if_neg (show (91 : UInt8) ≠ 110 by decide), if_neg (show (91 : UInt8) ≠ 116 by decide),
      if_neg (show (91 : UInt8) ≠ 102 by decide), if_neg (show (91 : UInt8) ≠ quote by decide), if_true,
      List.singleton_append, hitems, Option.map_some]
  | .object ms, fuel + 1, rest, hfuel, _ => by
    rw [text_object] at hfuel ⊢
    have hmembers := readMembers_text ms fuel rest (by simpa using hfuel)
    rw [List.cons_append, List.append_assoc, readValue]
    simp only [if_neg (show (123 : UInt8) ≠ 110 by decide),
      if_neg (show (123 : UInt8) ≠ 116 by decide), if_neg (show (123 : UInt8) ≠ 102 by decide),
      if_neg (show (123 : UInt8) ≠ quote by decide), if_neg (show (123 : UInt8) ≠ 91 by decide), if_true,
      List.singleton_append, hmembers, Option.map_some]
termination_by structural d => d

theorem readItems_text : ∀ (ds : List Doc) (fuel : Nat) (rest : List UInt8),
    (textItems ds).length + 1 < fuel →
      readItems fuel (textItems ds ++ 93 :: rest) = some (ds, rest)
  | [], fuel + 1, rest, _ => rfl
  | d :: ds, fuel + 1, rest, hfuel => by
    have hothers : ds.isEmpty → textItems ds = [] := by
      intro h
      rw [List.isEmpty_iff.mp h]
      rfl
    have hsize : (textItems (d :: ds)).length = (text d).length
        + ((if ds.isEmpty then [] else [44] : List UInt8).length + (textItems ds).length) := by
      rw [textItems_cons, List.length_append, List.length_append]
    obtain ⟨b, more, hcons, hclose, -⟩ := text_head d
    have hpos : 0 < (text d).length := by simp [hcons]
    have hvalue := readValue_text d fuel ((if ds.isEmpty then [] else [44]) ++ textItems ds ++ 93 :: rest)
      (by omega) (noDigit_after ds _ hothers (by decide))
    have hitems := readItems_text ds fuel rest (by omega)
    have hopen : (text d ++ ((if ds.isEmpty then [] else [44]) ++ textItems ds ++ 93 :: rest)).head?
        ≠ some 93 := by
      rw [hcons]
      simpa using hclose
    rw [textItems_cons, List.append_assoc, readItems, if_neg hopen, hvalue]
    simp only [Option.bind_eq_bind, Option.bind_some]
    rw [skipComma_after ds _ hothers (by decide), hitems]
    rfl
termination_by structural ds => ds

theorem readMembers_text : ∀ (ms : List (List UInt8 × Doc)) (fuel : Nat) (rest : List UInt8),
    (textMembers ms).length + 1 < fuel →
      readMembers fuel (textMembers ms ++ 125 :: rest) = some (ms, rest)
  | [], fuel + 1, rest, _ => rfl
  | (k, d) :: ms, fuel + 1, rest, hfuel => by
    have hothers : ms.isEmpty → textMembers ms = [] := by
      intro h
      rw [List.isEmpty_iff.mp h]
      rfl
    have hkey := length_le_escape k
    have hsize := congrArg List.length (textMembers_cons k d ms)
    simp only [List.length_cons, List.length_append] at hsize
    have hstring := readString_escape k fuel
      (58 :: (text d ++ ((if ms.isEmpty then [] else [44]) ++ textMembers ms ++ 125 :: rest))) (by omega)
    have hvalue := readValue_text d fuel
      ((if ms.isEmpty then [] else [44]) ++ textMembers ms ++ 125 :: rest) (by omega)
      (noDigit_after ms _ hothers (by decide))
    have hmembers := readMembers_text ms fuel rest (by omega)
    rw [textMembers_cons, List.cons_append, readMembers, if_neg (by simp [quote])]
    simp only [List.append_assoc, List.cons_append, List.tail_cons] at hstring hvalue ⊢
    simp only [hstring, Option.bind_eq_bind, Option.bind_some, List.tail_cons, hvalue]
    rw [← List.append_assoc, skipComma_after ms _ hothers (by decide), hmembers]
    rfl
termination_by structural ms => ms

end

/-- Reads a text that the writer made. -/
def read (t : List UInt8) : Option Doc :=
  match readValue (t.length + 1) t with
  | some (d, []) => if text d = t then some d else none
  | _ => none

theorem read_text (d : Doc) : read (text d) = some d := by
  have hread := readValue_text d ((text d).length + 1) [] (Nat.lt_succ_self _) nofun
  rw [List.append_nil] at hread
  rw [read, hread]
  exact if_pos rfl

theorem text_of_read {t : List UInt8} {d : Doc} (h : read t = some d) : text d = t := by
  unfold read at h
  split at h
  · rw [Option.ite_none_right_eq_some] at h
    obtain ⟨htext, hd⟩ := h
    cases hd
    exact htext
  · cases h

end Json
