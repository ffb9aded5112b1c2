import HappyServer.Serialize.Headers

/-!
# Decoding untrusted bytes

What the log of a decoding says is proved for the blocks that it is made of (`Blocks`) and holds
of any decoding (`meets_unpack`).  With `header` it says exactly which byte strings are safe:

* `StringsSafe`: every length from 2 ^ 31 on is a negative `int`, and passes the check of
  `get_buffer` unless the buffer itself is that long.
* `TablesValid`: `unpack_table` checks nothing of the length that it reads.
* `NestingBounded`: nor does it count how deep it is, as `pack_one` does.
-/

namespace HappyServer.Serialize

open Traced Word

/-- What the log has for a header. -/
def Header.call : Header → Call
  | .enter => .unpackTable
  | .string n left => .stringHeader n left
  | .table n left => .tableHeader n left

theorem header_eq_some_iff {depth : Nat} {h : Header} (p : Nat × Call) :
    header p = some (depth, h) ↔ p = (depth, h.call) := by
  obtain ⟨d, c⟩ := p
  constructor
  · intro hc
    cases c <;> simp [header] at hc
    all_goals
      obtain ⟨rfl, rfl⟩ := hc
      rfl
  · intro hp
    rw [hp]
    cases h <;> rfl

theorem mem_header_iff {calls : List (Nat × Call)} {depth : Nat} {h : Header} :
    (depth, h) ∈ calls.filterMap header ↔ (depth, h.call) ∈ calls := by
  rw [List.mem_filterMap]
  constructor
  · rintro ⟨p, hmem, hp⟩
    rwa [← (header_eq_some_iff p).mp hp]
  · intro hmem
    exact ⟨_, hmem, (header_eq_some_iff _).mpr rfl⟩

/-! ## Strings -/

/-- What `get_buffer` does with a declared length. -/
theorem getString_outcome (view : BufferView) (n depth : Nat) :
    (i32 view.size < i32 n ∧ (getString view n depth).calls = [(depth, .stringHeader n view.size)] ∧
      (getString view n depth).error? = some (.invalidStream (i32 view.size) 311)) ∨
    (¬i32 view.size < i32 n ∧ (getString view n depth).calls =
      [(depth, .stringHeader n view.size), (depth, .pushlstring (i32 n) view.size)] ∧
      ∀ e, (getString view n depth).error? = some e → i32 n < 0) := by
  unfold getString getBuffer
  by_cases hcheck : i32 view.size < i32 n
  · rw [if_pos hcheck]
    exact Or.inl ⟨hcheck, rfl, rfl⟩
  · rw [if_neg hcheck]
    right
    refine ⟨hcheck, ?_⟩
    by_cases hneg : i32 (n : Int) < 0
    · rw [if_pos hneg]
      exact ⟨rfl, fun _ _ => hneg⟩
    · rw [if_neg hneg]
      exact ⟨rfl, fun e he => by cases he⟩

/-- `lua_pushlstring` is called with a length between 0 and what is left, and a header that
declares more is the last thing that is read. -/
structure StringsSafe (calls : List (Nat × Call)) (e : Option Error) : Prop where
  bounded : ∀ depth (len : Int) (left : Nat), (depth, .pushlstring len left) ∈ calls →
    0 ≤ len ∧ len ≤ left
  rejected : ∀ depth n left, (depth, .stringHeader n left) ∈ calls → left < n →
    (∃ len line, e = some (.invalidStream len line)) ∧
      calls.getLast? = some (depth, .stringHeader n left)

/-- A length that is no negative `int`, or that `get_buffer` turns down all the same. -/
def SafeString (n left : Nat) : Prop := n < 2 ^ 31 ∨ i32 left < i32 n

def StringLaw (calls : List (Nat × Call)) (e : Option Error) : Prop :=
  ((∀ depth n left, (depth, .stringHeader n left) ∈ calls → SafeString n left) →
    StringsSafe calls e) ∧
  ((∃ depth n left, (depth, .stringHeader n left) ∈ calls ∧ ¬SafeString n left) →
    ∃ depth, ∃ len : Int, ∃ left, (depth, .pushlstring len left) ∈ calls ∧ len < 0)

theorem stringLaw_append {c c' : List (Nat × Call)} {e : Option Error} (h : StringLaw c none)
    (h' : StringLaw c' e) : StringLaw (c ++ c') e := by
  obtain ⟨h1, h2⟩ := h
  obtain ⟨h1', h2'⟩ := h'
  constructor
  · intro hsafe
    have hs := h1 fun d n left hmem => hsafe d n left (List.mem_append_left _ hmem)
    have hs' := h1' fun d n left hmem => hsafe d n left (List.mem_append_right _ hmem)
    constructor
    · intro d len left hmem
      rcases List.mem_append.mp hmem with hmem | hmem
      · exact hs.bounded d len left hmem
      · exact hs'.bounded d len left hmem
    · intro d n left hmem hlt
      rcases List.mem_append.mp hmem with hmem | hmem
      · obtain ⟨⟨len, line, he⟩, -⟩ := hs.rejected d n left hmem hlt
        cases he
      · obtain ⟨he, hlast⟩ := hs'.rejected d n left hmem hlt
        refine ⟨he, ?_⟩
        rw [List.getLast?_append, hlast]
        rfl
  · rintro ⟨d, n, left, hmem, hunsafe⟩
    rcases List.mem_append.mp hmem with hmem | hmem
    · obtain ⟨d', len, left', hmem', hneg⟩ := h2 ⟨d, n, left, hmem, hunsafe⟩
      exact ⟨d', len, left', List.mem_append_left _ hmem', hneg⟩
    · obtain ⟨d', len, left', hmem', hneg⟩ := h2' ⟨d, n, left, hmem, hunsafe⟩
      exact ⟨d', len, left', List.mem_append_right _ hmem', hneg⟩

/-- A log that says nothing of strings. -/
theorem stringLaw_silent {calls : List (Nat × Call)} (e : Option Error)
    (hheader : ∀ d n left, (d, .stringHeader n left) ∉ calls)
    (hpush : ∀ d len left, (d, .pushlstring len left) ∉ calls) : StringLaw calls e := by
  constructor
  · intro _
    exact ⟨fun d len left hmem => absurd hmem (hpush d len left),
      fun d n left hmem => absurd hmem (hheader d n left)⟩
  · rintro ⟨d, n, left, hmem, -⟩
    exact absurd hmem (hheader d n left)

theorem stringLaw_getString (view : BufferView) {n : Nat} (depth : Nat) (hn : n < 2 ^ 32) :
    StringLaw (getString view n depth).calls (getString view n depth).error? := by
  rcases getString_outcome view n depth with ⟨hcheck, hcalls, he⟩ | ⟨hcheck, hcalls, he⟩
  · rw [hcalls, he]
    constructor
    · intro _
      constructor
      · intro d len left hmem
        simp at hmem
      · intro d n' left hmem _
        rw [List.mem_singleton.mp hmem]
        exact ⟨⟨_, _, rfl⟩, rfl⟩
    · rintro ⟨d, n', left, hmem, hunsafe⟩
      simp only [List.mem_singleton, Prod.mk.injEq, Call.stringHeader.injEq] at hmem
      obtain ⟨-, rfl, rfl⟩ := hmem
      exact absurd (Or.inr hcheck) hunsafe
  · rw [hcalls]
    generalize (getString view n depth).error? = e at he
    constructor
    · intro hsafe
      have hlt := (hsafe depth n view.size List.mem_cons_self).resolve_right hcheck
      have hself : i32 (n : Int) = n := i32_of_range _ (by omega) (by omega)
      have hle : (n : Int) ≤ view.size := by
        have := i32_le_of_nonneg (view.size : Int) (by omega)
        omega
      constructor
      · intro d len left hmem
        simp only [List.mem_cons, List.not_mem_nil, Prod.mk.injEq, reduceCtorEq, and_false,
          or_false, false_or, Call.pushlstring.injEq] at hmem
        obtain ⟨-, hlen, hleft⟩ := hmem
        omega
      · intro d n' left hmem hlt
        simp only [List.mem_cons, List.not_mem_nil, Prod.mk.injEq, reduceCtorEq, and_false,
          or_false, Call.stringHeader.injEq] at hmem
        obtain ⟨-, rfl, rfl⟩ := hmem
        omega
    · rintro ⟨d, n', left, hmem, hunsafe⟩
      simp only [List.mem_cons, List.not_mem_nil, Prod.mk.injEq, reduceCtorEq, and_false,
        or_false, Call.stringHeader.injEq] at hmem
      obtain ⟨-, rfl, rfl⟩ := hmem
      refine ⟨depth, i32 n', view.size, by simp, ?_⟩
      unfold SafeString at hunsafe
      unfold i32 at *
      omega

theorem stringLaw_blocks : Blocks StringLaw where
  nil := stringLaw_silent none (by simp) (by simp)
  append := stringLaw_append
  fail e := stringLaw_silent (some e) (by simp) (by simp)
  typeByte depth := stringLaw_silent none (by simp) (by simp)
  unpackTable depth := stringLaw_silent none (by simp) (by simp)
  string view n depth hn := stringLaw_getString view depth hn
  table view declared depth := stringLaw_silent none (by simp [createTable_calls])
    (by simp [createTable_calls])

theorem stringsSafe_iff {calls : List (Nat × Call)} {e : Option Error} (h : StringLaw calls e) :
    StringsSafe calls e ↔
      ∀ depth n left, (depth, .string n left) ∈ calls.filterMap header → SafeString n left := by
  constructor
  · intro hs d n left hmem
    by_contra hunsafe
    obtain ⟨d', len, left', hpush, hneg⟩ := h.2 ⟨d, n, left, mem_header_iff.mp hmem, hunsafe⟩
    have := (hs.bounded d' len left' hpush).1
    omega
  · intro hsafe
    exact h.1 fun d n left hmem => hsafe d n left (mem_header_iff.mpr hmem)

/-- Where Lua's stack suffices: `luaL_checkstack` can only end decoding earlier. -/
theorem strings_safe_iff (data : List UInt8) :
    (StringsSafe (unpack data 0).calls (unpack data 0).error? ↔
      ∀ depth n left, (depth, .string n left) ∈ headers false data → SafeString n left) ∧
    (StringsSafe (luaUnpackOne data 0).calls (luaUnpackOne data 0).error? ↔
      ∀ depth n left, (depth, .string n left) ∈ headers true data → SafeString n left) := by
  constructor
  · rw [stringsSafe_iff (meets_unpack stringLaw_blocks data 0).1, headers_unpack]
  · rw [stringsSafe_iff (meets_luaUnpackOne stringLaw_blocks data 0).1, headers_luaUnpackOne]

/-- A header for `2 ^ 32 - 1` bytes, and nothing after it. -/
theorem not_strings_safe :
    ¬∀ data : List UInt8, StringsSafe (unpack data 0).calls (unpack data 0).error? ∧
      StringsSafe (luaUnpackOne data 0).calls (luaUnpackOne data 0).error? := by
  intro h
  have hpush : (0, .pushlstring (-1) 0) ∈ (unpack [0x25, 0xFF, 0xFF, 0xFF, 0xFF] 0).calls := by
    decide +kernel
  have := (h [0x25, 0xFF, 0xFF, 0xFF, 0xFF]).1.bounded 0 (-1) 0 hpush
  omega

/-! ## Nesting -/

/-- As deep as `pack_one` lets tables nest, and a stream that nests more deeply is an error. -/
structure NestingBounded (met : List (Nat × Header)) (calls : List (Nat × Call))
    (e : Option Error) : Prop where
  bounded : ∀ depth, (depth, .unpackTable) ∈ calls → depth ≤ MAX_DEPTH + 1
  rejected : (∃ depth, (depth, .enter) ∈ met ∧ MAX_DEPTH + 1 < depth) → ∃ err, e = some err

theorem nestingBounded_iff {calls : List (Nat × Call)} (e : Option Error) :
    NestingBounded (calls.filterMap header) calls e ↔
      ∀ depth, (depth, .enter) ∈ calls.filterMap header → depth ≤ MAX_DEPTH + 1 := by
  constructor
  · intro h depth hmem
    exact h.bounded depth (mem_header_iff.mp hmem)
  · intro h
    refine ⟨fun depth hmem => h depth (mem_header_iff.mpr hmem), ?_⟩
    rintro ⟨depth, hmem, hlt⟩
    exact absurd (h depth hmem) (by omega)

theorem nesting_bounded_iff (data : List UInt8) :
    (NestingBounded (headers false data) (unpack data 0).calls (unpack data 0).error? ↔
      ∀ depth, (depth, .enter) ∈ headers false data → depth ≤ MAX_DEPTH + 1) ∧
    (NestingBounded (headers true data) (luaUnpackOne data 0).calls (luaUnpackOne data 0).error? ↔
      ∀ depth, (depth, .enter) ∈ headers true data → depth ≤ MAX_DEPTH + 1) := by
  constructor
  · rw [← headers_unpack]
    exact nestingBounded_iff _
  · rw [← headers_luaUnpackOne]
    exact nestingBounded_iff _

/-- 34 tables, each the only element of the one around it, are unpacked. -/
theorem not_nesting_bounded :
    ¬∀ data : List UInt8,
      NestingBounded (headers false data) (unpack data 0).calls (unpack data 0).error? ∧
      NestingBounded (headers true data) (luaUnpackOne data 0).calls (luaUnpackOne data 0).error? := by
  intro h
  have hdeep : (34, .unpackTable) ∈
      (unpack (List.replicate 33 0x0E ++ 0x06 :: List.replicate 34 0) 0).calls := by
    decide +kernel
  exact absurd ((h _).1.bounded 34 hdeep) (by decide)

/-! ## The lengths of tables -/

/-- Tables are built with the length their header declares, which is no more than the bytes that
are left, and any other header is the last thing that is read. -/
structure TablesValid (calls : List (Nat × Call)) (e : Option Error) : Prop where
  built : ∀ depth (declared narr : Int) (left : Nat),
    (depth, .createtable declared narr left) ∈ calls →
      narr = declared ∧ 0 ≤ declared ∧ declared ≤ left
  rejected : ∀ depth (declared : Int) (left : Nat), (depth, .tableHeader declared left) ∈ calls →
    (declared < 0 ∨ 2 ^ 31 ≤ declared ∨ left < declared) →
      (∃ len line, e = some (.invalidStream len line)) ∧
        calls.getLast? = some (depth, .tableHeader declared left)

def ValidTable (declared : Int) (left : Nat) : Prop :=
  0 ≤ declared ∧ declared < 2 ^ 31 ∧ declared ≤ left

def TableLaw (calls : List (Nat × Call)) (_ : Option Error) : Prop :=
  ((∀ depth declared left, (depth, .tableHeader declared left) ∈ calls → ValidTable declared left) →
    ∀ depth (declared narr : Int) (left : Nat), (depth, .createtable declared narr left) ∈ calls →
      narr = declared ∧ 0 ≤ declared ∧ declared ≤ left) ∧
  ∀ depth declared left, (depth, .tableHeader declared left) ∈ calls → ¬ValidTable declared left →
    (depth, .createtable declared (i32 declared) left) ∈ calls

theorem tableLaw_append {c c' : List (Nat × Call)} {e : Option Error} (h : TableLaw c none)
    (h' : TableLaw c' e) : TableLaw (c ++ c') e := by
  obtain ⟨h1, h2⟩ := h
  obtain ⟨h1', h2'⟩ := h'
  constructor
  · intro hvalid d declared narr left hmem
    rcases List.mem_append.mp hmem with hmem | hmem
    · exact h1 (fun d n left hmem => hvalid d n left (List.mem_append_left _ hmem)) _ _ _ _ hmem
    · exact h1' (fun d n left hmem => hvalid d n left (List.mem_append_right _ hmem)) _ _ _ _ hmem
  · intro d declared left hmem hbad
    rcases List.mem_append.mp hmem with hmem | hmem
    · exact List.mem_append_left _ (h2 d declared left hmem hbad)
    · exact List.mem_append_right _ (h2' d declared left hmem hbad)

theorem tableLaw_silent {calls : List (Nat × Call)} (e : Option Error)
    (hheader : ∀ d declared left, (d, .tableHeader declared left) ∉ calls)
    (hcreate : ∀ d declared narr left, (d, .createtable declared narr left) ∉ calls) :
    TableLaw calls e :=
  ⟨fun _ d declared narr left hmem => absurd hmem (hcreate d declared narr left),
    fun d declared left hmem => absurd hmem (hheader d declared left)⟩

theorem tableLaw_createTable (view : BufferView) (declared : Int) (depth : Nat) :
    TableLaw (createTable declared (i32 declared) view depth).calls none := by
  rw [createTable_calls]
  constructor
  · intro hvalid d declared' narr left hmem
    obtain ⟨h0, h1, h2⟩ := hvalid depth declared view.size List.mem_cons_self
    simp only [List.mem_cons, List.not_mem_nil, Prod.mk.injEq, reduceCtorEq, and_false, or_false,
      false_or, Call.createtable.injEq] at hmem
    obtain ⟨-, hdeclared, hnarr, hleft⟩ := hmem
    rw [i32_of_range declared (by omega) (by omega)] at hnarr
    omega
  · intro d declared' left hmem _
    simp only [List.mem_cons, List.not_mem_nil, Prod.mk.injEq, reduceCtorEq, and_false, or_false,
      Call.tableHeader.injEq] at hmem
    obtain ⟨hd, hdeclared, hleft⟩ := hmem
    rw [hd, hdeclared, hleft]
    exact List.mem_cons_of_mem _ List.mem_cons_self

theorem tableLaw_blocks : Blocks TableLaw where
  nil := tableLaw_silent none (by simp) (by simp)
  append := tableLaw_append
  fail e := tableLaw_silent (some e) (by simp) (by simp)
  typeByte depth := tableLaw_silent none (by simp) (by simp)
  unpackTable depth := tableLaw_silent none (by simp) (by simp)
  string view n depth _ := by
    rcases getString_outcome view n depth with ⟨-, hcalls, -⟩ | ⟨-, hcalls, -⟩
    · rw [hcalls]
      exact tableLaw_silent _ (by simp) (by simp)
    · rw [hcalls]
      exact tableLaw_silent _ (by simp) (by simp)
  table := tableLaw_createTable

theorem tablesValid_iff {calls : List (Nat × Call)} {e : Option Error} (h : TableLaw calls e) :
    TablesValid calls e ↔
      ∀ depth declared left, (depth, .table declared left) ∈ calls.filterMap header →
        ValidTable declared left := by
  constructor
  · intro hs d declared left hmem
    by_contra hbad
    obtain ⟨hnarr, h0, hle⟩ := hs.built _ _ _ _ (h.2 d declared left (mem_header_iff.mp hmem) hbad)
    have hrange := (i32_eq_self_iff declared).mp hnarr
    exact hbad ⟨h0, hrange.2, hle⟩
  · intro hvalid
    have hvalid' : ∀ d declared left, (d, .tableHeader declared left) ∈ calls →
        ValidTable declared left := fun d declared left hmem =>
      hvalid d declared left (mem_header_iff.mpr hmem)
    refine ⟨h.1 hvalid', fun d declared left hmem hbad => ?_⟩
    obtain ⟨h0, h1, h2⟩ := hvalid' d declared left hmem
    omega

/-- Where Lua's stack suffices, as for strings. -/
theorem tables_valid_iff (data : List UInt8) :
    (TablesValid (unpack data 0).calls (unpack data 0).error? ↔
      ∀ depth declared left, (depth, .table declared left) ∈ headers false data →
        ValidTable declared left) ∧
    (TablesValid (luaUnpackOne data 0).calls (luaUnpackOne data 0).error? ↔
      ∀ depth declared left, (depth, .table declared left) ∈ headers true data →
        ValidTable declared left) := by
  constructor
  · rw [tablesValid_iff (meets_unpack tableLaw_blocks data 0).1, headers_unpack]
  · rw [tablesValid_iff (meets_luaUnpackOne tableLaw_blocks data 0).1, headers_luaUnpackOne]

/-- A table of length -1 is built as an empty table. -/
theorem not_tables_valid :
    ¬∀ data : List UInt8, TablesValid (unpack data 0).calls (unpack data 0).error? ∧
      TablesValid (luaUnpackOne data 0).calls (luaUnpackOne data 0).error? := by
  intro h
  have hcreate : (1, .createtable (-1) (-1) 1) ∈
      (unpack [0xFE, 0x22, 0xFF, 0xFF, 0xFF, 0xFF, 0x00] 0).calls := by
    decide +kernel
  have := ((h _).1.built 1 (-1) (-1) 1 hcreate).2.1
  omega

end HappyServer.Serialize
