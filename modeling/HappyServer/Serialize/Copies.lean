import HappyServer.Serialize.Tables

/-!
# Copies

What is read back from what was written for a value is a copy of it (`pack_copies`).  A table with a
`__pairs` metamethod becomes the table that its pairs make when they are assigned in order.

* `Throughout S P left v`: `P` holds of everything that is written of `v`, in fewer than `left` tables.
* `Suitable`: what the serializer takes.
* `Faithful`: what it takes without losing anything to `int`, written in `limit` bytes.
-/

namespace HappyServer.Serialize

open Word

variable {τ : Type}

/-- The pairs that are written. -/
def LuaTable.written (t : LuaTable τ) : List (LuaValue τ × LuaValue τ) := t.metapairs.getD t.pairs

def Throughout (S : Store τ) (P : LuaValue τ → Prop) : Nat → LuaValue τ → Prop
  | 0, _ => False
  | left + 1, v => P v ∧ ∀ t, v = .table t → ∀ kv ∈ (S t).written,
      Throughout S P left kv.1 ∧ Throughout S P left kv.2

/-- What a `__pairs` metamethod yields are pairs for a table. -/
def Suitable (S : Store τ) : LuaValue τ → Prop
  | .scalar _ => True
  | .table t => ∀ pairs, (S t).metapairs = some pairs →
      ∀ kv ∈ pairs, ∃ s : Scalar, kv.1 = .scalar s ∧ s.IsIndex
  | .other _ => False

def Faithful (S : Store τ) (limit : Nat) : LuaValue τ → Prop
  | .scalar s => s.FitsIn limit
  | .table t => (S t).metapairs = none → ArrayFits (S t).rawlen
  | .other _ => True

/-- Tables as finite maps, those with a `__pairs` metamethod as their pairs make them. -/
inductive Copy (S : Store τ) : LuaValue τ → Tree → Prop
  | scalar (s : Scalar) : Copy S (.scalar s) (.scalar s)
  | table {t entries} (f : LuaValue τ × LuaValue τ → Tree × Tree) : (S t).metapairs = none →
      (∀ kv ∈ (S t).pairs, Copy S kv.1 (f kv).1) → (∀ kv ∈ (S t).pairs, Copy S kv.2 (f kv).2) →
      entries.Perm ((S t).pairs.map f) → Copy S (.table t) (.table entries)
  | yielded {t pairs} (f : LuaValue τ × LuaValue τ → Tree × Tree) : (S t).metapairs = some pairs →
      (∀ kv ∈ pairs, Copy S kv.1 (f kv).1) → (∀ kv ∈ pairs, Copy S kv.2 (f kv).2) →
      Copy S (.table t) (.table (assign [] (pairs.map f)))

section Throughout

variable {S : Store τ} {P Q : LuaValue τ → Prop} {left : Nat} {v : LuaValue τ} {t : τ}
  {kv : LuaValue τ × LuaValue τ}

theorem Throughout.self (h : Throughout S P left v) : P v := by
  cases left with
  | zero => exact h.elim
  | succ left => exact h.1

theorem Throughout.pos (h : Throughout S P left v) : 0 < left := by
  cases left with
  | zero => exact h.elim
  | succ left => exact Nat.succ_pos left

theorem Throughout.key (h : Throughout S P (left + 1) (.table t)) (hkv : kv ∈ (S t).written) :
    Throughout S P left kv.1 := (h.2 t rfl kv hkv).1

theorem Throughout.value (h : Throughout S P (left + 1) (.table t)) (hkv : kv ∈ (S t).written) :
    Throughout S P left kv.2 := (h.2 t rfl kv hkv).2

theorem Throughout.table (h : Throughout S P left (.table t)) (hself : Q (.table t))
    (hpairs : ∀ kv ∈ (S t).written, ∀ left, Throughout S P left kv.1 → Throughout S P left kv.2 →
      Throughout S Q left kv.1 ∧ Throughout S Q left kv.2) : Throughout S Q left (.table t) := by
  cases left with
  | zero => exact h.elim
  | succ left =>
    refine ⟨hself, fun t' ht' kv hkv => ?_⟩
    obtain rfl := LuaValue.table.inj ht'
    exact hpairs kv hkv left (h.key hkv) (h.value hkv)

theorem throughout_scalar {s : Scalar} (hleft : 0 < left) (h : P (.scalar s)) :
    Throughout S P left (.scalar s) := by
  obtain ⟨left, rfl⟩ : ∃ n, left = n + 1 := ⟨left - 1, by omega⟩
  exact ⟨h, fun t ht => by cases ht⟩

/-- Where no table has a `__pairs` metamethod. -/
theorem Within.throughout (h : Within S P left v) (hP : ∀ x, P x → Q x)
    (hraw : ∀ t, P (.table t) → (S t).metapairs = none) : Throughout S Q left v := by
  induction left generalizing v with
  | zero => exact absurd h.pos (Nat.lt_irrefl 0)
  | succ left ih =>
    refine ⟨hP v h.self, fun t ht kv hkv => ?_⟩
    subst ht
    unfold LuaTable.written at hkv
    rw [hraw t h.self] at hkv
    exact ⟨ih (h.key hkv), ih (h.value hkv)⟩

end Throughout

/-- A scalar is copied to itself, and nothing else to a scalar. -/
theorem copy_scalar_iff {S : Store τ} {v : LuaValue τ} {s : Scalar} :
    Copy S v (.scalar s) ↔ v = .scalar s := by
  constructor
  · intro h
    cases h
    rfl
  · rintro rfl
    exact .scalar s

theorem copy_of_scalar {S : Store τ} {s : Scalar} {w : Tree} (h : Copy S (.scalar s) w) :
    w = .scalar s := by
  cases h with
  | scalar => rfl

theorem copy_table {S : Store τ} {t : τ} {w : Tree} (h : Copy S (.table t) w) :
    ∃ entries, w = .table entries := by
  cases h with
  | table => exact ⟨_, rfl⟩
  | yielded => exact ⟨_, rfl⟩

theorem wbTable_yielded {one : LuaValue τ → Except PackError (List UInt8)}
    {enc : LuaValue τ → List UInt8} {t : LuaTable τ} {pairs : List (LuaValue τ × LuaValue τ)}
    (hmeta : t.metapairs = some pairs)
    (hpack : ∀ kv ∈ pairs, one kv.1 = .ok (enc kv.1) ∧ one kv.2 = .ok (enc kv.2))
    (hindex : ∀ kv ∈ pairs, ∃ s : Scalar, kv.1 = .scalar s ∧ s.IsIndex) :
    wbTable one t = .ok (yieldedBytes enc pairs) := by
  have hpairs := wbMetapairs_eq enc hpack fun kv hkv => by
    obtain ⟨s, hs, hindex⟩ := hindex kv hkv
    rw [hs]
    exact fun h => hindex.not_nil (LuaValue.scalar.inj h)
  unfold wbTable wbTableMetapairs
  rw [hmeta]
  show (wbMetapairs one pairs >>= fun bs => _) = _
  rw [hpairs]
  rfl

/-- What comes back as it was. -/
def Kept (S : Store τ) (limit left : Nat) (v : LuaValue τ) : Prop :=
  Throughout S (Suitable S) left v ∧ Throughout S (Faithful S limit) left v

section Kept

variable {S : Store τ} {limit left : Nat} {t : τ} {enc : LuaValue τ → List UInt8}
  {w : LuaValue τ → Tree}

theorem kept_pairs (h : Kept S limit (left + 1) (.table t)) :
    ∀ kv ∈ (S t).written, Kept S limit left kv.1 ∧ Kept S limit left kv.2 := by
  intro kv hkv
  exact ⟨⟨h.1.key hkv, h.2.key hkv⟩, h.1.value hkv, h.2.value hkv⟩

theorem kept_scalar {v : LuaValue τ} (h : Kept S limit left v) {s : Scalar} (hs : s.FitsIn limit) :
    Kept S limit left (.scalar s) :=
  ⟨throughout_scalar h.1.pos trivial, throughout_scalar h.2.pos hs⟩

variable (hc : Coded limit (packWithin S true left) (Kept S limit left) enc w)
  (hread : ∀ v, Kept S limit left v → Copy S v (w v)) (h : Kept S limit (left + 1) (.table t))

include hc hread h

theorem copy_pairs (hmeta : (S t).metapairs = none) :
    Copy S (.table t) (.table (tableEntries w (S t))) ∧ ∀ fuel, (tableBytes enc (S t)).length ≤ fuel →
      Decodes limit (unpackOne fuel) (tableBytes enc (S t)) (.table (tableEntries w (S t))) := by
  have hpairs := kept_pairs h
  rw [LuaTable.written, hmeta] at hpairs
  have hkeys : ∀ kv ∈ (S t).pairs, Kept S limit left kv.1 := fun kv hkv => (hpairs kv hkv).1
  have hvalues : ∀ kv ∈ (S t).pairs, Kept S limit left kv.2 := fun kv hkv => (hpairs kv hkv).2
  have hnil : (S t).pairs ≠ [] → Kept S limit left (.scalar .nil) := by
    intro hne
    obtain ⟨kv, hkv⟩ := List.exists_mem_of_ne_nil _ hne
    exact kept_scalar (hkeys kv hkv) trivial
  refine ⟨.table (pairEntry w) hmeta ?_ ?_ (hc.perm hkeys hvalues hnil), ?_⟩
  · exact fun kv hkv => hread _ (hkeys kv hkv)
  · exact fun kv hkv => hread _ (hvalues kv hkv)
  · exact hc.decodes_table hkeys hvalues hnil (h.2.self hmeta)

theorem copy_yielded {pairs : List (LuaValue τ × LuaValue τ)} (hmeta : (S t).metapairs = some pairs) :
    Copy S (.table t) (.table (assign [] (pairs.map (pairEntry w)))) ∧
      ∀ fuel, (yieldedBytes enc pairs).length ≤ fuel → Decodes limit (unpackOne fuel) (yieldedBytes enc pairs)
        (.table (assign [] (pairs.map (pairEntry w)))) := by
  have hpairs := kept_pairs h
  rw [LuaTable.written, hmeta] at hpairs
  refine ⟨.yielded (pairEntry w) hmeta ?_ ?_, ?_⟩
  · exact fun kv hkv => hread _ (hpairs kv hkv).1
  · exact fun kv hkv => hread _ (hpairs kv hkv).2
  · exact hc.decodes_yielded hpairs (h.1.self pairs hmeta)

end Kept

/-- What is written for a table. -/
theorem wbTable_suitable {S : Store τ} {left : Nat} {t : τ} {enc : LuaValue τ → List UInt8}
    {one : LuaValue τ → Except PackError (List UInt8)}
    (hpack : ∀ v, Throughout S (Suitable S) left v → one v = .ok (enc v))
    (h : Throughout S (Suitable S) (left + 1) (.table t)) :
    wbTable one (S t) = .ok (match (S t).metapairs with
      | none => tableBytes enc (S t)
      | some pairs => yieldedBytes enc pairs) := by
  have hpairs : ∀ kv ∈ (S t).written, Throughout S (Suitable S) left kv.1 ∧
      Throughout S (Suitable S) left kv.2 := fun kv hkv => ⟨h.key hkv, h.value hkv⟩
  have hsuitable := h.self
  unfold LuaTable.written at hpairs
  cases hmeta : (S t).metapairs with
  | none =>
    rw [hmeta] at hpairs
    have hkeys : ∀ kv ∈ (S t).pairs, Throughout S (Suitable S) left kv.1 :=
      fun kv hkv => (hpairs kv hkv).1
    refine Coded.wbTable_eq hkeys (fun kv hkv => (hpairs kv hkv).2) (fun hne => ?_) hpack hmeta
    obtain ⟨kv, hkv⟩ := List.exists_mem_of_ne_nil _ hne
    exact throughout_scalar (hkeys kv hkv).pos trivial
  | some pairs =>
    rw [hmeta] at hpairs
    refine wbTable_yielded hmeta (fun kv hkv => ?_) (hsuitable pairs hmeta)
    exact ⟨hpack _ (hpairs kv hkv).1, hpack _ (hpairs kv hkv).2⟩

/-- What is suitable is written, and read back as a copy if nothing was lost to `int`. -/
theorem pack_copies (S : Store τ) {left : Nat} {v : LuaValue τ}
    (h : Throughout S (Suitable S) left v) :
    ∃ bytes w, (∀ heap, packWithin S heap left v = .ok bytes) ∧ bytes ≠ [] ∧
      ∀ limit, Throughout S (Faithful S limit) left v → Copy S v w ∧
        ∀ fuel, bytes.length ≤ fuel → Decodes limit (unpackOne fuel) bytes w := by
  induction left generalizing v with
  | zero => exact h.elim
  | succ left ih =>
    cases v with
    | other kind => exact h.self.elim
    | scalar s =>
      refine ⟨wbScalar s, .scalar s, fun _ => rfl, wbScalar_ne_nil s, fun limit hfits => ⟨.scalar s, ?_⟩⟩
      intro fuel hfuel
      have hpos := List.length_pos_of_ne_nil (wbScalar_ne_nil s)
      obtain ⟨n, rfl⟩ : ∃ n, fuel = n + 1 := ⟨fuel - 1, by omega⟩
      exact decodes_wbScalar s hfits.self n
    | table t =>
      have ih := fun v => @ih v
      choose! enc w hpack hpos hread using ih
      have hc : ∀ limit, Coded limit (packWithin S true left) (Kept S limit left) enc w := fun limit =>
        { pack := fun v hv => hpack v hv.1 true
          ne_nil := fun v hv => hpos v hv.1
          scalar := fun s hv => copy_of_scalar (hread _ hv.1 limit hv.2).1
          table := fun t hv => copy_table (hread _ hv.1 limit hv.2).1
          other := fun kind hv => hv.1.self
          decodes := fun v hv => (hread v hv.1 limit hv.2).2 }
      have hcopy : ∀ limit v, Kept S limit left v → Copy S v (w v) :=
        fun limit v hv => (hread v hv.1 limit hv.2).1
      have hwrite : ∀ heap, packWithin S heap (left + 1) (.table t) = _ :=
        fun heap => wbTable_suitable (fun v hv => hpack v hv heap) h
      cases hmeta : (S t).metapairs with
      | none =>
        rw [hmeta] at hwrite
        exact ⟨_, _, hwrite, tableBytes_ne_nil enc (S t),
          fun limit hfits => copy_pairs (hc limit) (hcopy limit) ⟨h, hfits⟩ hmeta⟩
      | some pairs =>
        rw [hmeta] at hwrite
        exact ⟨_, _, hwrite, List.cons_ne_nil _ _,
          fun limit hfits => copy_yielded (hc limit) (hcopy limit) ⟨h, hfits⟩ hmeta⟩

/-! ## Tables without `__pairs` -/

theorem rep_of_copy {S : Store τ} {P : LuaValue τ → Prop} {left : Nat} {v : LuaValue τ} {w : Tree}
    (h : Copy S v w) (hv : Within S P left v) (hraw : ∀ t, P (.table t) → (S t).metapairs = none) :
    Rep S v w := by
  induction h generalizing left with
  | scalar s => exact .scalar s
  | @table t entries f hmeta _ _ hperm ihk ihv =>
    obtain ⟨left, rfl⟩ : ∃ n, left = n + 1 := ⟨left - 1, by have := hv.pos; omega⟩
    exact .table f (fun kv hkv => ihk kv hkv (hv.key hkv)) (fun kv hkv => ihv kv hkv (hv.value hkv)) hperm
  | yielded f hmeta =>
    rw [hraw _ hv.self] at hmeta
    cases hmeta

theorem pack_decodes (S : Store τ) {limit left : Nat} {v : LuaValue τ} (hlimit : limit < 2 ^ 31)
    (h : Within S (fun x => Plain S x ∧ Fits S x) left v) :
    ∃ bytes w, (∀ heap, packWithin S heap left v = .ok bytes) ∧ bytes ≠ [] ∧ Rep S v w ∧
      ∀ fuel, bytes.length ≤ fuel → Decodes limit (unpackOne fuel) bytes w := by
  have hraw : ∀ t, Plain S (.table t) ∧ Fits S (.table t) → (S t).metapairs = none := fun t ht => ht.1.1
  have hsuitable : Throughout S (Suitable S) left v := by
    refine h.throughout (fun x hx => ?_) hraw
    cases x with
    | scalar s => trivial
    | other kind => exact hx.1.elim
    | table t =>
      intro pairs hpairs
      rw [hraw t hx] at hpairs
      cases hpairs
  have hfaithful : Throughout S (Faithful S limit) left v := by
    refine h.throughout (fun x hx => ?_) hraw
    cases x with
    | scalar s => exact fitsIn_of_fits hx.2 hlimit
    | other kind => trivial
    | table t => exact fun _ => hx.2
  obtain ⟨bytes, w, hpack, hne, hread⟩ := pack_copies S hsuitable
  obtain ⟨hcopy, hdecodes⟩ := hread limit hfaithful
  exact ⟨bytes, w, hpack, hne, rep_of_copy hcopy h hraw, hdecodes⟩

end HappyServer.Serialize
