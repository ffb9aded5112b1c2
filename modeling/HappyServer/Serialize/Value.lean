import Mathlib.Algebra.Group.Int.Defs
import Mathlib.Algebra.Group.Nat.Defs
import Mathlib.Data.List.Nodup

/-!
# Lua values

What the serializer sees of Lua.  A table is a reference into a `Store`, so tables may
be shared or cyclic; `pairs` are in the order of `lua_next`.  Decoded tables are new, so
they are trees.

* `Inside S v n x`: `x` lies in `v` with `n` tables around it.
* `Rep S v w`: the tree `w` is the value `v`, tables compared as finite maps.
-/

namespace HappyServer.Serialize

/-- A double is its bits, a string its bytes. -/
inductive Scalar where
  | nil
  | boolean (b : Bool)
  | integer (x : Int64)
  | number (bits : UInt64)
  | lightuserdata (p : UInt64)
  | string (bytes : List UInt8)
deriving DecidableEq

/-- The types that are not serialized. -/
inductive Kind where
  | function
  | userdata
  | thread
deriving DecidableEq

/-- As `lua_typename`. -/
def Kind.typename : Kind → String
  | .function => "function"
  | .userdata => "userdata"
  | .thread => "thread"

inductive LuaValue (τ : Type) where
  | scalar (s : Scalar)
  | table (t : τ)
  | other (kind : Kind)
deriving DecidableEq

/-! ## Keys -/

def isNaN (bits : UInt64) : Bool :=
  bits.toNat / 2 ^ 52 % 2 ^ 11 = 2047 ∧ bits.toNat % 2 ^ 52 ≠ 0

/-- The 64-bit integer a double is equal to, as `luaV_flttointns` finds it. -/
def numberToInteger (bits : UInt64) : Option Int64 :=
  let negative := 2 ^ 63 ≤ bits.toNat
  let exponent := bits.toNat / 2 ^ 52 % 2 ^ 11
  let fraction := bits.toNat % 2 ^ 52
  if exponent = 2047 then none
  else
    -- the double is `m * 2 ^ (e - 1075)`
    let m : Nat := if exponent = 0 then fraction else fraction + 2 ^ 52
    let e := max exponent 1
    if e < 1075 ∧ m % 2 ^ (1075 - e) ≠ 0 then none
    else
      let n : Nat := if e < 1075 then m / 2 ^ (1075 - e) else m * 2 ^ (e - 1075)
      let x : Int := if negative then -(n : Int) else n
      if -2 ^ 63 ≤ x ∧ x < 2 ^ 63 then some (Int64.ofInt x) else none

/-- Lua keeps no double that equals an integer as a key. -/
def Scalar.normalKey : Scalar → Scalar
  | .number bits =>
    match numberToInteger bits with
    | some x => .integer x
    | none => .number bits
  | s => s

/-- What a Lua table can be indexed with. -/
structure Scalar.IsIndex (s : Scalar) : Prop where
  not_nil : s ≠ .nil
  not_nan : ∀ bits, s = .number bits → isNaN bits = false

/-- What may be a key of a Lua table. -/
structure Scalar.IsKey (s : Scalar) : Prop where
  not_nil : s ≠ .nil
  not_nan : ∀ bits, s = .number bits → isNaN bits = false
  normal : s.normalKey = s

theorem Scalar.IsKey.isIndex {s : Scalar} (h : s.IsKey) : s.IsIndex := ⟨h.not_nil, h.not_nan⟩

/-! ## Tables -/

variable {τ : Type}

def LuaValue.isInteger : LuaValue τ → Int → Bool
  | .scalar (.integer y), x => y.toInt = x
  | _, _ => false

def rawgeti (pairs : List (LuaValue τ × LuaValue τ)) (x : Int) : LuaValue τ :=
  match pairs.find? fun kv => kv.1.isInteger x with
  | some kv => kv.2
  | none => .scalar .nil

theorem isInteger_iff {v : LuaValue τ} {x : Int} :
    v.isInteger x = true ↔ ∃ y : Int64, v = .scalar (.integer y) ∧ y.toInt = x := by
  unfold LuaValue.isInteger
  constructor
  · intro h
    split at h
    next y => exact ⟨y, rfl, by simpa using h⟩
    · simp at h
  · rintro ⟨y, rfl, rfl⟩
    simp

theorem rawgeti_of_mem {pairs : List (LuaValue τ × LuaValue τ)} {kv : LuaValue τ × LuaValue τ}
    {x : Int64} (hnodup : (pairs.map Prod.fst).Nodup) (hkv : kv ∈ pairs)
    (hkey : kv.1 = .scalar (.integer x)) : rawgeti pairs x.toInt = kv.2 := by
  unfold rawgeti
  cases hfind : pairs.find? fun kv => kv.1.isInteger x.toInt with
  | none =>
    have := List.find?_eq_none.mp hfind kv hkv
    exact absurd (isInteger_iff.mpr ⟨x, hkey, rfl⟩) this
  | some kv' =>
    have hmem := List.mem_of_find?_eq_some hfind
    have hint := List.find?_some hfind
    obtain ⟨y, hkey', hy⟩ := isInteger_iff.mp hint
    have hfst : kv'.1 = kv.1 := by rw [hkey', hkey, Int64.toInt_inj.mp hy]
    rw [List.inj_on_of_nodup_map hnodup hmem hkv hfst]

theorem mem_of_rawgeti {pairs : List (LuaValue τ × LuaValue τ)} {x : Int}
    (h : rawgeti pairs x ≠ .scalar .nil) :
    ∃ kv ∈ pairs, ∃ y : Int64, kv.1 = .scalar (.integer y) ∧ y.toInt = x ∧
      rawgeti pairs x = kv.2 := by
  unfold rawgeti at *
  cases hfind : pairs.find? fun kv => kv.1.isInteger x with
  | none =>
    rw [hfind] at h
    exact absurd rfl h
  | some kv =>
    have hint := List.find?_some hfind
    obtain ⟨y, hkey, hy⟩ := isInteger_iff.mp hint
    exact ⟨kv, List.mem_of_find?_eq_some hfind, y, hkey, hy, rfl⟩

/-- `metapairs` is what the `__pairs` metamethod yields, if there is one. -/
structure LuaTable (τ : Type) where
  rawlen : Nat
  pairs : List (LuaValue τ × LuaValue τ)
  metapairs : Option (List (LuaValue τ × LuaValue τ))
  keys_nodup : (pairs.map Prod.fst).Nodup
  keys : ∀ kv ∈ pairs, ∀ s, kv.1 = .scalar s → s.IsKey
  values : ∀ kv ∈ pairs, kv.2 ≠ .scalar .nil
  /-- `rawlen` is a border -/
  border : (rawlen = 0 ∨ rawgeti pairs rawlen ≠ .scalar .nil) ∧
    rawgeti pairs (rawlen + 1) = .scalar .nil

abbrev Store (τ : Type) := τ → LuaTable τ

inductive Inside (S : Store τ) : LuaValue τ → Nat → LuaValue τ → Prop
  | here {v} : Inside S v 0 v
  | key {t kv n x} : kv ∈ (S t).pairs → Inside S kv.1 n x → Inside S (.table t) (n + 1) x
  | value {t kv n x} : kv ∈ (S t).pairs → Inside S kv.2 n x → Inside S (.table t) (n + 1) x

/-- Everything in `v` is as `P` says and lies in fewer than `left` tables. -/
def Within (S : Store τ) (P : LuaValue τ → Prop) (left : Nat) (v : LuaValue τ) : Prop :=
  ∀ n x, Inside S v n x → n < left ∧ P x

section Within

variable {S : Store τ} {P : LuaValue τ → Prop} {left : Nat} {v : LuaValue τ} {t : τ}
  {kv : LuaValue τ × LuaValue τ}

theorem Within.self (h : Within S P left v) : P v := (h 0 v .here).2

theorem Within.pos (h : Within S P left v) : 0 < left := (h 0 v .here).1

theorem Within.key (h : Within S P (left + 1) (.table t)) (hkv : kv ∈ (S t).pairs) :
    Within S P left kv.1 := by
  intro n x hx
  obtain ⟨hn, hP⟩ := h (n + 1) x (.key hkv hx)
  exact ⟨by omega, hP⟩

theorem Within.value (h : Within S P (left + 1) (.table t)) (hkv : kv ∈ (S t).pairs) :
    Within S P left kv.2 := by
  intro n x hx
  obtain ⟨hn, hP⟩ := h (n + 1) x (.value hkv hx)
  exact ⟨by omega, hP⟩

theorem inside_scalar {s : Scalar} {n : Nat} {x : LuaValue τ} (h : Inside S (.scalar s) n x) :
    n = 0 ∧ x = .scalar s := by
  cases h with
  | here => exact ⟨rfl, rfl⟩

theorem within_scalar {s : Scalar} (hleft : 0 < left) (h : P (.scalar s)) :
    Within S P left (.scalar s) := by
  intro n x hx
  obtain ⟨rfl, rfl⟩ := inside_scalar hx
  exact ⟨hleft, h⟩

theorem within_table (h : P (.table t)) (hkeys : ∀ kv ∈ (S t).pairs, Within S P left kv.1)
    (hvalues : ∀ kv ∈ (S t).pairs, Within S P left kv.2) : Within S P (left + 1) (.table t) := by
  intro n x hx
  cases hx with
  | here => exact ⟨Nat.succ_pos _, h⟩
  | key hkv hx =>
    obtain ⟨hn, hx⟩ := hkeys _ hkv _ _ hx
    exact ⟨by omega, hx⟩
  | value hkv hx =>
    obtain ⟨hn, hx⟩ := hvalues _ hkv _ _ hx
    exact ⟨by omega, hx⟩

end Within

/-! ## Trees -/

inductive Tree where
  | scalar (s : Scalar)
  | table (entries : List (Tree × Tree))

instance : Inhabited Tree := ⟨.scalar .nil⟩

def Tree.isScalar : Tree → Scalar → Bool
  | .scalar s, s' => s = s'
  | .table _, _ => false

theorem isScalar_iff {w : Tree} {s : Scalar} : w.isScalar s = true ↔ w = .scalar s := by
  cases w with
  | scalar s' => simp [Tree.isScalar]
  | table entries => simp [Tree.isScalar]

/-- `lua_rawset` with a key that is allowed.  A decoded table is equal to no key there is. -/
def rawset (entries : List (Tree × Tree)) (k v : Tree) : List (Tree × Tree) :=
  match k with
  | .scalar s =>
    let others := entries.filter fun e => !e.1.isScalar s.normalKey
    if v.isScalar .nil then others else others ++ [(.scalar s.normalKey, v)]
  | .table _ => if v.isScalar .nil then entries else entries ++ [(k, v)]

/-- A key that is not there yet. -/
theorem rawset_fresh {entries : List (Tree × Tree)} {s : Scalar} (v : Tree)
    (hs : s.normalKey = s) (h : ∀ e ∈ entries, e.1 ≠ .scalar s) :
    rawset entries (.scalar s) v =
      if v.isScalar .nil then entries else entries ++ [(.scalar s, v)] := by
  have hall : entries.filter (fun e => !e.1.isScalar s) = entries := by
    rw [List.filter_eq_self]
    intro e he
    simpa using mt isScalar_iff.mp (h e he)
  show (if v.isScalar .nil then entries.filter (fun e => !e.1.isScalar s.normalKey)
    else entries.filter (fun e => !e.1.isScalar s.normalKey) ++ [(.scalar s.normalKey, v)]) = _
  rw [hs, hall]

/-- The pairs are assigned one after the other. -/
def assign (entries pairs : List (Tree × Tree)) : List (Tree × Tree) :=
  pairs.foldl (fun entries kv => rawset entries kv.1 kv.2) entries

/-- Different keys: tables are, whatever is in them. -/
def Apart (k k' : Tree) : Prop := ∀ s, k = .scalar s → k' ≠ .scalar s

theorem Apart.symm {k k' : Tree} (h : Apart k k') : Apart k' k := fun s hk' hk => h s hk hk'

/-- Nothing is lost where the keys are different and no value is nil. -/
theorem assign_apart {entries pairs : List (Tree × Tree)}
    (hnormal : ∀ e ∈ pairs, ∀ s, e.1 = .scalar s → s.normalKey = s)
    (hvalues : ∀ e ∈ pairs, e.2 ≠ .scalar .nil)
    (hapart : (entries ++ pairs).Pairwise fun e e' => Apart e.1 e'.1) :
    assign entries pairs = entries ++ pairs := by
  induction pairs generalizing entries with
  | nil => exact (List.append_nil entries).symm
  | cons e pairs ih =>
    obtain ⟨k, v⟩ := e
    have hv : v.isScalar .nil ≠ true := mt isScalar_iff.mp (hvalues (k, v) List.mem_cons_self)
    have hset : rawset entries k v = entries ++ [(k, v)] := by
      cases k with
      | table es =>
        unfold rawset
        rw [if_neg hv]
      | scalar s =>
        rw [rawset_fresh v (hnormal _ List.mem_cons_self s rfl), if_neg hv]
        intro e he heq
        exact (List.pairwise_append.mp hapart).2.2 e he _ List.mem_cons_self s heq rfl
    rw [List.append_cons] at hapart ⊢
    rw [← ih (fun e he => hnormal e (List.mem_cons_of_mem _ he))
      (fun e he => hvalues e (List.mem_cons_of_mem _ he)) hapart, ← hset]
    rfl

inductive Rep (S : Store τ) : LuaValue τ → Tree → Prop
  | scalar (s : Scalar) : Rep S (.scalar s) (.scalar s)
  | table {t entries} (f : LuaValue τ × LuaValue τ → Tree × Tree) :
      (∀ kv ∈ (S t).pairs, Rep S kv.1 (f kv).1) → (∀ kv ∈ (S t).pairs, Rep S kv.2 (f kv).2) →
      entries.Perm ((S t).pairs.map f) → Rep S (.table t) (.table entries)

theorem rep_scalar {S : Store τ} {s : Scalar} {w : Tree} (h : Rep S (.scalar s) w) :
    w = .scalar s := by
  cases h with
  | scalar => rfl

end HappyServer.Serialize
