import HappyServer.Serialize.ReadBack

/-!
# Reading tables back

A table is written as its array part, in order, and then the other pairs, in the order of
`lua_next`.  What is read are the same pairs, in that order (`entries_perm`).

* `Coded`: what is known of the values of a table when the table is packed.
* `pack_decodes`: what is written for a value is read as that value.
-/

namespace HappyServer.Serialize

open Traced Word

variable {τ : Type} {limit : Nat}

/-! ## The array part -/

section Table

variable {one : LuaValue τ → Except PackError (List UInt8)}
  {dec : BufferView → Decode (Tree × BufferView)} (enc : LuaValue τ → List UInt8)
  (w : LuaValue τ → Tree)

/-- What is written for the elements `i, i + 1, …`. -/
def arrayBytes (pairs : List (LuaValue τ × LuaValue τ)) (i : Nat) : Nat → List UInt8
  | 0 => []
  | n + 1 => enc (rawgeti pairs i) ++ arrayBytes pairs (i + 1) n

/-- The entries they become: nil is none. -/
def arrayEntries (pairs : List (LuaValue τ × LuaValue τ)) (i : Nat) : Nat → List (Tree × Tree)
  | 0 => []
  | n + 1 =>
    let v := w (rawgeti pairs i)
    if v.isScalar .nil then arrayEntries pairs (i + 1) n
    else (.scalar (.integer (Int64.ofNat i)), v) :: arrayEntries pairs (i + 1) n

theorem wbElements_eq {t : LuaTable τ} {i n : Nat}
    (h : ∀ j, i ≤ j → j < i + n → one (rawgeti t.pairs j) = .ok (enc (rawgeti t.pairs j))) :
    wbElements one t i n = .ok (arrayBytes enc t.pairs i n) := by
  induction n generalizing i with
  | zero => rfl
  | succ n ih =>
    have hi := h i (Nat.le_refl i) (by omega)
    have hrest := ih (i := i + 1) fun j h1 h2 => h j (by omega) (by omega)
    rw [wbElements, hi, hrest]
    rfl

/-- `lua_rawseti` of an element that comes after all that are there. -/
theorem rawset_element {entries : List (Tree × Tree)} {i : Nat} (v : Tree) (hi : i < 2 ^ 31)
    (h : ∀ e ∈ entries, ∃ j < i, e.1 = .scalar (.integer (Int64.ofNat j))) :
    rawset entries (.scalar (.integer (Int64.ofNat i))) v =
      if v.isScalar .nil then entries
      else entries ++ [(.scalar (.integer (Int64.ofNat i)), v)] := by
  apply rawset_fresh v rfl
  intro e he heq
  obtain ⟨j, hj, hkey⟩ := h e he
  rw [hkey, Tree.scalar.injEq, Scalar.integer.injEq] at heq
  have := congrArg Int64.toInt heq
  rw [Int64.toInt_ofNat_of_lt (by omega), Int64.toInt_ofNat_of_lt (by omega)] at this
  omega

theorem decodes_elements {pairs : List (LuaValue τ × LuaValue τ)} {entries : List (Tree × Tree)}
    {i n : Nat} (hn : i + n ≤ 2 ^ 31)
    (hdec : ∀ j, i ≤ j → j < i + n → Decodes limit dec (enc (rawgeti pairs j)) (w (rawgeti pairs j)))
    (h : ∀ e ∈ entries, ∃ j < i, e.1 = .scalar (.integer (Int64.ofNat j))) :
    Decodes limit (fun view => unpackElements dec view entries i n) (arrayBytes enc pairs i n)
      (entries ++ arrayEntries w pairs i n) := by
  induction n generalizing i entries with
  | zero =>
    rw [arrayEntries, List.append_nil]
    exact decodes_pure entries
  | succ n ih =>
    have hstep := rawset_element (w (rawgeti pairs i)) (show i < 2 ^ 31 by omega) h
    have hrest : ∀ entries', (∀ e ∈ entries', ∃ j < i + 1, e.1 = .scalar (.integer (Int64.ofNat j))) →
        Decodes limit (fun view => unpackElements dec view entries' (i + 1) n)
          (arrayBytes enc pairs (i + 1) n) (entries' ++ arrayEntries w pairs (i + 1) n) :=
      fun entries' h' => ih (by omega) (fun j h1 h2 => hdec j (by omega) (by omega)) h'
    have hkeys : ∀ e ∈ rawset entries (.scalar (.integer (Int64.ofNat i))) (w (rawgeti pairs i)),
        ∃ j < i + 1, e.1 = .scalar (.integer (Int64.ofNat j)) := by
      intro e he
      rw [hstep] at he
      split at he
      · obtain ⟨j, hj, hkey⟩ := h e he
        exact ⟨j, by omega, hkey⟩
      · rcases List.mem_append.mp he with he | he
        · obtain ⟨j, hj, hkey⟩ := h e he
          exact ⟨j, by omega, hkey⟩
        · rw [List.mem_singleton.mp he]
          exact ⟨i, by omega, rfl⟩
    have hall : rawset entries (.scalar (.integer (Int64.ofNat i))) (w (rawgeti pairs i)) ++
        arrayEntries w pairs (i + 1) n = entries ++ arrayEntries w pairs i (n + 1) := by
      rw [hstep, arrayEntries]
      split
      · rfl
      · rw [List.append_assoc, List.singleton_append]
    have hnext := hrest _ hkeys
    rw [hall] at hnext
    exact decodes_bind (f := fun v view => unpackElements dec view
      (rawset entries (.scalar (.integer (Int64.ofNat i))) v) (i + 1) n)
      (hdec i (Nat.le_refl i) (by omega)) hnext

theorem mem_arrayEntries {pairs : List (LuaValue τ × LuaValue τ)} {i n : Nat} {e : Tree × Tree} :
    e ∈ arrayEntries w pairs i n ↔ ∃ j, i ≤ j ∧ j < i + n ∧ w (rawgeti pairs j) ≠ .scalar .nil ∧
      e = (.scalar (.integer (Int64.ofNat j)), w (rawgeti pairs j)) := by
  induction n generalizing i with
  | zero =>
    rw [arrayEntries]
    constructor
    · intro h
      exact absurd h List.not_mem_nil
    · rintro ⟨j, h1, h2, -⟩
      omega
  | succ n ih =>
    have htail : (∃ j, i + 1 ≤ j ∧ j < i + 1 + n ∧ w (rawgeti pairs j) ≠ .scalar .nil ∧
        e = (.scalar (.integer (Int64.ofNat j)), w (rawgeti pairs j))) →
        ∃ j, i ≤ j ∧ j < i + (n + 1) ∧ w (rawgeti pairs j) ≠ .scalar .nil ∧
          e = (.scalar (.integer (Int64.ofNat j)), w (rawgeti pairs j)) := by
      rintro ⟨j, h1, h2, hj⟩
      exact ⟨j, by omega, by omega, hj⟩
    rw [arrayEntries]
    split
    next hnil =>
      rw [ih]
      refine ⟨htail, ?_⟩
      rintro ⟨j, h1, h2, hne, rfl⟩
      by_cases hj : j = i
      · subst hj
        exact absurd (isScalar_iff.mp hnil) hne
      · exact ⟨j, by omega, by omega, hne, rfl⟩
    next hnil =>
      rw [List.mem_cons, ih]
      constructor
      · rintro (rfl | h)
        · exact ⟨i, by omega, by omega, mt isScalar_iff.mpr hnil, rfl⟩
        · exact htail h
      · rintro ⟨j, h1, h2, hne, rfl⟩
        by_cases hj : j = i
        · subst hj
          exact Or.inl rfl
        · exact Or.inr ⟨j, by omega, by omega, hne, rfl⟩

theorem nodup_arrayEntries {pairs : List (LuaValue τ × LuaValue τ)} {i n : Nat}
    (hn : i + n ≤ 2 ^ 31) : (arrayEntries w pairs i n).Nodup := by
  induction n generalizing i with
  | zero => exact List.nodup_nil
  | succ n ih =>
    rw [arrayEntries]
    split
    · exact ih (by omega)
    · rw [List.nodup_cons]
      refine ⟨?_, ih (by omega)⟩
      rw [mem_arrayEntries]
      rintro ⟨j, h1, h2, -, heq⟩
      rw [Prod.mk.injEq, Tree.scalar.injEq, Scalar.integer.injEq] at heq
      have := congrArg Int64.toInt heq.1
      rw [Int64.toInt_ofNat_of_lt (by omega), Int64.toInt_ofNat_of_lt (by omega)] at this
      omega

/-! ## The other pairs -/

def pairBytes (pairs : List (LuaValue τ × LuaValue τ)) : List UInt8 :=
  pairs.flatMap fun kv => enc kv.1 ++ enc kv.2

theorem pairBytes_cons (kv : LuaValue τ × LuaValue τ) (pairs : List (LuaValue τ × LuaValue τ)) :
    pairBytes enc (kv :: pairs) = enc kv.1 ++ (enc kv.2 ++ pairBytes enc pairs) := by
  rw [pairBytes, List.flatMap_cons, List.append_assoc, pairBytes]

def pairEntry (kv : LuaValue τ × LuaValue τ) : Tree × Tree := (w kv.1, w kv.2)

theorem wbTableHash_eq {arraySize : Int} {pairs : List (LuaValue τ × LuaValue τ)}
    (h : ∀ kv ∈ pairs, one kv.1 = .ok (enc kv.1) ∧ one kv.2 = .ok (enc kv.2)) :
    wbTableHash one arraySize pairs =
      .ok (pairBytes enc (pairs.filter fun kv => !inArray arraySize kv.1) ++ wbNil) := by
  induction pairs with
  | nil => rfl
  | cons kv pairs ih =>
    obtain ⟨hk, hv⟩ := h kv List.mem_cons_self
    have hrest := ih fun kv hkv => h kv (List.mem_cons_of_mem _ hkv)
    unfold wbTableHash
    split
    next hin => rw [hrest, List.filter_cons_of_neg (by simp [hin])]
    next hin =>
      rw [hk, hv, hrest, List.filter_cons_of_pos (by simp [hin]), pairBytes_cons, List.append_assoc,
        List.append_assoc, ← List.append_assoc (enc kv.1)]
      rfl

theorem wbMetapairs_eq {pairs : List (LuaValue τ × LuaValue τ)}
    (h : ∀ kv ∈ pairs, one kv.1 = .ok (enc kv.1) ∧ one kv.2 = .ok (enc kv.2))
    (hnil : ∀ kv ∈ pairs, kv.1 ≠ .scalar .nil) :
    wbMetapairs one pairs = .ok (pairBytes enc pairs ++ wbNil) := by
  induction pairs with
  | nil => rfl
  | cons kv pairs ih =>
    obtain ⟨k, v⟩ := kv
    obtain ⟨hk, hv⟩ := h (k, v) List.mem_cons_self
    have hrest := ih (fun kv hkv => h kv (List.mem_cons_of_mem _ hkv))
      fun kv hkv => hnil kv (List.mem_cons_of_mem _ hkv)
    have hne : k ≠ .scalar .nil := hnil (k, v) List.mem_cons_self
    rw [wbMetapairs]
    · rw [hk, hv, hrest, pairBytes_cons, ← List.append_assoc, List.append_assoc]
      rfl
    · exact fun heq => hne heq

theorem decodes_pairsEnd {bs : List UInt8} (fuel : Nat) (entries : List (Tree × Tree))
    (hnil : Decodes limit dec bs (.scalar .nil)) :
    Decodes limit (fun view => unpackPairs dec (fuel + 1) view entries) bs entries := by
  let next (k : Tree) (view : BufferView) : Decode (List (Tree × Tree) × BufferView) :=
    if k.isScalar .nil then pure (entries, view)
    else dec view >>= fun r =>
      if k.isNaN then fail .indexNaN else unpackPairs dec fuel r.2 (rawset entries k r.1)
  have hnext : Decodes limit (next (.scalar .nil)) [] entries := decodes_pure entries
  have := decodes_bind hnil hnext
  rwa [List.append_nil] at this

theorem decodes_pairsStep {bk bv bs : List UInt8} {k v : Tree} {fuel : Nat}
    {entries entries' : List (Tree × Tree)} (hknil : k.isScalar .nil = false)
    (hknan : k.isNaN = false) (hk : Decodes limit dec bk k) (hv : Decodes limit dec bv v)
    (hrest : Decodes limit (fun view => unpackPairs dec fuel view (rawset entries k v)) bs entries') :
    Decodes limit (fun view => unpackPairs dec (fuel + 1) view entries) (bk ++ (bv ++ bs)) entries' := by
  let set (k v : Tree) (view : BufferView) : Decode (List (Tree × Tree) × BufferView) :=
    if k.isNaN then fail .indexNaN else unpackPairs dec fuel view (rawset entries k v)
  let next (k : Tree) (view : BufferView) : Decode (List (Tree × Tree) × BufferView) :=
    if k.isScalar .nil then pure (entries, view)
    else dec view >>= fun r => set k r.1 r.2
  have hset : Decodes limit (set k v) bs entries' := by
    unfold set
    simp only [hknan, Bool.false_eq_true, if_false]
    exact hrest
  have hnext : Decodes limit (next k) (bv ++ bs) entries' := by
    unfold next
    simp only [hknil, Bool.false_eq_true, if_false]
    exact decodes_bind hv hset
  exact decodes_bind hk hnext

theorem decodes_pairs {pairs : List (LuaValue τ × LuaValue τ)} {entries : List (Tree × Tree)}
    {fuel : Nat} (hfuel : pairs.length < fuel) (hnil : Decodes limit dec wbNil (.scalar .nil))
    (hdec : ∀ kv ∈ pairs, Decodes limit dec (enc kv.1) (w kv.1) ∧ Decodes limit dec (enc kv.2) (w kv.2))
    (hkeys : ∀ kv ∈ pairs, w kv.1 ≠ .scalar .nil ∧ (w kv.1).isNaN = false) :
    Decodes limit (fun view => unpackPairs dec fuel view entries) (pairBytes enc pairs ++ wbNil)
      (assign entries (pairs.map (pairEntry w))) := by
  induction pairs generalizing entries fuel with
  | nil =>
    obtain ⟨fuel, rfl⟩ : ∃ n, fuel = n + 1 := ⟨fuel - 1, by omega⟩
    exact decodes_pairsEnd fuel entries hnil
  | cons kv pairs ih =>
    obtain ⟨fuel, rfl⟩ : ∃ n, fuel = n + 1 := ⟨fuel - 1, by omega⟩
    obtain ⟨hdk, hdv⟩ := hdec kv List.mem_cons_self
    obtain ⟨hknil, hknan⟩ := hkeys kv List.mem_cons_self
    have hknil' : (w kv.1).isScalar .nil = false := by
      simpa using mt isScalar_iff.mp hknil
    have hrest := @ih (rawset entries (w kv.1) (w kv.2)) fuel
      (by rw [List.length_cons] at hfuel; omega)
      (fun kv hkv => hdec kv (List.mem_cons_of_mem _ hkv))
      (fun kv hkv => hkeys kv (List.mem_cons_of_mem _ hkv))
    rw [pairBytes_cons, List.append_assoc, List.append_assoc]
    exact decodes_pairsStep hknil' hknan hdk hdv hrest

/-! ## Tables -/

theorem pairEntry_inj (t : LuaTable τ)
    (hkeys : ∀ kv ∈ t.pairs, ∀ s, kv.1 = .scalar s → w kv.1 = .scalar s)
    {x y : LuaValue τ × LuaValue τ} {s s' : Scalar} (hx : x ∈ t.pairs) (hy : y ∈ t.pairs)
    (hxs : x.1 = .scalar s) (hys : y.1 = .scalar s') (heq : pairEntry w x = pairEntry w y) :
    x = y := by
  have hfst : w x.1 = w y.1 := congrArg Prod.fst heq
  rw [hkeys x hx s hxs, hkeys y hy s' hys, Tree.scalar.injEq] at hfst
  exact List.inj_on_of_nodup_map t.keys_nodup hx hy (by rw [hxs, hys, hfst])

/-- The elements that are read are the pairs whose key is in the array part. -/
theorem arrayEntries_perm (t : LuaTable τ) {arraySize : Int} (hsize : arraySize < 2 ^ 31)
    (hnil : 0 < arraySize → w (.scalar .nil) = .scalar .nil)
    (hkeys : ∀ kv ∈ t.pairs, ∀ s, kv.1 = .scalar s → w kv.1 = .scalar s)
    (hvalues : ∀ kv ∈ t.pairs, w kv.2 ≠ .scalar .nil) :
    (arrayEntries w t.pairs 1 arraySize.toNat).Perm
      ((t.pairs.filter fun kv => inArray arraySize kv.1).map (pairEntry w)) := by
  have hnodup : t.pairs.Nodup := List.Nodup.of_map _ t.keys_nodup
  have hmap : ((t.pairs.filter fun kv => inArray arraySize kv.1).map (pairEntry w)).Nodup := by
    refine List.Nodup.map_on (fun x hx y hy heq => ?_) (hnodup.filter _)
    obtain ⟨hx, hxin⟩ := List.mem_filter.mp hx
    obtain ⟨hy, hyin⟩ := List.mem_filter.mp hy
    obtain ⟨_, hxs, -⟩ := inArray_iff.mp hxin
    obtain ⟨_, hys, -⟩ := inArray_iff.mp hyin
    exact pairEntry_inj w t hkeys hx hy hxs hys heq
  rw [List.perm_ext_iff_of_nodup (nodup_arrayEntries w (by omega)) hmap]
  intro e
  rw [mem_arrayEntries, List.mem_map]
  constructor
  · rintro ⟨j, h1, h2, hne, rfl⟩
    have hget : rawgeti t.pairs j ≠ .scalar .nil := by
      intro heq
      rw [heq] at hne
      exact hne (hnil (by omega))
    obtain ⟨kv, hkv, x, hkey, hx, hval⟩ := mem_of_rawgeti hget
    refine ⟨kv, List.mem_filter.mpr ⟨hkv, ?_⟩, ?_⟩
    · rw [hkey]
      show decide (0 < x.toInt ∧ x.toInt ≤ arraySize) = true
      rw [decide_eq_true_eq]
      omega
    · have hj : Int64.ofNat j = x := by
        apply Int64.toInt_inj.mp
        rw [Int64.toInt_ofNat_of_lt (by omega), hx]
      rw [pairEntry, hkeys kv hkv _ hkey, hval, hj]
  · rintro ⟨kv, hkv, rfl⟩
    obtain ⟨hkv, hin⟩ := List.mem_filter.mp hkv
    obtain ⟨x, hkey, hpos, hle⟩ := inArray_iff.mp hin
    have hget := rawgeti_of_mem t.keys_nodup hkv hkey
    have hj : ((x.toInt.toNat : Nat) : Int) = x.toInt := Int.toNat_of_nonneg (by omega)
    have hx : Int64.ofNat x.toInt.toNat = x := by
      apply Int64.toInt_inj.mp
      rw [Int64.toInt_ofNat_of_lt (by omega), hj]
    refine ⟨x.toInt.toNat, by omega, by omega, ?_, ?_⟩
    · rw [hj, hget]
      exact hvalues kv hkv
    · rw [hj, hget, hx, pairEntry, hkeys kv hkv _ hkey]

/-- The entries that are read are the pairs of the table. -/
theorem entries_perm (t : LuaTable τ) {arraySize : Int} (hsize : arraySize < 2 ^ 31)
    (hnil : 0 < arraySize → w (.scalar .nil) = .scalar .nil)
    (hkeys : ∀ kv ∈ t.pairs, ∀ s, kv.1 = .scalar s → w kv.1 = .scalar s)
    (hvalues : ∀ kv ∈ t.pairs, w kv.2 ≠ .scalar .nil) :
    (arrayEntries w t.pairs 1 arraySize.toNat ++
      (t.pairs.filter fun kv => !inArray arraySize kv.1).map (pairEntry w)).Perm
      (t.pairs.map (pairEntry w)) := by
  have harray := arrayEntries_perm w t hsize hnil hkeys hvalues
  have hsplit : ((t.pairs.filter fun kv => inArray arraySize kv.1) ++
      t.pairs.filter fun kv => !inArray arraySize kv.1).Perm t.pairs := List.filter_append_perm _ _
  have := hsplit.map (pairEntry w)
  rw [List.map_append] at this
  exact (harray.append_right _).trans this

theorem length_arrayBytes {pairs : List (LuaValue τ × LuaValue τ)} {i n j : Nat} (h1 : i ≤ j)
    (h2 : j < i + n) : (enc (rawgeti pairs j)).length ≤ (arrayBytes enc pairs i n).length := by
  induction n generalizing i with
  | zero => omega
  | succ n ih =>
    rw [arrayBytes, List.length_append]
    by_cases hj : j = i
    · subst hj
      omega
    · have := ih (show i + 1 ≤ j by omega) (by omega)
      omega

theorem length_pairBytes {pairs : List (LuaValue τ × LuaValue τ)} {kv : LuaValue τ × LuaValue τ}
    (h : kv ∈ pairs) :
    (enc kv.1).length + (enc kv.2).length ≤ (pairBytes enc pairs).length := by
  induction pairs with
  | nil => exact absurd h List.not_mem_nil
  | cons kv' pairs ih =>
    rw [pairBytes_cons, List.length_append, List.length_append]
    rcases List.mem_cons.mp h with rfl | h
    · omega
    · have := ih h
      omega

theorem length_le_pairBytes {pairs : List (LuaValue τ × LuaValue τ)}
    (h : ∀ kv ∈ pairs, enc kv.1 ≠ []) : pairs.length ≤ (pairBytes enc pairs).length := by
  induction pairs with
  | nil => exact Nat.zero_le _
  | cons kv pairs ih =>
    have := ih fun kv hkv => h kv (List.mem_cons_of_mem _ hkv)
    have hpos := List.length_pos_of_ne_nil (h kv List.mem_cons_self)
    rw [pairBytes_cons, List.length_append, List.length_append, List.length_cons]
    omega

end Table

/-- What the serializer takes: no `__pairs`, and no keys that are tables. -/
def Plain (S : Store τ) : LuaValue τ → Prop
  | .scalar _ => True
  | .table t => (S t).metapairs = none ∧ ∀ kv ∈ (S t).pairs, ∃ s, kv.1 = .scalar s
  | .other _ => False

/-- What it takes without losing anything to `int`. -/
def Fits (S : Store τ) : LuaValue τ → Prop
  | .scalar s => s.Fits
  | .table t => ArrayFits (S t).rawlen
  | .other _ => True

theorem wbScalar_ne_nil (s : Scalar) : wbScalar s ≠ [] := by
  cases s with
  | integer x =>
    obtain ⟨cookie, body, h, -, -⟩ := wbInteger_spec 0 x.toInt x.le_toInt x.toInt_lt
    rw [wbScalar, h]
    exact List.cons_ne_nil _ _
  | string bytes =>
    rw [wbScalar, wbString]
    split
    · exact List.cons_ne_nil _ _
    split <;> exact List.cons_ne_nil _ _
  | _ => exact List.cons_ne_nil _ _

/-- On the values that `P` holds of, `enc` is what is written and `w` is what is read back. -/
structure Coded (limit : Nat) (one : LuaValue τ → Except PackError (List UInt8))
    (P : LuaValue τ → Prop) (enc : LuaValue τ → List UInt8) (w : LuaValue τ → Tree) : Prop where
  pack : ∀ v, P v → one v = .ok (enc v)
  ne_nil : ∀ v, P v → enc v ≠ []
  scalar : ∀ s, P (.scalar s) → w (.scalar s) = .scalar s
  table : ∀ t, P (.table t) → ∃ entries, w (.table t) = .table entries
  other : ∀ kind, ¬P (.other kind)
  decodes : ∀ v, P v → ∀ fuel, (enc v).length ≤ fuel → Decodes limit (unpackOne fuel) (enc v) (w v)

def tableBytes (enc : LuaValue τ → List UInt8) (t : LuaTable τ) : List UInt8 :=
  wbArrayHeader (i32 t.rawlen) ++ (arrayBytes enc t.pairs 1 (i32 t.rawlen).toNat ++
    (pairBytes enc (t.pairs.filter fun kv => !inArray (i32 t.rawlen) kv.1) ++ wbNil))

theorem tableBytes_ne_nil (enc : LuaValue τ → List UInt8) (t : LuaTable τ) :
    tableBytes enc t ≠ [] := by
  simp [tableBytes, wbNil]

/-- What is written for the pairs of a `__pairs` metamethod. -/
def yieldedBytes (enc : LuaValue τ → List UInt8) (pairs : List (LuaValue τ × LuaValue τ)) :
    List UInt8 := combineType TYPE_TABLE 0 :: (pairBytes enc pairs ++ wbNil)

def tableEntries (w : LuaValue τ → Tree) (t : LuaTable τ) : List (Tree × Tree) :=
  arrayEntries w t.pairs 1 (i32 t.rawlen).toNat ++
    (t.pairs.filter fun kv => !inArray (i32 t.rawlen) kv.1).map (pairEntry w)

namespace Coded

variable {one : LuaValue τ → Except PackError (List UInt8)} {P : LuaValue τ → Prop}
  {enc : LuaValue τ → List UInt8} {w : LuaValue τ → Tree} (hc : Coded limit one P enc w)
  {t : LuaTable τ}
  (hkeys : ∀ kv ∈ t.pairs, P kv.1) (hvalues : ∀ kv ∈ t.pairs, P kv.2)
  (hnil : t.pairs ≠ [] → P (.scalar .nil))

include hc

/-- Only a scalar becomes a scalar. -/
theorem scalar_iff {v : LuaValue τ} {s : Scalar} (hv : P v) : w v = .scalar s ↔ v = .scalar s := by
  cases v with
  | scalar s' =>
    rw [hc.scalar s' hv, Tree.scalar.injEq, LuaValue.scalar.injEq]
  | table t =>
    obtain ⟨entries, h⟩ := hc.table t hv
    rw [h]
    constructor
    · intro h
      cases h
    · intro h
      cases h
  | other kind => exact absurd hv (hc.other kind)

include hvalues in
theorem values : ∀ kv ∈ t.pairs, w kv.2 ≠ .scalar .nil := by
  intro kv hkv heq
  exact t.values kv hkv ((hc.scalar_iff (hvalues kv hkv)).mp heq)

/-- What can be an index can be assigned to. -/
theorem key_allowed {v : LuaValue τ} (hv : P v) (hkey : ∀ s, v = .scalar s → s.IsIndex) :
    w v ≠ .scalar .nil ∧ (w v).isNaN = false := by
  cases v with
  | scalar s =>
    have hs := hkey s rfl
    rw [hc.scalar s hv]
    refine ⟨fun h => hs.not_nil (Tree.scalar.inj h), ?_⟩
    cases s with
    | number bits => exact hs.not_nan bits rfl
    | _ => rfl
  | table t =>
    obtain ⟨entries, h⟩ := hc.table t hv
    rw [h]
    exact ⟨nofun, rfl⟩
  | other kind => exact absurd hv (hc.other kind)

include hkeys in
/-- Different keys stay different. -/
theorem apart_pairs : (t.pairs.map (pairEntry w)).Pairwise fun e e' => Apart e.1 e'.1 := by
  rw [List.pairwise_map]
  have hne : t.pairs.Pairwise fun kv kv' => kv.1 ≠ kv'.1 := List.pairwise_map.mp t.keys_nodup
  refine hne.imp_of_mem fun {kv kv'} hkv hkv' hne s hk hk' => hne ?_
  rw [(hc.scalar_iff (hkeys kv hkv)).mp hk, (hc.scalar_iff (hkeys kv' hkv')).mp hk']

omit hc in
include hvalues hnil in
/-- An element is a value of the table, or nil. -/
theorem element {j : Nat} (h1 : 1 ≤ j) (h2 : j < 1 + (i32 t.rawlen).toNat) :
    P (rawgeti t.pairs j) := by
  by_cases h : rawgeti t.pairs j = .scalar .nil
  · obtain ⟨kv, hkv⟩ := exists_pair (t := t) (by omega)
    rw [h]
    exact hnil (List.ne_nil_of_mem hkv)
  · obtain ⟨kv, hkv, x, -, -, hval⟩ := mem_of_rawgeti h
    rw [hval]
    exact hvalues kv hkv

include hkeys hvalues hnil

omit hc in
theorem wbTable_eq (hpack : ∀ v, P v → one v = .ok (enc v)) (hmeta : t.metapairs = none) :
    wbTable one t = .ok (tableBytes enc t) := by
  have helements : wbElements one t 1 (i32 t.rawlen).toNat =
      .ok (arrayBytes enc t.pairs 1 (i32 t.rawlen).toNat) :=
    wbElements_eq enc fun j h1 h2 => hpack _ (element hvalues hnil h1 h2)
  have harray : wbTableArray one t = .ok (wbArrayHeader (i32 t.rawlen) ++
      arrayBytes enc t.pairs 1 (i32 t.rawlen).toNat, i32 t.rawlen) := by
    simp only [wbTableArray, helements]
    rfl
  have hhash : wbTableHash one (i32 t.rawlen) t.pairs = _ := wbTableHash_eq enc fun kv hkv =>
    ⟨hpack _ (hkeys kv hkv), hpack _ (hvalues kv hkv)⟩
  unfold wbTable
  simp only [hmeta, harray]
  show (wbTableHash one _ t.pairs >>= fun bh => _) = _
  rw [hhash, tableBytes, ← List.append_assoc]
  rfl

theorem perm : (tableEntries w t).Perm (t.pairs.map (pairEntry w)) := by
  have hrange := i32_range t.rawlen
  refine entries_perm w t hrange.2 (fun hpos => ?_) ?_ (hc.values hvalues)
  · obtain ⟨kv, hkv⟩ := exists_pair (t := t) (by omega)
    exact hc.scalar _ (hnil (List.ne_nil_of_mem hkv))
  · intro kv hkv s hs
    exact (hc.scalar_iff (hkeys kv hkv)).mpr hs

theorem apart : (tableEntries w t).Pairwise fun e e' => Apart e.1 e'.1 :=
  ((hc.perm hkeys hvalues hnil).pairwise_iff fun {_ _} h => h.symm).mpr (hc.apart_pairs hkeys)

theorem decodes_table (hfits : ArrayFits t.rawlen) (fuel : Nat)
    (hfuel : (tableBytes enc t).length ≤ fuel) :
    Decodes limit (unpackOne fuel) (tableBytes enc t) (.table (tableEntries w t)) := by
  have hrange := i32_range t.rawlen
  obtain ⟨v, cookie, body, declared, arraySize, hheader, hcookie, hsize, hlength⟩ :=
    wbArrayHeader_spec limit _ hfits
  have hnilbytes : wbNil.length = 1 := rfl
  unfold tableBytes at hfuel ⊢
  rw [hheader] at hfuel ⊢
  simp only [List.length_append, List.length_cons, hnilbytes] at hfuel
  obtain ⟨n, rfl⟩ : ∃ n, fuel = n + 1 := ⟨fuel - 1, by omega⟩
  have helements : Decodes limit (fun view => unpackElements (unpackOne n) view [] 1 arraySize.toNat)
      (arrayBytes enc t.pairs 1 (i32 t.rawlen).toNat)
      (arrayEntries w t.pairs 1 (i32 t.rawlen).toNat) := by
    rw [hsize, ← List.nil_append (arrayEntries w t.pairs 1 (i32 t.rawlen).toNat)]
    refine decodes_elements enc w (by omega) (fun j h1 h2 => ?_) fun e he =>
      absurd he List.not_mem_nil
    have := @length_arrayBytes _ enc t.pairs _ _ _ h1 h2
    exact hc.decodes _ (element hvalues hnil h1 h2) n (by omega)
  have hmem : ∀ kv ∈ t.pairs.filter fun kv => !inArray (i32 t.rawlen) kv.1, kv ∈ t.pairs :=
    fun kv hkv => List.mem_of_mem_filter hkv
  have hall : assign (arrayEntries w t.pairs 1 (i32 t.rawlen).toNat)
      ((t.pairs.filter fun kv => !inArray (i32 t.rawlen) kv.1).map (pairEntry w)) = tableEntries w t := by
    refine assign_apart (fun e he s hs => ?_) (fun e he => ?_) (hc.apart hkeys hvalues hnil)
    · obtain ⟨kv, hkv, rfl⟩ := List.mem_map.mp he
      have hkey := (hc.scalar_iff (hkeys kv (hmem kv hkv))).mp hs
      exact (t.keys kv (hmem kv hkv) s hkey).normal
    · obtain ⟨kv, hkv, rfl⟩ := List.mem_map.mp he
      exact hc.values hvalues kv (hmem kv hkv)
  have hpairs : Decodes limit (fun view => unpackPairs (unpackOne n) n view
        (arrayEntries w t.pairs 1 (i32 t.rawlen).toNat))
      (pairBytes enc (t.pairs.filter fun kv => !inArray (i32 t.rawlen) kv.1) ++ wbNil)
      (tableEntries w t) := by
    have hle := length_le_pairBytes enc fun kv hkv => hc.ne_nil _ (hkeys kv (hmem kv hkv))
    rw [← hall]
    refine decodes_pairs enc w (by omega) ?_ (fun kv hkv => ?_) fun kv hkv => ?_
    · obtain ⟨m, rfl⟩ : ∃ m, n = m + 1 := ⟨n - 1, by omega⟩
      exact decodes_wbNil m
    · have := length_pairBytes enc hkv
      exact ⟨hc.decodes _ (hkeys kv (hmem kv hkv)) n (by omega),
        hc.decodes _ (hvalues kv (hmem kv hkv)) n (by omega)⟩
    · refine hc.key_allowed (hkeys kv (hmem kv hkv)) fun s hs => ?_
      exact (t.keys kv (hmem kv hkv) s hs).isIndex
  apply decodes_unpackOne (by decide) hcookie
  exact decodes_unpackTable hlength helements hpairs

omit hkeys hvalues hnil

/-- The pairs of a `__pairs` metamethod, of which none is an element. -/
theorem decodes_yielded {pairs : List (LuaValue τ × LuaValue τ)} (hpairs : ∀ kv ∈ pairs, P kv.1 ∧ P kv.2)
    (hindex : ∀ kv ∈ pairs, ∃ s : Scalar, kv.1 = .scalar s ∧ s.IsIndex) (fuel : Nat)
    (hfuel : (yieldedBytes enc pairs).length ≤ fuel) :
    Decodes limit (unpackOne fuel) (yieldedBytes enc pairs)
      (.table (assign [] (pairs.map (pairEntry w)))) := by
  have hnilbytes : wbNil.length = 1 := rfl
  unfold yieldedBytes at hfuel ⊢
  simp only [List.length_append, List.length_cons, hnilbytes] at hfuel
  obtain ⟨n, rfl⟩ : ∃ n, fuel = n + 1 := ⟨fuel - 1, by omega⟩
  have hle := length_le_pairBytes enc fun kv hkv => hc.ne_nil _ (hpairs kv hkv).1
  have hassigned : Decodes limit (fun view => unpackPairs (unpackOne n) n view [])
      (pairBytes enc pairs ++ wbNil) (assign [] (pairs.map (pairEntry w))) := by
    refine decodes_pairs enc w (by omega) ?_ (fun kv hkv => ?_) fun kv hkv => ?_
    · obtain ⟨m, rfl⟩ : ∃ m, n = m + 1 := ⟨n - 1, by omega⟩
      exact decodes_wbNil m
    · have := length_pairBytes enc hkv
      exact ⟨hc.decodes _ (hpairs kv hkv).1 n (by omega), hc.decodes _ (hpairs kv hkv).2 n (by omega)⟩
    · obtain ⟨s, hs, hindex⟩ := hindex kv hkv
      refine hc.key_allowed (hpairs kv hkv).1 fun s' hs' => ?_
      rw [hs, LuaValue.scalar.injEq] at hs'
      exact hs' ▸ hindex
  have hlength : Decodes limit (fun view => tableLength view 0) [] ((0 : Int), (0 : Int)) := by
    simp only [tableLength_short _ (show 0 < 31 by decide)]
    exact decodes_pure ((0 : Int), (0 : Int))
  have helements :
      Decodes limit (fun view => unpackElements (unpackOne n) view [] 1 (0 : Int).toNat) [] [] :=
    decodes_pure []
  have htable := decodes_unpackTable hlength helements hassigned
  exact decodes_unpackOne (by decide) rfl htable

end Coded

end HappyServer.Serialize
