import HappyServer.Serialize.StackDiscipline

/-!
# What is accepted (`pack`, `packsafe`)

Where no table has a `__pairs` metamethod, packing succeeds exactly if everything in the arguments is of
a type that is serialized, and in at most `MAX_DEPTH` tables.

    packWithin left v = .ok _  ↔  Within S Supported left v       (packWithin_ok_iff)

Tables may be cyclic: what lies in one then lies in any number of tables, and is refused.
-/

namespace HappyServer.Serialize

open Word

variable {τ : Type} {heap : Bool}

def Supported (x : LuaValue τ) : Prop := ∀ kind, x ≠ .other kind

/-- No table that is reached has a `__pairs` metamethod. -/
def Raw (S : Store τ) (v : LuaValue τ) : Prop := ∀ n t, Inside S v n (.table t) → (S t).metapairs = none

theorem supported_scalar (s : Scalar) : Supported (.scalar s : LuaValue τ) := by
  intro kind h
  cases h

section Raw

variable {S : Store τ} {t : τ} {kv : LuaValue τ × LuaValue τ}

theorem Raw.self (h : Raw S (.table t)) : (S t).metapairs = none := h 0 t .here

theorem Raw.key (h : Raw S (.table t)) (hkv : kv ∈ (S t).pairs) : Raw S kv.1 :=
  fun n t' ht' => h (n + 1) t' (.key hkv ht')

theorem Raw.value (h : Raw S (.table t)) (hkv : kv ∈ (S t).pairs) : Raw S kv.2 :=
  fun n t' ht' => h (n + 1) t' (.value hkv ht')

theorem raw_scalar (s : Scalar) : Raw S (.scalar s) := by
  intro n t ht
  cases (inside_scalar ht).2

end Raw

/-! ## Loops -/

theorem bind_ok_iff {ε α β : Type} {x : Except ε α} {f : α → Except ε β} :
    (∃ b, (x >>= f) = .ok b) ↔ ∃ a, x = .ok a ∧ ∃ b, f a = .ok b := by
  cases x with
  | error e =>
    constructor
    · rintro ⟨b, h⟩
      cases h
    · rintro ⟨a, h, _⟩
      cases h
  | ok a =>
    constructor
    · rintro ⟨b, h⟩
      exact ⟨a, rfl, b, h⟩
    · rintro ⟨a', h, hb⟩
      cases h
      exact hb

section Loops

variable {one : LuaValue τ → Except PackError (List UInt8)}

theorem wbElements_ok_iff (t : LuaTable τ) (i count : Nat) :
    (∃ bs, wbElements one t i count = .ok bs) ↔
      ∀ j, i ≤ j → j < i + count → ∃ b, one (rawgeti t.pairs j) = .ok b := by
  induction count generalizing i with
  | zero =>
    constructor
    · intro _ j hle hlt
      omega
    · intro _
      exact ⟨[], rfl⟩
  | succ count ih =>
    rw [wbElements, bind_ok_iff]
    constructor
    · rintro ⟨b, hb, hrest⟩ j hle hlt
      obtain ⟨bs, hbs, _⟩ := bind_ok_iff.mp hrest
      by_cases hj : j = i
      · exact ⟨b, hj ▸ hb⟩
      · exact (ih (i + 1)).mp ⟨bs, hbs⟩ j (by omega) (by omega)
    · intro h
      obtain ⟨b, hb⟩ := h i (Nat.le_refl i) (by omega)
      obtain ⟨bs, hbs⟩ := (ih (i + 1)).mpr fun j hle hlt => h j (by omega) (by omega)
      exact ⟨b, hb, bind_ok_iff.mpr ⟨bs, hbs, _, rfl⟩⟩

theorem wbTableHash_ok_iff (arraySize : Int) (pairs : List (LuaValue τ × LuaValue τ)) :
    (∃ bs, wbTableHash one arraySize pairs = .ok bs) ↔
      ∀ kv ∈ pairs, inArray arraySize kv.1 = false →
        (∃ b, one kv.1 = .ok b) ∧ ∃ b, one kv.2 = .ok b := by
  induction pairs with
  | nil =>
    constructor
    · intro _ kv hkv
      cases hkv
    · intro _
      exact ⟨wbNil, rfl⟩
  | cons kv pairs ih =>
    obtain ⟨k, v⟩ := kv
    rw [wbTableHash]
    by_cases hin : inArray arraySize k = true
    · rw [if_pos hin, ih]
      constructor
      · intro h kv hkv hnot
        rcases List.mem_cons.mp hkv with rfl | hkv
        · rw [hin] at hnot
          cases hnot
        · exact h kv hkv hnot
      · intro h kv hkv
        exact h kv (List.mem_cons_of_mem _ hkv)
    · rw [if_neg hin, bind_ok_iff]
      constructor
      · rintro ⟨bk, hk, hrest⟩ kv hkv hnot
        obtain ⟨bv, hv, hrest⟩ := bind_ok_iff.mp hrest
        obtain ⟨bs, hbs, _⟩ := bind_ok_iff.mp hrest
        rcases List.mem_cons.mp hkv with rfl | hkv
        · exact ⟨⟨bk, hk⟩, bv, hv⟩
        · exact ih.mp ⟨bs, hbs⟩ kv hkv hnot
      · intro h
        obtain ⟨⟨bk, hk⟩, bv, hv⟩ := h (k, v) List.mem_cons_self (Bool.eq_false_iff.mpr hin)
        obtain ⟨bs, hbs⟩ := ih.mpr fun kv hkv => h kv (List.mem_cons_of_mem _ hkv)
        exact ⟨bk, hk, bind_ok_iff.mpr ⟨bv, hv, bind_ok_iff.mpr ⟨bs, hbs, _, rfl⟩⟩⟩

theorem packValues_ok_iff (S : Store τ) (vs : List (LuaValue τ)) :
    (∃ bs, packValues S heap vs = .ok bs) ↔ ∀ v ∈ vs, ∃ b, packOne S heap v 0 = .ok b := by
  induction vs with
  | nil =>
    constructor
    · intro _ v hv
      cases hv
    · intro _
      exact ⟨[], rfl⟩
  | cons v vs ih =>
    rw [packValues, bind_ok_iff]
    constructor
    · rintro ⟨b, hb, hrest⟩ v' hv'
      obtain ⟨bs, hbs, _⟩ := bind_ok_iff.mp hrest
      rcases List.mem_cons.mp hv' with rfl | hv'
      · exact ⟨b, hb⟩
      · exact ih.mp ⟨bs, hbs⟩ v' hv'
    · intro h
      obtain ⟨b, hb⟩ := h v List.mem_cons_self
      obtain ⟨bs, hbs⟩ := ih.mpr fun v' hv' => h v' (List.mem_cons_of_mem _ hv')
      exact ⟨b, hb, bind_ok_iff.mpr ⟨bs, hbs, _, rfl⟩⟩

end Loops

/-! ## Tables -/

section Tables

variable {S : Store τ} {one : LuaValue τ → Except PackError (List UInt8)} {left : Nat} {t : τ}

/-- A table is packed if and only if its keys and its values are. -/
theorem wbTable_ok_iff
    (hone : ∀ v, Raw S v → ((∃ b, one v = .ok b) ↔ Within S Supported left v))
    (hraw : Raw S (.table t)) :
    (∃ bs, wbTable one (S t) = .ok bs) ↔
      ∀ kv ∈ (S t).pairs, Within S Supported left kv.1 ∧ Within S Supported left kv.2 := by
  unfold wbTable wbTableArray
  rw [hraw.self]
  have hpair := @exists_pair τ (S t)
  generalize i32 ((S t).rawlen : Int) = size at hpair ⊢
  dsimp only
  rw [bind_ok_iff]
  constructor
  · rintro ⟨⟨ba, arraySize⟩, harray, hrest⟩ kv hkv
    obtain ⟨bs, hbs, _⟩ := bind_ok_iff.mp ⟨_, harray⟩
    rw [hbs] at harray
    cases harray
    obtain ⟨bh, hbh, _⟩ := bind_ok_iff.mp hrest
    have hkey := hone kv.1 (hraw.key hkv)
    have hvalue := hone kv.2 (hraw.value hkv)
    by_cases hin : inArray size kv.1 = true
    · -- the value is an element
      obtain ⟨x, hx, hpos, hle⟩ := inArray_iff.mp hin
      have helement := (wbElements_ok_iff (S t) 1 size.toNat).mp ⟨bs, hbs⟩ x.toInt.toNat (by omega)
        (by omega)
      rw [Int.toNat_of_nonneg (Int.le_of_lt hpos), rawgeti_of_mem (S t).keys_nodup hkv hx] at helement
      have hwithin := hvalue.mp helement
      rw [hx]
      exact ⟨within_scalar hwithin.pos (supported_scalar _), hwithin⟩
    · obtain ⟨hk, hv⟩ :=
        (wbTableHash_ok_iff size (S t).pairs).mp ⟨bh, hbh⟩ kv hkv (Bool.eq_false_iff.mpr hin)
      exact ⟨hkey.mp hk, hvalue.mp hv⟩
  · intro h
    have helements : ∀ j : Nat, 1 ≤ j → j < 1 + size.toNat →
        ∃ b, one (rawgeti (S t).pairs j) = .ok b := by
      intro j hj hlt
      by_cases hnil : rawgeti (S t).pairs j = .scalar .nil
      · obtain ⟨kv, hkv⟩ := hpair (by omega)
        rw [hnil]
        exact (hone _ (raw_scalar _)).mpr (within_scalar (h kv hkv).1.pos (supported_scalar _))
      · obtain ⟨kv, hkv, _, _, _, hvalue⟩ := mem_of_rawgeti hnil
        rw [hvalue]
        exact (hone _ (hraw.value hkv)).mpr (h kv hkv).2
    obtain ⟨bs, hbs⟩ := (wbElements_ok_iff (S t) 1 size.toNat).mpr helements
    obtain ⟨bh, hbh⟩ := (wbTableHash_ok_iff size (S t).pairs).mpr fun kv hkv _ =>
      ⟨(hone _ (hraw.key hkv)).mpr (h kv hkv).1, (hone _ (hraw.value hkv)).mpr (h kv hkv).2⟩
    refine ⟨(wbArrayHeader size ++ bs, size), ?_, bind_ok_iff.mpr ⟨bh, hbh, _, rfl⟩⟩
    rw [hbs]
    rfl

end Tables

/-! ## Values -/

variable (S : Store τ)

/-- Induction on the depth that is left. -/
theorem packWithin_ok_iff (left : Nat) : ∀ v, Raw S v →
    ((∃ b, packWithin S heap left v = .ok b) ↔ Within S Supported left v) := by
  induction left with
  | zero =>
    intro v _
    constructor
    · rintro ⟨b, hb⟩
      cases hb
    · intro h
      exact absurd h.pos (Nat.lt_irrefl 0)
  | succ left ih =>
    intro v hraw
    cases v with
    | scalar s =>
      constructor
      · intro _
        exact within_scalar (Nat.succ_pos left) (supported_scalar s)
      · intro _
        exact ⟨wbScalar s, rfl⟩
    | other kind =>
      constructor
      · rintro ⟨b, hb⟩
        cases hb
      · intro h
        exact absurd rfl (h.self kind)
    | table t =>
      have htable : (∃ b, packWithin S heap (left + 1) (.table t) = .ok b) ↔ _ := wbTable_ok_iff ih hraw
      rw [htable]
      constructor
      · intro h
        refine within_table ?_ (fun kv hkv => (h kv hkv).1) (fun kv hkv => (h kv hkv).2)
        intro kind h
        cases h
      · intro h kv hkv
        exact ⟨h.key hkv, h.value hkv⟩

/-! ## Arguments -/

def Accepted (vs : List (LuaValue τ)) : Prop :=
  ∀ v ∈ vs, ∀ n x, Inside S v n x → n ≤ MAX_DEPTH ∧ Supported x

theorem packValues_iff (vs : List (LuaValue τ)) (hraw : ∀ v ∈ vs, Raw S v) :
    (∃ bs, packValues S heap vs = .ok bs) ↔ Accepted S vs := by
  rw [packValues_ok_iff]
  constructor
  · intro h v hv n x hx
    obtain ⟨hlt, hsupported⟩ := (packWithin_ok_iff S (MAX_DEPTH + 1) v (hraw v hv)).mp (h v hv) n x hx
    exact ⟨Nat.lt_succ_iff.mp hlt, hsupported⟩
  · intro h v hv
    refine (packWithin_ok_iff S (MAX_DEPTH + 1) v (hraw v hv)).mpr fun n x hx => ?_
    exact ⟨Nat.lt_succ_iff.mpr (h v hv n x hx).1, (h v hv n x hx).2⟩

section Stack

open LuaStack

variable [DecidableEq τ] (controls : τ → Slot τ × Slot τ) {vs : List (LuaValue τ)}
  {st : LuaState τ}

theorem packAll_accepted (hraw : ∀ v ∈ vs, Raw S v) (hstack : st.stack = vs.map .value)
    (h : Accepted S vs) (heap : Bool) :
    ∃ out st', packAll S controls heap st = .ok out st' ∧ (out = none ↔ vs = []) := by
  by_cases hvs : vs = []
  · subst hvs
    have hrun := run_packAll_nil S controls hstack heap
    exact ⟨none, st, hrun, fun _ => rfl, fun _ => rfl⟩
  · obtain ⟨bs, hbs⟩ : ∃ bs, packValues S heap vs = .ok bs := (packValues_iff S vs hraw).mpr h
    have hrun := run_packAll S controls vs hvs hstack heap
    rw [hbs] at hrun
    obtain ⟨st', hrun, _⟩ := hrun
    refine ⟨some bs, st', hrun, ?_, fun heq => absurd heq hvs⟩
    intro heq
    cases heq

theorem packAll_refused (hraw : ∀ v ∈ vs, Raw S v) (hstack : st.stack = vs.map .value)
    (h : ¬ Accepted S vs) (heap : Bool) :
    ∃ e st', packAll S controls heap st = .error (.error e) st' ∧ st'.buf.Freed heap := by
  have hvs : vs ≠ [] := by
    rintro rfl
    apply h
    intro v hv
    cases hv
  have hrun := run_packAll S controls vs hvs hstack heap
  cases hpack : packValues S heap vs with
  | ok bs => exact absurd ((packValues_iff S vs hraw).mp ⟨bs, hpack⟩) h
  | error e =>
    rw [hpack] at hrun
    obtain ⟨st', hrun, hfreed⟩ := hrun
    exact ⟨e, st', hrun, hfreed⟩

/-- **Accepted exactly if supported and bounded.**  Otherwise there is an error and no result, and the
buffer of `pack` was deleted once and not used afterwards. -/
theorem pack_accepts (vs : List (LuaValue τ)) (hraw : ∀ v ∈ vs, Raw S v) (st : LuaState τ)
    (hstack : st.stack = vs.map .value) :
    (Accepted S vs →
      (∃ out st', LuaStack.pack S controls st = .ok out st' ∧ (out = none ↔ vs = [])) ∧
      ∃ out st', LuaStack.packsafe S controls st = .ok out st' ∧ (out = none ↔ vs = [])) ∧
    (¬ Accepted S vs →
      (∃ e st', LuaStack.pack S controls st = .error (.error e) st' ∧ st'.buf.deletes = 1 ∧
        st'.buf.misused = false) ∧
      ∃ e st', LuaStack.packsafe S controls st = .error (.error e) st' ∧ st'.buf.deletes = 0 ∧
        st'.buf.misused = false) := by
  constructor
  · intro h
    exact ⟨packAll_accepted S controls hraw hstack h true, packAll_accepted S controls hraw hstack h false⟩
  · intro h
    obtain ⟨e, st', hrun, hfreed⟩ := packAll_refused S controls hraw hstack h true
    obtain ⟨e', st'', hrun', hfreed'⟩ := packAll_refused S controls hraw hstack h false
    exact ⟨⟨e, st', hrun, hfreed.deletes, hfreed.sound⟩, e', st'', hrun', hfreed'.deletes, hfreed'.sound⟩

end Stack

/-- A table whose only value is the table itself. -/
def cyclicTable : LuaTable Unit where
  rawlen := 1
  pairs := [(.scalar (.integer 1), .table ())]
  metapairs := none
  keys_nodup := by simp
  keys := by
    rintro kv hkv s hs
    cases List.mem_singleton.mp hkv
    cases hs
    exact ⟨by simp, by simp, rfl⟩
  values := by simp
  border := by decide

theorem inside_cyclic (n : Nat) : Inside (fun _ => cyclicTable) (.table ()) n (.table ()) := by
  induction n with
  | zero => exact .here
  | succ n ih =>
    have hkv : (LuaValue.scalar (.integer 1), LuaValue.table ()) ∈ cyclicTable.pairs := List.mem_cons_self
    exact .value hkv ih

theorem pack_accepts_cyclic :
    ∃ e st', LuaStack.pack (fun _ => cyclicTable) (fun _ => (.nil, .nil))
      { stack := [.value (.table ())], iterators := fun _ => ⟨.nil, .nil, []⟩ } = .error (.error e) st' ∧
      st'.buf.deletes = 1 ∧ st'.buf.misused = false := by
  have hraw : ∀ v ∈ [LuaValue.table ()], Raw (fun _ => cyclicTable) v := fun _ _ _ _ _ => rfl
  refine ((pack_accepts (fun _ => cyclicTable) (fun _ => (.nil, .nil)) [.table ()] hraw
    { stack := [.value (.table ())], iterators := fun _ => ⟨.nil, .nil, []⟩ } rfl).2 ?_).1
  intro h
  have := (h _ List.mem_cons_self 33 _ (inside_cyclic 33)).1
  revert this
  decide

end HappyServer.Serialize
