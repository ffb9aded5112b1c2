import HappyServer.Serialize.Copies
import HappyServer.Serialize.Decoding

/-!
# Round trip of the serializer

For values without `__pairs`, in at most `MAX_DEPTH` tables, whose strings are shorter than
`2 ^ 31` bytes and whose array parts fit an `int`: packing succeeds, and unpacking the bytes
gives the same values.

* No string that was read is of `2 ^ 31` bytes or more (`Short`), so a value with such a string
  is never read back.
* A string of `2 ^ 32` bytes has length 0 as an `int`, and is packed as the empty string.
-/

namespace HappyServer.Serialize

open Traced Word

variable {τ : Type}

/-! ## What is read fits -/

theorem fits_of_short {S : Store τ} {v : LuaValue τ} {w : Tree} {n : Nat} {s : Scalar}
    (hrep : Rep S v w) (hw : Short w) (h : Inside S v n (.scalar s)) : s.Fits := by
  generalize hx : LuaValue.scalar s = x at h
  induction h generalizing w with
  | here =>
    subst hx
    rw [rep_scalar hrep] at hw
    cases hw with
    | scalar hs => exact hs
  | @key t kv n x hkv _ ih =>
    cases hrep with
    | table f hf1 hf2 hperm =>
      cases hw with
      | table hw1 hw2 =>
        have hmem := hperm.mem_iff.mpr (List.mem_map_of_mem hkv)
        exact ih (hf1 kv hkv) (hw1 _ hmem) hx
  | @value t kv n x hkv _ ih =>
    cases hrep with
    | table f hf1 hf2 hperm =>
      cases hw with
      | table hw1 hw2 =>
        have hmem := hperm.mem_iff.mpr (List.mem_map_of_mem hkv)
        exact ih (hf2 kv hkv) (hw2 _ hmem) hx

/-! ## Lists of values -/

theorem packValues_eq {S : Store τ} {heap : Bool} {vs : List (LuaValue τ)}
    {enc : LuaValue τ → List UInt8} (h : ∀ v ∈ vs, packOne S heap v 0 = .ok (enc v)) :
    packValues S heap vs = .ok (vs.flatMap enc) := by
  induction vs with
  | nil => rfl
  | cons v vs ih =>
    have hrest := ih fun v hv => h v (List.mem_cons_of_mem _ hv)
    rw [packValues, h v List.mem_cons_self, hrest]
    rfl

theorem returns_unpackValues {vs : List (LuaValue τ)} {enc : LuaValue τ → List UInt8}
    {w : LuaValue τ → Tree} {limit fuel : Nat} {view : BufferView} (depth : Nat)
    (hdec : ∀ v ∈ vs, ∀ fuel, (enc v).length ≤ fuel → Decodes limit (unpackOne fuel) (enc v) (w v))
    (hpos : ∀ v ∈ vs, enc v ≠ []) (hrest : view.rest = vs.flatMap enc) (hsize : view.size ≤ limit)
    (hfuel : view.size < fuel) : Returns (unpackValues fuel view) depth (vs.map w) := by
  obtain ⟨n, rfl⟩ : ∃ n, fuel = n + 1 := ⟨fuel - 1, by omega⟩
  induction vs generalizing n view with
  | nil =>
    rw [unpackValues_nil hrest]
    exact returns_bind.mpr ⟨(), returns_emit .., (returns_pure ..).mpr rfl⟩
  | cons v vs ih =>
    rw [List.flatMap_cons] at hrest
    have hne : view.rest ≠ [] := by
      rw [hrest]
      exact List.append_ne_nil_of_left_ne_nil (hpos v List.mem_cons_self) _
    have hlen : view.size = (enc v).length + (vs.flatMap enc).length := by
      rw [← BufferView.length_rest, hrest, List.length_append]
    have hvlen := List.length_pos_of_ne_nil (hpos v List.mem_cons_self)
    obtain ⟨view', h', hrest'⟩ := hdec v List.mem_cons_self (n + 1) (by omega) view _ depth hrest hsize
    have hlen' : view'.size = (vs.flatMap enc).length := by
      rw [← BufferView.length_rest, hrest']
    obtain ⟨m, rfl⟩ : ∃ m, n = m + 1 := ⟨n - 1, by omega⟩
    have hvs := ih (fun v hv => hdec v (List.mem_cons_of_mem _ hv))
      (fun v hv => hpos v (List.mem_cons_of_mem _ hv)) hrest' (by omega) m (by omega)
    rw [unpackValues_cons hne]
    exact returns_bind.mpr ⟨_, h', returns_bind.mpr ⟨_, hvs, (returns_pure ..).mpr rfl⟩⟩

/-- `pack` and `packs` write the same bytes, and `unpack` reads the same values. -/
def RoundTrips (S : Store τ) (vs : List (LuaValue τ)) : Prop :=
  ∃ bytes ws, pack S vs = .ok (some bytes) ∧ packsafe S vs = .ok (some bytes) ∧
    Returns (unpack bytes) 0 ws ∧ List.Forall₂ (Rep S) vs ws

theorem fits_of_roundTrips {S : Store τ} {vs : List (LuaValue τ)} (h : RoundTrips S vs) :
    ∀ v ∈ vs, ∀ n s, Inside S v n (.scalar s) → s.Fits := by
  obtain ⟨bytes, ws, -, -, hunpack, hrep⟩ := h
  have hshort := (meets_unpack blocks_true bytes 0).2 ws hunpack
  intro v hv n s hin
  obtain ⟨i, hi, rfl⟩ := List.getElem_of_mem hv
  have hi' : i < ws.length := hrep.length_eq ▸ hi
  exact fits_of_short (hrep.get hi hi') (hshort _ (List.getElem_mem hi')) hin

theorem roundTrips_of_fits {S : Store τ} {vs : List (LuaValue τ)} (hne : vs ≠ [])
    (h : ∀ v ∈ vs, Within S (fun x => Plain S x ∧ Fits S x) (MAX_DEPTH + 1) v)
    (hlen : ∀ bytes, pack S vs = .ok (some bytes) → bytes.length < 2 ^ 31) : RoundTrips S vs := by
  have hmax : 2 ^ 31 - 1 < 2 ^ 31 := by decide
  choose! enc w hpack hpos hrep hdec using fun v hv => pack_decodes S hmax (h v hv)
  have hvalues : ∀ heap, packValues S heap vs = .ok (vs.flatMap enc) :=
    fun heap => packValues_eq fun v hv => hpack v hv heap
  have hn : ¬vs.length = 0 := mt List.length_eq_zero_iff.mp hne
  have hbytes : pack S vs = .ok (some (vs.flatMap enc)) := by
    rw [pack, if_neg hn, hvalues]
    rfl
  have hlt := hlen _ hbytes
  refine ⟨vs.flatMap enc, vs.map w, hbytes, ?_, ?_, ?_⟩
  · rw [packsafe, if_neg hn, hvalues]
    rfl
  · obtain ⟨v, hv⟩ := List.exists_mem_of_ne_nil _ hne
    have hdata : (vs.flatMap enc).length ≠ 0 := by
      intro h0
      have hnil := List.eq_nil_of_length_eq_zero h0
      exact hpos v hv (List.flatMap_eq_nil_iff.mp hnil v hv)
    rw [unpack, if_neg hdata]
    refine returns_unpackValues 0 hdec hpos (BufferView.rest_make _) ?_ ?_
    · exact Nat.le_pred_of_lt hlt
    · exact Nat.lt_succ_self _
  · rw [List.forall₂_map_right_iff, List.forall₂_same]
    exact hrep

/-! ## Exactly when -/

/-- A string of `2 ^ 32` bytes is packed as the empty string. -/
theorem wbString_wrapped {bytes : List UInt8} (h : bytes.length = 2 ^ 32) :
    wbScalar (.string bytes) = [combineType TYPE_SHORT_STRING 0] := by
  have hlen : i32 (bytes.length : Int) = 0 := by
    rw [h]
    decide
  rw [wbScalar, hlen]
  rfl

/-- `{ "a", [true] = 2.5 }` -/
def smallTable : LuaTable Unit where
  rawlen := 1
  pairs := [(.scalar (.integer 1), .scalar (.string [97])),
    (.scalar (.boolean true), .scalar (.number 0x4004000000000000))]
  metapairs := none
  keys_nodup := by decide
  keys := by
    intro kv hkv s hs
    simp only [List.mem_cons, List.not_mem_nil, or_false] at hkv
    rcases hkv with rfl | rfl
    · rw [← LuaValue.scalar.inj hs]
      exact ⟨by decide, nofun, rfl⟩
    · rw [← LuaValue.scalar.inj hs]
      exact ⟨by decide, nofun, rfl⟩
  values := by decide
  border := by decide

theorem within_small {v : LuaValue Unit}
    (hv : v ∈ [.table (), .scalar (.integer (-5)), .scalar .nil]) :
    Within (fun _ => smallTable) (fun x => Plain (fun _ => smallTable) x ∧ Fits (fun _ => smallTable) x)
      (MAX_DEPTH + 1) v := by
  have hscalar : ∀ left, 0 < left → ∀ s : Scalar, s.Fits → Within (fun _ => smallTable)
      (fun x => Plain (fun _ => smallTable) x ∧ Fits (fun _ => smallTable) x) left (.scalar s) :=
    fun left hleft s hs => within_scalar hleft ⟨trivial, hs⟩
  simp only [List.mem_cons, List.not_mem_nil, or_false] at hv
  rcases hv with rfl | rfl | rfl
  · refine within_table ⟨⟨rfl, ?_⟩, Or.inl (by decide)⟩ ?_ ?_
    · intro kv hkv
      simp only [smallTable, List.mem_cons, List.not_mem_nil, or_false] at hkv
      rcases hkv with rfl | rfl
      · exact ⟨_, rfl⟩
      · exact ⟨_, rfl⟩
    · intro kv hkv
      simp only [smallTable, List.mem_cons, List.not_mem_nil, or_false] at hkv
      rcases hkv with rfl | rfl
      · exact hscalar _ (by decide) _ trivial
      · exact hscalar _ (by decide) _ trivial
    · intro kv hkv
      simp only [smallTable, List.mem_cons, List.not_mem_nil, or_false] at hkv
      rcases hkv with rfl | rfl
      · exact hscalar _ (by decide) _ (show 1 < 2 ^ 31 by decide)
      · exact hscalar _ (by decide) _ trivial
  · exact hscalar _ (by decide) _ trivial
  · exact hscalar _ (by decide) _ trivial

theorem round_trips_iff (S : Store τ) (vs : List (LuaValue τ)) (hne : vs ≠ [])
    (hplain : ∀ v ∈ vs, Within S (Plain S) (MAX_DEPTH + 1) v)
    (hlen : ∀ bytes, pack S vs = .ok (some bytes) → bytes.length < 2 ^ 31)
    (harray : ∀ v ∈ vs, ∀ n t, Inside S v n (.table t) → ArrayFits (S t).rawlen) :
    RoundTrips S vs ↔
      ∀ v ∈ vs, ∀ n bytes, Inside S v n (.scalar (.string bytes)) → bytes.length < 2 ^ 31 := by
  constructor
  · intro h v hv n bytes hin
    exact fits_of_roundTrips h v hv n (.string bytes) hin
  · intro h
    apply roundTrips_of_fits hne _ hlen
    intro v hv n x hin
    obtain ⟨hn, hx⟩ := hplain v hv n x hin
    refine ⟨hn, hx, ?_⟩
    cases x with
    | other kind => trivial
    | table t => exact harray v hv n t hin
    | scalar s =>
      cases s with
      | string bytes => exact h v hv n bytes hin
      | _ => trivial

theorem round_trips_small :
    RoundTrips (fun _ => smallTable) [.table (), .scalar (.integer (-5)), .scalar .nil] := by
  refine (round_trips_iff (fun _ => smallTable) _ (List.cons_ne_nil _ _) ?_ ?_ ?_).mpr ?_
  · intro v hv n x hx
    obtain ⟨hn, hplain, -⟩ := within_small hv n x hx
    exact ⟨hn, hplain⟩
  · intro bytes hbytes
    have hpack : pack (fun _ => smallTable) [.table (), .scalar (.integer (-5)), .scalar .nil] =
        .ok (some [14, 12, 97, 9, 66, 0, 0, 0, 0, 0, 0, 4, 64, 0, 34, 251, 255, 255, 255, 0]) := rfl
    rw [hpack, Except.ok.injEq, Option.some.injEq] at hbytes
    rw [← hbytes]
    decide
  · intro v hv n t hin
    exact (within_small hv n _ hin).2.2
  · intro v hv n bytes hin
    exact (within_small hv n _ hin).2.2

theorem not_round_trips :
    ¬∀ (S : Store Unit) (vs : List (LuaValue Unit)), vs ≠ [] →
      (∀ v ∈ vs, Within S (Plain S) (MAX_DEPTH + 1) v) →
      (∀ bytes, pack S vs = .ok (some bytes) → bytes.length < 2 ^ 31) → RoundTrips S vs := by
  intro h
  obtain ⟨bytes, hlen⟩ : ∃ bytes : List UInt8, bytes.length = 2 ^ 32 :=
    ⟨List.replicate (2 ^ 32) 0, List.length_replicate⟩
  have hpack : ∀ S : Store Unit, pack S [.scalar (.string bytes)] =
      .ok (some [combineType TYPE_SHORT_STRING 0]) := by
    intro S
    rw [← wbString_wrapped hlen]
    show Except.map some (Except.ok (wbScalar (.string bytes) ++ [])) = _
    rw [List.append_nil]
    rfl
  have hround := h (fun _ => smallTable) [.scalar (.string bytes)] (List.cons_ne_nil _ _) ?_ ?_
  · have := fits_of_roundTrips hround _ (List.mem_singleton_self _) 0 _ .here
    unfold Scalar.Fits at this
    omega
  · intro v hv
    rw [List.mem_singleton.mp hv]
    exact within_scalar (Nat.succ_pos _) trivial
  · intro b hb
    rw [hpack, Except.ok.injEq, Option.some.injEq] at hb
    rw [← hb]
    decide

end HappyServer.Serialize
