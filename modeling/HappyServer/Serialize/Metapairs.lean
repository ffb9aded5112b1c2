import HappyServer.Serialize.RoundTrip
import HappyServer.Serialize.StackDiscipline

/-!
# Tables with `__pairs`

`pack_one` leaves Lua's stack as it found it, whatever the metamethods yield, and what it wrote is read
back as a copy if no length was lost to `int`.

    the pairs (k₁, v₁), (k₂, v₂), …   are read back as   assign [] [(k₁, v₁), (k₂, v₂), …]

A string of `2 ^ 31` bytes or more is never read back; it does no harm only where a later pair of the
same metamethod overwrites or erases it (`Proper`).
-/

namespace HappyServer.Serialize

open LuaStack Traced Word

variable {τ : Type}

/-- `pack_one` writes `bytes` for the value, from any index, and leaves the stack as it was. -/
def LeavesStack [DecidableEq τ] (S : Store τ) (controls : τ → Slot τ × Slot τ) (left : Nat)
    (v : LuaValue τ) (bytes : List UInt8) : Prop :=
  ∀ heap (st : LuaState τ) index, Slots.get st.stack index = some (.value v) → st.buf.Live heap →
    ∃ st', LuaStack.packOne S controls left index st = .ok () st' ∧ st'.stack = st.stack ∧
      st'.buf = { st.buf with bytes := st.buf.bytes ++ bytes }

def ReadsBack (S : Store τ) (v : LuaValue τ) (bytes : List UInt8) : Prop :=
  ∃ w, Returns (unpack bytes) 0 [w] ∧ Copy S v w

/-- What a `__pairs` metamethod yields could be the pairs of a table. -/
def Proper (S : Store τ) : LuaValue τ → Prop
  | .table t => ∀ pairs, (S t).metapairs = some pairs → (pairs.map Prod.fst).Nodup ∧
      ∀ kv ∈ pairs, kv.2 ≠ .scalar .nil ∧ ∀ s, kv.1 = .scalar s → s.normalKey = s
  | _ => True

def Fitting : LuaValue τ → Prop
  | .scalar s => s.Fits
  | _ => True

theorem leavesStack_of_packWithin [DecidableEq τ] {S : Store τ} (controls : τ → Slot τ × Slot τ)
    {left : Nat} {v : LuaValue τ} {bytes : List UInt8}
    (h : ∀ heap, packWithin S heap left v = .ok bytes) : LeavesStack S controls left v bytes := by
  intro heap st index hget hlive
  have hpacks : Packs heap (LuaStack.packOne S controls left) _ := packs_packOne S controls left
  have hdoes := hpacks 0 st index (.value v) hget hlive (Nat.zero_le _)
  unfold Does at hdoes
  rw [show packWithin S heap left (Slot.value v).toValue = .ok bytes from h heap] at hdoes
  obtain ⟨st', hrun, hstack, hgrew⟩ := hdoes
  exact ⟨st', hrun, hstack, hgrew.buf⟩

theorem readsBack_of_decodes {S : Store τ} {v : LuaValue τ} {bytes : List UInt8} {w : Tree}
    (hne : bytes ≠ []) (hcopy : Copy S v w)
    (hdec : ∀ fuel, bytes.length ≤ fuel → Decodes bytes.length (unpackOne fuel) bytes w) :
    ReadsBack S v bytes := by
  refine ⟨w, ?_, hcopy⟩
  have hdata : bytes.length ≠ 0 := mt List.length_eq_zero_iff.mp hne
  rw [unpack, if_neg hdata]
  refine @returns_unpackValues τ [v] (fun _ => bytes) (fun _ => w) bytes.length _ (.make bytes) 0 (fun _ _ => hdec)
    (fun _ _ => hne) ?_ (Nat.le_refl _) (Nat.lt_succ_self _)
  rw [BufferView.rest_make, List.flatMap_singleton]

/-! ## Strings that are lost -/

/-- Pairs of different keys are all there. -/
theorem assign_proper {S : Store τ} {pairs : List (LuaValue τ × LuaValue τ)}
    {f : LuaValue τ × LuaValue τ → Tree × Tree} (hnodup : (pairs.map Prod.fst).Nodup)
    (hproper : ∀ kv ∈ pairs, kv.2 ≠ .scalar .nil ∧ ∀ s, kv.1 = .scalar s → s.normalKey = s)
    (hkeys : ∀ kv ∈ pairs, Copy S kv.1 (f kv).1) (hvalues : ∀ kv ∈ pairs, Copy S kv.2 (f kv).2) :
    assign [] (pairs.map f) = pairs.map f := by
  have hkey : ∀ kv ∈ pairs, ∀ s, (f kv).1 = .scalar s → kv.1 = .scalar s :=
    fun kv hkv s hs => copy_scalar_iff.mp (hs ▸ hkeys kv hkv)
  refine assign_apart (fun e he s hs => ?_) (fun e he hnil => ?_) ?_
  · obtain ⟨kv, hkv, rfl⟩ := List.mem_map.mp he
    exact (hproper kv hkv).2 s (hkey kv hkv s hs)
  · obtain ⟨kv, hkv, rfl⟩ := List.mem_map.mp he
    exact (hproper kv hkv).1 (copy_scalar_iff.mp (hnil ▸ hvalues kv hkv))
  · rw [List.nil_append, List.pairwise_map]
    have hne : pairs.Pairwise fun kv kv' => kv.1 ≠ kv'.1 := List.pairwise_map.mp hnodup
    refine hne.imp_of_mem fun {kv kv'} hkv hkv' hne s hk hk' => hne ?_
    rw [hkey kv hkv s hk, hkey kv' hkv' s hk']

theorem fits_of_copy {S : Store τ} {v : LuaValue τ} {w : Tree} {left : Nat} (hcopy : Copy S v w)
    (hw : Short w) (hproper : Throughout S (Proper S) left v) : Throughout S Fitting left v := by
  induction hcopy generalizing left with
  | scalar s =>
    apply throughout_scalar hproper.pos
    cases hw with
    | scalar hs => exact hs
  | @table t entries f hmeta _ _ hperm ihk ihv =>
    refine hproper.table trivial fun kv hkv left hkey hvalue => ?_
    rw [LuaTable.written, hmeta] at hkv
    cases hw with
    | table hw1 hw2 =>
      have hmem := hperm.mem_iff.mpr (List.mem_map_of_mem hkv)
      exact ⟨ihk kv hkv (hw1 _ hmem) hkey, ihv kv hkv (hw2 _ hmem) hvalue⟩
  | @yielded t pairs f hmeta hk hv ihk ihv =>
    refine hproper.table trivial fun kv hkv left hkey hvalue => ?_
    rw [LuaTable.written, hmeta] at hkv
    obtain ⟨hnodup, hpairs⟩ := hproper.self pairs hmeta
    rw [assign_proper hnodup hpairs hk hv] at hw
    cases hw with
    | table hw1 hw2 =>
      have hmem := List.mem_map_of_mem (f := f) hkv
      exact ⟨ihk kv hkv (hw1 _ hmem) hkey, ihv kv hkv (hw2 _ hmem) hvalue⟩

/-- Whatever the bytes are: no string that is read is so long. -/
theorem fitting_of_readsBack {S : Store τ} {left : Nat} {v : LuaValue τ} {bytes : List UInt8}
    (h : ReadsBack S v bytes) (hproper : Throughout S (Proper S) left v) :
    Throughout S Fitting left v := by
  obtain ⟨w, hreturns, hcopy⟩ := h
  have hshort := (meets_unpack blocks_true bytes 0).2 [w] hreturns w (List.mem_singleton_self w)
  exact fits_of_copy hcopy hshort hproper

/-! ## Exactly when -/

/-- **Stack discipline and `__pairs` tables.**  The stack is always left as it was; what was written is
read back if nothing is lost to `int`, and only if no string is, where none is overwritten. -/
theorem pairs_read_back [DecidableEq τ] (S : Store τ) (controls : τ → Slot τ × Slot τ) (left : Nat)
    (v : LuaValue τ) (h : Throughout S (Suitable S) left v) :
    ∃ bytes, (∀ heap, packWithin S heap left v = .ok bytes) ∧ LeavesStack S controls left v bytes ∧
      (Throughout S (Faithful S bytes.length) left v → ReadsBack S v bytes) ∧
      (Throughout S (Proper S) left v → ReadsBack S v bytes → Throughout S Fitting left v) := by
  obtain ⟨bytes, w, hpack, hne, hread⟩ := pack_copies S h
  refine ⟨bytes, hpack, leavesStack_of_packWithin controls hpack, fun hfaithful => ?_,
    fun hproper hback => fitting_of_readsBack hback hproper⟩
  obtain ⟨hcopy, hdec⟩ := hread bytes.length hfaithful
  exact readsBack_of_decodes hne hcopy hdec

/-- A table that is empty but for its `__pairs` metamethod. -/
def yielding (pairs : List (LuaValue Unit × LuaValue Unit)) : LuaTable Unit where
  rawlen := 0
  pairs := []
  metapairs := some pairs
  keys_nodup := List.nodup_nil
  keys := nofun
  values := nofun
  border := ⟨Or.inl rfl, rfl⟩

def assignedTwice : List (LuaValue Unit × LuaValue Unit) :=
  [(.scalar (.string [97]), .scalar (.integer 1)), (.scalar (.boolean true), .scalar (.integer 2)),
    (.scalar (.string [97]), .scalar .nil)]

theorem throughout_yielding {P : LuaValue Unit → Prop} {pairs : List (LuaValue Unit × LuaValue Unit)}
    (hself : P (.table ()))
    (h : ∀ kv ∈ pairs, ∃ s s', kv = (.scalar s, .scalar s') ∧ P (.scalar s) ∧ P (.scalar s')) :
    Throughout (fun _ => yielding pairs) P (MAX_DEPTH + 1) (.table ()) := by
  refine ⟨hself, fun t _ kv hkv => ?_⟩
  obtain ⟨s, s', rfl, hs, hs'⟩ := h kv hkv
  exact ⟨throughout_scalar (by decide) hs, throughout_scalar (by decide) hs'⟩

theorem pairs_read_back_twice :
    ∃ bytes, LeavesStack (fun _ => yielding assignedTwice) (fun _ => (.nil, .nil)) (MAX_DEPTH + 1)
      (.table ()) bytes ∧ ReadsBack (fun _ => yielding assignedTwice) (.table ()) bytes := by
  have hscalars : ∀ kv ∈ assignedTwice, ∃ s s' : Scalar, kv = (.scalar s, .scalar s') ∧ s.IsIndex ∧
      s.Fits ∧ s'.Fits := by
    intro kv hkv
    simp only [assignedTwice, List.mem_cons, List.not_mem_nil, or_false] at hkv
    rcases hkv with rfl | rfl | rfl
    · exact ⟨_, _, rfl, ⟨fun h => (by cases h), fun b h => (by cases h)⟩, show 1 < 2 ^ 31 by decide, trivial⟩
    · exact ⟨_, _, rfl, ⟨fun h => (by cases h), fun b h => (by cases h)⟩, trivial, trivial⟩
    · exact ⟨_, _, rfl, ⟨fun h => (by cases h), fun b h => (by cases h)⟩, show 1 < 2 ^ 31 by decide, trivial⟩
  have hsuitable := throughout_yielding (P := Suitable fun _ => yielding assignedTwice)
    (fun pairs hpairs kv hkv => by
      obtain rfl := Option.some.inj hpairs
      obtain ⟨s, _, rfl, hindex, _⟩ := hscalars kv hkv
      exact ⟨s, rfl, hindex⟩) fun kv hkv => by
    obtain ⟨s, s', rfl, _⟩ := hscalars kv hkv
    exact ⟨s, s', rfl, trivial, trivial⟩
  obtain ⟨bytes, hpack, hleaves, hread, -⟩ := pairs_read_back (fun _ => yielding assignedTwice)
    (fun _ => (.nil, .nil)) (MAX_DEPTH + 1) (.table ()) hsuitable
  have hbytes : packWithin (fun _ => yielding assignedTwice) true (MAX_DEPTH + 1) (.table ()) =
      .ok [6, 12, 97, 10, 1, 9, 10, 2, 12, 97, 0, 0] := rfl
  rw [hpack, Except.ok.injEq] at hbytes
  have hlen : bytes.length < 2 ^ 31 := by
    rw [hbytes]
    decide
  refine ⟨bytes, hleaves, hread ?_⟩
  refine throughout_yielding (fun h => by cases h) fun kv hkv => ?_
  obtain ⟨s, s', rfl, _, hs, hs'⟩ := hscalars kv hkv
  exact ⟨s, s', rfl, fitsIn_of_fits hs hlen, fitsIn_of_fits hs' hlen⟩

theorem not_pairs_read_back :
    ¬∀ (S : Store Unit) (controls : Unit → Slot Unit × Slot Unit) (v : LuaValue Unit),
      Throughout S (Suitable S) (MAX_DEPTH + 1) v →
        ∃ bytes, LeavesStack S controls (MAX_DEPTH + 1) v bytes ∧ ReadsBack S v bytes := by
  intro h
  obtain ⟨long, hlen⟩ : ∃ bytes : List UInt8, bytes.length = 2 ^ 32 :=
    ⟨List.replicate (2 ^ 32) 0, List.length_replicate⟩
  let pairs : List (LuaValue Unit × LuaValue Unit) := [(.scalar (.integer 1), .scalar (.string long))]
  have hscalars : ∀ kv ∈ pairs, kv = (.scalar (.integer 1), .scalar (.string long)) :=
    fun kv hkv => List.mem_singleton.mp hkv
  have hsuitable := throughout_yielding (P := Suitable fun _ => yielding pairs)
    (fun _ hpairs kv hkv => by
      obtain rfl := Option.some.inj hpairs
      rw [hscalars kv hkv]
      exact ⟨_, rfl, fun h => (by cases h), fun b h => (by cases h)⟩) fun kv hkv => ⟨_, _, hscalars kv hkv, trivial, trivial⟩
  have hproper := throughout_yielding (P := Proper fun _ => yielding pairs) (fun _ hpairs => by
      obtain rfl := Option.some.inj hpairs
      refine ⟨List.nodup_singleton _, fun kv hkv => ?_⟩
      rw [hscalars kv hkv]
      refine ⟨fun h => (by cases h), fun s hs => ?_⟩
      rw [← LuaValue.scalar.inj hs]
      rfl) fun kv hkv => ⟨_, _, hscalars kv hkv, trivial, trivial⟩
  obtain ⟨bytes, _, hback⟩ := h (fun _ => yielding pairs) (fun _ => (.nil, .nil)) (.table ()) hsuitable
  have hfits := fitting_of_readsBack hback hproper
  have hvalue := (hfits.2 () rfl _ List.mem_cons_self).2.self
  unfold Fitting Scalar.Fits at hvalue
  omega

end HappyServer.Serialize
