import HappyServer.Serialize.RoundTrip

/-!
# Long strings (`wb_string`, `pack_one`, `get_buffer`)

A string of any length below `2 ^ 31` comes back, also where its header makes the stream longer than
an `int` holds.  `pack_one` makes an `int` of the length, and refuses no string.

    a string is refused or kept ↔ it is shorter than `2 ^ 31` bytes                 (keepsString_iff)
-/

namespace HappyServer.Serialize

open LittleEndian Traced Word

variable {τ : Type}

/-! ## The last value of a stream -/

/-- Where `m` reads the whole of `bs`, however long, it gives `a`. -/
def DecodesLast {α : Type} (m : BufferView → Decode (α × BufferView)) (bs : List UInt8) (a : α) : Prop :=
  ∀ view depth, view.rest = bs → ∃ view', Returns (m view) depth (a, view') ∧ view'.rest = []

/-- The word before the body. -/
theorem decodesLast_word {α : Type} {f : Nat → BufferView → Decode (α × BufferView)} {w n : Nat}
    {bs : List UInt8} {a : α} (line : Nat) (hpos : 0 < w) (hn : n < 256 ^ w)
    (h : DecodesLast (f n) bs a) :
    DecodesLast (fun view => readOr view w line >>= fun r => f r.1 r.2) (bytesOf w n ++ bs) a := by
  intro view depth hrest
  obtain ⟨view₁, h₁, hrest₁⟩ := returns_readOr line depth (length_bytesOf w n) hpos hrest
  rw [ofBytes_bytesOf_of_lt hn] at h₁
  obtain ⟨view₂, h₂, hrest₂⟩ := h view₁ depth hrest₁
  exact ⟨view₂, returns_bind.mpr ⟨_, h₁, h₂⟩, hrest₂⟩

/-- The type byte. -/
theorem decodesLast_unpackOne {t : UInt8} {v : Int} {fuel c : Nat} {body : List UInt8} {w : Tree}
    (ht : t < 8) (hc : v % 32 = c)
    (h : DecodesLast (fun view => pushValue (unpackOne fuel) fuel view t c) body w) :
    DecodesLast (unpackOne (fuel + 1)) (combineType t v :: body) w := by
  intro view depth hrest
  have hbytes : view.rest = [combineType t v] ++ body := hrest
  have hlen : [combineType t v].length = 1 := rfl
  obtain ⟨view₁, h₁, hrest₁⟩ := returns_readOr 403 depth hlen Nat.one_pos hbytes
  obtain ⟨view₂, h₂, hrest₂⟩ := h view₁ depth hrest₁
  have hcookie : (combineType t v >>> 3).toNat = c := by
    have := combineType_high t v ht
    omega
  refine ⟨view₂, ?_, hrest₂⟩
  rw [unpackOne]
  refine returns_bind.mpr ⟨(), returns_emit .., returns_bind.mpr ⟨_, h₁, ?_⟩⟩
  simp only [ofNat_ofBytes, combineType_low t v ht, hcookie]
  exact h₂

theorem decodesLast_getString {bytes : List UInt8} (h : bytes.length < 2 ^ 31) :
    DecodesLast (fun view => getString view bytes.length) bytes (.scalar (.string bytes)) := by
  intro view depth hrest
  refine decodes_getString h h view [] depth ?_ ?_
  · rw [hrest, List.append_nil]
  · rw [← BufferView.length_rest, hrest]

theorem decodesLast_wbString {bytes : List UInt8} (h : bytes.length < 2 ^ 31) (fuel : Nat) :
    DecodesLast (unpackOne (fuel + 1)) (wbString bytes (i32 bytes.length)) (.scalar (.string bytes)) := by
  have hstring := decodesLast_getString h
  rcases wbString_cases h with ⟨hlt, heq⟩ | ⟨hlt, heq⟩ | heq
  · rw [heq]
    exact decodesLast_unpackOne (by decide) (by omega) hstring
  · rw [heq]
    exact decodesLast_unpackOne (by decide) (c := 2) rfl
      (decodesLast_word (f := fun n view => getString view n) 375 (by decide) hlt hstring)
  · rw [heq]
    exact decodesLast_unpackOne (by decide) (c := 4) rfl
      (decodesLast_word (f := fun n view => getString view n) 384 (by decide) (by omega) hstring)

theorem returns_unpack_last {bs : List UInt8} {w : Tree} (hne : bs ≠ [])
    (h : DecodesLast (unpackOne (bs.length + 1)) bs w) : Returns (unpack bs) 0 [w] := by
  have hpos := List.length_pos_of_ne_nil hne
  obtain ⟨view', hone, hrest⟩ := h (.make bs) 0 (BufferView.rest_make bs)
  have hend : unpackValues bs.length view' = emit .typeByte >>= fun _ => pure [] := by
    rw [← Nat.sub_add_cancel hpos]
    exact unpackValues_nil hrest
  rw [unpack, if_neg (by omega), unpackValues_cons (by rwa [BufferView.rest_make])]
  refine returns_bind.mpr ⟨_, hone, returns_bind.mpr ⟨[], ?_, (returns_pure ..).mpr rfl⟩⟩
  rw [hend]
  exact returns_bind.mpr ⟨(), returns_emit .., (returns_pure ..).mpr rfl⟩

/-! ## The result -/

/-- A string whose packing has come to this is refused, or what was written is read as the string. -/
def KeepsString (packed : Except PackError (Option (List UInt8))) (bytes : List UInt8) : Prop :=
  (∃ e, packed = .error e) ∨
    ∃ data, packed = .ok (some data) ∧ Returns (unpack data) 0 [.scalar (.string bytes)]

/-- No string is refused. -/
theorem pack_string (S : Store τ) (bytes : List UInt8) :
    pack S [.scalar (.string bytes)] = .ok (some (wbString bytes (i32 bytes.length))) ∧
      packsafe S [.scalar (.string bytes)] = .ok (some (wbString bytes (i32 bytes.length))) := by
  have hvalues : ∀ heap, packValues S heap [.scalar (.string bytes)] =
      .ok (wbString bytes (i32 bytes.length)) := by
    intro heap
    show Except.ok (wbScalar (.string bytes) ++ []) = _
    rw [List.append_nil]
    rfl
  constructor
  · rw [pack, if_neg (by simp), hvalues]
    rfl
  · rw [packsafe, if_neg (by simp), hvalues]
    rfl

theorem length_lt_of_returns {data bytes : List UInt8}
    (h : Returns (unpack data) 0 [.scalar (.string bytes)]) : bytes.length < 2 ^ 31 := by
  have hshort := (meets_unpack blocks_true data 0).2 _ h _ (List.mem_singleton_self _)
  cases hshort with
  | scalar hfits => exact hfits

/-- Strings are kept up to the largest `int`. -/
theorem keepsString_iff (S : Store τ) (bytes : List UInt8) :
    (KeepsString (pack S [.scalar (.string bytes)]) bytes ∧
      KeepsString (packsafe S [.scalar (.string bytes)]) bytes) ↔ bytes.length < 2 ^ 31 := by
  obtain ⟨hpack, hpacksafe⟩ := pack_string S bytes
  rw [hpack, hpacksafe, and_self]
  constructor
  · rintro (⟨e, he⟩ | ⟨data, -, hunpack⟩)
    · cases he
    · exact length_lt_of_returns hunpack
  · intro h
    right
    exact ⟨_, rfl, returns_unpack_last (wbScalar_ne_nil (.string bytes)) (decodesLast_wbString h _)⟩

/-- One of `2 ^ 32` bytes is lost without an error. -/
theorem not_keepsString : ¬∀ (S : Store Unit) (bytes : List UInt8), bytes.length < 2 ^ 63 →
    KeepsString (packsafe S [.scalar (.string bytes)]) bytes := by
  intro h
  obtain ⟨bytes, hlen⟩ : ∃ bytes : List UInt8, bytes.length = 2 ^ 32 :=
    ⟨List.replicate (2 ^ 32) 0, List.length_replicate⟩
  rcases h (fun _ => smallTable) bytes (by omega) with ⟨e, he⟩ | ⟨data, -, hunpack⟩
  · rw [(pack_string _ bytes).2] at he
    cases he
  · have := length_lt_of_returns hunpack
    omega

end HappyServer.Serialize
