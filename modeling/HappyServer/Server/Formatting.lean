import HappyServer.Server.Handling

/-!
# Formatted texts (`common/string.hpp`, `common/logger.hpp`)

`format` and `logger::logfmt` make a string of the first `n` characters of `fmtbuf`, where `n` is what
`vsnprintf` returned.  A text is all that there is to write for a format string and its arguments.

    0 ≤ n ≤ the characters that were stored  ↔  the text fits     (print_sound_iff)

A text of `MAX_FMT_LEN` characters fits on Windows, and not on the other platforms.
-/

namespace HappyServer.Server

/-- `TARGET_PLATFORM` -/
inductive Platform where
  | windows
  | other

/-- What was stored in `fmtbuf`, without the zero behind it, and the `int` that was returned. -/
structure Printed where
  stored : List UInt8
  n : Int

/-- `vsnprintf(fmtbuf, size, fmt, ap)`: the whole length is returned, if it is an `int`. -/
def vsnprintf (size : Nat) (text : List UInt8) : Printed :=
  ⟨text.take (size - 1), if text.length < 2 ^ 31 then text.length else -1⟩

/-- `vsnprintf_s(fmtbuf, count, fmt, ap)`, where `fmtbuf` has a character more. -/
def vsnprintfS (count : Nat) (text : List UInt8) : Printed :=
  ⟨text.take count, if text.length ≤ count then text.length else -1⟩

def print (platform : Platform) (maxLen : Nat) (text : List UInt8) : Printed :=
  match platform with
  | .windows => vsnprintfS maxLen text
  | .other => vsnprintf maxLen text

/-- What `format` takes its string from; there is nothing without a format string. -/
def formatPrints (platform : Platform) (fmt : Option (List UInt8)) : Option Printed :=
  fmt.map (print platform MAX_FMT_LEN)

inductive LogLevel where
  | Error
  | Warn
  | Info
  | Debug
  | Max

def LogLevel.toNat : LogLevel → Nat
  | .Error => 1
  | .Warn => 2
  | .Info => 3
  | .Debug => 4
  | .Max => 5

def MAX_LOG_LEN : Nat := 8 * 1024

def logfmtPrints (platform : Platform) (level_ level : LogLevel) (fmt : Option (List UInt8)) :
    Option Printed :=
  if level_.toNat < level.toNat then none else fmt.map (print platform MAX_LOG_LEN)

/-- The string is made of characters that were stored. -/
structure Printed.Sound (p : Printed) : Prop where
  nonneg : 0 ≤ p.n
  le_stored : p.n ≤ p.stored.length
  stored_le : p.stored.length ≤ 8192

/-- The longest text that is stored whole. -/
def textLimit (platform : Platform) (maxLen : Nat) : Nat :=
  match platform with
  | .windows => maxLen
  | .other => maxLen - 1

def TextFits (platform : Platform) (maxLen : Nat) (text : List UInt8) : Prop :=
  text.length ≤ textLimit platform maxLen

variable {platform : Platform} {maxLen : Nat} {text : List UInt8}

theorem print_of_fits (hmax : maxLen ≤ 8192) (h : TextFits platform maxLen text) :
    print platform maxLen text = ⟨text, text.length⟩ := by
  cases platform with
  | windows =>
    have hle : text.length ≤ maxLen := h
    show Printed.mk _ _ = _
    rw [List.take_of_length_le hle, if_pos hle]
  | other =>
    have hle : text.length ≤ maxLen - 1 := h
    show Printed.mk _ _ = _
    rw [List.take_of_length_le hle, if_pos (by omega)]

theorem print_sound_iff (hpos : 0 < maxLen) (hmax : maxLen ≤ 8192) :
    (print platform maxLen text).Sound ↔ TextFits platform maxLen text := by
  constructor
  · intro h
    have hn := h.nonneg
    have hle := h.le_stored
    by_contra hlong
    cases platform with
    | windows =>
      have hgt : ¬text.length ≤ maxLen := hlong
      change 0 ≤ (if text.length ≤ maxLen then (text.length : Int) else -1) at hn
      rw [if_neg hgt] at hn
      omega
    | other =>
      have hgt : ¬text.length ≤ maxLen - 1 := hlong
      change 0 ≤ (if text.length < 2 ^ 31 then (text.length : Int) else -1) at hn
      change (if text.length < 2 ^ 31 then (text.length : Int) else -1) ≤
        (text.take (maxLen - 1)).length at hle
      rw [List.length_take] at hle
      split at hn
      next hint =>
        rw [if_pos hint] at hle
        omega
      · omega
  · intro h
    have hle : textLimit platform maxLen ≤ maxLen := by
      cases platform with
      | windows => exact Nat.le_refl _
      | other => exact Nat.sub_le _ _
    rw [print_of_fits hmax h]
    unfold TextFits at h
    exact ⟨Int.natCast_nonneg _, Int.le_refl _, by dsimp only; omega⟩

/-- And then it is the text. -/
theorem text_of_sound (hpos : 0 < maxLen) (hmax : maxLen ≤ 8192)
    (h : (print platform maxLen text).Sound) :
    (print platform maxLen text).stored.take (print platform maxLen text).n.toNat = text := by
  rw [print_of_fits hmax ((print_sound_iff hpos hmax).mp h)]
  exact List.take_length

/-- `formatString` is what `format` returns where it reads nothing that was not stored. -/
theorem formatString_of_fits (h : TextFits .other MAX_FMT_LEN text) : formatString text = some text := by
  have hle : text.length ≤ 8191 := h
  unfold formatString format MAX_FMT_LEN
  rw [if_pos (by omega), List.take_of_length_le (by omega), Option.map_some, Nat.sub_self,
    List.replicate_zero, List.append_nil]

theorem forall_print_iff (hpos : 0 < maxLen) (hmax : maxLen ≤ 8192) (fmt : Option (List UInt8)) :
    (∀ p, fmt.map (print platform maxLen) = some p → p.Sound) ↔
      ∀ text, fmt = some text → TextFits platform maxLen text := by
  constructor
  · rintro h text rfl
    exact (print_sound_iff hpos hmax).mp (h _ rfl)
  · intro h p hp
    obtain ⟨text, hfmt, rfl⟩ := Option.map_eq_some_iff.mp hp
    exact (print_sound_iff hpos hmax).mpr (h text hfmt)

/-! ## The report of a dead receiver -/

theorem length_deadText (sender receiver : UInt32) (bytes : List UInt8) :
    (deadText sender receiver bytes).length = 37 + (hexUpper sender.toNat).length +
      (hexUpper receiver.toNat).length + (hexString bytes).length := by
  have hfixed : (ascii "[").length = 1 ∧ (ascii "] attempt send to dead service [").length = 32 ∧
      (ascii "]: ").length = 3 ∧ (ascii ".").length = 1 := by
    decide +kernel
  obtain ⟨h1, h2, h3, h4⟩ := hfixed
  unfold deadText
  simp only [List.length_append, h1, h2, h3, h4]
  omega

theorem hexUpper_byte : ∀ n < 256, 1 ≤ (hexUpper n).length ∧ (hexUpper n).length ≤ 2 := by
  decide +kernel

/-- A byte is one digit or two. -/
theorem length_hexString (bytes : List UInt8) :
    bytes.length ≤ (hexString bytes).length ∧ (hexString bytes).length ≤ 2 * bytes.length := by
  induction bytes with
  | nil => exact ⟨Nat.le_refl _, Nat.le_refl _⟩
  | cons c bytes ih =>
    obtain ⟨hpos, hle⟩ := hexUpper_byte c.toNat c.toNat_lt
    have hlen : (hexString (c :: bytes)).length = (hexUpper c.toNat).length + (hexString bytes).length :=
      List.length_append
    rw [List.length_cons]
    omega

/-! ## Exactly when -/

/-- **Formatted texts.**  Nothing is read that was not stored exactly if the text is not too long. -/
theorem prints_stored_iff (platform : Platform) :
    (∀ fmt, (∀ p, formatPrints platform fmt = some p → p.Sound) ↔
      ∀ text, fmt = some text → TextFits platform MAX_FMT_LEN text) ∧
    (∀ level_ level fmt, (∀ p, logfmtPrints platform level_ level fmt = some p → p.Sound) ↔
      level_.toNat < level.toNat ∨ ∀ text, fmt = some text → TextFits platform MAX_LOG_LEN text) ∧
    ∀ sender receiver bytes,
      (∀ p, formatPrints platform (some (deadText sender receiver bytes)) = some p → p.Sound) ↔
        37 + (hexUpper sender.toNat).length + (hexUpper receiver.toNat).length +
          (hexString bytes).length ≤ textLimit platform MAX_FMT_LEN := by
  have hformat : ∀ fmt, (∀ p, formatPrints platform fmt = some p → p.Sound) ↔
      ∀ text, fmt = some text → TextFits platform MAX_FMT_LEN text :=
    forall_print_iff (by decide) (by decide)
  refine ⟨hformat, fun level_ level fmt => ?_, fun sender receiver bytes => ?_⟩
  · unfold logfmtPrints
    by_cases hlevel : level_.toNat < level.toNat
    · rw [if_pos hlevel]
      exact ⟨fun _ => Or.inl hlevel, fun _ p hp => by cases hp⟩
    · rw [if_neg hlevel, forall_print_iff (by decide) (by decide)]
      exact ⟨Or.inr, fun h => h.resolve_left hlevel⟩
  · rw [hformat, ← length_deadText]
    exact ⟨fun h => h _ rfl, fun h text htext => Option.some.inj htext ▸ h⟩

/-- The report about a message of `8192` bytes or more is cut, on every platform. -/
theorem deadText_long (platform : Platform) (sender receiver : UInt32) {bytes : List UInt8}
    (h : 8192 ≤ bytes.length) : ¬TextFits platform MAX_FMT_LEN (deadText sender receiver bytes) := by
  have hbytes := (length_hexString bytes).1
  have hlen := length_deadText sender receiver bytes
  intro hfits
  have hle : (deadText sender receiver bytes).length ≤ 8192 := by
    cases platform with
    | windows => exact hfits
    | other => exact Nat.le_succ_of_le hfits
  omega

theorem not_prints_stored :
    ¬∀ platform sender receiver bytes p,
      formatPrints platform (some (deadText sender receiver bytes)) = some p → p.Sound := by
  intro h
  have hsound := h .other 1 2 (List.replicate 8192 0) _ rfl
  have hlong : 8192 ≤ (List.replicate 8192 (0 : UInt8)).length := by rw [List.length_replicate]
  exact deadText_long .other 1 2 hlong ((print_sound_iff (by decide) (by decide)).mp hsound)

end HappyServer.Server
