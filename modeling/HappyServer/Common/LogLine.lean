import HappyServer.Buffer.Queue

/-!
# A line of the log (`common/logger.hpp`, `common/object_pool.hpp`)

`logger::logstring` makes a record of a line in a buffer from the pool: two bytes for the console
flag and the level, the header, the text and a newline.  The first three are stored behind
`writepos_`, which then follows.  The writer's thread takes the record apart again.

* The header is what `format_header` made; `Line` says what it relies on.
* `Line.outputs` is what the writer's `switch` makes of a line; `Output.console` and `Output.logfile` say
  where text went, and `Line.Shown` for which lines the console gets any.
* `Front b q`: the positions start at 0, and the buffer is as large as a new one.

    create fresh objects l.text.length = some (b, …) → ∃ b', logstring fresh b l = some b' ∧
      Front b' l.record                                                (Front.logstring)
    Front b l.record → writeLine ofs b = some (l.outputs ofs, …)       (Front.writeLine)
-/

namespace HappyServer.Common.Logger

open Block Word Buffer

/-- Any `int` may come from a script. -/
structure LogLevel where
  value : Int32
deriving DecidableEq

namespace LogLevel

def Error : LogLevel := ⟨1⟩
def Warn : LogLevel := ⟨2⟩
def Info : LogLevel := ⟨3⟩
def Debug : LogLevel := ⟨4⟩

/-- `static_cast<char>(level)` -/
def toChar (level : LogLevel) : UInt8 := level.value.toInt8.toUInt8

/-- `static_cast<LogLevel>(c)` -/
def ofChar (c : UInt8) : LogLevel := ⟨c.toInt8.toInt32⟩

end LogLevel

/-- The arguments of `logstring` and the header made for them. -/
structure Line where
  console : Bool
  level : LogLevel
  header : List UInt8
  text : List UInt8
  header_le : header.length ≤ 60
  /-- the record is smaller than any array may be -/
  fits : header.length + text.length + 3 < 2 ^ 63

/-- `'\n'` -/
def newline : UInt8 := 10

/-- `static_cast<char>(console)` -/
def Line.consoleChar (l : Line) : UInt8 := if l.console then 1 else 0

def Line.bytes (l : Line) : List UInt8 := l.header ++ l.text ++ [newline]

def Line.record (l : Line) : List UInt8 := [l.consoleChar, l.level.toChar] ++ l.bytes

/-! ## The record -/

section

variable (fresh : Nat → UInt8)

/-- `pointer_pool::create` with the size of the text: the buffer, and what the pool still has. -/
def create (objects : List Buffer) (size : Nat) : Option (Buffer × List Buffer) :=
  match objects.getLast? with
  | none => (Buffer.make fresh size 0).map fun b => (b, objects)
  | some t => (t.init fresh size 0).map fun b => (b, objects.dropLast)

def logstring (buf : Buffer) (l : Line) : Option Buffer := do
  let b := buf.readpos_
  let buf ← buf.memcpy b [l.consoleChar]
  let buf ← buf.memcpy (b + 1) [l.level.toChar]
  let buf ← buf.memcpy (b + 2) l.header
  let buf := buf.offsetWritepos (2 + l.header.length)
  let buf ← buf.writeBack fresh l.text
  buf.writeBack fresh [newline]

end

/-! ## What is written -/

inductive Stream where
  | cerr
  | cout
deriving DecidableEq

/-- `termcolor` -/
inductive Color where
  | red
  | yellow
  | white
  | green
deriving DecidableEq

inductive Output where
  | text (stream : Stream) (color : Color) (s : List UInt8)
  /-- the color set back on `cout` -/
  | color (color : Color)
  | file (s : List UInt8)
deriving DecidableEq

/-- The `switch` over the level. -/
def consoleOutput (level : LogLevel) (s : List UInt8) : List Output :=
  if level = .Error then [.text .cerr .red s]
  else if level = .Warn then [.text .cout .yellow s]
  else if level = .Info then [.text .cout .white s]
  else if level = .Debug then [.text .cout .green s]
  else []

/-- One round of the loop over `swaps`: what is written, and the buffer afterwards. -/
def writeLine (ofs : Bool) (it : Buffer) : Option (List Output × Buffer) := do
  let bconsole ← it.storage[it.readpos_]?
  let level ← it.storage[it.readpos_ + 1]?
  let it := it.seek 2 .Current
  let s ← load it.storage it.readpos_ it.size
  let console := if bconsole ≠ 0 then consoleOutput (.ofChar level) s ++ [.color .white] else []
  some (console ++ (if ofs then [.file s] else []), it)

/-- What a round of the loop over `swaps` makes of a line. -/
def Line.outputs (ofs : Bool) (l : Line) : List Output :=
  (if l.console then consoleOutput (.ofChar l.level.toChar) l.bytes ++ [.color .white] else []) ++
    (if ofs then [.file l.bytes] else [])

/-! ## Where it is written -/

/-- The text that went to a stream of the console. -/
def Output.console : Output → Option (List UInt8)
  | .text _ _ s => some s
  | .color _ => none
  | .file _ => none

/-- The text that went to the file. -/
def Output.logfile : Output → Option (List UInt8)
  | .file s => some s
  | .text _ _ _ => none
  | .color _ => none

/-- The line is for the console, and its level, as the record keeps it, is one from `Error` to `Debug`. -/
def Line.Shown (l : Line) : Prop :=
  l.console = true ∧ 1 ≤ l.level.toChar.toNat ∧ l.level.toChar.toNat ≤ 4

instance (l : Line) : Decidable l.Shown := inferInstanceAs (Decidable (_ ∧ _))

theorem ofChar_all : ∀ n, n < 256 →
    (LogLevel.ofChar (UInt8.ofNat n) = .Error ↔ n = 1) ∧ (LogLevel.ofChar (UInt8.ofNat n) = .Warn ↔ n = 2) ∧
    (LogLevel.ofChar (UInt8.ofNat n) = .Info ↔ n = 3) ∧ (LogLevel.ofChar (UInt8.ofNat n) = .Debug ↔ n = 4) := by
  decide +kernel

/-- Of the levels in a record, only the four with a `case` of their own are written. -/
theorem console_consoleOutput (c : UInt8) (s : List UInt8) :
    (consoleOutput (.ofChar c) s).filterMap Output.console =
      if 1 ≤ c.toNat ∧ c.toNat ≤ 4 then [s] else [] := by
  have hcases := ofChar_all c.toNat c.toNat_lt
  rw [UInt8.ofNat_toNat] at hcases
  obtain ⟨herror, hwarn, hinfo, hdebug⟩ := hcases
  unfold consoleOutput
  rw [if_congr herror rfl rfl, if_congr hwarn rfl rfl, if_congr hinfo rfl rfl, if_congr hdebug rfl rfl]
  split
  · rw [if_pos (by omega)]
    rfl
  split
  · rw [if_pos (by omega)]
    rfl
  split
  · rw [if_pos (by omega)]
    rfl
  split
  · rw [if_pos (by omega)]
    rfl
  · rw [if_neg (by omega)]
    rfl

theorem logfile_consoleOutput (level : LogLevel) (s : List UInt8) :
    (consoleOutput level s).filterMap Output.logfile = [] := by
  unfold consoleOutput
  split
  · rfl
  split
  · rfl
  split
  · rfl
  split <;> rfl

theorem Line.console_outputs (ofs : Bool) (l : Line) :
    (l.outputs ofs).filterMap Output.console = if l.Shown then [l.bytes] else [] := by
  have hfile : (if ofs then [Output.file l.bytes] else []).filterMap Output.console = [] := by
    split <;> rfl
  unfold Line.outputs
  rw [List.filterMap_append, hfile, List.append_nil]
  by_cases hconsole : l.console = true
  · rw [if_pos hconsole, List.filterMap_append, console_consoleOutput]
    by_cases hlevel : 1 ≤ l.level.toChar.toNat ∧ l.level.toChar.toNat ≤ 4
    · rw [if_pos hlevel, if_pos (show l.Shown from ⟨hconsole, hlevel⟩)]
      rfl
    · rw [if_neg hlevel, if_neg fun h : l.Shown => hlevel h.2]
      rfl
  · rw [if_neg hconsole, if_neg fun h : l.Shown => hconsole h.1]
    rfl

theorem Line.logfile_outputs (ofs : Bool) (l : Line) :
    (l.outputs ofs).filterMap Output.logfile = if ofs then [l.bytes] else [] := by
  have hconsole : (if l.console then consoleOutput (.ofChar l.level.toChar) l.bytes ++ [.color .white]
      else []).filterMap Output.logfile = [] := by
    split
    · rw [List.filterMap_append, logfile_consoleOutput]
      rfl
    · rfl
  unfold Line.outputs
  rw [List.filterMap_append, hconsole, List.nil_append]
  split <;> rfl

/-- Each line of the console is there once, and in order. -/
theorem console_flatMap (ofs : Bool) (lines : List Line) :
    (lines.flatMap (Line.outputs ofs)).filterMap Output.console =
      (lines.filter fun l => l.Shown).map Line.bytes := by
  induction lines with
  | nil => rfl
  | cons l lines ih =>
    rw [List.flatMap_cons, List.filterMap_append, Line.console_outputs, ih, List.filter_cons]
    by_cases h : l.Shown <;> simp [h]

theorem logfile_flatMap (ofs : Bool) (lines : List Line) :
    (lines.flatMap (Line.outputs ofs)).filterMap Output.logfile =
      if ofs then lines.map Line.bytes else [] := by
  induction lines with
  | nil => cases ofs <;> rfl
  | cons l lines ih =>
    rw [List.flatMap_cons, List.filterMap_append, Line.logfile_outputs, ih]
    cases ofs <;> rfl

/-! ## Buffers that start at 0 -/

variable {fresh : Nat → UInt8} {b b' : Buffer} {q data : List UInt8} {size need : Nat} {l : Line}

/-- Anything the pool may hold. -/
structure Pooled (b : Buffer) : Prop where
  sound : ∃ q, Sound b q
  capacity : STACK_CAPACITY ≤ b.capacity_

structure Front (b : Buffer) (q : List UInt8) : Prop extends Sound b q where
  read : b.readpos_ = 0
  head : b.headreserved_ = 0
  capacity : STACK_CAPACITY ≤ b.capacity_

theorem Front.write (h : Front b q) : b.writepos_ = q.length := by
  have := h.holds.length_eq
  have := h.read
  omega

/-- With nothing reserved, no size overflows up to `2 ^ 63`. -/
theorem room_of_lt (hhead : b.headreserved_ = 0) (h : b.writepos_ + need < 2 ^ 63) :
    b.Room need := by
  by_cases hgrows : b.grows need
  · refine Or.inr (Or.inl ⟨hgrows, ?_⟩)
    rw [add64_of_lt _ _ (by omega)]
    exact le_nextPow2 h
  · exact Or.inr (Or.inr ⟨hgrows, by omega⟩)

theorem Front.checkSpace (fresh : Nat → UInt8) (h : Front b q) (hlt : q.length + need < 2 ^ 63) :
    ∃ b', b.checkSpace fresh need = some b' ∧ Front b' q ∧ b'.writepos_ + need ≤ b'.capacity_ := by
  have hw := h.write
  have hroom : b.Room need := room_of_lt h.head (by omega)
  obtain ⟨b', hspace, hi, hq, hhead, hpos⟩ := h.holds.checkSpace fresh h.ordered h.intact hroom
  obtain ⟨hb, hfits, hcap⟩ := h.ordered.checkSpace hroom hspace
  have hread := h.read
  have := h.head
  have := h.capacity
  have := h.head_le
  exact ⟨b', hspace, ⟨⟨hb, hi, hq, by omega⟩, by omega, by omega, by omega⟩, hfits⟩

theorem front_blank : Front (blank 0) [] :=
  ⟨sound_blank (Nat.zero_le _), rfl, rfl, Nat.le_refl _⟩

theorem make_front (fresh : Nat → UInt8) (h : size < 2 ^ 63) :
    ∃ b, make fresh size 0 = some b ∧ Front b [] := by
  unfold make
  dsimp only
  split
  · obtain ⟨b, hspace, hb, -⟩ := front_blank.checkSpace fresh
      (show ([] : List UInt8).length + size < 2 ^ 63 by simpa using h)
    exact ⟨b, hspace, hb⟩
  · exact ⟨_, rfl, front_blank⟩

/-- Whatever a buffer of the pool was used for, `init` makes it like a new one. -/
theorem Pooled.init (fresh : Nat → UInt8) (h : Pooled b) (hsize : size < 2 ^ 63) :
    ∃ b', b.init fresh size 0 = some b' ∧ Front b' [] := by
  obtain ⟨q, hq⟩ := h.sound
  have hreserved : Front (b.reserve 0) [] :=
    ⟨sound_nil hq.intact hq.ordered.capacity_lt (Nat.zero_le _) rfl rfl, rfl, rfl, h.capacity⟩
  obtain ⟨b', hspace, hb, -⟩ := hreserved.checkSpace fresh
    (show ([] : List UInt8).length + size < 2 ^ 63 by simpa using hsize)
  refine ⟨{ b' with flag_ := 0 }, ?_, hb.flag 0, hb.read, hb.head, hb.capacity⟩
  unfold Buffer.init
  rw [hspace]
  rfl

theorem create_front (fresh : Nat → UInt8) {objects : List Buffer}
    (h : ∀ b ∈ objects, Pooled b) (hsize : size < 2 ^ 63) :
    ∃ b rest, create fresh objects size = some (b, rest) ∧ Front b [] ∧
      ∀ b ∈ rest, b ∈ objects := by
  unfold create
  split
  next =>
    obtain ⟨b, hmake, hb⟩ := make_front fresh hsize
    exact ⟨b, objects, by rw [hmake]; rfl, hb, fun _ => id⟩
  next t hlast =>
    obtain ⟨b, hinit, hb⟩ := (h t (List.mem_of_getLast? hlast)).init fresh hsize
    exact ⟨b, objects.dropLast, by rw [hinit]; rfl, hb, List.dropLast_subset objects⟩

/-- A `write_back` moves the other positions as its `check_space` does. -/
theorem writeBack_fields (hdata : data.length ≠ 0) (h : b.writeBack fresh data = some b') :
    ∃ b₁, b.checkSpace fresh data.length = some b₁ ∧ b'.readpos_ = b₁.readpos_ ∧
      b'.headreserved_ = b₁.headreserved_ ∧ b'.capacity_ = b₁.capacity_ := by
  obtain ⟨hzero, -⟩ | ⟨b₁, b₂, -, hspace, hcopy, rfl⟩ := writeBack_some h
  · exact absurd hzero hdata
  obtain ⟨-, hsame⟩ := memcpy_some hcopy
  exact ⟨b₁, hspace, hsame.read, hsame.head, hsame.capacity⟩

theorem Front.writeBack (fresh : Nat → UInt8) (h : Front b q) (data : List UInt8)
    (hlt : q.length + data.length < 2 ^ 63) :
    ∃ b', b.writeBack fresh data = some b' ∧ Front b' (q ++ data) := by
  have hw := h.write
  by_cases hdata : data.length = 0
  · rw [List.eq_nil_of_length_eq_zero hdata, List.append_nil]
    exact ⟨b, rfl, h⟩
  · have hroom : b.Room data.length := room_of_lt h.head (by omega)
    obtain ⟨b', hwrite, hb, -⟩ := h.toSound.writeBack fresh hroom
    obtain ⟨b₁, hspace, hread, hhead, hcap⟩ := writeBack_fields hdata hwrite
    obtain ⟨b₁', hspace', h₁, -⟩ := h.checkSpace fresh hlt
    obtain rfl := Option.some.inj (hspace.symm.trans hspace')
    have := h₁.read
    have := h₁.head
    have := h₁.capacity
    exact ⟨b', hwrite, hb, by omega, by omega, by omega⟩

/-! ## The three stores behind `writepos_` -/

/-- `b` after the bytes `pre` were stored from `readpos_` on, where nothing is readable yet. -/
structure Stored (b : Buffer) (pre : List UInt8) : Prop extends Front b [] where
  bytes : load b.storage 0 pre.length = some pre

theorem Stored.memcpy {pre : List UInt8} (h : Stored b pre) (data : List UInt8)
    (hle : pre.length + data.length ≤ STACK_CAPACITY) :
    ∃ b', b.memcpy pre.length data = some b' ∧ Stored b' (pre ++ data) := by
  have hi := h.intact
  have hcap := h.capacity
  have hbytes := h.bytes
  unfold Intact at hi
  obtain ⟨b', hcopy, hstore, hsame⟩ := b.memcpy_of_le
    (show pre.length + data.length ≤ b.storage.length by omega)
  have hlen := length_store hstore
  have hi' : Intact b' := by
    unfold Intact
    rw [hlen, hi, hsame.capacity]
  have hhead : b'.headreserved_ = 0 := hsame.head.trans h.head
  have hread : b'.readpos_ = 0 := hsame.read.trans h.read
  have hwrite : b'.writepos_ = 0 := hsame.write.trans h.write
  have hlt : b'.capacity_ < 2 ^ 64 := hsame.capacity ▸ h.ordered.capacity_lt
  have hfront : Front b' [] :=
    ⟨sound_nil hi' hlt (by omega) (by omega) (by omega), hread, hhead, hsame.capacity ▸ hcap⟩
  refine ⟨b', hcopy, hfront, ?_⟩
  rw [List.length_append]
  apply load_add
  · rw [load_store_below hstore (by omega)]
    exact hbytes
  · rw [Nat.zero_add]
    exact load_store hstore

/-- `offset_writepos` makes readable what was stored. -/
theorem Stored.offsetWritepos {pre : List UInt8} (h : Stored b pre)
    (hle : pre.length < STACK_CAPACITY) : Front (b.offsetWritepos pre.length) pre := by
  have hzero : b.writepos_ = 0 := h.write
  have hread := h.read
  have hcap := h.capacity
  have hlt := h.ordered.capacity_lt
  have hpos : (b.offsetWritepos pre.length).writepos_ = pre.length := by
    have hsum := u64_of_range (b.writepos_ + pre.length) (by omega) (by omega)
    unfold Buffer.offsetWritepos
    dsimp only
    rw [if_neg (by omega)]
    omega
  refine ⟨⟨⟨?_, ?_, hlt⟩, h.intact, ?_, h.head_le⟩, hread, h.head, hcap⟩
  · show b.readpos_ ≤ _
    omega
  · show _ ≤ b.capacity_
    omega
  · show load b.storage b.readpos_ ((b.offsetWritepos pre.length).writepos_ - b.readpos_) = some pre
    rw [hpos, hread, Nat.sub_zero]
    exact h.bytes

/-! ## The record is made and taken apart -/

theorem Front.logstring (fresh : Nat → UInt8) (h : Front b []) (l : Line) :
    ∃ b', logstring fresh b l = some b' ∧ Front b' l.record := by
  have hheader := l.header_le
  have hfits := l.fits
  have hstack : STACK_CAPACITY = 216 := rfl
  have h₀ : Stored b [] := ⟨h, load_zero (Nat.zero_le _)⟩
  obtain ⟨b₁, hcopy₁, h₁⟩ := h₀.memcpy [l.consoleChar] (by
    show 0 + 1 ≤ _
    omega)
  obtain ⟨b₂, hcopy₂, h₂⟩ := h₁.memcpy [l.level.toChar] (by
    show 1 + 1 ≤ _
    omega)
  obtain ⟨b₃, hcopy₃, h₃⟩ := h₂.memcpy l.header (by
    show 2 + l.header.length ≤ _
    omega)
  have hpre : ([] ++ [l.consoleChar] ++ [l.level.toChar] ++ l.header).length = 2 + l.header.length := by
    show l.header.length + 1 + 1 = _
    omega
  have h₄ := h₃.offsetWritepos (by omega)
  obtain ⟨b₅, hwrite₅, h₅⟩ := h₄.writeBack fresh l.text (by omega)
  obtain ⟨b₆, hwrite₆, h₆⟩ := h₅.writeBack fresh [newline] (by
    rw [List.length_append, List.length_singleton]
    omega)
  refine ⟨b₆, ?_, ?_⟩
  · unfold Logger.logstring
    rw [hpre] at hwrite₅
    dsimp only
    rw [h.read]
    simp only [Option.bind_eq_bind]
    show (b.memcpy ([] : List UInt8).length _).bind _ = _
    rw [hcopy₁, Option.bind_some]
    show (b₁.memcpy ([] ++ [l.consoleChar]).length _).bind _ = _
    rw [hcopy₂, Option.bind_some]
    show (b₂.memcpy ([] ++ [l.consoleChar] ++ [l.level.toChar]).length _).bind _ = _
    rw [hcopy₃, Option.bind_some]
    show ((b₃.offsetWritepos ((2 : Int) + l.header.length)).writeBack fresh l.text).bind _ = _
    rw [show (2 : Int) + l.header.length = (2 + l.header.length : Nat) by rfl, hwrite₅,
      Option.bind_some]
    exact hwrite₆
  · have hrecord : [] ++ [l.consoleChar] ++ [l.level.toChar] ++ l.header ++ l.text ++ [newline]
        = l.record := by
      simp [Line.record, Line.bytes]
    rw [← hrecord]
    exact h₆

theorem Front.writeLine (h : Front b l.record) (ofs : Bool) :
    ∃ b', writeLine ofs b = some (l.outputs ofs, b') ∧ Pooled b' := by
  have hread := h.read
  have hlen : l.record.length = 2 + l.bytes.length := by
    show l.bytes.length + 1 + 1 = _
    omega
  have hseek := h.toSound.seek (show (0 : Int) ≤ 2 by decide) (by omega)
  have hmin : min (2 : Int).toNat l.record.length = 2 := by
    show min 2 _ = _
    omega
  rw [hmin] at hseek
  have hdrop := h.toSound.drop (n := 2) (by omega)
  have hbytes : l.record.drop 2 = l.bytes := rfl
  rw [hbytes] at hdrop
  have hsize := size_eq hdrop.ordered
  obtain ⟨hstart, hrecord⟩ := load_some h.holds
  have hget : ∀ k < l.record.length, b.storage[b.readpos_ + k]? = l.record[k]? := by
    intro k hk
    rw [hrecord, List.getElem?_take, List.getElem?_drop, if_pos (by
      rw [hrecord, List.length_take] at hk
      omega)]
  refine ⟨_, ?_, ⟨⟨_, hdrop⟩, h.capacity⟩⟩
  unfold Logger.writeLine
  have hconsole : b.storage[b.readpos_]? = some l.consoleChar := hget 0 (by omega)
  have hlevel : b.storage[b.readpos_ + 1]? = some l.level.toChar := hget 1 (by omega)
  have hload := hdrop.holds
  unfold Holds at hload
  rw [← hsize] at hload
  simp only [Option.bind_eq_bind, hconsole, hlevel, Option.bind_some, hseek, hload]
  have hflag : l.consoleChar ≠ 0 ↔ l.console = true := by
    unfold Line.consoleChar
    split <;> simp_all
  unfold Line.outputs
  simp only [hflag]

end HappyServer.Common.Logger
