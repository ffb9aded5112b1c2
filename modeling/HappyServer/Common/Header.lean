import HappyServer.Common.Decimal
import HappyServer.Common.Hexstr
import HappyServer.Common.LogLine
import Mathlib.Tactic.Ring

/-!
# The header of a line of the log (`common/logger.hpp`, `common/time.hpp`)

`format_header` writes into the buffer behind the two bytes of the record: the time, who logs and
the level.  The time is one number of 19 digits, three for each part but the year, and the
separators are written over the zeros; the milliseconds are printed with a 1 before them, over
which the point goes.

`localtime` stands for `localtime_r` (or `localtime_s`); a run is the length and the log of its
writes.

* `stamp m mill`: the time as it is to be read, such as `2017-11-11 16:03:11.635`.
* `header m mill thread_id serviceid level`: the whole header.
* `headerLine`: the `Line` of these; that it is short enough is proved here.

    milltimestamp … t buf 23 returns 23 and leaves `stamp`                        (milltimestamp_left)
    formatHeader … returns the length of `header`, 46 to 57, and leaves it        (formatHeader_leaves)
-/

namespace HappyServer.Common.Header

open Word Writes Server Logger Digits Decimal Hexstr

/-- `std::tm` -/
structure Tm where
  tm_year : Int
  tm_mon : Int
  tm_mday : Int
  tm_hour : Int
  tm_min : Int
  tm_sec : Int

def pow10 : Nat → Nat
  | 0 => 1
  | n + 1 => 10 * pow10 n

/-- The sum is in `uint64_t`, all of it. -/
def ymd (m : Tm) : Nat :=
  u64 ((m.tm_year + 1900) * pow10 15
    + (m.tm_mon + 1) * pow10 12
    + m.tm_mday * pow10 9
    + m.tm_hour * pow10 6
    + m.tm_min * pow10 3
    + m.tm_sec)

/-- `'-'` -/
def dash : UInt8 := 45
/-- `' '` -/
def space : UInt8 := 32
/-- `':'` -/
def colon : UInt8 := 58
/-- `'.'` -/
def point : UInt8 := 46

section

variable (log10 logLength : Nat → Nat) (localtime : Int → Tm)

def milltimestamp (t : Int) (buf len : Nat) : Nat × Log :=
  if len < 23 then (0, [])
  else
    let mill := t
    let now := mill.tdiv 1000
    let m := localtime now
    let (n, log) := uint64ToStr log10 (ymd m) buf
    let log := log ++ [(add64 buf 4, dash)]
    let log := log ++ [(add64 buf 7, dash)]
    let log := log ++ [(add64 buf 10, space)]
    let log := log ++ [(add64 buf 13, colon)]
    let log := log ++ [(add64 buf 16, colon)]
    let (d, log') := uint64ToStr log10 (u64 (1000 + mill.tmod 1000)) (add64 buf n)
    let n := add64 n d
    (n, log ++ log' ++ [(add64 buf (sub64 n 4), point)])

def toString (lv : LogLevel) : List UInt8 :=
  if lv = .Error then ascii " | ERROR | "
  else if lv = .Warn then ascii " | WARN  | "
  else if lv = .Info then ascii " | INFO  | "
  else if lv = .Debug then ascii " | DEBUG | "
  else ascii " | NULL  | "

def memcpy (dst : Nat) (src : List UInt8) (count : Nat) : Log :=
  copied (add64 dst) (src.take count)

/-- `now` is `time::now()`. -/
def formatHeader (now : Int) (thread_id buf : Nat) (level : LogLevel) (serviceid : Nat) :
    Nat × Log :=
  let (offset, log) := milltimestamp log10 localtime now buf 23
  let log := log ++ memcpy (add64 buf offset) (ascii " | ") 3
  let offset := offset + 3
  let (len, log) :=
    if serviceid = 0 then
      let (len, log') := uint64ToStr log10 thread_id (add64 buf offset)
      (len, log ++ log')
    else
      let log := log ++ [(add64 buf offset, colon)]
      let (len, log') := uint64ToHexstr logLength serviceid (add64 buf (offset + 1)) 8
      (len + 1, log ++ log')
  let offset := offset + len
  let (offset, log) :=
    if len < 9 then
      -- the literal ends with a 0, which is not reached
      (offset + (9 - len),
        log ++ memcpy (add64 buf offset) (ascii "        " ++ [0]) (9 - len))
    else (offset, log)
  (offset + 11, log ++ memcpy (add64 buf offset) (toString level) 11)

end

/-! ## What is to be read -/

def date (m : Tm) : List UInt8 :=
  fixed 4 (m.tm_year + 1900).toNat ++ [dash] ++ fixed 2 (m.tm_mon + 1).toNat ++ [dash] ++
    fixed 2 m.tm_mday.toNat ++ [space] ++ fixed 2 m.tm_hour.toNat ++ [colon] ++
    fixed 2 m.tm_min.toNat ++ [colon] ++ fixed 2 m.tm_sec.toNat

def stamp (m : Tm) (mill : Nat) : List UInt8 := date m ++ [point] ++ fixed 3 mill

/-- The thread, or a colon and the eight digits of the service. -/
def who (thread_id serviceid : Nat) : List UInt8 :=
  if serviceid = 0 then (decimal thread_id).rightpad 9 space
  else colon :: padded serviceid 8

def header (m : Tm) (mill thread_id serviceid : Nat) (level : LogLevel) : List UInt8 :=
  stamp m mill ++ ascii " | " ++ who thread_id serviceid ++ toString level

/-- What `localtime_r` gives in a year of four digits; there are leap seconds. -/
structure Tm.Valid (m : Tm) : Prop where
  year : 1000 ≤ m.tm_year + 1900 ∧ m.tm_year + 1900 ≤ 9999
  mon : 0 ≤ m.tm_mon ∧ m.tm_mon ≤ 11
  mday : 1 ≤ m.tm_mday ∧ m.tm_mday ≤ 31
  hour : 0 ≤ m.tm_hour ∧ m.tm_hour ≤ 23
  min : 0 ≤ m.tm_min ∧ m.tm_min ≤ 59
  sec : 0 ≤ m.tm_sec ∧ m.tm_sec ≤ 60

variable {m : Tm} {mill thread_id serviceid buf n : Nat} {level : LogLevel} {t : Int}

@[simp] theorem length_date (m : Tm) : (date m).length = 19 := by
  simp [date]

@[simp] theorem length_stamp (m : Tm) (mill : Nat) : (stamp m mill).length = 23 := by
  simp [stamp]

@[simp] theorem length_toString (level : LogLevel) : (toString level).length = 11 := by
  unfold toString
  split_ifs <;> decide +kernel

/-- Up to 32 bits. -/
theorem length_hexUpper_le_eight (h : serviceid < 2 ^ 32) : (hexUpper serviceid).length ≤ 8 := by
  unfold hexUpper
  rw [List.length_map, Nat.length_toDigits_le_iff (by decide) (by decide)]
  omega

theorem length_who (hthread : thread_id < 2 ^ 64) (hservice : serviceid < 2 ^ 32) :
    9 ≤ (who thread_id serviceid).length ∧ (who thread_id serviceid).length ≤ 20 := by
  unfold who
  split
  · have := length_decimal_le hthread
    rw [List.length_rightpad]
    omega
  · have := length_hexUpper_le_eight hservice
    rw [List.length_cons, length_padded]
    omega

theorem length_header (m : Tm) (mill : Nat) (level : LogLevel) (hthread : thread_id < 2 ^ 64)
    (hservice : serviceid < 2 ^ 32) :
    46 ≤ (header m mill thread_id serviceid level).length ∧
      (header m mill thread_id serviceid level).length ≤ 57 := by
  have hwho := length_who hthread hservice
  have hbar : (ascii " | ").length = 3 := by decide +kernel
  unfold header
  simp only [List.length_append, length_stamp, length_toString, hbar]
  omega

/-- The line that `logstring` makes of its arguments. -/
def headerLine (console : Bool) (level : LogLevel) (m : Tm) (mill thread_id serviceid : Nat)
    (text : List UInt8) (hthread : thread_id < 2 ^ 64) (hservice : serviceid < 2 ^ 32)
    (hfits : text.length < 2 ^ 63 - 60) : Line where
  console := console
  level := level
  header := header m mill thread_id serviceid level
  text := text
  header_le := Nat.le_trans (length_header m mill level hthread hservice).2 (by decide)
  fits := by
    have := (length_header m mill level hthread hservice).2
    omega

/-! ## The time -/

section

variable {log10 logLength : Nat → Nat} {localtime : Int → Tm}

theorem add64_injOn (buf : Nat) (hn : n ≤ 2 ^ 64) :
    ∀ i < n, ∀ j < n, add64 buf i = add64 buf j → i = j :=
  fun _ hi _ hj heq => add64_inj (by omega) (by omega) heq

theorem fixed_three {k a b : Nat} (h : b < 1000) :
    fixed (k + 3) (a * 1000 + b) = fixed k a ++ fixed 3 b := by
  rw [fixed_add k 3]
  show fixed k ((a * 1000 + b) / 1000) ++ fixed 3 ((a * 1000 + b) % 1000) = _
  rw [show (a * 1000 + b) / 1000 = a by omega, show (a * 1000 + b) % 1000 = b by omega]

/-- The parts as they are printed. -/
theorem Tm.Valid.parts (h : m.Valid) :
    (1000 ≤ (m.tm_year + 1900).toNat ∧ (m.tm_year + 1900).toNat < 10000) ∧
      (m.tm_mon + 1).toNat < 100 ∧ m.tm_mday.toNat < 100 ∧ m.tm_hour.toNat < 100 ∧
      m.tm_min.toNat < 100 ∧ m.tm_sec.toNat < 100 := by
  obtain ⟨hyear, hmon, hmday, hhour, hmin, hsec⟩ := h
  refine ⟨⟨?_, ?_⟩, ?_, ?_, ?_, ?_, ?_⟩ <;> omega

/-- Three digits for each part. -/
theorem Tm.Valid.ymd_eq (h : m.Valid) : ymd m =
    (((((m.tm_year + 1900).toNat * 1000 + (m.tm_mon + 1).toNat) * 1000 + m.tm_mday.toNat) * 1000
      + m.tm_hour.toNat) * 1000 + m.tm_min.toNat) * 1000 + m.tm_sec.toNat := by
  have hparts := h.parts
  obtain ⟨hyear, hmon, hmday, hhour, hmin, hsec⟩ := h
  have heyear := Int.toNat_of_nonneg (show 0 ≤ m.tm_year + 1900 by omega)
  have hemon := Int.toNat_of_nonneg (show 0 ≤ m.tm_mon + 1 by omega)
  have hemday := Int.toNat_of_nonneg (show 0 ≤ m.tm_mday by omega)
  have hehour := Int.toNat_of_nonneg hhour.1
  have hemin := Int.toNat_of_nonneg hmin.1
  have hesec := Int.toNat_of_nonneg hsec.1
  unfold ymd u64
  simp only [show pow10 15 = 1000000000000000 from rfl, show pow10 12 = 1000000000000 from rfl,
    show pow10 9 = 1000000000 from rfl, show pow10 6 = 1000000 from rfl,
    show pow10 3 = 1000 from rfl]
  rw [← heyear, ← hemon, ← hemday, ← hehour, ← hemin, ← hesec]
  simp only [Int.toNat_natCast]
  generalize (m.tm_year + 1900).toNat = year at *
  generalize (m.tm_mon + 1).toNat = mon at *
  generalize m.tm_mday.toNat = day at *
  generalize m.tm_hour.toNat = hour at *
  generalize m.tm_min.toNat = min at *
  generalize m.tm_sec.toNat = sec at *
  have hsum : (year * (1000000000000000 : Nat) + mon * (1000000000000 : Nat)
      + day * (1000000000 : Nat) + hour * (1000000 : Nat) + min * (1000 : Nat) + sec : Int) =
      ((((((year * 1000 + mon) * 1000 + day) * 1000 + hour) * 1000 + min) * 1000
        + sec : Nat) : Int) := by
    push_cast
    ring
  rw [hsum, Int.emod_eq_of_lt (by omega) (by omega), Int.toNat_natCast]

theorem Tm.Valid.ymd_bounds (h : m.Valid) : 10 ^ 18 ≤ ymd m ∧ ymd m < 10 ^ 19 := by
  have hparts := h.parts
  rw [h.ymd_eq]
  omega

theorem Tm.Valid.decimal_ymd (h : m.Valid) : decimal (ymd m) =
    fixed 4 (m.tm_year + 1900).toNat ++ fixed 3 (m.tm_mon + 1).toNat ++ fixed 3 m.tm_mday.toNat ++
      fixed 3 m.tm_hour.toNat ++ fixed 3 m.tm_min.toNat ++ fixed 3 m.tm_sec.toNat := by
  obtain ⟨hlow, hhigh⟩ := h.ymd_bounds
  have hparts := h.parts
  rw [decimal_eq_fixed, Nat.log_eq_of_pow_le_of_lt_pow hlow hhigh, h.ymd_eq]
  rw [fixed_three (k := 16) (by omega), fixed_three (k := 13) (by omega),
    fixed_three (k := 10) (by omega), fixed_three (k := 7) (by omega),
    fixed_three (k := 4) (by omega)]

/-- The first of three digits is a zero, and goes. -/
theorem Tm.Valid.date_set (h : m.Valid) :
    ((((((decimal (ymd m)).set 4 dash).set 7 dash).set 10 space).set 13 colon).set 16 colon) =
      date m := by
  rw [h.decimal_ymd]
  rfl

/-- The milliseconds with a 1 before them. -/
theorem decimal_mill (h : mill < 1000) : decimal (1000 + mill) = decDigit 1 :: fixed 3 mill := by
  rw [decimal_eq_fixed, Nat.log_eq_of_pow_le_of_lt_pow (m := 3) (by omega) (by omega)]
  show fixed (1 + 3) (1000 + mill) = _
  rw [Nat.add_comm 1000, ← Nat.one_mul 1000, Nat.add_comm mill, fixed_three h]
  rfl

/-- The date, with its separators. -/
theorem date_left (buf : Nat) (hvalid : m.Valid) (hymd : log10 (ymd m) = Nat.log 10 (ymd m)) :
    (uint64ToStr log10 (ymd m) buf).1 = 19 ∧
      Leaves (add64 buf) (date m)
        ((uint64ToStr log10 (ymd m) buf).2 ++ [(add64 buf 4, dash)] ++ [(add64 buf 7, dash)] ++
          [(add64 buf 10, space)] ++ [(add64 buf 13, colon)] ++ [(add64 buf 16, colon)]) := by
  obtain ⟨hlow, hhigh⟩ := hvalid.ymd_bounds
  have hlt : ymd m < 2 ^ 64 := by omega
  obtain ⟨hlen, -⟩ := uint64ToStr_spells buf hlt hymd
  have hdate := uint64ToStr_left buf hlt hymd
  have hcount : (decimal (ymd m)).length = 19 := by
    rw [hvalid.decimal_ymd]
    simp
  refine ⟨hlen.trans hcount, ?_⟩
  have hinj := add64_injOn buf (show 19 ≤ 2 ^ 64 by decide)
  have hset : ∀ {text log} (i : Nat) (a : UInt8), text.length = 19 → i < 19 →
      Leaves (add64 buf) text log → Leaves (add64 buf) (text.set i a) (log ++ [(add64 buf i, a)]) :=
    fun i a htext hi h => h.set a (by omega) (by rwa [htext])
  rw [← hvalid.date_set]
  have h4 := hset 4 dash hcount (by decide) hdate
  have h7 := hset 7 dash (by rw [List.length_set, hcount]) (by decide) h4
  have h10 := hset 10 space (by simp only [List.length_set, hcount]) (by decide) h7
  have h13 := hset 13 colon (by simp only [List.length_set, hcount]) (by decide) h10
  exact hset 16 colon (by simp only [List.length_set, hcount]) (by decide) h13

theorem milltimestamp_left (buf : Nat) (ht : 0 ≤ t) (hvalid : (localtime (t / 1000)).Valid)
    (hymd : log10 (ymd (localtime (t / 1000))) = Nat.log 10 (ymd (localtime (t / 1000))))
    (hmill : log10 (1000 + (t % 1000).toNat) = Nat.log 10 (1000 + (t % 1000).toNat)) :
    (milltimestamp log10 localtime t buf 23).1 = 23 ∧
      Leaves (add64 buf) (stamp (localtime (t / 1000)) (t % 1000).toNat)
        (milltimestamp log10 localtime t buf 23).2 := by
  have hmod : (t % 1000).toNat < 1000 := by omega
  have hu64 : u64 (1000 + t.tmod 1000) = 1000 + (t % 1000).toNat := by
    rw [Int.tmod_eq_emod_of_nonneg ht]
    unfold u64
    omega
  obtain ⟨hlen, hdate⟩ := date_left buf hvalid hymd
  have hlt : 1000 + (t % 1000).toNat < 2 ^ 64 := by omega
  obtain ⟨hlen', -⟩ := uint64ToStr_spells (add64 buf 19) hlt hmill
  have hmills := uint64ToStr_left (add64 buf 19) hlt hmill
  rw [decimal_mill hmod] at hlen' hmills
  rw [List.length_cons, length_fixed] at hlen'
  unfold milltimestamp
  rw [if_neg (by decide)]
  simp only [Int.tdiv_eq_ediv_of_nonneg ht, hlen, hu64, hlen']
  refine ⟨rfl, ?_⟩
  have htail : Leaves (fun i => add64 buf ((date (localtime (t / 1000))).length + i))
      (decDigit 1 :: fixed 3 (t % 1000).toNat)
      (uint64ToStr log10 (1000 + (t % 1000).toNat) (add64 buf 19)).2 := by
    refine hmills.move fun i => ?_
    rw [length_date, add64_add64]
  have hall := hdate.append htail (add64_injOn _ (by simp))
  have hpoint := hall.set point (i := 19) (by simp) (add64_injOn _ (by simp))
  rw [List.set_append_right _ _ (by rw [length_date]), length_date, Nat.sub_self,
    List.set_cons_zero] at hpoint
  rw [stamp, List.append_assoc]
  exact hpoint

/-! ## Who logs, and the level -/

theorem memcpy_left (dst : Nat) (src : List UInt8) (count : Nat) (h : src.length ≤ 2 ^ 64) :
    Leaves (add64 dst) (src.take count) (memcpy dst src count) :=
  (spells_copied (add64 dst) (src.take count)).leaves
    (add64_injOn _ (Nat.le_trans (List.length_take_le' count src) h))

/-- A text right behind another. -/
theorem left_next {s text : List UInt8} {log log' : Log}
    (hs : Leaves (add64 buf) s log) (ht : Leaves (add64 (add64 buf n)) text log')
    (hn : s.length = n) (hshort : s.length + text.length ≤ 2 ^ 64) :
    Leaves (add64 buf) (s ++ text) (log ++ log') := by
  refine hs.append (ht.move fun i => ?_) (add64_injOn _ (by rwa [List.length_append]))
  rw [add64_add64, hn]

theorem renders_left {value dst fillzero : Nat} (h : Renders logLength value dst fillzero) :
    Leaves (add64 dst) (padded value fillzero) (uint64ToHexstr logLength value dst fillzero).2 := by
  have hlen := length_padded value fillzero
  refine ⟨fun w hw => ?_, fun mem i hi => ?_⟩
  · rw [hlen]
    exact h.inside w hw
  · have htext := congrArg (fun l : List UInt8 => l[i]?) (h.text mem)
    rw [List.getElem?_map, List.getElem?_range (by rwa [← hlen]),
      List.getElem?_eq_getElem hi] at htext
    exact Option.some.inj htext

/-- The blanks of the literal, of which at most eight are copied. -/
theorem take_blanks {len : Nat} (h : 1 ≤ len) :
    (ascii "        " ++ [0]).take (9 - len) = List.replicate (9 - len) space := by
  have hblanks : ascii "        " = List.replicate 8 space := by decide +kernel
  rw [hblanks, List.take_append_of_le_length (by rw [List.length_replicate]; omega),
    List.take_replicate, Nat.min_eq_left (by omega)]

/-- The assumptions about the floating-point logarithms: they are right for what is printed.  Of a thread
they need not be: its id is any 64-bit hash, `std::log10` rounds up just below a large power of ten, and
`0` has no logarithm. -/
structure Logarithms (log10 logLength : Nat → Nat) (m : Tm) (mill thread_id serviceid : Nat) :
    Prop where
  ymd : log10 (ymd m) = Nat.log 10 (ymd m)
  mill : log10 (1000 + mill) = Nat.log 10 (1000 + mill)
  thread_id : serviceid = 0 → log10 thread_id = Nat.log 10 thread_id
  serviceid : 16 ≤ serviceid → logLength serviceid = (hexUpper serviceid).length

theorem formatHeader_left (buf : Nat) (level : LogLevel) (ht : 0 ≤ t)
    (hthread : thread_id < 2 ^ 64) (hservice : serviceid < 2 ^ 32)
    (hvalid : (localtime (t / 1000)).Valid)
    (hlog : Logarithms log10 logLength (localtime (t / 1000)) (t % 1000).toNat thread_id serviceid) :
    (formatHeader log10 logLength localtime t thread_id buf level serviceid).1 =
        (header (localtime (t / 1000)) (t % 1000).toNat thread_id serviceid level).length ∧
      Leaves (add64 buf)
        (header (localtime (t / 1000)) (t % 1000).toNat thread_id serviceid level)
        (formatHeader log10 logLength localtime t thread_id buf level serviceid).2 := by
  obtain ⟨hcount, hstamp⟩ := milltimestamp_left buf ht hvalid hlog.ymd hlog.mill
  have hbar := memcpy_left (add64 buf 23) (ascii " | ") 3 (by decide +kernel)
  have hthree : (ascii " | ").take 3 = ascii " | " := by decide +kernel
  have hbarlen : (ascii " | ").length = 3 := by decide +kernel
  rw [hthree] at hbar
  have hfirst := left_next hstamp hbar (length_stamp _ _) (by rw [length_stamp, hbarlen]; decide)
  have hfirstlen : (stamp (localtime (t / 1000)) (t % 1000).toNat ++ ascii " | ").length = 26 := by
    rw [List.length_append, length_stamp, hbarlen]
  have hwho := length_who hthread hservice
  -- the level is written behind anything
  have hlevel : ∀ {text log} offset, Leaves (add64 buf) text log → text.length = offset →
      offset ≤ 46 → Leaves (add64 buf) (text ++ toString level)
        (log ++ memcpy (add64 buf offset) (toString level) 11) := by
    intro text log offset htext hoffset hle
    have h := memcpy_left (add64 buf offset) (toString level) 11 (by rw [length_toString]; decide)
    rw [List.take_of_length_le (by rw [length_toString])] at h
    exact left_next htext h hoffset (by rw [length_toString]; omega)
  unfold formatHeader header
  simp only [hcount, @List.length_append _ _ (toString level), length_toString]
  by_cases hzero : serviceid = 0
  · subst hzero
    obtain ⟨hlen, -⟩ := uint64ToStr_spells (add64 buf 26) hthread (hlog.thread_id rfl)
    have hid := uint64ToStr_left (add64 buf 26) hthread (hlog.thread_id rfl)
    have hpos := length_decimal_pos thread_id
    have hshort := length_decimal_le hthread
    have hsecond := left_next hfirst hid hfirstlen (by omega)
    have heq : who thread_id 0
        = decimal thread_id ++ List.replicate (9 - (decimal thread_id).length) space := rfl
    rw [heq, if_pos rfl]
    simp only [hlen]
    by_cases hlt : (decimal thread_id).length < 9
    · rw [if_pos hlt, ← List.append_assoc]
      have hblanks := memcpy_left (add64 buf (26 + (decimal thread_id).length))
        (ascii "        " ++ [0]) (9 - (decimal thread_id).length) (by decide +kernel)
      rw [take_blanks hpos] at hblanks
      have hthird := left_next hsecond hblanks (by rw [List.length_append, hfirstlen])
        (by simp only [List.length_append, hfirstlen, List.length_replicate]; omega)
      have hcells : (stamp (localtime (t / 1000)) (t % 1000).toNat ++ ascii " | " ++
          decimal thread_id ++ List.replicate (9 - (decimal thread_id).length) space).length
            = 26 + (decimal thread_id).length + (9 - (decimal thread_id).length) := by
        rw [List.length_append, List.length_append, hfirstlen, List.length_replicate]
      refine ⟨by rw [hcells], hlevel _ hthird hcells (by omega)⟩
    · rw [if_neg hlt, show 9 - (decimal thread_id).length = 0 by omega, List.replicate_zero,
        List.append_nil]
      have hcells : (stamp (localtime (t / 1000)) (t % 1000).toNat ++ ascii " | " ++
          decimal thread_id).length = 26 + (decimal thread_id).length := by
        rw [List.length_append, hfirstlen]
      exact ⟨by rw [hcells], hlevel _ hsecond hcells (by omega)⟩
  · have hcolon : Leaves (add64 (add64 buf 26)) [colon] [(add64 buf 26, colon)] := by
      have h := spells_singleton (add64 (add64 buf 26)) colon
      rw [show add64 (add64 buf 26) 0 = add64 buf 26 by unfold add64; omega] at h
      exact h.leaves (add64_injOn _ (by decide))
    have hdigits := renders_serviceid hservice (Buffer.add64_lt buf 27) hlog.serviceid
    have height : max (hexUpper serviceid).length 8 = 8 :=
      Nat.max_eq_right (length_hexUpper_le_eight hservice)
    have hpadded : (padded serviceid 8).length = 8 := by rw [length_padded, height]
    have hsecond := left_next hfirst hcolon hfirstlen (by rw [hfirstlen]; decide)
    have hthird := left_next (n := 27) hsecond (renders_left hdigits)
      (by rw [List.length_append, hfirstlen]; rfl)
      (by rw [List.length_append, hfirstlen, hpadded]; decide)
    have heq : who thread_id serviceid = [colon] ++ padded serviceid 8 := if_neg hzero
    rw [heq, if_neg hzero, ← List.append_assoc]
    simp only [hdigits.length, height]
    rw [if_neg (by decide)]
    have hcells : (stamp (localtime (t / 1000)) (t % 1000).toNat ++ ascii " | " ++
        [colon] ++ padded serviceid 8).length = 35 := by
      rw [List.length_append, List.length_append, hfirstlen, hpadded]
      rfl
    exact ⟨by rw [hcells], hlevel 35 hthird hcells (by decide)⟩

end

/-- **Headers.**  In a year of four digits, and where the logarithms are right, a header is the time, the
thread or the service and the level, from 46 to 57 bytes; nothing is written outside of it, and with it
any text is a line. -/
theorem formatHeader_leaves (log10 logLength : Nat → Nat) (localtime : Int → Tm) (now : Int)
    (thread_id buf : UInt64) (serviceid : UInt32) (level : LogLevel) (hnow : 0 ≤ now)
    (hvalid : (localtime (now / 1000)).Valid)
    (hlog : Logarithms log10 logLength (localtime (now / 1000)) (now % 1000).toNat
      thread_id.toNat serviceid.toNat) :
    let written := formatHeader log10 logLength localtime now thread_id.toNat buf.toNat level
      serviceid.toNat
    let text := header (localtime (now / 1000)) (now % 1000).toNat thread_id.toNat
      serviceid.toNat level
    written.1 = text.length ∧ Leaves (add64 buf.toNat) text written.2 ∧
      46 ≤ text.length ∧ text.length ≤ 57 ∧
      ∀ (console : Bool) (s : List UInt8), s.length < 2 ^ 63 - 60 →
        ∃ l : Line, l.console = console ∧ l.level = level ∧ l.text = s ∧ l.header = text := by
  intro written text
  have hthread := thread_id.toNat_lt
  have hservice := serviceid.toNat_lt
  obtain ⟨hlen, hleft⟩ := formatHeader_left buf.toNat level hnow hthread hservice hvalid hlog
  obtain ⟨hlow, hhigh⟩ := length_header (localtime (now / 1000)) (now % 1000).toNat level hthread
    hservice
  exact ⟨hlen, hleft, hlow, hhigh, fun console s hs =>
    ⟨headerLine console level _ _ _ _ s hthread hservice hs, rfl, rfl, rfl, rfl⟩⟩

/-- The moment of the comment above `milltimestamp`, for a service and for a thread. -/
theorem formatHeader_leaves_moment :
    let localtime : Int → Tm := fun _ => ⟨117, 10, 11, 16, 3, 11⟩
    header (localtime 1510416191) 635 4242 0x01000002 .Info
        = ascii "2017-11-11 16:03:11.635 | :01000002 | INFO  | " ∧
      header (localtime 1510416191) 635 4242 0 .Error
        = ascii "2017-11-11 16:03:11.635 | 4242      | ERROR | " ∧
      Leaves (add64 4096) (header (localtime 1510416191) 635 4242 0x01000002 .Info)
        (formatHeader (Nat.log 10) exactLength localtime 1510416191635 4242 4096 .Info
          0x01000002).2 ∧
      Leaves (add64 4096) (header (localtime 1510416191) 635 4242 0 .Error)
        (formatHeader (Nat.log 10) exactLength localtime 1510416191635 4242 4096 .Error 0).2 := by
  intro localtime
  have hvalid : (localtime (1510416191635 / 1000)).Valid := by
    constructor <;> decide
  refine ⟨by decide +kernel, by decide +kernel, ?_, ?_⟩
  · exact (formatHeader_leaves (Nat.log 10) exactLength localtime 1510416191635 4242 4096
      0x01000002 .Info (by decide) hvalid ⟨rfl, rfl, fun _ => rfl, fun _ => by decide +kernel⟩).2.1
  · exact (formatHeader_leaves (Nat.log 10) exactLength localtime 1510416191635 4242 4096
      0 .Error (by decide) hvalid ⟨rfl, rfl, fun _ => rfl, fun h => absurd h (by decide)⟩).2.1

end HappyServer.Common.Header
