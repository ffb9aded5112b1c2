import HappyServer.Serialize.Stream
import HappyServer.Serialize.UnpackRuns

/-!
# The slots below (`lua_serialize_do_unpack`, `unpack_one`)

`unpack` pushes its values one above the other; an `unpack_one` that Lua calls has a stack of its own and
a new view of what is left.  No call looks at the slots below its own, so both do the same, except that
more slots may be too many for `luaL_checkstack`.

    unpackOne room fuel lowers unpackOne room fuel'                                  (lowers_unpackOne)
-/

namespace HappyServer.Serialize.UnpackStack

open Traced Word

variable {α β : Type}

/-- What runs never come to: Lua misused, and more fuel than bytes used up. -/
def Fault.lost : Fault → Prop
  | .stuck => True
  | .error e => e = .outOfFuel
  | .stackOverflow => False

/-- The same slots of their own, `k`, above `below` and above `below'`; the same heap and bytes left. -/
inductive Over (below below' : List Slot) (k : Nat) : Machine → Machine → Prop
  | mk {own heap limit limit' view view'} (hown : own.length = k) (hview : view.rest = view'.rest) :
      Over below below' k ⟨below ++ own, limit, heap, view⟩ ⟨below' ++ own, limit', heap, view'⟩

/-- What is done above `below`, and above `below'`. -/
inductive Lowered (below below' : List Slot) (k : Nat) :
    EStateM.Result Fault Machine α → EStateM.Result Fault Machine α → Prop
  | overflow {st r} : Lowered below below' k (.error .stackOverflow st) r
  | lostAbove {f st r} (h : f.lost) : Lowered below below' k (.error f st) r
  | lost {f st r} (h : f.lost) : Lowered below below' k r (.error f st)
  | ok {a st st'} (h : Over below below' k st st') : Lowered below below' k (.ok a st) (.ok a st')
  | error {e st st'} : Lowered below below' k (.error (.error e) st) (.error (.error e) st')

/-- With fewer slots below and another view of the bytes left, `m'` does what `m` does: both find `k`
slots of their own and leave `k'`. -/
def Lowers (k k' : Nat) (m m' : Api α) : Prop := ∀ below below' st st', below'.length ≤ below.length →
  Over below below' k st st' → Lowered below below' k' (m st) (m' st')

variable {k k' k'' : Nat}

theorem lowers_pure (a : α) : Lowers k k (pure a : Api α) (pure a) :=
  fun _ _ _ _ _ h => .ok h

theorem lowers_throw (e : Error) : Lowers k k' (throw (.error e) : Api α) (throw (.error e)) :=
  fun _ _ _ _ _ _ => .error

theorem lowers_lostAbove {f : Fault} (h : f.lost) (m : Api α) : Lowers k k' (throw f) m :=
  fun _ _ _ _ _ _ => .lostAbove h

theorem lowers_lost {f : Fault} (h : f.lost) (m : Api α) : Lowers k k' m (throw f) :=
  fun _ _ _ _ _ _ => .lost h

theorem lowers_bind {m m' : Api α} {f f' : α → Api β} (hm : Lowers k k' m m')
    (hf : ∀ a, Lowers k' k'' (f a) (f' a)) : Lowers k k'' (m >>= f) (m' >>= f') := by
  intro below below' st st' hle hover
  have h := hm below below' st st' hle hover
  rw [run_bind, run_bind]
  generalize m st = r at h ⊢
  generalize m' st' = r' at h ⊢
  cases h with
  | overflow => exact .overflow
  | lostAbove h => exact .lostAbove h
  | lost h => exact .lost h
  | ok h => exact hf _ _ _ _ _ hle h
  | error => exact .error

/-! ## Calls of Lua -/

/-- What reads the same from the same bytes. -/
theorem lowers_reading {p p' : BufferView → Decode (α × BufferView)}
    (h : ∀ view view', view.rest = view'.rest →
      Alike (fun r r' => r.1 = r'.1 ∧ r.2.rest = r'.2.rest) (p view) (p' view')) :
    Lowers k k (reading p) (reading p') := by
  rintro below below' _ _ - ⟨hown, hview⟩
  unfold reading
  dsimp only
  obtain ⟨-, ⟨e, he, he'⟩ | ⟨⟨a, w⟩, ⟨_, w'⟩, hr, hr', rfl, hrest⟩⟩ := h _ _ hview 0
  · rw [he, he']
    exact .error
  · unfold Returns at hr hr'
    rw [hr, hr']
    exact .ok ⟨hown, hrest⟩

theorem lowers_same {p p' : BufferView → Decode (α × BufferView)} {bytes : BufferView → List UInt8}
    (h : ∀ view view', view.rest = view'.rest → Alike (Same (bytes view)) (p view) (p' view')) :
    Lowers k k (reading p) (reading p') :=
  lowers_reading fun view view' hview => alike_mono (h view view' hview) fun _ _ h => ⟨h.1, h.2.1⟩

theorem lowers_readOr (n line : Nat) (hpos : 0 < n) :
    Lowers k k (reading fun view => readOr view n line) (reading fun view => readOr view n line) :=
  lowers_reading fun _ _ hview => alike_mono (alike_readOr hview line hpos) fun _ _ h => ⟨h.1.1, h.1.2.1⟩

theorem lowers_push (x : Slot) : Lowers k (k + 1) (push x) (push x) := by
  rintro below below' _ _ - ⟨hown, hview⟩
  unfold push
  split
  · split
    · dsimp only
      rw [List.append_assoc, List.append_assoc]
      exact .ok ⟨by rw [List.length_append, hown, List.length_singleton], hview⟩
    · exact .lost trivial
  · exact .lostAbove trivial

theorem lowers_pop {n : Nat} (hn : n ≤ k) : Lowers k (k - n) (pop n) (pop n) := by
  rintro below below' _ _ - ⟨hown, hview⟩
  rename_i own _ _ _ _ _
  have hpop : ∀ base : List Slot, n ≤ (base ++ own).length ∧
      Slots.pop (base ++ own) n = base ++ Slots.pop own n := by
    intro base
    unfold Slots.pop
    rw [List.length_append, List.take_append, List.take_of_length_le (by omega)]
    exact ⟨by omega, by congr 2; omega⟩
  unfold pop
  dsimp only
  rw [if_pos (hpop below).1, if_pos (hpop below').1, (hpop below).2, (hpop below').2]
  refine .ok ⟨?_, hview⟩
  unfold Slots.pop
  rw [List.length_take]
  omega

theorem lowers_slotAt {n : Nat} (hpos : 0 < n) (hn : n ≤ k) :
    Lowers k k (slotAt (-n)) (slotAt (-n)) := by
  rintro below below' _ _ - ⟨hown, hview⟩
  unfold slotAt
  dsimp only
  rw [Slots.get_append_top below _ hpos (by omega), Slots.get_append_top below' _ hpos (by omega)]
  split
  · exact .ok ⟨hown, hview⟩
  · exact .lost trivial

theorem lowers_checkstack (room n : Nat) : Lowers k k (checkstack room n) (checkstack room n) := by
  rintro below below' _ _ hle ⟨hown, hview⟩
  unfold checkstack
  dsimp only
  rw [List.length_append, List.length_append]
  split
  · rw [if_pos (by omega)]
    exact .ok ⟨hown, hview⟩
  · exact .overflow

/-- What changes the heap only. -/
theorem lowers_modify (f : Heap → Heap) : Lowers k k (modify fun st => { st with heap := f st.heap })
    (modify fun st => { st with heap := f st.heap }) := by
  rintro below below' _ _ - ⟨hown, hview⟩
  exact .ok ⟨hown, hview⟩

theorem lowers_createtable : Lowers k (k + 1) createtable createtable := by
  rintro below below' _ _ hle ⟨hown, hview⟩
  have hbind : ∀ st : Machine, createtable st =
      (push (.table st.heap.length) >>= fun _ => modify fun st => { st with heap := st.heap ++ [[]] }) st :=
    fun _ => rfl
  rw [hbind, hbind]
  exact lowers_bind (lowers_push _) (fun _ => lowers_modify fun heap => heap ++ [[]]) _ _ _ _ hle
    ⟨hown, hview⟩

theorem lowers_setTable {n : Nat} (hpos : 0 < n) (hn : n ≤ k) (x y : Slot) :
    Lowers k k (setTable (-n) x y) (setTable (-n) x y) := by
  refine lowers_bind (lowers_slotAt hpos hn) fun table => ?_
  cases table with
  | table ref => exact lowers_modify fun heap => heap.modify ref fun es => setEntry es x y
  | scalar s => exact lowers_lostAbove (f := .stuck) trivial _

/-- The value is there, and the table below it. -/
theorem lowers_rawseti (i : Nat) : Lowers (k + 2) (k + 1) (rawseti (-2) i) (rawseti (-2) i) :=
  lowers_bind (lowers_slotAt (n := 1) Nat.one_pos (by omega)) fun v =>
    lowers_bind (lowers_setTable (n := 2) Nat.two_pos (by omega) _ v) fun _ =>
      lowers_pop (n := 1) (by omega)

theorem lowers_rawset : Lowers (k + 3) (k + 1) (rawset (-3)) (rawset (-3)) := by
  refine lowers_bind (lowers_slotAt (n := 2) Nat.two_pos (by omega)) fun x => ?_
  refine lowers_bind (lowers_slotAt (n := 1) Nat.one_pos (by omega)) fun y => ?_
  split
  · exact lowers_lostAbove (f := .stuck) trivial _
  split
  · exact lowers_throw _
  · exact lowers_bind (lowers_setTable (n := 3) (by decide) (by omega) x y) fun _ =>
      lowers_pop (n := 2) (by omega)

/-! ## Values -/

section Values

variable {room : Nat} {one one' : Api Unit} (hone : ∀ k, Lowers k (k + 1) one one')

theorem lowers_getString (n : Nat) : Lowers k (k + 1) (getString n) (getString n) :=
  lowers_bind (lowers_same fun _ _ hview => alike_getBuffer hview (i32 n)) fun _ => lowers_push _

include hone

theorem lowers_unpackElements (i n : Nat) :
    Lowers (k + 1) (k + 1) (unpackElements one i n) (unpackElements one' i n) := by
  induction n generalizing i with
  | zero => exact lowers_pure ()
  | succ n ih =>
    exact lowers_bind (hone (k + 1)) fun _ => lowers_bind (lowers_rawseti i) fun _ => ih (i + 1)

theorem lowers_unpackPairs (fuel fuel' : Nat) :
    Lowers (k + 1) (k + 1) (unpackPairs one fuel) (unpackPairs one' fuel') := by
  induction fuel generalizing fuel' with
  | zero => exact lowers_lostAbove (f := .error .outOfFuel) rfl _
  | succ fuel ih =>
    cases fuel' with
    | zero => exact lowers_lost (f := .error .outOfFuel) rfl _
    | succ fuel' =>
      refine lowers_bind (hone (k + 1)) fun _ => ?_
      refine lowers_bind (lowers_slotAt (n := 1) Nat.one_pos (by omega)) fun key => ?_
      split
      · exact lowers_pop (n := 1) (by omega)
      · exact lowers_bind (hone (k + 2)) fun _ => lowers_bind lowers_rawset fun _ => ih fuel'

theorem lowers_unpackTable (fuel fuel' cookie : Nat) :
    Lowers k (k + 1) (unpackTable room one fuel cookie) (unpackTable room one' fuel' cookie) := by
  refine lowers_bind (lowers_same fun _ _ hview => alike_tableLength hview cookie) fun size => ?_
  refine lowers_bind (lowers_checkstack room LUA_MINSTACK) fun _ => ?_
  refine lowers_bind lowers_createtable fun _ => ?_
  exact lowers_bind (lowers_unpackElements hone 1 size.2.toNat) fun _ => lowers_unpackPairs hone fuel fuel'

theorem lowers_pushValue (fuel fuel' : Nat) (type : UInt8) (cookie : Nat) :
    Lowers k (k + 1) (pushValue room one fuel type cookie) (pushValue room one' fuel' type cookie) := by
  have hlong : ∀ w line, 0 < w →
      Lowers k (k + 1) (reading (fun view => readOr view w line) >>= fun n => getString n)
        (reading (fun view => readOr view w line) >>= fun n => getString n) :=
    fun w line hpos => lowers_bind (lowers_readOr w line hpos) fun n => lowers_getString n
  have hinvalid : ∀ line, Lowers k (k + 1)
      (reading fun view => (invalidStream view line : Decode (Unit × BufferView)))
      (reading fun view => invalidStream view line) := by
    rintro line below below' _ _ - ⟨-, hview⟩
    show Lowered _ _ _ (.error (.error (.invalidStream (i32 _) line)) _) _
    rw [size_congr hview]
    exact .error
  unfold pushValue
  split
  · exact lowers_push _
  split
  · exact lowers_push _
  split
  · split
    · exact lowers_bind (lowers_same fun _ _ hview => alike_word hview 8 298 UInt64.ofNat (by decide))
        fun bits => lowers_push _
    · exact lowers_bind (lowers_same fun _ _ hview => alike_getInteger hview cookie) fun x => lowers_push _
  split
  · exact lowers_bind (lowers_same fun _ _ hview => alike_word hview 8 305 UInt64.ofNat (by decide))
      fun p => lowers_push _
  split
  · exact lowers_getString cookie
  split
  · split
    · exact hlong 2 375 (by decide)
    split
    · exact hinvalid 380
    · exact hlong 4 384 (by decide)
  split
  · exact lowers_unpackTable hone fuel fuel' cookie
  · exact hinvalid 394

end Values

theorem lowers_unpackOne (room fuel fuel' k : Nat) :
    Lowers k (k + 1) (unpackOne room fuel) (unpackOne room fuel') := by
  induction fuel generalizing fuel' k with
  | zero => exact lowers_lostAbove (f := .error .outOfFuel) rfl _
  | succ fuel ih =>
    cases fuel' with
    | zero => exact lowers_lost (f := .error .outOfFuel) rfl _
    | succ fuel' =>
      exact lowers_bind (lowers_readOr 1 403 Nat.one_pos) fun b =>
        lowers_pushValue (ih fuel') fuel fuel' (UInt8.ofNat b &&& 7) (UInt8.ofNat b >>> 3).toNat

end HappyServer.Serialize.UnpackStack
