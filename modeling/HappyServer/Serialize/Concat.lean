import HappyServer.Lib.Json
import HappyServer.Serialize.Acceptance

/-!
# Concatenating (`concat`, `concats` of `magic/lua_serialize.cpp`)

The texts of the arguments, one after the other.  A table stands for the elements of its array part; its
other pairs and its metamethods are not looked at.  Errors are raised where packing raises them, with
texts of their own.

    concat = the texts of `leaves`  ↔  every element is concatenable, in at most MAX_DEPTH tables     (concat_leaves)
-/

namespace HappyServer.Serialize

open Word

variable {τ : Type}

/-- The texts of the errors, which delete the buffer as those of packing do. -/
def concatErrorText : PackError → String
  | .tooDeep _ => "serialize can't concat too depth table"
  | .unsupported kind _ => "Unsupport type " ++ kind.typename ++ " to concat"

/-! ## Scalars -/

/-- `n / d`, rounded to the nearest integer, and to the even one in the middle of two. -/
def roundDiv (n d : Nat) : Nat :=
  if 2 * (n % d) < d ∨ (2 * (n % d) = d ∧ n / d % 2 = 0) then n / d else n / d + 1

/-- `std::to_string` of a double is `%f`: six digits after the point, of the exact value. -/
def realText (bits : UInt64) : List UInt8 :=
  let sign := if 2 ^ 63 ≤ bits.toNat then Json.lit "-" else []
  let exponent := bits.toNat / 2 ^ 52 % 2 ^ 11
  let fraction := bits.toNat % 2 ^ 52
  if exponent = 2047 then sign ++ Json.lit (if fraction = 0 then "inf" else "nan")
  else
    -- the double is `m * 2 ^ (e - 1075)`
    let m : Nat := if exponent = 0 then fraction else fraction + 2 ^ 52
    let e := max exponent 1
    let millionths := roundDiv (m * 10 ^ 6 * 2 ^ (e - 1075)) (2 ^ (1075 - e))
    let digits := (Json.decimal (millionths % 10 ^ 6 : Nat))
    sign ++ Json.decimal (millionths / 10 ^ 6 : Nat) ++ Json.lit "." ++
      (List.replicate (6 - digits.length) 48 ++ digits)

/-- What is written of a scalar; a pointer is not concatenated. -/
def scalarText : Scalar → List UInt8
  | .nil => []
  | .boolean b => Json.lit (if b then "true" else "false")
  | .integer x => Json.decimal x.toInt
  | .number bits => realText bits
  | .lightuserdata _ => []
  | .string bytes => bytes

example : realText 0x400921FB54442D18 = "3.141593".toUTF8.data.toList := by decide +kernel

/-! ## Elements -/

/-- The array part of a table, as `int array_size = (int)lua_rawlen(L, index)` has it. -/
def LuaTable.arraySize (t : LuaTable τ) : Nat := (i32 t.rawlen).toNat

/-- `x` is an element of an element … of `v`, with `n` tables around it. -/
inductive Element (S : Store τ) : LuaValue τ → Nat → LuaValue τ → Prop
  | here {v} : Element S v 0 v
  | element {t n x} {i : Nat} : 1 ≤ i → i < 1 + (S t).arraySize →
      Element S (rawgeti (S t).pairs i) n x → Element S (.table t) (n + 1) x

def Concatenable : LuaValue τ → Prop
  | .scalar (.lightuserdata _) => False
  | .other _ => False
  | _ => True

/-- The scalars in the first `left` levels of elements, in their order. -/
def leaves (S : Store τ) : Nat → LuaValue τ → List Scalar
  | 0, _ => []
  | left + 1, v =>
    match v with
    | .scalar s => [s]
    | .table t =>
      (List.range' 1 (S t).arraySize).flatMap fun i : Nat => leaves S left (rawgeti (S t).pairs i)
    | .other _ => []

/-! ## What is written -/

/-- `concat_one` at a depth that leaves `left` of them. -/
def concatWithin (S : Store τ) (heap : Bool) : Nat → LuaValue τ → Except PackError (List UInt8)
  | 0, _ => .error (.tooDeep heap)
  | left + 1, v =>
    match v with
    | .scalar (.lightuserdata _) => .error (.unsupported .userdata heap)
    | .scalar s => .ok (scalarText s)
    | .table t => wbElements (concatWithin S heap left) (S t) 1 (S t).arraySize
    | .other kind => .error (.unsupported kind heap)

def concatValues (S : Store τ) (heap : Bool) : List (LuaValue τ) → Except PackError (List UInt8)
  | [] => .ok []
  | v :: vs => do
    let b ← concatWithin S heap (MAX_DEPTH + 1) v
    let bs ← concatValues S heap vs
    .ok (b ++ bs)

/-! ## On Lua's stack -/

namespace LuaStack

section Concat

variable (S : Store τ)

/-- The loop is that of `wb_table_array`. -/
def concatTableArray (one : Int → Lua τ Unit) (index : Int) : Lua τ Int := do
  let t ← tableAt index
  let arraySize := i32 (S t).rawlen
  wbElements S one index 1 arraySize.toNat
  pure arraySize

def concatTable (one : Int → Lua τ Unit) (index : Int) : Lua τ Unit := do
  let index ← absolute index
  let _ ← concatTableArray S one index

/-- `concat_one` at a depth that leaves `left` of them. -/
def concatOne : Nat → Int → Lua τ Unit
  | 0, _ => raise .tooDeep
  | left + 1, index => do
    let x ← slotAt index
    match x.toValue with
    | .scalar .nil => pure ()
    | .scalar (.lightuserdata _) => raise (.unsupported .userdata)
    | .scalar s => writeBack (scalarText s)
    | .table _ =>
      let index ← absolute index
      concatTable S (concatOne left) index
    | .other kind => raise (.unsupported kind)

/-- `concat_one(L, b, i, 0)` for so many `i`. -/
def concatArguments (i : Nat) : Nat → Lua τ Unit
  | 0 => pure ()
  | n + 1 => do
    concatOne S (MAX_DEPTH + 1) i
    concatArguments (i + 1) n

def concatAll (heap : Bool) : Lua τ (Option (List UInt8)) := do
  let n ← gettop
  if n = 0 then pure none
  else
    modify fun st => { st with buf := {} }
    if heap then setHeap true
    concatArguments S 1 n
    if heap then setHeap false
    let st ← get
    pure (some st.buf.bytes)

def concat : Lua τ (Option (List UInt8)) := concatAll S true

def concatsafe : Lua τ (Option (List UInt8)) := concatAll S false

end Concat

/-! ## Stack discipline -/

section Discipline

variable (S : Store τ) {heap : Bool} {n : Nat} {st : LuaState τ}

theorem does_concatTable {one : Int → Lua τ Unit} {enc : LuaValue τ → Except PackError (List UInt8)}
    (hone : Packs heap one enc) {t : τ} {index : Nat} (hpos : 0 < index)
    (htable : Slots.get st.stack index = some (.value (.table t)))
    (hlive : st.buf.Live heap) (hn : n ≤ st.nextId) :
    Does heap n (concatTable S one index) st st.stack
      (Serialize.wbElements enc (S t) 1 (S t).arraySize) () := by
  have habs : absolute (index : Int) st = .ok (index : Int) (st.on st.stack) := by
    unfold absolute
    rw [if_neg (by omega)]
    rfl
  have htableAt := run_tableAt htable
  unfold concatTable
  refine does_step habs ?_
  rw [on_self]
  unfold concatTableArray
  simp only [bind_assoc]
  refine does_step htableAt ?_
  rw [on_self]
  have helements := does_wbElements S hone 1 (S t).arraySize st hlive hn htable
  exact does_return (g := fun _ => ()) helements

theorem packs_concatOne (left : Nat) : Packs heap (concatOne S left) (concatWithin S heap left) := by
  induction left with
  | zero =>
    intro n st index x _ hlive _
    exact does_raise hlive .tooDeep
  | succ left ih =>
    intro n st index x hx hlive hn
    unfold concatOne
    refine does_step (run_slotAt hx) ?_
    rw [on_self]
    cases hv : x.toValue with
    | scalar s =>
      cases s with
      | nil => exact does_pure st ()
      | boolean b => exact does_writeBack hlive (scalarText (.boolean b))
      | integer i => exact does_writeBack hlive (scalarText (.integer i))
      | number bits => exact does_writeBack hlive (scalarText (.number bits))
      | lightuserdata p => exact does_raise hlive (.unsupported .userdata)
      | string bytes => exact does_writeBack hlive (scalarText (.string bytes))
    | other kind => exact does_raise hlive (.unsupported kind)
    | table t =>
      have hslot : x = .value (.table t) := by
        cases x with
        | value v => exact congrArg Slot.value hv
        | pairsMethod t => cases hv
        | iterator id => cases hv
      subst hslot
      obtain ⟨i, hpos, hget, habs⟩ := run_absolute hx
      refine does_step habs ?_
      rw [on_self]
      have htable := does_concatTable S ih hpos hget hlive hn
      rwa [concatWithin]

/-- The arguments from the `i`-th on. -/
theorem does_concatArguments (vs : List (LuaValue τ)) :
    ∀ i (base : List (Slot τ)) (st : LuaState τ), st.stack = base ++ vs.map .value →
      base.length + 1 = i → st.buf.Live heap → n ≤ st.nextId →
      Does heap n (concatArguments S i vs.length) st st.stack (concatValues S heap vs) () := by
  induction vs with
  | nil =>
    intro i base st _ _ _ _
    exact does_pure st ()
  | cons v vs ih =>
    intro i base st hstack hi hlive hn
    have hget : Slots.get st.stack i = some (.value v) := by
      rw [hstack]
      exact Slots.get_length base _ _ hi
    have hfirst := packs_concatOne S (MAX_DEPTH + 1) n st i (.value v) hget hlive hn
    rw [concatValues]
    refine does_bind (concatValues S heap vs) hfirst (Nat.le_refl n) ?_
    intro bs st' hstack' hgrew
    rw [← hstack']
    refine ih (i + 1) (base ++ [.value v]) st' ?_ ?_ (hgrew.live hlive) (Nat.le_trans hn hgrew.ids)
    · rw [hstack', hstack, List.append_assoc]
      rfl
    · rw [List.length_append, List.length_singleton, hi]

/-- The buffer is new, and on the heap while the arguments are concatenated. -/
theorem concatAll_eq (vs : List (LuaValue τ)) (hvs : vs ≠ []) (hstack : st.stack = vs.map .value)
    (heap : Bool) :
    concatAll S heap st = (concatArguments S 1 vs.length >>= fun _ =>
      (if heap then setHeap false else pure ()) >>= fun _ => get >>= fun st =>
        pure (some st.buf.bytes)) { st with buf := { heap := heap } } := by
  have hlen : st.stack.length = vs.length := by rw [hstack, List.length_map]
  have hne : vs.length ≠ 0 := fun h => hvs (List.length_eq_zero_iff.mp h)
  unfold concatAll
  rw [run_bind]
  show (if st.stack.length = 0 then _ else _ : Lua τ (Option (List UInt8))) st = _
  rw [hlen, if_neg hne]
  cases heap <;> rfl

theorem run_concatAll (vs : List (LuaValue τ)) (hvs : vs ≠ []) (hstack : st.stack = vs.map .value)
    (heap : Bool) :
    match concatValues S heap vs with
    | .ok bs => ∃ st', concatAll S heap st = .ok (some bs) st' ∧ st'.stack = st.stack ∧
        st'.buf = { bytes := bs }
    | .error e => ∃ st', concatAll S heap st = .error (.error e) st' ∧ st'.buf.Freed heap := by
  have hlive : HeapBuffer.Live heap { heap := heap } := ⟨rfl, rfl, rfl⟩
  have hdoes := does_concatArguments S (n := 0) vs 1 [] { st with buf := { heap := heap } }
    hstack rfl hlive (Nat.zero_le _)
  rw [concatAll_eq S vs hvs hstack, run_bind]
  unfold Does at hdoes
  cases hvalues : concatValues S heap vs with
  | error e =>
    rw [hvalues] at hdoes
    obtain ⟨st', hrun, hfreed⟩ := hdoes
    rw [hrun]
    exact ⟨st', rfl, hfreed⟩
  | ok bs =>
    rw [hvalues] at hdoes
    obtain ⟨st', hrun, hstack', hgrew⟩ := hdoes
    have htouch := (hgrew.live hlive).touch
    have hbuf : st'.buf = { heap := heap, bytes := bs } := hgrew.buf
    rw [hrun]
    cases heap with
    | false =>
      refine ⟨st', ?_, hstack', hbuf⟩
      show EStateM.Result.ok (some st'.buf.bytes) st' = _
      rw [hbuf]
    | true =>
      refine ⟨{ st' with buf := { st'.buf.touch with heap := false } }, ?_, hstack', ?_⟩
      · show EStateM.Result.ok (some st'.buf.touch.bytes) _ = _
        rw [htouch, hbuf]
      · rw [htouch, hbuf]

end Discipline

end LuaStack

/-! ## What is concatenated -/

section Leaves

variable (S : Store τ) {heap : Bool} {left : Nat} {t : τ}

/-- All that is looked at in `v` is concatenable and lies in fewer than `left` tables. -/
def Joined (left : Nat) (v : LuaValue τ) : Prop := ∀ n x, Element S v n x → n < left ∧ Concatenable x

theorem joined_table : Joined S (left + 1) (.table t) ↔
    ∀ i : Nat, 1 ≤ i → i < 1 + (S t).arraySize → Joined S left (rawgeti (S t).pairs i) := by
  constructor
  · intro h i hi hlt n x hx
    obtain ⟨hn, hx⟩ := h (n + 1) x (.element hi hlt hx)
    exact ⟨by omega, hx⟩
  · intro h n x hx
    cases hx with
    | here => exact ⟨Nat.succ_pos left, trivial⟩
    | element hi hlt hx =>
      obtain ⟨hn, hx⟩ := h _ hi hlt _ _ hx
      exact ⟨by omega, hx⟩

theorem joined_scalar {s : Scalar} :
    Joined S (left + 1) (.scalar s) ↔ Concatenable (.scalar s : LuaValue τ) := by
  constructor
  · intro h
    exact (h 0 _ .here).2
  · intro h n x hx
    cases hx with
    | here => exact ⟨Nat.succ_pos left, h⟩

/-- The elements one after the other. -/
theorem wbElements_flatMap {one : LuaValue τ → Except PackError (List UInt8)} {t : LuaTable τ}
    {text : Nat → List UInt8} (i count : Nat)
    (h : ∀ j, i ≤ j → j < i + count → one (rawgeti t.pairs j) = .ok (text j)) :
    wbElements one t i count = .ok ((List.range' i count).flatMap text) := by
  induction count generalizing i with
  | zero => rfl
  | succ count ih =>
    rw [wbElements, h i (Nat.le_refl i) (by omega), ih (i + 1) fun j hj hlt => h j (by omega) (by omega),
      List.range'_succ, List.flatMap_cons]
    rfl

theorem concatWithin_ok (heap : Bool) (left : Nat) : ∀ v, Joined S left v →
    concatWithin S heap left v = .ok ((leaves S left v).flatMap scalarText) := by
  induction left with
  | zero =>
    intro v h
    exact absurd (h 0 v .here).1 (Nat.lt_irrefl 0)
  | succ left ih =>
    intro v h
    cases v with
    | scalar s =>
      have htext : (leaves S (left + 1) (.scalar s : LuaValue τ)).flatMap scalarText = scalarText s := by
        rw [leaves, List.flatMap_cons, List.flatMap_nil, List.append_nil]
      rw [htext]
      cases s with
      | lightuserdata p => exact ((joined_scalar S).mp h).elim
      | _ => rfl
    | other kind => exact (h 0 _ .here).2.elim
    | table t =>
      have helements := fun j hj hlt => ih _ ((joined_table S).mp h j hj hlt)
      have hall := wbElements_flatMap 1 (S t).arraySize helements
      rw [concatWithin, leaves, List.flatMap_assoc, hall]

theorem concatWithin_ok_iff (left : Nat) : ∀ v,
    (∃ bs, concatWithin S heap left v = .ok bs) ↔ Joined S left v := by
  intro v
  refine ⟨?_, fun h => ⟨_, concatWithin_ok S heap left v h⟩⟩
  induction left generalizing v with
  | zero =>
    rintro ⟨bs, h⟩
    cases h
  | succ left ih =>
    rintro ⟨bs, h⟩
    cases v with
    | scalar s =>
      rw [joined_scalar]
      cases s with
      | lightuserdata p => cases h
      | _ => trivial
    | other kind => cases h
    | table t =>
      rw [concatWithin] at h
      rw [joined_table]
      intro i hi hlt
      exact ih _ ((wbElements_ok_iff (S t) 1 _).mp ⟨bs, h⟩ i hi hlt)

/-! ## Arguments -/

/-- What is written of the arguments. -/
def texts (vs : List (LuaValue τ)) : List UInt8 :=
  (vs.flatMap (leaves S (MAX_DEPTH + 1))).flatMap scalarText

theorem concatValues_ok {vs : List (LuaValue τ)} (h : ∀ v ∈ vs, Joined S (MAX_DEPTH + 1) v) :
    concatValues S heap vs = .ok (texts S vs) := by
  induction vs with
  | nil => rfl
  | cons v vs ih =>
    have hfirst := concatWithin_ok S heap (MAX_DEPTH + 1) v (h v List.mem_cons_self)
    have hrest := ih fun v' hv' => h v' (List.mem_cons_of_mem v hv')
    rw [concatValues, hfirst, hrest]
    show Except.ok _ = _
    rw [texts, texts, List.flatMap_cons, List.flatMap_append]

theorem concatValues_error (heap : Bool) {vs : List (LuaValue τ)}
    (h : ¬ ∀ v ∈ vs, Joined S (MAX_DEPTH + 1) v) :
    ∃ e, concatValues S heap vs = .error e := by
  induction vs with
  | nil =>
    exfalso
    apply h
    intro v hv
    cases hv
  | cons v vs ih =>
    rw [concatValues]
    cases hv : concatWithin S heap (MAX_DEPTH + 1) v with
    | error e => exact ⟨e, rfl⟩
    | ok b =>
      have hjoined := (concatWithin_ok_iff S (MAX_DEPTH + 1) v).mp ⟨b, hv⟩
      obtain ⟨e, he⟩ := ih fun hvs => h fun v' hv' => by
        rcases List.mem_cons.mp hv' with rfl | hv'
        · exact hjoined
        · exact hvs v' hv'
      rw [he]
      exact ⟨e, rfl⟩

end Leaves

section Stack

open LuaStack

variable (S : Store τ) {vs : List (LuaValue τ)} {st : LuaState τ}

theorem concatAll_nil (hstack : st.stack = []) (heap : Bool) : concatAll S heap st = .ok none st := by
  have hlen : st.stack.length = 0 := by rw [hstack, List.length_nil]
  unfold concatAll
  rw [run_bind]
  show (if st.stack.length = 0 then _ else _ : Lua τ (Option (List UInt8))) st = _
  exact congrFun (if_pos hlen) st

/-- With no argument there is no result, and otherwise a buffer that is not to be deleted. -/
theorem concatAll_joined (hstack : st.stack = vs.map .value) (h : ∀ v ∈ vs, Joined S (MAX_DEPTH + 1) v)
    (heap : Bool) : ∃ st', concatAll S heap st = .ok (if vs = [] then none else some (texts S vs)) st' ∧
      st'.stack = st.stack ∧ (vs ≠ [] → st'.buf = { bytes := texts S vs }) := by
  by_cases hvs : vs = []
  · subst hvs
    exact ⟨st, concatAll_nil S hstack heap, rfl, fun h => absurd rfl h⟩
  · have hrun := run_concatAll S vs hvs hstack heap
    rw [concatValues_ok S h] at hrun
    obtain ⟨st', hrun, hstack', hbuf⟩ := hrun
    refine ⟨st', ?_, hstack', fun _ => hbuf⟩
    rw [if_neg hvs]
    exact hrun

theorem concatAll_refused (hstack : st.stack = vs.map .value)
    (h : ¬ ∀ v ∈ vs, Joined S (MAX_DEPTH + 1) v) (heap : Bool) :
    ∃ e st', concatAll S heap st = .error (.error e) st' ∧ st'.buf.Freed heap := by
  have hvs : vs ≠ [] := by
    rintro rfl
    apply h
    intro v hv
    cases hv
  have hrun := run_concatAll S vs hvs hstack heap
  obtain ⟨e, he⟩ := concatValues_error S heap h
  rw [he] at hrun
  obtain ⟨st', hrun, hfreed⟩ := hrun
  exact ⟨e, st', hrun, hfreed⟩

/-- **The leaves, in their order.**  `concat` and `concats` write the texts of the scalars that lie in the
array parts of the arguments, if there is nothing else in them and no element in more than `MAX_DEPTH`
tables.  Otherwise both raise an error, and the buffer of `concat` was deleted once. -/
theorem concat_leaves (vs : List (LuaValue τ)) (st : LuaState τ) (hstack : st.stack = vs.map .value) :
    ((∀ v ∈ vs, ∀ n x, Element S v n x → n ≤ MAX_DEPTH ∧ Concatenable x) →
      ∀ m ∈ [concat S, concatsafe S], ∃ st',
        m st = .ok (if vs = [] then none else some (texts S vs)) st' ∧ st'.stack = st.stack ∧
        (vs ≠ [] → st'.buf = { bytes := texts S vs })) ∧
    ((¬ ∀ v ∈ vs, ∀ n x, Element S v n x → n ≤ MAX_DEPTH ∧ Concatenable x) →
      (∃ e st', concat S st = .error (.error e) st' ∧ st'.buf.deletes = 1 ∧
        st'.buf.misused = false) ∧
      ∃ e st', concatsafe S st = .error (.error e) st' ∧ st'.buf.deletes = 0 ∧
        st'.buf.misused = false) := by
  have hjoined : (∀ v ∈ vs, ∀ n x, Element S v n x → n ≤ MAX_DEPTH ∧ Concatenable x) ↔
      ∀ v ∈ vs, Joined S (MAX_DEPTH + 1) v := by
    unfold Joined
    simp only [Nat.lt_succ_iff]
  rw [hjoined]
  constructor
  · intro h m hm
    rcases List.mem_cons.mp hm with rfl | hm
    · exact concatAll_joined S hstack h true
    · rw [List.mem_singleton.mp hm]
      exact concatAll_joined S hstack h false
  · intro h
    obtain ⟨e, st', hrun, hfreed⟩ := concatAll_refused S hstack h true
    obtain ⟨e', st'', hrun', hfreed'⟩ := concatAll_refused S hstack h false
    exact ⟨⟨e, st', hrun, hfreed.deletes, hfreed.sound⟩, e', st'', hrun', hfreed'.deletes,
      hfreed'.sound⟩

/-- Of the cyclic table, every element is the table. -/
theorem element_cyclic (n : Nat) : Element (fun _ => cyclicTable) (.table ()) n (.table ()) := by
  induction n with
  | zero => exact .here
  | succ n ih => exact .element (i := 1) (Nat.le_refl 1) (by decide) ih

theorem concat_leaves_cyclic :
    ∃ e st', concat (fun _ => cyclicTable)
      { stack := [.value (.table ())], iterators := fun _ => ⟨.nil, .nil, []⟩ } = .error (.error e) st' ∧
      st'.buf.deletes = 1 ∧ st'.buf.misused = false := by
  refine ((concat_leaves (fun _ => cyclicTable) [.table ()]
    { stack := [.value (.table ())], iterators := fun _ => ⟨.nil, .nil, []⟩ } rfl).2 ?_).1
  intro h
  have := (h _ List.mem_cons_self 33 _ (element_cyclic 33)).1
  revert this
  decide

end Stack

end HappyServer.Serialize
