import HappyServer.Lib.Slots
import HappyServer.Serialize.Unpack

/-!
# Unpacking on Lua's stack (`lua_serialize_do_unpack`)

`push_value`, `unpack_table` and the loop over the values, call of Lua by call of Lua.  What they read is
read as before; tables are now objects of Lua's heap, and a slot of the stack may only be used when it was
there on entry or after `luaL_checkstack`.

* `Fault.stuck` is what Lua must not be asked to do.
* `room`: so many slots can the stack have; `luaL_checkstack` fails when they are not enough.
* `Denotes heap lo hi slot tree`: the slot holds the tree, in tables of its own between `lo` and `hi`.

    a pair is set in a table as `lua_rawset` sets it in a tree                          (entries_setEntry)
-/

namespace HappyServer.Serialize.UnpackStack

open Traced Word

def LUA_MINSTACK : Nat := 20

/-! ## The state -/

inductive Slot where
  | scalar (s : Scalar)
  | table (ref : Nat)
deriving DecidableEq

abbrev Heap := List (List (Slot × Slot))

structure Machine where
  stack : List Slot
  /-- so many slots were ensured -/
  limit : Nat
  heap : Heap
  view : BufferView

inductive Fault where
  | error (e : Error)
  | stackOverflow
  | stuck

abbrev Api := EStateM Fault Machine

variable {α β γ : Type}

/-! ## Lua -/

def stuck : Api α := throw .stuck

/-- What is read from the buffer, or the error. -/
def reading (p : BufferView → Decode (α × BufferView)) : Api α := fun st =>
  match (p st.view 0).result with
  | .ok (a, view) => .ok a { st with view := view }
  | .error e => .error (.error e) st

def gettop : Api Nat := fun st => .ok st.stack.length st

def settop (n : Nat) : Api Unit := fun st =>
  .ok () { st with
    stack := st.stack.take n ++ List.replicate (n - st.stack.length) (.scalar .nil) }

def push (x : Slot) : Api Unit := fun st =>
  if st.stack.length < st.limit then .ok () { st with stack := st.stack ++ [x] }
  else .error .stuck st

def pop (n : Nat) : Api Unit := fun st =>
  if n ≤ st.stack.length then .ok () { st with stack := Slots.pop st.stack n } else .error .stuck st

def slotAt (index : Int) : Api Slot := fun st =>
  match Slots.get st.stack index with
  | some x => .ok x st
  | none => .error .stuck st

def checkstack (room n : Nat) : Api Unit := fun st =>
  if st.stack.length + n ≤ room then .ok () { st with limit := max st.limit (st.stack.length + n) }
  else .error .stackOverflow st

def createtable : Api Unit := do
  let st ← get
  push (.table st.heap.length)
  modify fun st => { st with heap := st.heap ++ [[]] }

def Slot.normalKey : Slot → Slot
  | .scalar s => .scalar s.normalKey
  | .table ref => .table ref

def Slot.isNaN : Slot → Bool
  | .scalar (.number bits) => Serialize.isNaN bits
  | _ => false

def setEntry (es : List (Slot × Slot)) (k v : Slot) : List (Slot × Slot) :=
  let others := es.filter fun e => e.1 ≠ k.normalKey
  if v = .scalar .nil then others else others ++ [(k.normalKey, v)]

/-- The table at `index` gets the pair. -/
def setTable (index : Int) (k v : Slot) : Api Unit := do
  match ← slotAt index with
  | .table ref =>
    modify fun st => { st with heap := st.heap.modify ref fun es => setEntry es k v }
  | .scalar _ => stuck

def rawseti (index : Int) (i : Nat) : Api Unit := do
  let v ← slotAt (-1)
  setTable index (.scalar (.integer (Int64.ofNat i))) v
  pop 1

def rawset (index : Int) : Api Unit := do
  let k ← slotAt (-2)
  let v ← slotAt (-1)
  if k = .scalar .nil then stuck
  else if k.isNaN then throw (.error .indexNaN)
  else
    setTable index k v
    pop 2

/-! ## Values -/

section Values

variable (room : Nat)

/-- `get_buffer(L, buf, n)`, with the conversion of `n` to `int`. -/
def getString (n : Nat) : Api Unit := do
  let bytes ← reading fun view => getBuffer view (i32 n)
  push (.scalar (.string bytes))

/-- The elements `i, i + 1, …`, as many as the second number says. -/
def unpackElements (one : Api Unit) (i : Nat) : Nat → Api Unit
  | 0 => pure ()
  | n + 1 => do
    one
    rawseti (-2) i
    unpackElements one (i + 1) n

def unpackPairs (one : Api Unit) : Nat → Api Unit
  | 0 => throw (.error .outOfFuel)
  | fuel + 1 => do
    one
    let k ← slotAt (-1)
    if k = .scalar .nil then pop 1
    else
      one
      rawset (-3)
      unpackPairs one fuel

def unpackTable (one : Api Unit) (fuel cookie : Nat) : Api Unit := do
  let size ← reading fun view => tableLength view cookie
  checkstack room LUA_MINSTACK
  createtable
  unpackElements one 1 size.2.toNat
  unpackPairs one fuel

def pushValue (one : Api Unit) (fuel : Nat) (type : UInt8) (cookie : Nat) : Api Unit :=
  if type = TYPE_NIL then push (.scalar .nil)
  else if type = TYPE_BOOLEAN then push (.scalar (.boolean (cookie ≠ 0)))
  else if type = TYPE_NUMBER then
    if cookie = TYPE_NUMBER_REAL then do
      let bits ← reading getReal
      push (.scalar (.number bits))
    else do
      let x ← reading fun view => getInteger view cookie
      push (.scalar (.integer (Int64.ofInt x)))
  else if type = TYPE_USERDATA then do
    let p ← reading getPointer
    push (.scalar (.lightuserdata p))
  else if type = TYPE_SHORT_STRING then getString cookie
  else if type = TYPE_LONG_STRING then
    if cookie = 2 then do
      let n ← reading fun view => readOr view 2 375
      getString n
    else if cookie ≠ 4 then reading fun view => invalidStream view 380
    else do
      let n ← reading fun view => readOr view 4 384
      getString n
  else if type = TYPE_TABLE then unpackTable room one fuel cookie
  else reading fun view => invalidStream view 394

def unpackOne : Nat → Api Unit
  | 0 => throw (.error .outOfFuel)
  | fuel + 1 => do
    let b ← reading fun view => readOr view 1 403
    let type := UInt8.ofNat b
    pushValue room (unpackOne fuel) fuel (type &&& 7) (type >>> 3).toNat

/-- `br.read(&type)` -/
def readType : Api (Option UInt8) := fun st =>
  match st.view.read 1 with
  | none => .ok none st
  | some (bs, view) => .ok (some (UInt8.ofNat (LittleEndian.ofBytes bs))) { st with view := view }

/-- The loop of `lua_serialize_do_unpack`, from its `i`-th round on. -/
def unpackValues (i : Nat) : Nat → Api Unit
  | 0 => throw (.error .outOfFuel)
  | fuel + 1 => do
    if i % 8 = 7 then checkstack room LUA_MINSTACK
    match ← readType with
    | none => pure ()
    | some type =>
      pushValue room (unpackOne room fuel) fuel (type &&& 7) (type >>> 3).toNat
      unpackValues (i + 1) fuel

def doUnpack (data : List UInt8) : Api Nat :=
  if data.length = 0 then pure 0
  else do
    settop 1
    modify fun st => { st with view := .make data }
    unpackValues room 0 (data.length + 1)
    let top ← gettop
    pure (top - 1)

end Values

/-! ## What slots hold -/

mutual

/-- The tables of the slot lie between `lo` and `hi`, and none is reached in two ways. -/
inductive Denotes (heap : Heap) : Nat → Nat → Slot → Tree → Prop
  | scalar {lo hi} (s : Scalar) : lo ≤ hi → Denotes heap lo hi (.scalar s) (.scalar s)
  | table {lo hi ref es entries} : lo ≤ ref → heap[ref]? = some es →
      Entries heap (ref + 1) hi es entries → Denotes heap lo hi (.table ref) (.table entries)

/-- Keys and values, each with tables of its own. -/
inductive Entries (heap : Heap) : Nat → Nat → List (Slot × Slot) → List (Tree × Tree) → Prop
  | nil {lo hi} : lo ≤ hi → Entries heap lo hi [] []
  | cons {lo a b hi k v tk tv es entries} : Denotes heap lo a k tk → Denotes heap a b v tv →
      Entries heap b hi es entries → Entries heap lo hi ((k, v) :: es) ((tk, tv) :: entries)

end

/-- Values one after the other, each with tables of its own. -/
inductive Values (heap : Heap) : Nat → Nat → List Slot → List Tree → Prop
  | nil {lo hi} : lo ≤ hi → Values heap lo hi [] []
  | cons {lo a hi slot tree slots trees} : Denotes heap lo a slot tree →
      Values heap a hi slots trees → Values heap lo hi (slot :: slots) (tree :: trees)

section Denotes

variable {heap heap' : Heap}

mutual

theorem Denotes.le : ∀ {lo hi slot tree}, Denotes heap lo hi slot tree → lo ≤ hi
  | _, _, _, _, .scalar _ h => h
  | _, _, _, _, .table hlo _ hes => by
    have := hes.le
    omega

theorem Entries.le : ∀ {lo hi es entries}, Entries heap lo hi es entries → lo ≤ hi
  | _, _, _, _, .nil h => h
  | _, _, _, _, .cons hk hv hes => by
    have := hk.le
    have := hv.le
    have := hes.le
    omega

end

mutual

/-- Only the tables between the bounds matter, and the bounds may be wider. -/
theorem Denotes.frame : ∀ {lo hi slot tree}, Denotes heap lo hi slot tree → ∀ {lo' hi'}, lo' ≤ lo →
    hi ≤ hi' → (∀ r, lo ≤ r → r < hi → heap'[r]? = heap[r]?) → Denotes heap' lo' hi' slot tree
  | _, _, _, _, .scalar s h, _, _, hlo, hhi, _ => .scalar s (by omega)
  | _, _, _, _, .table hlo hget hes, _, _, hlo', hhi, hsame => by
    have hlt := hes.le
    refine .table (by omega) ((hsame _ hlo (by omega)).trans hget) ?_
    exact hes.frame (Nat.le_refl _) hhi fun r h h' => hsame r (by omega) h'

theorem Entries.frame : ∀ {lo hi es entries}, Entries heap lo hi es entries → ∀ {lo' hi'}, lo' ≤ lo →
    hi ≤ hi' → (∀ r, lo ≤ r → r < hi → heap'[r]? = heap[r]?) → Entries heap' lo' hi' es entries
  | _, _, _, _, .nil h, _, _, hlo, hhi, _ => .nil (by omega)
  | _, _, _, _, .cons hk hv hes, _, _, hlo, hhi, hsame => by
    have hk' := hk.le
    have hv' := hv.le
    have hes' := hes.le
    have hk₁ := hk.frame hlo (Nat.le_refl _) fun r h h' => hsame r h (by omega)
    have hv₁ := hv.frame (Nat.le_refl _) (Nat.le_refl _) fun r h h' => hsame r (by omega) (by omega)
    exact .cons hk₁ hv₁ (hes.frame (Nat.le_refl _) hhi fun r h h' => hsame r (by omega) h')

end

theorem Values.le {lo hi : Nat} {slots : List Slot} {trees : List Tree}
    (h : Values heap lo hi slots trees) : lo ≤ hi := by
  induction h with
  | nil h => exact h
  | cons hslot _ ih => exact Nat.le_trans hslot.le ih

theorem Values.frame {lo hi lo' hi' : Nat} {slots : List Slot} {trees : List Tree}
    (h : Values heap lo hi slots trees) (hlo : lo' ≤ lo) (hhi : hi ≤ hi')
    (hsame : ∀ r, lo ≤ r → r < hi → heap'[r]? = heap[r]?) : Values heap' lo' hi' slots trees := by
  induction h generalizing lo' with
  | nil h => exact .nil (by omega)
  | cons hslot hrest ih =>
    have hle := hslot.le
    have hle' := hrest.le
    refine .cons (hslot.frame hlo (Nat.le_refl _) fun r h h' => hsame r h (by omega)) ?_
    exact ih (Nat.le_refl _) hhi fun r h h' => hsame r (by omega) h'

theorem Values.length {lo hi : Nat} {slots : List Slot} {trees : List Tree}
    (h : Values heap lo hi slots trees) : trees.length = slots.length := by
  induction h with
  | nil _ => rfl
  | cons _ _ ih => rw [List.length_cons, List.length_cons, ih]

theorem Denotes.scalar_iff {lo hi : Nat} {slot : Slot} {tree : Tree} (h : Denotes heap lo hi slot tree)
    (s : Scalar) : slot = .scalar s ↔ tree = .scalar s := by
  cases h with
  | scalar s' => simp
  | table => simp

theorem Denotes.isScalar {lo hi : Nat} {slot : Slot} {tree : Tree} (h : Denotes heap lo hi slot tree)
    (s : Scalar) : tree.isScalar s = true ↔ slot = .scalar s := by
  rw [isScalar_iff, h.scalar_iff]

theorem Denotes.isNaN {lo hi : Nat} {slot : Slot} {tree : Tree} (h : Denotes heap lo hi slot tree) :
    slot.isNaN = tree.isNaN := by
  cases h with
  | scalar s => cases s <;> rfl
  | table => rfl

end Denotes

/-! ## Pairs of a table -/

section Entries

variable {heap : Heap}

theorem Entries.widen {lo hi lo' hi' : Nat} {es : List (Slot × Slot)} {entries : List (Tree × Tree)}
    (h : Entries heap lo hi es entries) (hlo : lo' ≤ lo) (hhi : hi ≤ hi') :
    Entries heap lo' hi' es entries :=
  h.frame hlo hhi fun _ _ _ => rfl

theorem Entries.append : ∀ {lo a b hi es entries k v tk tv}, Entries heap lo a es entries →
    Denotes heap a b k tk → Denotes heap b hi v tv →
    Entries heap lo hi (es ++ [(k, v)]) (entries ++ [(tk, tv)])
  | _, _, _, _, _, _, _, _, _, _, .nil h, hk, hv =>
    .cons (hk.frame h (Nat.le_refl _) fun _ _ _ => rfl) hv (.nil (Nat.le_refl _))
  | _, _, _, _, _, _, _, _, _, _, .cons hk' hv' hes, hk, hv => .cons hk' hv' (hes.append hk hv)

/-- The pairs with another key than a scalar are the same ones. -/
theorem Entries.filter (s : Scalar) : ∀ {lo hi es entries}, Entries heap lo hi es entries →
    Entries heap lo hi (es.filter fun e => e.1 ≠ .scalar s) (entries.filter fun e => !e.1.isScalar s)
  | _, _, _, _, .nil h => .nil h
  | _, _, _, _, @Entries.cons _ _ _ _ _ k _ tk _ _ _ hk hv hes => by
    have hiff := hk.isScalar s
    have hlo := Nat.le_trans hk.le hv.le
    rw [List.filter_cons, List.filter_cons]
    by_cases h : tk.isScalar s = true
    · rw [if_neg (by simp [hiff.mp h]), if_neg (by simp [h])]
      exact (hes.filter s).widen hlo (Nat.le_refl _)
    · rw [if_pos (by simpa using mt hiff.mpr h), if_pos (by simpa using h)]
      exact .cons hk hv (hes.filter s)

theorem Entries.keys_lt : ∀ {lo hi es entries}, Entries heap lo hi es entries →
    ∀ e ∈ es, ∀ r, e.1 = .table r → r < hi
  | _, _, _, _, .nil _, e, he, _, _ => absurd he List.not_mem_nil
  | _, _, _, _, .cons hk hv hes, e, he, r, hr => by
    have hle := hes.le
    have hle' := hv.le
    rcases List.mem_cons.mp he with rfl | he
    · dsimp only at hr
      subst hr
      cases hk with
      | table _ _ hin =>
        have := hin.le
        omega
    · exact hes.keys_lt e he r hr

/-- A pair is set as it is set in a tree: a table that is a key is a new one. -/
theorem entries_setEntry {lo a b hi : Nat} {es : List (Slot × Slot)} {entries : List (Tree × Tree)}
    {k v : Slot} {tk tv : Tree} (hes : Entries heap lo a es entries) (hk : Denotes heap a b k tk)
    (hv : Denotes heap b hi v tv) :
    Entries heap lo hi (setEntry es k v) (Serialize.rawset entries tk tv) := by
  have hle := Nat.le_trans hk.le hv.le
  have hnil := hv.isScalar .nil
  unfold setEntry
  cases hk with
  | scalar s h =>
    have hothers := hes.filter s.normalKey
    rw [Serialize.rawset]
    by_cases hvnil : v = .scalar .nil
    · rw [if_pos hvnil, if_pos (hnil.mpr hvnil)]
      exact hothers.widen (Nat.le_refl _) hle
    · rw [if_neg hvnil, if_neg (mt hnil.mp hvnil)]
      exact hothers.append (.scalar s.normalKey h) hv
  | @table _ _ ref es' entries' hlo hget hin =>
    have hall : es.filter (fun e => e.1 ≠ (Slot.table ref).normalKey) = es := by
      rw [List.filter_eq_self]
      intro e he
      rw [decide_eq_true_eq]
      intro heq
      have := hes.keys_lt e he ref heq
      omega
    rw [Serialize.rawset, hall]
    by_cases hvnil : v = .scalar .nil
    · rw [if_pos hvnil, if_pos (hnil.mpr hvnil)]
      exact hes.widen (Nat.le_refl _) hle
    · rw [if_neg hvnil, if_neg (mt hnil.mp hvnil)]
      exact hes.append (.table hlo hget hin) hv

end Entries

end HappyServer.Serialize.UnpackStack
