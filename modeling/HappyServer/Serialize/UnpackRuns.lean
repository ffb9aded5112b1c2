import HappyServer.Serialize.UnpackStack
import HappyServer.Serialize.Work

/-!
# What unpacking leaves on the stack (`lua_serialize_do_unpack`)

`Runs room N m st r P`: from `st`, the calls `m` end as the reading `r` says, with a state as `P` says,
unless `luaL_checkstack` fails.  One value takes one slot (`Pushes`), which must be there before; a table
makes sure of the slots for what is in it, and the loop over the values of those for eight rounds.

    the slots above the argument are the values, and no two share a table                (unpack_stack)
-/

namespace HappyServer.Serialize.UnpackStack

open Traced Word

variable {α β γ : Type}

/-! ## Runs -/

/-- `m` ends as `r` says, if `luaL_checkstack` does not fail; and it does not where `N` slots more than
it asks for are enough. -/
def Runs (room N : Nat) (m : Api α) (st : Machine) (r : Except Error β) (P : β → α → Machine → Prop) :
    Prop :=
  (room < N + LUA_MINSTACK ∧ ∃ st', m st = .error .stackOverflow st') ∨
    match r with
    | .ok b => ∃ a st', m st = .ok a st' ∧ P b a st'
    | .error e => ∃ st', m st = .error (.error e) st'

section Runs

variable {room N : Nat} {m : Api α} {f : α → Api γ} {st st₁ : Machine} {a : α}
  {P : β → α → Machine → Prop}

theorem run_bind (m : Api α) (f : α → Api β) (st : Machine) :
    (m >>= f) st = match m st with
      | .ok a st' => f a st'
      | .error e st' => .error e st' := by
  show EStateM.bind m f st = _
  unfold EStateM.bind
  cases m st <;> rfl

theorem runs_ok (a : α) (st₁ : Machine) {b : β} (hm : m st = .ok a st₁) (h : P b a st₁) :
    Runs room N m st (.ok b) P :=
  Or.inr ⟨a, st₁, hm, h⟩

theorem runs_error (st₁ : Machine) {e : Error} (hm : m st = .error (.error e) st₁) :
    Runs room N m st (.error e) P :=
  Or.inr ⟨st₁, hm⟩

theorem runs_step {δ : Type} {r : Except Error δ} {Q : δ → γ → Machine → Prop}
    (hm : m st = .ok a st₁) (h : Runs room N (f a) st₁ r Q) : Runs room N (m >>= f) st r Q := by
  unfold Runs at *
  rw [run_bind, hm]
  exact h

theorem runs_bind {δ : Type} {p : Decode β} {g : β → Decode δ} {depth : Nat}
    {Q : δ → γ → Machine → Prop} (hm : Runs room N m st (p depth).result P)
    (hf : ∀ b a st', Returns p depth b → P b a st' → Runs room N (f a) st' (g b depth).result Q) :
    Runs room N (m >>= f) st ((p >>= g) depth).result Q := by
  unfold Runs at hm
  unfold Returns at hf
  rw [bind_apply]
  rcases hm with ⟨hlt, st', hrun⟩ | hm
  · refine Or.inl ⟨hlt, st', ?_⟩
    rw [run_bind, hrun]
  · generalize p depth = o at hm hf
    obtain ⟨calls, e | b⟩ := o
    · obtain ⟨st', hrun⟩ := hm
      refine Or.inr ⟨st', ?_⟩
      rw [run_bind, hrun]
    · obtain ⟨a, st', hrun, hP⟩ := hm
      exact runs_step hrun (hf b a st' rfl hP)

theorem Runs.mono {r : Except Error β} {Q : β → α → Machine → Prop} (h : Runs room N m st r P)
    (hPQ : ∀ b a st', P b a st' → Q b a st') : Runs room N m st r Q := by
  unfold Runs at *
  refine h.imp_right fun h => ?_
  cases r with
  | error e => exact h
  | ok b =>
    obtain ⟨a, st', hrun, hP⟩ := h
    exact ⟨a, st', hrun, hPQ b a st' hP⟩

theorem runs_checkstack {δ : Type} {r : Except Error δ} {f : Unit → Api γ}
    {Q : δ → γ → Machine → Prop} (hN : st.stack.length ≤ N)
    (h : Runs room N (f ()) { st with limit := max st.limit (st.stack.length + LUA_MINSTACK) } r Q) :
    Runs room N (checkstack room LUA_MINSTACK >>= f) st r Q := by
  by_cases hroom : st.stack.length + LUA_MINSTACK ≤ room
  · exact runs_step (if_pos hroom) h
  · refine Or.inl ⟨by omega, st, ?_⟩
    have hfail : checkstack room LUA_MINSTACK st = .error .stackOverflow st := if_neg hroom
    rw [run_bind, hfail]

end Runs

/-! ## Reads -/

/-- What is read does not depend on where it is logged. -/
def Level (p : Decode α) : Prop := ∀ depth, (p depth).result = (p 0).result

section Level

theorem level_pure (a : α) : Level (pure a : Decode α) := fun _ => rfl

theorem level_fail (e : Error) : Level (fail e : Decode α) := fun _ => rfl

theorem level_emit (c : Call) : Level (emit c : Decode Unit) := fun _ => rfl

theorem level_bind {p : Decode α} {g : α → Decode β} (hp : Level p) (hg : ∀ a, Level (g a)) :
    Level (p >>= g) := by
  intro depth
  have h := hp depth
  rw [bind_apply, bind_apply]
  generalize p depth = o at h
  generalize p 0 = o' at h
  obtain ⟨calls, result⟩ := o
  obtain ⟨calls', result'⟩ := o'
  obtain rfl : result = result' := h
  cases result with
  | error e => rfl
  | ok a => exact hg a depth

theorem result_emit (c : Call) (g : Unit → Decode α) (depth : Nat) :
    ((emit c >>= g) depth).result = (g () depth).result := rfl

theorem level_readOr (view : BufferView) (n line : Nat) : Level (readOr view n line) := by
  unfold readOr
  split
  · exact level_pure _
  · exact level_fail _

theorem level_word (view : BufferView) (n line : Nat) (f : Nat → α) :
    Level (readOr view n line >>= fun r => pure (f r.1, r.2)) :=
  level_bind (level_readOr view n line) fun _ => level_pure _

theorem level_getInteger (view : BufferView) (cookie : Nat) : Level (getInteger view cookie) := by
  unfold getInteger
  split
  · exact level_pure _
  split
  · exact level_word view 1 268 fun n : Nat => (n : Int)
  split
  · exact level_word view 2 274 fun n : Nat => (n : Int)
  split
  · exact level_word view 4 280 fun n : Nat => i32 n
  split
  · exact level_word view 8 286 fun n : Nat => i64 n
  · exact level_fail _

theorem level_getBuffer (view : BufferView) (len : Int) : Level (getBuffer view len) := by
  unfold getBuffer
  split
  · exact level_fail _
  · refine level_bind (level_emit _) fun _ => ?_
    split
    · exact level_fail _
    · exact level_pure _

theorem level_tableLength (view : BufferView) (cookie : Nat) : Level (tableLength view cookie) := by
  unfold tableLength
  split
  · refine level_bind (level_emit _) fun _ => level_bind (level_readOr view 1 323) fun r => ?_
    dsimp only
    split
    · exact level_fail _
    · exact level_bind (level_getInteger _ _) fun _ => level_pure _
  · exact level_pure _

variable {room N : Nat} {st : Machine}

theorem runs_reading {p : BufferView → Decode (α × BufferView)} (h : Level (p st.view)) (depth : Nat) :
    Runs room N (reading p) st (p st.view depth).result
      fun r a st' => a = r.1 ∧ st' = { st with view := r.2 } := by
  rw [h depth]
  unfold reading
  cases hread : (p st.view 0).result with
  | error e =>
    refine runs_error st ?_
    rw [hread]
  | ok r =>
    refine runs_ok r.1 { st with view := r.2 } ?_ ⟨rfl, rfl⟩
    rw [hread]

end Level

/-! ## One value -/

/-- One slot more, with the value and the view that are left. -/
structure Pushed (st : Machine) (r : Tree × BufferView) (st' : Machine) : Prop where
  slot : ∃ slot, st'.stack = st.stack ++ [slot] ∧
    Denotes st'.heap st.heap.length st'.heap.length slot r.1
  view : st'.view = r.2
  limit : st.limit ≤ st'.limit
  heap : st.heap <+: st'.heap

/-- Where there is a slot, `m` pushes what `p` reads. -/
def Pushes (room N : Nat) (m : Api Unit) (p : BufferView → Decode (Tree × BufferView)) : Prop :=
  ∀ depth st, st.stack.length < st.limit → st.stack.length + st.view.rest.length ≤ N →
    Runs room N m st (p st.view depth).result fun r _ st' => Pushed st r st'

section Scalars

variable {room N : Nat} {st : Machine}

theorem run_push (st : Machine) (h : st.stack.length < st.limit) (x : Slot) :
    push x st = .ok () { st with stack := st.stack ++ [x] } := if_pos h

theorem runs_push (st : Machine) (h : st.stack.length < st.limit) (s : Scalar) {view : BufferView}
    (depth : Nat)
    (hview : st.view = view) :
    Runs room N (push (.scalar s)) st
      ((pure (.scalar s, view) : Decode (Tree × BufferView)) depth).result
      fun r _ st' => Pushed st r st' :=
  runs_ok () _ (run_push st h _) ⟨⟨_, rfl, .scalar s (Nat.le_refl _)⟩, hview, Nat.le_refl _, List.prefix_refl _⟩

/-- What is read is pushed. -/
theorem runs_scalar (hlimit : st.stack.length < st.limit) {p : BufferView → Decode (α × BufferView)}
    (h : Level (p st.view)) (g : α → Scalar) (depth : Nat) :
    Runs room N (reading p >>= fun a => push (.scalar (g a))) st
      ((p st.view >>= fun r => pure (.scalar (g r.1), r.2)) depth).result
      fun r _ st' => Pushed st r st' := by
  refine runs_bind (runs_reading h depth) ?_
  rintro r a st' - ⟨rfl, rfl⟩
  refine (runs_push { st with view := r.2 } hlimit (g r.1) depth rfl).mono fun _ _ _ h => ?_
  exact ⟨h.slot, h.view, h.limit, h.heap⟩

theorem runs_getString (st : Machine) (hlimit : st.stack.length < st.limit) (n depth : Nat) :
    Runs room N (getString n) st (Serialize.getString st.view n depth).result
      fun r _ st' => Pushed st r st' := by
  have h := level_getBuffer st.view (i32 n)
  unfold getString Serialize.getString
  generalize i32 (n : Int) = len at h ⊢
  rw [result_emit]
  exact runs_scalar (p := fun view => getBuffer view len) hlimit h Scalar.string depth

/-- A length, and a string of that length. -/
theorem runs_longString (hlimit : st.stack.length < st.limit) (w line depth : Nat) :
    Runs room N (reading (fun view => readOr view w line) >>= fun n => getString n) st
      ((readOr st.view w line >>= fun r => Serialize.getString r.2 r.1) depth).result
      fun r _ st' => Pushed st r st' := by
  refine runs_bind (runs_reading (level_readOr st.view w line) depth) ?_
  rintro r a st' - ⟨rfl, rfl⟩
  refine (runs_getString { st with view := r.2 } hlimit r.1 depth).mono fun _ _ _ h => ?_
  exact ⟨h.slot, h.view, h.limit, h.heap⟩

end Scalars

/-! ## Tables -/

/-- A new table lies above the stack of `base`, with the entries so far. -/
structure Building (base : Machine) (entries : List (Tree × Tree)) (view : BufferView) (st : Machine) :
    Prop where
  stack : st.stack = base.stack ++ [.table base.heap.length]
  limit : base.stack.length + LUA_MINSTACK ≤ st.limit
  more : base.limit ≤ st.limit
  view : st.view = view
  heap : ∃ es new, st.heap = base.heap ++ es :: new ∧
    Entries st.heap (base.heap.length + 1) st.heap.length es entries

section Tables

variable {room N : Nat} {base st st₁ st₂ : Machine} {entries : List (Tree × Tree)}
  {view view₁ view₂ : BufferView} {tk tv : Tree}

theorem getElem?_of_prefix {h h' : Heap} (hpre : h <+: h') {r : Nat} (hr : r < h.length) :
    h'[r]? = h[r]? := by
  obtain ⟨new, rfl⟩ := hpre
  exact List.getElem?_append_left hr

/-- The table is set, and the other tables are as they were. -/
theorem heap_set {heap before new : Heap} {es : List (Slot × Slot)} {k v : Slot} {a b : Nat}
    (hheap : heap = before ++ es :: new) (hes : Entries heap (before.length + 1) a es entries)
    (hk : Denotes heap a b k tk) (hv : Denotes heap b heap.length v tv) :
    heap.modify before.length (fun es => setEntry es k v) = before ++ setEntry es k v :: new ∧
      Entries (before ++ setEntry es k v :: new) (before.length + 1)
        (before ++ setEntry es k v :: new).length (setEntry es k v)
        (Serialize.rawset entries tk tv) := by
  have hlen : (before ++ setEntry es k v :: new).length = heap.length := by
    rw [hheap, List.length_append, List.length_append, List.length_cons, List.length_cons]
  constructor
  · rw [hheap, List.modify_eq_set_getElem?, List.getElem?_append_right (Nat.le_refl _), Nat.sub_self,
      List.getElem?_cons_zero]
    show (before ++ es :: new).set before.length (setEntry es k v) = _
    rw [List.set_append_right _ _ (Nat.le_refl _), Nat.sub_self, List.set_cons_zero]
  · rw [hlen]
    refine (entries_setEntry hes hk hv).frame (Nat.le_refl _) (Nat.le_refl _) fun r hlo _ => ?_
    rw [hheap, List.getElem?_append_right (by omega), List.getElem?_append_right (by omega)]
    obtain ⟨m, hm⟩ : ∃ m, r - before.length = m + 1 := ⟨r - before.length - 1, by omega⟩
    rw [hm, List.getElem?_cons_succ, List.getElem?_cons_succ]

theorem run_slotAt {index : Int} {x : Slot} (h : Slots.get st.stack index = some x) :
    slotAt index st = .ok x st := by
  unfold slotAt
  rw [h]

theorem run_pop (below top : List Slot) {n : Nat} (hstack : st.stack = below ++ top)
    (hn : top.length = n) : pop n st = .ok () { st with stack := below } := by
  unfold pop
  subst hn
  rw [if_pos (by rw [hstack, List.length_append]; omega), hstack, Slots.pop_append]

theorem run_setTable {index : Int} {ref : Nat} (h : Slots.get st.stack index = some (.table ref))
    (k v : Slot) : setTable index k v st =
      .ok () { st with heap := st.heap.modify ref fun es => setEntry es k v } := by
  unfold setTable
  rw [run_bind, run_slotAt h]
  rfl

/-- What is pushed above the table leaves the table as it is. -/
theorem Building.pushed (h : Building base entries view st) {k : Slot}
    (hpush : Pushed st (tk, view₁) st₁) (hstack : st₁.stack = st.stack ++ [k]) :
    st₁.stack = base.stack ++ [.table base.heap.length, k] ∧
      ∃ es new, st₁.heap = base.heap ++ es :: new ∧
        Entries st₁.heap (base.heap.length + 1) st.heap.length es entries := by
  obtain ⟨es, new, hheap, hes⟩ := h.heap
  obtain ⟨more, hmore⟩ := hpush.heap
  refine ⟨?_, es, new ++ more, ?_, ?_⟩
  · rw [hstack, h.stack, List.append_assoc]
    rfl
  · rw [← hmore, hheap, List.append_assoc]
    rfl
  · exact hes.frame (Nat.le_refl _) (Nat.le_refl _) fun r _ hr =>
      getElem?_of_prefix hpush.heap hr

/-- `lua_rawseti(L, -2, i)` -/
theorem run_rawseti (h : Building base entries view st) (hpush : Pushed st (tv, view₁) st₁) (i : Nat) :
    ∃ st', rawseti (-2) i st₁ = .ok () st' ∧
      Building base (Serialize.rawset entries (.scalar (.integer (Int64.ofNat i))) tv) view₁ st' := by
  obtain ⟨v, hslot, hv⟩ := hpush.slot
  obtain ⟨hstack, es, new, hheap, hes⟩ := h.pushed hpush hslot
  have htable : Slots.get st₁.stack (-2) = some (.table base.heap.length) := by
    rw [hstack]
    exact Slots.get_append_top base.stack [.table base.heap.length, v] (n := 2) (by decide) (Nat.le_refl 2)
  have htop : Slots.get st₁.stack (-1) = some v := by
    rw [hstack]
    exact Slots.get_append_top base.stack [.table base.heap.length, v] (n := 1) (by decide) (Nat.le_succ 1)
  have hkey : Denotes st₁.heap st.heap.length st.heap.length
      (.scalar (.integer (Int64.ofNat i))) (.scalar (.integer (Int64.ofNat i))) :=
    .scalar _ (Nat.le_refl _)
  obtain ⟨hset, hentries⟩ := heap_set hheap hes hkey hv
  refine ⟨{ st₁ with
    stack := base.stack ++ [.table base.heap.length]
    heap := base.heap ++ setEntry es (.scalar (.integer (Int64.ofNat i))) v :: new }, ?_, ?_⟩
  · unfold rawseti
    rw [run_bind, run_slotAt htop]
    dsimp only
    rw [run_bind, run_setTable htable, hset]
    dsimp only
    rw [run_pop (base.stack ++ [.table base.heap.length]) [v] (n := 1) ?_ rfl]
    show st₁.stack = _
    rw [hstack, List.append_assoc]
    rfl
  · exact ⟨rfl, Nat.le_trans h.limit hpush.limit, Nat.le_trans h.more hpush.limit, hpush.view,
      _, _, rfl, hentries⟩

/-- `lua_rawset(L, -3)` -/
theorem run_rawset (h : Building base entries view st) (hkey : Pushed st (tk, view₁) st₁)
    (hvalue : Pushed st₁ (tv, view₂) st₂) (hnil : tk ≠ .scalar .nil) :
    if tk.isNaN then rawset (-3) st₂ = .error (.error .indexNaN) st₂
    else ∃ st', rawset (-3) st₂ = .ok () st' ∧
      Building base (Serialize.rawset entries tk tv) view₂ st' := by
  obtain ⟨k, hkslot, hk⟩ := hkey.slot
  obtain ⟨v, hvslot, hv⟩ := hvalue.slot
  obtain ⟨hstack₁, es, new, hheap₁, hes⟩ := h.pushed hkey hkslot
  have hstack : st₂.stack = base.stack ++ [.table base.heap.length, k, v] := by
    rw [hvslot, hstack₁, List.append_assoc]
    rfl
  have htable : Slots.get st₂.stack (-3) = some (.table base.heap.length) := by
    rw [hstack]
    exact Slots.get_append_top base.stack [.table base.heap.length, k, v] (n := 3) (by decide)
      (Nat.le_refl 3)
  have hkget : Slots.get st₂.stack (-2) = some k := by
    rw [hstack]
    exact Slots.get_append_top base.stack [.table base.heap.length, k, v] (n := 2) (by decide)
      (Nat.le_succ 2)
  have hvget : Slots.get st₂.stack (-1) = some v := by
    rw [hstack]
    exact Slots.get_append_top base.stack [.table base.heap.length, k, v] (n := 1) (by decide)
      (by simp)
  have hknil : k ≠ .scalar .nil := mt (hk.scalar_iff .nil).mp hnil
  unfold rawset
  rw [run_bind, run_slotAt hkget]
  dsimp only
  rw [run_bind, run_slotAt hvget]
  dsimp only
  rw [if_neg hknil, hk.isNaN]
  by_cases hnan : tk.isNaN = true
  · rw [if_pos hnan, if_pos hnan]
    rfl
  · rw [if_neg hnan, if_neg hnan]
    obtain ⟨more, hmore⟩ := hvalue.heap
    have hsame : ∀ r, r < st₁.heap.length → st₂.heap[r]? = st₁.heap[r]? := fun r hr =>
      getElem?_of_prefix hvalue.heap hr
    have hheap : st₂.heap = base.heap ++ es :: (new ++ more) := by
      rw [← hmore, hheap₁, List.append_assoc]
      rfl
    have hkle := hk.le
    have hes₂ : Entries st₂.heap (base.heap.length + 1) st.heap.length es entries :=
      hes.frame (Nat.le_refl _) (Nat.le_refl _) fun r _ hr => hsame r (by omega)
    have hk₂ : Denotes st₂.heap st.heap.length st₁.heap.length k tk :=
      hk.frame (Nat.le_refl _) (Nat.le_refl _) fun r _ hr => hsame r hr
    obtain ⟨hset, hentries⟩ := heap_set hheap hes₂ hk₂ hv
    refine ⟨{ st₂ with
      stack := base.stack ++ [.table base.heap.length]
      heap := base.heap ++ setEntry es k v :: (new ++ more) }, ?_, ?_⟩
    · rw [run_bind, run_setTable htable, hset]
      dsimp only
      rw [run_pop (base.stack ++ [.table base.heap.length]) [k, v] (n := 2) ?_ rfl]
      show st₂.stack = _
      rw [hstack, List.append_assoc]
      rfl
    · have hlimit := Nat.le_trans hkey.limit hvalue.limit
      exact ⟨rfl, Nat.le_trans h.limit hlimit, Nat.le_trans h.more hlimit, hvalue.view, _, _, rfl,
        hentries⟩

variable {one : Api Unit} {p : BufferView → Decode (Tree × BufferView)}
  (hone : Pushes room N one p) (hless : Consumes p)

include hone

/-- Above the table there is room for a value. -/
theorem Building.runs (h : Building base entries view st)
    (hN : base.stack.length + 1 + view.rest.length ≤ N) (depth : Nat) :
    Runs room N one st (p view depth).result fun r _ st' => Pushed st r st' := by
  have hlen : st.stack.length = base.stack.length + 1 := by
    rw [h.stack, List.length_append, List.length_singleton]
  have hlimit := h.limit
  have hview := h.view
  unfold LUA_MINSTACK at hlimit
  have := hone depth st (by omega) (by rw [hview]; omega)
  rwa [hview] at this

include hless

theorem runs_unpackElements (depth : Nat) (count : Nat) : ∀ i st entries view,
    Building base entries view st → base.stack.length + 1 + view.rest.length ≤ N →
    Runs room N (unpackElements one i count) st
      (Serialize.unpackElements p view entries i count depth).result
      fun r _ st' => Building base r.1 r.2 st' ∧ base.stack.length + 1 + r.2.rest.length ≤ N := by
  induction count with
  | zero =>
    intro i st entries view h hN
    exact runs_ok () st rfl ⟨h, hN⟩
  | succ count ih =>
    intro i st entries view h hN
    refine runs_bind (h.runs hone hN depth) ?_
    rintro ⟨v, view'⟩ a st₁ hret hpush
    have hle : view'.rest.length < view.rest.length := (hless view depth _ hret).2
    obtain ⟨st', hrun, h'⟩ := run_rawseti h hpush i
    exact runs_step hrun (ih (i + 1) st' _ view' h' (by omega))

theorem runs_unpackPairs (depth : Nat) (fuel : Nat) : ∀ st entries view,
    Building base entries view st → base.stack.length + 1 + view.rest.length ≤ N →
    Runs room N (unpackPairs one fuel) st (Serialize.unpackPairs p fuel view entries depth).result
      fun r _ st' => Building base r.1 r.2 st' := by
  induction fuel with
  | zero =>
    intro st entries view _ _
    exact runs_error st rfl
  | succ fuel ih =>
    intro st entries view h hN
    refine runs_bind (h.runs hone hN depth) ?_
    rintro ⟨k, view₁⟩ a st₁ hret hkey
    have hle : view₁.rest.length < view.rest.length := (hless view depth _ hret).2
    obtain ⟨slot, hslot, hk⟩ := hkey.slot
    have htop : Slots.get st₁.stack (-1) = some slot := by
      rw [hslot]
      exact Slots.get_append_top st.stack [slot] (n := 1) Nat.one_pos (Nat.le_refl 1)
    refine runs_step (run_slotAt htop) ?_
    dsimp only
    have hnil := hk.isScalar .nil
    dsimp only at hnil
    by_cases hslotnil : slot = .scalar .nil
    · rw [if_pos hslotnil, if_pos (hnil.mpr hslotnil)]
      obtain ⟨-, es, new, hheap, hes⟩ := h.pushed hkey hslot
      refine runs_ok () _ (run_pop st.stack [slot] hslot (n := 1) rfl) ?_
      exact ⟨h.stack, Nat.le_trans h.limit hkey.limit, Nat.le_trans h.more hkey.limit, hkey.view,
        es, new, hheap, hes.widen (Nat.le_refl _) hk.le⟩
    · rw [if_neg hslotnil, if_neg (mt hnil.mp hslotnil)]
      have hlen : st₁.stack.length = base.stack.length + 2 := by
        rw [hslot, h.stack, List.length_append, List.length_append]
        rfl
      have hlimit := Nat.le_trans h.limit hkey.limit
      unfold LUA_MINSTACK at hlimit
      have hview : st₁.view = view₁ := hkey.view
      have hvalue := hone depth st₁ (by omega) (by rw [hview]; omega)
      rw [hview] at hvalue
      refine runs_bind hvalue ?_
      rintro ⟨v, view₂⟩ a st₂ hret' hpush
      have hle' : view₂.rest.length < view₁.rest.length := (hless view₁ depth _ hret').2
      have hknil : k ≠ .scalar .nil := fun heq => hslotnil ((hk.scalar_iff .nil).mpr heq)
      have hrawset := run_rawset h hkey hpush hknil
      dsimp only
      by_cases hnan : k.isNaN = true
      · rw [if_pos hnan] at hrawset ⊢
        refine runs_error st₂ ?_
        rw [run_bind, hrawset]
      · rw [if_neg hnan] at hrawset ⊢
        obtain ⟨st', hrun, h'⟩ := hrawset
        exact runs_step hrun (ih st' _ view₂ h' (by omega))

theorem runs_unpackTable (hN : st.stack.length + 1 + st.view.rest.length ≤ N)
    (depth fuel cookie : Nat) :
    Runs room N (unpackTable room one fuel cookie) st
      (Serialize.unpackTable p fuel st.view cookie depth).result fun r _ st' => Pushed st r st' := by
  have hread : Runs room N (reading fun view => tableLength view cookie) st
      (tableLength st.view cookie (depth + 1)).result fun r a st' => a = r.1 ∧ st' = { st with view := r.2 } :=
    runs_reading (level_tableLength st.view cookie) (depth + 1)
  show Runs room N _ st ((tableLength st.view cookie >>= _) (depth + 1)).result _
  refine runs_bind hread ?_
  rintro ⟨⟨declared, arraySize⟩, view⟩ a st₁ hret ⟨rfl, rfl⟩
  have hrest : view.rest.length ≤ st.view.rest.length := by
    have := (spends_tableLength st.view cookie (depth + 1)).2.2 _ _ hret
    omega
  refine runs_checkstack (by show st.stack.length ≤ N; omega) ?_
  -- the new table is the last one of the heap
  let st₂ : Machine := ⟨st.stack ++ [.table st.heap.length],
    max st.limit (st.stack.length + LUA_MINSTACK), st.heap ++ [[]], view⟩
  have hcreate : createtable ⟨st.stack, max st.limit (st.stack.length + LUA_MINSTACK), st.heap, view⟩ =
      .ok () st₂ := by
    have hroom : st.stack.length < max st.limit (st.stack.length + LUA_MINSTACK) := by
      unfold LUA_MINSTACK
      omega
    have hpush := run_push ⟨st.stack, _, st.heap, view⟩ hroom (.table st.heap.length)
    unfold createtable
    show (push (.table st.heap.length) >>= _) _ = _
    rw [run_bind, hpush]
    rfl
  refine runs_step hcreate ?_
  have hbuilding : Building st [] view st₂ := by
    refine ⟨rfl, Nat.le_max_right _ _, Nat.le_max_left _ _, rfl, [], [], rfl, .nil ?_⟩
    show st.heap.length + 1 ≤ (st.heap ++ [[]]).length
    rw [List.length_append, List.length_singleton]
  show Runs room N _ st₂ ((Serialize.unpackElements p view [] 1 arraySize.toNat >>= _) (depth + 1)).result _
  refine runs_bind (runs_unpackElements hone hless (depth + 1) arraySize.toNat 1 st₂ [] view hbuilding
    (by omega)) ?_
  rintro ⟨entries, view'⟩ _ st₃ - ⟨h₃, hN₃⟩
  have hpairs := runs_unpackPairs hone hless (depth + 1) fuel st₃ entries view' h₃ hN₃
  show Runs room N _ st₃ ((Serialize.unpackPairs p fuel view' entries >>= _) (depth + 1)).result _
  have hbind : unpackPairs one fuel = unpackPairs one fuel >>= fun u => pure u := (bind_pure _).symm
  rw [hbind]
  refine runs_bind hpairs ?_
  rintro ⟨entries', view''⟩ _ st₄ - h₄
  refine runs_ok () st₄ rfl ?_
  obtain ⟨es, new, hheap, hes⟩ := h₄.heap
  refine ⟨⟨_, h₄.stack, .table (Nat.le_refl _) ?_ hes⟩, h₄.view, h₄.more, ?_⟩
  · rw [hheap, List.getElem?_append_right (Nat.le_refl _), Nat.sub_self, List.getElem?_cons_zero]
  · rw [hheap]
    exact List.prefix_append _ _

theorem runs_pushValue (st : Machine) (hlimit : st.stack.length < st.limit)
    (hN : st.stack.length + 1 + st.view.rest.length ≤ N) (depth fuel : Nat) (type : UInt8)
    (cookie : Nat) :
    Runs room N (pushValue room one fuel type cookie) st
      (Serialize.pushValue p fuel st.view type cookie depth).result fun r _ st' => Pushed st r st' := by
  unfold pushValue Serialize.pushValue
  by_cases hnil : type = TYPE_NIL
  · rw [if_pos hnil, if_pos hnil]
    exact runs_push st hlimit .nil depth rfl
  rw [if_neg hnil, if_neg hnil]
  by_cases hboolean : type = TYPE_BOOLEAN
  · rw [if_pos hboolean, if_pos hboolean]
    exact runs_push st hlimit (.boolean (cookie ≠ 0)) depth rfl
  rw [if_neg hboolean, if_neg hboolean]
  by_cases hnumber : type = TYPE_NUMBER
  · rw [if_pos hnumber, if_pos hnumber]
    by_cases hreal : cookie = TYPE_NUMBER_REAL
    · rw [if_pos hreal, if_pos hreal]
      exact runs_scalar hlimit (level_word st.view 8 298 UInt64.ofNat) Scalar.number depth
    · rw [if_neg hreal, if_neg hreal]
      exact runs_scalar (p := fun view => getInteger view cookie) hlimit
        (level_getInteger st.view cookie) (fun x => .integer (Int64.ofInt x)) depth
  rw [if_neg hnumber, if_neg hnumber]
  by_cases huserdata : type = TYPE_USERDATA
  · rw [if_pos huserdata, if_pos huserdata]
    exact runs_scalar hlimit (level_word st.view 8 305 UInt64.ofNat) Scalar.lightuserdata depth
  rw [if_neg huserdata, if_neg huserdata]
  by_cases hshort : type = TYPE_SHORT_STRING
  · rw [if_pos hshort, if_pos hshort]
    exact runs_getString st hlimit cookie depth
  rw [if_neg hshort, if_neg hshort]
  by_cases hlong : type = TYPE_LONG_STRING
  · rw [if_pos hlong, if_pos hlong]
    by_cases htwo : cookie = 2
    · rw [if_pos htwo, if_pos htwo]
      exact runs_longString hlimit 2 375 depth
    rw [if_neg htwo, if_neg htwo]
    by_cases hfour : cookie ≠ 4
    · rw [if_pos hfour, if_pos hfour]
      exact runs_error st rfl
    · rw [if_neg hfour, if_neg hfour]
      exact runs_longString hlimit 4 384 depth
  rw [if_neg hlong, if_neg hlong]
  by_cases htable : type = TYPE_TABLE
  · rw [if_pos htable, if_pos htable]
    exact runs_unpackTable hone hless hN depth fuel cookie
  · rw [if_neg htable, if_neg htable]
    exact runs_error st rfl

end Tables

theorem pushes_unpackOne (room N fuel : Nat) :
    Pushes room N (unpackOne room fuel) (Serialize.unpackOne fuel) := by
  induction fuel with
  | zero =>
    intro depth st _ _
    exact runs_error st rfl
  | succ fuel ih =>
    intro depth st hlimit hN
    have hread : Runs room N (reading fun view => readOr view 1 403) st
        (readOr st.view 1 403 depth).result fun r a st' => a = r.1 ∧ st' = { st with view := r.2 } :=
      runs_reading (level_readOr st.view 1 403) depth
    rw [Serialize.unpackOne, result_emit]
    refine runs_bind hread ?_
    rintro ⟨b, view⟩ a st₁ hret ⟨rfl, rfl⟩
    have hrest : view.rest.length + 1 = st.view.rest.length := by
      rcases readOr_cases st.view 403 Nat.one_pos with ⟨-, h⟩ | ⟨hle, view', h, hrest⟩
      · rw [h] at hret
        exact absurd hret (returns_fail _ _ _)
      · rw [h, returns_pure] at hret
        obtain rfl : view' = view := congrArg Prod.snd hret
        rw [hrest, List.length_drop]
        omega
    have hpush := runs_pushValue ih (consumes_unpackOne fuel) { st with view := view } hlimit
      (by show st.stack.length + 1 + view.rest.length ≤ N; omega) depth fuel (UInt8.ofNat a &&& 7)
      (UInt8.ofNat a >>> 3).toNat
    exact hpush.mono fun _ _ _ h => ⟨h.slot, h.view, h.limit, h.heap⟩

/-! ## All values -/

/-- Slots were added, with these values and the slots that a round may still need. -/
structure Unpacked (st : Machine) (vs : List Tree) (st' : Machine) : Prop where
  slots : ∃ slots, st'.stack = st.stack ++ slots ∧
    Values st'.heap st.heap.length st'.heap.length slots vs
  heap : st.heap <+: st'.heap

theorem unpacked_cons {st st₁ st' : Machine} {v : Tree} {view : BufferView} {vs : List Tree}
    (h : Pushed st (v, view) st₁) (h' : Unpacked st₁ vs st') : Unpacked st (v :: vs) st' := by
  obtain ⟨slot, hstack, hslot⟩ := h.slot
  obtain ⟨slots, hstack', hslots⟩ := h'.slots
  refine ⟨⟨slot :: slots, ?_, ?_⟩, h.heap.trans h'.heap⟩
  · rw [hstack', hstack, List.append_assoc]
    rfl
  · refine .cons ?_ hslots
    exact hslot.frame (Nat.le_refl _) (Nat.le_refl _) fun r _ hr => getElem?_of_prefix h'.heap hr

/-- Between two calls of `luaL_checkstack` there are eight rounds, and each takes a slot. -/
theorem runs_unpackValues (room N depth fuel : Nat) : ∀ i st, st.stack.length = i + 1 →
    st.stack.length + (7 - i % 8) ≤ st.limit → st.stack.length + st.view.rest.length ≤ N →
    Runs room N (unpackValues room i fuel) st (Serialize.unpackValues fuel st.view depth).result
      fun vs _ st' => Unpacked st vs st' := by
  induction fuel with
  | zero =>
    intro i st _ _ _
    exact runs_error st rfl
  | succ fuel ih =>
    intro i st hstack hlimit hN
    -- the round after the check
    have hround : ∀ next : Option UInt8 → Api Unit, next none = pure () →
        (∀ type, next (some type) = do
          pushValue room (unpackOne room fuel) fuel (type &&& 7) (type >>> 3).toNat
          unpackValues room (i + 1) fuel) →
        ∀ limit, st.limit ≤ limit → st.stack.length + (7 - (i + 1) % 8) + 1 ≤ limit →
        Runs room N (readType >>= next) { st with limit := limit }
          (Serialize.unpackValues (fuel + 1) st.view depth).result fun vs _ st' => Unpacked st vs st' := by
      intro next hnone hsome limit _ hroom
      rw [Serialize.unpackValues, result_emit]
      by_cases hnil : st.view.rest = []
      · have hread := st.view.read_none (n := 1) (by rw [hnil]; exact Nat.one_pos)
        have hrun : readType { st with limit := limit } = .ok none { st with limit := limit } := by
          unfold readType
          rw [hread]
        rw [hread]
        refine runs_step hrun ?_
        rw [hnone]
        refine runs_ok () _ rfl ?_
        exact ⟨⟨[], (List.append_nil _).symm, .nil (Nat.le_refl _)⟩, List.prefix_refl _⟩
      · have hlen := List.length_pos_of_ne_nil hnil
        obtain ⟨view, hread, hrest⟩ := st.view.read_some Nat.one_pos hlen
        have hrest' : view.rest.length + 1 = st.view.rest.length := by
          rw [hrest, List.length_drop]
          omega
        let type := UInt8.ofNat (LittleEndian.ofBytes (st.view.rest.take 1))
        have hrun : readType { st with limit := limit } =
            .ok (some type) ⟨st.stack, limit, st.heap, view⟩ := by
          unfold readType
          rw [hread]
        rw [hread]
        refine runs_step hrun ?_
        rw [hsome]
        have hpush := runs_pushValue (pushes_unpackOne room N fuel) (consumes_unpackOne fuel)
          ⟨st.stack, limit, st.heap, view⟩ (by show st.stack.length < limit; omega)
          (by show st.stack.length + 1 + view.rest.length ≤ N; omega) depth fuel (type &&& 7)
          (type >>> 3).toNat
        refine runs_bind hpush ?_
        rintro ⟨v, view'⟩ _ st₁ hret hv
        have hle : view'.rest.length ≤ view.rest.length :=
          ((leaves_pushValue blocks_true (consumes_unpackOne fuel).leaves fuel view (type &&& 7)
            (cookie_lt type) depth).2 _ hret).2
        obtain ⟨slot, hslot, -⟩ := hv.slot
        have hlen₁ : st₁.stack.length = i + 1 + 1 := by
          rw [hslot, List.length_append, hstack, List.length_singleton]
        have hview : st₁.view = view' := hv.view
        have hlimit₁ : limit ≤ st₁.limit := hv.limit
        have hrec := ih (i + 1) st₁ hlen₁ (by omega) (by rw [hview]; omega)
        rw [hview] at hrec
        have hbind : unpackValues room (i + 1) fuel =
            unpackValues room (i + 1) fuel >>= fun u => pure u := (bind_pure _).symm
        rw [hbind]
        refine runs_bind hrec ?_
        intro vs _ st₂ _ hvs
        refine runs_ok () st₂ rfl ?_
        have h := unpacked_cons hv hvs
        exact ⟨h.slots, h.heap⟩
    rw [unpackValues]
    by_cases hcheck : i % 8 = 7
    · rw [if_pos hcheck]
      refine runs_checkstack (by omega) (hround _ rfl (fun _ => rfl) _ (Nat.le_max_left _ _) ?_)
      unfold LUA_MINSTACK
      omega
    · rw [if_neg hcheck]
      exact hround _ rfl (fun _ => rfl) st.limit (Nat.le_refl _) (by omega)

/-- Only the argument stays on the stack, and the slots above it are counted. -/
theorem run_doUnpack (room : Nat) {data : List UInt8} {st : Machine} {arg : Slot} {args : List Slot}
    (hargs : st.stack = arg :: args) (hdata : data ≠ []) :
    doUnpack room data st =
      match unpackValues room 0 (data.length + 1) ⟨[arg], st.limit, st.heap, .make data⟩ with
      | .ok _ st' => .ok (st'.stack.length - 1) st'
      | .error f st' => .error f st' := by
  have htop : settop 1 st = .ok () { st with stack := [arg] } := by
    unfold settop
    rw [hargs]
    simp
  unfold doUnpack
  rw [if_neg (mt List.length_eq_zero_iff.mp hdata), run_bind, htop]
  dsimp only
  show (unpackValues room 0 (data.length + 1) >>= _) ⟨[arg], st.limit, st.heap, .make data⟩ = _
  rw [run_bind]
  generalize unpackValues room 0 (data.length + 1) _ = r
  cases r <;> rfl

/-- **Unpacking on the stack.**  With the slots that every call has, `lua_serialize_do_unpack` leaves its
first argument and the values, and returns their number; no two of them share a table, and the tables
that were there before are as they were.  Otherwise it raises what decoding raises, or `luaL_checkstack`
fails, which it does only if `data` has about as many bytes as there are slots.  No slot is used that
was not ensured. -/
theorem unpack_stack (room : Nat) (data : List UInt8) (st : Machine) (arg : Slot) (args : List Slot)
    (hargs : st.stack = arg :: args) (hlimit : st.stack.length + LUA_MINSTACK ≤ st.limit) :
    (room < data.length + 1 + LUA_MINSTACK ∧
      ∃ st', doUnpack room data st = .error .stackOverflow st') ∨
    match (unpack data 0).result with
    | .ok vs => ∃ st', doUnpack room data st = .ok vs.length st' ∧ st.heap <+: st'.heap ∧
        (data = [] → st' = st) ∧
        (data ≠ [] → ∃ slots, st'.stack = arg :: slots ∧
          Values st'.heap st.heap.length st'.heap.length slots vs)
    | .error e => ∃ st', doUnpack room data st = .error (.error e) st' := by
  by_cases hdata : data = []
  · subst hdata
    exact Or.inr ⟨st, rfl, List.prefix_refl _, fun _ => rfl, fun h => absurd rfl h⟩
  · let st₁ : Machine := ⟨[arg], st.limit, st.heap, .make data⟩
    have hlen : (arg :: args).length + LUA_MINSTACK ≤ st.limit := hargs ▸ hlimit
    have hvalues := runs_unpackValues room (data.length + 1) 0 (data.length + 1) 0 st₁ rfl
      (by
        show 1 + (7 - 0 % 8) ≤ st.limit
        rw [List.length_cons] at hlen
        unfold LUA_MINSTACK at hlen
        omega)
      (by
        show 1 + (BufferView.make data).rest.length ≤ data.length + 1
        rw [BufferView.rest_make]
        omega)
    rw [run_doUnpack room hargs hdata]
    unfold unpack
    rw [if_neg (mt List.length_eq_zero_iff.mp hdata)]
    unfold Runs at hvalues
    rcases hvalues with ⟨hlt, st', hrun⟩ | hvalues
    · refine Or.inl ⟨hlt, st', ?_⟩
      rw [hrun]
    · right
      have hview : st₁.view = .make data := rfl
      rw [hview] at hvalues
      cases hresult : (Serialize.unpackValues (data.length + 1) (.make data) 0).result with
      | error e =>
        rw [hresult] at hvalues
        obtain ⟨st', hrun⟩ := hvalues
        refine ⟨st', ?_⟩
        rw [hrun]
      | ok vs =>
        rw [hresult] at hvalues
        obtain ⟨u, st', hrun, hvs⟩ := hvalues
        obtain ⟨slots, hstack, hslots⟩ := hvs.slots
        refine ⟨st', ?_, hvs.heap, fun h => absurd h hdata, fun _ => ⟨slots, hstack, hslots⟩⟩
        rw [hrun]
        show EStateM.Result.ok (st'.stack.length - 1) st' = _
        rw [hstack, hslots.length]
        rfl

/-- A table with one element. -/
theorem unpack_stack_table :
    ∃ st' slots, doUnpack 100 [14, 9, 0] ⟨[.scalar .nil], 21, [], .make []⟩ = .ok 1 st' ∧
      st'.stack = .scalar .nil :: slots ∧
      Values st'.heap 0 st'.heap.length slots
        [.table [(.scalar (.integer 1), .scalar (.boolean true))]] := by
  have hread : (unpack [14, 9, 0] 0).result =
      .ok [.table [(.scalar (.integer 1), .scalar (.boolean true))]] := rfl
  have h := unpack_stack 100 [14, 9, 0] ⟨[.scalar .nil], 21, [], .make []⟩ (.scalar .nil) [] rfl
    (by decide)
  rw [hread] at h
  rcases h with ⟨hlt, -⟩ | ⟨st', hrun, -, -, hslots⟩
  · exact absurd hlt (by decide)
  · obtain ⟨slots, hstack, hvalues⟩ := hslots (List.cons_ne_nil 14 _)
    exact ⟨st', slots, hrun, hstack, hvalues⟩

end HappyServer.Serialize.UnpackStack
