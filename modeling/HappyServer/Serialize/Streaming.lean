import HappyServer.Serialize.StackFrames

/-!
# One value after the other, and all at once (`unpack_one`, `lua_serialize_do_unpack`)

`serialize.unpack_one` is called again and again, each time with a stack of its own, and moves the buffer
with `seek`; `unpack` pushes all values on one stack.  It asks for slots every eighth round, so it can
fail where the calls do not.

* `Repeated`: the values that the calls return, until one returns nothing or raises an error.
* `doUnpack` of `Serialize` says where the loop stopped, `left`, and what was on the stack.

    unpack raises 'stack overflow', or the calls return its values, and raise where it does
                                                                                     (stream_agrees)
-/

namespace HappyServer.Serialize.UnpackStack

open Traced Word

/-! ## The calls -/

section Calls

variable (room : Nat) (arg : Slot)

/-- The `unpack_one` that Lua calls: how far the buffer seeks, if there was a value. -/
def luaUnpackOne (data : List UInt8) : Api (Option Nat) := do
  modify fun st => { st with view := .make data }
  match ← readType with
  | none => pure none
  | some type =>
    pushValue room (unpackOne room data.length) data.length (type &&& 7) (type >>> 3).toNat
    let st ← get
    pure (some (data.length - st.view.size))

/-- `serialize.unpack_one(buf)`: what it returns, the heap and the buffer then. -/
def bufferUnpackOne (heap : Heap) (b : Buffer) : Except Fault (Option Slot) × Heap × Buffer :=
  match luaUnpackOne room b.readable ⟨[arg], 1 + LUA_MINSTACK, heap, .make []⟩ with
  | .ok none st => (.ok none, st.heap, b)
  | .ok (some n) st => (.ok st.stack.getLast?, st.heap, b.seek (i32 n) .Current)
  | .error f st => (.error f, st.heap, b)

/-- The values that calls return until one returns nothing or raises an error, with the heap after the
last of them; the last argument is the buffer at the end. -/
inductive Repeated : Heap → Buffer → List Slot → Option Fault → Heap → Buffer → Prop
  | nothing {heap heap' b b'} (h : bufferUnpackOne room arg heap b = (.ok none, heap', b')) :
      Repeated heap b [] none heap b'
  | raise {heap heap' b b' f} (h : bufferUnpackOne room arg heap b = (.error f, heap', b')) :
      Repeated heap b [] (some f) heap b'
  | value {heap heap' heap'' b b' b'' v vs f}
      (h : bufferUnpackOne room arg heap b = (.ok (some v), heap', b'))
      (hrest : Repeated heap' b' vs f heap'' b'') : Repeated heap b (v :: vs) f heap'' b''

variable {room arg}

theorem Repeated.unique {heap heap₁ heap₂ : Heap} {b b₁ b₂ : Buffer} {vs ws : List Slot}
    {f f' : Option Fault} (h : Repeated room arg heap b vs f heap₁ b₁)
    (h' : Repeated room arg heap b ws f' heap₂ b₂) : ws = vs ∧ f' = f ∧ heap₂ = heap₁ ∧ b₂ = b₁ := by
  induction h generalizing ws with
  | nothing h =>
    cases h' with
    | nothing h' => rw [h] at h'; cases h'; exact ⟨rfl, rfl, rfl, rfl⟩
    | raise h' => rw [h] at h'; cases h'
    | value h' _ => rw [h] at h'; cases h'
  | raise h =>
    cases h' with
    | nothing h' => rw [h] at h'; cases h'
    | raise h' => rw [h] at h'; cases h'; exact ⟨rfl, rfl, rfl, rfl⟩
    | value h' _ => rw [h] at h'; cases h'
  | value h _ ih =>
    cases h' with
    | nothing h' => rw [h] at h'; cases h'
    | raise h' => rw [h] at h'; cases h'
    | value h' hrest =>
      rw [h] at h'
      cases h'
      obtain ⟨rfl, rfl, rfl, rfl⟩ := ih hrest
      exact ⟨rfl, rfl, rfl, rfl⟩

end Calls

/-! ## One round -/

section Round

variable {room : Nat} {st : Machine} {data : List UInt8}

/-- What follows the type byte is what `unpack_one` does. -/
theorem run_readType {byte : UInt8} {rest : List UInt8} (h : st.view.rest = byte :: rest) (room : Nat) :
    ∃ view, view.rest = rest ∧ readType st = .ok (some byte) { st with view := view } ∧
      ∀ fuel, unpackOne room (fuel + 1) st = pushValue room (unpackOne room fuel) fuel (byte &&& 7)
        (byte >>> 3).toNat { st with view := view } := by
  obtain ⟨view, hread, hrest⟩ := st.view.read_some Nat.one_pos (by rw [h]; exact Nat.succ_pos _)
  rw [h] at hread hrest
  have hreadOr : readOr st.view 1 403 = pure (LittleEndian.ofBytes [byte], view) := by
    unfold readOr
    rw [hread]
    rfl
  have hreading : reading (fun view => readOr view 1 403) st =
      .ok (LittleEndian.ofBytes [byte]) { st with view := view } := by
    unfold reading
    dsimp only
    rw [hreadOr]
    rfl
  have hbyte := ofNat_ofBytes byte
  refine ⟨view, hrest, ?_, fun fuel => ?_⟩
  · unfold readType
    rw [hread]
    show EStateM.Result.ok (some (UInt8.ofNat (LittleEndian.ofBytes [byte]))) _ = _
    rw [hbyte]
  · rw [unpackOne, run_bind, hreading]
    dsimp only
    rw [hbyte]

theorem run_readType_nil (h : st.view.rest = []) : readType st = .ok none st := by
  have hread := st.view.read_none (n := 1) (by rw [h]; exact Nat.one_pos)
  unfold readType
  rw [hread]

/-- A round of the loop: the slots are there, or `luaL_checkstack` fails. -/
theorem run_unpackValues (room i fuel : Nat) (st : Machine) :
    (i % 8 = 7 ∧ room < st.stack.length + LUA_MINSTACK ∧
      unpackValues room i (fuel + 1) st = .error .stackOverflow st) ∨
    ∃ limit, st.limit ≤ limit ∧
      (i % 8 = 7 → st.stack.length + LUA_MINSTACK ≤ limit ∧ st.stack.length + LUA_MINSTACK ≤ room) ∧
      (st.view.rest = [] → unpackValues room i (fuel + 1) st = .ok () { st with limit := limit }) ∧
      (st.view.rest ≠ [] → unpackValues room i (fuel + 1) st =
        (unpackOne room (fuel + 1) >>= fun _ => unpackValues room (i + 1) fuel)
          { st with limit := limit }) := by
  have hnil : ∀ limit, ∀ next : Option UInt8 → Api Unit, next none = pure () → st.view.rest = [] →
      (readType >>= next) { st with limit := limit } = .ok () { st with limit := limit } := by
    intro limit next hnone hnil
    have hread : readType { st with limit := limit } = .ok none { st with limit := limit } :=
      run_readType_nil hnil
    rw [run_bind, hread]
    dsimp only
    rw [hnone]
    rfl
  have hcons : ∀ limit, ∀ next : Option UInt8 → Api Unit, (∀ type, next (some type) = do
        pushValue room (unpackOne room fuel) fuel (type &&& 7) (type >>> 3).toNat
        unpackValues room (i + 1) fuel) → st.view.rest ≠ [] →
      (readType >>= next) { st with limit := limit } =
        (unpackOne room (fuel + 1) >>= fun _ => unpackValues room (i + 1) fuel)
          { st with limit := limit } := by
    intro limit next hsome hne
    obtain ⟨byte, rest, hbytes⟩ := List.exists_cons_of_ne_nil hne
    obtain ⟨view, -, hread, hone⟩ :=
      run_readType (show { st with limit := limit }.view.rest = _ from hbytes) room
    rw [run_bind, hread]
    dsimp only
    rw [hsome, run_bind, run_bind, hone]
  rw [unpackValues]
  by_cases hcheck : i % 8 = 7
  · rw [if_pos hcheck]
    by_cases hroom : st.stack.length + LUA_MINSTACK ≤ room
    · right
      have hrun : checkstack room LUA_MINSTACK st =
          .ok () { st with limit := max st.limit (st.stack.length + LUA_MINSTACK) } := if_pos hroom
      refine ⟨_, Nat.le_max_left _ _, fun _ => ⟨Nat.le_max_right _ _, hroom⟩, fun h => ?_, fun h => ?_⟩
      · rw [run_bind, hrun]
        exact hnil _ _ rfl h
      · rw [run_bind, hrun]
        exact hcons _ _ (fun _ => rfl) h
    · left
      have hrun : checkstack room LUA_MINSTACK st = .error .stackOverflow st := if_neg hroom
      refine ⟨hcheck, Nat.lt_of_not_le hroom, ?_⟩
      rw [run_bind, hrun]
  · rw [if_neg hcheck]
    exact Or.inr ⟨st.limit, Nat.le_refl _, fun h => absurd h hcheck, hnil _ _ rfl,
      hcons _ _ fun _ => rfl⟩

/-- A run that ends as decoding does is none that is lost. -/
theorem Runs.not_lost {α β : Type} {N : Nat} {m : Api α} {r : Except Error β}
    {P : β → α → Machine → Prop} (h : Runs room N m st r P) (hr : r ≠ .error .outOfFuel) {f : Fault}
    {st' : Machine} (hm : m st = .error f st') : ¬f.lost := by
  intro hlost
  rcases h with ⟨-, st'', hrun⟩ | h
  · rw [hm] at hrun
    cases hrun
    exact hlost
  · cases r with
    | ok b =>
      obtain ⟨a, st'', hrun, -⟩ := h
      rw [hm] at hrun
      cases hrun
    | error e =>
      obtain ⟨st'', hrun⟩ := h
      rw [hm] at hrun
      cases hrun
      exact hr (congrArg Except.error hlost)

/-- A value read on a stack of its own is the one that is read above other slots. -/
theorem unpackOne_alone (room : Nat) {fuel : Nat} (hlimit : st.stack.length < st.limit) (hpos : 0 < st.stack.length)
    (hrest : st.view.rest = data) (hfuel : data.length ≤ fuel) (arg : Slot) :
    (∃ st', unpackOne room (fuel + 1) st = .error .stackOverflow st') ∨
    (∃ e st' st'', (Serialize.unpackOne (fuel + 1) st.view 0).result = .error e ∧
      unpackOne room (fuel + 1) st = .error (.error e) st' ∧
      unpackOne room (data.length + 1) ⟨[arg], 1 + LUA_MINSTACK, st.heap, .make data⟩ =
        .error (.error e) st'') ∨
    ∃ v slot st' limit view, (Serialize.unpackOne (fuel + 1) st.view 0).result = .ok (v, st'.view) ∧
      unpackOne room (fuel + 1) st = .ok () st' ∧ Pushed st (v, st'.view) st' ∧
      st'.stack = st.stack ++ [slot] ∧ Denotes st'.heap st.heap.length st'.heap.length slot v ∧
      unpackOne room (data.length + 1) ⟨[arg], 1 + LUA_MINSTACK, st.heap, .make data⟩ =
        .ok () ⟨[arg, slot], limit, st'.heap, view⟩ ∧ view.rest = st'.view.rest := by
  have hmake := BufferView.rest_make data
  have hruns := pushes_unpackOne room (st.stack.length + st.view.rest.length) (fuel + 1) 0 st hlimit
    (Nat.le_refl _)
  have hfine := (spends_unpackOne (fuel + 1) st.view (by rw [hrest]; omega) 0).2.1
  have hruns' := pushes_unpackOne room (1 + data.length) (data.length + 1) 0
    ⟨[arg], 1 + LUA_MINSTACK, st.heap, .make data⟩ (show 1 < 1 + LUA_MINSTACK by decide)
    (by show 1 + (BufferView.make data).rest.length ≤ _; rw [hmake])
  have hfine' := (spends_unpackOne (data.length + 1) (.make data) (by rw [hmake]; omega) 0).2.1
  have hover : Over st.stack [arg] 0 st ⟨[arg], 1 + LUA_MINSTACK, st.heap, .make data⟩ := by
    have h : Over st.stack [arg] 0 ⟨st.stack ++ [], st.limit, st.heap, st.view⟩
        ⟨[arg] ++ [], 1 + LUA_MINSTACK, st.heap, .make data⟩ := ⟨rfl, hrest.trans hmake.symm⟩
    rwa [List.append_nil] at h
  have h := lowers_unpackOne room (fuel + 1) (data.length + 1) 0 st.stack [arg] _ _ hpos hover
  generalize hm : unpackOne room (fuel + 1) st = r at h
  generalize hm' : unpackOne room (data.length + 1) ⟨[arg], _, _, _⟩ = r' at h
  have hlost := fun f st' (heq : r = .error f st') => hruns.not_lost hfine (hm.trans heq)
  unfold Runs at hruns
  rw [hm] at hruns
  rcases hruns with ⟨-, hruns⟩ | hend
  · exact Or.inl hruns
  right
  cases hp : (Serialize.unpackOne (fuel + 1) st.view 0).result with
  | error e =>
    left
    rw [hp] at hend
    obtain ⟨st', rfl⟩ := hend
    cases h with
    | lostAbove h => exact absurd h (hlost _ _ rfl)
    | lost h => exact absurd h (hruns'.not_lost hfine' hm')
    | error => exact ⟨e, st', _, rfl, rfl, rfl⟩
  | ok read =>
    right
    rw [hp] at hend
    obtain ⟨⟨⟩, st', rfl, hpushed⟩ := hend
    obtain ⟨v, view⟩ := read
    obtain rfl : st'.view = view := hpushed.view
    obtain ⟨slot, hstack, hslot⟩ := hpushed.slot
    cases h with
    | lost h => exact absurd h (hruns'.not_lost hfine' hm')
    | ok hover =>
      cases hover with
      | @mk own heap limit limit' view view' hown hview =>
        obtain rfl : own = [slot] := List.append_cancel_left hstack
        exact ⟨v, slot, _, limit', view', rfl, rfl, hpushed, hstack, hslot, rfl, hview.symm⟩

end Round

/-! ## One call -/

section Call

variable {room fuel : Nat} {b : Buffer} {data : List UInt8} {arg : Slot} {heap : Heap}

/-- With nothing left, a call returns nothing. -/
theorem bufferUnpackOne_nil (hb : Buffer.Sound b []) :
    bufferUnpackOne room arg heap b = (.ok none, heap, b) := by
  unfold bufferUnpackOne
  rw [hb.holds.readable hb.ordered]
  rfl

/-- Otherwise it does what the inner `unpack_one` does, and seeks. -/
theorem bufferUnpackOne_cons (hb : Buffer.Sound b data) (hne : data ≠ []) :
    bufferUnpackOne room arg heap b =
      match unpackOne room (data.length + 1) ⟨[arg], 1 + LUA_MINSTACK, heap, .make data⟩ with
      | .ok _ st =>
        (.ok st.stack.getLast?, st.heap, b.seek (i32 (data.length - st.view.size : Nat)) .Current)
      | .error f st => (.error f, st.heap, b) := by
  let start : Machine := ⟨[arg], 1 + LUA_MINSTACK, heap, .make data⟩
  obtain ⟨byte, rest, hbytes⟩ := List.exists_cons_of_ne_nil hne
  obtain ⟨view, -, hread, hone⟩ :=
    run_readType (show start.view.rest = _ from (BufferView.rest_make data).trans hbytes) room
  have hlua : luaUnpackOne room data ⟨[arg], 1 + LUA_MINSTACK, heap, .make []⟩ =
      match unpackOne room (data.length + 1) start with
      | .ok _ st => .ok (some (data.length - st.view.size)) st
      | .error f st => .error f st := by
    rw [hone]
    show (readType >>= _) start = _
    rw [run_bind, hread]
    dsimp only
    rw [run_bind]
    generalize pushValue room _ _ _ _ _ = r
    cases r <;> rfl
  unfold bufferUnpackOne
  rw [hb.holds.readable hb.ordered, hlua]
  generalize unpackOne room (data.length + 1) start = r
  cases r <;> rfl

/-- What a call does when `unpack` is at the same bytes. -/
theorem bufferUnpackOne_round (room : Nat) (arg : Slot) (st : Machine) (hb : Buffer.Sound b data) (hne : data ≠ [])
    (hlen : data.length < 2 ^ 31) (hlimit : st.stack.length < st.limit) (hpos : 0 < st.stack.length)
    (hrest : st.view.rest = data) (hfuel : data.length ≤ fuel) :
    (∃ st', unpackOne room (fuel + 1) st = .error .stackOverflow st') ∨
    (∃ e st' heap', (Serialize.unpackOne (fuel + 1) st.view 0).result = .error e ∧
      unpackOne room (fuel + 1) st = .error (.error e) st' ∧
      bufferUnpackOne room arg st.heap b = (.error (.error e), heap', b)) ∨
    ∃ v slot st' b', (Serialize.unpackOne (fuel + 1) st.view 0).result = .ok (v, st'.view) ∧
      unpackOne room (fuel + 1) st = .ok () st' ∧ Pushed st (v, st'.view) st' ∧
      st'.stack = st.stack ++ [slot] ∧ Denotes st'.heap st.heap.length st'.heap.length slot v ∧
      bufferUnpackOne room arg st.heap b = (.ok (some slot), st'.heap, b') ∧
      Buffer.Sound b' st'.view.rest ∧ st'.view.rest.length < data.length ∧
      b'.readpos_ + st'.view.rest.length = b.readpos_ + data.length := by
  rw [bufferUnpackOne_cons hb hne]
  rcases unpackOne_alone room hlimit hpos hrest hfuel arg with hover |
    ⟨e, st', st'', hp, hrun, halone⟩ | ⟨v, slot, st', limit, view, hp, hrun, hpushed, hstack, hslot,
      halone, hview⟩
  · exact Or.inl hover
  · refine Or.inr (Or.inl ⟨e, st', st''.heap, hp, hrun, ?_⟩)
    rw [halone]
  · have hsame := alike_unpackOne (fuel + 1) (fuel + 1) st.view st.view rfl (by rw [hrest]; omega) 0
    obtain ⟨-, ⟨e, he, -⟩ | ⟨r, r', hr, hr', ⟨-, -, hsuffix⟩, hlt⟩⟩ := hsame
    · rw [hp] at he
      cases he
    · unfold Returns at hr
      rw [hp] at hr
      obtain rfl := Except.ok.inj hr
      rw [hrest] at hsuffix hlt
      obtain ⟨hsound, hread⟩ := seek_suffix hb hlen hsuffix
      refine Or.inr (Or.inr ⟨v, slot, st', _, hp, hrun, hpushed, hstack, hslot, ?_, hsound, hlt, hread⟩)
      rw [halone]
      dsimp only
      rw [← BufferView.length_rest, hview]
      rfl

end Call

/-! ## All of them -/

section Calls

variable {room : Nat}

/-- The calls from where a round of the loop starts, against what is left of the loop. -/
theorem repeated_unpackValues (arg : Slot) (fuel : Nat) : ∀ {i : Nat} (st : Machine) {b : Buffer}
    {data : List UInt8} (stack : List Tree), st.stack.length = i + 1 →
    st.stack.length + (7 - i % 8) ≤ st.limit → st.view.rest = data → Buffer.Sound b data →
    data.length < 2 ^ 31 → data.length < fuel →
    (∃ st', unpackValues room i fuel st = .error .stackOverflow st') ∨
    ∃ slots vs heap' b', Repeated room arg st.heap b slots
        ((Serialize.doUnpack 0 fuel st.view stack).error.map .error) heap' b' ∧
      (Serialize.doUnpack 0 fuel st.view stack).stack = stack ++ vs ∧
      st.heap <+: heap' ∧ Values heap' st.heap.length heap'.length slots vs ∧
      Buffer.Sound b' (Serialize.doUnpack 0 fuel st.view stack).left ∧
      b'.readpos_ + (Serialize.doUnpack 0 fuel st.view stack).left.length = b.readpos_ + data.length ∧
      match (Serialize.doUnpack 0 fuel st.view stack).error with
      | none => ∃ st', unpackValues room i fuel st = .ok () st' ∧ st'.stack = st.stack ++ slots ∧
          st'.heap = heap'
      | some e => ∃ st', unpackValues room i fuel st = .error (.error e) st' := by
  induction fuel with
  | zero =>
    intro i st b data stack _ _ _ _ _ hfuel
    omega
  | succ fuel ih =>
    intro i st b data stack hstack hlimit hrest hb hlen hfuel
    rcases run_unpackValues room i fuel st with ⟨-, -, hover⟩ | ⟨limit, hle, hcheck, hnil, hcons⟩
    · exact Or.inl ⟨st, hover⟩
    by_cases hdata : data = []
    · right
      subst hdata
      rw [doUnpack_nil hrest, hnil hrest]
      exact ⟨[], [], st.heap, b, .nothing (bufferUnpackOne_nil hb), (List.append_nil stack).symm,
        List.prefix_refl _, .nil (Nat.le_refl _), hb, rfl, _, rfl, (List.append_nil _).symm, rfl⟩
    have hne : st.view.rest ≠ [] := hrest ▸ hdata
    rw [doUnpack_cons hne, hcons hne, run_bind]
    rcases bufferUnpackOne_round room arg { st with limit := limit } hb hdata hlen
      (show st.stack.length < limit by unfold LUA_MINSTACK at hcheck; omega)
      (show 0 < st.stack.length by omega) hrest (show data.length ≤ fuel by omega) with
      ⟨st', hover⟩ | ⟨e, st', heap', hp, hrun, hcall⟩ |
        ⟨v, slot, st', b', hp, hrun, hpushed, hslots, hslot, hcall, hb', hlt, hpos⟩
    · left
      exact ⟨st', by rw [hover]⟩
    · right
      rw [hp, hrun]
      exact ⟨[], [], st.heap, b, .raise hcall, (List.append_nil stack).symm, List.prefix_refl _,
        .nil (Nat.le_refl _), hrest ▸ hb, by rw [hrest], st', rfl⟩
    · rw [hp, hrun]
      dsimp only
      have hlimit' := hpushed.limit
      dsimp only at hlimit' hslots
      have hstack' : st'.stack.length = i + 1 + 1 := by
        rw [hslots, List.length_append, hstack, List.length_singleton]
      rcases ih st' (stack ++ [v]) hstack' (by unfold LUA_MINSTACK at hcheck; omega) rfl hb' (by omega)
        (by omega) with hover | ⟨slots, vs, heap', b'', hcalls, hstop, hheap, hvalues, hb'', hpos', hend⟩
      · exact Or.inl hover
      · right
        have hslot' := hslot.frame (Nat.le_refl _) (Nat.le_refl _) fun r _ hr => getElem?_of_prefix hheap hr
        refine ⟨slot :: slots, v :: vs, heap', b'', .value hcall hcalls, ?_, hpushed.heap.trans hheap,
          .cons hslot' hvalues, hb'', by omega, ?_⟩
        · rw [hstop, List.append_assoc]
          rfl
        · generalize (Serialize.doUnpack 0 fuel st'.view (stack ++ [v])).error = stopped at hend ⊢
          cases stopped with
          | some e => exact hend
          | none =>
            obtain ⟨st'', hrun', hslots', hheap'⟩ := hend
            refine ⟨st'', hrun', ?_, hheap'⟩
            rw [hslots', hslots, List.append_assoc]
            rfl

/-- **One value after the other, or all at once.**  Unless `luaL_checkstack` fails in `unpack`, which it
does only if `data` has about as many bytes as there are slots, calls of `unpack_one` return the values of
`unpack`, tables and all, and then nothing; or, where `unpack` raises an error, those that precede the
malformed one, and the call that raises the same error leaves the buffer at its first byte. -/
theorem stream_agrees (room : Nat) {b : Buffer} {data : List UInt8} (hb : Buffer.Sound b data)
    (hlen : data.length < 2 ^ 31) (st : Machine) (arg : Slot) (args : List Slot)
    (hargs : st.stack = arg :: args) (hlimit : st.stack.length + LUA_MINSTACK ≤ st.limit) (buf : Slot) :
    (room < data.length + 1 + LUA_MINSTACK ∧
      ∃ st', doUnpack room data st = .error .stackOverflow st') ∨
    ∃ slots f heap' b', (∀ slots' f' heap'' b'', Repeated room buf st.heap b slots' f' heap'' b'' ↔
        slots' = slots ∧ f' = f ∧ heap'' = heap' ∧ b'' = b') ∧
      Values heap' st.heap.length heap'.length slots (unpackStopped 0 data).stack ∧
      ((∃ st', doUnpack room data st = .ok slots.length st' ∧ st'.heap = heap' ∧
          st'.stack.drop (st'.stack.length - slots.length) = slots ∧ f = none ∧ b'.readable = []) ∨
        ∃ e st', doUnpack room data st = .error (.error e) st' ∧ f = some (.error e) ∧
          b'.readable = (unpackStopped 0 data).left ∧
          b'.readpos_ + (unpackStopped 0 data).left.length = b.readpos_ + data.length) := by
  have hstack := unpack_stack room data st arg args hargs hlimit
  by_cases hdata : data = []
  · subst hdata
    right
    refine ⟨[], none, st.heap, b, fun _ _ _ _ => ⟨fun h => ?_, ?_⟩, .nil (Nat.le_refl _),
      Or.inl ⟨st, rfl, rfl, List.drop_length, rfl, hb.holds.readable hb.ordered⟩⟩
    · exact (Repeated.nothing (bufferUnpackOne_nil hb)).unique h
    · rintro ⟨rfl, rfl, rfl, rfl⟩
      exact .nothing (bufferUnpackOne_nil hb)
  rw [run_doUnpack room hargs hdata] at hstack ⊢
  have hstopped : unpackStopped 0 data = Serialize.doUnpack 0 (data.length + 1) (.make data) [] :=
    if_neg (mt List.length_eq_zero_iff.mp hdata)
  rw [hstopped]
  rcases repeated_unpackValues buf (data.length + 1) (i := 0)
      ⟨[arg], st.limit, st.heap, .make data⟩ [] rfl
      (by
        show 1 + (7 - 0 % 8) ≤ st.limit
        rw [hargs, List.length_cons] at hlimit
        unfold LUA_MINSTACK at hlimit
        omega)
      (BufferView.rest_make data) hb hlen (Nat.lt_succ_self _) with
    ⟨st', hover⟩ | ⟨slots, vs, heap', b', hcalls, hvs, -, hvalues, hb', hpos, hend⟩
  · left
    rw [hover] at hstack ⊢
    rcases hstack with ⟨hlt, -⟩ | hstack
    · exact ⟨hlt, st', rfl⟩
    · split at hstack
      · obtain ⟨_, h, -⟩ := hstack
        cases h
      · obtain ⟨_, h⟩ := hstack
        cases h
  · right
    dsimp only at hend hvs
    rw [List.nil_append] at hvs
    rw [hvs]
    refine ⟨slots, _, heap', b', fun _ _ _ _ => ⟨fun h => hcalls.unique h, ?_⟩, hvalues, ?_⟩
    · rintro ⟨rfl, rfl, rfl, rfl⟩
      exact hcalls
    have hread := hb'.holds.readable hb'.ordered
    rw [hread]
    cases hstop : (Serialize.doUnpack 0 (data.length + 1) (.make data) []).error with
    | none =>
      rw [hstop] at hend
      obtain ⟨st', hrun, hslots, hheap⟩ := hend
      refine Or.inl ⟨st', ?_, hheap, ?_, rfl, doUnpack_left 0 _ _ [] hstop⟩
      · rw [hrun]
        show EStateM.Result.ok (st'.stack.length - 1) st' = _
        rw [hslots]
        rfl
      · rw [hslots, List.length_append, Nat.add_sub_cancel]
        exact List.drop_left
    | some e =>
      rw [hstop] at hend
      obtain ⟨st', hrun⟩ := hend
      exact Or.inr ⟨e, st', by rw [hrun], rfl, rfl, hpos⟩

/-- Two booleans, and a number whose byte is missing. -/
theorem stream_agrees_malformed : ∃ (b b' : Buffer) (slots : List Slot) (heap' : Heap),
    b.readable = [1, 9, 10] ∧
    Repeated 100 (.scalar .nil) [] b slots (some (.error (.invalidStream 0 268))) heap' b' ∧
    Values heap' 0 heap'.length slots [.scalar (.boolean false), .scalar (.boolean true)] ∧
    b'.readable = [10] := by
  have hresult : (unpack [1, 9, 10] 0).result = .error (.invalidStream 0 268) := by
    rw [← unpackStopped_result, Stopped.result]
    simp only [show (unpackStopped 0 [1, 9, 10]).error = some (.invalidStream 0 268) by decide +kernel]
  have hleft : (unpackStopped 0 [1, 9, 10]).left = [10] := by decide +kernel
  have hstack : (unpackStopped 0 [1, 9, 10]).stack =
    [.scalar (.boolean false), .scalar (.boolean true)] := rfl
  have hblank := Buffer.sound_blank (Nat.zero_le STACK_CAPACITY)
  obtain ⟨b, -, hb, -⟩ := hblank.writeBack (fun _ => 0)
    (show (Buffer.blank 0).Room ([1, 9, 10] : List UInt8).length by decide)
  rw [List.nil_append] at hb
  have hunpack := unpack_stack 100 [1, 9, 10] ⟨[.scalar .nil], 21, [], .make []⟩ (.scalar .nil) [] rfl
    (by decide)
  rw [hresult] at hunpack
  obtain ⟨st₁, hraised⟩ := hunpack.resolve_left fun h => absurd h.1 (by decide)
  rcases stream_agrees 100 hb (by decide) ⟨[.scalar .nil], 21, [], .make []⟩ (.scalar .nil) [] rfl
    (by decide) (.scalar .nil) with ⟨hlt, -⟩ | ⟨slots, f, heap', b', hcalls, hvalues, hend⟩
  · exact absurd hlt (by decide)
  · rw [hraised] at hend
    rcases hend with ⟨_, hok, -⟩ | ⟨e, st', herror, rfl, hread, -⟩
    · cases hok
    · cases herror
      refine ⟨b, b', slots, heap', hb.holds.readable hb.ordered, ?_, hstack ▸ hvalues, hread.trans hleft⟩
      exact (hcalls _ _ _ _).mpr ⟨rfl, rfl, rfl, rfl⟩

/-! ## More values than slots -/

/-- A byte `01` is `false`. -/
theorem run_false {st : Machine} {rest : List UInt8} (h : st.view.rest = 1 :: rest)
    (hlimit : st.stack.length < st.limit) (room fuel : Nat) :
    ∃ view, view.rest = rest ∧ unpackOne room (fuel + 1) st =
      .ok () ⟨st.stack ++ [.scalar (.boolean false)], st.limit, st.heap, view⟩ := by
  obtain ⟨view, hrest, -, hone⟩ := run_readType h room
  refine ⟨view, hrest, ?_⟩
  rw [hone]
  exact run_push { st with view := view } hlimit _

/-- So many booleans that a round asks for slots that are not there. -/
theorem unpackValues_booleans (room fuel : Nat) : ∀ {i k : Nat} (st : Machine),
    st.stack.length = i + 1 → st.stack.length + (7 - i % 8) ≤ st.limit →
    st.view.rest = List.replicate k 1 → k < fuel → i + (7 - i % 8) + 13 ≤ room → room ≤ i + k →
    ∃ st', unpackValues room i fuel st = .error .stackOverflow st' := by
  induction fuel with
  | zero =>
    intro i k st _ _ _ hfuel
    omega
  | succ fuel ih =>
    intro i k st hstack hlimit hrest hfuel hnext hroom
    rcases run_unpackValues room i fuel st with ⟨-, -, hover⟩ | ⟨limit, hle, hcheck, -, hcons⟩
    · exact ⟨st, hover⟩
    obtain ⟨k, rfl⟩ : ∃ n, k = n + 1 := ⟨k - 1, by omega⟩
    rw [List.replicate_succ] at hrest
    unfold LUA_MINSTACK at hcheck
    obtain ⟨view, hview, hrun⟩ := run_false (show { st with limit := limit }.view.rest = _ from hrest)
      (show st.stack.length < limit by omega) room fuel
    rw [hcons (by rw [hrest]; exact List.cons_ne_nil _ _), run_bind, hrun]
    have hlength : (st.stack ++ [Slot.scalar (.boolean false)]).length = i + 1 + 1 := by
      rw [List.length_append, hstack, List.length_singleton]
    exact ih ⟨_, limit, st.heap, view⟩ hlength (by dsimp only; omega) hview (by omega) (by omega) (by omega)

/-- One at a time there is no end of them. -/
theorem repeated_booleans (room : Nat) (arg : Slot) (heap : Heap) (k : Nat) : ∀ {b : Buffer},
    Buffer.Sound b (List.replicate k 1) → k < 2 ^ 31 →
    ∃ b', Repeated room arg heap b (List.replicate k (.scalar (.boolean false))) none heap b' := by
  induction k with
  | zero =>
    intro b hb _
    exact ⟨b, .nothing (bufferUnpackOne_nil hb)⟩
  | succ k ih =>
    intro b hb hlt
    obtain ⟨view, hview, hrun⟩ := run_false (show
      (⟨[arg], 1 + LUA_MINSTACK, heap, .make (List.replicate (k + 1) 1)⟩ : Machine).view.rest = _ from
      BufferView.rest_make _) (show 1 < 1 + LUA_MINSTACK by decide) room (k + 1)
    obtain ⟨hsound, -⟩ := seek_suffix hb (by rwa [List.length_replicate])
      (show List.replicate k (1 : UInt8) <:+ List.replicate (k + 1) 1 from List.suffix_cons _ _)
    obtain ⟨b', hcalls⟩ := ih hsound (by omega)
    refine ⟨b', .value ?_ hcalls⟩
    rw [bufferUnpackOne_cons hb (List.cons_ne_nil _ _), List.length_replicate, hrun]
    dsimp only
    rw [← BufferView.length_rest, hview, List.length_replicate]
    rfl

theorem booleans_overflow (count : Nat) (hroom : (Buffer.blank 0).Room count) (hmin : 20 ≤ count)
    (hlt : count < 2 ^ 31) : ∃ b : Buffer, b.readable = List.replicate count 1 ∧
    (∃ st', doUnpack count b.readable ⟨[.scalar .nil], 21, [], .make []⟩ = .error .stackOverflow st') ∧
    ∃ slots heap' b', Repeated count (.scalar .nil) [] b slots none heap' b' ∧ slots.length = count ∧
      ∀ slots' f heap'' b'', Repeated count (.scalar .nil) [] b slots' f heap'' b'' → f = none := by
  have hlength : (List.replicate count (1 : UInt8)).length = count := List.length_replicate
  have hne : List.replicate count (1 : UInt8) ≠ [] := List.ne_nil_of_length_pos (by omega)
  have hblank := Buffer.sound_blank (Nat.zero_le STACK_CAPACITY)
  obtain ⟨b, -, hb, -⟩ := hblank.writeBack (fun _ => 0)
    (show (Buffer.blank 0).Room (List.replicate count (1 : UInt8)).length by rwa [hlength])
  rw [List.nil_append] at hb
  have hread := hb.holds.readable hb.ordered
  obtain ⟨b', hcalls⟩ := repeated_booleans count (.scalar .nil) [] count hb hlt
  refine ⟨b, hread, ?_, _, [], b', hcalls, List.length_replicate, fun _ _ _ _ h => (hcalls.unique h).2.1⟩
  obtain ⟨st', hover⟩ := unpackValues_booleans count (count + 1) (i := 0) (k := count)
    ⟨[.scalar .nil], 21, [], .make (List.replicate count 1)⟩ rfl (show 1 + (7 - 0 % 8) ≤ 21 by decide)
    (BufferView.rest_make _) (Nat.lt_succ_self _) (by omega) (by omega)
  refine ⟨st', ?_⟩
  rw [hread, run_doUnpack count (show (⟨[.scalar .nil], 21, [], .make []⟩ : Machine).stack = _ from rfl) hne,
    hlength, hover]

/-- A million booleans and as many slots, which is `LUAI_MAXSTACK`: `unpack` raises an error, and no call
of `unpack_one` does. -/
theorem unpack_overflows : ∃ b : Buffer, b.readable = List.replicate 1000000 1 ∧
    (∃ st', doUnpack 1000000 b.readable ⟨[.scalar .nil], 21, [], .make []⟩ =
      .error .stackOverflow st') ∧
    ∃ slots heap' b', Repeated 1000000 (.scalar .nil) [] b slots none heap' b' ∧
      slots.length = 1000000 ∧
      ∀ slots' f heap'' b'', Repeated 1000000 (.scalar .nil) [] b slots' f heap'' b'' → f = none :=
  booleans_overflow 1000000 (by decide) (by decide) (by decide)

end Calls

end HappyServer.Serialize.UnpackStack
