import HappyServer.Serialize.LuaStack

/-!
# Stack discipline (`pack_one`, `wb_table`)

`Does heap n m st stack r a`: from `st`, the calls `m` do what the packing `r` says.  Where `r` is the
bytes, they are written, `m` returns `a`, and `stack` is left; where it is an error, `m` raises it, and
the buffer is deleted once if it is on the heap, and not used afterwards.

    one value: the stack is left as it was, and what is written is `packWithin`     (packs_packOne)
-/

namespace HappyServer.Serialize.LuaStack

open Word

variable {τ α β : Type} {heap : Bool}

/-! ## What calls leave -/

/-- The buffer is there, on the heap or not. -/
structure HeapBuffer.Live (heap : Bool) (b : HeapBuffer) : Prop where
  flag : b.heap = heap
  deletes : b.deletes = 0
  sound : b.misused = false

/-- The error path is over. -/
structure HeapBuffer.Freed (heap : Bool) (b : HeapBuffer) : Prop where
  deletes : b.deletes = if heap then 1 else 0
  sound : b.misused = false

theorem HeapBuffer.Live.touch {b : HeapBuffer} (h : b.Live heap) : b.touch = b := by
  obtain ⟨bytes, deletes, misused⟩ := h
  cases b
  simp_all [HeapBuffer.touch]

/-- `st` with another stack. -/
def LuaState.on (st : LuaState τ) (stack : List (Slot τ)) : LuaState τ := { st with stack := stack }

@[simp] theorem on_stack (st : LuaState τ) (stack : List (Slot τ)) : (st.on stack).stack = stack := rfl
@[simp] theorem on_buf (st : LuaState τ) (stack : List (Slot τ)) : (st.on stack).buf = st.buf := rfl
@[simp] theorem on_on (st : LuaState τ) (stack stack' : List (Slot τ)) :
    (st.on stack).on stack' = st.on stack' := rfl
@[simp] theorem on_self (st : LuaState τ) : st.on st.stack = st := rfl

/-- `bs` were written, and the first `n` iterators are as they were. -/
structure Grew (n : Nat) (st st' : LuaState τ) (bs : List UInt8) : Prop where
  buf : st'.buf = { st.buf with bytes := st.buf.bytes ++ bs }
  ids : st.nextId ≤ st'.nextId
  frame : ∀ id < n, st'.iterators id = st.iterators id

section Grew

variable {n n' : Nat} {st st' st'' : LuaState τ} {bs bs' : List UInt8}

theorem Grew.refl (n : Nat) (st : LuaState τ) : Grew n st st [] := by
  refine ⟨?_, Nat.le_refl _, fun _ _ => rfl⟩
  rw [List.append_nil]

theorem Grew.trans (h : Grew n' st st' bs) (h' : Grew n st' st'' bs') (hle : n ≤ n') :
    Grew n st st'' (bs ++ bs') := by
  refine ⟨?_, Nat.le_trans h.ids h'.ids, fun id hid => ?_⟩
  · rw [h'.buf, h.buf, List.append_assoc]
  · rw [h'.frame id hid, h.frame id (Nat.lt_of_lt_of_le hid hle)]

theorem Grew.live (h : Grew n st st' bs) (hlive : st.buf.Live heap) : st'.buf.Live heap := by
  rw [h.buf]
  exact ⟨hlive.flag, hlive.deletes, hlive.sound⟩

end Grew

def Does (heap : Bool) (n : Nat) (m : Lua τ α) (st : LuaState τ) (stack : List (Slot τ))
    (r : Except PackError (List UInt8)) (a : α) : Prop :=
  match r with
  | .ok bs => ∃ st', m st = .ok a st' ∧ st'.stack = stack ∧ Grew n st st' bs
  | .error e => ∃ st', m st = .error (.error e) st' ∧ st'.buf.Freed heap

/-! ## Rules -/

theorem run_bind (m : Lua τ α) (f : α → Lua τ β) (st : LuaState τ) :
    (m >>= f) st = match m st with
      | .ok a st' => f a st'
      | .error e st' => .error e st' := by
  show EStateM.bind m f st = _
  unfold EStateM.bind
  cases m st <;> rfl

variable {n n' : Nat} {m : Lua τ α} {f : α → Lua τ β} {st : LuaState τ} {stack stack' : List (Slot τ)}
  {r : Except PackError (List UInt8)} {a : α} {b : β}

theorem does_pure (st : LuaState τ) (a : α) : Does heap n (pure a) st st.stack (.ok []) a :=
  ⟨st, rfl, rfl, .refl n st⟩

/-- A call that writes nothing. -/
theorem does_run {st₁ : LuaState τ} (hm : m st = .ok a st₁) (hgrew : Grew n st st₁ [])
    (h : Does heap n (f a) st₁ stack r b) : Does heap n (m >>= f) st stack r b := by
  unfold Does at *
  rw [run_bind, hm]
  cases r with
  | error e => exact h
  | ok bs =>
    obtain ⟨st', hf, hstack, hgrew'⟩ := h
    exact ⟨st', hf, hstack, hgrew.trans hgrew' (Nat.le_refl n)⟩

/-- A call that only changes the stack. -/
theorem does_step (hm : m st = .ok a (st.on stack')) (h : Does heap n (f a) (st.on stack') stack r b) :
    Does heap n (m >>= f) st stack r b := by
  have hgrew := Grew.refl n st
  exact does_run hm ⟨hgrew.buf, hgrew.ids, hgrew.frame⟩ h

theorem does_of_run {m' : Lua τ α} (hrun : m st = m' (st.on stack'))
    (h : Does heap n m' (st.on stack') stack r a) : Does heap n m st stack r a := by
  unfold Does at *
  rw [hrun]
  cases r with
  | error e => exact h
  | ok bs =>
    obtain ⟨st', hm, hstack, hgrew⟩ := h
    exact ⟨st', hm, hstack, hgrew.buf, hgrew.ids, hgrew.frame⟩

/-- The first may keep more iterators than are to be kept. -/
theorem does_bind (r' : Except PackError (List UInt8)) (hm : Does heap n' m st stack' r a)
    (hle : n ≤ n')
    (hf : ∀ bs st', st'.stack = stack' → Grew n' st st' bs → Does heap n (f a) st' stack r' b) :
    Does heap n (m >>= f) st stack (r >>= fun bs => r' >>= fun bs' => .ok (bs ++ bs')) b := by
  unfold Does at hm
  cases r with
  | error e =>
    obtain ⟨st', hrun, hfreed⟩ := hm
    refine ⟨st', ?_, hfreed⟩
    rw [run_bind, hrun]
  | ok bs =>
    obtain ⟨st', hrun, hstack, hgrew⟩ := hm
    have h := hf bs st' hstack hgrew
    unfold Does at h ⊢
    cases r' with
    | error e =>
      obtain ⟨st'', hrun', hfreed⟩ := h
      refine ⟨st'', ?_, hfreed⟩
      rw [run_bind, hrun]
      exact hrun'
    | ok bs' =>
      obtain ⟨st'', hrun', hstack', hgrew'⟩ := h
      refine ⟨st'', ?_, hstack', hgrew.trans hgrew' hle⟩
      rw [run_bind, hrun]
      exact hrun'

theorem Does.congr {r' : Except PackError (List UInt8)} (h : Does heap n m st stack r a)
    (heq : r = r') : Does heap n m st stack r' a := heq ▸ h

/-- What is returned does not matter to what is done. -/
theorem does_return {g : α → β} (h : Does heap n m st stack r a) :
    Does heap n (m >>= fun a => pure (g a)) st stack r (g a) := by
  unfold Does at *
  cases r with
  | error e =>
    obtain ⟨st', hrun, hfreed⟩ := h
    refine ⟨st', ?_, hfreed⟩
    rw [run_bind, hrun]
  | ok bs =>
    obtain ⟨st', hrun, hrest⟩ := h
    refine ⟨st', ?_, hrest⟩
    rw [run_bind, hrun]
    rfl

/-! ## Calls -/

theorem does_writeBack (hlive : st.buf.Live heap) (bs : List UInt8) :
    Does heap n (writeBack bs) st st.stack (.ok bs) () := by
  refine ⟨{ st with buf := { st.buf with bytes := st.buf.bytes ++ bs } }, ?_, rfl, rfl, Nat.le_refl _,
    fun _ _ => rfl⟩
  show EStateM.Result.ok () { st with buf := { st.buf.touch with bytes := st.buf.touch.bytes ++ bs } } = _
  rw [hlive.touch]

theorem does_raise (hlive : st.buf.Live heap) (e : Bool → PackError) :
    Does heap n (raise e : Lua τ Unit) st stack (.error (e heap)) () := by
  obtain ⟨st_stack, iterators, nextId, ⟨flag, bytes, deletes, misused⟩⟩ := st
  obtain ⟨hflag, hdeletes, hsound⟩ := hlive
  dsimp only at hflag hdeletes hsound
  subst hflag hdeletes hsound
  cases flag with
  | false => exact ⟨_, rfl, rfl, rfl⟩
  | true => exact ⟨_, rfl, rfl, rfl⟩

-- what is packed is never evaluated to see what the calls do
attribute [irreducible] Does

theorem run_slotAt {index : Int} {x : Slot τ} (h : Slots.get st.stack index = some x) :
    slotAt index st = .ok x (st.on st.stack) := by
  unfold slotAt
  rw [h]
  rfl

theorem run_push (x : Slot τ) : push x st = .ok () (st.on (st.stack ++ [x])) := rfl

theorem run_pop (base top : List (Slot τ)) {n : Nat} (hstack : st.stack = base ++ top)
    (hn : top.length = n) : pop n st = .ok () (st.on base) := by
  unfold pop
  subst hn
  rw [if_pos (by rw [hstack, List.length_append]; omega), hstack, Slots.pop_append]
  rfl

theorem run_pushvalue {index : Int} {x : Slot τ} (h : Slots.get st.stack index = some x) :
    pushvalue index st = .ok () (st.on (st.stack ++ [x])) := by
  unfold pushvalue
  rw [run_bind, run_slotAt h]
  rfl

theorem run_copy {fromidx toidx : Int} {x y : Slot τ} (h : Slots.get st.stack fromidx = some x)
    (h' : Slots.get st.stack toidx = some y) :
    copy fromidx toidx st = .ok () (st.on (Slots.put st.stack toidx x)) := by
  unfold copy
  rw [run_bind, run_slotAt h, on_self]
  dsimp only
  rw [run_bind, run_slotAt h']
  rfl

theorem run_tableAt {index : Int} {t : τ} (h : Slots.get st.stack index = some (.value (.table t))) :
    tableAt index st = .ok t (st.on st.stack) := by
  unfold tableAt
  rw [run_bind, run_slotAt h]
  rfl

/-- A relative index becomes one from the bottom, and names the same slot. -/
theorem run_absolute {index : Int} {x : Slot τ} (h : Slots.get st.stack index = some x) :
    ∃ n : Nat, 0 < n ∧ Slots.get st.stack n = some x ∧
      absolute index st = .ok (n : Int) (st.on st.stack) := by
  rcases Slots.range_of_get h with hpos | ⟨hneg, hle⟩
  · obtain ⟨n, rfl⟩ := Int.eq_ofNat_of_zero_le (Int.le_of_lt hpos)
    refine ⟨n, by omega, h, ?_⟩
    unfold absolute
    rw [if_neg (by omega)]
    rfl
  · have habs := Slots.get_absolute hneg hle h
    have hpos : 0 < (st.stack.length : Int) + index + 1 := by omega
    obtain ⟨n, hn⟩ := Int.eq_ofNat_of_zero_le (Int.le_of_lt hpos)
    refine ⟨n, by omega, hn ▸ habs, ?_⟩
    rw [← hn]
    unfold absolute
    rw [if_pos hneg]
    rfl

/-! ## Tables -/

/-- `one` packs the value at any index, as `enc` says. -/
def Packs (heap : Bool) (one : Int → Lua τ Unit) (enc : LuaValue τ → Except PackError (List UInt8)) :
    Prop :=
  ∀ n st index x, Slots.get st.stack index = some x → st.buf.Live heap → n ≤ st.nextId →
    Does heap n (one index) st st.stack (enc x.toValue) ()

theorem get_top (base : List (Slot τ)) (x : Slot τ) : Slots.get (base ++ [x]) (-1) = some x :=
  Slots.get_append_top base [x] (n := 1) Nat.one_pos (Nat.le_refl _)

theorem get_second (base : List (Slot τ)) (x y : Slot τ) : Slots.get (base ++ [x, y]) (-2) = some x :=
  Slots.get_append_top base [x, y] (n := 2) (by decide) (Nat.le_refl 2)

theorem get_first (base : List (Slot τ)) (x y : Slot τ) : Slots.get (base ++ [x, y]) (-1) = some y :=
  Slots.get_append_top base [x, y] (n := 1) (by decide) (Nat.le_succ 1)

theorem bind_pair (rk rv r : Except PackError (List UInt8)) :
    (rk >>= fun bk => (rv >>= fun bv => r >>= fun bs => .ok (bv ++ bs)) >>= fun bs => .ok (bk ++ bs)) =
      rk >>= fun bk => rv >>= fun bv => r >>= fun bs => Except.ok (bk ++ bv ++ bs) := by
  cases rk with
  | error e => rfl
  | ok bk =>
    cases rv with
    | error e => rfl
    | ok bv =>
      cases r with
      | error e => rfl
      | ok bs => exact congrArg Except.ok (List.append_assoc bk bv bs).symm

section Next

variable [DecidableEq τ] (S : Store τ) {t : τ} {index : Nat} {base : List (Slot τ)}

theorem following_nil (pairs : List (LuaValue τ × LuaValue τ)) :
    following pairs .nil = pairs.head? := if_pos rfl

/-- After a key comes what follows it. -/
theorem following_key {before after : List (LuaValue τ × LuaValue τ)} {kv : LuaValue τ × LuaValue τ}
    (hnodup : ((before ++ kv :: after).map Prod.fst).Nodup) (hnil : kv.1 ≠ .scalar .nil) :
    following (before ++ kv :: after) (.value kv.1) = after.head? := by
  have hbefore : ∀ p ∈ before, decide (Slot.value p.1 ≠ Slot.value kv.1) = true := by
    intro p hp
    rw [List.map_append, List.map_cons, List.nodup_append] at hnodup
    have hne := hnodup.2.2 p.1 (List.mem_map_of_mem hp) kv.1 List.mem_cons_self
    exact decide_eq_true fun heq => hne (Slot.value.inj heq)
  have hne : Slot.value kv.1 ≠ Slot.nil := fun h => hnil (Slot.value.inj h)
  unfold following
  rw [if_neg hne, List.dropWhile_append_of_pos hbefore, List.dropWhile_cons_of_neg (by simp),
    List.tail_cons]

variable {key : Slot τ} {st : LuaState τ}

theorem run_next (hstack : st.stack = base ++ [key])
    (htable : Slots.get base index = some (.value (.table t))) (hpos : 0 < index) :
    next S index st = match following (S t).pairs key with
      | none => .ok false (st.on base)
      | some kv => .ok true (st.on (base ++ [.value kv.1, .value kv.2])) := by
  have hat : Slots.get st.stack index = some (.value (.table t)) := by
    rw [hstack]
    exact Slots.get_append_base base [key] hpos htable
  have htop : Slots.get st.stack (-1) = some key := by
    rw [hstack]
    exact get_top base key
  unfold next
  rw [run_bind, run_tableAt hat, on_self]
  dsimp only
  rw [run_bind, run_slotAt htop, on_self]
  dsimp only
  rw [run_bind, run_pop base [key] hstack (n := 1) rfl]
  dsimp only
  cases following (S t).pairs key with
  | none => rfl
  | some kv =>
    show EStateM.Result.ok true (st.on (base ++ [.value kv.1] ++ [.value kv.2])) = _
    rw [List.append_assoc]
    rfl

end Next

section Tables

variable (S : Store τ) {one : Int → Lua τ Unit}
  {enc : LuaValue τ → Except PackError (List UInt8)} (hone : Packs heap one enc) {t : τ} {index : Nat}

include hone

/-- Each element is pushed, packed and popped. -/
theorem does_wbElements (i count : Nat) (st : LuaState τ) (hlive : st.buf.Live heap) (hn : n ≤ st.nextId)
    (htable : Slots.get st.stack index = some (.value (.table t))) :
    Does heap n (wbElements S one index i count) st st.stack (Serialize.wbElements enc (S t) i count)
      () := by
  induction count generalizing i st with
  | zero => exact does_pure st ()
  | succ count ih =>
    have hget : rawgeti S index i st =
        .ok () (st.on (st.stack ++ [.value (Serialize.rawgeti (S t).pairs i)])) := by
      unfold rawgeti
      rw [run_bind, run_tableAt htable]
      exact run_push _
    show Does heap n _ st st.stack (enc (Serialize.rawgeti (S t).pairs i) >>= fun bs =>
      Serialize.wbElements enc (S t) (i + 1) count >>= fun bs' => .ok (bs ++ bs')) ()
    refine does_step hget (does_bind _ (hone n (st.on _) (-1) _ (get_top _ _) hlive hn) (Nat.le_refl n) ?_)
    intro bs st' hstack hgrew
    refine does_step (run_pop st.stack [_] hstack rfl) ?_
    exact ih (i + 1) (st'.on st.stack) (hgrew.live hlive) (Nat.le_trans hn hgrew.ids) htable

theorem does_wbTableArray (st : LuaState τ) (hlive : st.buf.Live heap) (hn : n ≤ st.nextId)
    (htable : Slots.get st.stack index = some (.value (.table t))) {size : Int}
    (hsize : i32 (S t).rawlen = size) :
    Does heap n (wbTableArray S one index) st st.stack
      ((Serialize.wbTableArray enc (S t)).map Prod.fst) size := by
  unfold wbTableArray Serialize.wbTableArray
  rw [hsize]
  have htableAt := run_tableAt htable
  refine does_step htableAt ?_
  rw [hsize, on_self]
  dsimp only
  refine Does.congr (does_bind (Serialize.wbElements enc (S t) 1 size.toNat)
    (does_writeBack hlive (wbArrayHeader size)) (Nat.le_refl n) ?_) ?_
  · intro bs st' hstack hgrew
    have h := does_wbElements S hone 1 size.toNat st' (hgrew.live hlive) (Nat.le_trans hn hgrew.ids)
      (hstack ▸ htable)
    rw [hstack] at h
    exact does_return h
  · cases Serialize.wbElements enc (S t) 1 size.toNat <;> rfl

omit hone in
/-- One pass of the loop over `lua_next`, and what comes after the loop. -/
theorem wbPairs_bind [DecidableEq τ] (index arraySize : Int) (fuel : Nat) (k : Unit → Lua τ Unit) :
    (wbPairs S one index arraySize (fuel + 1) >>= k) = next S index >>= fun more =>
      if more then slotAt (-2) >>= fun key =>
        if inArray arraySize key.toValue then pop 1 >>= fun _ => wbPairs S one index arraySize fuel >>= k
        else one (-2) >>= fun _ => one (-1) >>= fun _ => pop 1 >>= fun _ =>
          wbPairs S one index arraySize fuel >>= k
      else k () := by
  rw [wbPairs, bind_assoc]
  congr
  funext more
  cases more with
  | false => rfl
  | true =>
    simp only [if_true, bind_assoc]
    congr
    funext key
    cases inArray arraySize key.toValue <;> simp only [Bool.false_eq_true, if_false, if_true, bind_assoc]

/-- The loop over the pairs that are left. -/
theorem does_wbPairs [DecidableEq τ] (arraySize : Int) (hpos : 0 < index) {base : List (Slot τ)}
    (htable : Slots.get base index = some (.value (.table t)))
    (after : List (LuaValue τ × LuaValue τ)) :
    ∀ before key fuel (st : LuaState τ), (S t).pairs = before ++ after →
      following (S t).pairs key = after.head? → st.stack = base ++ [key] → st.buf.Live heap →
      n ≤ st.nextId → after.length < fuel →
      Does heap n (wbPairs S one index arraySize fuel >>= fun _ => writeBack wbNil) st base
        (Serialize.wbTableHash enc arraySize after) () := by
  induction after with
  | nil =>
    intro before key fuel st _ hnext hstack hlive _ hfuel
    obtain ⟨fuel, rfl⟩ : ∃ n, fuel = n + 1 := ⟨fuel - 1, by omega⟩
    have hrun := run_next S hstack htable hpos
    rw [hnext] at hrun
    rw [wbPairs_bind]
    have hlive' : (st.on base).buf.Live heap := hlive
    exact does_step hrun (does_writeBack hlive' wbNil)
  | cons kv after ih =>
    intro before key fuel st hpairs hnext hstack hlive hn hfuel
    obtain ⟨fuel, rfl⟩ : ∃ n, fuel = n + 1 := ⟨fuel - 1, by omega⟩
    rw [List.length_cons] at hfuel
    have hkv : kv ∈ (S t).pairs := by
      rw [hpairs]
      exact List.mem_append_right _ List.mem_cons_self
    have hnil : kv.1 ≠ .scalar .nil := fun h => ((S t).keys kv hkv _ h).not_nil rfl
    have hnext' : following (S t).pairs (.value kv.1) = after.head? := by
      have hnodup := (S t).keys_nodup
      rw [hpairs] at hnodup ⊢
      exact following_key hnodup hnil
    have hrest := ih (before ++ [kv]) (.value kv.1) fuel
    have hrun := run_next S hstack htable hpos
    rw [hnext] at hrun
    rw [wbPairs_bind]
    refine does_step hrun ?_
    rw [if_pos rfl]
    refine does_step (run_slotAt (get_second base _ _)) ?_
    rw [on_stack, on_on, Serialize.wbTableHash]
    have hpairs' : (S t).pairs = (before ++ [kv]) ++ after := by
      rw [hpairs, List.append_assoc]
      rfl
    have hlist : base ++ [Slot.value kv.1, .value kv.2] = (base ++ [.value kv.1]) ++ [.value kv.2] := by
      rw [List.append_assoc]
      rfl
    by_cases harray : inArray arraySize kv.1 = true
    · rw [if_pos harray]
      show Does heap n (if inArray arraySize kv.1 then _ else _) _ base _ ()
      rw [if_pos harray]
      refine does_step (run_pop (base ++ [Slot.value kv.1]) [Slot.value kv.2] hlist rfl) ?_
      exact hrest _ hpairs' hnext' rfl hlive hn (by omega)
    · rw [if_neg harray]
      show Does heap n (if inArray arraySize kv.1 then _ else _) _ base _ ()
      rw [if_neg harray]
      refine (does_bind _ (hone n (st.on _) (-2) (.value kv.1) (get_second base _ _) hlive hn)
        (Nat.le_refl n) ?_).congr (bind_pair _ _ _)
      intro bk st₁ hstack₁ hgrew₁
      have hn₁ := Nat.le_trans hn hgrew₁.ids
      refine does_bind _ (hone n st₁ (-1) (.value kv.2) ?_ (hgrew₁.live hlive) hn₁) (Nat.le_refl n) ?_
      · rw [hstack₁]
        exact get_first base _ _
      · intro bv st₂ hstack₂ hgrew₂
        refine does_step (run_pop (base ++ [Slot.value kv.1]) [Slot.value kv.2] ?_ rfl) ?_
        · rw [hstack₂, hstack₁]
          exact hlist
        · exact hrest (st₂.on _) hpairs' hnext' rfl (hgrew₂.live (hgrew₁.live hlive))
            (Nat.le_trans hn₁ hgrew₂.ids) (by omega)

/-- The pairs of a table: `lua_next` leaves the stack as it was before the nil. -/
theorem does_wbTableHash [DecidableEq τ] (arraySize : Int) (hpos : 0 < index) (st : LuaState τ)
    (hlive : st.buf.Live heap) (hn : n ≤ st.nextId)
    (htable : Slots.get st.stack index = some (.value (.table t))) :
    Does heap n (wbTableHash S one index arraySize) st st.stack
      (Serialize.wbTableHash enc arraySize (S t).pairs) () := by
  have htable' : Slots.get (st.on (st.stack ++ [.nil])).stack index = some (.value (.table t)) :=
    Slots.get_append_base _ _ hpos htable
  have htableAt := run_tableAt htable'
  refine does_step (run_push _) (does_step htableAt ?_)
  exact does_wbPairs S hone arraySize hpos htable (S t).pairs [] .nil _ (st.on _) rfl
    (following_nil _) rfl hlive hn (Nat.lt_succ_self _)

end Tables

/-! ## Iterators -/

section Iterators

variable [DecidableEq τ] {base : List (Slot τ)} {id : Nat} {s c : Slot τ} {st : LuaState τ}

/-- What the iterator is called with is taken from the stack, and two values are left. -/
theorem run_callIterator (hstack : st.stack = base ++ [.iterator id, s, c])
    (hs' : (st.iterators id).state = s) (hc' : (st.iterators id).control = c) :
    callIterator st = iterate id (st.on base) := by
  have hf : Slots.get st.stack (-3) = some (.iterator id) := by
    rw [hstack]
    exact Slots.get_append_top base [.iterator id, s, c] (n := 3) (by decide) (Nat.le_refl 3)
  have hs : Slots.get st.stack (-2) = some s := by
    rw [hstack]
    exact Slots.get_append_top base [.iterator id, s, c] (n := 2) (by decide) (Nat.le_succ 2)
  have hc : Slots.get st.stack (-1) = some c := by
    rw [hstack]
    exact Slots.get_append_top base [.iterator id, s, c] (n := 1) (by decide) (by simp)
  unfold callIterator
  rw [run_bind, run_slotAt hf, on_self]
  dsimp only
  rw [run_bind, run_slotAt hs, on_self]
  dsimp only
  rw [run_bind, run_slotAt hc, on_self]
  dsimp only
  rw [run_bind, run_pop base [.iterator id, s, c] hstack (n := 3) rfl]
  exact congrFun (if_pos ⟨hs'.symm, hc'.symm⟩) (st.on base)

variable {one : Int → Lua τ Unit} {enc : LuaValue τ → Except PackError (List UInt8)}
  {left : List (LuaValue τ × LuaValue τ)}

/-- The five slots of one pass: state and control are copied, and the iterator over the old control. -/
theorem run_advance (hstack : st.stack = base ++ [.iterator id, s, c])
    (hit : st.iterators id = ⟨s, c, left⟩) (k : Unit → Lua τ Unit) :
    (pushvalue (-2) >>= fun _ => pushvalue (-2) >>= fun _ => copy (-5) (-3) >>= fun _ =>
      callIterator >>= k) st =
        (iterate id >>= k) (st.on (base ++ [.iterator id, s])) := by
  have hstate : Slots.get st.stack (-2) = some s := by
    rw [hstack]
    exact Slots.get_append_top base [.iterator id, s, c] (n := 2) (by decide) (Nat.le_succ 2)
  have hcontrol : Slots.get (base ++ [.iterator id, s, c] ++ [s]) (-2) = some c := by
    rw [List.append_assoc]
    exact Slots.get_append_top base [.iterator id, s, c, s] (n := 2) (by decide) (by simp)
  have hfive : base ++ [.iterator id, s, c] ++ [s] ++ [c] = base ++ [.iterator id, s, c, s, c] := by
    rw [List.append_assoc, List.append_assoc]
    rfl
  have hfrom : Slots.get (base ++ [.iterator id, s, c, s, c]) (-5) = some (.iterator id) :=
    Slots.get_append_top base [.iterator id, s, c, s, c] (n := 5) (by decide) (Nat.le_refl 5)
  have hto : Slots.get (base ++ [.iterator id, s, c, s, c]) (-3) = some c :=
    Slots.get_append_top base [.iterator id, s, c, s, c] (n := 3) (by decide) (by simp)
  have hput : Slots.put (base ++ [.iterator id, s, c, s, c]) (-3) (.iterator id) =
      (base ++ [.iterator id, s]) ++ [.iterator id, s, c] := by
    rw [List.append_assoc]
    exact Slots.put_append_top base [.iterator id, s, c, s, c] (.iterator id) (n := 3) (by decide)
      (by simp)
  have hcall : callIterator (st.on (base ++ [.iterator id, s] ++ [.iterator id, s, c])) =
      iterate id (st.on (base ++ [.iterator id, s])) := by
    apply run_callIterator rfl
    · exact congrArg Iterator.state hit
    · exact congrArg Iterator.control hit
  rw [run_bind, run_pushvalue hstate, hstack]
  dsimp only
  rw [run_bind, run_pushvalue hcontrol, on_stack, hfive, on_on]
  dsimp only
  rw [run_bind, run_copy hfrom hto, on_stack, hput, on_on]
  dsimp only
  rw [run_bind, hcall, run_bind]

/-- One pass of the loop over the iterator, and what comes after the loop. -/
theorem wbMetapairs_bind (fuel : Nat) (k : Unit → Lua τ Unit) :
    (wbMetapairs one (fuel + 1) >>= k) =
      pushvalue (-2) >>= fun _ => pushvalue (-2) >>= fun _ => copy (-5) (-3) >>= fun _ =>
        callIterator >>= fun _ => slotAt (-2) >>= fun key =>
          if key = .nil then pop 4 >>= k
          else one (-2) >>= fun _ => one (-1) >>= fun _ => pop 1 >>= fun _ => wbMetapairs one fuel >>= k := by
  rw [wbMetapairs]
  simp only [bind_assoc]
  congr
  funext _
  congr
  funext _
  congr
  funext _
  congr
  funext _
  congr
  funext key
  split <;> simp only [bind_assoc]

/-- The pass that finds a nil key is the last, and takes its four slots off. -/
theorem does_lastPass (x y v : Slot τ) (hstack : st.stack = base ++ [x, y, .nil, v])
    (hlive : st.buf.Live heap) (m : Lua τ Unit) :
    Does heap n (slotAt (-2) >>= fun key =>
      if key = .nil then pop 4 >>= fun _ => writeBack wbNil else m) st base (.ok wbNil) () := by
  have hkey : Slots.get st.stack (-2) = some .nil := by
    rw [hstack]
    exact Slots.get_append_top base [x, y, .nil, v] (n := 2) (by decide) (by simp)
  refine does_step (run_slotAt hkey) ?_
  rw [if_pos rfl]
  refine does_step (run_pop base [x, y, .nil, v] hstack rfl) ?_
  have hlive' : (st.on base).buf.Live heap := hlive
  exact does_writeBack hlive' wbNil

/-- The loop over the pairs that the iterator has left. -/
theorem does_wbMetapairs (hone : Packs heap one enc) (hid : n ≤ id)
    (left : List (LuaValue τ × LuaValue τ)) :
    ∀ fuel (st : LuaState τ) c, st.stack = base ++ [.iterator id, s, c] →
      st.iterators id = ⟨s, c, left⟩ → id < st.nextId → st.buf.Live heap → left.length < fuel →
      Does heap n (wbMetapairs one fuel >>= fun _ => writeBack wbNil) st base
        (Serialize.wbMetapairs enc left) () := by
  induction left with
  | nil =>
    intro fuel st c hstack hit hlt hlive hfuel
    obtain ⟨fuel, rfl⟩ : ∃ n, fuel = n + 1 := ⟨fuel - 1, by omega⟩
    rw [wbMetapairs_bind]
    refine does_of_run (run_advance hstack hit _) ?_
    have hrun : iterate id (st.on (base ++ [.iterator id, s])) =
        .ok () ((st.on (base ++ [.iterator id, s])).on (base ++ [.iterator id, s] ++ [.nil, .nil])) := by
      unfold iterate
      rw [show (st.on (base ++ [.iterator id, s])).iterators id = ⟨s, c, []⟩ from hit]
      rfl
    refine does_step hrun (does_lastPass (.iterator id) s .nil ?_ ?_ _)
    · exact List.append_assoc _ _ _
    · exact hlive
  | cons kv left ih =>
    intro fuel st c hstack hit hlt hlive hfuel
    obtain ⟨fuel, rfl⟩ : ∃ n, fuel = n + 1 := ⟨fuel - 1, by omega⟩
    rw [List.length_cons] at hfuel
    rw [wbMetapairs_bind]
    refine does_of_run (run_advance hstack hit _) ?_
    let st₁ : LuaState τ := { st with
      stack := base ++ [.iterator id, s, .value kv.1] ++ [.value kv.2]
      iterators := Function.update st.iterators id ⟨s, .value kv.1, left⟩ }
    have hrun : iterate id (st.on (base ++ [.iterator id, s])) = .ok () st₁ := by
      unfold iterate
      rw [show (st.on (base ++ [.iterator id, s])).iterators id = ⟨s, c, kv :: left⟩ from hit]
      show EStateM.Result.ok () _ = _
      congr 2
      rw [on_stack, List.append_assoc, List.append_assoc]
      rfl
    have hgrew : Grew n (st.on (base ++ [.iterator id, s])) st₁ [] := by
      refine ⟨(Grew.refl n st).buf, Nat.le_refl _, fun i hi => ?_⟩
      exact Function.update_of_ne (Nat.ne_of_lt (Nat.lt_of_lt_of_le hi hid)) _ _
    refine does_run hrun hgrew ?_
    by_cases hnil : kv.1 = .scalar .nil
    · -- the iterator may end with more values behind
      have hlast : Serialize.wbMetapairs enc (kv :: left) = .ok wbNil := by
        obtain ⟨k, v⟩ := kv
        dsimp only at hnil
        rw [hnil]
        rfl
      rw [hlast]
      refine does_lastPass (.iterator id) s (.value kv.2) ?_ ?_ _
      · show base ++ [Slot.iterator id, s, .value kv.1] ++ [.value kv.2] = _
        rw [hnil, List.append_assoc]
        rfl
      · exact hlive
    · have hkey : Slots.get st₁.stack (-2) = some (.value kv.1) := by
        show Slots.get (base ++ [Slot.iterator id, s, .value kv.1] ++ [.value kv.2]) (-2) = _
        rw [List.append_assoc]
        exact Slots.get_append_top base [.iterator id, s, .value kv.1, .value kv.2] (n := 2) (by decide)
          (by simp)
      have hpairs : Serialize.wbMetapairs enc (kv :: left) = (enc kv.1 >>= fun bk =>
          enc kv.2 >>= fun bv => Serialize.wbMetapairs enc left >>= fun bs => .ok (bk ++ bv ++ bs)) := by
        obtain ⟨k, v⟩ := kv
        rw [Serialize.wbMetapairs]
        exact fun h => hnil h
      have hne : Slot.value kv.1 ≠ Slot.nil := fun h => hnil (Slot.value.inj h)
      refine does_step (run_slotAt hkey) ?_
      rw [if_neg hne, on_self, hpairs]
      have hlt₁ : id + 1 ≤ st₁.nextId := hlt
      have hn : n ≤ id + 1 := Nat.le_succ_of_le hid
      refine (does_bind _ (hone (id + 1) st₁ (-2) _ hkey hlive hlt₁) hn ?_).congr (bind_pair _ _ _)
      intro bk st₂ hstack₂ hgrew₂
      have hvalue : Slots.get st₂.stack (-1) = some (.value kv.2) := by
        rw [hstack₂]
        exact get_top _ _
      have hlt₂ := Nat.le_trans hlt₁ hgrew₂.ids
      refine does_bind _ (hone (id + 1) st₂ (-1) _ hvalue (hgrew₂.live hlive) hlt₂) hn ?_
      intro bv st₃ hstack₃ hgrew₃
      have hpop : pop 1 st₃ = .ok () (st₃.on (base ++ [.iterator id, s, .value kv.1])) :=
        run_pop _ [.value kv.2] (hstack₃.trans hstack₂) rfl
      refine does_step hpop ?_
      refine ih fuel (st₃.on _) (.value kv.1) rfl ?_ (Nat.le_trans hlt₂ hgrew₃.ids)
        (hgrew₃.live (hgrew₂.live hlive)) (by omega)
      -- what was packed in between has iterators of its own
      show st₃.iterators id = _
      rw [hgrew₃.frame id (Nat.lt_succ_self id), hgrew₂.frame id (Nat.lt_succ_self id)]
      exact Function.update_self _ _ _

end Iterators

/-! ## Values -/

section Values

variable [DecidableEq τ] (S : Store τ) (controls : τ → Slot τ × Slot τ) {one : Int → Lua τ Unit}
  {enc : LuaValue τ → Except PackError (List UInt8)} {t : τ} {index : Nat} {st : LuaState τ}

omit [DecidableEq τ] in
theorem run_getPairsMethod (htable : Slots.get st.stack index = some (.value (.table t))) :
    getPairsMethod S index st = match (S t).metapairs with
      | none => .ok false (st.on st.stack)
      | some _ => .ok true (st.on (st.stack ++ [.pairsMethod t])) := by
  unfold getPairsMethod
  rw [run_bind, run_tableAt htable, on_self]
  dsimp only
  cases (S t).metapairs <;> rfl

theorem run_callPairs {base : List (Slot τ)} (hstack : st.stack = base ++ [.pairsMethod t, .value (.table t)]) :
    callPairs S controls st = startPairs S controls t (st.on base) := by
  have hf : Slots.get st.stack (-2) = some (.pairsMethod t) := by
    rw [hstack]
    exact get_second base _ _
  have harg : Slots.get st.stack (-1) = some (.value (.table t)) := by
    rw [hstack]
    exact get_first base _ _
  unfold callPairs
  rw [run_bind, run_slotAt hf, on_self]
  dsimp only
  rw [run_bind, run_slotAt harg, on_self]
  dsimp only
  rw [run_bind, run_pop base [.pairsMethod t, .value (.table t)] hstack (n := 2) rfl]
  exact congrFun (if_pos rfl) (st.on base)

/-- The metamethod is on the stack when its pairs are packed, and gone afterwards. -/
theorem does_wbTableMetapairs (hone : Packs heap one enc) (hpos : 0 < index) {base : List (Slot τ)}
    (hstack : st.stack = base ++ [.pairsMethod t])
    (htable : Slots.get base index = some (.value (.table t)))
    (hlive : st.buf.Live heap) (hn : n ≤ st.nextId) :
    Does heap n (wbTableMetapairs S controls one index) st base
      (Serialize.wbTableMetapairs enc ((S t).metapairs.getD [])) () := by
  unfold wbTableMetapairs
  refine (does_bind (Serialize.wbMetapairs enc ((S t).metapairs.getD []))
    (does_writeBack hlive [combineType TYPE_TABLE 0]) (Nat.le_refl n) ?_).congr ?_
  · intro bs st₁ hstack₁ hgrew
    rw [hstack] at hstack₁
    have hat : Slots.get st₁.stack index = some (.value (.table t)) := by
      rw [hstack₁]
      exact Slots.get_append_base base _ hpos htable
    have htableAt := run_tableAt hat
    refine does_step htableAt ?_
    rw [on_self]
    refine does_step (run_pushvalue hat) ?_
    have hcall : callPairs S controls (st₁.on (st₁.stack ++ [.value (.table t)])) =
        startPairs S controls t (st₁.on base) := by
      refine run_callPairs S controls ?_
      rw [on_stack, hstack₁, List.append_assoc]
      rfl
    -- the new iterator is none of those to be kept
    have hid : n ≤ st₁.nextId := Nat.le_trans hn hgrew.ids
    have hgrew₁ : Grew n (st₁.on (st₁.stack ++ [.value (.table t)]))
        { st₁ with
          stack := base ++ [.iterator st₁.nextId, (controls t).1, (controls t).2]
          iterators := Function.update st₁.iterators st₁.nextId
            ⟨(controls t).1, (controls t).2, (S t).metapairs.getD []⟩
          nextId := st₁.nextId + 1 } [] := by
      refine ⟨(Grew.refl n st₁).buf, Nat.le_succ _, fun i hi => ?_⟩
      exact Function.update_of_ne (Nat.ne_of_lt (Nat.lt_of_lt_of_le hi hid)) _ _
    refine does_run hcall hgrew₁ ?_
    refine does_wbMetapairs hone hid _ _ _ _ rfl ?_ (Nat.lt_succ_self _) (hgrew.live hlive)
      (Nat.lt_succ_self _)
    exact Function.update_self _ _ _
  · unfold Serialize.wbTableMetapairs
    cases Serialize.wbMetapairs enc ((S t).metapairs.getD []) <;> rfl

theorem does_wbTable (hone : Packs heap one enc) (hpos : 0 < index)
    (htable : Slots.get st.stack index = some (.value (.table t)))
    (hlive : st.buf.Live heap) (hn : n ≤ st.nextId) :
    Does heap n (wbTable S controls one index) st st.stack (Serialize.wbTable enc (S t)) () := by
  have habs : absolute (index : Int) st = .ok (index : Int) (st.on st.stack) := by
    unfold absolute
    rw [if_neg (by omega)]
    rfl
  unfold wbTable
  refine does_step habs ?_
  rw [on_self]
  have hmethod := run_getPairsMethod S htable
  cases hpairs : (S t).metapairs with
  | some pairs =>
    rw [hpairs] at hmethod
    refine does_step hmethod ?_
    have h : Does heap n _ (st.on (st.stack ++ [.pairsMethod t])) st.stack _ () :=
      does_wbTableMetapairs S controls hone hpos rfl htable hlive hn
    unfold Serialize.wbTable
    rw [hpairs] at h ⊢
    exact h
  | none =>
    rw [hpairs] at hmethod
    refine does_step hmethod ?_
    rw [on_self, if_neg Bool.false_ne_true]
    generalize hsize : i32 ((S t).rawlen : Int) = size
    have harray := does_wbTableArray S hone st hlive hn htable hsize
    unfold Serialize.wbTable
    rw [hpairs]
    unfold Serialize.wbTableArray at harray ⊢
    rw [hsize] at harray ⊢
    refine (does_bind (Serialize.wbTableHash enc size (S t).pairs) harray (Nat.le_refl n) ?_).congr ?_
    · intro bs st' hstack hgrew
      have h := does_wbTableHash S hone size hpos st' (hgrew.live hlive) (Nat.le_trans hn hgrew.ids)
        (hstack ▸ htable)
      rw [hstack] at h
      exact h
    · dsimp only
      cases Serialize.wbElements enc (S t) 1 size.toNat <;> rfl

/-- **Stack discipline.**  Whatever is packed, from whatever index, and with the iterators of enclosing
tables on the stack. -/
theorem packs_packOne (left : Nat) :
    Packs heap (packOne S controls left) (packWithin S heap left) := by
  induction left with
  | zero =>
    intro n st index x _ hlive _
    exact does_raise hlive .tooDeep
  | succ left ih =>
    intro n st index x hx hlive hn
    unfold packOne
    refine does_step (run_slotAt hx) ?_
    rw [on_self]
    cases hv : x.toValue with
    | scalar s => exact does_writeBack hlive (wbScalar s)
    | other kind => exact does_raise hlive (.unsupported kind)
    | table t =>
      have hslot : x = .value (.table t) := by
        cases x with
        | value v => exact congrArg Slot.value hv
        | pairsMethod t => cases hv
        | iterator id => cases hv
      subst hslot
      obtain ⟨i, hpos, hget, habs⟩ := run_absolute hx
      refine does_step habs ?_
      rw [on_self]
      exact does_wbTable S controls ih hpos hget hlive hn

/-- The arguments from the `i`-th on. -/
theorem does_packArguments (vs : List (LuaValue τ)) :
    ∀ i (base : List (Slot τ)) (st : LuaState τ), st.stack = base ++ vs.map .value →
      base.length + 1 = i → st.buf.Live heap → n ≤ st.nextId →
      Does heap n (packArguments S controls i vs.length) st st.stack (packValues S heap vs) () := by
  induction vs with
  | nil =>
    intro i base st _ _ _ _
    exact does_pure st ()
  | cons v vs ih =>
    intro i base st hstack hi hlive hn
    have hget : Slots.get st.stack i = some (.value v) := by
      rw [hstack]
      exact Slots.get_length base _ _ hi
    have hfirst := packs_packOne S controls (MAX_DEPTH + 1) n st i (.value v) hget hlive hn
    rw [packValues]
    refine does_bind (packValues S heap vs) hfirst (Nat.le_refl n) ?_
    intro bs st' hstack' hgrew
    rw [← hstack']
    refine ih (i + 1) (base ++ [.value v]) st' ?_ ?_ (hgrew.live hlive) (Nat.le_trans hn hgrew.ids)
    · rw [hstack', hstack, List.append_assoc]
      rfl
    · rw [List.length_append, List.length_singleton, hi]

theorem run_packAll_nil (hstack : st.stack = []) (heap : Bool) :
    packAll S controls heap st = .ok none st := by
  have hlen : st.stack.length = 0 := by rw [hstack, List.length_nil]
  unfold packAll
  rw [run_bind]
  show (if st.stack.length = 0 then _ else _ : Lua τ (Option (List UInt8))) st = _
  exact congrFun (if_pos hlen) st

/-- The buffer is new, and on the heap while the arguments are packed. -/
theorem packAll_eq (vs : List (LuaValue τ)) (hvs : vs ≠ []) (hstack : st.stack = vs.map .value)
    (heap : Bool) :
    packAll S controls heap st = (packArguments S controls 1 vs.length >>= fun _ =>
      (if heap then setHeap false else pure ()) >>= fun _ => get >>= fun st =>
        pure (some st.buf.bytes)) { st with buf := { heap := heap } } := by
  have hlen : st.stack.length = vs.length := by rw [hstack, List.length_map]
  have hne : vs.length ≠ 0 := fun h => hvs (List.length_eq_zero_iff.mp h)
  unfold packAll
  rw [run_bind]
  show (if st.stack.length = 0 then _ else _ : Lua τ (Option (List UInt8))) st = _
  rw [hlen, if_neg hne]
  cases heap <;> rfl

/-- All arguments: the stack is left as it was, or the buffer was deleted if it was on the heap. -/
theorem run_packAll (vs : List (LuaValue τ)) (hvs : vs ≠ []) (hstack : st.stack = vs.map .value)
    (heap : Bool) :
    match packValues S heap vs with
    | .ok bs => ∃ st', packAll S controls heap st = .ok (some bs) st' ∧ st'.stack = st.stack ∧
        st'.buf.Live false
    | .error e => ∃ st', packAll S controls heap st = .error (.error e) st' ∧ st'.buf.Freed heap := by
  have hlive : HeapBuffer.Live heap { heap := heap } := ⟨rfl, rfl, rfl⟩
  have hdoes := does_packArguments S controls (n := 0) vs 1 [] { st with buf := { heap := heap } }
    hstack rfl hlive (Nat.zero_le _)
  rw [packAll_eq S controls vs hvs hstack, run_bind]
  unfold Does at hdoes
  cases hpack : packValues S heap vs with
  | error e =>
    rw [hpack] at hdoes
    obtain ⟨st', hrun, hfreed⟩ := hdoes
    rw [hrun]
    exact ⟨st', rfl, hfreed⟩
  | ok bs =>
    rw [hpack] at hdoes
    obtain ⟨st', hrun, hstack', hgrew⟩ := hdoes
    have htouch := (hgrew.live hlive).touch
    have hbuf : st'.buf = { heap := heap, bytes := bs } := hgrew.buf
    rw [hrun]
    cases heap with
    | false =>
      refine ⟨st', ?_, hstack', hgrew.live hlive⟩
      show EStateM.Result.ok (some st'.buf.bytes) st' = _
      rw [hbuf]
    | true =>
      refine ⟨{ st' with buf := { st'.buf.touch with heap := false } }, ?_, hstack', ?_⟩
      · show EStateM.Result.ok (some st'.buf.touch.bytes) _ = _
        rw [htouch, hbuf]
      · rw [htouch, hbuf]
        exact ⟨rfl, rfl, rfl⟩

end Values

end HappyServer.Serialize.LuaStack
