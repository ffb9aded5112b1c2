import HappyServer.Common.Locks
import Mathlib.Data.Set.Card

/-!
# `common/concurrent_map.hpp`, as `router` has it

A node of `std::unordered_map` is a key with its value; an iterator is the index of a node.  Each method
takes the lock and finds its key; then, if there is a node, it reads, writes or erases that node.

* `body`: the methods, one access of the map after another.
* `apply`: what the methods do to a partial function from keys to values.

    behind `rwlock` the methods are as if each took place at once, on a function   (concurrentMap_linearizable)
-/

namespace HappyServer.Common.ConcurrentMap

open Guarded

variable {K V : Type} [DecidableEq K]

inductive Op (K V : Type) where
  | set (key : K) (value : V)
  | trySet (key : K) (value : V)
  | tryGetValue (key : K)
  | erase (key : K)
  | clear
  | size
  | has (key : K)
deriving DecidableEq

/-- `undefined`: an iterator that is not one of the map was used. -/
inductive Res (V : Type) where
  | unit
  | bool (b : Bool)
  | value (v : Option V)
  | size (n : Nat)
  | undefined
deriving DecidableEq

/-- The methods that are const take a `std::shared_lock`. -/
def Op.mode : Op K V → Mode
  | .tryGetValue _ | .size | .has _ => .shared
  | _ => .exclusive

/-! ## Methods -/

abbrev Data (K V : Type) := List (K × V)

def find (data : Data K V) (key : K) : Option Nat := data.findIdx? fun node => node.1 = key

inductive Point (K V : Type) where
  | start (op : Op K V)
  /-- `res.first->second = …` -/
  | assign (iter : Nat) (value : V)
  /-- `value = iter->second` -/
  | read (iter : Nat)
  /-- `data_.erase(iter)` -/
  | erase (iter : Nat)

def run : Point K V → Data K V → Data K V × (Point K V ⊕ Res V)
  | .start (.set key value), data =>
    match find data key with
    | none => (data ++ [(key, value)], .inr .unit)
    | some iter => (data, .inl (.assign iter value))
  | .start (.trySet key value), data =>
    match find data key with
    | none => (data ++ [(key, value)], .inr (.bool true))
    | some _ => (data, .inr (.bool false))
  | .start (.tryGetValue key), data =>
    match find data key with
    | none => (data, .inr (.value none))
    | some iter => (data, .inl (.read iter))
  | .start (.erase key), data =>
    match find data key with
    | none => (data, .inr (.bool false))
    | some iter => (data, .inl (.erase iter))
  | .start .clear, _ => ([], .inr .unit)
  | .start .size, data => (data, .inr (.size data.length))
  | .start (.has key), data => (data, .inr (.bool (find data key).isSome))
  | .assign iter value, data =>
    match data[iter]? with
    | none => (data, .inr .undefined)
    | some (key, _) => (data.set iter (key, value), .inr .unit)
  | .read iter, data =>
    match data[iter]? with
    | none => (data, .inr .undefined)
    | some (_, value) => (data, .inr (.value (some value)))
  | .erase iter, data =>
    match data[iter]? with
    | none => (data, .inr .undefined)
    | some _ => (data.eraseIdx iter, .inr (.bool true))

def body : Body (Op K V) (Res V) (Point K V) (Data K V) where
  mode := Op.mode
  enter := .start
  run := run

/-! ## What they do -/

open Classical in
/-- The same methods of a partial function. -/
noncomputable def apply : Op K V → (K → Option V) → (K → Option V) × Res V
  | .set key value, m => (Function.update m key (some value), .unit)
  | .trySet key value, m =>
    if m key = none then (Function.update m key (some value), .bool true) else (m, .bool false)
  | .tryGetValue key, m => (m, .value (m key))
  | .erase key, m => (Function.update m key none, .bool (m key).isSome)
  | .clear, _ => (fun _ => none, .unit)
  | .size, m => (m, .size {key | m key ≠ none}.ncard)
  | .has key, m => (m, .bool (m key).isSome)

def Spec (op : Op K V) (m : K → Option V) (r : Res V) (m' : K → Option V) : Prop :=
  apply op m = (m', r)

/-- Each key has one node. -/
structure Repr (data : Data K V) (m : K → Option V) : Prop where
  nodup : (data.map Prod.fst).Nodup
  mem : ∀ key value, m key = some value ↔ (key, value) ∈ data

section Repr

variable {data : Data K V} {m : K → Option V} {key : K} {iter : Nat}

theorem find_some (h : find data key = some iter) : ∃ value, data[iter]? = some (key, value) := by
  obtain ⟨hlt, hkey, -⟩ := List.findIdx?_eq_some_iff_getElem.mp h
  refine ⟨data[iter].2, ?_⟩
  rw [List.getElem?_eq_getElem hlt, ← of_decide_eq_true hkey]

theorem find_none : find data key = none ↔ ∀ value, (key, value) ∉ data := by
  unfold find
  rw [List.findIdx?_eq_none_iff]
  constructor
  · intro h value hmem
    exact absurd (h _ hmem) (by simp)
  · intro h node hnode
    rw [decide_eq_false_iff_not]
    rintro rfl
    exact h node.2 hnode

theorem Repr.find (h : Repr data m) : find data key = none ↔ m key = none := by
  rw [find_none]
  constructor
  · intro hno
    cases hm : m key with
    | none => rfl
    | some value => exact absurd ((h.mem key value).mp hm) (hno value)
  · intro hm value hmem
    rw [(h.mem key value).mpr hmem] at hm
    cases hm

omit [DecidableEq K] in
theorem Repr.node (h : Repr data m) {value : V} (hnode : data[iter]? = some (key, value)) :
    m key = some value := (h.mem key value).mpr (List.mem_of_getElem? hnode)

/-- A new node. -/
theorem Repr.append (h : Repr data m) (hno : m key = none) (value : V) :
    Repr (data ++ [(key, value)]) (Function.update m key (some value)) where
  nodup := by
    rw [List.map_append, List.nodup_append]
    refine ⟨h.nodup, by simp, ?_⟩
    intro k hk k' hk'
    obtain ⟨node, hnode, rfl⟩ := List.mem_map.mp hk
    obtain rfl : k' = key := by simpa using hk'
    rintro rfl
    exact find_none.mp (h.find.mpr hno) node.2 hnode
  mem k v := by
    rw [List.mem_append, List.mem_singleton, Prod.mk.injEq, ← h.mem]
    by_cases hk : k = key
    · subst hk
      simp [hno, eq_comm]
    · simp [hk]

omit [DecidableEq K] in
/-- Of the nodes, one has the key. -/
theorem Repr.getElem? (h : Repr data m) {value : V} (hnode : data[iter]? = some (key, value)) {i : Nat}
    {v : V} (hi : data[i]? = some (key, v)) : i = iter := by
  have hlt := (List.getElem?_eq_some_iff.mp hi).1
  have hlt' := (List.getElem?_eq_some_iff.mp hnode).1
  have hkeys : (data.map Prod.fst)[i]? = (data.map Prod.fst)[iter]? := by
    rw [List.getElem?_map, List.getElem?_map, hi, hnode]
    rfl
  exact (List.getElem?_inj (by rwa [List.length_map]) h.nodup).mp hkeys

theorem Repr.assign (h : Repr data m) {old : V} (hnode : data[iter]? = some (key, old)) (value : V) :
    Repr (data.set iter (key, value)) (Function.update m key (some value)) where
  nodup := by
    have hsame : (data.set iter (key, value)).map Prod.fst = data.map Prod.fst := by
      rw [List.map_set]
      apply List.ext_getElem?
      intro i
      rw [List.getElem?_set]
      split
      next heq =>
        subst heq
        have hlt := (List.getElem?_eq_some_iff.mp hnode).1
        rw [List.getElem?_map, hnode, List.length_map, if_pos hlt]
        rfl
      next => rfl
    rw [hsame]
    exact h.nodup
  mem k v := by
    have hlt := (List.getElem?_eq_some_iff.mp hnode).1
    rw [List.mem_iff_getElem?]
    constructor
    · intro hm
      by_cases hk : k = key
      · subst hk
        rw [Function.update_self] at hm
        cases hm
        exact ⟨iter, List.getElem?_set_self hlt⟩
      · rw [Function.update_of_ne hk] at hm
        obtain ⟨i, hi⟩ := List.mem_iff_getElem?.mp ((h.mem k v).mp hm)
        have hne : iter ≠ i := by
          rintro rfl
          rw [hnode] at hi
          cases hi
          exact hk rfl
        exact ⟨i, (List.getElem?_set_ne hne).trans hi⟩
    · rintro ⟨i, hi⟩
      rw [List.getElem?_set] at hi
      split at hi
      next heq =>
        cases hi
        exact Function.update_self ..
      next hne =>
        have hk : k ≠ key := by
          rintro rfl
          exact hne (h.getElem? hnode hi).symm
        rw [Function.update_of_ne hk]
        exact h.node hi

theorem Repr.erase (h : Repr data m) {old : V} (hnode : data[iter]? = some (key, old)) :
    Repr (data.eraseIdx iter) (Function.update m key none) where
  nodup := by
    exact h.nodup.sublist ((List.eraseIdx_sublist data iter).map Prod.fst)
  mem k v := by
    rw [List.mem_eraseIdx_iff_getElem?]
    constructor
    · intro hm
      have hk : k ≠ key := by
        rintro rfl
        rw [Function.update_self] at hm
        cases hm
      rw [Function.update_of_ne hk] at hm
      obtain ⟨i, hi⟩ := List.mem_iff_getElem?.mp ((h.mem k v).mp hm)
      refine ⟨i, ?_, hi⟩
      rintro rfl
      rw [hnode] at hi
      cases hi
      exact hk rfl
    · rintro ⟨i, hne, hi⟩
      have hk : k ≠ key := by
        rintro rfl
        exact hne (h.getElem? hnode hi)
      rw [Function.update_of_ne hk]
      exact h.node hi

theorem Repr.size (h : Repr data m) : {key | m key ≠ none}.ncard = data.length := by
  have hset : {key | m key ≠ none} = ((data.map Prod.fst).toFinset : Set K) := by
    ext key
    rw [Set.mem_ofPred_eq, Finset.mem_coe, List.mem_toFinset, List.mem_map, Option.ne_none_iff_exists']
    constructor
    · rintro ⟨value, hvalue⟩
      exact ⟨(key, value), (h.mem key value).mp hvalue, rfl⟩
    · rintro ⟨node, hnode, rfl⟩
      exact ⟨node.2, (h.mem node.1 node.2).mpr hnode⟩
  rw [hset, Set.ncard_coe_finset, List.toFinset_card_of_nodup h.nodup, List.length_map]

end Repr

/-! ## One method alone -/

/-- Where a method goes on that has found a node. -/
inductive Second (data : Data K V) : Op K V → Point K V → Prop
  | set {key value iter} : find data key = some iter → Second data (.set key value) (.assign iter value)
  | tryGetValue {key iter} : find data key = some iter → Second data (.tryGetValue key) (.read iter)
  | erase {key iter} : find data key = some iter → Second data (.erase key) (.erase iter)

theorem run_first {op : Op K V} {data data' : Data K V} {l : Point K V}
    (h : run (.start op) data = (data', .inl l)) : data' = data ∧ Second data op l := by
  cases op with
  | set key value =>
    cases hfind : find data key with
    | none => simp [run, hfind] at h
    | some iter =>
      simp only [run, hfind, Prod.mk.injEq, Sum.inl.injEq] at h
      obtain ⟨rfl, rfl⟩ := h
      exact ⟨rfl, .set hfind⟩
  | trySet key value => cases hfind : find data key <;> simp [run, hfind] at h
  | tryGetValue key =>
    cases hfind : find data key with
    | none => simp [run, hfind] at h
    | some iter =>
      simp only [run, hfind, Prod.mk.injEq, Sum.inl.injEq] at h
      obtain ⟨rfl, rfl⟩ := h
      exact ⟨rfl, .tryGetValue hfind⟩
  | erase key =>
    cases hfind : find data key with
    | none => simp [run, hfind] at h
    | some iter =>
      simp only [run, hfind, Prod.mk.injEq, Sum.inl.injEq] at h
      obtain ⟨rfl, rfl⟩ := h
      exact ⟨rfl, .erase hfind⟩
  | clear => simp [run] at h
  | size => simp [run] at h
  | has key => simp [run] at h

/-- The iterator is one of the map. -/
theorem run_second {op : Op K V} {data : Data K V} {l : Point K V} (h : Second data op l) :
    ∃ key iter old, data[iter]? = some (key, old) ∧
      ((∃ value, op = .set key value ∧ run l data = (data.set iter (key, value), .inr .unit)) ∨
        (op = .tryGetValue key ∧ run l data = (data, .inr (.value (some old)))) ∨
        (op = .erase key ∧ run l data = (data.eraseIdx iter, .inr (.bool true)))) := by
  cases h with
  | @set key value iter hfind =>
    obtain ⟨old, hnode⟩ := find_some hfind
    refine ⟨key, iter, old, hnode, Or.inl ⟨value, rfl, ?_⟩⟩
    simp [run, hnode]
  | @tryGetValue key iter hfind =>
    obtain ⟨old, hnode⟩ := find_some hfind
    refine ⟨key, iter, old, hnode, Or.inr (Or.inl ⟨rfl, ?_⟩)⟩
    simp [run, hnode]
  | @erase key iter hfind =>
    obtain ⟨old, hnode⟩ := find_some hfind
    refine ⟨key, iter, old, hnode, Or.inr (Or.inr ⟨rfl, ?_⟩)⟩
    simp [run, hnode]

/-- Before its last access a method has only looked. -/
theorem points_cases {op : Op K V} {data b : Data K V} {l : Point K V} (h : body.Points op data l b) :
    b = data ∧ (l = .start op ∨ Second data op l) := by
  induction h with
  | enter => exact ⟨rfl, Or.inl rfl⟩
  | @run l l' b b' _ hrun ih =>
    obtain ⟨rfl, rfl | hsecond⟩ := ih
    · obtain ⟨rfl, hsecond⟩ := run_first hrun
      exact ⟨rfl, Or.inr hsecond⟩
    · have hstep : run l b = (b', .inl l') := hrun
      obtain ⟨_, _, _, -, ⟨_, -, h⟩ | ⟨-, h⟩ | ⟨-, h⟩⟩ := run_second hsecond
      all_goals
        rw [h] at hstep
        cases hstep

theorem body_reads : (body : Body (Op K V) (Res V) (Point K V) (Data K V)).Reads := by
  intro op data l b hmode hpoints
  obtain ⟨rfl, rfl | hsecond⟩ := points_cases hpoints
  · show (run (.start op) b).1 = b
    cases op with
    | tryGetValue key => cases hfind : find b key <;> simp [run, hfind]
    | size => rfl
    | has key => rfl
    | _ => cases hmode
  · show (run l b).1 = b
    obtain ⟨_, _, _, -, ⟨_, rfl, -⟩ | ⟨-, h⟩ | ⟨rfl, -⟩⟩ := run_second hsecond
    · cases hmode
    · rw [h]
    · cases hmode

/-- A method alone does to the nodes what it does to the function they represent. -/
theorem solo_spec {op : Op K V} {data data' : Data K V} {m : K → Option V} {r : Res V}
    (h : Repr data m) (hsolo : body.Solo op data r data') : ∃ m', Spec op m r m' ∧ Repr data' m' := by
  obtain ⟨l, b, hpoints, hrun⟩ := hsolo
  obtain ⟨rfl, rfl | hsecond⟩ := points_cases hpoints
  · have hstep : run (.start op) b = (data', .inr r) := hrun
    unfold Spec
    cases op with
    | set key value =>
      cases hfind : find b key with
      | none =>
        simp only [run, hfind, Prod.mk.injEq, Sum.inr.injEq] at hstep
        obtain ⟨rfl, rfl⟩ := hstep
        exact ⟨_, rfl, h.append (h.find.mp hfind) value⟩
      | some iter => simp [run, hfind] at hstep
    | trySet key value =>
      cases hfind : find b key with
      | none =>
        simp only [run, hfind, Prod.mk.injEq, Sum.inr.injEq] at hstep
        obtain ⟨rfl, rfl⟩ := hstep
        have hno := h.find.mp hfind
        exact ⟨_, if_pos hno, h.append hno value⟩
      | some iter =>
        simp only [run, hfind, Prod.mk.injEq, Sum.inr.injEq] at hstep
        obtain ⟨rfl, rfl⟩ := hstep
        have hsome : m key ≠ none := fun hno => by
          rw [h.find.mpr hno] at hfind
          cases hfind
        exact ⟨m, if_neg hsome, h⟩
    | tryGetValue key =>
      cases hfind : find b key with
      | none =>
        simp only [run, hfind, Prod.mk.injEq, Sum.inr.injEq] at hstep
        obtain ⟨rfl, rfl⟩ := hstep
        refine ⟨m, ?_, h⟩
        rw [apply, h.find.mp hfind]
      | some iter => simp [run, hfind] at hstep
    | erase key =>
      cases hfind : find b key with
      | none =>
        simp only [run, hfind, Prod.mk.injEq, Sum.inr.injEq] at hstep
        obtain ⟨rfl, rfl⟩ := hstep
        have hno := h.find.mp hfind
        refine ⟨m, ?_, h⟩
        rw [apply, hno, ← hno, Function.update_eq_self, hno]
        rfl
      | some iter => simp [run, hfind] at hstep
    | clear =>
      simp only [run, Prod.mk.injEq, Sum.inr.injEq] at hstep
      obtain ⟨rfl, rfl⟩ := hstep
      exact ⟨_, rfl, by simp, by simp⟩
    | size =>
      simp only [run, Prod.mk.injEq, Sum.inr.injEq] at hstep
      obtain ⟨rfl, rfl⟩ := hstep
      exact ⟨m, by rw [apply, h.size], h⟩
    | has key =>
      simp only [run, Prod.mk.injEq, Sum.inr.injEq] at hstep
      obtain ⟨rfl, rfl⟩ := hstep
      refine ⟨m, ?_, h⟩
      have hiff : find b key = none ↔ m key = none := h.find
      rw [apply]
      cases hfind : find b key with
      | none => rw [hiff.mp hfind]; rfl
      | some iter =>
        cases hm : m key with
        | none =>
          rw [hiff.mpr hm] at hfind
          cases hfind
        | some value => rfl
  · have hstep : run l b = (data', .inr r) := hrun
    obtain ⟨key, iter, old, hnode, ⟨value, rfl, h'⟩ | ⟨rfl, h'⟩ | ⟨rfl, h'⟩⟩ := run_second hsecond
    all_goals
      rw [h', Prod.mk.injEq, Sum.inr.injEq] at hstep
      obtain ⟨rfl, rfl⟩ := hstep
    · exact ⟨_, rfl, h.assign hnode value⟩
    · refine ⟨m, ?_, h⟩
      rw [Spec, apply, h.node hnode]
    · refine ⟨_, ?_, h.erase hnode⟩
      rw [Spec, apply, h.node hnode]
      rfl

/-! ## Any number of threads -/

/-- The map with `rwlock`, as `router::env_` and `router::unique_services_` are. -/
def concurrentMap (K V : Type) [DecidableEq K] {ι : Type} [DecidableEq ι] [Fintype ι]
    (hcard : Fintype.card ι ≤ 2 ^ 32) :
    System (GuardedState (RwLock.guard hcard) (Op K V) (Res V) (Point K V) (Data K V))
      (Action ι (Op K V) (Res V)) :=
  guarded (RwLock.guard hcard) body []

/-- Nodes that are looked up and then used do what the methods do to the function they stand for. -/
theorem solo_refines (K V ι : Type) [DecidableEq K] [DecidableEq ι] :
    (atomic ι (body (K := K) (V := V)).Solo []).Refines AtomicAction.visible
      (atomic ι (Spec (K := K) (V := V)) fun _ => none) AtomicAction.visible := by
  refine atomic_refines Repr ⟨by simp, by simp⟩ ?_
  intro op data m r data' h hsolo
  exact solo_spec h hsolo

/-- **Linearizable.**  However the accesses of the threads interleave, calls and returns are as if each
method had taken place at once, somewhere in between, on a function from keys to values. -/
theorem concurrentMap_linearizable (K V ι : Type) [DecidableEq K] [DecidableEq ι] [Fintype ι]
    (hcard : Fintype.card ι ≤ 2 ^ 32) :
    (concurrentMap K V hcard).Refines Action.visible
      (atomic ι (Spec (K := K) (V := V)) fun _ => none) AtomicAction.visible :=
  (guarded_refines (RwLock.guard hcard) body body_reads []).trans (solo_refines K V ι)

theorem card_two : Fintype.card (Fin 2) ≤ 2 ^ 32 := by decide

theorem concurrentMap_linearizable_two :
    (concurrentMap Nat Nat card_two).Refines Action.visible
      (atomic (Fin 2) (Spec (K := Nat) (V := Nat)) fun _ => none) AtomicAction.visible :=
  concurrentMap_linearizable Nat Nat (Fin 2) card_two

end HappyServer.Common.ConcurrentMap
