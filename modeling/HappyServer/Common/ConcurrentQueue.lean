import HappyServer.Common.Locks

/-!
# `common/concurrent_queue.hpp`, where it does not block

`worker::mq_` is one, with `spin_lock` and a `std::vector`.  Each method takes the lock; the accesses of the
container follow one after another.

* `body`: the methods, one access of the container after another.
* `Spec`: a list, with the oldest first.
-/

namespace HappyServer.Common.ConcurrentQueue

open Guarded System

variable {T : Type}

inductive Op (T : Type) where
  | pushBack (x : T)
  | tryPop
  | size
  | swap (other : List T)

/-- `taken`: what `other` has afterwards.  `undefined`: the front of an empty container was used. -/
inductive Res (T : Type) where
  | size (n : Nat)
  | popped (x : Option T)
  | taken (xs : List T)
  | undefined

inductive Point (T : Type) where
  | start (op : Op T)
  /-- `return container_.size()` after a push -/
  | pushed
  /-- `t = std::move(container_.front())` -/
  | front
  /-- `container_.pop_front()`, and then `x` is returned -/
  | popFront (x : T)

def run : Point T → List T → List T × (Point T ⊕ Res T)
  | .start (.pushBack x), container => (container ++ [x], .inl .pushed)
  | .start .tryPop, container =>
    if container.isEmpty then (container, .inr (.popped none)) else (container, .inl .front)
  | .start .size, container => (container, .inr (.size container.length))
  | .start (.swap other), container => (other, .inr (.taken container))
  | .pushed, container => (container, .inr (.size container.length))
  | .front, container =>
    match container with
    | [] => (container, .inr .undefined)
    | x :: _ => (container, .inl (.popFront x))
  | .popFront x, container =>
    match container with
    | [] => (container, .inr .undefined)
    | _ :: container => (container, .inr (.popped (some x)))

/-- The lock is taken by every method, `size` included. -/
def body : Body (Op T) (Res T) (Point T) (List T) where
  mode _ := .exclusive
  enter := .start
  run := run

/-- First in, first out. -/
inductive Spec : Op T → List T → Res T → List T → Prop
  | pushBack (x : T) (q : List T) : Spec (.pushBack x) q (.size (q.length + 1)) (q ++ [x])
  | tryPopEmpty : Spec .tryPop [] (.popped none) []
  | tryPop (x : T) (q : List T) : Spec .tryPop (x :: q) (.popped (some x)) q
  | size (q : List T) : Spec .size q (.size q.length) q
  | swap (other q : List T) : Spec (.swap other) q (.taken q) other

/-- Where a method that was begun with `q` can be. -/
inductive Reached (q : List T) : Op T → Point T → List T → Prop
  | start (op : Op T) : Reached q op (.start op) q
  | pushed (x : T) : Reached q (.pushBack x) .pushed (q ++ [x])
  | front : q ≠ [] → Reached q .tryPop .front q
  | popFront {x : T} {rest : List T} : q = x :: rest → Reached q .tryPop (.popFront x) q

theorem reached_of_points {op : Op T} {q b : List T} {l : Point T} (h : body.Points op q l b) :
    Reached q op l b := by
  induction h with
  | enter => exact .start op
  | @run l l' b b' _ hrun ih =>
    have hstep : run l b = (b', .inl l') := hrun
    cases ih with
    | start =>
      cases op with
      | pushBack x =>
        cases hstep
        exact .pushed x
      | tryPop =>
        cases q with
        | nil => simp [run] at hstep
        | cons x rest =>
          simp only [run, List.isEmpty_cons, Bool.false_eq_true, if_false] at hstep
          cases hstep
          exact .front (List.cons_ne_nil x rest)
      | size => cases hstep
      | swap other => cases hstep
    | pushed x => cases hstep
    | front hne =>
      cases q with
      | nil => exact absurd rfl hne
      | cons x rest =>
        cases hstep
        exact .popFront rfl
    | popFront heq =>
      subst heq
      cases hstep

theorem solo_spec {op : Op T} {q q' : List T} {r : Res T} (h : body.Solo op q r q') :
    Spec op q r q' := by
  obtain ⟨l, b, hpoints, hrun⟩ := h
  have hstep : run l b = (q', .inr r) := hrun
  cases reached_of_points hpoints with
  | start =>
    cases op with
    | pushBack x => cases hstep
    | tryPop =>
      cases q with
      | nil =>
        simp only [run, List.isEmpty_nil, if_true] at hstep
        cases hstep
        exact .tryPopEmpty
      | cons x rest => simp [run] at hstep
    | size =>
      cases hstep
      exact .size q
    | swap other =>
      cases hstep
      exact .swap q' q
  | pushed x =>
    simp only [run, Prod.mk.injEq, Sum.inr.injEq, List.length_append, List.length_singleton] at hstep
    obtain ⟨rfl, rfl⟩ := hstep
    exact .pushBack x q
  | front hne =>
    cases q with
    | nil => exact absurd rfl hne
    | cons x rest => cases hstep
  | popFront heq =>
    subst heq
    cases hstep
    exact .tryPop _ q'

def concurrentQueue (T ι : Type) [DecidableEq ι] :
    System (GuardedState (SpinLock.guard ι) (Op T) (Res T) (Point T) (List T)) (Action ι (Op T) (Res T)) :=
  guarded (SpinLock.guard ι) body []

/-- **Linearizable.**  With `spin_lock`, calls and returns are as if each method had taken place at once
on a list; so `push_back` returns 1 exactly when it finds the queue empty, and `swap` takes all. -/
theorem concurrentQueue_linearizable (T ι : Type) [DecidableEq ι] :
    (concurrentQueue T ι).Refines Action.visible (atomic ι (Spec (T := T)) []) AtomicAction.visible := by
  refine (guarded_refines (SpinLock.guard ι) body nofun []).trans ?_
  refine atomic_refines Eq rfl ?_
  rintro op q _ r q' rfl hsolo
  exact ⟨q', solo_spec hsolo, rfl⟩

end HappyServer.Common.ConcurrentQueue
