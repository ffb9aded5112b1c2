import HappyServer.Common.LogLine
import HappyServer.Lib.Runs
import Mathlib.Data.List.Forall2
import Mathlib.Logic.Function.Basic

/-!
# The logger (`common/logger.hpp`, `common/concurrent_queue.hpp`)

Any number of threads `ι` call `logstring`, which ends in `log_queue_.push_back`; the writer's
thread runs `write`; one thread calls `init` and, later, `wait` once.  One step is what one thread
does under a lock or in one atomic access (`Action`).

* `Pc` is where the writer is.  In `swap` it waits on a condition variable, `blocked`, until it is
  notified or wakes by itself.
* A buffer is `retired` when the queue's side has dropped it; the logging thread may drop it
  later, and whoever is last calls `pointer_pool::release`.
* `pushed`, `before`, `opened` and `output` are not in the source: the lines in push order, those
  pushed when `wait` was called, whether `init` opened a file, and what was written.
* The streams accept every write; `new char[n]` gives memory of any content.
-/

namespace HappyServer.Common.Logger

/-- `enum class state` -/
inductive LogState where
  | unknown
  | init
  | ready
  | stopping
  | exited
deriving DecidableEq

/-- Where the writer's thread is. -/
inductive Pc where
  /-- `while (state_.load() == state::init)` -/
  | poll
  /-- at `state_.load() == state::ready` -/
  | testState
  /-- that was false; at `log_queue_.size() != 0` -/
  | testSize
  /-- at `swaps.clear()` -/
  | clear
  /-- in `swap`, at the lock or woken by a notification, the predicate is next -/
  | swap
  /-- in `swap`, waiting -/
  | blocked
  /-- in the loop over `swaps` -/
  | write (rest : List Buffer)
  | done

/-- Where the thread that calls `wait` is. -/
inductive Waiter where
  | outside
  /-- `state_.store(state::exited)` is next -/
  | entered
  /-- `log_queue_.exit()` is next -/
  | stored
  /-- at `thread_.join()` -/
  | joining
  | returned
deriving DecidableEq

/-- The pool keeps no more than this. -/
def PoolSize : Nat := 1000

structure State (ι : Type) where
  state_ : LogState := .init
  level_ : LogLevel := .Debug
  ofs_ : Bool := false
  objects_ : List Buffer := []
  container_ : List Buffer := []
  exit_ : Bool := false
  /-- the buffers of the threads that have yet to push them, and for which line -/
  logging : ι → Option (Line × Buffer) := fun _ => none
  writer : Pc := .poll
  /-- the part of `swaps` that the loop has passed -/
  swaps : List Buffer := []
  retired : List Buffer := []
  /-- in `release`, at the lock -/
  returning : List Buffer := []
  waiter : Waiter := .outside
  pushed : List Line := []
  before : List Line := []
  opened : Bool := false
  output : List Output := []

inductive Action (ι : Type) where
  | init (logfile : Bool)
  | setLevel (level : LogLevel)
  /-- `logstring` up to `push_back` -/
  | logstring (i : ι) (l : Line) (fresh : Nat → UInt8)
  | pushBack (i : ι)
  /-- the writer's next access -/
  | write
  /-- the writer wakes without a notification -/
  | spurious
  /-- the next access of the thread that calls `wait` -/
  | wait
  /-- `release` for the `k`-th buffer without an owner: the test of the size -/
  | release (k : Nat)
  /-- its `objects_.push_back` -/
  | giveBack (k : Nat)

variable {ι : Type} [DecidableEq ι]

/-- `notify_one`, `notify_all`: the writer is the only thread that waits. -/
def Pc.notify : Pc → Pc
  | .blocked => .swap
  | pc => pc

/-- The writer's loop. -/
def write (s : State ι) : Option (State ι) :=
  match s.writer with
  | .poll => some { s with writer := if s.state_ = .init then .poll else .testState }
  | .testState => some { s with writer := if s.state_ = .ready then .clear else .testSize }
  | .testSize => some { s with writer := if s.container_.length ≠ 0 then .clear else .done }
  | .clear => some { s with swaps := [], retired := s.retired ++ s.swaps, writer := .swap }
  | .swap =>
    if s.container_.length > 0 ∨ s.exit_ then
      some { s with container_ := s.swaps, swaps := [], writer := .write s.container_ }
    else some { s with writer := .blocked }
  | .blocked => none
  | .write [] => some { s with writer := .testState }
  | .write (it :: rest) => do
    let (written, it) ← writeLine s.ofs_ it
    some { s with
      output := s.output ++ written
      swaps := s.swaps ++ [it]
      writer := .write rest }
  | .done => none

def wait (s : State ι) : Option (State ι) :=
  match s.waiter with
  | .outside => some { s with
      waiter := if s.state_ = .exited then .returned else .entered
      before := s.pushed }
  | .entered => some { s with state_ := .exited, waiter := .stored }
  | .stored => some { s with exit_ := true, writer := s.writer.notify, waiter := .joining }
  | .joining =>
    match s.writer with
    | .done => some { s with ofs_ := false, waiter := .returned }
    | _ => none
  | .returned => none

def step (s : State ι) : Action ι → Option (State ι)
  | .init logfile =>
    -- `server::init` calls it once
    if s.state_ = .init ∧ s.waiter = .outside then
      some { s with state_ := .ready, ofs_ := logfile, opened := logfile }
    else none
  | .setLevel level => some { s with level_ := level }
  | .logstring i l fresh =>
    if (s.logging i).isSome then none
    else if s.level_.value < l.level.value then some s
    else do
      let (buf, objects) ← create fresh s.objects_ l.text.length
      let buf ← logstring fresh buf l
      some { s with
        objects_ := objects
        logging := Function.update s.logging i (some (l, buf)) }
  | .pushBack i =>
    (s.logging i).map fun (l, buf) => { s with
      container_ := s.container_ ++ [buf]
      writer := s.writer.notify
      logging := Function.update s.logging i none
      pushed := s.pushed ++ [l] }
  | .write => write s
  | .spurious =>
    match s.writer with
    | .blocked => some { s with writer := .swap }
    | _ => none
  | .wait => wait s
  | .release k =>
    s.retired[k]?.map fun buf => { s with
      retired := s.retired.eraseIdx k
      returning := if s.objects_.length ≥ PoolSize then s.returning else buf :: s.returning }
  | .giveBack k =>
    s.returning[k]?.map fun buf => { s with
      returning := s.returning.eraseIdx k
      objects_ := s.objects_ ++ [buf] }

/-- The logger as constructed, and every interleaving. -/
def logger (ι : Type) [DecidableEq ι] : System (State ι) (Action ι) where
  start s := s = {}
  step s a s' := step s a = some s'

/-! ## The invariant -/

def Carries (b : Buffer) (l : Line) : Prop := Front b l.record

/-- What the loop over `swaps` has still to write. -/
def Pc.rest : Pc → List Buffer
  | .write rest => rest
  | _ => []

/-- After the store of `exited`. -/
def Waiter.closing : Waiter → Bool
  | .stored | .joining | .returned => true
  | _ => false

/-- After `log_queue_.exit()`. -/
def Waiter.exits : Waiter → Bool
  | .joining | .returned => true
  | _ => false

/-- The lines that were pushed are those written, those the writer has in hand, and those queued. -/
structure Lines (s : State ι) (out rest queued : List Line) : Prop where
  order : s.pushed = out ++ rest ++ queued
  output : s.output = out.flatMap (Line.outputs s.opened)
  rest : List.Forall₂ Carries s.writer.rest rest
  queued : List.Forall₂ Carries s.container_ queued
  unwritten : s.state_ = .init → out = []
  finished : s.writer = .done → s.before <+: out

structure Inv (s : State ι) : Prop where
  states : s.state_ = .init ∨ s.state_ = .ready ∨ s.state_ = .exited
  exited : s.state_ = .exited ↔ s.waiter.closing = true
  exits : s.exit_ = s.waiter.exits
  polls : s.state_ = .init → s.writer = .poll
  leaves : s.writer = .testSize ∨ s.writer = .done → s.state_ = .exited
  blocked : s.writer = .blocked → s.container_ = [] ∧ s.exit_ = false
  cleared : s.writer = .swap ∨ s.writer = .blocked → s.swaps = []
  returned : s.waiter = .returned → s.writer = .done
  stream : s.waiter ≠ .returned → s.ofs_ = s.opened
  before : s.before <+: s.pushed
  lines : ∃ out rest queued, Lines s out rest queued
  pooled : ∀ b, b ∈ s.objects_ ∨ b ∈ s.retired ∨ b ∈ s.returning ∨ b ∈ s.swaps → Pooled b
  logging : ∀ i l b, s.logging i = some (l, b) → Carries b l

variable {s s' : State ι}

omit [DecidableEq ι] in
theorem inv_start : Inv ({} : State ι) where
  states := Or.inl rfl
  exited := by simp [Waiter.closing]
  exits := rfl
  polls _ := rfl
  leaves := by simp
  blocked := nofun
  cleared _ := rfl
  returned := nofun
  stream _ := rfl
  before := List.prefix_rfl
  lines := ⟨[], [], [], rfl, rfl, .nil, .nil, fun _ => rfl, nofun⟩
  pooled := by simp
  logging := nofun

/-! ## The logging threads -/

theorem Inv.logstring (h : Inv s) {i : ι} (hidle : s.logging i = none) (l : Line)
    (fresh : Nat → UInt8) :
    ∃ s', step s (.logstring i l fresh) = some s' ∧ Inv s' := by
  rw [step, hidle]
  simp only [Option.isSome_none, Bool.false_eq_true, if_false]
  obtain ⟨out, rest, queued, hl⟩ := h.lines
  split
  · exact ⟨s, rfl, h⟩
  · have hsize : l.text.length < 2 ^ 63 := by
      have := l.fits
      omega
    obtain ⟨b, objects, hcreate, hb, hobjects⟩ := create_front fresh
      (fun b hb => h.pooled b (Or.inl hb)) hsize
    obtain ⟨b', hlog, hb'⟩ := hb.logstring fresh l
    refine ⟨_, by simp only [hcreate, hlog, Option.bind_eq_bind, Option.bind_some]; rfl, ?_⟩
    refine { h with lines := ⟨out, rest, queued, { hl with }⟩, pooled := ?_, logging := ?_ }
    · intro b hb
      exact h.pooled b (hb.imp_left (@hobjects b))
    · intro j k c hj
      dsimp only at hj
      by_cases hji : j = i
      · subst hji
        rw [Function.update_self] at hj
        obtain ⟨rfl, rfl⟩ := Prod.mk.inj (Option.some.inj hj)
        exact hb'
      · rw [Function.update_of_ne hji] at hj
        exact h.logging j k c hj

@[simp] theorem Pc.rest_notify (pc : Pc) : pc.notify.rest = pc.rest := by cases pc <;> rfl

theorem Pc.notify_ne_blocked (pc : Pc) : pc.notify ≠ .blocked := by cases pc <;> nofun

theorem Pc.notify_eq {pc p : Pc} (h : pc.notify = p) : pc = p ∨ (pc = .blocked ∧ p = .swap) := by
  cases pc <;> simp_all [Pc.notify]

theorem Inv.pushBack (h : Inv s) {i : ι} (hstep : step s (.pushBack i) = some s') : Inv s' := by
  rw [step, Option.map_eq_some_iff] at hstep
  obtain ⟨⟨l, buf⟩, hi, rfl⟩ := hstep
  have hbuf := h.logging i l buf hi
  obtain ⟨out, rest, queued, hl⟩ := h.lines
  refine { h with
    polls := fun hs => ?_, leaves := fun hw => h.leaves ?_, blocked := ?_, cleared := fun hw => ?_,
    returned := fun hw => ?_, before := ?_, lines := ⟨out, rest, queued ++ [l], ?_⟩, logging := ?_ }
  · show s.writer.notify = _
    rw [h.polls hs]
    rfl
  · rcases hw with hw | hw
    · exact Or.inl ((Pc.notify_eq hw).resolve_right nofun)
    · exact Or.inr ((Pc.notify_eq hw).resolve_right nofun)
  · exact fun hw => absurd hw (Pc.notify_ne_blocked _)
  · rcases hw with hw | hw
    · rcases Pc.notify_eq hw with hw | ⟨hw, -⟩
      · exact h.cleared (Or.inl hw)
      · exact h.cleared (Or.inr hw)
    · exact absurd hw (Pc.notify_ne_blocked _)
  · show s.writer.notify = _
    rw [h.returned hw]
    rfl
  · exact h.before.trans (List.prefix_append _ _)
  · refine { hl with order := ?_, rest := ?_, queued := ?_, finished := fun hw => hl.finished ?_ }
    · show s.pushed ++ [l] = _
      rw [hl.order, List.append_assoc]
    · show List.Forall₂ Carries s.writer.notify.rest rest
      rw [Pc.rest_notify]
      exact hl.rest
    · exact List.rel_append hl.queued (.cons hbuf .nil)
    · exact (Pc.notify_eq hw).resolve_right nofun
  · intro j k c hj
    dsimp only at hj
    by_cases hji : j = i
    · subst hji
      rw [Function.update_self] at hj
      cases hj
    · rw [Function.update_of_ne hji] at hj
      exact h.logging j k c hj

/-! ## The pool -/

theorem Inv.release (h : Inv s) {k : Nat} (hstep : step s (.release k) = some s') : Inv s' := by
  rw [step, Option.map_eq_some_iff] at hstep
  obtain ⟨buf, hbuf, rfl⟩ := hstep
  have hmem : buf ∈ s.retired := List.mem_of_getElem? hbuf
  obtain ⟨out, rest, queued, hl⟩ := h.lines
  refine { h with
    lines := ⟨out, rest, queued, { hl with }⟩, pooled := fun b hb => h.pooled b ?_ }
  rcases hb with hb | hb | hb | hb
  · exact Or.inl hb
  · exact Or.inr (Or.inl (List.mem_of_mem_eraseIdx hb))
  · dsimp only at hb
    split at hb
    · exact Or.inr (Or.inr (Or.inl hb))
    · rcases List.mem_cons.mp hb with rfl | hb
      · exact Or.inr (Or.inl hmem)
      · exact Or.inr (Or.inr (Or.inl hb))
  · exact Or.inr (Or.inr (Or.inr hb))

theorem Inv.giveBack (h : Inv s) {k : Nat} (hstep : step s (.giveBack k) = some s') : Inv s' := by
  rw [step, Option.map_eq_some_iff] at hstep
  obtain ⟨buf, hbuf, rfl⟩ := hstep
  have hmem : buf ∈ s.returning := List.mem_of_getElem? hbuf
  obtain ⟨out, rest, queued, hl⟩ := h.lines
  refine { h with
    lines := ⟨out, rest, queued, { hl with }⟩, pooled := fun b hb => h.pooled b ?_ }
  rcases hb with hb | hb | hb | hb
  · rcases List.mem_append.mp hb with hb | hb
    · exact Or.inl hb
    · rw [List.mem_singleton.mp hb]
      exact Or.inr (Or.inr (Or.inl hmem))
  · exact Or.inr (Or.inl hb)
  · exact Or.inr (Or.inr (Or.inl (List.mem_of_mem_eraseIdx hb)))
  · exact Or.inr (Or.inr (Or.inr hb))

/-! ## `init` and `wait` -/

theorem Inv.init (h : Inv s) {logfile : Bool} (hstep : step s (.init logfile) = some s') :
    Inv s' := by
  rw [step, Option.ite_none_right_eq_some, Option.some.injEq] at hstep
  obtain ⟨⟨hinit, hwaiter⟩, rfl⟩ := hstep
  obtain ⟨out, rest, queued, hl⟩ := h.lines
  have hpoll := h.polls hinit
  have hout := hl.unwritten hinit
  subst hout
  refine { h with
    states := Or.inr (Or.inl rfl), exited := ?_, polls := nofun, leaves := ?_,
    stream := fun _ => rfl, lines := ⟨[], rest, queued, ?_⟩ }
  · simp [hwaiter, Waiter.closing]
  · simp [hpoll]
  · exact { hl with output := hl.output, unwritten := fun _ => rfl }

omit [DecidableEq ι] in
theorem Inv.wait (h : Inv s) (hstep : wait s = some s') : Inv s' := by
  unfold Logger.wait at hstep
  obtain ⟨out, rest, queued, hl⟩ := h.lines
  have hexited := h.exited
  have hexits := h.exits
  cases hw : s.waiter with
  | outside =>
    rw [hw] at hexited hexits hstep
    have hnot : s.state_ ≠ .exited := fun he => nomatch hexited.mp he
    simp only [if_neg hnot, Option.some.injEq] at hstep
    subst hstep
    refine { h with
      exited := ?_, exits := hexits, returned := nofun, stream := ?_, before := List.prefix_rfl,
      lines := ⟨out, rest, queued, { hl with finished := ?_ }⟩ }
    · exact ⟨fun he => absurd he hnot, nofun⟩
    · exact fun _ => h.stream (by rw [hw]; nofun)
    · exact fun hdone => absurd (h.leaves (Or.inr hdone)) hnot
  | entered =>
    rw [hw] at hexited hexits hstep
    obtain rfl := Option.some.inj hstep
    refine { h with
      states := Or.inr (Or.inr rfl), exited := by simp [Waiter.closing], exits := hexits,
      polls := nofun, leaves := fun _ => rfl, returned := nofun, stream := ?_,
      lines := ⟨out, rest, queued, { hl with unwritten := nofun }⟩ }
    exact fun _ => h.stream (by rw [hw]; nofun)
  | stored =>
    rw [hw] at hexited hexits hstep
    have he : s.state_ = .exited := hexited.mpr rfl
    obtain rfl := Option.some.inj hstep
    refine { h with
      exited := ⟨fun _ => rfl, fun _ => he⟩, exits := rfl, polls := ?_, leaves := fun _ => he,
      blocked := fun hb => absurd hb (Pc.notify_ne_blocked _), cleared := fun hc => h.cleared ?_,
      returned := nofun, stream := ?_, lines := ⟨out, rest, queued, ?_⟩ }
    · exact fun hi => absurd (hi.symm.trans he) (by decide)
    · rcases hc with hc | hc
      · exact (Pc.notify_eq hc).imp_right And.left
      · exact absurd hc (Pc.notify_ne_blocked _)
    · exact fun _ => h.stream (by rw [hw]; nofun)
    · refine { hl with rest := ?_, finished := fun hd => hl.finished ?_ }
      · show List.Forall₂ Carries s.writer.notify.rest rest
        rw [Pc.rest_notify]
        exact hl.rest
      · exact (Pc.notify_eq hd).resolve_right nofun
  | joining =>
    rw [hw] at hexited hexits hstep
    have he : s.state_ = .exited := hexited.mpr rfl
    dsimp only at hstep
    split at hstep
    next hdone =>
      obtain rfl := Option.some.inj hstep
      exact { h with
        exited := ⟨fun _ => rfl, fun _ => he⟩, exits := hexits, returned := fun _ => hdone
        stream := fun hne => absurd rfl hne, lines := ⟨out, rest, queued, { hl with }⟩ }
    · cases hstep
  | returned =>
    rw [hw] at hstep
    cases hstep

/-! ## The writer -/

omit [DecidableEq ι] in
/-- A move of the writer to a place where it has no buffers in hand. -/
theorem Inv.goto (h : Inv s) {pc : Pc} (hpc : s.state_ = .init → pc = .poll)
    (hrest : s.writer.rest = [] ∧ pc.rest = [])
    (hleaves : pc = .testSize ∨ pc = .done → s.state_ = .exited)
    (hblocked : pc = .blocked → s.container_ = [] ∧ s.exit_ = false)
    (hcleared : pc = .swap ∨ pc = .blocked → s.swaps = [])
    (hreturned : s.writer ≠ .done) (hdone : pc = .done → s.container_ = []) :
    Inv { s with writer := pc } := by
  obtain ⟨out, rest, queued, hl⟩ := h.lines
  have hnil : rest = [] := by
    have := hl.rest
    rw [hrest.1] at this
    exact List.forall₂_nil_left_iff.mp this
  subst hnil
  refine { h with
    polls := hpc, leaves := hleaves, blocked := hblocked, cleared := hcleared,
    returned := fun hr => absurd (h.returned hr) hreturned, lines := ⟨out, [], queued, ?_⟩ }
  refine { hl with rest := ?_, finished := fun hd => ?_ }
  · show List.Forall₂ Carries pc.rest []
    rw [hrest.2]
    exact .nil
  · -- nothing is in hand and nothing queued
    have hqueued := hl.queued
    rw [hdone hd] at hqueued
    have horder := hl.order
    rw [List.forall₂_nil_left_iff.mp hqueued, List.append_nil, List.append_nil] at horder
    show s.before <+: out
    rw [← horder]
    exact h.before

omit [DecidableEq ι] in
theorem Inv.write (h : Inv s) (hstep : write s = some s') : Inv s' := by
  unfold Logger.write at hstep
  obtain ⟨out, rest, queued, hl⟩ := h.lines
  have hready : s.writer ≠ .poll → s.state_ ≠ .init := fun hw hs => hw (h.polls hs)
  cases hw : s.writer with
  | poll =>
    rw [hw] at hstep
    obtain rfl := Option.some.inj hstep
    apply h.goto
    · intro hs
      rw [if_pos hs]
    · rw [hw]
      refine ⟨rfl, ?_⟩
      split <;> rfl
    · split <;> simp
    · split <;> simp
    · split <;> simp
    · simp [hw]
    · split <;> simp
  | testState =>
    rw [hw] at hstep
    have hs := hready (by rw [hw]; nofun)
    obtain rfl := Option.some.inj hstep
    apply h.goto
    · exact fun hi => absurd hi hs
    · rw [hw]
      refine ⟨rfl, ?_⟩
      split <;> rfl
    · intro hpc
      rcases h.states with hi | hr | he
      · exact absurd hi hs
      · rw [if_pos hr] at hpc
        simp at hpc
      · exact he
    · split <;> simp
    · split <;> simp
    · simp [hw]
    · split <;> simp
  | testSize =>
    rw [hw] at hstep
    have hs := hready (by rw [hw]; nofun)
    have he := h.leaves (Or.inl hw)
    obtain rfl := Option.some.inj hstep
    apply h.goto
    · exact fun hi => absurd hi hs
    · rw [hw]
      refine ⟨rfl, ?_⟩
      split <;> rfl
    · exact fun _ => he
    · split <;> simp
    · split <;> simp
    · simp [hw]
    · intro hpc
      by_contra hne
      rw [if_pos (mt List.length_eq_zero_iff.mp hne)] at hpc
      cases hpc
  | clear =>
    rw [hw] at hstep
    have hs := hready (by rw [hw]; nofun)
    obtain rfl := Option.some.inj hstep
    have hpooled : Inv { s with swaps := [], retired := s.retired ++ s.swaps } := by
      refine { h with
        cleared := fun _ => rfl, lines := ⟨out, rest, queued, { hl with }⟩
        pooled := fun b hb => h.pooled b ?_ }
      simp only [List.mem_append, List.not_mem_nil, or_false] at hb
      tauto
    apply hpooled.goto
    · exact fun hi => absurd hi hs
    · exact ⟨by rw [hw]; rfl, rfl⟩
    · simp
    · nofun
    · exact fun _ => rfl
    · simp [hw]
    · nofun
  | swap =>
    rw [hw] at hstep
    have hs := hready (by rw [hw]; nofun)
    have hswaps := h.cleared (Or.inl hw)
    dsimp only at hstep
    split at hstep
    next hpred =>
      obtain rfl := Option.some.inj hstep
      have hnil : rest = [] := by
        have := hl.rest
        rw [hw] at this
        exact List.forall₂_nil_left_iff.mp this
      subst hnil
      rw [hswaps]
      refine { h with
        polls := fun hi => absurd hi hs, leaves := by simp, blocked := nofun, cleared := by simp,
        returned := fun hr => ?_, lines := ⟨out, queued, [], ?_⟩, pooled := fun b hb => h.pooled b ?_ }
      · rw [h.returned hr] at hw
        cases hw
      · refine { hl with order := ?_, rest := hl.queued, queued := .nil, finished := nofun }
        show s.pushed = _
        rw [hl.order, List.append_nil, List.append_nil]
      · simpa [hswaps] using hb
    next hpred =>
      obtain rfl := Option.some.inj hstep
      rw [not_or] at hpred
      have hnil : s.container_ = [] := List.eq_nil_of_length_eq_zero (by omega)
      have hexit : s.exit_ = false := Bool.eq_false_iff.mpr hpred.2
      apply h.goto
      · exact fun hi => absurd hi hs
      · exact ⟨by rw [hw]; rfl, rfl⟩
      · simp
      · exact fun _ => ⟨hnil, hexit⟩
      · exact fun _ => hswaps
      · simp [hw]
      · nofun
  | blocked =>
    rw [hw] at hstep
    cases hstep
  | write todo =>
    rw [hw] at hstep
    have hs := hready (by rw [hw]; nofun)
    have hreturned : s.waiter ≠ .returned := by
      intro hr
      rw [h.returned hr] at hw
      cases hw
    cases todo with
    | nil =>
      obtain rfl := Option.some.inj hstep
      apply h.goto
      · exact fun hi => absurd hi hs
      · exact ⟨by rw [hw]; rfl, rfl⟩
      · simp
      · nofun
      · simp
      · simp [hw]
      · nofun
    | cons it todo =>
      have hrest := hl.rest
      rw [hw] at hrest
      obtain ⟨l, rest, hit, htodo, rfl⟩ := List.forall₂_cons_left_iff.mp hrest
      obtain ⟨it', hline, hit'⟩ := hit.writeLine s.ofs_
      simp only [hline, Option.bind_eq_bind, Option.bind_some, Option.some.injEq] at hstep
      subst hstep
      refine { h with
        polls := fun hi => absurd hi hs, leaves := by simp, blocked := nofun, cleared := by simp,
        returned := fun hr => absurd hr hreturned, lines := ⟨out ++ [l], rest, queued, ?_⟩
        pooled := fun b hb => ?_ }
      · refine { hl with
          order := ?_, output := ?_, rest := htodo, unwritten := fun hi => absurd hi hs,
          finished := nofun }
        · show s.pushed = _
          rw [hl.order]
          simp only [List.append_assoc, List.cons_append, List.nil_append]
        · show s.output ++ l.outputs s.ofs_ = (out ++ [l]).flatMap (Line.outputs s.opened)
          rw [h.stream hreturned, hl.output, List.flatMap_append, List.flatMap_singleton]
      · simp only [List.mem_append, List.mem_singleton] at hb
        rcases hb with hb | hb | hb | hb | rfl
        · exact h.pooled b (Or.inl hb)
        · exact h.pooled b (Or.inr (Or.inl hb))
        · exact h.pooled b (Or.inr (Or.inr (Or.inl hb)))
        · exact h.pooled b (Or.inr (Or.inr (Or.inr hb)))
        · exact hit'
  | done =>
    rw [hw] at hstep
    cases hstep

theorem Inv.step {a : Action ι} (h : Inv s) (hstep : step s a = some s') : Inv s' := by
  cases a with
  | init logfile => exact h.init hstep
  | setLevel level =>
    obtain rfl := Option.some.inj hstep
    obtain ⟨out, rest, queued, hl⟩ := h.lines
    exact { h with lines := ⟨out, rest, queued, { hl with }⟩ }
  | logstring i l fresh =>
    cases hi : s.logging i with
    | none =>
      obtain ⟨s'', hstep', hinv⟩ := h.logstring hi l fresh
      exact Option.some.inj (hstep'.symm.trans hstep) ▸ hinv
    | some p =>
      rw [Logger.step, hi] at hstep
      cases hstep
  | pushBack i => exact h.pushBack hstep
  | write => exact h.write hstep
  | spurious =>
    rw [Logger.step] at hstep
    split at hstep
    next hw =>
      obtain rfl := Option.some.inj hstep
      have hnotify : s.writer.notify = .swap := by
        rw [hw]
        rfl
      obtain ⟨out, rest, queued, hl⟩ := h.lines
      have hrest := hl.rest
      rw [hw] at hrest
      have hstate : s.state_ ≠ .init := by
        intro hi
        rw [h.polls hi] at hw
        cases hw
      refine { h with
        polls := fun hi => absurd hi hstate, leaves := by simp, blocked := nofun,
        cleared := fun _ => h.cleared (Or.inr hw), returned := fun hr => ?_,
        lines := ⟨out, rest, queued, { hl with rest := hrest, finished := nofun }⟩ }
      rw [h.returned hr] at hw
      cases hw
    · cases hstep
  | wait => exact h.wait hstep
  | release k => exact h.release hstep
  | giveBack k => exact h.giveBack hstep

theorem inv_of_reach (h : (logger ι).Reach s) : Inv s := by
  refine h.invariant ?_ ?_
  · rintro s rfl
    exact inv_start
  · intro s a s' _ hs hstep
    exact hs.step hstep

/-! ## The writer ends -/

/-- How many steps the writer has to make after `exit()`, if nothing is pushed any more. -/
def State.rank (s : State ι) : Nat :=
  let again := if s.container_ = [] then 0 else s.container_.length + 5
  match s.writer with
  | .poll => 3 + again
  | .testState => 2 + again
  | .testSize => 1 + again
  | .clear => 5 + s.container_.length
  | .swap => 4 + s.container_.length
  | .blocked => 0
  | .write rest => 3 + rest.length + again
  | .done => 0

theorem Waiter.closing_of_exits {w : Waiter} (h : w.exits = true) : w.closing = true := by
  cases w <;> simp_all [Waiter.exits, Waiter.closing]

omit [DecidableEq ι] in
/-- After `exit()` the writer has always a next access, which brings it nearer to its end. -/
theorem Inv.progress (h : Inv s) (hexit : s.exit_ = true) (hdone : s.writer ≠ .done) :
    ∃ s', Logger.write s = some s' ∧ s'.exit_ = true ∧ s'.rank < s.rank := by
  have he : s.state_ = .exited := h.exited.mpr (Waiter.closing_of_exits (h.exits ▸ hexit))
  obtain ⟨out, rest, queued, hl⟩ := h.lines
  unfold Logger.write
  cases hw : s.writer with
  | poll =>
    refine ⟨_, rfl, hexit, ?_⟩
    simp [State.rank, hw, he]
  | testState =>
    refine ⟨_, rfl, hexit, ?_⟩
    simp [State.rank, hw, he]
  | testSize =>
    refine ⟨_, rfl, hexit, ?_⟩
    by_cases hnil : s.container_ = []
    · simp [State.rank, hw, hnil]
    · simp [State.rank, hw, hnil]
      omega
  | clear =>
    refine ⟨_, rfl, hexit, ?_⟩
    simp [State.rank, hw]
  | swap =>
    have hswaps := h.cleared (Or.inl hw)
    refine ⟨_, if_pos (Or.inr hexit), hexit, ?_⟩
    simp [State.rank, hw, hswaps]
  | blocked =>
    have := (h.blocked hw).2
    rw [hexit] at this
    cases this
  | write todo =>
    cases todo with
    | nil =>
      refine ⟨_, rfl, hexit, ?_⟩
      simp [State.rank, hw]
    | cons it todo =>
      have hrest := hl.rest
      rw [hw] at hrest
      obtain ⟨l, rest, hit, -, -⟩ := List.forall₂_cons_left_iff.mp hrest
      obtain ⟨it', hline, -⟩ := hit.writeLine s.ofs_
      refine ⟨{ s with
        output := s.output ++ l.outputs s.ofs_, swaps := s.swaps ++ [it'], writer := .write todo },
        ?_, hexit, ?_⟩
      · simp only [hline, Option.bind_eq_bind, Option.bind_some]
      · simp [State.rank, hw]
  | done => exact absurd hw hdone

/-- Left alone, the writer comes to its end. -/
theorem Inv.ends (h : Inv s) (hexit : s.exit_ = true) :
    ∃ n s', (List.replicate n (Action.write : Action ι)).foldlM Logger.step s = some s' ∧
      s'.writer = .done := by
  induction hr : s.rank using Nat.strongRecOn generalizing s with
  | ind r ih =>
    by_cases hdone : s.writer = .done
    · exact ⟨0, s, rfl, hdone⟩
    · obtain ⟨s₁, hstep, hexit₁, hlt⟩ := h.progress hexit hdone
      obtain ⟨n, s', hrun, hend⟩ := ih s₁.rank (by omega) (h.write hstep) hexit₁ rfl
      refine ⟨n + 1, s', ?_, hend⟩
      rw [List.replicate_succ, List.foldlM_cons]
      exact (congrArg (Option.bind · _) hstep).trans hrun

/-- What is written is the lines pushed first, each once and in push order: to the file, if `init` opened
one, and to the console, if the line is for it and has a level from `Error` to `Debug`.  A `wait` that has
returned has had every line written that was pushed before it was called.  After `exit()` the writer
always has a next access and, left alone, comes to its end.  No access of `logstring` or of the writer is
outside a buffer. -/
theorem nothing_lost (h : (logger ι).Reach s) :
    (∃ written, written <+: s.pushed ∧
      s.output.filterMap Output.console = (written.filter fun l => l.Shown).map Line.bytes ∧
      s.output.filterMap Output.logfile = (if s.opened then written.map Line.bytes else []) ∧
      (s.waiter = .returned → s.before <+: written)) ∧
    (s.exit_ = true → s.writer = .done ∨ ∃ s', step s .write = some s') ∧
    (s.exit_ = true → ∃ n s', (List.replicate n .write).foldlM step s = some s' ∧
      s'.writer = .done) ∧
    (∀ i l fresh, s.logging i = none → ∃ s', step s (.logstring i l fresh) = some s') ∧
    (∀ it rest, s.writer = .write (it :: rest) → ∃ s', step s .write = some s') := by
  have hinv := inv_of_reach h
  obtain ⟨out, rest, queued, hl⟩ := hinv.lines
  refine ⟨⟨out, ?_, ?_, ?_, fun hr => hl.finished (hinv.returned hr)⟩, fun hexit => ?_,
    hinv.ends, fun i l fresh hi => ?_, fun it todo hw => ?_⟩
  · rw [hl.order, List.append_assoc]
    exact List.prefix_append out _
  · rw [hl.output, console_flatMap]
  · rw [hl.output, logfile_flatMap]
  · by_cases hdone : s.writer = .done
    · exact Or.inl hdone
    · obtain ⟨s', hstep, -⟩ := hinv.progress hexit hdone
      exact Or.inr ⟨s', hstep⟩
  · obtain ⟨s', hstep, -⟩ := hinv.logstring hi l fresh
    exact ⟨s', hstep⟩
  · have hrest := hl.rest
    rw [hw] at hrest
    obtain ⟨l, rest, hit, -, -⟩ := List.forall₂_cons_left_iff.mp hrest
    obtain ⟨it', hline, -⟩ := hit.writeLine s.ofs_
    refine ⟨{ s with
      output := s.output ++ l.outputs s.ofs_, swaps := s.swaps ++ [it'], writer := .write todo }, ?_⟩
    rw [step, Logger.write, hw]
    simp only [hline, Option.bind_eq_bind, Option.bind_some]

/-- `H|hi` for the console and the file, and a line of level 0, which the console does not get. -/
theorem nothing_lost_two : ∃ s : State Unit, (logger Unit).Reach s ∧ s.waiter = .returned ∧
    s.before.map Line.bytes = [[72, 124, 104, 105, newline], [78, 124, newline]] ∧
    s.output = [.text .cout .white [72, 124, 104, 105, newline], .color .white,
      .file [72, 124, 104, 105, newline], .color .white, .file [78, 124, newline]] ∧
    ∃ written, written <+: s.pushed ∧ s.before <+: written ∧
      (written.filter fun l => l.Shown).map Line.bytes = [[72, 124, 104, 105, newline]] ∧
      written.map Line.bytes = [[72, 124, 104, 105, newline], [78, 124, newline]] := by
  obtain ⟨s, hrun, hs⟩ := Option.map_eq_some_iff.mp (show
    (([.init true, .write, .logstring () ⟨true, .Info, [72, 124], [104, 105], by decide, by decide⟩
        fun _ => 0, .pushBack (), .logstring () ⟨true, ⟨0⟩, [78, 124], [], by decide, by decide⟩
        fun _ => 0, .pushBack (), .wait, .write, .write, .wait, .wait, .write, .write, .write,
        .write, .write, .write, .wait] : List (Action Unit)).foldlM step {}).map
      (fun s => (s.waiter, s.opened, s.before.map Line.bytes, s.output)) = some (.returned, true,
        [[72, 124, 104, 105, newline], [78, 124, newline]],
        [.text .cout .white [72, 124, 104, 105, newline], .color .white,
          .file [72, 124, 104, 105, newline], .color .white, .file [78, 124, newline]]) by
    decide +kernel)
  obtain ⟨hw, hs⟩ := Prod.mk.inj hs
  obtain ⟨hopened, hs⟩ := Prod.mk.inj hs
  obtain ⟨hbefore, hout⟩ := Prod.mk.inj hs
  have hreach : (logger Unit).Reach s :=
    System.Reach.foldlM (fun h => h) (System.Reach.start rfl) _ hrun
  obtain ⟨⟨written, hprefix, hconsole, hfile, hwait⟩, -⟩ := nothing_lost hreach
  rw [hout] at hconsole hfile
  rw [hopened] at hfile
  exact ⟨s, hreach, hw, hbefore, hout, written, hprefix, hwait hw, hconsole.symm, hfile.symm⟩

/-- A line of level 0 for the console, logged while there is no file: nothing is written of it. -/
theorem not_nothing_lost : ∃ s : State Unit, (logger Unit).Reach s ∧ s.waiter = .returned ∧
    s.before.map (fun l => (l.console, l.bytes)) = [(true, [72, 124, 104, 105, newline])] ∧
    s.output.filterMap Output.console = [] ∧ s.output.filterMap Output.logfile = [] := by
  obtain ⟨s, hrun, hs⟩ := Option.map_eq_some_iff.mp (show
    (([.init false, .write, .logstring () ⟨true, ⟨0⟩, [72, 124], [104, 105], by decide, by decide⟩
        fun _ => 0, .pushBack (), .wait, .write, .write, .wait, .wait, .write, .write, .write,
        .write, .write, .wait] : List (Action Unit)).foldlM step {}).map
      (fun s => (s.waiter, s.before.map (fun l => (l.console, l.bytes)), s.output)) =
        some (.returned, [(true, [72, 124, 104, 105, newline])], [.color .white]) by decide +kernel)
  obtain ⟨hw, hs⟩ := Prod.mk.inj hs
  obtain ⟨hbefore, hout⟩ := Prod.mk.inj hs
  refine ⟨s, System.Reach.foldlM (fun h => h) (System.Reach.start rfl) _ hrun, hw, hbefore, ?_, ?_⟩
  · rw [hout]
    rfl
  · rw [hout]
    rfl

end HappyServer.Common.Logger
