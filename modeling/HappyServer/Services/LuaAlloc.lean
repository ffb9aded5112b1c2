import HappyServer.Lib.Extent
import HappyServer.Lib.Runs

/-!
# The allocator of a Lua service (`services/lua_service.cpp`)

`lua_service::lalloc` is handed to the Lua state and counts in `mem` what Lua holds.

* `lalloc` is the function up to its last statement (`Tail`): `return nullptr` on the limit,
  `free(ptr)` or `return realloc(ptr, nsize)`.
* `Request`: what Lua asks for; a non-null `ptr` is a block it holds, of size `osize`.
* `State.request` runs one request; `outcome` is what `realloc` answers if it is called.
  `blocks` is not in the source: the blocks Lua holds.
* `refused` is the only failure after which `lalloc` puts `mem` back: a `realloc` that fails
  leaves it changed (`exact_step_iff`).
-/

namespace HappyServer.Services.LuaAlloc

/-- A block of the 64-bit address space. -/
abbrev Block := Extent (2 ^ 64)

/-- What `lalloc` prints, with the numbers before they are divided into megabytes. -/
inductive Report where
  /-- `"%s Memory error current %.2f M, limit %.2f M"` -/
  | error (current limit : UInt64)
  /-- `"%s Memory warning %.2f M"` -/
  | warn (current : UInt64)
deriving DecidableEq

structure LuaService where
  mem : UInt64 := 0
  mem_limit : UInt64 := 0
  mem_report : UInt64 := 8 * 1024 * 1024
  console : List Report := []
deriving DecidableEq

inductive Tail where
  | nullptr
  | free
  | realloc
deriving DecidableEq

def lalloc (l : LuaService) (ptr : Option UInt64) (osize nsize : UInt64) : LuaService × Tail :=
  let mem := l.mem
  let l := { l with mem := l.mem + nsize }
  let l := if ptr.isSome then { l with mem := l.mem - osize } else l
  if (l.mem_limit ≠ 0 ∧ l.mem > l.mem_limit) ∧ (ptr = none ∨ nsize > osize) then
    ({ l with mem := mem, console := l.console ++ [.error l.mem l.mem_limit] }, .nullptr)
  else
    let l :=
      if l.mem > l.mem_report then
        { l with mem_report := l.mem_report * 2, console := l.console ++ [.warn l.mem] }
      else l
    if nsize = 0 then (l, .free) else (l, .realloc)

/-- `osize` is a type tag when `ptr` is null. -/
structure Request where
  block : Option Block
  tag : UInt64
  nsize : UInt64

def Request.ptr (r : Request) : Option UInt64 := r.block.map fun b => UInt64.ofNat b.start

def Request.osize (r : Request) : UInt64 :=
  match r.block with
  | none => r.tag
  | some b => UInt64.ofNat b.size

structure State where
  service : LuaService := {}
  blocks : List Block := []

/-- The other blocks. -/
def Request.others (r : Request) (blocks : List Block) : List Block :=
  match r.block with
  | none => blocks
  | some b => blocks.erase b

/-- A null result of `realloc` leaves the old block untouched. -/
def State.request (s : State) (r : Request) (outcome : Option Block) : State × Option Block :=
  match lalloc s.service r.ptr r.osize r.nsize with
  | (l, .nullptr) => ({ s with service := l }, none)
  | (l, .free) => ({ service := l, blocks := r.others s.blocks }, none)
  | (l, .realloc) =>
    match outcome with
    | none => ({ s with service := l }, none)
    | some b => ({ service := l, blocks := b :: r.others s.blocks }, some b)

inductive Action where
  | request (r : Request) (outcome : Option Block)
  /-- `lua_service::init` reads `memlimit` -/
  | setLimit (mem_limit : UInt64)

/-- Lua passes blocks that it holds; `realloc` answers with `nsize` bytes that overlap no block
but the one it was given. -/
structure Admissible (s : State) (r : Request) (outcome : Option Block) : Prop where
  held : ∀ b, r.block = some b → b ∈ s.blocks
  size : ∀ b, outcome = some b → b.size = r.nsize.toNat
  apart : ∀ b, outcome = some b → ∀ c ∈ r.others s.blocks, b.Apart c

def allocator : System State Action where
  start s := s = {}
  step s a s' :=
    match a with
    | .request r outcome => Admissible s r outcome ∧ s' = (s.request r outcome).1
    | .setLimit mem_limit => s' = { s with service := { s.service with mem_limit := mem_limit } }

/-- `mem` is the sum of the sizes of the blocks. -/
def Exact (s : State) : Prop := s.service.mem.toNat = Extent.total s.blocks

/-- Under a limit, a request that allocates or grows returns a block only if the new sum is within
it. -/
def Limited (s : State) (r : Request) (outcome : Option Block) : Prop :=
  s.service.mem_limit ≠ 0 → (r.block = none ∨ r.nsize > r.osize) →
    ∀ b, (s.request r outcome).2 = some b →
      Extent.total (s.request r outcome).1.blocks ≤ s.service.mem_limit.toNat

/-! ## One request -/

/-- What the block asked about counts for so far. -/
def Request.old (r : Request) : UInt64 :=
  match r.block with
  | none => 0
  | some b => UInt64.ofNat b.size

def Request.sum (r : Request) (s : State) : UInt64 := s.service.mem + r.nsize - r.old

/-- The limit refuses the request. -/
def Request.refused (r : Request) (s : State) : Prop :=
  (s.service.mem_limit ≠ 0 ∧ r.sum s > s.service.mem_limit) ∧
    (r.block = none ∨ r.nsize > r.osize)

/-- `realloc` does not fail for a size other than the old one. -/
def Unfailing (s : State) : Action → Prop
  | .request r outcome => r.refused s ∨ r.nsize = 0 ∨ outcome.isSome ∨ r.nsize = r.old
  | .setLimit _ => True

section

variable {s s' : State} {r : Request} {outcome : Option Block} {a : Action} {b : Block}

theorem lalloc_refused (h : r.refused s) :
    (lalloc s.service r.ptr r.osize r.nsize).1.mem = s.service.mem ∧
      (lalloc s.service r.ptr r.osize r.nsize).2 = .nullptr := by
  obtain ⟨hlimit, hgrows⟩ := h
  cases hb : r.block <;>
    simp_all [lalloc, Request.ptr, Request.sum, Request.old, Request.osize]

theorem lalloc_passed (h : ¬ r.refused s) :
    (lalloc s.service r.ptr r.osize r.nsize).1.mem = r.sum s ∧
      (lalloc s.service r.ptr r.osize r.nsize).2 = if r.nsize = 0 then .free else .realloc := by
  cases hb : r.block with
  | none =>
    simp only [Request.refused, Request.sum, Request.old, hb, true_or, and_true] at h
    simp only [lalloc, Request.ptr, Request.sum, Request.old, hb, Option.map_none,
      Option.isSome_none, Bool.false_eq_true, if_false, true_or, and_true, UInt64.sub_zero] at h ⊢
    rw [if_neg h]
    split <;> split <;> exact ⟨rfl, rfl⟩
  | some b =>
    simp only [Request.refused, Request.sum, Request.old, Request.osize, hb, reduceCtorEq,
      false_or] at h
    simp only [lalloc, Request.ptr, Request.sum, Request.old, Request.osize, hb, Option.map_some,
      Option.isSome_some, if_true, reduceCtorEq, false_or]
    rw [if_neg h]
    split <;> split <;> exact ⟨rfl, rfl⟩

/-- A refused request leaves `mem` and the blocks alone. -/
theorem request_refused (outcome : Option Block) (h : r.refused s) :
    (s.request r outcome).1.service.mem = s.service.mem ∧
      (s.request r outcome).1.blocks = s.blocks ∧ (s.request r outcome).2 = none := by
  obtain ⟨hmem, htail⟩ := lalloc_refused h
  unfold State.request
  split
  · exact ⟨by simp_all, rfl, rfl⟩
  · simp_all
  · simp_all

theorem request_passed (h : ¬ r.refused s) :
    (s.request r outcome).1.service.mem = r.sum s := by
  obtain ⟨hmem, -⟩ := lalloc_passed h
  unfold State.request
  split
  · simp_all
  · simp_all
  · split <;> simp_all

/-- What the other blocks and the block asked about sum up to. -/
theorem Request.total_others (hheld : ∀ b, r.block = some b → b ∈ s.blocks) :
    r.old.toNat + Extent.total (r.others s.blocks) = Extent.total s.blocks := by
  cases hb : r.block with
  | none => simp [Request.old, Request.others, hb]
  | some b =>
    have hsize := b.size_lt
    simp only [Request.old, Request.others, hb]
    rw [UInt64.toNat_ofNat_of_lt' hsize, Extent.total_erase (hheld b hb)]

theorem Request.others_sublist (r : Request) (blocks : List Block) :
    (r.others blocks).Sublist blocks := by
  unfold Request.others
  split
  · exact List.Sublist.refl _
  · exact List.erase_sublist

theorem request_apart (h : Admissible s r outcome) (hapart : s.blocks.Pairwise Extent.Apart) :
    (s.request r outcome).1.blocks.Pairwise Extent.Apart := by
  have hothers := hapart.sublist (r.others_sublist s.blocks)
  unfold State.request
  split
  · exact hapart
  · exact hothers
  · split
    · exact hapart
    · exact List.pairwise_cons.mpr ⟨h.apart _ rfl, hothers⟩

/-- `mem` after the request, when it was exact before and the request passes the limit. -/
theorem toNat_sum (hexact : Exact s) (h : Admissible s r outcome)
    (hfits : Extent.total (r.others s.blocks) + r.nsize.toNat < 2 ^ 64) :
    (r.sum s).toNat = Extent.total (r.others s.blocks) + r.nsize.toNat := by
  have hothers := r.total_others h.held
  unfold Exact at hexact
  rw [Request.sum, UInt64.toNat_sub, UInt64.toNat_add, hexact]
  have := r.old.toNat_lt
  omega

theorem request_free (outcome : Option Block) (h : ¬ r.refused s) (hsize : r.nsize = 0) :
    (s.request r outcome).1.blocks = r.others s.blocks ∧ (s.request r outcome).2 = none := by
  obtain ⟨-, htail⟩ := lalloc_passed h
  rw [if_pos hsize] at htail
  unfold State.request
  split
  · simp_all
  · exact ⟨rfl, rfl⟩
  · simp_all

theorem request_realloc (outcome : Option Block) (h : ¬ r.refused s) (hsize : r.nsize ≠ 0) :
    (s.request r outcome).2 = outcome ∧
      (s.request r outcome).1.blocks
        = match outcome with
          | none => s.blocks
          | some b => b :: r.others s.blocks := by
  obtain ⟨-, htail⟩ := lalloc_passed h
  rw [if_neg hsize] at htail
  unfold State.request
  split
  · simp_all
  · simp_all
  · cases outcome <;> exact ⟨rfl, rfl⟩

/-- A block returned: `mem` passed the limit's test and is the new sum. -/
theorem exact_of_some (hexact : Exact s) (hapart : s.blocks.Pairwise Extent.Apart)
    (hadm : Admissible s r (some b)) (h : ¬ r.refused s) (hsize : r.nsize ≠ 0) :
    Exact (s.request r (some b)).1 := by
  have hnew := request_apart hadm hapart
  obtain ⟨-, hblocks⟩ := request_realloc (some b) h hsize
  have hfits := Extent.total_lt hnew (by decide)
  have hb := hadm.size b rfl
  rw [hblocks, Extent.total_cons, hb] at hfits
  rw [Exact, request_passed h, hblocks, Extent.total_cons, hb,
    toNat_sum hexact hadm (by omega)]
  omega

theorem exact_of_free (hexact : Exact s) (hadm : Admissible s r outcome) (h : ¬ r.refused s)
    (hsize : r.nsize = 0) : Exact (s.request r outcome).1 := by
  obtain ⟨hblocks, -⟩ := request_free outcome h hsize
  have hothers := r.total_others hadm.held
  have hmem := s.service.mem.toNat_lt
  have hzero : r.nsize.toNat = 0 := by rw [hsize]; rfl
  rw [Exact, request_passed h, hblocks, toNat_sum hexact hadm]
  · omega
  · unfold Exact at hexact
    omega

/-- A failed `realloc` keeps the sum and changes `mem` by the difference of the sizes. -/
theorem exact_of_none (hexact : Exact s) (h : ¬ r.refused s) (hsize : r.nsize ≠ 0) :
    Exact (s.request r none).1 ↔ r.nsize = r.old := by
  obtain ⟨-, hblocks⟩ := request_realloc none h hsize
  rw [Exact, request_passed h, hblocks, ← hexact, UInt64.toNat_inj, Request.sum]
  constructor
  · intro hsum
    have := congrArg (· + r.old - s.service.mem) hsum
    grind
  · intro hsame
    grind

theorem exact_step_iff (hexact : Exact s) (hapart : s.blocks.Pairwise Extent.Apart)
    (hstep : allocator.step s a s') : Exact s' ↔ Unfailing s a := by
  cases a with
  | setLimit mem_limit =>
    obtain rfl : s' = _ := hstep
    exact iff_of_true hexact trivial
  | request r outcome =>
    obtain ⟨hadm, rfl⟩ := hstep
    by_cases h : r.refused s
    · obtain ⟨hmem, hblocks, -⟩ := request_refused outcome h
      refine iff_of_true ?_ (.inl h)
      rw [Exact, hmem, hblocks]
      exact hexact
    · by_cases hsize : r.nsize = 0
      · exact iff_of_true (exact_of_free hexact hadm h hsize) (.inr (.inl hsize))
      · cases outcome with
        | some b => exact iff_of_true (exact_of_some hexact hapart hadm h hsize) (by simp [Unfailing])
        | none =>
          rw [exact_of_none hexact h hsize]
          simp [Unfailing, h, hsize]

theorem limited_of_exact (hexact : Exact s) (hapart : s.blocks.Pairwise Extent.Apart)
    (hadm : Admissible s r outcome) : Limited s r outcome := by
  intro hlimit hgrows b hb
  by_cases h : r.refused s
  · rw [(request_refused outcome h).2.2] at hb
    cases hb
  · by_cases hsize : r.nsize = 0
    · rw [(request_free outcome h hsize).2] at hb
      cases hb
    · rw [(request_realloc outcome h hsize).1] at hb
      subst hb
      have hnew : Exact _ := exact_of_some hexact hapart hadm h hsize
      rw [← hnew, request_passed h]
      have hwithin : ¬ (r.sum s > s.service.mem_limit) := fun hover => h ⟨⟨hlimit, hover⟩, hgrows⟩
      exact UInt64.le_iff_toNat_le.mp (UInt64.not_lt.mp hwithin)

theorem step_apart (hapart : s.blocks.Pairwise Extent.Apart) (hstep : allocator.step s a s') :
    s'.blocks.Pairwise Extent.Apart := by
  cases a with
  | setLimit mem_limit =>
    obtain rfl : s' = _ := hstep
    exact hapart
  | request r outcome =>
    obtain ⟨hadm, rfl⟩ := hstep
    exact request_apart hadm hapart

/-! ## Runs -/

theorem inv_of_reach (h : (allocator.restrict Unfailing).Reach s) :
    Exact s ∧ s.blocks.Pairwise Extent.Apart := by
  refine h.invariant ?_ ?_
  · rintro s rfl
    exact ⟨rfl, List.Pairwise.nil⟩
  · rintro s a s' - ⟨hexact, hapart⟩ ⟨hok, hstep⟩
    exact ⟨(exact_step_iff hexact hapart hstep).mpr hok, step_apart hapart hstep⟩

/-- While no `realloc` fails for a new size, `mem` is exact and the limit is kept; the first such
failure makes `mem` inexact. -/
theorem accounting_of_unfailing (h : (allocator.restrict Unfailing).Reach s) :
    Exact s ∧ (∀ r outcome, Admissible s r outcome → Limited s r outcome) ∧
      ∀ a s', allocator.step s a s' → (Exact s' ↔ Unfailing s a) := by
  obtain ⟨hexact, hapart⟩ := inv_of_reach h
  exact ⟨hexact, fun r outcome hadm => limited_of_exact hexact hapart hadm,
    fun a s' hstep => exact_step_iff hexact hapart hstep⟩

theorem admissible_some (hheld : ∀ c, r.block = some c → c ∈ s.blocks) (hsize : b.size = r.nsize.toNat)
    (hapart : ∀ c ∈ r.others s.blocks, b.Apart c) : Admissible s r (some b) where
  held := hheld
  size _ hb := Option.some.inj hb ▸ hsize
  apart _ hb := Option.some.inj hb ▸ hapart

theorem admissible_none (hheld : ∀ c, r.block = some c → c ∈ s.blocks) : Admissible s r none where
  held := hheld
  size := nofun
  apart := nofun

/-- 64 bytes for a table. -/
def table : Request := ⟨none, 5, 64⟩

def tableBlock : Block := ⟨4096, 64, by decide, by decide, by decide⟩
def stringBlock : Block := ⟨8192, 32, by decide, by decide, by decide⟩
def grownBlock : Block := ⟨12288, 128, by decide, by decide, by decide⟩

/-- A table and a string are allocated, the table grows and is moved, and the string is freed. -/
theorem accounting_of_table : ∃ s, s.blocks = [grownBlock] ∧ s.service.mem = 128 ∧ Exact s ∧
    (∀ r outcome, Admissible s r outcome → Limited s r outcome) ∧
      ∀ a s', allocator.step s a s' → (Exact s' ↔ Unfailing s a) := by
  have hstart : (allocator.restrict Unfailing).Reach {} := .start rfl
  have htable := hstart.step (a := Action.request table (some tableBlock))
    ⟨.inr (.inr (.inl rfl)), admissible_some nofun rfl nofun, rfl⟩
  have hstring := htable.step (a := Action.request ⟨none, 4, 32⟩ (some stringBlock))
    ⟨.inr (.inr (.inl rfl)), admissible_some nofun rfl (by
      intro c hc
      rw [List.mem_singleton.mp hc]
      exact .inr (by decide)), rfl⟩
  have hgrown := hstring.step (a := Action.request ⟨some tableBlock, 0, 128⟩ (some grownBlock))
    ⟨.inr (.inr (.inl rfl)), admissible_some (by rintro c ⟨⟩; decide) rfl (by
      intro c hc
      rw [List.mem_singleton.mp hc]
      exact .inr (by decide)), rfl⟩
  have hfreed := hgrown.step (a := Action.request ⟨some stringBlock, 0, 0⟩ none)
    ⟨.inr (.inl rfl), admissible_none (by rintro c ⟨⟩; decide), rfl⟩
  exact ⟨_, by decide, by decide, accounting_of_unfailing hfreed⟩

/-- `realloc` has no 64 bytes: `mem` keeps them. -/
theorem not_exact_of_failed_table :
    ¬ ∀ s, allocator.Reach s →
      Exact s ∧ ∀ r outcome, Admissible s r outcome → Limited s r outcome := by
  intro h
  have hreach : allocator.Reach (State.request {} table none).1 :=
    (System.Reach.start rfl).step (a := .request table none) ⟨admissible_none nofun, rfl⟩
  have hexact := (h _ hreach).1
  unfold Exact at hexact
  revert hexact
  decide

end

end HappyServer.Services.LuaAlloc
