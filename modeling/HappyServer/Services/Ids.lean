import HappyServer.Services.Registry

/-!
# The search for a service id (`worker::uuid`, `worker::add_service`)

The loop tries 65535 values of `uuid_`, which are the 65535 ids of the worker unless the counter
wraps among them: 2^32 - 1 and 0 make the same id, and one id is left out (`Worker.Skips`).

    the search finds a free id, or stops the creation
      ↔ a free id is not left out, or none is free and the type is not registered    (findsId_iff)
-/

namespace HappyServer.Services

open Server

/-! ## Algorithm -/

/-- The inner loop of `add_service` with its `counter`: the counter and the id at the end. -/
def Worker.searchFrom (counter : Nat) (serviceid : UInt32) (w : Worker) : Nat × UInt32 × Worker :=
  if MAX_UUID ≤ counter then (counter, serviceid, w)
  else
    let (serviceid, w) := w.uuid
    let counter := counter + 1
    if serviceid ∈ w.services_ then searchFrom counter serviceid w else (counter, serviceid, w)
termination_by MAX_UUID - counter

/-- The service that the task of `add_service` gets from `make_service` and gives its id. -/
def Worker.makeService (w : Worker) (c : Creation) : Option Service :=
  if w.state_ ≠ .ready then none
  else
    let (_, serviceid, _) := w.searchFrom 0 0
    if !c.registered then none else some { id_ := serviceid, unique_ := c.unique }

theorem searchFrom_max {counter : Nat} {serviceid : UInt32} {w : Worker} (h : MAX_UUID ≤ counter) :
    w.searchFrom counter serviceid = (counter, serviceid, w) := by
  unfold Worker.searchFrom
  exact if_pos h

theorem searchFrom_lt {counter : Nat} {serviceid : UInt32} {w : Worker} (h : counter < MAX_UUID) :
    w.searchFrom counter serviceid = if w.idOf w.uuid_ ∈ w.services_ then
      ({ w with uuid_ := w.uuid_ + 1 } : Worker).searchFrom (counter + 1) (w.idOf w.uuid_)
      else (counter + 1, w.idOf w.uuid_, { w with uuid_ := w.uuid_ + 1 }) := by
  rw [Worker.searchFrom]
  exact if_neg (Nat.not_le.mpr h)

/-- The loop ends after so many calls of `uuid()`, at most 65535. -/
theorem searchFrom_spec (n counter : Nat) (serviceid : UInt32) (w : Worker)
    (h : counter + n = MAX_UUID) :
    (w.searchFrom counter serviceid).2 = w.search n serviceid ∧
      counter ≤ (w.searchFrom counter serviceid).1 ∧
      (w.searchFrom counter serviceid).1 ≤ MAX_UUID := by
  induction n generalizing counter serviceid w with
  | zero =>
    rw [searchFrom_max (by omega)]
    refine ⟨rfl, by omega, by omega⟩
  | succ n ih =>
    rw [searchFrom_lt (by omega)]
    by_cases hin : w.idOf w.uuid_ ∈ w.services_
    · rw [if_pos hin, search_in_use (by rwa [candidate_zero]), candidate_zero]
      obtain ⟨hsearch, hle, hmax⟩ := ih (counter + 1) (w.idOf w.uuid_) { w with uuid_ := w.uuid_ + 1 }
        (by omega)
      refine ⟨hsearch, by omega, hmax⟩
    · rw [if_neg hin, search_free (by rwa [candidate_zero]), candidate_zero]
      refine ⟨rfl, by omega, by omega⟩

theorem searchFrom_zero (w : Worker) : (w.searchFrom 0 0).2 = w.search MAX_UUID 0 :=
  (searchFrom_spec MAX_UUID 0 0 w (Nat.zero_add _)).1

/-- What is made is what is initialised. -/
theorem create_makeService (w : Worker) (unique : UniqueServices) (c : Creation) :
    (w.create unique c).1 = (w.makeService c).bind fun s => (s.init c unique).1 := by
  unfold Worker.create Worker.makeService
  by_cases hready : w.state_ = .ready
  · rw [if_neg (not_not.mpr hready), if_neg (not_not.mpr hready), ← searchFrom_zero]
    cases c.registered <;> rfl
  · rw [if_pos hready, if_pos hready]
    rfl

theorem makeService_eq_none_iff (w : Worker) (c : Creation) :
    w.makeService c = none ↔ ¬(w.state_ = .ready ∧ c.registered = true) := by
  unfold Worker.makeService
  by_cases hready : w.state_ = .ready
  · rw [if_neg (not_not.mpr hready)]
    cases c.registered <;> simp [hready]
  · rw [if_pos hready]
    exact iff_of_true rfl fun h => hready h.1

/-! ## The ids of a worker -/

/-- The 65535 ids of the worker. -/
def Worker.Owns (w : Worker) (serviceid : UInt32) : Prop :=
  ∃ k, 1 ≤ k ∧ k ≤ MAX_UUID ∧ serviceid.toNat = w.workerid_.toNat * 2 ^ 24 + k

/-- The id that is not tried: the counter wraps on the way, and comes to some id twice. -/
def Worker.Skips (w : Worker) (serviceid : UInt32) : Prop :=
  2 ^ 32 - MAX_UUID < w.uuid_.toNat ∧ serviceid.toNat % 2 ^ 16 = w.uuid_.toNat % 2 ^ 16

theorem toNat_idOf (w : Worker) (res : UInt32) :
    (w.idOf res).toNat = w.workerid_.toNat * 2 ^ 24 + (res.toNat % 0xFFFF + 1) := by
  have hid : w.workerid_.toNat < 2 ^ 8 := w.workerid_.toNat_lt
  have hlow : (res % 0xFFFF + 1).toNat = res.toNat % 0xFFFF + 1 := by
    rw [UInt32.toNat_add, UInt32.toNat_mod]
    show (res.toNat % 0xFFFF + 1) % 2 ^ 32 = res.toNat % 0xFFFF + 1
    omega
  unfold Worker.idOf
  rw [UInt32.toNat_or, UInt32.toNat_shiftLeft, UInt8.toNat_toUInt32, hlow, Nat.or_comm]
  show (w.workerid_.toNat <<< 24) % 2 ^ 32 ||| _ = _
  rw [Nat.mod_eq_of_lt (by rw [Nat.shiftLeft_eq]; omega),
    ← Nat.shiftLeft_add_eq_or_of_lt (by omega), Nat.shiftLeft_eq]

theorem toNat_candidate (w : Worker) (k : Nat) : (w.candidate k).toNat =
    w.workerid_.toNat * 2 ^ 24 + ((w.uuid_.toNat + k) % 2 ^ 32 % 0xFFFF + 1) := by
  unfold Worker.candidate
  rw [toNat_idOf, UInt32.toNat_add, UInt32.toNat_ofNat']
  congr 3
  omega

theorem owns_idOf (w : Worker) (res : UInt32) : w.Owns (w.idOf res) := by
  have := Nat.mod_lt res.toNat (show 0xFFFF > 0 by decide)
  exact ⟨res.toNat % 0xFFFF + 1, by omega, by unfold MAX_UUID; omega, toNat_idOf w res⟩

/-- The low half of an id is never 0. -/
theorem low_idOf (w : Worker) (res : UInt32) : (w.idOf res).toNat % 2 ^ 16 ≠ 0 := by
  have := Nat.mod_lt res.toNat (show 0xFFFF > 0 by decide)
  rw [toNat_idOf]
  omega

/-- Every id of the worker but the one left out is tried. -/
theorem tried_iff {w : Worker} {serviceid : UInt32} (h : w.Owns serviceid) :
    (∃ k < MAX_UUID, w.candidate k = serviceid) ↔ ¬w.Skips serviceid := by
  obtain ⟨low, hpos, hmax, hid⟩ := h
  unfold MAX_UUID at hmax
  have hu : w.uuid_.toNat < 2 ^ 32 := w.uuid_.toNat_lt
  have hcandidate : ∀ k, w.candidate k = serviceid ↔
      (w.uuid_.toNat + k) % 2 ^ 32 % 0xFFFF + 1 = low := by
    intro k
    rw [← UInt32.toNat_inj, toNat_candidate, hid]
    omega
  simp only [hcandidate]
  unfold Worker.Skips MAX_UUID
  have hlow : serviceid.toNat % 2 ^ 16 = low := by omega
  rw [hlow]
  constructor
  · rintro ⟨k, hk, hres⟩ ⟨hwraps, hskip⟩
    have hmod : (w.uuid_.toNat + k) % 2 ^ 32 = w.uuid_.toNat + k ∨
        (w.uuid_.toNat + k) % 2 ^ 32 + 2 ^ 32 = w.uuid_.toNat + k := by omega
    rcases hmod with hmod | hmod
    · rw [hmod] at hres
      omega
    · omega
  · intro hskip
    by_cases hwraps : 2 ^ 32 - 0xFFFF < w.uuid_.toNat
    · -- `low - 1` comes before the wrap or after it
      by_cases hbefore : w.uuid_.toNat % 2 ^ 16 < low
      · exact ⟨low - w.uuid_.toNat % 2 ^ 16 - 1, by omega, by omega⟩
      · exact ⟨low - 1 + (2 ^ 32 - w.uuid_.toNat), by omega, by omega⟩
    · exact ⟨(low - 1 + 0xFFFF - w.uuid_.toNat % 0xFFFF) % 0xFFFF, by omega, by omega⟩

theorem exhausted_iff (w : Worker) :
    w.Exhausted ↔ ∀ serviceid, w.Owns serviceid → ¬w.Skips serviceid → serviceid ∈ w.services_ := by
  unfold Worker.Exhausted
  constructor
  · intro h serviceid howns hskip
    obtain ⟨k, hk, rfl⟩ := (tried_iff howns).mpr hskip
    exact h k hk
  · intro h k hk
    exact h _ (owns_idOf w _) ((tried_iff (owns_idOf w _)).mp ⟨k, hk, rfl⟩)

/-! ## The result -/

/-- What the search is there for. -/
structure Worker.FindsId (w : Worker) (c : Creation) : Prop where
  bounded : (w.searchFrom 0 0).1 ≤ MAX_UUID
  free : (∃ serviceid, w.Owns serviceid ∧ serviceid ∉ w.services_) →
    (w.searchFrom 0 0).2.1 ∉ w.services_ ∧
      workerId (w.searchFrom 0 0).2.1 = w.workerid_.toUInt32 ∧
      (w.searchFrom 0 0).2.1.toNat % 2 ^ 16 ≠ 0
  stops : (∀ serviceid, w.Owns serviceid → serviceid ∈ w.services_) → w.makeService c = none

theorem search_not_mem_iff (w : Worker) : (w.searchFrom 0 0).2.1 ∉ w.services_ ↔
    ∃ serviceid, w.Owns serviceid ∧ serviceid ∉ w.services_ ∧ ¬w.Skips serviceid := by
  rw [searchFrom_zero, (search_max w).2.2, exhausted_iff]
  constructor
  · intro h
    by_contra hnone
    exact h fun serviceid howns hskip => by_contra fun hfree => hnone ⟨serviceid, howns, hfree, hskip⟩
  · rintro ⟨serviceid, howns, hfree, hskip⟩ h
    exact hfree (h serviceid howns hskip)

/-- The search does what it is for exactly when an id it tries is free, or no id is free and the type
has no services. -/
theorem findsId_iff (w : Worker) (c : Creation) : w.FindsId c ↔
    (∃ serviceid, w.Owns serviceid ∧ serviceid ∉ w.services_ ∧ ¬w.Skips serviceid) ∨
      (∀ serviceid, w.Owns serviceid → serviceid ∈ w.services_) ∧
        ¬(w.state_ = .ready ∧ c.registered = true) := by
  constructor
  · intro h
    by_cases hfree : ∃ serviceid, w.Owns serviceid ∧ serviceid ∉ w.services_
    · exact .inl ((search_not_mem_iff w).mp (h.free hfree).1)
    · have hfull : ∀ serviceid, w.Owns serviceid → serviceid ∈ w.services_ := fun serviceid howns =>
        by_contra fun hnot => hfree ⟨serviceid, howns, hnot⟩
      exact .inr ⟨hfull, (makeService_eq_none_iff w c).mp (h.stops hfull)⟩
  · intro h
    obtain ⟨k, hk⟩ := (search_max w).2.1
    have hid : (w.searchFrom 0 0).2.1 = w.idOf (w.uuid_ + UInt32.ofNat k) := by
      rw [searchFrom_zero, hk]
      rfl
    constructor
    · exact (searchFrom_spec MAX_UUID 0 0 w (Nat.zero_add _)).2.2
    · rintro ⟨serviceid, howns, hnot⟩
      rcases h with h | ⟨hfull, -⟩
      · refine ⟨(search_not_mem_iff w).mpr h, ?_, ?_⟩
        · rw [hid, workerId_idOf]
        · rw [hid]
          exact low_idOf w _
      · exact absurd (hfull serviceid howns) hnot
    · intro hfull
      rcases h with ⟨serviceid, howns, hnot, -⟩ | ⟨-, hstops⟩
      · exact absurd (hfull serviceid howns) hnot
      · exact (makeService_eq_none_iff w c).mpr hstops

/-! ## A worker with all its ids in use -/

/-- Services with the first `n` ids of worker 1. -/
def crowd : Nat → AList fun _ : UInt32 => Service
  | 0 => ∅
  | n + 1 => (crowd n).insert (UInt32.ofNat (2 ^ 24 + (n + 1)))
      { id_ := UInt32.ofNat (2 ^ 24 + (n + 1)), unique_ := false, ok_ := true }

theorem mem_crowd {n k : Nat} (hpos : 1 ≤ k) (hk : k ≤ n) : UInt32.ofNat (2 ^ 24 + k) ∈ crowd n := by
  induction n with
  | zero => omega
  | succ n ih =>
    refine (AList.mem_insert _).mpr ?_
    rcases Nat.lt_or_eq_of_le hk with hlt | rfl
    · exact .inr (ih (Nat.le_of_lt_succ hlt))
    · exact .inl rfl

/-- All 65535 ids of worker 1 are in use. -/
def crowded : Worker := { workerid_ := 1, state_ := .ready, services_ := crowd MAX_UUID }

theorem crowded_full (serviceid : UInt32) (h : crowded.Owns serviceid) :
    serviceid ∈ crowded.services_ := by
  obtain ⟨k, hpos, hmax, hid⟩ := h
  have heq : serviceid = UInt32.ofNat (2 ^ 24 + k) := by
    rw [← UInt32.ofNat_toNat (x := serviceid), hid]
    rfl
  rw [heq]
  exact mem_crowd hpos hmax

/-- The break leaves the inner loop only: a service is made under an id in use. -/
theorem not_findsId : ¬∀ (w : Worker) (c : Creation), w.FindsId c := by
  intro h
  have hstops := (h crowded (wanted true (ascii "a"))).stops crowded_full
  exact (makeService_eq_none_iff crowded (wanted true (ascii "a"))).mp hstops ⟨rfl, rfl⟩

end HappyServer.Services
