import HappyServer.Services.Worker

/-!
# Creations that fail (`worker::add_service`, `router::new_service`)

* `Passes`: the service is made and its `init` succeeds, with any id.
* `Worker.Exhausted`: the loop tries no id that is free, and its `break` leaves the loop only.

    no trace is left ↔ the shared flag said whether the worker had no service, and
      no unique service was registered under an id in use, …                    (noTrace_iff)
-/

namespace HappyServer.Services

open Server

variable {router : Router} {w : Worker} {unique : UniqueServices} {c : Creation} {serverState : State}

/-! ## The search for an id -/

/-- The id that is tried after `k` others. -/
def Worker.candidate (w : Worker) (k : Nat) : UInt32 := w.idOf (w.uuid_ + UInt32.ofNat k)

/-- Every id that is tried is in use. -/
def Worker.Exhausted (w : Worker) : Prop := ∀ k < MAX_UUID, w.candidate k ∈ w.services_

theorem candidate_zero (w : Worker) : w.candidate 0 = w.idOf w.uuid_ :=
  congrArg w.idOf (UInt32.add_zero w.uuid_)

theorem candidate_succ (w : Worker) (k : Nat) :
    ({ w with uuid_ := w.uuid_ + 1 } : Worker).candidate k = w.candidate (k + 1) := by
  show w.idOf (w.uuid_ + 1 + UInt32.ofNat k) = w.idOf (w.uuid_ + UInt32.ofNat (k + 1))
  congr 1
  rw [UInt32.ofNat_add, UInt32.add_assoc, UInt32.add_comm 1]
  rfl

theorem search_in_use {n : Nat} {last : UInt32} (h : w.candidate 0 ∈ w.services_) :
    w.search (n + 1) last =
      ({ w with uuid_ := w.uuid_ + 1 } : Worker).search n (w.candidate 0) := by
  rw [candidate_zero] at h ⊢
  exact if_pos h

theorem search_free {n : Nat} {last : UInt32} (h : w.candidate 0 ∉ w.services_) :
    w.search (n + 1) last = (w.candidate 0, { w with uuid_ := w.uuid_ + 1 }) := by
  rw [candidate_zero] at h ⊢
  exact if_neg h

/-- The search ends at the first candidate that is free, or else at the last one. -/
theorem search_spec (n : Nat) (last : UInt32) (w : Worker) :
    (∃ uuid, (w.search (n + 1) last).2 = { w with uuid_ := uuid }) ∧
      (∃ k ≤ n, (w.search (n + 1) last).1 = w.candidate k) ∧
      ((w.search (n + 1) last).1 ∈ w.services_ ↔ ∀ k ≤ n, w.candidate k ∈ w.services_) := by
  induction n generalizing last w with
  | zero =>
    have heq : w.search 1 last = (w.candidate 0, { w with uuid_ := w.uuid_ + 1 }) := by
      by_cases h : w.candidate 0 ∈ w.services_
      · exact search_in_use h
      · exact search_free h
    rw [heq]
    refine ⟨⟨_, rfl⟩, ⟨0, Nat.le_refl 0, rfl⟩, fun h k hk => ?_, fun h => h 0 (Nat.le_refl 0)⟩
    rwa [Nat.le_zero.mp hk]
  | succ n ih =>
    by_cases h : w.candidate 0 ∈ w.services_
    · rw [search_in_use h]
      obtain ⟨⟨uuid, huuid⟩, ⟨k, hk, hid⟩, hiff⟩ := ih (w.candidate 0) { w with uuid_ := w.uuid_ + 1 }
      refine ⟨⟨uuid, huuid⟩, ⟨k + 1, Nat.succ_le_succ hk, hid.trans (candidate_succ w k)⟩,
        hiff.trans ⟨fun hall k hk => ?_, fun hall k hk => ?_⟩⟩
      · cases k with
        | zero => exact h
        | succ k => exact candidate_succ w k ▸ hall k (Nat.le_of_succ_le_succ hk)
      · rw [candidate_succ]
        exact hall (k + 1) (Nat.succ_le_succ hk)
    · rw [search_free h]
      exact ⟨⟨_, rfl⟩, ⟨0, Nat.zero_le _, rfl⟩, iff_of_false h fun hall => h (hall 0 (Nat.zero_le _))⟩

/-- The id of the next service, and the worker after the search. -/
theorem search_max (w : Worker) :
    (∃ uuid, (w.search MAX_UUID 0).2 = { w with uuid_ := uuid }) ∧
      (∃ k, (w.search MAX_UUID 0).1 = w.candidate k) ∧
      ((w.search MAX_UUID 0).1 ∈ w.services_ ↔ w.Exhausted) := by
  obtain ⟨huuid, ⟨k, -, hid⟩, hiff⟩ := search_spec 0xFFFE 0 w
  refine ⟨huuid, ⟨k, hid⟩, hiff.trans ?_⟩
  exact ⟨fun h k hk => h k (Nat.le_of_lt_succ hk), fun h k hk => h k (Nat.lt_succ_of_le hk)⟩

/-! ## The two halves -/

/-- The worker makes the service, and its `init` succeeds. -/
def Passes (w : Worker) (unique : UniqueServices) (c : Creation) : Prop :=
  w.state_ = .ready ∧ c.registered = true ∧ c.loads = true ∧
    (c.unique = true → c.name ≠ [] ∧ c.name ∉ unique)

/-- The service that a creation makes with this id. -/
def Creation.service (c : Creation) (serviceid : UInt32) : Service :=
  { id_ := serviceid, name_ := c.name, unique_ := c.unique, ok_ := true }

theorem create_passes (h : Passes w unique c) :
    w.create unique c = (some (c.service (w.search MAX_UUID 0).1), (w.search MAX_UUID 0).2,
      if c.unique then unique.insert c.name (w.search MAX_UUID 0).1 else unique) := by
  obtain ⟨hready, hregistered, hloads, hname⟩ := h
  unfold Worker.create Service.init
  rw [if_neg (not_not.mpr hready), hregistered, hloads]
  cases hunique : c.unique with
  | false => simp [Creation.service, hunique]
  | true =>
    obtain ⟨hne, hfree⟩ := hname hunique
    have hset : ∀ v, setUniqueService unique c.name v = some (unique.insert c.name v) := fun v =>
      (if_neg hne).trans (if_neg hfree)
    simp [Creation.service, hunique, hset]

theorem create_fails (h : ¬Passes w unique c) :
    ∃ uuid, w.create unique c = (none, { w with uuid_ := uuid }, unique) := by
  obtain ⟨⟨uuid, huuid⟩, -⟩ := search_max w
  unfold Worker.create Service.init
  by_cases hready : w.state_ = .ready
  · rw [if_neg (not_not.mpr hready)]
    refine ⟨uuid, ?_⟩
    rw [← huuid]
    cases hregistered : c.registered with
    | false => rfl
    | true =>
      cases hloads : c.loads with
      | false => rfl
      | true =>
        cases hunique : c.unique with
        | false =>
          have hnot : c.unique = true → c.name ≠ [] ∧ c.name ∉ unique := fun h =>
            Bool.noConfusion (h.symm.trans hunique)
          exact absurd ⟨hready, hregistered, hloads, hnot⟩ h
        | true =>
          have hset : ∀ v, setUniqueService unique c.name v = none := by
            intro v
            unfold setUniqueService
            split
            · rfl
            next hne =>
              split
              · rfl
              next hfree => exact absurd ⟨hready, hregistered, hloads, fun _ => ⟨hne, hfree⟩⟩ h
          simp [hset]
  · rw [if_pos hready]
    exact ⟨w.uuid_, rfl⟩

/-- The task ends without a new service: no service is made, its `init` fails, or its id is in
use. -/
def Worker.AddsNone (serverState : State) (w : Worker) (unique : UniqueServices) (c : Creation) : Prop :=
  (w.create unique c).1.bind ((w.create unique c).2.1.add serverState) = none

theorem addsNone_iff :
    w.AddsNone serverState unique c ↔ ¬Passes w unique c ∨ w.Exhausted := by
  unfold Worker.AddsNone
  by_cases h : Passes w unique c
  · obtain ⟨⟨uuid, huuid⟩, -, hiff⟩ := search_max w
    rw [create_passes h, huuid]
    show Worker.add { w with uuid_ := uuid } serverState _ = none ↔ _
    unfold Worker.add
    simp only [h, not_true_eq_false, false_or]
    rw [← hiff]
    by_cases hin : (w.search MAX_UUID 0).1 ∈ w.services_
    · exact iff_of_true (if_pos hin) hin
    · refine iff_of_false (fun hnone => ?_) hin
      have hsome := (if_neg hin).symm.trans hnone
      cases hsome
  · obtain ⟨uuid, hcreate⟩ := create_fails h
    rw [hcreate]
    exact iff_of_true rfl (.inl h)

/-- What a task leaves that ends without a new service. -/
theorem finish_fails (fresh : Nat → UInt8) (router : Router)
    (h : w.AddsNone serverState unique c) :
    ∃ uuid, (w.create unique c).2.1.finish fresh router serverState c (w.create unique c).1 =
      ({ w with uuid_ := uuid, shared_ := w.isEmpty }, answer fresh router c (ascii "0")) := by
  have hsame : ∃ uuid, (w.create unique c).2.1 = { w with uuid_ := uuid } := by
    by_cases hpasses : Passes w unique c
    · rw [create_passes hpasses]
      exact (search_max w).1
    · obtain ⟨uuid, hcreate⟩ := create_fails hpasses
      rw [hcreate]
      exact ⟨uuid, rfl⟩
  obtain ⟨uuid, huuid⟩ := hsame
  unfold Worker.AddsNone at h
  unfold Worker.finish
  rw [huuid] at h ⊢
  have hnone : ((w.create unique c).1.bind fun s =>
      (Worker.add { w with uuid_ := uuid } serverState s).map fun w => (s.id_, w)) = none := by
    cases hs : (w.create unique c).1 with
    | none => rfl
    | some s =>
      rw [hs] at h
      exact Option.map_eq_none_iff.mpr h
  rw [hnone]
  exact ⟨uuid, rfl⟩

/-! ## No trace -/

/-- Exactly one answer goes to the one who asked, and it is "0". -/
def Told (c : Creation) (reply : Option Sent) : Prop :=
  ∃ m : Message, reply = some (.worker (workerId c.creatorid) m) ∧ m.receiver_ = c.creatorid ∧
    m.sessionid_ = c.sessionid ∧ m.type_ = PTYPE_TEXT ∧ m.bytes = ascii "0"

structure NoTrace (before after : Core router) (i : Fin router.workers) (c : Creation)
    (reply : Option Sent) : Prop where
  services : (after.workers_ i).services_ = (before.workers_ i).services_
  count : (after.workers_ i).count_ = (before.workers_ i).count_
  shared : (after.workers_ i).shared_ = (before.workers_ i).shared_
  unique : after.unique_services_ = before.unique_services_
  told : c.creatorid ≠ 0 → c.sessionid ≠ 0 → Told c reply

theorem told_iff (fresh : Nat → UInt8) :
    (c.creatorid ≠ 0 → c.sessionid ≠ 0 → Told c (answer fresh router c (ascii "0"))) ↔
      c.creatorid = 0 ∨ c.sessionid = 0 ∨ router.workeridValid (workerId c.creatorid) = true := by
  by_cases hcreator : c.creatorid = 0
  · exact iff_of_true (fun h => absurd hcreator h) (.inl hcreator)
  by_cases hsession : c.sessionid = 0
  · exact iff_of_true (fun _ h => absurd hsession h) (.inr (.inl hsession))
  have hanswer : answer fresh router c (ascii "0") =
      router.response fresh c.creatorid [] (ascii "0") c.sessionid PTYPE_TEXT := if_pos hsession
  rw [hanswer]
  constructor
  · intro h
    obtain ⟨m, hreply, -⟩ := h hcreator hsession
    have hsent : (Sent.delivered (router.response fresh c.creatorid [] (ascii "0") c.sessionid
        PTYPE_TEXT)).isSome = true := by
      rw [hreply]
      rfl
    exact .inr (.inr (delivered_response.mp hsent).2.2.2)
  · rintro (h | h | hvalid)
    · exact absurd h hcreator
    · exact absurd h hsession
    · intro _ _
      obtain ⟨m, hreply, htype, hreceiver, hsession', hdata⟩ := response_eq router fresh []
        (ascii "0") hcreator hsession (show PTYPE_TEXT ≠ PTYPE_UNKNOWN by decide) hvalid
      obtain ⟨b, hb, hsound⟩ := createBuffer_sound fresh
        (show (ascii "0").length + BUFFER_HEAD_RESERVED < 2 ^ 63 by decide +kernel)
      refine ⟨m, hreply, hreceiver, hsession', htype, ?_⟩
      unfold Message.bytes
      rw [hdata, hb]
      exact hsound.holds.readable hsound.ordered

theorem newService_worker (core : Core router) (workerid : Int32) :
    (core.newService workerid).2.unique_services_ = core.unique_services_ ∧
      ∃ shared, (core.newService workerid).2.workers_ (core.newService workerid).1 =
        { core.workers_ (core.newService workerid).1 with shared_ := shared } := by
  unfold Core.newService
  split
  · exact ⟨rfl, false, Function.update_self _ _ _⟩
  · unfold Core.nextWorker
    dsimp only
    split <;> exact ⟨rfl, _, rfl⟩

/-- A creation that comes to the registration changes the registry. -/
theorem create_unique : (w.create unique c).2.2 = unique ↔ ¬(c.unique = true ∧ Passes w unique c) := by
  by_cases hpasses : Passes w unique c
  · rw [create_passes hpasses]
    cases hunique : c.unique with
    | false => simp
    | true =>
      obtain ⟨-, hfree⟩ := hpasses.2.2.2 hunique
      refine iff_of_false (fun heq => hfree ?_) (not_not.mpr ⟨rfl, hpasses⟩)
      have hmem : c.name ∈ unique.insert c.name (w.search MAX_UUID 0).1 :=
        (AList.mem_insert _).mpr (.inl rfl)
      exact heq ▸ hmem
  · obtain ⟨uuid, hcreate⟩ := create_fails hpasses
    rw [hcreate]
    exact iff_of_true rfl fun h => hpasses h.2

/-- A failed creation leaves no trace exactly when the shared flag was what it is set to, no name was
registered for an id in use, and the one who asked is on a worker. -/
theorem noTrace_iff (fresh : Nat → UInt8) (router : Router) (serverState : State) (core : Core router)
    (workerid : Int32) (c : Creation)
    (hfails : ((core.newService workerid).2.workers_ (core.newService workerid).1).AddsNone serverState
      (core.newService workerid).2.unique_services_ c) :
    let i := (core.newService workerid).1
    let r := (core.newService workerid).2.addService fresh serverState i c
    NoTrace core r.1 i c r.2 ↔
      (core.workers_ i).shared_ = (core.workers_ i).isEmpty ∧
        ¬(c.unique = true ∧ Passes (core.workers_ i) core.unique_services_ c) ∧
        (c.creatorid = 0 ∨ c.sessionid = 0 ∨ router.workeridValid (workerId c.creatorid) = true) := by
  intro i r
  obtain ⟨hunique, shared, hworker⟩ := newService_worker core workerid
  rw [← told_iff fresh]
  obtain ⟨uuid, hfinish⟩ := finish_fails fresh router hfails
  have hafter : r.1.workers_ i =
      { core.workers_ i with uuid_ := uuid, shared_ := (core.workers_ i).isEmpty } := by
    refine (Function.update_self _ _ _).trans ((congrArg Prod.fst hfinish).trans ?_)
    rw [hworker]
    rfl
  have hreply : r.2 = answer fresh router c (ascii "0") := congrArg Prod.snd hfinish
  have hregistry : r.1.unique_services_ = core.unique_services_ ↔
      ¬(c.unique = true ∧ Passes (core.workers_ i) core.unique_services_ c) := by
    show (((core.newService workerid).2.workers_ i).create (core.newService workerid).2.unique_services_
      c).2.2 = core.unique_services_ ↔ _
    rw [hworker, hunique]
    exact create_unique
  rw [← hregistry]
  constructor
  · rintro ⟨-, -, h3, h4, h5⟩
    rw [hafter] at h3
    exact ⟨h3.symm, h4, hreply ▸ h5⟩
  · rintro ⟨h3, h4, h5⟩
    refine ⟨?_, ?_, ?_, h4, hreply ▸ h5⟩
    · rw [hafter]
    · rw [hafter]
    · rw [hafter]
      exact h3.symm

/-! ## A shared worker -/

/-- A service of this type, configuration and name, for the service 1 of the only worker. -/
def wanted (registered : Bool) (name : List UInt8) : Creation :=
  ⟨registered, true, name, false, 0x01000001, 7⟩

/-- The only worker has one service. -/
def hosting : Core oneWorker :=
  (((Core.start oneWorker).newService 0).2.addService (fun _ => 0) .ready onlyWorker
    (wanted true (ascii "a"))).1

/-- A unique service that is to run on the worker 1 only. -/
def wantedUnique : Creation := ⟨true, true, ascii "a", true, 0x01000001, 7⟩

/-- The only worker has one service, which asked for it. -/
def exclusive : Core oneWorker :=
  (((Core.start oneWorker).newService 1).2.addService (fun _ => 0) .ready onlyWorker wantedUnique).1

/-- The name of a service that the worker has is asked for once more. -/
theorem noTrace_taken : (exclusive.workers_ onlyWorker).isEmpty = false ∧
    ascii "a" ∈ exclusive.unique_services_ ∧
    NoTrace exclusive
      ((exclusive.newService 1).2.addService (fun _ => 0) .ready onlyWorker wantedUnique).1 onlyWorker
      wantedUnique
      ((exclusive.newService 1).2.addService (fun _ => 0) .ready onlyWorker wantedUnique).2 := by
  have htaken : ascii "a" ∈ exclusive.unique_services_ := by decide +kernel
  have hempty : (exclusive.workers_ onlyWorker).isEmpty = false := by decide +kernel
  have hshared : (exclusive.workers_ onlyWorker).shared_ = false := by decide +kernel
  have hpasses : ∀ w, ¬Passes w exclusive.unique_services_ wantedUnique := fun w h =>
    (h.2.2.2 rfl).2 htaken
  refine ⟨hempty, htaken, (noTrace_iff (fun _ => 0) oneWorker .ready exclusive 1 wantedUnique
    (addsNone_iff.mpr (.inl (hpasses _)))).mpr ⟨hshared.trans hempty.symm, fun h => hpasses _ h.2,
      .inr (.inr (by decide))⟩⟩

/-- The worker that has a service is not shared any more once a creation on it has failed. -/
theorem not_noTrace : ¬∀ (fresh : Nat → UInt8) (router : Router) (serverState : State)
    (core : Core router) (workerid : Int32) (c : Creation),
    ((core.newService workerid).2.workers_ (core.newService workerid).1).AddsNone serverState
      (core.newService workerid).2.unique_services_ c →
    NoTrace core ((core.newService workerid).2.addService fresh serverState
      (core.newService workerid).1 c).1 (core.newService workerid).1 c
      ((core.newService workerid).2.addService fresh serverState (core.newService workerid).1 c).2 := by
  intro h
  have hshared := (h (fun _ => 0) oneWorker .ready hosting 0 (wanted false (ascii "b"))
    (addsNone_iff.mpr (.inl fun h => Bool.noConfusion h.2.1))).shared
  exact absurd hshared (by decide +kernel)

end HappyServer.Services
