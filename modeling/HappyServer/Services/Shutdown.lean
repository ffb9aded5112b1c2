import HappyServer.Services.Host
import Mathlib.Data.List.Perm.Subperm

/-!
# A worker that stops (`worker::stop`, `worker::remove_service`)

`Station.Sound` is what holds of a worker between any two steps; `Station.Changed.sound` keeps it,
one case for each step of the thread, and `station_of_reach` brings it to all reachable states.

    exited → no service is left and count_ is 0        stopping → some service is left
    count_ is the number of services                   emplaced = left + erased, none erased twice
-/

namespace HappyServer.Services

open Server

/-- The order of a worker's states, in which `stopping` may be left out. -/
inductive State.Forward : State → State → Prop
  | same (s : State) : Forward s s
  | begin : Forward .init .ready
  | stop : Forward .ready .stopping
  | exit : Forward .ready .exited
  | settle : Forward .stopping .exited

namespace Station

variable {serverState : State} {t t' : Station}

/-! ## Ids -/

/-- A worker has no more services than ids. -/
theorem length_keys_le {w : Worker} (h : ∀ serviceid ∈ w.services_, ∃ res, serviceid = w.idOf res) :
    w.services_.keys.length ≤ MAX_UUID := by
  have hsub : w.services_.keys ⊆ (List.range MAX_UUID).map fun n =>
      (UInt32.ofNat n + 1) ||| (w.workerid_.toUInt32 <<< WORKER_ID_SHIFT) := by
    intro serviceid hmem
    obtain ⟨res, rfl⟩ := h serviceid (AList.mem_keys.mpr hmem)
    refine List.mem_map.mpr ⟨(res % 0xFFFF).toNat, List.mem_range.mpr ?_, ?_⟩
    · rw [UInt32.toNat_mod]
      exact Nat.mod_lt _ (by decide)
    · rw [UInt32.ofNat_toNat]
      rfl
  have hle := (List.subperm_of_subset w.services_.keys_nodup hsub).length_le
  rwa [List.length_map, List.length_range] at hle

/-! ## The invariant -/

structure Sound (t : Station) : Prop where
  known : t.worker.state_ ≠ .unknown
  born : t.worker.state_ = .init ↔ t.pc = .absent ∨ t.pc = .begun
  fresh : t.worker.state_ = .init → t.worker.services_.keys = []
  adding : ∀ a s number, t.pc = .adding a (some (s, number)) → t.worker.state_ = .ready ∧
    s.start_ = false ∧ (∃ res, s.id_ = t.worker.idOf res) ∧ number < t.inited ∧ number ∉ t.emplaced
  added : ∀ a serviceid, t.pc = .added a serviceid → t.worker.state_ = .ready
  ids : ∀ serviceid ∈ t.worker.services_, ∃ res, serviceid = t.worker.idOf res
  count : t.worker.count_.toNat = t.size
  numbers : ∀ serviceid ∈ t.worker.services_, ∀ other ∈ t.worker.services_,
    t.number serviceid = t.number other → serviceid = other
  live : ∀ serviceid ∈ t.worker.services_,
    t.number serviceid ∈ t.emplaced ∧ t.number serviceid ∉ t.erased
  emplaced_lt : ∀ number ∈ t.emplaced, number < t.inited
  emplaced_nodup : t.emplaced.Nodup
  erased_sub : t.erased ⊆ t.emplaced
  erased_nodup : t.erased.Nodup
  balance : t.emplaced.length = t.size + t.erased.length
  exited : t.worker.state_ = .exited → t.worker.services_.keys = []
  stopping : t.worker.state_ = .stopping → t.worker.services_.keys ≠ []
  exits_eq : t.exits = t.atStop
  exits_nodup : t.exits.Nodup
  quiet : t.worker.state_ = .init ∨ t.worker.state_ = .ready → t.exits = []

theorem sound_make (i : Nat) : Sound (make i) where
  known := nofun
  born := ⟨fun _ => .inl rfl, fun _ => rfl⟩
  fresh _ := rfl
  adding := fun _ _ _ h => nomatch h
  added := nofun
  ids := nofun
  count := rfl
  numbers := nofun
  live := nofun
  emplaced_lt := nofun
  emplaced_nodup := List.nodup_nil
  erased_sub := List.nil_subset _
  erased_nodup := List.nodup_nil
  balance := rfl
  exited := nofun
  stopping := nofun
  exits_eq := rfl
  exits_nodup := List.nodup_nil
  quiet _ := rfl

theorem Sound.size_le (h : Sound t) : t.size ≤ MAX_UUID := length_keys_le h.ids

theorem Sound.state_of_idle (h : Sound t) (hpc : t.pc = .idle) (hexited : t.worker.state_ ≠ .exited) :
    t.worker.state_ = .ready ∨ t.worker.state_ = .stopping := by
  have hinit : t.worker.state_ ≠ .init := by
    intro hinit
    rcases h.born.mp hinit with h' | h' <;> rw [hpc] at h' <;> cases h'
  have hknown := h.known
  cases hstate : t.worker.state_ with
  | unknown => exact absurd hstate hknown
  | init => exact absurd hstate hinit
  | ready => exact .inl rfl
  | stopping => exact .inr rfl
  | exited => exact absurd hstate hexited

/-- Which services were started does not matter. -/
theorem Sound.started (h : Sound t) (hfrom : StartedFrom t t') : Sound t' := by
  obtain ⟨services, starts, rfl, hperm⟩ := hfrom
  have hmem : ∀ {serviceid}, serviceid ∈ services → serviceid ∈ t.worker.services_ := fun hs =>
    AList.mem_keys.mpr (hperm.mem_iff.mp (AList.mem_keys.mp hs))
  have hnil : services.keys = [] ↔ t.worker.services_.keys = [] := by
    rw [← List.length_eq_zero_iff, ← List.length_eq_zero_iff, hperm.length_eq]
  refine { h with
    fresh := fun hs => hnil.mpr (h.fresh hs)
    ids := fun serviceid hs => h.ids serviceid (hmem hs)
    count := h.count.trans hperm.length_eq.symm
    numbers := fun _ hs _ ho => h.numbers _ (hmem hs) _ (hmem ho)
    live := fun _ hs => h.live _ (hmem hs)
    balance := ?_
    exited := fun hs => hnil.mpr (h.exited hs)
    stopping := fun hs => mt hnil.mp (h.stopping hs) }
  show t.emplaced.length = services.keys.length + t.erased.length
  rw [hperm.length_eq]
  exact h.balance

/-- The thread is between two tasks again. -/
theorem Sound.idle (h : Sound t) (hstate : t.worker.state_ ≠ .init) : Sound { t with pc := .idle } where
  __ := h
  born := ⟨fun hinit => absurd hinit hstate, by simp⟩
  adding := fun _ _ _ h => nomatch h
  added := nofun

theorem Sound.setQueue (h : Sound t) (queue : List Task) : Sound { t with queue := queue } :=
  { h with }

/-! ## The tasks -/

theorem Sound.create (h : Sound t) (hpc : t.pc = .idle) (unique : UniqueServices) (a : Ask) :
    Sound { t with
      worker := (t.worker.create unique a.creation).2.1
      pc := .adding a ((t.worker.create unique a.creation).1.map fun s => (s, t.inited))
      inited := if (t.worker.create unique a.creation).1.isSome then t.inited + 1 else t.inited } := by
  obtain ⟨⟨uuid, huuid⟩, hnew⟩ := create_spec t.worker unique a.creation
  have hinit : t.worker.state_ ≠ .init := by
    intro hinit
    rcases h.born.mp hinit with h' | h' <;> rw [hpc] at h' <;> cases h'
  rw [huuid]
  cases hs : (t.worker.create unique a.creation).1 with
  | none =>
    exact { h with
      born := ⟨fun h' => absurd h' hinit, by simp⟩
      adding := fun _ _ _ h => nomatch h
      added := nofun }
  | some s =>
    obtain ⟨hready, hstart, hid⟩ := hnew s hs
    refine { h with
      born := ⟨fun h' => absurd h' hinit, by simp⟩
      adding := ?_
      added := nofun
      emplaced_lt := fun number hnumber => Nat.lt_succ_of_lt (h.emplaced_lt number hnumber) }
    rintro _ _ _ ⟨⟩
    refine ⟨hready, hstart, hid, Nat.lt_succ_self _, fun hmem => ?_⟩
    exact Nat.lt_irrefl _ (h.emplaced_lt _ hmem)

theorem Sound.emplace {a : Ask} {new : Option (Service × Nat)} (h : Sound t)
    (hpc : t.pc = .adding a new) : Sound (t.emplace a new) := by
  have hinit : t.worker.state_ ≠ .init := by
    intro hinit
    rcases h.born.mp hinit with h' | h' <;> rw [hpc] at h' <;> cases h'
  by_cases hrefused : t.Refused new
  · rw [emplace_refused hrefused]
    exact { h with
      born := ⟨fun h' => absurd h' hinit, by simp⟩
      adding := fun _ _ _ h => nomatch h
      added := nofun }
  · obtain ⟨s, number, rfl, hfree⟩ := not_refused hrefused
    rw [emplace_added hfree]
    obtain ⟨hready, -, hid, hlt, hnew⟩ := h.adding _ _ _ hpc
    have hids : ∀ serviceid ∈ t.worker.services_.insert s.id_ { s with ok_ := true },
        ∃ res, serviceid = t.worker.idOf res := by
      intro serviceid hmem
      rcases (AList.mem_insert _).mp hmem with rfl | hmem
      · exact hid
      · exact h.ids serviceid hmem
    have hlength : (t.worker.services_.insert s.id_ { s with ok_ := true }).keys.length =
        t.size + 1 := length_insert hfree
    have hnumber : ∀ serviceid ∈ t.worker.services_,
        (Function.update t.origin s.id_ ⟨number, a.explicit⟩ serviceid).number = t.number serviceid := by
      intro serviceid hmem
      have hne : serviceid ≠ s.id_ := fun heq => hfree (heq ▸ hmem)
      rw [Function.update_of_ne hne]
      rfl
    have hself : (Function.update t.origin s.id_ ⟨number, a.explicit⟩ s.id_).number = number := by
      rw [Function.update_self]
    refine { h with
      born := ⟨fun h' => absurd h' hinit, by simp⟩
      fresh := fun h' => absurd h' hinit
      adding := fun _ _ _ h => nomatch h
      added := fun _ _ _ => hready
      ids := hids
      count := ?_
      numbers := ?_
      live := ?_
      emplaced_lt := ?_
      emplaced_nodup := ?_
      erased_sub := fun k hk => List.mem_append_left _ (h.erased_sub hk)
      balance := ?_
      exited := fun h' => absurd (hready.symm.trans h') (by decide)
      stopping := fun h' => absurd (hready.symm.trans h') (by decide) }
    · have hle : (t.worker.services_.insert s.id_ { s with ok_ := true }).keys.length ≤ MAX_UUID :=
        length_keys_le (w := { t.worker with
          services_ := t.worker.services_.insert s.id_ { s with ok_ := true } }) hids
      have hmax : MAX_UUID = 0xFFFF := rfl
      show (t.worker.count_ + 1).toNat = (t.worker.services_.insert _ _).keys.length
      rw [UInt32.toNat_add, h.count, hlength]
      show (t.size + 1) % 2 ^ 32 = t.size + 1
      omega
    · intro serviceid hmem other hother heq
      rcases (AList.mem_insert _).mp hmem with rfl | hmem
      · rcases (AList.mem_insert _).mp hother with rfl | hother
        · rfl
        · have : number = t.number other := hself.symm.trans (heq.trans (hnumber other hother))
          exact absurd (this ▸ (h.live other hother).1) hnew
      · rcases (AList.mem_insert _).mp hother with rfl | hother
        · have : t.number serviceid = number := (hnumber serviceid hmem).symm.trans (heq.trans hself)
          exact absurd (this ▸ (h.live serviceid hmem).1) hnew
        · refine h.numbers serviceid hmem other hother ?_
          exact (hnumber serviceid hmem).symm.trans (heq.trans (hnumber other hother))
    · intro serviceid hmem
      rcases (AList.mem_insert _).mp hmem with rfl | hmem
      · show (Function.update t.origin s.id_ ⟨number, a.explicit⟩ s.id_).number ∈ _ ∧
          (Function.update t.origin s.id_ ⟨number, a.explicit⟩ s.id_).number ∉ _
        rw [hself]
        exact ⟨List.mem_append_right _ (List.mem_singleton_self _), mt (@h.erased_sub _) hnew⟩
      · show (Function.update t.origin s.id_ ⟨number, a.explicit⟩ serviceid).number ∈ _ ∧
          (Function.update t.origin s.id_ ⟨number, a.explicit⟩ serviceid).number ∉ _
        rw [hnumber serviceid hmem]
        exact (h.live serviceid hmem).imp_left (List.mem_append_left _)
    · intro k hk
      rcases List.mem_append.mp hk with hk | hk
      · exact h.emplaced_lt k hk
      · rw [List.mem_singleton.mp hk]
        exact hlt
    · exact List.nodup_append.mpr ⟨h.emplaced_nodup, List.nodup_singleton _, by
        rintro k hk _ hk' rfl
        rw [List.mem_singleton.mp hk'] at hk
        exact hnew hk⟩
    · show (t.emplaced ++ [number]).length =
        (t.worker.services_.insert _ _).keys.length + t.erased.length
      have := h.balance
      rw [hlength, List.length_append, List.length_singleton]
      omega

theorem Sound.without (h : Sound t) (hpc : t.pc = .idle) (hexited : t.worker.state_ ≠ .exited)
    (serviceid : UInt32) : Sound { t with
      worker := Station.without t.worker serviceid
      erased := if serviceid ∈ t.worker.services_ then t.erased ++ [t.number serviceid]
        else t.erased } := by
  have hmem : ∀ {other}, other ∈ t.worker.services_.erase serviceid →
      other ≠ serviceid ∧ other ∈ t.worker.services_ := AList.mem_erase.mp
  have hsize : (t.worker.services_.erase serviceid).keys.length =
      if serviceid ∈ t.worker.services_ then t.size - 1 else t.size := length_erase _ _
  have hpos : serviceid ∈ t.worker.services_ → 0 < t.size := fun hin =>
    List.length_pos_of_ne_nil (keys_ne_nil hin)
  have hlast : serviceid ∈ t.worker.services_ → t.number serviceid ∉ t.erased := fun hin =>
    (h.live serviceid hin).2
  have hready := h.state_of_idle hpc hexited
  -- the worker settles, or keeps its state
  have hsettle : ∀ state, (Station.without t.worker serviceid).state_ = state →
      state = .exited ∧ (t.worker.services_.erase serviceid).keys = [] ∨
        state = t.worker.state_ ∧
          (state = .stopping → (t.worker.services_.erase serviceid).keys ≠ []) := by
    rintro _ rfl
    unfold Station.without
    dsimp only
    split
    next hcond => exact .inl ⟨rfl, hcond.1⟩
    next hcond => exact .inr ⟨rfl, fun hs hnil => hcond ⟨hnil, hs⟩⟩
  refine { h with
    known := fun hs => ?_, born := ⟨fun hs => ?_, by simp [hpc]⟩, fresh := fun hs => ?_
    adding := by simp [hpc], added := by simp [hpc]
    ids := fun other ho => h.ids other (hmem ho).2
    count := ?_
    numbers := fun _ hs _ ho => h.numbers _ (hmem hs).2 _ (hmem ho).2
    live := ?_, erased_sub := ?_, erased_nodup := ?_, balance := ?_
    exited := fun hs => ?_, stopping := fun hs => ?_, quiet := fun hs => ?_ }
  · rcases hsettle _ hs with ⟨h', -⟩ | ⟨h', -⟩
    · cases h'
    · exact h.known h'.symm
  · rcases hsettle _ hs with ⟨h', -⟩ | ⟨h', -⟩
    · cases h'
    · rw [← h'] at hready
      simp at hready
  · rcases hsettle _ hs with ⟨h', -⟩ | ⟨h', -⟩
    · cases h'
    · rw [← h'] at hready
      simp at hready
  · show (if serviceid ∈ t.worker.services_ then t.worker.count_ - 1 else t.worker.count_).toNat =
      (t.worker.services_.erase serviceid).keys.length
    rw [hsize]
    split
    next hin =>
      have hcount := h.count
      have := hpos hin
      have hone : 1 ≤ t.worker.count_ := UInt32.le_iff_toNat_le.mpr (by
        rw [hcount]
        exact this)
      rw [UInt32.toNat_sub_of_le _ _ hone, hcount]
      rfl
    next hout => exact h.count
  · intro other ho
    obtain ⟨hne, hin⟩ := hmem ho
    obtain ⟨hem, her⟩ := h.live other hin
    refine ⟨hem, ?_⟩
    show t.number other ∉ if serviceid ∈ t.worker.services_ then _ else _
    split
    next hthere =>
      rw [List.mem_append, List.mem_singleton, not_or]
      exact ⟨her, fun heq => hne (h.numbers other hin serviceid hthere heq)⟩
    next => exact her
  · show (if serviceid ∈ t.worker.services_ then t.erased ++ [t.number serviceid] else t.erased) ⊆ _
    split
    next hthere =>
      refine List.append_subset.mpr ⟨h.erased_sub, ?_⟩
      exact List.cons_subset.mpr ⟨(h.live serviceid hthere).1, List.nil_subset _⟩
    next => exact h.erased_sub
  · show (if serviceid ∈ t.worker.services_ then t.erased ++ [t.number serviceid] else t.erased).Nodup
    split
    next hthere =>
      refine List.nodup_append.mpr ⟨h.erased_nodup, List.nodup_singleton _, ?_⟩
      rintro k hk _ hk' rfl
      rw [List.mem_singleton.mp hk'] at hk
      exact hlast hthere hk
    next => exact h.erased_nodup
  · have hbalance := h.balance
    show t.emplaced.length = (t.worker.services_.erase serviceid).keys.length +
      (if serviceid ∈ t.worker.services_ then t.erased ++ [t.number serviceid] else t.erased).length
    rw [hsize]
    split
    next hthere =>
      have := hpos hthere
      rw [List.length_append, List.length_singleton]
      omega
    next => exact hbalance
  · rcases hsettle _ hs with ⟨-, hnil⟩ | ⟨h', -⟩
    · exact hnil
    · exact absurd h'.symm hexited
  · rcases hsettle _ hs with ⟨h', -⟩ | ⟨-, hnot⟩
    · cases h'
    · exact hnot rfl
  · rcases hs with hs | hs
    · rcases hsettle _ hs with ⟨h', -⟩ | ⟨h', -⟩
      · cases h'
      · exact h.quiet (.inl h'.symm)
    · rcases hsettle _ hs with ⟨h', -⟩ | ⟨h', -⟩
      · cases h'
      · exact h.quiet (.inr h'.symm)

theorem Sound.live_nodup (h : Sound t) : t.live.Nodup :=
  List.Nodup.map_on (fun serviceid hs other ho => h.numbers serviceid (AList.mem_keys.mpr hs) other
    (AList.mem_keys.mpr ho)) t.worker.services_.keys_nodup

theorem Sound.stop (h : Sound t) (hpc : t.pc = .idle) (hexited : t.worker.state_ ≠ .exited) :
    Sound t.stop := by
  have hready := h.state_of_idle hpc hexited
  rcases stop_cases t with ⟨-, hstop⟩ | ⟨⟨hstate, -⟩, hnil, hstop⟩ | ⟨⟨hstate, -⟩, hsome, hstop⟩
  · rw [hstop]
    exact h
  · rw [hstop]
    exact { h with
      known := nofun, born := ⟨nofun, by simp [hpc]⟩, fresh := nofun, adding := by simp [hpc]
      added := by simp [hpc], exited := fun _ => hnil, stopping := nofun, quiet := nofun }
  · have hquiet := h.quiet (.inr (hready.resolve_right hstate))
    rw [hstop]
    refine { h with
      known := nofun, born := ⟨nofun, by simp [hpc]⟩, fresh := nofun, adding := by simp [hpc]
      added := by simp [hpc], exited := nofun, stopping := fun _ => hsome, quiet := nofun
      exits_eq := ?_, exits_nodup := ?_ }
    · show t.exits ++ t.live = t.live
      rw [hquiet, List.nil_append]
    · show (t.exits ++ t.live).Nodup
      rw [hquiet, List.nil_append]
      exact h.live_nodup

/-! ## Every change -/

theorem Worked.sound (hwork : Worked serverState t t') (h : Sound t) : Sound t' := by
  cases hwork with
  | begin hpc =>
    have hinit : t.worker.state_ = .init := h.born.mpr (.inr hpc)
    exact { h with
      known := nofun, born := ⟨nofun, by simp⟩, fresh := nofun
      adding := fun _ _ _ h => nomatch h
      added := nofun
      exited := nofun, stopping := nofun, quiet := fun _ => h.quiet (.inl hinit) }
  | @create a queue unique hpc hstate hqueue => exact (h.setQueue queue).create hpc unique a
  | @remove serviceid _ _ queue _ _ _ hpc hstate hqueue hremove =>
    rw [removeService_worker hremove]
    exact (h.setQueue queue).without hpc hstate serviceid
  | @stop queue hpc hstate hqueue => exact (h.setQueue queue).stop hpc hstate
  | @start queue hpc hstate hqueue => exact (h.setQueue queue).started (start_from _)
  | other hpc hstate hqueue => exact h.setQueue _
  | emplace hpc => exact h.emplace hpc
  | @look a serviceid hpc =>
    have hready := h.added _ _ hpc
    obtain ⟨services, starts, heq, -⟩ := look_from serverState t serviceid
    refine (h.started (look_from serverState t serviceid)).idle ?_
    rw [heq]
    exact fun hinit => absurd (hready.symm.trans hinit) (by decide)

theorem Changed.sound (hchanged : Changed serverState t t') (h : Sound t) : Sound t' := by
  cases hchanged with
  | same => exact h
  | begin hpc =>
    have hinit := h.born.mpr (.inl hpc)
    exact { h with
      born := ⟨fun _ => .inr rfl, fun _ => hinit⟩
      adding := fun _ _ _ h => nomatch h
      added := nofun }
  | claim => exact { h with }
  | post task => exact { h with }
  | work hwork => exact hwork.sound h

/-! ## What a step may do -/

/-- A step leaves the state, or takes it on; one that begins to stop tells the services there are. -/
theorem Worked.moved (hwork : Worked serverState t t') (h : Sound t) :
    t'.worker.state_ = t.worker.state_ ∨ State.Forward t.worker.state_ t'.worker.state_ ∧
      (t'.worker.state_ = .stopping → t'.atStop = t.live) := by
  cases hwork with
  | begin hpc =>
    rw [h.born.mpr (.inr hpc)]
    exact .inr ⟨.begin, nofun⟩
  | @create a queue unique hpc hstate hqueue =>
    obtain ⟨⟨uuid, huuid⟩, -⟩ := create_spec t.worker unique a.creation
    rw [huuid]
    exact .inl rfl
  | remove hpc hstate hqueue hremove =>
    rw [removeService_worker hremove]
    unfold Station.without
    dsimp only
    split
    next hcond =>
      rw [hcond.2]
      exact .inr ⟨.settle, nofun⟩
    next => exact .inl rfl
  | @stop queue hpc hstate hqueue =>
    have hready := h.state_of_idle hpc hstate
    rcases stop_cases { t with queue := queue } with
      ⟨-, hstop⟩ | ⟨⟨hs, -⟩, -, hstop⟩ | ⟨⟨hs, -⟩, -, hstop⟩
    · rw [hstop]
      exact .inl rfl
    · rw [hstop, show t.worker.state_ = .ready from hready.resolve_right hs]
      exact .inr ⟨.exit, nofun⟩
    · rw [hstop, show t.worker.state_ = .ready from hready.resolve_right hs]
      exact .inr ⟨.stop, fun _ => rfl⟩
  | @start queue hpc hstate hqueue =>
    obtain ⟨services, starts, heq, -⟩ := start_from { t with queue := queue }
    rw [heq]
    exact .inl rfl
  | other hpc hstate hqueue => exact .inl rfl
  | @emplace a new hpc =>
    by_cases hrefused : t.Refused new
    · rw [emplace_refused hrefused]
      exact .inl rfl
    · obtain ⟨s, number, rfl, hfree⟩ := not_refused hrefused
      rw [emplace_added hfree]
      exact .inl rfl
  | @look a serviceid hpc =>
    obtain ⟨services, starts, heq, -⟩ := look_from serverState t serviceid
    rw [heq]
    exact .inl rfl

/-- A worker that is stopping takes no service. -/
theorem Worked.closed (hwork : Worked serverState t t') (h : Sound t)
    (hstate : t.worker.state_ = .stopping ∨ t.worker.state_ = .exited) : t'.emplaced = t.emplaced := by
  cases hwork with
  | @stop queue hpc hexited hqueue =>
    obtain ⟨state, atStop, exits, heq⟩ := stop_from { t with queue := queue }
    rw [heq]
  | @start queue hpc hexited hqueue =>
    obtain ⟨services, starts, heq, -⟩ := start_from { t with queue := queue }
    rw [heq]
  | @emplace a new hpc =>
    have hrefused : t.Refused new := by
      rintro s number rfl
      have hready := (h.adding _ _ _ hpc).1
      rw [hready] at hstate
      simp at hstate
    rw [emplace_refused hrefused]
  | @look a serviceid hpc =>
    have hready := h.added _ _ hpc
    rw [hready] at hstate
    simp at hstate
  | _ => rfl

structure Orderly (t t' : Station) : Prop where
  forward : State.Forward t.worker.state_ t'.worker.state_
  closed : t.worker.state_ = .stopping ∨ t.worker.state_ = .exited → t'.emplaced = t.emplaced
  entering : t.worker.state_ ≠ .stopping → t'.worker.state_ = .stopping → t'.atStop = t.live

theorem Changed.orderly (hchanged : Changed serverState t t') (h : Sound t) : Orderly t t' := by
  cases hchanged with
  | work hwork =>
    rcases hwork.moved h with hsame | ⟨hforward, hentering⟩
    · refine ⟨?_, hwork.closed h, fun hs hs' => absurd (hsame ▸ hs') hs⟩
      rw [hsame]
      exact .same _
    · exact ⟨hforward, hwork.closed h, fun _ => hentering⟩
  | _ => exact ⟨.same _, fun _ => rfl, fun hs hs' => absurd hs' hs⟩

end Station

/-! ## Every run -/

namespace Host

variable {router : Router} {ι : Type} [DecidableEq ι] {configs : List Request} {s : Host router ι}

theorem sound_of_reach (h : (host router ι configs).Reach s) (i : Fin router.workers) :
    (s.station i).Sound :=
  station_of_reach Station.sound_make (fun _ _ _ ht hchanged => hchanged.sound ht) h i

theorem keys_eq_nil {services : AList fun _ : UInt32 => Service} :
    services.keys = [] ↔ services = ∅ := by
  refine ⟨fun h => AList.ext (List.map_eq_nil_iff.mp h), ?_⟩
  rintro rfl
  rfl

theorem shutdown (h : (host router ι configs).Reach s) (i : Fin router.workers) :
    let t := s.station i
    (t.worker.state_ = .exited → t.worker.services_ = ∅ ∧ t.worker.count_ = 0) ∧
    (t.worker.state_ = .stopping → t.worker.services_ ≠ ∅) ∧
    t.worker.count_.toNat = t.size ∧
    t.worker.count_.toNat + t.erased.length = t.emplaced.length ∧ t.erased.Nodup ∧
    t.exits = t.atStop ∧ (∀ number ∈ t.atStop, t.exits.count number = 1) ∧
    ∀ a s', step configs s a = some s' → t.Orderly (s'.station i) := by
  intro t
  have hsound : t.Sound := sound_of_reach h i
  refine ⟨fun hs => ⟨keys_eq_nil.mp (hsound.exited hs), ?_⟩,
    fun hs => mt keys_eq_nil.mpr (hsound.stopping hs), hsound.count, ?_, hsound.erased_nodup, hsound.exits_eq, fun number hnumber => ?_,
    fun a s' hstep => ((step_cases hstep).changed i).orderly hsound⟩
  · apply UInt32.toNat_inj.mp
    rw [hsound.count, Station.size, hsound.exited hs]
    rfl
  · rw [hsound.count]
    exact hsound.balance.symm
  · exact List.count_eq_one_of_mem hsound.exits_nodup (hsound.exits_eq ▸ hnumber)

/-- The server is stopped while its worker has a service, which is then removed. -/
theorem shutdown_one : ∃ s : Host oneWorker Unit, (host oneWorker Unit [anywhere]).Reach s ∧
    (s.station onlyWorker).exits = [0] ∧ (s.station onlyWorker).erased = [0] ∧
    (s.station onlyWorker).worker.services_ = ∅ ∧ (s.station onlyWorker).worker.count_ = 0 := by
  obtain ⟨s, hrun, hs⟩ := Option.map_eq_some_iff.mp (show
    (run [anywhere] (oneAdded ++ [.work onlyWorker fun _ => 0, .stop (), .proceed (some ()),
      .work onlyWorker fun _ => 0, .post onlyWorker (.removeService 0x01000001 0 0),
      .work onlyWorker fun _ => 0])).map (fun s => ((s.station onlyWorker).worker.state_,
      (s.station onlyWorker).exits, (s.station onlyWorker).erased)) = some (.exited, [0], [0]) by
    decide +kernel)
  obtain ⟨hexited, hs⟩ := Prod.mk.inj hs
  obtain ⟨hexits, herased⟩ := Prod.mk.inj hs
  have hreach := reach_run hrun
  obtain ⟨hempty, hcount⟩ := (shutdown hreach onlyWorker).1 hexited
  exact ⟨s, hreach, hexits, herased, hempty, hcount⟩

end Host

end HappyServer.Services
