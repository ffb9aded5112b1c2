import HappyServer.Lib.Refines
import HappyServer.Timer.Census

/-!
# Timers of services that are gone (`core/worker.cpp`, `magic/lua_bind.cpp`)

The timers of a worker with its services: `worker::init` sets an `on_timer` that looks the service up, and
removes the timer if there is none.  Nothing else removes the timers of a service that is destroyed.

* `Script`: what a service does to the timers when it is called; Lua's `repeated` arms a timer of the
  service's own.  The assertion on `times` in `repeat` holds.
* `told` is not in the source: the calls of `service::on_timer`.
* `Since sid c₀ c`: what of `c₀`, where `sid` was gone, is left of its timers in `c`.

    sid is not told, and of its timers, each expires twice at most and is erased      (departed_timers)
-/

namespace HappyServer.Timer

open WorkerTimer System

variable {ω : Type}

/-- `inner`: what the services themselves keep. -/
structure Services (ω : Type) where
  services_ : UInt32 → Bool := fun _ => false
  told : List (UInt32 × TimerId × Bool) := []
  inner : ω

inductive Script (ω : Type) where
  | done (inner : ω)
  | repeated (duration times : Int32) (h : times < times_mask) (next : TimerId → Script ω)
  | removeTimer (id : TimerId) (next : Script ω)

/-- The script of the service `serviceid`. -/
def Script.prog (s : Services ω) (serviceid : UInt32) : Script ω → Prog (Services ω)
  | .done inner => .done { s with inner := inner }
  | .repeated duration times _ next =>
    .repeatTimer duration times serviceid fun id => (next id).prog s serviceid
  | .removeTimer id next => .remove id (next.prog s serviceid)

/-- What `service::on_timer` does. -/
abbrev ServiceTimer (ω : Type) := ω → (serviceid : UInt32) → TimerId → (remove : Bool) → Script ω

/-- The function that `worker::init` gives to `set_on_timer`. -/
def workerOnTimer (f : ServiceTimer ω) : Handler (Services ω) := fun s timerid serviceid remove =>
  if s.services_ serviceid then
    (f s.inner serviceid timerid remove).prog
      { s with told := s.told ++ [(serviceid, timerid, remove)] } serviceid
  else .remove timerid (.done s)

abbrev Timers (ω : Type) := BaseTimer (WorkerTimer (Services ω))

/-- What happens on a worker. -/
inductive WorkerAction where
  /-- `timer_.update()` -/
  | update
  /-- a service runs a script -/
  | service (serviceid : UInt32)
  | addService (serviceid : UInt32)
  | removeService (serviceid : UInt32)
deriving DecidableEq

def Timers.setService (s : Timers ω) (serviceid : UInt32) (live : Bool) : Timers ω :=
  { s with child := { s.child with world := { s.child.world with
      services_ := Function.update s.child.world.services_ serviceid live } } }

inductive WorkerStep (f : ServiceTimer ω) : Timers ω → WorkerAction → Timers ω → Prop
  | update {s s' fuel now_tick old_tick ticks} :
      s.update (onTimer (workerOnTimer f)) fuel now_tick = some (s', old_tick, ticks) →
      WorkerStep f s .update s'
  | service {s serviceid c armed} (script : Script ω) : s.child.world.services_ serviceid = true →
      (script.prog s.child.world serviceid).run s.child = some (c, armed) →
      WorkerStep f s (.service serviceid) ({ s with child := c }.insertAll armed)
  | addService {s} (serviceid) : WorkerStep f s (.addService serviceid) (s.setService serviceid true)
  | removeService {s} (serviceid) :
      WorkerStep f s (.removeService serviceid) (s.setService serviceid false)

/-- `worker::init` is over. -/
def workerTimers (f : ServiceTimer ω) : System (Timers ω) WorkerAction where
  start s := ∃ inner, s = { child := { world := { inner := inner }, onTimerSet := true } }
  step := WorkerStep f

/-! ## Entries -/

/-- The count of an entry means something. -/
def WorkerTimerContext.Sound (ctx : WorkerTimerContext) : Prop :=
  ctx.hasFlag .infinite = true ∨ 0 < ctx.left

/-- Of the ids with `P`. -/
def Sound (P : TimerId → Prop) (c : WorkerTimer (Services ω)) : Prop :=
  ∀ id, P id → ∀ ctx, c.timers id = some ctx → ctx.Sound

theorem sound_armed {ctx : WorkerTimerContext} {times : Int32} (hmask : times < times_mask)
    (h : ctx.times = if times ≤ 0 then Flag.infinite.value else times) : ctx.Sound := by
  have halive := alive_armed times ctx hmask h
  by_cases ht : times ≤ 0
  · exact .inl (halive.infinite.mpr ht)
  · exact .inr (halive.count (Int32.not_le.mp ht)).1

theorem sound_setFlag {ctx : WorkerTimerContext} (h : ctx.Sound) : (ctx.setFlag .removed).Sound := by
  unfold WorkerTimerContext.Sound at *
  rw [WorkerTimerContext.hasFlag_setFlag, WorkerTimerContext.left_setFlag]
  simpa using h

section Sound

variable {P : TimerId → Prop} {c c' : WorkerTimer (Services ω)} {id : TimerId} {serviceid : UInt32}
  {remove : Bool} {f : ServiceTimer ω} {armed : List (Int × TimerId)}

theorem sound_remove (h : Sound P c) : Sound P (c.remove id) := by
  intro id' hid' ctx' hctx'
  rw [(remove_timers c id).1, Function.update_apply] at hctx'
  split at hctx'
  next heq =>
    subst heq
    obtain ⟨ctx, hctx, rfl⟩ := Option.map_eq_some_iff.mp hctx'
    exact sound_setFlag (h id' hid' ctx hctx)
  · exact h id' hid' ctx' hctx'

theorem sound_repeatTimer {duration times : Int32} {r : Repeated (Services ω)}
    (hmask : times < times_mask)
    (hr : c.repeatTimer duration times serviceid = some r) (h : Sound P c) : Sound P r.child := by
  intro id hid ctx' hctx'
  obtain rfl | ⟨ctx, -, htimes, htimers, -⟩ := repeatTimer_cases hr
  · exact h id hid ctx' hctx'
  · rw [htimers, Function.update_apply] at hctx'
    split at hctx'
    · rw [← Option.some.inj hctx']
      exact sound_armed hmask htimes
    · exact h id hid ctx' hctx'

theorem sound_script (s : Services ω) (script : Script ω) :
    ∀ {c c' armed}, (script.prog s serviceid).run c = some (c', armed) → Sound P c → Sound P c' := by
  induction script with
  | done inner =>
    intro c c' armed h hc
    simp only [Script.prog, Prog.run, Option.some.injEq, Prod.mk.injEq] at h
    obtain ⟨rfl, -⟩ := h
    exact hc
  | repeated duration times hmask next ih =>
    intro c c' armed h hc
    simp only [Script.prog, Prog.run, Option.bind_eq_bind, Option.bind_eq_some_iff, Option.some.injEq,
      Prod.mk.injEq, Prod.exists] at h
    obtain ⟨r, hr, c1, armed1, hrun, rfl, -⟩ := h
    exact ih r.id hrun (sound_repeatTimer hmask hr hc)
  | removeTimer id next ih =>
    intro c c' armed h hc
    exact ih h (sound_remove hc)

theorem sound_callback (h : callback (workerOnTimer f) id serviceid remove c = some (c', armed))
    (hc : Sound P c) : Sound P c' := by
  have hrun := callback_some h
  unfold workerOnTimer at hrun
  split at hrun
  · exact sound_script _ _ hrun hc
  · simp only [Prog.run, Option.some.injEq, Prod.mk.injEq] at hrun
    obtain ⟨rfl, -⟩ := hrun
    exact sound_remove (c := c.note _) hc

/-- All but the entry that is replaced. -/
theorem sound_put {ctx : Option WorkerTimerContext} (hctx : ∀ x, P id → ctx = some x → x.Sound)
    (h : Sound (fun id' => P id' ∧ id' ≠ id) c) : Sound P (c.put id ctx) := by
  intro id' hid' ctx' hctx'
  rw [timers_put, Function.update_apply] at hctx'
  split at hctx'
  next heq =>
    subst heq
    exact hctx ctx' hid' hctx'
  next hne => exact h id' ⟨hid', hne⟩ ctx' hctx'

theorem Sound.weaken {Q : TimerId → Prop} (h : Sound P c) (hQ : ∀ id, Q id → P id) : Sound Q c :=
  fun id hid => h id (hQ id hid)

theorem sound_giveUp {r : Fired (WorkerTimer (Services ω))}
    (h : giveUp (workerOnTimer f) id serviceid armed c = some r)
    (hc : Sound (fun id' => P id' ∧ id' ≠ id) c) : Sound P r.child := by
  obtain ⟨c1, armed1, h1, rfl⟩ := giveUp_some h
  exact sound_put (fun x _ hx => by cases hx) (sound_callback h1 hc)

/-- An entry that counts down. -/
theorem sound_setTimes {ctx : WorkerTimerContext} (h : ctx.Sound) (hi : ctx.hasFlag .infinite = false) :
    ((ctx.setTimes (ctx.times - 1)).1 = true → (ctx.setTimes (ctx.times - 1)).2.Sound) ∧
      (ctx.setTimes (ctx.times - 1)).2.hasFlag .removed = ctx.hasFlag .removed := by
  have hleft : 0 < ctx.left := h.resolve_left (by rw [hi]; decide)
  obtain ⟨hmore, hpred, hflags⟩ := ctx.setTimes_pred hleft
  refine ⟨fun hm => .inr ?_, hflags .removed⟩
  rw [hmore, decide_eq_true_iff] at hm
  omega

theorem sound_onTimer {r : Fired (WorkerTimer (Services ω))}
    (h : onTimer (workerOnTimer f) c id = some r) (hc : Sound (fun _ => True) c) :
    Sound (fun _ => True) r.child := by
  have hnote : Sound (fun _ => True) (c.note (.of id .expire)) := hc
  cases onTimer_cases h with
  | unknown => exact hnote
  | removed _ _ hgive => exact sound_giveUp hgive (hnote.weaken fun _ _ => trivial)
  | infinite _ _ hcall => exact sound_callback hcall hnote
  | again _ _ hcall hctx' hi hmore =>
    have hc1 := sound_callback hcall hnote
    refine sound_put (fun x _ hx => ?_) (hc1.weaken fun _ _ => trivial)
    rw [← Option.some.inj hx]
    exact (sound_setTimes (hc1 _ trivial _ hctx') hi).1 hmore
  | @last _ _ c1 _ _ _ _ hcall _ _ _ hgive =>
    have hc1 := sound_callback hcall hnote
    -- the entry that counts no more is erased
    refine sound_giveUp hgive (sound_put (fun x hid _ => absurd rfl hid.2) ?_)
    exact hc1.weaken fun _ _ => trivial

end Sound

/-- The entry of a timer armed for `serviceid`. -/
theorem repeatTimer_serviceid {c : WorkerTimer ω} {duration times : Int32} {serviceid : UInt32}
    {r : Repeated ω} (h : c.repeatTimer duration times serviceid = some r) : ∀ id ctx,
      r.child.timers id = some ctx → c.timers id = some ctx ∨ ctx.serviceid = serviceid := by
  intro id ctx hctx
  unfold repeatTimer at h
  split at h
  · rw [Option.some.injEq] at h
    subst h
    exact .inl hctx
  · simp only [Option.bind_eq_bind, Option.bind_eq_some_iff, Option.some.injEq] at h
    obtain ⟨uuid, -, rfl⟩ := h
    have hupdate : Function.update c.timers uuid
        (some ⟨_, if times ≤ 0 then Flag.infinite.value else times, serviceid, (clamp duration).2⟩) id =
          some ctx := hctx
    rw [Function.update_apply] at hupdate
    split at hupdate
    · rw [← Option.some.inj hupdate]
      exact .inr rfl
    · exact .inl hupdate

/-! ## What a program leaves of the timers of a service -/

/-- It makes none, and does no more to those there are than remove them. -/
structure Quiet (sid : UInt32) (c c' : WorkerTimer (Services ω)) : Prop where
  timers : ∀ id ctx', c'.timers id = some ctx' → ctx'.serviceid = sid →
    ∃ ctx, c.timers id = some ctx ∧ (ctx' = ctx ∨ ctx' = ctx.setFlag .removed)
  expire : ∀ id, c'.log.count (.of id .expire) = c.log.count (.of id .expire)

section Quiet

variable {sid serviceid : UInt32} {c c' c'' : WorkerTimer (Services ω)} {id : TimerId}

theorem Quiet.congr (htimers : c'.timers = c.timers)
    (hexpire : ∀ id, c'.log.count (.of id .expire) = c.log.count (.of id .expire)) : Quiet sid c c' where
  timers id ctx' h _ := ⟨ctx', by rwa [htimers] at h, .inl rfl⟩
  expire := hexpire

theorem Quiet.trans (h : Quiet sid c c') (h' : Quiet sid c' c'') : Quiet sid c c'' where
  timers id ctx'' hctx'' hsid := by
    obtain ⟨ctx', hctx', hflag⟩ := h'.timers id ctx'' hctx'' hsid
    have hsid' : ctx'.serviceid = sid := by
      obtain rfl | rfl := hflag
      · exact hsid
      · exact hsid
    obtain ⟨ctx, hctx, hflag'⟩ := h.timers id ctx' hctx' hsid'
    refine ⟨ctx, hctx, ?_⟩
    obtain rfl | rfl := hflag
    · exact hflag'
    · obtain rfl | rfl := hflag'
      · exact .inr rfl
      · exact .inr (ctx.setFlag_setFlag .removed)
  expire id := (h'.expire id).trans (h.expire id)

theorem quiet_note {n : Note} (hn : ∀ id, n ≠ .of id .expire) : Quiet sid c (c.note n) :=
  .congr rfl fun id => by
    show (c.log ++ [n]).count _ = _
    rw [List.count_append, List.count_singleton, if_neg (by simpa using (hn id)), Nat.add_zero]

theorem quiet_remove : Quiet sid c (c.remove id) := by
  obtain ⟨htimers, -, -⟩ := remove_timers c id
  refine ⟨fun id' ctx' hctx' _ => ?_, fun id' => ?_⟩
  · rw [htimers, Function.update_apply] at hctx'
    split at hctx'
    next heq =>
      subst heq
      obtain ⟨ctx, hctx, rfl⟩ := Option.map_eq_some_iff.mp hctx'
      exact ⟨ctx, hctx, .inr rfl⟩
    · exact ⟨ctx', hctx', .inl rfl⟩
  · rw [count_expire, count_expire, expiredIds_remove]

theorem quiet_repeatTimer {duration times : Int32} {r : Repeated (Services ω)} (hne : serviceid ≠ sid)
    (h : c.repeatTimer duration times serviceid = some r) : Quiet sid c r.child := by
  refine ⟨fun id ctx' hctx' hsid => ?_, fun id => ?_⟩
  · obtain hold | hnew := repeatTimer_serviceid h id ctx' hctx'
    · exact ⟨ctx', hold, .inl rfl⟩
    · exact absurd (hnew.symm.trans hsid) hne
  · rw [count_expire, count_expire, expiredIds_repeatTimer h]

/-- The scripts of others. -/
theorem quiet_script (hne : serviceid ≠ sid) (s : Services ω) (script : Script ω) :
    ∀ {c c' armed}, (script.prog s serviceid).run c = some (c', armed) →
      Quiet sid c c' ∧ c'.world.services_ = s.services_ ∧ c'.world.told = s.told := by
  induction script with
  | done inner =>
    intro c c' armed h
    simp only [Script.prog, Prog.run, Option.some.injEq, Prod.mk.injEq] at h
    obtain ⟨rfl, -⟩ := h
    exact ⟨.congr rfl fun _ => rfl, rfl, rfl⟩
  | repeated duration times hmask next ih =>
    intro c c' armed h
    simp only [Script.prog, Prog.run, Option.bind_eq_bind, Option.bind_eq_some_iff, Option.some.injEq,
      Prod.mk.injEq, Prod.exists] at h
    obtain ⟨r, hr, c1, armed1, hrun, rfl, -⟩ := h
    obtain ⟨hquiet, hworld⟩ := ih r.id hrun
    exact ⟨(quiet_repeatTimer hne hr).trans hquiet, hworld⟩
  | removeTimer id next ih =>
    intro c c' armed h
    obtain ⟨hquiet, hworld⟩ := ih h
    exact ⟨quiet_remove.trans hquiet, hworld⟩

/-- `sid` is gone: it is not told, and what is told of its timers removes them. -/
theorem quiet_callback {f : ServiceTimer ω} {remove : Bool} {armed : List (Int × TimerId)}
    (hgone : c.world.services_ sid = false)
    (h : callback (workerOnTimer f) id serviceid remove c = some (c', armed)) :
    Quiet sid c c' ∧ c'.world.services_ = c.world.services_ ∧
      c'.world.told.filter (fun n => n.1 = sid) = c.world.told.filter (fun n => n.1 = sid) ∧
      (serviceid = sid → ∀ ctx, c.timers id = some ctx → c'.timers id = some (ctx.setFlag .removed)) := by
  have hnote : Quiet sid c (c.note (.of id (.call remove))) := quiet_note (by simp)
  have hrun := callback_some h
  unfold workerOnTimer at hrun
  split at hrun
  next hlive =>
    have hne : serviceid ≠ sid := by
      rintro rfl
      rw [hgone] at hlive
      cases hlive
    obtain ⟨hquiet, hservices, htold⟩ := quiet_script hne _ _ hrun
    refine ⟨hnote.trans hquiet, hservices, ?_, fun heq => absurd heq hne⟩
    rw [htold, List.filter_append, List.filter_singleton]
    simp [hne]
  · simp only [Prog.run, Option.some.injEq, Prod.mk.injEq] at hrun
    obtain ⟨rfl, -⟩ := hrun
    refine ⟨hnote.trans (quiet_remove.trans (.congr rfl fun _ => rfl)), rfl, rfl, fun _ ctx hctx => ?_⟩
    show ((c.note _).remove id).timers id = _
    rw [(remove_timers _ id).1, Function.update_self]
    show (c.timers id).map _ = _
    rw [hctx]
    rfl

end Quiet

/-! ## Since a service is gone -/

/-- What is left in `c` of the timers that `sid` had in `c₀`: they are no more, and those that expired
are marked, but for `extra`. -/
structure Since (sid : UInt32) (extra : TimerId → Nat) (c₀ c : WorkerTimer (Services ω)) : Prop where
  gone : c.world.services_ sid = false
  told : c.world.told.filter (fun n => n.1 = sid) = c₀.world.told.filter (fun n => n.1 = sid)
  timers : ∀ id ctx, c.timers id = some ctx → ctx.serviceid = sid →
    (∃ ctx₀, c₀.timers id = some ctx₀ ∧ ctx₀.serviceid = sid) ∧
      c.log.count (.of id .expire) ≤
        c₀.log.count (.of id .expire) + (ctx.hasFlag .removed).toNat + extra id

def nothing : TimerId → Nat := fun _ => 0

def once (id : TimerId) : TimerId → Nat := fun id' => if id' = id then 1 else 0

section Since

variable {sid serviceid : UInt32} {extra : TimerId → Nat} {c₀ c c' : WorkerTimer (Services ω)}
  {id : TimerId} {f : ServiceTimer ω} {remove : Bool} {armed : List (Int × TimerId)}

theorem Since.quiet (h : Since sid extra c₀ c) (hq : Quiet sid c c')
    (hservices : c'.world.services_ = c.world.services_)
    (htold : c'.world.told.filter (fun n => n.1 = sid) = c.world.told.filter (fun n => n.1 = sid)) :
    Since sid extra c₀ c' where
  gone := by rw [hservices, h.gone]
  told := htold.trans h.told
  timers id ctx' hctx' hsid := by
    obtain ⟨ctx, hctx, hflag⟩ := hq.timers id ctx' hctx' hsid
    have hsid' : ctx.serviceid = sid := by
      obtain rfl | rfl := hflag
      · exact hsid
      · exact hsid
    obtain ⟨hold, hcount⟩ := h.timers id ctx hctx hsid'
    refine ⟨hold, ?_⟩
    have hle : (ctx.hasFlag .removed).toNat ≤ (ctx'.hasFlag .removed).toNat := by
      obtain rfl | rfl := hflag
      · exact le_refl _
      · rw [ctx.hasFlag_setFlag, decide_eq_true rfl, Bool.or_true]
        exact Bool.toNat_le _
    rw [hq.expire]
    omega

theorem Since.expire (h : Since sid nothing c₀ c) : Since sid (once id) c₀ (c.note (.of id .expire)) where
  gone := h.gone
  told := h.told
  timers id' ctx hctx hsid := by
    obtain ⟨hold, hcount⟩ := h.timers id' ctx hctx hsid
    refine ⟨hold, ?_⟩
    show (c.log ++ [Note.of id .expire]).count _ ≤ _
    unfold nothing at hcount
    unfold once
    rw [List.count_append, List.count_singleton]
    by_cases hid : id' = id
    · subst hid
      simp only [beq_self_eq_true, if_true]
      omega
    · simp only [hid, if_false, beq_iff_eq, Note.of.injEq, and_true, Ne.symm hid]
      omega

theorem Since.weaken (h : Since sid nothing c₀ c) : Since sid extra c₀ c where
  gone := h.gone
  told := h.told
  timers id ctx hctx hsid := by
    obtain ⟨hold, hcount⟩ := h.timers id ctx hctx hsid
    unfold nothing at hcount
    exact ⟨hold, by omega⟩

/-- The timer that expired is marked, or is not one of `sid`. -/
theorem Since.settle (h : Since sid (once id) c₀ c) (hid : ∀ ctx, c.timers id = some ctx →
    ctx.serviceid = sid → c.log.count (.of id .expire) ≤
      c₀.log.count (.of id .expire) + (ctx.hasFlag .removed).toNat) : Since sid nothing c₀ c where
  gone := h.gone
  told := h.told
  timers id' ctx hctx hsid := by
    obtain ⟨hold, hcount⟩ := h.timers id' ctx hctx hsid
    refine ⟨hold, ?_⟩
    by_cases heq : id' = id
    · subst heq
      exact hid ctx hctx hsid
    · unfold once at hcount
      rwa [if_neg heq] at hcount

theorem Since.put (h : Since sid extra c₀ c) {ctx : Option WorkerTimerContext}
    (hctx : ∀ x, ctx = some x → ∃ y, c.timers id = some y ∧ x.serviceid = y.serviceid ∧
      x.hasFlag .removed = y.hasFlag .removed) : Since sid extra c₀ (c.put id ctx) where
  gone := h.gone
  told := h.told
  timers id' x hx hsid := by
    rw [timers_put, Function.update_apply] at hx
    split at hx
    next heq =>
      subst heq
      obtain ⟨y, hy, hsid', hflag⟩ := hctx x hx
      rw [hflag]
      exact h.timers id' y hy (hsid'.symm.trans hsid)
    · exact h.timers id' x hx hsid

theorem Since.of_callback (h : Since sid extra c₀ c)
    (hcall : callback (workerOnTimer f) id serviceid remove c = some (c', armed)) :
    Since sid extra c₀ c' := by
  obtain ⟨hquiet, hservices, htold, -⟩ := quiet_callback h.gone hcall
  exact h.quiet hquiet hservices htold

theorem Since.of_giveUp {r : Fired (WorkerTimer (Services ω))} (h : Since sid (once id) c₀ c)
    (hr : giveUp (workerOnTimer f) id serviceid armed c = some r) : Since sid nothing c₀ r.child := by
  obtain ⟨c1, armed1, h1, rfl⟩ := giveUp_some hr
  refine ((h.of_callback h1).put fun x hx => by cases hx).settle fun ctx hctx => ?_
  rw [timers_put, Function.update_self] at hctx
  cases hctx

/-- The first time a timer of `sid` expires, the callback marks it. -/
theorem Since.called {ctx : WorkerTimerContext} (h : Since sid nothing c₀ c)
    (hctx : c.timers id = some ctx) (hr : ctx.hasFlag .removed = false)
    (hcall : callback (workerOnTimer f) id ctx.serviceid false (c.note (.of id .expire)) =
      some (c', armed)) :
    Since sid nothing c₀ c' := by
  have hexpire : Since sid (once id) c₀ (c.note (.of id .expire)) := h.expire
  obtain ⟨hquiet, -, -, hmark⟩ := quiet_callback hexpire.gone hcall
  refine (hexpire.of_callback hcall).settle fun ctx' hctx' hsid => ?_
  obtain ⟨ctx₁, hctx₁, hflag⟩ := hquiet.timers id ctx' hctx' hsid
  obtain rfl : ctx = ctx₁ := Option.some.inj (hctx.symm.trans hctx₁)
  have hsid' : ctx.serviceid = sid := by
    obtain rfl | rfl := hflag
    · exact hsid
    · exact hsid
  obtain rfl := Option.some.inj (hctx'.symm.trans (hmark hsid' ctx hctx))
  obtain ⟨-, hcount⟩ := h.timers id ctx hctx hsid'
  rw [hr] at hcount
  unfold nothing at hcount
  rw [hquiet.expire, ctx.hasFlag_setFlag, decide_eq_true rfl, Bool.or_true, Bool.toNat_true]
  show (c.log ++ [Note.of id .expire]).count _ ≤ _
  rw [List.count_append, List.count_singleton_self]
  simp only [Bool.toNat_false] at hcount
  omega

/-- **`on_timer` after a service is gone.** -/
theorem Since.of_onTimer {r : Fired (WorkerTimer (Services ω))} (h : Since sid nothing c₀ c)
    (hsound : Sound (fun _ => True) c) (hr : onTimer (workerOnTimer f) c id = some r) :
    Since sid nothing c₀ r.child := by
  cases onTimer_cases hr with
  | unknown hnone =>
    refine h.expire.settle fun ctx hctx => ?_
    rw [show (c.note (.of id .expire)).timers id = none from hnone] at hctx
    cases hctx
  | removed _ _ hgive => exact h.expire.of_giveUp hgive
  | infinite hctx hremoved hcall => exact h.called hctx hremoved hcall
  | @again _ ctx' c1 _ hctx hremoved hcall hctx' hi =>
    refine (h.called hctx hremoved hcall).put fun x hx => ⟨ctx', hctx', ?_⟩
    have hc1 : Sound (fun _ => True) c1 := sound_callback (c := c.note _) hcall hsound
    rw [← Option.some.inj hx]
    exact ⟨rfl, (sound_setTimes (hc1 id trivial ctx' hctx') hi).2⟩
  | @last _ ctx' c1 _ _ hctx hremoved hcall hctx' hi _ hgive =>
    have hc1 : Sound (fun _ => True) c1 := sound_callback (c := c.note _) hcall hsound
    have hput : Since sid nothing c₀ (c1.put id (some (ctx'.setTimes (ctx'.times - 1)).2)) :=
      (h.called hctx hremoved hcall).put fun x hx => ⟨ctx', hctx', by
        rw [← Option.some.inj hx]
        exact ⟨rfl, (sound_setTimes (hc1 id trivial ctx' hctx') hi).2⟩⟩
    exact hput.weaken.of_giveUp hgive

end Since

/-! ## Runs -/

section Runs

variable {f : ServiceTimer ω} {s s' : Timers ω} {a : WorkerAction} {sid : UInt32}

/-- What a program leaves is what calls of `insert_timer` arm. -/
theorem run_script {p : Prog (Services ω)} {c : WorkerTimer (Services ω)} {armed} {trace : List Entry}
    (h : Run (onTimer (workerOnTimer f)) trace s) (hrun : p.run s.child = some (c, armed)) :
    ∃ trace', Run (onTimer (workerOnTimer f)) trace' ({ s with child := c }.insertAll armed) :=
  ⟨_, run_insertAll armed (.child c h) (grows_run hrun).2⟩

/-- What every call of `on_timer` keeps, `update` keeps. -/
theorem update_child {trace : List Entry} {fuel : Nat} {now_tick old_tick : Int} {ticks}
    (Q : WorkerTimer (Services ω) → Prop)
    (hQ : ∀ c id r, Q c → onTimer (workerOnTimer f) c id = some r → Q r.child)
    (h : Run (onTimer (workerOnTimer f)) trace s)
    (hupdate : s.update (onTimer (workerOnTimer f)) fuel now_tick = some (s', old_tick, ticks))
    (hc : Q s.child) : Q s'.child :=
  (update_stands_rule _ (sane_onTimer _) fuel _ (fun t _ => Q t.child) (fun _ _ _ _ hP => hP)
    (fun t _ t' events hstands hP hstep => processTick_child _ Q hQ fuel _ t t' events hstands hstep hP)
    now_tick old_tick s s' ticks hupdate (run_law _ (sane_onTimer _) h).1 hc).2

theorem WorkerStep.run {trace : List Entry} (hstep : WorkerStep f s a s')
    (h : Run (onTimer (workerOnTimer f)) trace s) (hsound : Sound (fun _ => True) s.child) :
    (∃ trace', Run (onTimer (workerOnTimer f)) trace' s') ∧ Sound (fun _ => True) s'.child := by
  cases hstep with
  | update hupdate =>
    exact ⟨⟨_, .update _ _ _ s' _ h hupdate⟩,
      update_child _ (fun c id r hc hr => sound_onTimer hr hc) h hupdate hsound⟩
  | @service serviceid c armed script _ hrun =>
    refine ⟨run_script h hrun, ?_⟩
    rw [insertAll_child]
    exact sound_script _ script hrun hsound
  | addService serviceid => exact ⟨⟨trace, .child _ h⟩, hsound⟩
  | removeService serviceid => exact ⟨⟨trace, .child _ h⟩, hsound⟩

theorem reach_run (h : (workerTimers f).Reach s) :
    (∃ trace, Run (onTimer (workerOnTimer f)) trace s) ∧ Sound (fun _ => True) s.child := by
  refine Reach.invariant (P := fun s => (∃ trace, Run (onTimer (workerOnTimer f)) trace s) ∧
    Sound (fun _ => True) s.child) ?_ (fun s a s' _ ih hstep => ?_) h
  · rintro s ⟨inner, rfl⟩
    exact ⟨⟨[], .init _⟩, fun id _ ctx hctx => by cases hctx⟩
  · obtain ⟨⟨trace, hrun⟩, hsound⟩ := ih
    exact WorkerStep.run hstep hrun hsound

theorem WorkerStep.since {trace : List Entry} {c₀ : WorkerTimer (Services ω)}
    (hstep : WorkerStep f s a s') (hnew : a ≠ .addService sid)
    (h : Run (onTimer (workerOnTimer f)) trace s) (hsound : Sound (fun _ => True) s.child)
    (hsince : Since sid nothing c₀ s.child) : Since sid nothing c₀ s'.child := by
  cases hstep with
  | update hupdate =>
    refine (update_child (fun c => Sound (fun _ => True) c ∧ Since sid nothing c₀ c)
      (fun c id r hc hr => ?_) h hupdate ⟨hsound, hsince⟩).2
    exact ⟨sound_onTimer hr hc.1, hc.2.of_onTimer hc.1 hr⟩
  | @service serviceid c armed script hlive hrun =>
    have hne : serviceid ≠ sid := by
      rintro rfl
      rw [hsince.gone] at hlive
      cases hlive
    obtain ⟨hquiet, hservices, htold⟩ := quiet_script hne _ script hrun
    rw [insertAll_child]
    exact hsince.quiet hquiet hservices (by rw [htold])
  | addService serviceid =>
    have hne : sid ≠ serviceid := fun heq => hnew (by rw [heq])
    exact ⟨(Function.update_of_ne hne _ _).trans hsince.gone, hsince.told, hsince.timers⟩
  | removeService serviceid =>
    refine ⟨?_, hsince.told, hsince.timers⟩
    show Function.update s.child.world.services_ serviceid false sid = false
    rw [Function.update_apply]
    split
    · rfl
    · exact hsince.gone

/-- **Timers of a service that is gone.**  From any reachable state in which no service has the id, and
until one is made with it: none of the timers armed for it is told to any service under that id, no new
one is armed, and each expires at most once more before it is marked, and then once more to be erased.
So a timer that is still there has expired at most once. -/
theorem departed_timers (f : ServiceTimer ω) (s s' : Timers ω) (as : List WorkerAction) (sid : UInt32)
    (hreach : (workerTimers f).Reach s) (hgone : s.child.world.services_ sid = false)
    (hrun : (workerTimers f).Trace s as s') (hnew : .addService sid ∉ as) :
    s'.child.world.told.filter (fun n => n.1 = sid) = s.child.world.told.filter (fun n => n.1 = sid) ∧
      ∀ id ctx', s'.child.timers id = some ctx' → ctx'.serviceid = sid →
        (∃ ctx, s.child.timers id = some ctx ∧ ctx.serviceid = sid) ∧
          s'.child.log.count (.of id .expire) ≤
            s.child.log.count (.of id .expire) + (ctx'.hasFlag .removed).toNat := by
  have hsince : Since sid nothing s.child s'.child := by
    induction hrun with
    | refl => exact ⟨hgone, rfl, fun id ctx hctx hsid => ⟨⟨ctx, hctx, hsid⟩, by omega⟩⟩
    | @step as t a t' htrace hstep ih =>
      rw [List.mem_append, not_or, List.mem_singleton] at hnew
      obtain ⟨⟨trace, hrun⟩, hsound⟩ := reach_run (htrace.reach hreach)
      exact WorkerStep.since hstep (Ne.symm hnew.2) hrun hsound (ih hnew.1)
  exact ⟨hsince.told, hsince.timers⟩

/-- No service does anything when it is told. -/
def noScript : ServiceTimer Unit := fun inner _ _ _ => .done inner

/-- Service 5 was made. -/
def made : Timers Unit :=
  Timers.setService { child := { world := { inner := () }, onTimerSet := true } } 5 true

/-- It arms a timer without a count. -/
def madeArmed : WorkerTimer (Services Unit) :=
  { made.child with
    uuid := 1
    timers := Function.update made.child.timers 1 (some ⟨clamp 10, Flag.infinite.value, 5, (clamp 10).2⟩)
    log := [.arm 1 10 0 5] }

/-- And is destroyed. -/
def departed : Timers Unit :=
  Timers.setService (({ made with child := madeArmed } : Timers Unit).insertAll [(10, 1)]) 5 false

theorem departed_reach : (workerTimers noScript).Reach departed := by
  have hstart : (workerTimers noScript).Reach { child := { world := { inner := () }, onTimerSet := true } } :=
    System.Reach.start ⟨(), rfl⟩
  have hmade : (workerTimers noScript).Reach made := hstart.step (.addService 5)
  have hrun : (Script.prog made.child.world 5 (.repeated 10 0 (by decide) fun _ => .done ())).run
      made.child = some (madeArmed, [(10, 1)]) := rfl
  exact (hmade.step (.service _ rfl hrun)).step (.removeService 5)

/-- It has expired once. -/
theorem departed_timers_once : ∃ s' : Timers Unit, (s'.child.timers 1).isSome = true ∧
    s'.child.log.count (.of 1 .expire) = 1 ∧
    s'.child.world.told.filter (fun n => n.1 = 5) = departed.child.world.told.filter (fun n => n.1 = 5) ∧
      ∀ id ctx', s'.child.timers id = some ctx' → ctx'.serviceid = 5 →
        (∃ ctx, departed.child.timers id = some ctx ∧ ctx.serviceid = 5) ∧
          s'.child.log.count (.of id .expire) ≤
            departed.child.log.count (.of id .expire) + (ctx'.hasFlag .removed).toNat := by
  obtain ⟨s', htrace, hsome, hcount⟩ : ∃ s' : Timers Unit,
      (workerTimers noScript).Trace departed [.update, .update] s' ∧
        (s'.child.timers 1).isSome = true ∧ s'.child.log.count (.of 1 .expire) = 1 :=
    ⟨_, (System.Trace.refl.step (@WorkerStep.update _ _ _ _ 5 1 _ _ rfl)).step
      (@WorkerStep.update _ _ _ _ 5 11 _ _ rfl), rfl, rfl⟩
  exact ⟨s', hsome, hcount,
    departed_timers noScript departed s' [.update, .update] 5 departed_reach rfl htrace (by decide)⟩

end Runs

end HappyServer.Timer
