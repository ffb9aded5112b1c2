import HappyServer.Config.Parse

/-!
# Arguments and configuration (`happy.cpp`, `core/server_config.hpp`)

`main` up to `server::init`.  `load` is its part for a configuration file; the other, for a Lua file alone,
is for an empty `service_file`.

* `Written fs argv opts`: the arguments spell the options, and each is accepted.
* The file system answers without an error; `extension` is that of `fs::path`.

    main argv is load of the last -c and the last -r, whatever -f says              (main_spec)
    parse returns true: data_ has just the servers of the rewritten text            (parse_loads)
-/

namespace HappyServer.Config

open Json

variable {δ : Type}

/-! ## `string_convert<int32_t>` -/

def isSpace (c : UInt8) : Bool := c = 32 || (9 ≤ c && c ≤ 13)

def isDigit (c : UInt8) : Bool := 48 ≤ c && c ≤ 57

def digits (s : Text) : Int := s.foldl (fun n c => 10 * n + (c.toNat - 48)) 0

/-- `std::stoi`, which throws where there is no number or it is no `int`. -/
def stoi (s : Text) : Option Int :=
  let s := s.dropWhile isSpace
  let negative := s.head? = some 45
  let s := if negative ∨ s.head? = some 43 then s.tail else s
  let s := s.takeWhile isDigit
  let n := if negative then -digits s else digits s
  if s ≠ [] ∧ -2 ^ 31 ≤ n ∧ n < 2 ^ 31 then some n else none

example : stoi (lit " -12x") = some (-12) := by
  rw [lit_eq]
  decide

/-! ## The arguments -/

structure FileSystem where
  exists_ : Text → Bool
  read_all : Text → Text
  extension : Text → Text
  extension_nil : extension [] = []

structure Settings where
  sid : Int := 1
  conf : Text := lit "config.json"
  service_file : Text := lit "main.lua"

/-- How `main` ends before there is a server, or the configuration with which it makes one. -/
inductive Outcome where
  /-- -1 -/
  | usage
  /-- `string_convert` throws -/
  | throws
  /-- the configuration is made for the Lua file alone -/
  | inline
  /-- 1 -/
  | noFile
  /-- 2 -/
  | notParsed
  /-- `parse` does what is undefined -/
  | undefined
  /-- 3 -/
  | noServer
  | serves (c : LoadedConfig)
deriving DecidableEq

/-- The loop over the arguments: the settings, or how it ends. -/
def options (fs : FileSystem) : Settings → List Text → Except Outcome Settings
  | s, [] => .ok s
  | _, [_] => .error .usage -- none of the options is the last argument
  | s, v :: value :: argv =>
    if v = lit "-h" ∨ v = lit "--help" then .error .usage
    else if v = lit "-c" ∨ v = lit "--config" then
      if fs.exists_ value then options fs { s with conf := value } argv else .error .usage
    else if v = lit "-r" ∨ v = lit "--run" then
      match stoi value with
      | some sid => options fs { s with sid := sid } argv
      | none => .error .throws
    else if v = lit "-f" ∨ v = lit "--file" then
      if fs.extension value ≠ lit ".lua" then .error .usage
      else options fs { s with service_file := value } argv
    else .error .usage

/-- A configuration file. -/
def load (env : Env δ) (fs : FileSystem) (conf : Text) (sid : Int) : Outcome :=
  if !fs.exists_ conf then .noFile
  else
    match ({} : Manager).parse env (fs.read_all conf) sid with
    | none => .undefined
    | some r =>
      if !r.returned then .notParsed
      else
        match r.manager.data_ sid with
        | none => .noServer
        | some c => .serves c

def main (env : Env δ) (fs : FileSystem) (argv : List Text) : Outcome :=
  match options fs {} argv with
  | .error outcome => outcome
  | .ok s => if s.service_file = [] then .inline else load env fs s.conf s.sid

/-! ## What is accepted -/

inductive Opt where
  | config (conf : Text)
  | run (sid : Int)
  | file (service_file : Text)

def Opt.apply (s : Settings) : Opt → Settings
  | .config conf => { s with conf := conf }
  | .run sid => { s with sid := sid }
  | .file service_file => { s with service_file := service_file }

/-- A flag and its value. -/
inductive Opt.Spelled (fs : FileSystem) : Opt → Text → Text → Prop
  | config {v conf} : v = lit "-c" ∨ v = lit "--config" → fs.exists_ conf = true →
      Spelled fs (.config conf) v conf
  | run {v value sid} : v = lit "-r" ∨ v = lit "--run" → stoi value = some sid →
      Spelled fs (.run sid) v value
  | file {v service_file} : v = lit "-f" ∨ v = lit "--file" →
      fs.extension service_file = lit ".lua" → Spelled fs (.file service_file) v service_file

inductive Written (fs : FileSystem) : List Text → List Opt → Prop
  | nil : Written fs [] []
  | cons {v value argv o opts} : o.Spelled fs v value → Written fs argv opts →
      Written fs (v :: value :: argv) (o :: opts)

section Options

variable {fs : FileSystem} {s s' : Settings} {argv : List Text} {opts : List Opt} {o : Opt}
  {v value : Text}

theorem lit_ne {a b : String} (h : a.toUTF8.data.toList ≠ b.toUTF8.data.toList) : lit a ≠ lit b := by
  rwa [lit_eq, lit_eq]

theorem options_spelled (h : o.Spelled fs v value) :
    options fs s (v :: value :: argv) = options fs (o.apply s) argv := by
  rw [options]
  cases h with
  | config hv hconf =>
    have hhelp : ¬(v = lit "-h" ∨ v = lit "--help") := by
      obtain rfl | rfl := hv <;> exact not_or.mpr ⟨lit_ne (by decide), lit_ne (by decide)⟩
    rw [if_neg hhelp, if_pos hv, if_pos hconf]
    rfl
  | @run _ _ sid hv hsid =>
    have hhelp : ¬(v = lit "-h" ∨ v = lit "--help") := by
      obtain rfl | rfl := hv <;> exact not_or.mpr ⟨lit_ne (by decide), lit_ne (by decide)⟩
    have hconfig : ¬(v = lit "-c" ∨ v = lit "--config") := by
      obtain rfl | rfl := hv <;> exact not_or.mpr ⟨lit_ne (by decide), lit_ne (by decide)⟩
    rw [if_neg hhelp, if_neg hconfig, if_pos hv, hsid]
    rfl
  | file hv hfile =>
    have hhelp : ¬(v = lit "-h" ∨ v = lit "--help") := by
      obtain rfl | rfl := hv <;> exact not_or.mpr ⟨lit_ne (by decide), lit_ne (by decide)⟩
    have hconfig : ¬(v = lit "-c" ∨ v = lit "--config") := by
      obtain rfl | rfl := hv <;> exact not_or.mpr ⟨lit_ne (by decide), lit_ne (by decide)⟩
    have hrun : ¬(v = lit "-r" ∨ v = lit "--run") := by
      obtain rfl | rfl := hv <;> exact not_or.mpr ⟨lit_ne (by decide), lit_ne (by decide)⟩
    rw [if_neg hhelp, if_neg hconfig, if_neg hrun, if_pos hv, if_neg (not_not_intro hfile)]
    rfl

theorem options_written (h : Written fs argv opts) (s : Settings) :
    options fs s argv = .ok (opts.foldl Opt.apply s) := by
  induction h generalizing s with
  | nil => rfl
  | cons hspelled _ ih => rw [options_spelled hspelled, ih, List.foldl_cons]

/-- How the loop ends. -/
def Ends (fs : FileSystem) (argv : List Text) : Except Outcome Settings → Prop
  | .ok _ => ∃ opts, Written fs argv opts
  | .error outcome => outcome = .usage ∨ outcome = .throws

theorem Ends.cons {r : Except Outcome Settings} (h : Ends fs argv r) (hspelled : o.Spelled fs v value) :
    Ends fs (v :: value :: argv) r := by
  cases r with
  | ok s =>
    obtain ⟨opts, hopts⟩ := h
    exact ⟨o :: opts, .cons hspelled hopts⟩
  | error outcome => exact h

/-- What is accepted is written so. -/
theorem options_ends (fs : FileSystem) (s : Settings) (argv : List Text) :
    Ends fs argv (options fs s argv) := by
  fun_induction options fs s argv with
  | case1 s => exact ⟨[], .nil⟩
  | case2 s v => exact .inl rfl
  | case3 s v value argv hhelp => exact .inl rfl
  | case4 s v value argv _ hv hconf ih => exact ih.cons (.config hv hconf)
  | case5 s v value argv _ hv hconf => exact .inl rfl
  | case6 s v value argv _ _ hv sid hsid ih => exact ih.cons (.run hv hsid)
  | case7 s v value argv _ _ hv hsid => exact .inr rfl
  | case8 s v value argv _ _ _ hv hfile => exact .inl rfl
  | case9 s v value argv _ _ _ hv hfile ih => exact ih.cons (.file hv (not_not.mp hfile))
  | case10 s v value argv => exact .inl rfl

/-- No option makes `service_file` empty. -/
theorem service_file_ne_nil (h : Written fs argv opts) :
    ∀ s : Settings, s.service_file ≠ [] → (opts.foldl Opt.apply s).service_file ≠ [] := by
  induction h with
  | nil => exact fun s hs => hs
  | @cons _ _ _ o _ hspelled _ ih =>
    intro s hs
    refine ih (o.apply s) ?_
    cases hspelled with
    | config => exact hs
    | run => exact hs
    | @file _ _ _ hfile =>
      intro hnil
      replace hnil : _ = [] := hnil
      subst hnil
      rw [fs.extension_nil] at hfile
      exact absurd hfile (by rw [lit_eq]; decide)

end Options

/-! ## What is loaded -/

section Loads

variable {env : Env δ} {sid : Int} {c : Members δ} {cfg : LoadedConfig} {m : Manager} {r : Parsed}

/-- A server that is loaded has an id and a name, and only the one that was asked for has services. -/
def Loaded (sid : Int) (cfg : LoadedConfig) : Prop :=
  cfg.sid ≠ -1 ∧ cfg.name ≠ [] ∧ (cfg.sid ≠ sid → cfg.services = [])

theorem loaded_of_loadServer (h : loadServer env sid c = .ok cfg) : Loaded sid cfg := by
  obtain ⟨log, hlog⟩ := loadLog_ok env.date (getString c (lit "log") [])
  unfold loadServer at h
  by_cases hsid : (serverConfig c).sid = -1
  · rw [if_pos hsid] at h
    cases h
  by_cases hname : getString c (lit "name") [] = []
  · rw [if_neg hsid, if_pos hname] at h
    cases h
  simp only [if_neg hsid, if_neg hname, hlog, Bind.bind, Except.bind] at h
  by_cases hselected : (serverConfig c).sid = sid
  · rw [if_pos hselected] at h
    cases hservices : member c (lit "services") with
    | none =>
      rw [hservices] at h
      cases h
    | some d =>
      rw [hservices] at h
      cases d with
      | array items =>
        cases hload : loadServices env.num items with
        | error e =>
          simp only [hload] at h
          cases h
        | ok services =>
          simp only [hload] at h
          cases h
          exact ⟨hsid, hname, fun hne => absurd hselected hne⟩
      | _ => cases h
  · rw [if_neg hselected] at h
    cases h
    exact ⟨hsid, hname, fun _ => rfl⟩

/-- Each element is an object, and is loaded. -/
def Loads (env : Env δ) (sid : Int) : List (Json δ Text) → List LoadedConfig → Prop :=
  List.Forall₂ fun item cfg => ∃ members, item = .object members ∧ loadServer env sid members = .ok cfg

/-- The servers of `cfgs` are new, and are in `data_` now. -/
structure Stored (sid : Int) (m : Manager) (cfgs : List LoadedConfig) (m' : Manager) : Prop where
  config_ : m'.config_ = m.config_
  sid_ : m'.sid_ = sid
  distinct : (cfgs.map fun cfg => cfg.sid).Nodup
  fresh : ∀ cfg ∈ cfgs, m.data_ cfg.sid = none
  data_ : ∀ k, m'.data_ k = (cfgs.find? fun cfg => cfg.sid = k).or (m.data_ k)

theorem parseLoop_stored (items : List (Json δ Text)) :
    ∀ {m : Manager}, parseLoop env sid m items = some r →
      (r.returned = false → r.printed ≠ []) ∧ (r.returned = true →
        ∃ cfgs, Loads env sid items cfgs ∧ Stored sid m cfgs r.manager) := by
  induction items with
  | nil =>
    intro m h
    cases h
    exact ⟨fun hr => Bool.noConfusion hr, fun _ => ⟨[], .nil, rfl, rfl, .nil, by simp, fun k => rfl⟩⟩
  | cons item items ih =>
    intro m h
    cases item with
    | object c =>
      simp only [parseLoop] at h
      split at h
      · cases h
        exact ⟨fun _ => List.cons_ne_nil _ _, fun hr => Bool.noConfusion hr⟩
      · cases h
      next scfg hload =>
        split at h
        · cases h
          exact ⟨fun _ => List.cons_ne_nil _ _, fun hr => Bool.noConfusion hr⟩
        next hnew =>
          obtain ⟨hprinted, hstored⟩ := ih h
          refine ⟨hprinted, fun hr => ?_⟩
          obtain ⟨cfgs, hloads, hs⟩ := hstored hr
          rw [Option.not_isSome_iff_eq_none] at hnew
          have hother : ∀ cfg ∈ cfgs, cfg.sid ≠ scfg.sid := by
            intro cfg hcfg heq
            have hfresh := hs.fresh cfg hcfg
            rw [heq] at hfresh
            simp at hfresh
          refine ⟨scfg :: cfgs, .cons ⟨c, rfl, hload⟩ hloads, hs.config_, hs.sid_, ?_, ?_, fun k => ?_⟩
          · rw [List.map_cons, List.nodup_cons]
            refine ⟨fun hmem => ?_, hs.distinct⟩
            obtain ⟨cfg, hcfg, heq⟩ := List.mem_map.mp hmem
            exact hother cfg hcfg heq
          · refine List.forall_mem_cons.mpr ⟨hnew, fun cfg hcfg => ?_⟩
            have hfresh := hs.fresh cfg hcfg
            exact (Function.update_of_ne (hother cfg hcfg) _ _).symm.trans hfresh
          · rw [hs.data_]
            by_cases hk : scfg.sid = k
            · subst hk
              have hnone : (cfgs.find? fun cfg => cfg.sid = scfg.sid) = none :=
                List.find?_eq_none.mpr fun cfg hcfg => by simpa using hother cfg hcfg
              rw [hnone, List.find?_cons_of_pos (by simp), Option.none_or]
              exact Function.update_self ..
            · rw [List.find?_cons_of_neg (by simpa using hk)]
              exact congrArg _ (Function.update_of_ne (Ne.symm hk) _ _)
    | _ => cases h

theorem parse_stored {config : Text} (h : m.parse env config sid = some r) :
    (r.returned = false → r.printed ≠ []) ∧ (r.returned = true → ∃ items cfgs,
      env.parse r.manager.config_ = .ok (.array items) ∧ Loads env sid items cfgs ∧
        Stored sid { m with config_ := r.manager.config_ } cfgs r.manager) := by
  unfold Manager.parse at h
  simp only [Option.bind_eq_bind, Option.bind_eq_some_iff] at h
  obtain ⟨p, -, h⟩ := h
  split at h
  · cases h
    exact ⟨fun _ => by simp, fun hr => Bool.noConfusion hr⟩
  next items hitems =>
    obtain ⟨r₁, hr₁, hr⟩ := Option.bind_eq_some_iff.mp h
    obtain ⟨hprinted, hstored⟩ := parseLoop_stored items hr₁
    cases hr
    refine ⟨fun hr => by simp [hprinted hr], fun hr => ?_⟩
    obtain ⟨cfgs, hloads, hs⟩ := hstored hr
    refine ⟨items, cfgs, ?_, hloads, rfl, hs.sid_, hs.distinct, hs.fresh, hs.data_⟩
    show env.parse r₁.manager.config_ = _
    rw [hs.config_]
    exact hitems
  · cases h
    exact ⟨fun _ => by simp, fun hr => Bool.noConfusion hr⟩

theorem Stored.mem {cfgs : List LoadedConfig} {m' : Manager} (h : Stored sid m cfgs m')
    (hdata : m.data_ sid = none) (hcfg : m'.data_ sid = some cfg) : cfg ∈ cfgs ∧ cfg.sid = sid := by
  rw [h.data_, hdata, Option.or_none] at hcfg
  exact ⟨List.mem_of_find?_eq_some hcfg, by simpa using List.find?_some hcfg⟩

theorem Loads.loaded {items : List (Json δ Text)} {cfgs : List LoadedConfig}
    (h : Loads env sid items cfgs) :
    ∀ cfg ∈ cfgs, Loaded sid cfg := by
  induction h with
  | nil => simp
  | cons hfirst _ ih =>
    obtain ⟨members, -, hload⟩ := hfirst
    exact List.forall_mem_cons.mpr ⟨loaded_of_loadServer hload, ih⟩

theorem load_serves {fs : FileSystem} {conf : Text} (h : load env fs conf sid = .serves cfg) :
    cfg.sid = sid ∧ Loaded sid cfg := by
  unfold load at h
  split at h
  · cases h
  split at h
  · cases h
  next r hr =>
    split at h
    · cases h
    next hreturned =>
      obtain ⟨items, cfgs, -, hloads, hstored⟩ := (parse_stored hr).2 (by simpa using hreturned)
      split at h
      · cases h
      next c hc =>
        cases h
        obtain ⟨hmem, hsid⟩ := hstored.mem rfl hc
        exact ⟨hsid, hloads.loaded cfg hmem⟩

end Loads

/-- **`parse`.**  Whatever was loaded before: when it returns false, it has said why.  When it returns true,
every element of the rewritten text is an object that was loaded; each has a name and an id of its own,
that was not in use; `data_` has these servers and those it had; and only the one asked for has services. -/
theorem parse_loads (env : Env δ) (m : Manager) (config : Text) (sid : Int) (r : Parsed)
    (h : m.parse env config sid = some r) :
    (r.returned = false → r.printed ≠ []) ∧ (r.returned = true → ∃ items cfgs,
      env.parse r.manager.config_ = .ok (.array items) ∧ Loads env sid items cfgs ∧
        (∀ cfg ∈ cfgs, Loaded sid cfg) ∧
          Stored sid { m with config_ := r.manager.config_ } cfgs r.manager) := by
  obtain ⟨hprinted, hstored⟩ := parse_stored h
  refine ⟨hprinted, fun hr => ?_⟩
  obtain ⟨items, cfgs, hitems, hloads, hs⟩ := hstored hr
  exact ⟨items, cfgs, hitems, hloads, hloads.loaded, hs⟩

/-- Two servers, the first one with a service. -/
def twoServers : Text :=
  lit "[\x7b\"sid\":1,\"name\":\"a\",\"services\":[\x7b\"name\":\"b\"\x7d]\x7d,\x7b\"sid\":2,\"name\":\"d\"\x7d]"

def third : LoadedConfig :=
  { sid := 3, name := lit "c", outer_host := [], inner_host := [], thread := 1, loglevel := lit "DEBUG",
    startup := [], log := [], path := [], cpath := [] }

/-- A manager that has the server 3 loads the two, and refuses to when it is asked once more. -/
theorem parse_loads_two : ∃ (m : Manager) (r r' : Parsed), (m.data_ 3).isSome ∧ r.returned = true ∧
    ((r.manager.data_ 1).map fun c => c.services.length) = some 1 ∧ (r.manager.data_ 2).isSome ∧
    (∃ items cfgs, readerEnv.parse r.manager.config_ = .ok (.array items) ∧ Loads readerEnv 1 items cfgs ∧
      (∀ cfg ∈ cfgs, Loaded 1 cfg) ∧ Stored 1 { m with config_ := r.manager.config_ } cfgs r.manager) ∧
    r'.returned = false ∧ r'.printed ≠ [] := by
  let m : Manager := { data_ := Function.update (fun _ => none) 3 (some third) }
  have hruns : ((m.parse readerEnv twoServers 1).any fun r => r.returned &&
      ((r.manager.data_ 1).map fun c => c.services.length) = some 1 && (r.manager.data_ 2).isSome &&
      (r.manager.parse readerEnv twoServers 1).any fun r => !r.returned) = true := by
    decide +kernel
  obtain ⟨r, hr, hruns⟩ := (Option.any_eq_true ..).mp hruns
  simp only [Bool.and_eq_true, decide_eq_true_eq] at hruns
  obtain ⟨⟨⟨hret, hone⟩, htwo⟩, hagain⟩ := hruns
  obtain ⟨r', hr', hrefused⟩ := (Option.any_eq_true ..).mp hagain
  rw [Bool.not_eq_true'] at hrefused
  exact ⟨m, r, r', by decide +kernel, hret, hone, htwo, (parse_loads readerEnv m _ 1 r hr).2 hret, hrefused,
    (parse_loads readerEnv r.manager _ 1 r' hr').1 hrefused⟩

/-! ## `main` -/

theorem main_written {env : Env δ} {fs : FileSystem} {argv : List Text} {opts : List Opt}
    (h : Written fs argv opts) : main env fs argv =
      load env fs (opts.foldl Opt.apply {}).conf (opts.foldl Opt.apply {}).sid := by
  have hfile : (opts.foldl Opt.apply {}).service_file ≠ [] :=
    service_file_ne_nil h {} (show lit "main.lua" ≠ [] by rw [lit_eq]; decide)
  unfold main
  rw [options_written h]
  exact if_neg hfile

theorem main_not_written {env : Env δ} {fs : FileSystem} {argv : List Text}
    (h : ¬∃ opts, Written fs argv opts) : main env fs argv = .usage ∨ main env fs argv = .throws := by
  have hends := options_ends fs {} argv
  unfold main
  cases hoptions : options fs {} argv with
  | ok s =>
    rw [hoptions] at hends
    exact absurd hends h
  | error outcome =>
    rw [hoptions] at hends
    exact hends

/-- **The arguments of `main`.**  They are accepted just when they spell options one after another; then
`main` loads the file of the last `-c` and serves the `sid` of the last `-r`.  The branch for a Lua file
alone is never taken: `-f` is checked and has no effect.  What is not accepted ends with the usage, or in
an exception of `stoi`.  A server that is made has that `sid`, which is not -1, and a name. -/
theorem main_spec (env : Env δ) (fs : FileSystem) (argv : List Text) :
    (∀ opts, Written fs argv opts → main env fs argv =
      load env fs (opts.foldl Opt.apply {}).conf (opts.foldl Opt.apply {}).sid) ∧
    ((¬∃ opts, Written fs argv opts) → main env fs argv = .usage ∨ main env fs argv = .throws) ∧
    ∀ c, main env fs argv = .serves c → ∃ opts, Written fs argv opts ∧
      c.sid = (opts.foldl Opt.apply {}).sid ∧ c.sid ≠ -1 ∧ c.name ≠ [] := by
  refine ⟨fun opts h => main_written h, main_not_written, fun c hc => ?_⟩
  by_cases h : ∃ opts, Written fs argv opts
  · obtain ⟨opts, hopts⟩ := h
    rw [main_written hopts] at hc
    obtain ⟨hsid, hloaded⟩ := load_serves hc
    exact ⟨opts, hopts, hsid, hloaded.1, hloaded.2.1⟩
  · obtain husage | hthrows := @main_not_written _ env _ _ h
    · rw [husage] at hc
      cases hc
    · rw [hthrows] at hc
      cases hc

end HappyServer.Config
