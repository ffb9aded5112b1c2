import HappyServer.Config.Prepare

/-!
# Loading the configuration (`core/server_config.hpp`)

`parse` walks two documents: `prepare` walks the one it is given, and `parseLoop` the one that the
text in `config_` stands for.  Both take an element of the array to be an object, and `parse` takes
the selected server to have `services`; `none` is a run that does otherwise.

* `Reached before c`: the walk is at `c`, and was at the objects `before`.
* `rewritten`: the text that the second walk is about.

    parse returns true or false ↔ every element that a walk reaches is an object, and the selected
      server has services                                                     (returns_iff)
-/

namespace HappyServer.Config

open Json

variable {δ : Type}

/-! ## `rapidjson::get_value` -/

def getBool (members : Members δ) (name : Text) (dv : Bool) : Bool :=
  match member members name with
  | some (.bool b) => b
  | _ => dv

/-- `get_value<std::vector<std::string>>`: an element that is no string is empty. -/
def getStrings (members : Members δ) (name : Text) : List Text :=
  match member members name with
  | some (.array items) => items.map fun
    | .string s => s
    | _ => []
  | _ => []

/-! ## The manager -/

structure ServiceConfig where
  unique : Bool
  threadid : Int
  type : Text
  name : Text
  config : Text
deriving DecidableEq

structure LoadedConfig extends ServerConfig where
  thread : UInt8
  loglevel : Text
  name : Text
  startup : Text
  log : Text
  path : List Text
  cpath : List Text
  services : List ServiceConfig := []
deriving DecidableEq

structure Manager where
  sid_ : Int := 0
  config_ : Text := []
  data_ : Int → Option LoadedConfig := fun _ => none

/-- What is printed of a text that does not parse. -/
structure ParseError where
  error : Text
  code : Int
  line : Int
  col : Int

def ParseError.text (e : ParseError) : Text :=
  lit "Parse server config failed:" ++ e.error ++ lit "(" ++ decimal e.code ++ lit ").line " ++
    decimal e.line ++ lit " col " ++ decimal e.col

/-- The JSON library, the number of processors and the date. -/
structure Env (δ : Type) where
  num : Doubles δ
  parse : Text → Except ParseError (Json δ Text)
  hardware_concurrency : Int
  date : Text

/-- How the body of the loop ends without a server. -/
inductive Stop where
  | prints (text : Text)
  | nullPointer
  | outOfFuel
deriving DecidableEq

/-! ## `prepare` and `parse` -/

/-- `prepare` with the text that earlier calls have left. -/
def Manager.prepare (env : Env δ) (m : Manager) (config : Text) : Option Prepared :=
  let config_ := m.config_ ++ lit "["
  match env.parse config with
  | .error e => some ⟨config_, some e.text⟩
  | .ok (.array cs) => prepareLoop env.num config_ cs
  | .ok _ => some ⟨config_, some (lit "Server config format error : must be json array.")⟩

def loadService (num : Doubles δ) (s : Members δ) : ServiceConfig where
  type := getString s (lit "type") (lit "lua")
  unique := getBool s (lit "unique") false
  threadid := getInt32 s (lit "threadid") 0
  name := getString s (lit "name") []
  config := (Json.object s).write num

def loadServices (num : Doubles δ) : List (Json δ Text) → Except Stop (List ServiceConfig)
  | [] => .ok []
  | .object s :: ss =>
    let sc := loadService num s
    if sc.config = [] then
      .error (.prints (lit "Server config format error: service config must not be empty.\n"))
    else do
      let services ← loadServices num ss
      return sc :: services
  | _ :: _ => .error (.prints (lit "Server config format error: service must be object.\n"))

/-- The log file's name with the date in it. -/
def loadLog (date log : Text) : Except Stop Text :=
  if (find log (lit "#date") 0).isSome then
    match replace (log.length + 1) log (lit "#date") date with
    | some log => .ok log
    | none => .error .outOfFuel
  else .ok log

/-- The body of the loop, up to the insertion in `data_`. -/
def loadServer (env : Env δ) (sid : Int) (c : Members δ) : Except Stop LoadedConfig := do
  let scfg := serverConfig c
  if scfg.sid = -1 then
    throw (.prints (lit "Server config format error:must has sid.\n"))
  let name := getString c (lit "name") []
  if name = [] then
    throw (.prints (lit "Server config format error:must has name.\n"))
  let thread := getInt32 c (lit "thread") env.hardware_concurrency
  let log ← loadLog env.date (getString c (lit "log") [])
  let scfg : LoadedConfig :=
    { scfg with
      name
      thread := UInt8.ofNat (thread % 256).toNat
      startup := getString c (lit "startup") []
      log
      loglevel := getString c (lit "loglevel") (lit "DEBUG")
      path := getStrings c (lit "path")
      cpath := getStrings c (lit "cpath") }
  if scfg.sid = sid then
    -- the default of `services` is a null pointer
    match member c (lit "services") with
    | none => throw .nullPointer
    | some (.array ss) =>
      let services ← loadServices env.num ss
      return { scfg with services }
    | some _ => throw (.prints (lit "Server config format error: services must be array.\n"))
  else return scfg

structure Parsed where
  returned : Bool
  printed : List Text := []
  manager : Manager

/-- `% d` writes a blank in the place of a sign. -/
def alreadyExist (sid : Int) : Text :=
  lit "Server config format error : sid " ++ (if sid < 0 then [] else lit " ") ++ decimal sid ++
    lit " already exist.\n"

/-- `none`: a null pointer is dereferenced, or `FindMember` is called on a value that is no
object. -/
def parseLoop (env : Env δ) (sid : Int) (m : Manager) : List (Json δ Text) → Option Parsed
  | [] => some { returned := true, manager := { m with sid_ := sid } }
  | .object c :: cs =>
    match loadServer env sid c with
    | .error (.prints text) => some { returned := false, printed := [text], manager := m }
    | .error _ => none
    | .ok scfg =>
      if (m.data_ scfg.sid).isSome then
        some { returned := false, printed := [alreadyExist scfg.sid], manager := m }
      else
        parseLoop env sid { m with data_ := Function.update m.data_ scfg.sid (some scfg) } cs
  | _ :: _ => none

/-- What `prepare` returns is not looked at. -/
def Manager.parse (env : Env δ) (m : Manager) (config : Text) (sid : Int) : Option Parsed := do
  let p ← m.prepare env config
  let m := { m with config_ := p.config_ }
  let r ← match env.parse m.config_ with
    | .error e => some { returned := false, printed := [e.text ++ lit ".\n"], manager := m }
    | .ok (.array cs) => parseLoop env sid m cs
    | .ok _ =>
      some { returned := false, manager := m,
             printed := [lit "Server config format error: must be json array.\n"] }
  return { r with printed := p.failure.toList ++ r.printed }

/-! ## The walks -/

/-- Where there is an array, all that is said of its elements is said of these. -/
theorem forall_array_iff {r : Except ParseError (Json δ Text)} {cs : List (Json δ Text)}
    {P : List (Json δ Text) → Prop} (h : r = .ok (.array cs)) :
    (∀ items, r = .ok (.array items) → P items) ↔ P cs := by
  constructor
  · exact fun hall => hall cs h
  · intro hcs items hitems
    cases h.symm.trans hitems
    exact hcs

def IsObject (c : Json δ Text) : Prop := ∃ members, c = .object members

/-- The walk is at `c`, and was at the objects `before`. -/
def Reached (items : List (Json δ Text)) (before : List (Members δ)) (c : Json δ Text) : Prop :=
  before.map .object ++ [c] <+: items

theorem not_reached_nil (before : List (Members δ)) (c : Json δ Text) : ¬ Reached [] before c := by
  intro h
  have hlen := h.length_le
  simp at hlen

theorem reached_first (c : Json δ Text) (cs : List (Json δ Text)) : Reached (c :: cs) [] c :=
  ⟨cs, rfl⟩

theorem reached_later {b : Members δ} {cs : List (Json δ Text)} {before : List (Members δ)}
    {c : Json δ Text} (h : Reached cs before c) : Reached (.object b :: cs) (b :: before) c :=
  List.cons_prefix_cons.mpr ⟨rfl, h⟩

theorem reached_cons {c' c : Json δ Text} {cs : List (Json δ Text)} {before : List (Members δ)}
    (h : Reached (c' :: cs) before c) :
    (before = [] ∧ c = c') ∨ ∃ b more, before = b :: more ∧ c' = .object b ∧ Reached cs more c := by
  cases before with
  | nil =>
    obtain ⟨rfl, -⟩ := List.cons_prefix_cons.mp h
    exact .inl ⟨rfl, rfl⟩
  | cons b more =>
    obtain ⟨rfl, hmore⟩ := List.cons_prefix_cons.mp h
    exact .inr ⟨b, more, rfl, rfl, hmore⟩

/-! ### The first walk -/

section

variable {num : Doubles δ}

/-- The first walk is only ever at objects. -/
def Listable (items : List (Json δ Text)) : Prop :=
  ∀ before c, Reached items before c → (∀ b ∈ before, (serverConfig b).sid ≠ -1) → IsObject c

theorem listable_cons {c : Members δ} {cs : List (Json δ Text)} :
    Listable (.object c :: cs) ↔ ((serverConfig c).sid ≠ -1 → Listable cs) := by
  constructor
  · intro h hsid before c' hreached hbefore
    refine h (c :: before) c' (reached_later hreached) ?_
    exact List.forall_mem_cons.mpr ⟨hsid, hbefore⟩
  · intro h before c' hreached hbefore
    rcases reached_cons hreached with ⟨-, rfl⟩ | ⟨b, more, rfl, hb, hmore⟩
    · exact ⟨c, rfl⟩
    · cases hb
      obtain ⟨hsid, hmores⟩ := List.forall_mem_cons.mp hbefore
      exact h hsid more c' hmore hmores

theorem prepareLoop_isSome (items : List (Json δ Text)) :
    ∀ config_, (prepareLoop num config_ items).isSome ↔ Listable items := by
  induction items with
  | nil =>
    intro config_
    refine iff_of_true rfl ?_
    intro before c h
    exact absurd h (not_reached_nil before c)
  | cons c cs ih =>
    intro config_
    cases c with
    | object c =>
      rw [listable_cons]
      by_cases hsid : (serverConfig c).sid = -1
      · rw [prepareLoop, if_pos hsid]
        exact iff_of_true rfl fun h => absurd hsid h
      · simp only [prepareLoop, if_neg hsid, expand_eq, Option.bind_eq_bind, Option.bind_some]
        rw [ih]
        exact ⟨fun h _ => h, fun h => h hsid⟩
    | _ =>
      refine iff_of_false (fun h => by cases h) fun h => ?_
      obtain ⟨members, hmembers⟩ := h [] _ (reached_first _ cs) (by simp)
      cases hmembers

/-- The text of the servers, up to the first that has no `sid`. -/
def listed (num : Doubles δ) : (started : Bool) → List (Json δ Text) → Text
  | _, [] => lit "]"
  | started, .object c :: cs =>
    (if started then lit "," else []) ++
      (if (serverConfig c).sid = -1 then [] else serverText num c ++ listed num true cs)
  | _, _ :: _ => []

/-- The text with its placeholders replaced, after the text of earlier calls. -/
def rewritten (num : Doubles δ) (config_ : Text) : Except ParseError (Json δ Text) → Text
  | .ok (.array items) => config_ ++ lit "[" ++ listed num (config_ ≠ []) items
  | _ => config_ ++ lit "["

theorem serverText_length (num : Doubles δ) (c : Members δ) : 0 < (serverText num c).length := by
  obtain ⟨more, hmore⟩ := textOf_object_head num (actualText (serverConfig c)) c
  have hbrace : (lit "\x7b").length = 1 := by
    rw [lit_eq]
    decide
  rw [serverText, hmore, List.length_append, hbrace]
  omega

theorem prepareLoop_config {p : Prepared} (items : List (Json δ Text)) :
    ∀ config_, 0 < config_.length → prepareLoop num config_ items = some p →
      p.config_ = config_ ++ listed num (1 < config_.length) items := by
  induction items with
  | nil =>
    intro config_ _ h
    cases h
    rfl
  | cons c cs ih =>
    intro config_ hlen h
    cases c with
    | object c =>
      have hcomma : (if config_.length > 1 then config_ ++ lit "," else config_)
          = config_ ++ (if 1 < config_.length then lit "," else []) := by
        split <;> simp
      have htext : expand num c = some (serverText num c) := expand_eq c
      simp only [prepareLoop, hcomma, htext, Option.bind_eq_bind, Option.bind_some] at h
      simp only [listed, decide_eq_true_eq]
      split at h
      next hsid =>
        cases h
        rw [if_pos hsid, List.append_nil]
      next hsid =>
        have hmore := serverText_length num c
        have hlong : 1 < (config_ ++ (if 1 < config_.length then lit "," else []) ++
            serverText num c).length := by
          rw [List.length_append, List.length_append]
          omega
        rw [if_neg hsid, ih _ (Nat.zero_lt_of_lt hlong) h, decide_eq_true hlong]
        simp only [List.append_assoc]
    | _ => cases h

/-- `prepare` returns when its walk is only at objects, and then `config_` is the rewritten text. -/
theorem prepare_isSome (env : Env δ) (m : Manager) (config : Text) :
    (m.prepare env config).isSome ↔
      ∀ items, env.parse config = .ok (.array items) → Listable items := by
  unfold Manager.prepare
  split
  next e he => simp [he]
  next cs hcs =>
    rw [prepareLoop_isSome, forall_array_iff hcs]
  next d hother hd =>
    refine iff_of_true rfl fun items hitems => ?_
    cases hd.symm.trans hitems
    exact (hother items rfl).elim

theorem prepare_config {env : Env δ} {m : Manager} {config : Text} {p : Prepared}
    (h : m.prepare env config = some p) :
    p.config_ = rewritten env.num m.config_ (env.parse config) := by
  have hone : (lit "[").length = 1 := by
    rw [lit_eq]
    decide
  unfold Manager.prepare at h
  split at h
  next e he =>
    cases h
    rw [he]
    rfl
  next cs hcs =>
    rw [hcs, prepareLoop_config cs _ (by rw [List.length_append]; omega) h, rewritten]
    have hstarted : (1 < (m.config_ ++ lit "[").length) ↔ m.config_ ≠ [] := by
      rw [List.length_append, hone, ← List.length_pos_iff_ne_nil]
      omega
    simp only [hstarted]
  next d hother hd =>
    cases h
    rw [hd, rewritten]
    rintro items ⟨⟩
    exact hother items rfl

end

/-! ### The second walk -/

section

variable {env : Env δ} {sid : Int}

/-- The loop goes on after the server, if its `sid` is new. -/
structure Passes (sid : Int) (c : Members δ) : Prop where
  hasSid : (serverConfig c).sid ≠ -1
  hasName : getString c (lit "name") [] ≠ []
  services : (serverConfig c).sid = sid →
    ∃ ss : List (Members δ), member c (lit "services") = some (.array (ss.map .object))

/-- The server is selected, and has no `services`. -/
structure Bare (sid : Int) (c : Members δ) : Prop where
  hasSid : (serverConfig c).sid ≠ -1
  hasName : getString c (lit "name") [] ≠ []
  selected : (serverConfig c).sid = sid
  services : member c (lit "services") = none

theorem Bare.not_passes {c : Members δ} (h : Bare sid c) : ¬ Passes sid c := by
  intro hpasses
  obtain ⟨ss, hss⟩ := hpasses.services h.selected
  rw [h.services] at hss
  cases hss

theorem write_object_ne_nil (num : Doubles δ) (s : Members δ) : (Json.object s).write num ≠ [] := by
  obtain ⟨more, hmore⟩ := textOf_object_head num (List.flatMap escape) s
  rw [write, hmore, lit_eq]
  exact List.cons_ne_nil _ _

theorem loadServices_cases (num : Doubles δ) (items : List (Json δ Text)) :
    (∃ ss : List (Members δ), items = ss.map .object ∧
      loadServices num items = .ok (ss.map (loadService num))) ∨
    ((∀ ss : List (Members δ), items ≠ ss.map .object) ∧
      ∃ text, loadServices num items = .error (.prints text)) := by
  induction items with
  | nil => exact .inl ⟨[], rfl, rfl⟩
  | cons s items ih =>
    cases s with
    | object s =>
      have hstep : loadServices num (.object s :: items)
          = (loadServices num items).map (loadService num s :: ·) := by
        have hconfig : (loadService num s).config ≠ [] := write_object_ne_nil num s
        rw [loadServices, if_neg hconfig]
        cases loadServices num items <;> rfl
      rcases ih with ⟨ss, rfl, hload⟩ | ⟨hother, text, hload⟩
      · refine .inl ⟨s :: ss, rfl, ?_⟩
        rw [hstep, hload]
        rfl
      · refine .inr ⟨fun ss hss => ?_, text, by rw [hstep, hload]; rfl⟩
        cases ss with
        | nil => cases hss
        | cons s' ss => exact hother ss (List.cons.inj hss).2
    | _ =>
      refine .inr ⟨fun ss hss => ?_, _, rfl⟩
      cases ss with
      | nil => cases hss
      | cons s' ss => cases (List.cons.inj hss).1

theorem loadLog_ok (date log : Text) : ∃ log', loadLog date log = .ok log' := by
  unfold loadLog
  have hne : lit "#date" ≠ [] := by
    rw [lit_eq]
    decide
  split
  · rw [replace_eq hne _ (Nat.lt_succ_self _)]
    exact ⟨_, rfl⟩
  · exact ⟨log, rfl⟩

/-- What the body of the loop can do. -/
theorem loadServer_cases (env : Env δ) (sid : Int) (c : Members δ) :
    (Passes sid c ∧ ∃ scfg, loadServer env sid c = .ok scfg ∧ scfg.sid = (serverConfig c).sid) ∨
    (Bare sid c ∧ loadServer env sid c = .error .nullPointer) ∨
    (¬ Passes sid c ∧ ¬ Bare sid c ∧ ∃ text, loadServer env sid c = .error (.prints text)) := by
  obtain ⟨log, hlog⟩ := loadLog_ok env.date (getString c (lit "log") [])
  unfold loadServer
  by_cases hsid : (serverConfig c).sid = -1
  · rw [if_pos hsid]
    exact .inr (.inr ⟨fun h => h.hasSid hsid, fun h => h.hasSid hsid, _, rfl⟩)
  by_cases hname : getString c (lit "name") [] = []
  · rw [if_neg hsid, if_pos hname]
    exact .inr (.inr ⟨fun h => h.hasName hname, fun h => h.hasName hname, _, rfl⟩)
  simp only [if_neg hsid, if_neg hname, hlog, Bind.bind, Except.bind]
  by_cases hselected : (serverConfig c).sid = sid
  · rw [if_pos hselected]
    cases hservices : member c (lit "services") with
    | none => exact .inr (.inl ⟨⟨hsid, hname, hselected, hservices⟩, rfl⟩)
    | some d =>
      have hbare : ¬ Bare sid c := by
        intro h
        rw [h.services] at hservices
        cases hservices
      cases d with
      | array items =>
        rcases loadServices_cases env.num items with ⟨ss, rfl, hload⟩ | ⟨hother, text, hload⟩
        · simp only [hload]
          exact .inl ⟨⟨hsid, hname, fun _ => ⟨ss, hservices⟩⟩, _, rfl, rfl⟩
        · simp only [hload]
          refine .inr (.inr ⟨fun h => ?_, hbare, text, rfl⟩)
          obtain ⟨ss, hss⟩ := h.services hselected
          cases hservices.symm.trans hss
          exact hother ss rfl
      | _ =>
        refine .inr (.inr ⟨fun h => ?_, hbare, _, rfl⟩)
        obtain ⟨ss, hss⟩ := h.services hselected
        cases hservices.symm.trans hss
  · rw [if_neg hselected]
    exact .inl ⟨⟨hsid, hname, fun h => absurd h hselected⟩, _, rfl, rfl⟩

/-- No `sid` is there twice. -/
def New (data_ : Int → Option LoadedConfig) (servers : List (Members δ)) : Prop :=
  (servers.map fun b => (serverConfig b).sid).Nodup ∧
    ∀ b ∈ servers, data_ (serverConfig b).sid = none

theorem new_cons {data_ : Int → Option LoadedConfig} {c : Members δ} {servers : List (Members δ)}
    (scfg : LoadedConfig) :
    New data_ (c :: servers) ↔ data_ (serverConfig c).sid = none ∧
      New (Function.update data_ (serverConfig c).sid (some scfg)) servers := by
  have hupdate : ∀ sid', Function.update data_ (serverConfig c).sid (some scfg) sid' = none ↔
      sid' ≠ (serverConfig c).sid ∧ data_ sid' = none := by
    intro sid'
    by_cases heq : sid' = (serverConfig c).sid
    · simp [heq]
    · simp [heq]
  unfold New
  rw [List.map_cons, List.nodup_cons, List.forall_mem_cons]
  constructor
  · rintro ⟨⟨hout, hnodup⟩, hnone, hnones⟩
    refine ⟨hnone, hnodup, fun b hb => (hupdate _).mpr ⟨?_, hnones b hb⟩⟩
    intro heq
    exact hout (heq ▸ List.mem_map.mpr ⟨b, hb, rfl⟩)
  · rintro ⟨hnone, hnodup, hnones⟩
    refine ⟨⟨?_, hnodup⟩, hnone, fun b hb => ((hupdate _).mp (hnones b hb)).2⟩
    intro hin
    obtain ⟨b, hb, heq⟩ := List.mem_map.mp hin
    exact ((hupdate _).mp (hnones b hb)).1 heq

/-- The second walk is only ever at objects, and the selected server has services. -/
def Loadable (sid : Int) (data_ : Int → Option LoadedConfig) (items : List (Json δ Text)) : Prop :=
  ∀ before c, Reached items before c → (∀ b ∈ before, Passes sid b) → New data_ before →
    ∃ members, c = .object members ∧ ¬ Bare sid members

theorem Loadable.head {data_ : Int → Option LoadedConfig} {c : Json δ Text}
    {cs : List (Json δ Text)} (h : Loadable sid data_ (c :: cs)) :
    ∃ members, c = .object members ∧ ¬ Bare sid members :=
  h [] c (reached_first c cs) (by simp) (by simp [New])

theorem loadable_cons {data_ : Int → Option LoadedConfig} {c : Members δ}
    {cs : List (Json δ Text)} (scfg : LoadedConfig) :
    Loadable sid data_ (.object c :: cs) ↔ ¬ Bare sid c ∧
      (Passes sid c → data_ (serverConfig c).sid = none →
        Loadable sid (Function.update data_ (serverConfig c).sid (some scfg)) cs) := by
  constructor
  · intro h
    constructor
    · obtain ⟨members, hmembers, hbare⟩ := h.head
      cases hmembers
      exact hbare
    · intro hpasses hnone before c' hreached hbefore hnew
      refine h (c :: before) c' (reached_later hreached) ?_ ((new_cons scfg).mpr ⟨hnone, hnew⟩)
      exact List.forall_mem_cons.mpr ⟨hpasses, hbefore⟩
  · rintro ⟨hbare, h⟩ before c' hreached hbefore hnew
    rcases reached_cons hreached with ⟨-, rfl⟩ | ⟨b, more, rfl, hb, hmore⟩
    · exact ⟨c, rfl, hbare⟩
    · cases hb
      obtain ⟨hpasses, hmores⟩ := List.forall_mem_cons.mp hbefore
      obtain ⟨hnone, hnews⟩ := (new_cons scfg).mp hnew
      exact h hpasses hnone more c' hmore hmores hnews

theorem parseLoop_isSome (items : List (Json δ Text)) :
    ∀ m : Manager, (parseLoop env sid m items).isSome ↔ Loadable sid m.data_ items := by
  induction items with
  | nil =>
    intro m
    refine iff_of_true rfl fun before c h => ?_
    exact absurd h (not_reached_nil before c)
  | cons c cs ih =>
    intro m
    cases c with
    | object c =>
      rw [parseLoop]
      rcases loadServer_cases env sid c with
        ⟨hpasses, scfg, hload, hsid⟩ | ⟨hbare, hload⟩ | ⟨hpasses, hbare, text, hload⟩
      · rw [hload, loadable_cons scfg]
        have hnot : ¬ Bare sid c := fun h => h.not_passes hpasses
        simp only [hsid]
        split
        next hin =>
          refine iff_of_true rfl ⟨hnot, fun _ hnone => ?_⟩
          rw [hnone] at hin
          cases hin
        next hout =>
          rw [ih]
          have hnone : m.data_ (serverConfig c).sid = none := by simpa using hout
          exact ⟨fun h => ⟨hnot, fun _ _ => h⟩, fun h => h.2 hpasses hnone⟩
      · rw [hload]
        refine iff_of_false nofun fun h => ?_
        obtain ⟨members, hmembers, hnot⟩ := h.head
        cases hmembers
        exact hnot hbare
      · rw [hload]
        refine iff_of_true rfl fun before c' hreached hbefore _ => ?_
        rcases reached_cons hreached with ⟨-, rfl⟩ | ⟨b, more, rfl, hb, -⟩
        · exact ⟨c, rfl, hbare⟩
        · cases hb
          exact absurd (List.forall_mem_cons.mp hbefore).1 hpasses
    | _ =>
      refine iff_of_false nofun fun h => ?_
      obtain ⟨members, hmembers, -⟩ := h.head
      cases hmembers

end

/-! ## The run -/

/-- Both walks are only ever at objects, and the selected server has services. -/
def Guarded (env : Env δ) (m : Manager) (config : Text) (sid : Int) : Prop :=
  (∀ items, env.parse config = .ok (.array items) → Listable items) ∧
  ∀ items, env.parse (rewritten env.num m.config_ (env.parse config)) = .ok (.array items) →
    Loadable sid m.data_ items

/-- The second walk is about the text that `prepare` has left. -/
theorem parse_isSome {env : Env δ} {m : Manager} {config : Text} {p : Prepared} (sid : Int)
    (h : m.prepare env config = some p) :
    (m.parse env config sid).isSome ↔
      ∀ items, env.parse p.config_ = .ok (.array items) → Loadable sid m.data_ items := by
  unfold Manager.parse
  rw [h]
  simp only [Option.bind_eq_bind, Option.bind_some]
  split
  next e he =>
    refine iff_of_true rfl fun items hitems => ?_
    cases he.symm.trans hitems
  next cs hcs =>
    have hprinted : ∀ r : Option Parsed,
        (r.bind fun r => pure { r with printed := p.failure.toList ++ r.printed }).isSome
          = r.isSome := by
      intro r
      cases r <;> rfl
    rw [hprinted, parseLoop_isSome, forall_array_iff hcs]
  next d hother hd =>
    refine iff_of_true rfl fun items hitems => ?_
    cases hd.symm.trans hitems
    exact (hother items rfl).elim

/-- **Loading.**  From any state of the manager, with any text. -/
theorem returns_iff (env : Env δ) (m : Manager) (config : Text) (sid : Int) :
    (m.parse env config sid).isSome ↔ Guarded env m config sid := by
  unfold Guarded
  rw [← prepare_isSome env m config]
  cases hprepare : m.prepare env config with
  | none =>
    refine iff_of_false ?_ fun h => absurd h.1 nofun
    simp [Manager.parse, hprepare]
  | some p =>
    rw [← prepare_config hprepare, parse_isSome sid hprepare]
    exact (and_iff_right rfl).symm

/-- On the first call, with a parser that inverts the writer and no host that needs escapes, the
second walk is about the document with its placeholders replaced. -/
theorem returns_iff_of_safe {env : Env δ} {m : Manager} {config : Text} {servers : List (Members δ)}
    (hinverse : ∀ d, env.parse (d.write env.num) = .ok d) (hfirst : m.config_ = [])
    (hparse : env.parse config = .ok (.array (servers.map .object)))
    (hsid : ∀ c ∈ servers, (serverConfig c).sid ≠ -1) (hsafe : ∀ c ∈ servers, Safe env.num c)
    (sid : Int) :
    (m.parse env config sid).isSome ↔
      Loadable sid m.data_
        (servers.map fun c => (Json.object c).map (expandString (serverConfig c))) := by
  have hexpands : Expands env.num (fun t => (env.parse t).toOption) servers := by
    refine expands_of_safe hsid ?_ hsafe
    rw [hinverse]
    rfl
  obtain ⟨text, htext, hexpanded⟩ := hexpands
  have hprepare : m.prepare env config = some { config_ := text } := by
    rw [Manager.prepare, hparse, hfirst]
    exact htext
  have hsecond : env.parse text = .ok (expanded servers) := by
    dsimp only at hexpanded
    cases hresult : env.parse text with
    | error e =>
      rw [hresult] at hexpanded
      cases hexpanded
    | ok d =>
      rw [hresult] at hexpanded
      cases hexpanded
      rfl
  rw [parse_isSome sid hprepare, forall_array_iff hsecond]

/-- The reader as the library. -/
def readerEnv : Env Empty where
  num := noDoubles
  parse t :=
    match read t with
    | some d => .ok d
    | none => .error ⟨lit "Invalid value.", 3, 1, 1⟩
  hardware_concurrency := 1
  date := lit "20240101000000"

/-- An element that is no object. -/
example : ({} : Manager).prepare readerEnv (lit "[1]") = none := by decide +kernel

theorem not_returns :
    ¬ ∀ (δ : Type) (env : Env δ) (m : Manager) (config : Text) (sid : Int),
      (m.parse env config sid).isSome := by
  intro h
  have hbare := h Empty readerEnv {} (lit "[\x7b\"sid\":1,\"name\":\"a\"\x7d]") 1
  revert hbare
  decide +kernel

end HappyServer.Config
