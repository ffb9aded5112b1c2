import HappyServer.Config.Replace
import HappyServer.Lib.JsonReader

/-!
# Placeholders of the configuration (`core/server_config.hpp`)

`prepare` writes every server of the configuration as compact text, and replaces `#sid`,
`#outer_host` and `#inner_host` in the text.  The hosts go into it as they are, without the escapes
that a string of the text needs.

* `Glyph`: a character of a string in such a text.  `raw` is one that was put there and would have
  needed an escape.
* `glyphs3_mend`: the text stands for the right strings but for its raw characters.

    the text parses to the document with the placeholders replaced in its strings
      ↔ no host that needs escapes replaces a placeholder                    (prepare_iff)
-/

namespace HappyServer.Config

open Json

abbrev Text := List UInt8

variable {δ : Type}

/-! ## `rapidjson::get_value` -/

abbrev Members (δ : Type) := List (Text × Json δ Text)

/-- `FindMember`, at the first member of the name. -/
def member (members : Members δ) (name : Text) : Option (Json δ Text) :=
  (members.find? fun m => m.1 = name).map Prod.snd

def getInt32 (members : Members δ) (name : Text) (dv : Int) : Int :=
  match member members name with
  | some (.int n) => if -2 ^ 31 ≤ n.val ∧ n.val < 2 ^ 31 then n.val else dv
  | _ => dv

def getString (members : Members δ) (name : Text) (dv : Text) : Text :=
  match member members name with
  | some (.string s) => s
  | _ => dv

/-! ## `prepare` -/

structure ServerConfig where
  sid : Int
  outer_host : Text
  inner_host : Text
deriving DecidableEq

def serverConfig (c : Members δ) : ServerConfig where
  sid := getInt32 c (lit "sid") (-1)
  outer_host := getString c (lit "outer_host") (lit "*")
  inner_host := getString c (lit "inner_host") (lit "127.0.0.1")

/-- The text of one server. -/
def expand (num : Doubles δ) (c : Members δ) : Option Text := do
  let scfg := serverConfig c
  let s := (Json.object c).write num
  let s ← replace (s.length + 1) s (lit "#sid") (decimal scfg.sid)
  let s ← replace (s.length + 1) s (lit "#outer_host") scfg.outer_host
  replace (s.length + 1) s (lit "#inner_host") scfg.inner_host

/-- `config_`, and what is printed before `false` is returned. -/
structure Prepared where
  config_ : Text
  failure : Option Text := none
deriving DecidableEq

/-- `none`: `FindMember` is called on a value that is no object. -/
def prepareLoop (num : Doubles δ) (config_ : Text) : List (Json δ Text) → Option Prepared
  | [] => some { config_ := config_ ++ lit "]" }
  | .object c :: cs =>
    let config_ := if config_.length > 1 then config_ ++ lit "," else config_
    if (serverConfig c).sid = -1 then
      some ⟨config_, some (lit "Server config format error:must has sid")⟩
    else do
      let s ← expand num c
      prepareLoop num (config_ ++ s) cs
  | _ :: _ => none

def prepare (num : Doubles δ) : Json δ Text → Option Prepared
  | .array cs => prepareLoop num (lit "[") cs
  | _ => some ⟨lit "[", some (lit "Server config format error : must be json array.")⟩

/-- The three substitutions in a string. -/
def expandString (scfg : ServerConfig) (s : Text) : Text :=
  subst (lit "#inner_host") scfg.inner_host
    (subst (lit "#outer_host") scfg.outer_host (subst (lit "#sid") (decimal scfg.sid) s))

/-- What the configuration should stand for. -/
def expanded (servers : List (Members δ)) : Json δ Text :=
  .array (servers.map fun c => (Json.object c).map (expandString (serverConfig c)))

/-- No character needs an escape. -/
def Plain (s : Text) : Prop := ∀ c ∈ s, escapable c = false

/-- A host that needs escapes replaces nothing in the strings and keys of the server. -/
def Safe (num : Doubles δ) (c : Members δ) : Prop :=
  ∀ s ∈ (Json.object c).strings num,
    (lit "#outer_host" <:+: subst (lit "#sid") (decimal (serverConfig c).sid) s →
      Plain (serverConfig c).outer_host) ∧
    (lit "#inner_host" <:+: subst (lit "#outer_host") (serverConfig c).outer_host
        (subst (lit "#sid") (decimal (serverConfig c).sid) s) →
      Plain (serverConfig c).inner_host)

/-- The text that `prepare` makes parses to what the configuration should stand for. -/
def Expands (num : Doubles δ) (parse : Text → Option (Json δ Text)) (servers : List (Members δ)) :
    Prop :=
  ∃ text, prepare num (.array (servers.map .object)) = some { config_ := text } ∧
    parse text = some (expanded servers)

/-! ## Glyphs -/

inductive Glyph where
  | char (c : UInt8)
  | raw (c : UInt8) (h : escapable c = true)
deriving DecidableEq

def Glyph.text : Glyph → Text
  | .char c => escape c
  | .raw c _ => [c]

/-- The glyph that should be there. -/
def Glyph.mend : Glyph → Glyph
  | .char c => .char c
  | .raw c _ => .char c

def glyphText (gs : List Glyph) : Text := gs.flatMap Glyph.text

def written (s : Text) : List Glyph := s.map .char

/-- A text as `replace` inserts it. -/
def inserted (s : Text) : List Glyph :=
  s.map fun c => if h : escapable c = true then .raw c h else .char c

@[simp] theorem glyphText_cons (g : Glyph) (gs : List Glyph) :
    glyphText (g :: gs) = g.text ++ glyphText gs := rfl

@[simp] theorem glyphText_append (gs gs' : List Glyph) :
    glyphText (gs ++ gs') = glyphText gs ++ glyphText gs' := List.flatMap_append

theorem glyphText_written (s : Text) : glyphText (written s) = s.flatMap escape := by
  simp [glyphText, written, List.flatMap_map, Glyph.text]

theorem glyphText_inserted (s : Text) : glyphText (inserted s) = s := by
  induction s with
  | nil => rfl
  | cons c s ih =>
    have htext : (if h : escapable c = true then Glyph.raw c h else .char c).text = [c] := by
      split
      · rfl
      next h => exact escape_plain (Bool.eq_false_iff.mpr h)
    rw [inserted, List.map_cons, glyphText_cons, htext]
    exact congrArg (c :: ·) ih

theorem mend_inserted (s : Text) : (inserted s).map Glyph.mend = written s := by
  rw [inserted, written, List.map_map]
  refine List.map_congr_left fun c _ => ?_
  dsimp only [Function.comp_apply]
  split <;> rfl

theorem raw_inserted {s : Text} {c : UInt8} {h : escapable c = true} :
    Glyph.raw c h ∈ inserted s ↔ c ∈ s := by
  rw [inserted, List.mem_map]
  constructor
  · rintro ⟨c', hc', heq⟩
    split at heq
    · cases heq
      exact hc'
    · cases heq
  · intro hc
    exact ⟨c, hc, dif_pos h⟩

theorem raw_written {s : Text} {c : UInt8} {h : escapable c = true} : Glyph.raw c h ∉ written s := by
  simp [written]

/-- A placeholder: a `#`, and characters that need no escape. -/
structure Placeholder (old : Text) : Prop where
  head : ∃ more, old = 35 :: more
  plain : Plain old

theorem placeholder_of_decide {old : Text}
    (h : old.head? = some 35 ∧ (old.all fun c => !escapable c) = true) : Placeholder old := by
  refine ⟨⟨old.tail, (List.cons_head?_tail h.1).symm⟩, fun c hc => ?_⟩
  exact Bool.not_eq_true' _ ▸ List.all_eq_true.mp h.2 c hc

theorem placeholder_sid : Placeholder (lit "#sid") := by
  have hlit : lit "#sid" = [35, 115, 105, 100] := lit_eq _
  rw [hlit]
  exact placeholder_of_decide (by decide)

theorem placeholder_outer : Placeholder (lit "#outer_host") := by
  have hlit : lit "#outer_host" = [35, 111, 117, 116, 101, 114, 95, 104, 111, 115, 116] := lit_eq _
  rw [hlit]
  exact placeholder_of_decide (by decide)

theorem placeholder_inner : Placeholder (lit "#inner_host") := by
  have hlit : lit "#inner_host" = [35, 105, 110, 110, 101, 114, 95, 104, 111, 115, 116] := lit_eq _
  rw [hlit]
  exact placeholder_of_decide (by decide)

variable {old new : Text}

theorem Placeholder.ne_nil (h : Placeholder old) : old ≠ [] := by
  obtain ⟨more, rfl⟩ := h.head
  exact nofun

theorem Placeholder.written_ne_nil (h : Placeholder old) : written old ≠ [] := by
  simpa [written] using h.ne_nil

theorem Placeholder.not_mem_of_escapable (h : Placeholder old) {c : UInt8}
    (hc : escapable c = true) : c ∉ old := by
  intro hmem
  rw [h.plain c hmem] at hc
  cases hc

/-- The text of a glyph that is not of a placeholder begins with a byte that is not either. -/
theorem Placeholder.text_head (h : Placeholder old) {g : Glyph} (hg : g ∉ written old) :
    ∃ b more, g.text = b :: more ∧ b ∉ old ∧ 35 ∉ g.text := by
  obtain ⟨rest, hrest⟩ := h.head
  have hhash : 35 ∈ old := by simp [hrest]
  have hself : ∀ c, c ∉ old → (35 : UInt8) ∉ [c] := by
    rintro c hc hmem
    rw [List.mem_singleton] at hmem
    exact hc (hmem ▸ hhash)
  cases g with
  | raw c hc =>
    have hout := h.not_mem_of_escapable hc
    exact ⟨c, [], rfl, hout, hself c hout⟩
  | char c =>
    have hout : c ∉ old := by simpa [written] using hg
    cases hc : escapable c with
    | false => exact ⟨c, [], escape_plain hc, hout, by rw [Glyph.text, escape_plain hc]; exact hself c hout⟩
    | true =>
      obtain ⟨hhead, hfree, -⟩ := escape_escapable hc
      exact ⟨backslash, (escape c).tail, (List.cons_head?_tail hhead).symm,
        h.not_mem_of_escapable (by decide), hfree⟩

/-- A placeholder in the text is one in the glyphs. -/
theorem Placeholder.prefix_glyphs (h : Placeholder old) (rest : Text) :
    ∀ part gs, part ⊆ old → part <+: glyphText gs ++ quote :: rest → written part <+: gs := by
  intro part
  induction part with
  | nil => intro gs _ _; exact List.nil_prefix
  | cons b part ih =>
    intro gs hsub hpre
    obtain ⟨hb, hpart⟩ := List.cons_subset.mp hsub
    cases gs with
    | nil =>
      obtain ⟨rfl, -⟩ := List.cons_prefix_cons.mp hpre
      exact absurd hb (h.not_mem_of_escapable (by decide))
    | cons g gs =>
      have hg : g ∈ written old := by
        by_contra hg
        obtain ⟨b', more, htext, hout, -⟩ := h.text_head hg
        rw [glyphText_cons, htext] at hpre
        obtain ⟨rfl, -⟩ := List.cons_prefix_cons.mp hpre
        exact hout hb
      obtain ⟨c, hc, rfl⟩ := List.mem_map.mp hg
      have htext : Glyph.text (.char c) = [c] := escape_plain (h.plain c hc)
      rw [glyphText_cons, htext] at hpre
      obtain ⟨hbc, hmore⟩ := List.cons_prefix_cons.mp hpre
      subst hbc
      exact List.cons_prefix_cons.mpr ⟨rfl, ih gs hpart hmore⟩

/-- `replace` in the text of a string, up to the quote that ends it. -/
theorem Placeholder.subst_glyphText (h : Placeholder old) (new : Text) (gs : List Glyph) (rest : Text) :
    subst old new (glyphText gs ++ quote :: rest)
      = glyphText (subst (written old) (inserted new) gs) ++ quote :: subst old new rest := by
  have hquote : quote ∉ old := h.not_mem_of_escapable (by decide)
  induction gs using subst_induction h.written_ne_nil with
  | nil => exact subst_cons_of_not_mem h.ne_nil hquote
  | occurs gs ih =>
    have hself : glyphText (written old) = old := by
      rw [glyphText_written]
      conv_rhs => rw [← List.flatMap_singleton' old]
      exact List.flatMap_congr fun c hc => escape_plain (h.plain c hc)
    rw [subst_append_self h.written_ne_nil, glyphText_append, glyphText_append, hself,
      glyphText_inserted, List.append_assoc, subst_append_self h.ne_nil, ih, List.append_assoc]
  | passes g gs hpre ih =>
    rw [subst_cons_pass hpre, glyphText_cons, glyphText_cons, List.append_assoc,
      List.append_assoc, ← ih]
    by_cases hg : g ∈ written old
    · obtain ⟨c, hc, rfl⟩ := List.mem_map.mp hg
      have htext : Glyph.text (.char c) = [c] := escape_plain (h.plain c hc)
      rw [htext]
      refine subst_cons_pass fun hin => hpre ?_
      refine h.prefix_glyphs rest old (.char c :: gs) (List.Subset.refl old) ?_
      rw [glyphText_cons, htext]
      exact hin
    · obtain ⟨b, more, -, -, hfree⟩ := h.text_head hg
      obtain ⟨old', rfl⟩ := h.head
      exact subst_append_of_not_mem hfree

theorem mend_map_written (s : Text) : (written s).map Glyph.mend = written s := by
  rw [written, List.map_map]
  rfl

/-- What `mend` turns into a glyph of a placeholder was that glyph. -/
theorem Placeholder.mend_inj (h : Placeholder old) :
    ∀ g ∈ written old, ∀ g', Glyph.mend g' = Glyph.mend g → g' = g := by
  intro g hg g' heq
  obtain ⟨c, hc, rfl⟩ := List.mem_map.mp hg
  cases g' with
  | char c' => exact heq
  | raw c' hc' =>
    obtain rfl : c' = c := by simpa [Glyph.mend] using heq
    exact absurd hc (h.not_mem_of_escapable hc')

theorem char_inj : ∀ c ∈ old, ∀ c', Glyph.char c' = Glyph.char c → c' = c := by
  intro c _ c' heq
  simpa using heq

/-- The glyphs stand for what substitution makes of the string. -/
theorem Placeholder.mend_subst (h : Placeholder old) (new : Text) {gs : List Glyph} {s : Text}
    (hgs : gs.map Glyph.mend = written s) :
    (subst (written old) (inserted new) gs).map Glyph.mend = written (subst old new s) := by
  rw [← subst_map h.mend_inj h.written_ne_nil, mend_map_written, mend_inserted, hgs]
  exact subst_map char_inj h.ne_nil new s

theorem Placeholder.infix_glyphs (h : Placeholder old) {gs : List Glyph} {s : Text}
    (hgs : gs.map Glyph.mend = written s) : written old <:+: gs ↔ old <:+: s := by
  rw [← infix_map_iff h.mend_inj, mend_map_written, hgs]
  exact infix_map_iff char_inj

/-- A raw glyph was there before, or is a character of the replacement. -/
theorem Placeholder.raw_subst (h : Placeholder old) {gs : List Glyph} {c : UInt8}
    {hc : escapable c = true} :
    Glyph.raw c hc ∈ subst (written old) (inserted new) gs ↔
      Glyph.raw c hc ∈ gs ∨ (written old <:+: gs ∧ c ∈ new) := by
  rw [mem_subst h.written_ne_nil raw_written, raw_inserted]

/-! ## A string of the text -/

/-- What the three rounds of `replace` make of a string. -/
def expandGlyphs (scfg : ServerConfig) (s : Text) : List Glyph :=
  subst (written (lit "#inner_host")) (inserted scfg.inner_host)
    (subst (written (lit "#outer_host")) (inserted scfg.outer_host)
      (subst (written (lit "#sid")) (inserted (decimal scfg.sid)) (written s)))

theorem mend_expandGlyphs (scfg : ServerConfig) (s : Text) :
    (expandGlyphs scfg s).map Glyph.mend = written (expandString scfg s) :=
  placeholder_inner.mend_subst _ (placeholder_outer.mend_subst _
    (placeholder_sid.mend_subst _ (mend_map_written s)))

theorem plain_decimal (n : Int) : Plain (decimal n) := by
  intro b hb
  rcases mem_decimal hb with rfl | ⟨hlow, hhigh⟩
  · decide
  · simp only [escapable, Bool.or_eq_false_iff, decide_eq_false_iff_not, beq_eq_false_iff_ne]
    refine ⟨⟨fun hlt => ?_, ?_⟩, ?_⟩
    · have hlt' : b.toNat < 32 := UInt8.lt_iff_toNat_lt.mp hlt
      omega
    · rintro rfl
      exact absurd hlow (by decide)
    · rintro rfl
      exact absurd hhigh (by decide)

/-- The raw characters of a string. -/
theorem raw_expandGlyphs {scfg : ServerConfig} {s : Text} {c : UInt8} {hc : escapable c = true} :
    Glyph.raw c hc ∈ expandGlyphs scfg s ↔
      (lit "#outer_host" <:+: subst (lit "#sid") (decimal scfg.sid) s ∧ c ∈ scfg.outer_host) ∨
      (lit "#inner_host" <:+: subst (lit "#outer_host") scfg.outer_host
          (subst (lit "#sid") (decimal scfg.sid) s) ∧ c ∈ scfg.inner_host) := by
  have hsid := placeholder_sid.mend_subst (decimal scfg.sid) (mend_map_written s)
  have houter := placeholder_outer.mend_subst scfg.outer_host hsid
  have hdigit : c ∉ decimal scfg.sid := fun hmem => by
    rw [plain_decimal _ c hmem] at hc
    cases hc
  rw [expandGlyphs, placeholder_inner.raw_subst, placeholder_outer.raw_subst,
    placeholder_sid.raw_subst, placeholder_inner.infix_glyphs houter,
    placeholder_outer.infix_glyphs hsid]
  simp only [raw_written, hdigit, and_false, false_or]

/-- The text that a string has. -/
def actualText (scfg : ServerConfig) (s : Text) : Text := glyphText (expandGlyphs scfg s)

/-- The text that it should have. -/
def idealText (scfg : ServerConfig) (s : Text) : Text := (expandString scfg s).flatMap escape

theorem idealText_eq (scfg : ServerConfig) (s : Text) :
    idealText scfg s = glyphText ((expandGlyphs scfg s).map Glyph.mend) := by
  rw [mend_expandGlyphs, glyphText_written, idealText]

theorem strokes_mend_le (gs : List Glyph) :
    strokes (glyphText gs) ≤ strokes (glyphText (gs.map Glyph.mend)) := by
  induction gs with
  | nil => exact Nat.le_refl _
  | cons g gs ih =>
    rw [List.map_cons, glyphText_cons, glyphText_cons, strokes_append, strokes_append]
    cases g with
    | char c => exact Nat.add_le_add_left ih _
    | raw c hc => exact Nat.add_le_add (escape_escapable hc).2.2.le ih

theorem strokes_mend_lt {gs : List Glyph} {c : UInt8} {hc : escapable c = true}
    (h : Glyph.raw c hc ∈ gs) :
    strokes (glyphText gs) < strokes (glyphText (gs.map Glyph.mend)) := by
  obtain ⟨before, after, rfl⟩ := List.append_of_mem h
  have hbefore := strokes_mend_le before
  have hafter := strokes_mend_le after
  have hraw : strokes [c] < strokes (escape c) := (escape_escapable hc).2.2
  simp only [List.map_append, List.map_cons, glyphText_append, glyphText_cons, strokes_append,
    Glyph.mend, Glyph.text]
  omega

theorem glyphText_mend {gs : List Glyph}
    (h : ∀ c (hc : escapable c = true), Glyph.raw c hc ∉ gs) :
    glyphText gs = glyphText (gs.map Glyph.mend) := by
  have hself : gs.map Glyph.mend = gs := by
    conv_rhs => rw [← List.map_id gs]
    refine List.map_congr_left fun g hg => ?_
    cases g with
    | char c => rfl
    | raw c hc => exact absurd hg (h c hc)
  rw [hself]

/-! ## The text of a server -/

section

variable {num : Doubles δ}

theorem replace_textOf (h : Placeholder old) (d : Json δ (List Glyph)) :
    replace ((d.textOf num glyphText).length + 1) (d.textOf num glyphText) old new
      = some ((d.map (subst (written old) (inserted new))).textOf num glyphText) := by
  rw [replace_eq h.ne_nil _ (Nat.lt_succ_self _)]
  have hstring := h.subst_glyphText new
  obtain ⟨more, rfl⟩ := h.head
  have htext := subst_textOf (foreign_hash num) hstring d []
  rw [List.append_nil, subst_nil, List.append_nil] at htext
  rw [htext]

theorem expand_eq (c : Members δ) :
    expand num c = some ((Json.object c).textOf num (actualText (serverConfig c))) := by
  have hwrite : (Json.object c).write num = ((Json.object c).map written).textOf num glyphText := by
    rw [textOf_map, write]
    exact textOf_congr fun s _ => (glyphText_written s).symm
  unfold expand
  simp only [hwrite, replace_textOf placeholder_sid, replace_textOf placeholder_outer,
    replace_textOf placeholder_inner, Option.bind_eq_bind, Option.bind_some]
  rw [textOf_map, textOf_map, textOf_map, textOf_map]
  rfl

/-- The text of a server, and the one that it should be. -/
def serverText (num : Doubles δ) (c : Members δ) : Text :=
  (Json.object c).textOf num (actualText (serverConfig c))

def serverIdeal (num : Doubles δ) (c : Members δ) : Text :=
  (Json.object c).textOf num (idealText (serverConfig c))

theorem strokes_actualText_le (scfg : ServerConfig) (s : Text) :
    strokes (actualText scfg s) ≤ strokes (idealText scfg s) := by
  rw [idealText_eq]
  exact strokes_mend_le _

theorem strokes_serverText_le (c : Members δ) :
    strokes (serverText num c) ≤ strokes (serverIdeal num c) :=
  strokes_textOf_le fun s _ => strokes_actualText_le _ s

theorem serverText_of_safe {c : Members δ} (h : Safe num c) : serverText num c = serverIdeal num c := by
  refine textOf_congr fun s hs => ?_
  obtain ⟨houter, hinner⟩ := h s hs
  rw [idealText_eq]
  refine glyphText_mend fun b hb hraw => ?_
  rcases raw_expandGlyphs.mp hraw with ⟨hin, hmem⟩ | ⟨hin, hmem⟩
  · rw [houter hin b hmem] at hb
    cases hb
  · rw [hinner hin b hmem] at hb
    cases hb

theorem strokes_serverText_lt {c : Members δ} (h : ¬ Safe num c) :
    strokes (serverText num c) < strokes (serverIdeal num c) := by
  obtain ⟨s, hs, b, hb, hraw⟩ : ∃ s ∈ (Json.object c).strings num, ∃ b, ∃ hb : escapable b = true,
      Glyph.raw b hb ∈ expandGlyphs (serverConfig c) s := by
    by_contra hall
    push Not at hall
    refine h fun s hs => ⟨fun hin b hmem => ?_, fun hin b hmem => ?_⟩
    · by_contra hb
      rw [Bool.not_eq_false] at hb
      exact hall s hs b hb (raw_expandGlyphs.mpr (.inl ⟨hin, hmem⟩))
    · by_contra hb
      rw [Bool.not_eq_false] at hb
      exact hall s hs b hb (raw_expandGlyphs.mpr (.inr ⟨hin, hmem⟩))
  refine strokes_textOf_lt (fun s _ => strokes_actualText_le _ s) hs ?_
  rw [idealText_eq]
  exact strokes_mend_lt hraw

/-! ## The configuration -/

theorem prepareLoop_eq {servers : List (Members δ)} (hsid : ∀ c ∈ servers, (serverConfig c).sid ≠ -1) :
    ∀ config_ : Text, config_.length > 1 →
      prepareLoop num config_ (servers.map .object)
        = some ⟨config_ ++ (if servers.isEmpty then [] else lit ",") ++
            join (servers.map (serverText num)) ++ lit "]", none⟩ := by
  induction servers with
  | nil =>
    intro config_ _
    simp [prepareLoop, join]
  | cons c cs ih =>
    intro config_ hlen
    obtain ⟨hc, hcs⟩ := List.forall_mem_cons.mp hsid
    have hlen' : (config_ ++ lit "," ++ serverText num c).length > 1 := by
      simp only [List.length_append]
      omega
    simp only [List.map_cons, prepareLoop, if_pos hlen, if_neg hc, expand_eq, Option.bind_eq_bind,
      Option.bind_some]
    rw [← serverText, ih hcs _ hlen']
    simp only [join, List.isEmpty_cons, List.isEmpty_map, Bool.false_eq_true, if_false,
      List.append_assoc]

theorem prepare_eq {servers : List (Members δ)} (hsid : ∀ c ∈ servers, (serverConfig c).sid ≠ -1) :
    prepare num (.array (servers.map .object))
      = some { config_ := lit "[" ++ join (servers.map (serverText num)) ++ lit "]" } := by
  have hone : ¬ (lit "[").length > 1 := by
    rw [lit_eq]
    decide
  cases servers with
  | nil =>
    simp [prepare, prepareLoop, join]
  | cons c cs =>
    obtain ⟨hc, hcs⟩ := List.forall_mem_cons.mp hsid
    have hlen : (lit "[" ++ serverText num c).length > 1 := by
      obtain ⟨more, hmore⟩ := textOf_object_head num (actualText (serverConfig c)) c
      have hbrace : (lit "[" ++ lit "\x7b").length = 2 := by
        rw [lit_eq, lit_eq]
        decide
      rw [serverText, hmore, ← List.append_assoc, List.length_append, hbrace]
      omega
    simp only [prepare, List.map_cons, prepareLoop, if_neg hone, if_neg hc, expand_eq,
      Option.bind_eq_bind, Option.bind_some]
    rw [← serverText, prepareLoop_eq hcs _ hlen]
    simp only [join, List.isEmpty_map, List.append_assoc]

theorem write_expanded (servers : List (Members δ)) :
    (expanded servers).write num
      = lit "[" ++ join (servers.map (serverIdeal num)) ++ lit "]" := by
  rw [write, expanded, textOf_array, List.map_map]
  refine congrArg (fun ts => lit "[" ++ join ts ++ lit "]") (List.map_congr_left fun c _ => ?_)
  exact textOf_map _ _ _

/-- A text that parses to the document has no fewer strokes than the writer's, and a raw character
costs one. -/
theorem safe_of_expands {parse : Text → Option (Json δ Text)} {servers : List (Members δ)}
    (hsid : ∀ c ∈ servers, (serverConfig c).sid ≠ -1)
    (hstrokes : ∀ t, parse t = some (expanded servers) →
      strokes ((expanded servers).write num) ≤ strokes t)
    (h : Expands num parse servers) : ∀ c ∈ servers, Safe num c := by
  intro c hc
  obtain ⟨text, htext, hparse⟩ := h
  rw [prepare_eq hsid, Option.some.injEq, Prepared.mk.injEq] at htext
  obtain ⟨rfl, -⟩ := htext
  have hle := hstrokes _ hparse
  rw [write_expanded, strokes_append, strokes_append, strokes_append, strokes_append,
    strokes_join, strokes_join, List.map_map, List.map_map] at hle
  by_contra hunsafe
  have hlt : (servers.map (strokes ∘ serverText num)).sum
      < (servers.map (strokes ∘ serverIdeal num)).sum :=
    List.sum_lt_sum _ _ (fun c _ => strokes_serverText_le c) ⟨c, hc, strokes_serverText_lt hunsafe⟩
  omega

theorem expands_of_safe {parse : Text → Option (Json δ Text)} {servers : List (Members δ)}
    (hsid : ∀ c ∈ servers, (serverConfig c).sid ≠ -1)
    (hinverse : parse ((expanded servers).write num) = some (expanded servers))
    (h : ∀ c ∈ servers, Safe num c) : Expands num parse servers := by
  refine ⟨_, prepare_eq hsid, ?_⟩
  have hsame : servers.map (serverText num) = servers.map (serverIdeal num) :=
    List.map_congr_left fun c hc => serverText_of_safe (h c hc)
  rw [hsame, ← write_expanded, hinverse]

/-- **Placeholders.**  The parser inverts the writer, and no text of a document has fewer strokes
than the writer's.  A server has a sid when `prepare` reads an `int32` other than -1 for it. -/
theorem prepare_iff (num : Doubles δ) (parse : Text → Option (Json δ Text))
    (hinverse : ∀ d, parse (d.write num) = some d)
    (hstrokes : ∀ t d, parse t = some d → strokes (d.write num) ≤ strokes t)
    (servers : List (Members δ)) (hsid : ∀ c ∈ servers, (serverConfig c).sid ≠ -1) :
    Expands num parse servers ↔ ∀ c ∈ servers, Safe num c :=
  ⟨safe_of_expands hsid fun t ht => hstrokes t _ ht, expands_of_safe hsid (hinverse _)⟩

/-- A server with the default hosts. -/
def defaultHosts : Members Empty :=
  [(lit "sid", .int ⟨1, by decide, by decide⟩), (lit "listen", .string (lit "#outer_host:80"))]

/-- The default hosts are plain. -/
theorem prepare_defaultHosts : Expands noDoubles read [defaultHosts] := by
  refine (prepare_iff noDoubles read read_text (fun t d h => ?_) [defaultHosts] ?_).mpr ?_
  · rw [← text_of_read h]
    exact Nat.le_refl _
  · intro c hc
    rw [List.mem_singleton.mp hc]
    decide +kernel
  · intro c hc s _
    rw [List.mem_singleton.mp hc]
    have houter : Plain (serverConfig defaultHosts).outer_host := by
      unfold Plain
      decide +kernel
    have hinner : Plain (serverConfig defaultHosts).inner_host := by
      unfold Plain
      decide +kernel
    exact ⟨fun _ => houter, fun _ => hinner⟩

/-- A server whose outer host is a quote. -/
def quoteHost : Members Empty :=
  [(lit "sid", .int ⟨1, by decide, by decide⟩), (lit "outer_host", .string [quote]),
    (lit "listen", .string (lit "#outer_host"))]

theorem not_safe_quoteHost : ¬ Safe noDoubles quoteHost := by
  intro h
  have hlisten : lit "#outer_host" ∈ (Json.object quoteHost).strings noDoubles := by decide +kernel
  have hplain := (h _ hlisten).1 (by decide +kernel) quote (by decide +kernel)
  exact absurd hplain (by decide)

theorem not_prepare_expands :
    ¬ ∀ (δ : Type) (num : Doubles δ) (parse : Text → Option (Json δ Text)),
      (∀ d, parse (d.write num) = some d) →
      (∀ t d, parse t = some d → strokes (d.write num) ≤ strokes t) →
      ∀ servers : List (Members δ), (∀ c ∈ servers, (serverConfig c).sid ≠ -1) →
        Expands num parse servers := by
  intro h
  have hstrokes : ∀ t d, read t = some d → strokes (text d) ≤ strokes t := by
    intro t d hread
    rw [text_of_read hread]
  have hsid : ∀ c ∈ [quoteHost], (serverConfig c).sid ≠ -1 := by
    intro c hc
    rw [List.mem_singleton.mp hc]
    decide +kernel
  have hexpands := h Empty noDoubles read read_text hstrokes [quoteHost] hsid
  exact not_safe_quoteHost
    (safe_of_expands hsid (fun t ht => hstrokes t _ ht) hexpands quoteHost (by simp))

end

end HappyServer.Config
