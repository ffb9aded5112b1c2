import HappyServer.Config.Parse
import Mathlib.Data.List.Basic

/-!
# Values by their paths (`common/string.hpp`, `common/rapidjson_helper.hpp`)

`rapidjson::get_value` splits a path at its dots and looks for one name after the other.  `split` walks
over the text with two iterators, of which `b` is `e` where no piece has begun.

* `pieces sep src`: what stands between separators and is not empty.
* `At v names w`: following the names from `v` leads to `w`, each by the first member of the name.
* `findPath`: the loop; `none` is a `FindMember` of something that is no object.

    split src sep = pieces sep src                                               (split_eq)
    getValue v path is at the end of the pieces of the path, or the default,
      or there is a `FindMember` of no object                                    (getValue_path)
    getValue of an object by a name without dots is its member                   (getValue_name)
-/

namespace HappyServer.Config

open Json

variable {δ : Type}

/-! ## `split` -/

/-- From `i` on; what is left is `todo`. -/
def splitLoop (src sep : Text) : Text → Nat → Nat → List Text → Nat × List Text
  | [], _, b, r => (b, r)
  | c :: todo, i, b, r =>
    if c ∈ sep then
      let r := if b ≠ src.length ∧ b ≠ i then r ++ [(src.drop b).take (i - b)] else r
      splitLoop src sep todo (i + 1) src.length r
    else
      let b := if b = src.length then i else b
      splitLoop src sep todo (i + 1) b r

def split (src sep : Text) : List Text :=
  let (b, r) := splitLoop src sep src 0 0 []
  if b ≠ src.length then r ++ [(src.drop b).take (src.length - b)] else r

/-- `"aa/bb/cc"`, at `"/"` -/
example : split (lit "aa/bb/cc") (lit "/") = [lit "aa", lit "bb", lit "cc"] ∧
    split (lit "/aa//bb/") (lit "/") = [lit "aa", lit "bb"] := by decide +kernel

def pieces (sep src : Text) : List Text :=
  (src.splitOnP fun c => decide (c ∈ sep)).filter fun piece => decide (piece ≠ [])

variable {src sep todo cur name path : Text} {i b : Nat} {r names : List Text}

theorem pieces_single (h : ∀ c ∈ cur, c ∉ sep) :
    pieces sep cur = if cur = [] then [] else [cur] := by
  unfold pieces
  rw [List.splitOnP_eq_singleton fun c hc => by simpa using h c hc]
  split <;> simp [*]

theorem pieces_sep {c : UInt8} (h : ∀ c ∈ cur, c ∉ sep) (hc : c ∈ sep) :
    pieces sep (cur ++ c :: todo) = (if cur = [] then [] else [cur]) ++ pieces sep todo := by
  unfold pieces
  rw [List.splitOnP_append_cons_of_forall_mem (fun c hc => by simpa using h c hc) c
    (by simpa using hc), List.filter_cons]
  split <;> split <;> simp_all

/-- The piece that has begun at `b`, when `i` is next. -/
structure Begun (src sep : Text) (i b : Nat) (cur : Text) : Prop where
  le : i ≤ src.length
  piece : cur = if b = src.length then [] else (src.drop b).take (i - b)
  before : b = src.length ∨ b ≤ i
  plain : ∀ c ∈ cur, c ∉ sep

/-- At the first separator, and after each of them, there is no piece. -/
theorem Begun.eq_nil_iff (h : Begun src sep i b cur) (hlt : i < src.length) :
    cur = [] ↔ ¬(b ≠ src.length ∧ b ≠ i) := by
  have hpiece := h.piece
  split at hpiece
  next hb => simp [hpiece, hb]
  next hb =>
    have hle := h.before.resolve_left hb
    have hlen : cur.length = i - b := by
      rw [hpiece, List.length_take, List.length_drop]
      omega
    rw [← List.length_eq_zero_iff, hlen]
    omega

theorem Begun.next {c : UInt8} (h : Begun src sep i b cur) (hdrop : src.drop i = c :: todo)
    (hc : c ∉ sep) :
    Begun src sep (i + 1) (if b = src.length then i else b) (cur ++ [c]) := by
  have hlt : i < src.length := by
    by_contra hle
    rw [List.drop_eq_nil_of_le (by omega)] at hdrop
    cases hdrop
  have hpiece := h.piece
  refine ⟨hlt, ?_, ?_, ?_⟩
  · by_cases hb : b = src.length
    · rw [if_pos hb] at hpiece ⊢
      rw [if_neg (by omega), hpiece, hdrop, show i + 1 - i = 1 by omega]
      rfl
    · have hle := h.before.resolve_left hb
      rw [if_neg hb] at hpiece ⊢
      have hc : (src.drop b)[i - b]? = some c := by
        rw [List.getElem?_drop, show b + (i - b) = i by omega, ← List.head?_drop, hdrop]
        rfl
      rw [if_neg hb, hpiece, show i + 1 - b = i - b + 1 by omega, List.take_add_one, hc]
      rfl
  · by_cases hb : b = src.length
    · rw [if_pos hb]
      omega
    · have hle := h.before.resolve_left hb
      rw [if_neg hb]
      omega
  · intro d hd
    rcases List.mem_append.mp hd with hd | hd
    · exact h.plain d hd
    · exact List.mem_singleton.mp hd ▸ hc

/-- The pieces so far, and those of the piece that has begun and what is left. -/
theorem splitLoop_pieces (src sep todo : Text) : ∀ i b r cur, src.drop i = todo →
    Begun src sep i b cur →
    ∃ b' cur', Begun src sep src.length b' cur' ∧ ∃ r', splitLoop src sep todo i b r = (b', r') ∧
      r' ++ pieces sep cur' = r ++ pieces sep (cur ++ todo) := by
  induction todo with
  | nil =>
    intro i b r cur hdrop hbegun
    have hi : i = src.length := Nat.le_antisymm hbegun.le (List.drop_eq_nil_iff.mp hdrop)
    subst hi
    exact ⟨b, cur, hbegun, r, rfl, by rw [List.append_nil]⟩
  | cons c todo ih =>
    intro i b r cur hdrop hbegun
    have hlt : i < src.length := by
      by_contra hle
      rw [List.drop_eq_nil_of_le (by omega)] at hdrop
      cases hdrop
    have hnext : src.drop (i + 1) = todo := by
      rw [← List.drop_drop, hdrop]
      rfl
    rw [splitLoop]
    by_cases hc : c ∈ sep
    · rw [if_pos hc]
      have hnone : Begun src sep (i + 1) src.length [] :=
        ⟨hlt, by rw [if_pos rfl], Or.inl rfl, fun c hc => absurd hc List.not_mem_nil⟩
      obtain ⟨b', cur', hend, r', hloop, hpieces⟩ := ih (i + 1) src.length
        (if b ≠ src.length ∧ b ≠ i then r ++ [(src.drop b).take (i - b)] else r) [] hnext hnone
      refine ⟨b', cur', hend, r', hloop, ?_⟩
      rw [hpieces, pieces_sep hbegun.plain hc, List.nil_append, ← List.append_assoc]
      have hnil := hbegun.eq_nil_iff hlt
      by_cases hpushed : b ≠ src.length ∧ b ≠ i
      · rw [if_pos hpushed, if_neg fun h => hnil.mp h hpushed, hbegun.piece, if_neg hpushed.1]
      · rw [if_neg hpushed, if_pos (hnil.mpr hpushed), List.append_nil]
    · rw [if_neg hc]
      obtain ⟨b', cur', hend, r', hloop, hpieces⟩ := ih (i + 1) (if b = src.length then i else b) r
        (cur ++ [c]) hnext (hbegun.next hdrop hc)
      refine ⟨b', cur', hend, r', hloop, ?_⟩
      rw [hpieces, List.append_assoc]
      rfl

theorem split_eq (src sep : Text) : split src sep = pieces sep src := by
  have hstart : Begun src sep 0 0 [] := by
    refine ⟨Nat.zero_le _, ?_, Or.inr (Nat.le_refl 0), fun c hc => absurd hc List.not_mem_nil⟩
    split <;> rfl
  obtain ⟨b, cur, hend, r, hloop, hpieces⟩ := splitLoop_pieces src sep src 0 0 [] [] rfl hstart
  unfold split
  rw [hloop]
  rw [List.nil_append, List.nil_append, pieces_single hend.plain] at hpieces
  rw [← hpieces, hend.piece]
  by_cases hb : b = src.length
  · simp [hb]
  · have hle := hend.before.resolve_left hb
    have hne : (src.drop b).take (src.length - b) ≠ [] := by
      rw [← List.length_pos_iff_ne_nil, List.length_take, List.length_drop]
      omega
    simp [hb, hne]

/-- `'.'` -/
def dot : UInt8 := 46

theorem lit_dot : lit "." = [dot] := by decide +kernel

/-- Names with dots between them are the pieces again. -/
theorem pieces_join (h : ∀ name ∈ names, name ≠ [] ∧ dot ∉ name) :
    pieces [dot] ([dot].intercalate names) = names := by
  have hplain : ∀ name ∈ names, ∀ c ∈ name, c ∉ [dot] := fun name hname c hc hdot =>
    (h name hname).2 (List.mem_singleton.mp hdot ▸ hc)
  induction names with
  | nil => rfl
  | cons name names ih =>
    have hne := (h name List.mem_cons_self).1
    have hname := hplain name List.mem_cons_self
    cases names with
    | nil =>
      rw [List.intercalate_singleton, pieces_single hname, if_neg hne]
    | cons next names =>
      rw [List.intercalate_cons_cons, List.append_assoc, List.singleton_append,
        pieces_sep hname List.mem_cons_self, if_neg hne,
        ih (fun n hn => h n (List.mem_cons_of_mem _ hn))
          (fun n hn => hplain n (List.mem_cons_of_mem _ hn))]
      rfl

/-! ## `get_value` -/

/-- Where `value` points to after the loop, or `dv` is returned. -/
def findPath : Json δ Text → List Text → Option (Option (Json δ Text))
  | value, [] => some (some value)
  | .object members, v :: vecs =>
    match member members v with
    | some value => findPath value vecs
    | none => some none
  | _, _ :: _ => none

section

variable {α : Type}

/-- `read` is the `detail::get_value` of the type. -/
def getValue (read : Json δ Text → α → α) (value : Json δ Text) (path : Text) (dv : α) : Option α :=
  (findPath value (split path (lit "."))).map fun found => found.elim dv fun v => read v dv

def readBool : Json δ Text → Bool → Bool
  | .bool b, _ => b
  | _, dv => dv

def readInt32 : Json δ Text → Int → Int
  | .int n, dv => if -2 ^ 31 ≤ n.val ∧ n.val < 2 ^ 31 then n.val else dv
  | _, dv => dv

def readString : Json δ Text → Text → Text
  | .string s, _ => s
  | _, dv => dv

/-- A vector: its elements, with an empty default for each. -/
def readVector (read : Json δ Text → α → α) (empty : α) : Json δ Text → List α → List α
  | .array items, _ => items.map fun item => read item empty
  | _, dv => dv

inductive At : Json δ Text → List Text → Json δ Text → Prop
  | here (v) : At v [] v
  | member {members : Members δ} {name names value w} :
      member members name = some value → At value names w → At (.object members) (name :: names) w

/-- The names lead to a value that is no object, and go on. -/
def Stuck (v : Json δ Text) (names : List Text) : Prop :=
  ∃ front name back w, names = front ++ name :: back ∧ At v front w ∧
    ∀ members, w ≠ .object members

/-- The names lead to an object without a member of the next name. -/
def Missing (v : Json δ Text) (names : List Text) : Prop :=
  ∃ front name back members, names = front ++ name :: back ∧ At v front (.object members) ∧
    member members name = none

variable {v w : Json δ Text}

theorem findPath_at (h : At v names w) : findPath v names = some (some w) := by
  induction h with
  | here v => cases v <;> rfl
  | member hmember _ ih =>
    rw [findPath, hmember]
    exact ih

/-- The steps before are followed by one more. -/
theorem findPath_stop {front back : List Text} (h : At v front w) :
    findPath v (front ++ name :: back) = findPath w (name :: back) := by
  induction h with
  | here v => rfl
  | member hmember _ ih =>
    rw [List.cons_append, findPath, hmember]
    exact ih

theorem findPath_cases (names : List Text) : ∀ v : Json δ Text,
    (∃ w, At v names w) ∨ Missing v names ∨ Stuck v names := by
  induction names with
  | nil => exact fun v => Or.inl ⟨v, .here v⟩
  | cons name names ih =>
    intro v
    by_cases hobject : ∃ members, v = .object members
    · obtain ⟨members, rfl⟩ := hobject
      cases hmember : member members name with
      | none => exact Or.inr (Or.inl ⟨[], name, names, members, rfl, .here _, hmember⟩)
      | some value =>
        rcases ih value with ⟨w, hw⟩ | ⟨front, n, back, ms, rfl, hat, hnone⟩ |
          ⟨front, n, back, w, rfl, hat, hno⟩
        · exact Or.inl ⟨w, .member hmember hw⟩
        · exact Or.inr (Or.inl ⟨name :: front, n, back, ms, rfl, .member hmember hat, hnone⟩)
        · exact Or.inr (Or.inr ⟨name :: front, n, back, w, rfl, .member hmember hat, hno⟩)
    · exact Or.inr (Or.inr ⟨[], name, names, v, rfl, .here v,
        fun members h => hobject ⟨members, h⟩⟩)

theorem findPath_missing (h : Missing v names) : findPath v names = some none := by
  obtain ⟨front, name, back, members, rfl, hat, hnone⟩ := h
  rw [findPath_stop hat, findPath, hnone]

theorem findPath_stuck (h : Stuck v names) : findPath v names = none := by
  obtain ⟨front, name, back, w, rfl, hat, hno⟩ := h
  rw [findPath_stop hat]
  cases w with
  | object members => exact absurd rfl (hno members)
  | _ => rfl

/-- **Paths.**  A path stands for the names between its dots, and exactly one of three things happens:
the value they lead to is read, a name is missing and the default is returned, or a member of no
object is looked for. -/
theorem getValue_path (read : Json δ Text → α → α) (v : Json δ Text) (path : Text) (dv : α) :
    (∀ w, At v (pieces [dot] path) w → getValue read v path dv = some (read w dv)) ∧
      (Missing v (pieces [dot] path) → getValue read v path dv = some dv) ∧
      (getValue read v path dv = none ↔ Stuck v (pieces [dot] path)) ∧
      ((∃ w, At v (pieces [dot] path) w) ∨ Missing v (pieces [dot] path) ∨
        Stuck v (pieces [dot] path)) := by
  have hcases := findPath_cases (pieces [dot] path) v
  unfold getValue
  rw [lit_dot, split_eq]
  refine ⟨fun w hw => ?_, fun hmissing => ?_, ⟨fun hnone => ?_, fun hstuck => ?_⟩, hcases⟩
  · rw [findPath_at hw]
    rfl
  · rw [findPath_missing hmissing]
    rfl
  · rw [Option.map_eq_none_iff] at hnone
    rcases hcases with ⟨w, hw⟩ | hmissing | hstuck
    · rw [findPath_at hw] at hnone
      cases hnone
    · rw [findPath_missing hmissing] at hnone
      cases hnone
    · exact hstuck
  · rw [findPath_stuck hstuck]
    rfl

/-! ## The names of the configuration -/

/-- A name without dots, as all of them are. -/
theorem getValue_name (read : Json δ Text → α → α) (members : Members δ) (dv : α)
    (hne : name ≠ []) (hdot : dot ∉ name) : getValue read (.object members) name dv =
      some ((member members name).elim dv fun v => read v dv) := by
  have hpieces : pieces [dot] name = [name] := by
    rw [pieces_single fun c hc h => hdot (by rwa [List.mem_singleton.mp h] at hc), if_neg hne]
  unfold getValue
  rw [lit_dot, split_eq, hpieces, findPath]
  cases member members name with
  | none => rfl
  | some v => cases v <;> rfl

/-- The lookups of the configuration are `get_value` of their types. -/
theorem lookups_getValue (members : Members δ) (hne : name ≠ []) (hdot : dot ∉ name) :
    (∀ dv, getValue readString (.object members) name dv = some (getString members name dv)) ∧
      (∀ dv, getValue readInt32 (.object members) name dv = some (getInt32 members name dv)) ∧
      (∀ dv, getValue readBool (.object members) name dv = some (getBool members name dv)) ∧
      getValue (readVector readString []) (.object members) name [] =
        some (getStrings members name) := by
  refine ⟨fun dv => ?_, fun dv => ?_, fun dv => ?_, ?_⟩
  · rw [getValue_name _ members dv hne hdot, getString]
    cases member members name with
    | none => rfl
    | some v => cases v <;> rfl
  · rw [getValue_name _ members dv hne hdot, getInt32]
    cases member members name with
    | none => rfl
    | some v => cases v <;> rfl
  · rw [getValue_name _ members dv hne hdot, getBool]
    cases member members name with
    | none => rfl
    | some v => cases v <;> rfl
  · rw [getValue_name _ members [] hne hdot, getStrings]
    cases member members name with
    | none => rfl
    | some v =>
      cases v with
      | array items =>
        refine congrArg some (List.map_congr_left fun item _ => ?_)
        cases item <;> rfl
      | _ => rfl

end

end HappyServer.Config
