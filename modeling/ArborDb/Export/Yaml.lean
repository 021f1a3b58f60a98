import ArborDb.Export.Json
import ArborDb.Lib.Yaml

/-!
# YAML documents

A value is rendered in block style: a container that is not empty opens after its marker, its contents two
spaces deeper, and everything else stays on its line. The indentation, the markers and the quoted scalars
give the document of the value back (`read_toYaml`).
-/

namespace ArborDb.Export

section Exports

variable [Externals] [Printers]

/-! ## Rendering -/

/-- A value on a single line: a leaf, or an empty container. -/
def inline : Value → List Char
  | .leaf s => writeScalar s
  | .list _ => ['[', ']']
  | .node _ => ['{', '}']

mutual

def object (indent : Nat) : List (Str × Value) → List Char
  | [] => []
  | (key, v) :: rest => pad indent ++ (quote key.text.toList ++ [':'] ++ child indent v) ++ object indent rest

def list (indent : Nat) : List Value → List Char
  | [] => []
  | item :: rest => pad indent ++ (['-'] ++ child indent item) ++ list indent rest

/-- The value that follows a marker. -/
def child (indent : Nat) : Value → List Char
  | .node entries =>
    if entries.isEmpty then ' ' :: inline (.node entries) ++ ['\n'] else '\n' :: object (indent + 2) entries
  | .list items =>
    if items.isEmpty then ' ' :: inline (.list items) ++ ['\n'] else '\n' :: list (indent + 2) items
  | .leaf s => ' ' :: inline (.leaf s) ++ ['\n']

end

/-- Renders a value in block style, ended by a newline. -/
def toYaml (v : Value) : Str :=
  match v with
  | .node entries =>
    if entries.isEmpty then ⟨String.ofList (inline v ++ ['\n'])⟩ else ⟨String.ofList (object 0 entries)⟩
  | .list items =>
    if items.isEmpty then ⟨String.ofList (inline v ++ ['\n'])⟩ else ⟨String.ofList (list 0 items)⟩
  | .leaf _ => ⟨String.ofList (inline v ++ ['\n'])⟩

/-! ## Values on one line -/

section Inline

/-- A value that is written on one line. -/
def Flat : Value → Prop
  | .leaf _ => True
  | .list items => items = []
  | .node entries => entries = []

variable [LawfulPrinters]

theorem newline_not_mem_writeScalar {s : Scalar} (h : ∀ v, s ≠ .bigFloat v) : '\n' ∉ writeScalar s := by
  have hspells := spells_writeScalar h 0
  cases hd : scalarDocument s with
  | null =>
    rw [hd] at hspells
    rw [show writeScalar s = _ from hspells]
    decide
  | bool b =>
    rw [hd] at hspells
    cases b <;> rw [show writeScalar s = _ from hspells] <;> decide
  | number literal =>
    rw [hd] at hspells
    obtain ⟨heq, hnumber⟩ := hspells
    rw [heq]
    exact hnumber.newline
  | string cs =>
    rw [hd] at hspells
    exact Json.StringText.newline hspells
  | array items =>
    rw [hd] at hspells
    cases s <;> first | cases hd | (simp only [scalarDocument] at hd; split at hd <;> cases hd)
  | object members =>
    rw [hd] at hspells
    cases s <;> first | cases hd | (simp only [scalarDocument] at hd; split at hd <;> cases hd)

theorem value_inline {v : Value} (hflat : Flat v) (h : NoBigFloats v) :
    Json.Value (document v) (inline v) ∧ '\n' ∉ inline v := by
  cases v with
  | leaf s =>
    rw [document, inline]
    exact ⟨⟨1, spells_writeScalar h 0⟩, newline_not_mem_writeScalar h⟩
  | list items =>
    obtain rfl : items = [] := hflat
    rw [document, inline]
    exact ⟨.array .nil, by decide⟩
  | node entries =>
    obtain rfl : entries = [] := hflat
    rw [document, inline]
    exact ⟨.object .nil, by decide⟩

end Inline

/-! ## Blocks -/

section Blocks

variable {κ : Type} {marker : List Char → Option (κ × List Char)} {text : List Char} {key : κ}

/-- The entries of a sequence, for the reader of blocks. -/
def sequenceOf (ds : List Json) : List (Unit × Json) := ds.map fun d => ((), d)

omit [Externals] [Printers] in
theorem sequenceOf_snd (ds : List Json) : (sequenceOf ds).map Prod.snd = ds := by
  rw [sequenceOf, List.map_map]
  exact List.map_id ds

theorem sequenceOf_ne_nil {items : List Value} (h : ¬ items.isEmpty = true) :
    sequenceOf (documentItems items) ≠ [] := by
  cases items with
  | nil => exact absurd rfl h
  | cons v vs => exact nofun

theorem documentEntries_ne_nil {entries : List (Str × Value)} (h : ¬ entries.isEmpty = true) :
    documentEntries entries ≠ [] := by
  cases entries with
  | nil => exact absurd rfl h
  | cons e es => exact nofun

/-- An entry that holds a value on its line. -/
theorem entryText_inline [LawfulPrinters] {v : Value} (hm : Yaml.Marks marker text key) (hflat : Flat v)
    (h : NoBigFloats v) (n : Nat) :
    Yaml.EntryText marker n (key, document v) (pad n ++ (text ++ (' ' :: inline v ++ ['\n']))) :=
  .inline hm (value_inline hflat h).1 (value_inline hflat h).2 n

mutual

/-- **The text of an entry spells the document of its value.** -/
theorem entryText_child [LawfulPrinters] : ∀ {κ : Type} {marker : List Char → Option (κ × List Char)}
    {text : List Char} {key : κ} (n : Nat) (v : Value), Yaml.Marks marker text key → NoBigFloats v →
    Yaml.EntryText marker n (key, document v) (pad n ++ (text ++ child n v))
  | _, _, _, _, n, .leaf s, hm, h => by
    rw [child]
    exact entryText_inline (v := .leaf s) hm trivial h n
  | _, _, _, _, n, .list items, hm, h => by
    rw [child]
    split
    · rename_i hempty
      exact entryText_inline (v := .list items) hm (List.isEmpty_iff.1 hempty) h n
    · rename_i hempty
      have hitems := entriesText_list (n + 2) items h
      have hentry := Yaml.EntryText.sequence hm hitems (sequenceOf_ne_nil hempty) (Nat.lt_add_of_pos_right (by decide))
      rwa [sequenceOf_snd] at hentry
  | _, _, _, _, n, .node entries, hm, h => by
    rw [child]
    split
    · rename_i hempty
      exact entryText_inline (v := .node entries) hm (List.isEmpty_iff.1 hempty) h n
    · rename_i hempty
      have hentries := entriesText_object (n + 2) entries h
      exact .mapping hm hentries (documentEntries_ne_nil hempty) (Nat.lt_add_of_pos_right (by decide))

theorem entriesText_list [LawfulPrinters] : ∀ (n : Nat) (items : List Value), NoBigFloatsItems items →
    Yaml.EntriesText Yaml.dash n (sequenceOf (documentItems items)) (list n items)
  | _, [], _ => .nil
  | n, v :: vs, h => by
    rw [documentItems, list]
    exact .cons (entryText_child n v Yaml.marks_dash h.1) (entriesText_list n vs h.2)

theorem entriesText_object [LawfulPrinters] : ∀ (n : Nat) (entries : List (Str × Value)), NoBigFloatsEntries entries →
    Yaml.EntriesText Yaml.key n (documentEntries entries) (object n entries)
  | _, [], _ => .nil
  | n, (name, v) :: rest, h => by
    rw [documentEntries, object]
    exact .cons (entryText_child n v (Yaml.marks_key (stringText_quote _)) h.1) (entriesText_object n rest h.2)

end

/-- **The YAML text determines the document of the value.** -/
theorem read_toYaml [LawfulPrinters] {v : Value} (h : NoBigFloats v) :
    Yaml.read (toYaml v).text.toList = some (document v) := by
  have hinline : Flat v → Yaml.read (inline v ++ ['\n']) = some (document v) :=
    fun hflat => Yaml.read_value (value_inline hflat h).1 (value_inline hflat h).2
  cases v with
  | leaf s =>
    rw [toYaml, String.toList_ofList]
    exact hinline trivial
  | list items =>
    rw [toYaml]
    split
    · rw [String.toList_ofList]
      exact hinline (List.isEmpty_iff.1 ‹_›)
    · rename_i hempty
      have hread := Yaml.read_sequence (entriesText_list 0 items h) (sequenceOf_ne_nil hempty)
      rw [String.toList_ofList, hread, sequenceOf_snd]
      rfl
  | node entries =>
    rw [toYaml]
    split
    · rw [String.toList_ofList]
      exact hinline (List.isEmpty_iff.1 ‹_›)
    · rename_i hempty
      rw [String.toList_ofList]
      exact Yaml.read_mapping (entriesText_object 0 entries h) (documentEntries_ne_nil hempty)

end Blocks

/-! ## All exports -/

/-- **Exports denote the value.** The compact and the pretty JSON texts of a value spell its document and no
other, and its YAML text is read as that document. Bytes stand in it as base64 texts that decode to them. -/
theorem exports_denote [LawfulPrinters] : (∀ bytes, Rfc4648.decode (Base64.encode bytes) = some bytes) ∧
    ∀ v, NoBigFloats v →
      (∀ indent, Json.Text (document v) (toJson v indent).text.toList ∧
        ∀ d, Json.Text d (toJson v indent).text.toList → d = document v) ∧
      Yaml.read (toYaml v).text.toList = some (document v) := by
  refine ⟨Base64.decode_encoded, ?_⟩
  intro v h
  refine ⟨?_, read_toYaml h⟩
  intro indent
  have htext := text_toJson h indent
  exact ⟨htext, fun d hd => Json.text_unique hd htext⟩

end Exports

/-- A quoted name, two bytes, an infinite float, and an empty object. -/
theorem exports_denote_sample :
    letI := Reference.externals; letI := Reference.printers
    let v : Value := .node [(⟨"a\"\n"⟩, .list [.leaf (.bytes [0, 255]), .leaf (.f64 0x7ff0000000000000), .node []])]
    (toJson v (some 1)).text = "\x7b\n \"a\\\"\\n\": [\n  \"AP8=\",\n  null,\n  \x7b\x7d\n ]\n\x7d" ∧
      Json.Text (document v) (toJson v (some 1)).text.toList ∧
      (toYaml v).text = "\"a\\\"\\n\":\n  - \"AP8=\"\n  - null\n  - \x7b\x7d\n" ∧
      Yaml.read (toYaml v).text.toList = some (document v) := by
  let _ := Reference.externals
  let _ := Reference.printers
  have _ := Reference.lawfulPrinters
  let v : Value := .node [(⟨"a\"\n"⟩, .list [.leaf (.bytes [0, 255]), .leaf (.f64 0x7ff0000000000000), .node []])]
  have hfloats : NoBigFloats v := ⟨⟨nofun, nofun, trivial, trivial⟩, trivial⟩
  obtain ⟨hjson, hyaml⟩ := exports_denote.2 v hfloats
  exact ⟨by decide +kernel, (hjson (some 1)).1, by decide +kernel, hyaml⟩

end ArborDb.Export
