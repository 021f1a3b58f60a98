import ArborDb.Export.Text
import ArborDb.Value

/-!
# JSON documents

A value is rendered compactly, or with a number of spaces for each level of nesting. Either text is one of
the JSON grammar and spells the document of the value (`text_toJson`).
-/

namespace ArborDb.Export

variable [Externals] [Printers]

/-! ## Rendering -/

def pad (count : Nat) : List Char := List.replicate count ' '

mutual

def compact : Value → List Char
  | .leaf s => writeScalar s
  | .list items => '[' :: (compactItems 0 items ++ [']'])
  | .node entries => '{' :: (compactEntries 0 entries ++ ['}'])

def compactItems : Nat → List Value → List Char
  | _, [] => []
  | i, item :: rest => (if i > 0 then [','] else []) ++ (compact item ++ compactItems (i + 1) rest)

def compactEntries : Nat → List (Str × Value) → List Char
  | _, [] => []
  | i, (key, v) :: rest =>
    (if i > 0 then [','] else []) ++
      (quote key.text.toList ++ ':' :: compact v ++ compactEntries (i + 1) rest)

end

mutual

/-- An empty list or object stays on one line. -/
def pretty (step : Nat) : Nat → Value → List Char
  | _, .leaf s => writeScalar s
  | depth, .list items =>
    if items.isEmpty then ['[', ']']
    else '[' :: '\n' :: (prettyItems step depth 0 items ++ '\n' :: pad (step * depth) ++ [']'])
  | depth, .node entries =>
    if entries.isEmpty then ['{', '}']
    else '{' :: '\n' :: (prettyEntries step depth 0 entries ++ '\n' :: pad (step * depth) ++ ['}'])

def prettyItems (step depth : Nat) : Nat → List Value → List Char
  | _, [] => []
  | i, item :: rest =>
    (if i > 0 then [',', '\n'] else []) ++
      (pad (step * (depth + 1)) ++ pretty step (depth + 1) item ++ prettyItems step depth (i + 1) rest)

def prettyEntries (step depth : Nat) : Nat → List (Str × Value) → List Char
  | _, [] => []
  | i, (key, v) :: rest =>
    (if i > 0 then [',', '\n'] else []) ++
      (pad (step * (depth + 1)) ++ (quote key.text.toList ++ ':' :: ' ' :: pretty step (depth + 1) v) ++
        prettyEntries step depth (i + 1) rest)

end

/-- Renders a value: compact without an indentation, else with that many spaces a level. -/
def toJson (v : Value) (indent : Option Nat) : Str :=
  match indent with
  | some step => ⟨String.ofList (pretty step 0 v)⟩
  | none => ⟨String.ofList (compact v)⟩

/-! ## What is rendered -/

mutual

/-- The document of a value. -/
def document : Value → Json
  | .leaf s => scalarDocument s
  | .list items => .array (documentItems items)
  | .node entries => .object (documentEntries entries)

def documentItems : List Value → List Json
  | [] => []
  | v :: vs => document v :: documentItems vs

def documentEntries : List (Str × Value) → List (List Char × Json)
  | [] => []
  | (key, v) :: rest => (key.text.toList, document v) :: documentEntries rest

end

mutual

/-- No leaf is a big float. -/
def NoBigFloats : Value → Prop
  | .leaf s => ∀ v, s ≠ .bigFloat v
  | .list items => NoBigFloatsItems items
  | .node entries => NoBigFloatsEntries entries

def NoBigFloatsItems : List Value → Prop
  | [] => True
  | v :: vs => NoBigFloats v ∧ NoBigFloatsItems vs

def NoBigFloatsEntries : List (Str × Value) → Prop
  | [] => True
  | (_, v) :: rest => NoBigFloats v ∧ NoBigFloatsEntries rest

end

/-! ## The compact text -/

section Compact

mutual

/-- **The compact text of a value spells its document.** -/
theorem value_compact [LawfulPrinters] : ∀ v : Value, NoBigFloats v → Json.Value (document v) (compact v)
  | .leaf s, h => by
    rw [document, compact]
    exact ⟨1, spells_writeScalar h 0⟩
  | .list items, h => by
    rw [document, compact]
    exact .array (listed_compactItems items h)
  | .node entries, h => by
    rw [document, compact]
    exact .object (listed_compactEntries entries h)

theorem listed_compactItems [LawfulPrinters] : ∀ items : List Value, NoBigFloatsItems items →
    Json.Listed Json.Value (documentItems items) (compactItems 0 items)
  | [], _ => Json.ws_nil
  | v :: vs, h => by
    rw [documentItems, compactItems, if_neg (Nat.lt_irrefl 0), List.nil_append]
    exact .cons (.of_self (value_compact v h.1)) (more_compactItems vs 0 h.2)

theorem more_compactItems [LawfulPrinters] : ∀ (items : List Value) (i : Nat), NoBigFloatsItems items →
    Json.More Json.Value (documentItems items) (compactItems (i + 1) items)
  | [], _, _ => rfl
  | v :: vs, i, h => by
    rw [documentItems, compactItems, if_pos (Nat.succ_pos i), List.singleton_append]
    exact .cons (.of_self (value_compact v h.1)) (more_compactItems vs (i + 1) h.2)

theorem listed_compactEntries [LawfulPrinters] : ∀ entries : List (Str × Value), NoBigFloatsEntries entries →
    Json.Listed (Json.Member Json.Value) (documentEntries entries) (compactEntries 0 entries)
  | [], _ => Json.ws_nil
  | (key, v) :: rest, h => by
    rw [documentEntries, compactEntries, if_neg (Nat.lt_irrefl 0), List.nil_append]
    have hmember := Json.Member.mk (stringText_quote key.text.toList) Json.ws_nil (value_compact v h.1)
    exact .cons (.of_self hmember) (more_compactEntries rest 0 h.2)

theorem more_compactEntries [LawfulPrinters] : ∀ (entries : List (Str × Value)) (i : Nat), NoBigFloatsEntries entries →
    Json.More (Json.Member Json.Value) (documentEntries entries) (compactEntries (i + 1) entries)
  | [], _, _ => rfl
  | (key, v) :: rest, i, h => by
    rw [documentEntries, compactEntries, if_pos (Nat.succ_pos i), List.singleton_append]
    have hmember := Json.Member.mk (stringText_quote key.text.toList) Json.ws_nil (value_compact v h.1)
    exact .cons (.of_self hmember) (more_compactEntries rest (i + 1) h.2)

end

end Compact

/-! ## The pretty text -/

section Pretty

omit [Externals] [Printers] in
theorem ws_pad (count : Nat) : Json.Ws (pad count) := by
  intro c hc
  rw [List.eq_of_mem_replicate hc]
  decide

omit [Externals] [Printers] in
theorem ws_newline {w : List Char} (hw : Json.Ws w) : Json.Ws ('\n' :: w) :=
  List.forall_mem_cons.2 ⟨by decide, hw⟩

variable (step : Nat)

mutual

/-- **The pretty text of a value spells the same document,** at any depth. -/
theorem value_pretty [LawfulPrinters] : ∀ (depth : Nat) (v : Value), NoBigFloats v →
    Json.Value (document v) (pretty step depth v)
  | depth, .leaf s, h => by
    rw [document, pretty]
    exact ⟨1, spells_writeScalar h 0⟩
  | depth, .list items, h => by
    rw [document, pretty]
    split
    · rename_i hempty
      rw [List.isEmpty_iff.1 hempty]
      exact .array .nil
    · have hitems := ((listed_prettyItems depth items h).append_ws (ws_newline (ws_pad (step * depth)))).ws_append
        (ws_newline Json.ws_nil)
      exact .array hitems
  | depth, .node entries, h => by
    rw [document, pretty]
    split
    · rename_i hempty
      rw [List.isEmpty_iff.1 hempty]
      exact .object .nil
    · have hentries := ((listed_prettyEntries depth entries h).append_ws
        (ws_newline (ws_pad (step * depth)))).ws_append (ws_newline Json.ws_nil)
      exact .object hentries

theorem listed_prettyItems [LawfulPrinters] : ∀ (depth : Nat) (items : List Value), NoBigFloatsItems items →
    Json.Listed Json.Value (documentItems items) (prettyItems step depth 0 items)
  | _, [], _ => Json.ws_nil
  | depth, v :: vs, h => by
    rw [documentItems, prettyItems, if_neg (Nat.lt_irrefl 0), List.nil_append]
    exact .cons (.of_ws (ws_pad _) (value_pretty (depth + 1) v h.1)) (more_prettyItems depth vs 0 h.2)

theorem more_prettyItems [LawfulPrinters] : ∀ (depth : Nat) (items : List Value) (i : Nat), NoBigFloatsItems items →
    Json.More Json.Value (documentItems items) (prettyItems step depth (i + 1) items)
  | _, [], _, _ => rfl
  | depth, v :: vs, i, h => by
    rw [documentItems, prettyItems, if_pos (Nat.succ_pos i), List.cons_append, List.singleton_append]
    have hrest := more_prettyItems depth vs (i + 1) h.2
    exact .cons (.of_ws (ws_newline (ws_pad _)) (value_pretty (depth + 1) v h.1)) hrest

theorem listed_prettyEntries [LawfulPrinters] : ∀ (depth : Nat) (entries : List (Str × Value)),
    NoBigFloatsEntries entries →
    Json.Listed (Json.Member Json.Value) (documentEntries entries) (prettyEntries step depth 0 entries)
  | _, [], _ => Json.ws_nil
  | depth, (key, v) :: rest, h => by
    rw [documentEntries, prettyEntries, if_neg (Nat.lt_irrefl 0), List.nil_append]
    have hmember := Json.Member.mk (stringText_quote key.text.toList) (ws_pad 1) (value_pretty (depth + 1) v h.1)
    exact .cons (.of_ws (ws_pad _) hmember) (more_prettyEntries depth rest 0 h.2)

theorem more_prettyEntries [LawfulPrinters] : ∀ (depth : Nat) (entries : List (Str × Value)) (i : Nat),
    NoBigFloatsEntries entries →
    Json.More (Json.Member Json.Value) (documentEntries entries) (prettyEntries step depth (i + 1) entries)
  | _, [], _, _ => rfl
  | depth, (key, v) :: rest, i, h => by
    rw [documentEntries, prettyEntries, if_pos (Nat.succ_pos i), List.cons_append, List.singleton_append]
    have hmember := Json.Member.mk (stringText_quote key.text.toList) (ws_pad 1) (value_pretty (depth + 1) v h.1)
    exact .cons (.of_ws (ws_newline (ws_pad _)) hmember) (more_prettyEntries depth rest (i + 1) h.2)

end

end Pretty

/-- **Every rendering spells the document of the value.** -/
theorem text_toJson [LawfulPrinters] {v : Value} (h : NoBigFloats v) (indent : Option Nat) :
    Json.Text (document v) (toJson v indent).text.toList := by
  cases indent with
  | none =>
    rw [toJson, String.toList_ofList]
    exact (value_compact v h).text
  | some step =>
    rw [toJson, String.toList_ofList]
    exact (value_pretty step 0 v h).text

end ArborDb.Export
