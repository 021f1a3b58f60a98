import ArborDb.Lib.Json

/-!
# YAML in block style

A reader of block sequences and mappings by their indentation and markers. A dash marks an entry of a
sequence, a quoted key with a colon one of a mapping. What an entry holds stands after its marker, in the
flow style that YAML shares with JSON, or below it on deeper lines.
-/

namespace Yaml

/-- A line: its indentation, and what is indented. -/
abbrev Line := Nat × List Char

def line (s : List Char) : Line := ((s.takeWhile (· = ' ')).length, s.dropWhile (· = ' '))

/-- The lines of a text that are not blank. -/
def lines (s : List Char) : List Line := ((s.splitOnP (· = '\n')).map line).filter (·.2 ≠ [])

/-- A reader of lines, which leaves those it did not read. -/
abbrev Reader (α : Type) := List Line → Option (α × List Line)

/-! ## Markers -/

/-- The marker of an entry in a sequence: what follows it. -/
def dash : List Char → Option (Unit × List Char)
  | ['-'] => some ((), [])
  | '-' :: ' ' :: r => some ((), r)
  | _ => none

/-- The marker of an entry in a mapping: its key, and what follows it. -/
def key (s : List Char) : Option (List Char × List Char) := do
  let (cs, r) ← Json.readString s
  match r with
  | [':'] => some (cs, [])
  | ':' :: ' ' :: r => some (cs, r)
  | _ => none

/-! ## The reader -/

section Reader

variable {κ : Type}

/-- What an entry at the indentation holds, given what follows its marker: a block on deeper lines or, when
there are none, nothing. -/
def held (block : Reader Json) (n : Nat) (after : List Char) : Reader Json := fun rest =>
  if after = [] then
    match rest with
    | (m, _) :: _ => if n < m then block rest else some (.null, rest)
    | [] => some (.null, [])
  else do return (← Json.read after, rest)

/-- The entries at the indentation, at most `k` of them, up to a line that is not indented so. -/
def entries (marker : List Char → Option (κ × List Char)) (block : Reader Json) (n : Nat) :
    Nat → Reader (List (κ × Json))
  | 0, ls => some ([], ls)
  | _ + 1, [] => some ([], [])
  | k + 1, (m, s) :: rest =>
    if m = n then do
      let (key, after) ← marker s
      let (d, rest) ← held block n after rest
      let (es, rest) ← entries marker block n k rest
      return ((key, d) :: es, rest)
    else some ([], (m, s) :: rest)

/-- A block that nests at most as deep as given. -/
def block : Nat → Reader Json
  | 0, _ => none
  | _ + 1, [] => none
  | depth + 1, (n, s) :: rest =>
    if (dash s).isSome then do
      let (es, rest) ← entries dash (block depth) n (rest.length + 1) ((n, s) :: rest)
      return (.array (es.map Prod.snd), rest)
    else if (key s).isSome then do
      let (es, rest) ← entries key (block depth) n (rest.length + 1) ((n, s) :: rest)
      return (.object es, rest)
    else do return (← Json.read s, rest)

/-- The document of a text. -/
def read (s : List Char) : Option Json :=
  let ls := lines s
  match block (ls.length + 1) ls with
  | some (d, []) => some d
  | _ => none

end Reader

/-! ## Lines -/

/-- The text is that of the lines, whatever follows it. -/
def Lined (t : List Char) (ls : List Line) : Prop := ∀ r, lines (t ++ r) = ls ++ lines r

theorem Lined.nil : Lined [] [] := fun _ => rfl

theorem Lined.append {t t' : List Char} {ls ls' : List Line} (h : Lined t ls) (h' : Lined t' ls') :
    Lined (t ++ t') (ls ++ ls') := by
  intro r
  rw [List.append_assoc, h, h', List.append_assoc]

theorem Lined.lines_eq {t : List Char} {ls : List Line} (h : Lined t ls) : lines t = ls := by
  have hend := h []
  rwa [List.append_nil, show lines [] = [] from rfl, List.append_nil] at hend

theorem line_indented {n : Nat} {c : Char} {s : List Char} (hc : c ≠ ' ') :
    line (List.replicate n ' ' ++ c :: s) = (n, c :: s) := by
  have hpad : ∀ d ∈ List.replicate n ' ', decide (d = ' ') = true := by
    intro d hd
    rw [List.eq_of_mem_replicate hd]
    rfl
  have htake : (c :: s).takeWhile (fun d => decide (d = ' ')) = [] := List.takeWhile_cons_of_neg (by simpa using hc)
  have hdrop : (c :: s).dropWhile (fun d => decide (d = ' ')) = c :: s := List.dropWhile_cons_of_neg (by simpa using hc)
  rw [line, List.takeWhile_append_of_pos hpad, List.dropWhile_append_of_pos hpad, htake, hdrop, List.append_nil,
    List.length_replicate]

/-- One line. -/
theorem Lined.one {n : Nat} {c : Char} {s : List Char} (hc : c ≠ ' ') (hs : '\n' ∉ c :: s) :
    Lined (List.replicate n ' ' ++ (c :: s ++ ['\n'])) [(n, c :: s)] := by
  intro r
  have hplain : ∀ d ∈ List.replicate n ' ' ++ c :: s, decide (d = '\n') = false := by
    intro d hd
    apply decide_eq_false
    rintro rfl
    rcases List.mem_append.1 hd with hd | hd
    · cases List.eq_of_mem_replicate hd
    · exact hs hd
  have hassoc : List.replicate n ' ' ++ (c :: s ++ ['\n']) ++ r = (List.replicate n ' ' ++ c :: s) ++ '\n' :: r := by
    simp
  rw [lines, hassoc, List.splitOnP_append_cons_of_forall_mem hplain _ (by decide), List.map_cons, line_indented hc]
  rfl

/-! ## Reading blocks -/

section Blocks

variable {κ : Type} {marker : List Char → Option (κ × List Char)} {b : Reader Json} {n k depth : Nat}
  {ls rest : List Line}

/-- The line that comes next, if any, is indented less. -/
def Shallow (n : Nat) (rest : List Line) : Prop := ∀ l ∈ rest.head?, l.1 < n

/-- The lines of an entry at the indentation. -/
def Entry (marker : List Char → Option (κ × List Char)) (b : Reader Json) (n : Nat) (e : κ × Json)
    (ls : List Line) : Prop :=
  ∃ s after own, ls = (n, s) :: own ∧ marker s = some (e.1, after) ∧
    ∀ rest, Shallow (n + 1) rest → held b n after (own ++ rest) = some (e.2, rest)

def Entries (marker : List Char → Option (κ × List Char)) (b : Reader Json) (n : Nat) :
    List (κ × Json) → List Line → Prop
  | [], ls => ls = []
  | e :: es, ls => ∃ u v, ls = u ++ v ∧ Entry marker b n e u ∧ Entries marker b n es v

theorem Shallow.nil : Shallow n [] := nofun

theorem Shallow.mono {m : Nat} (h : Shallow n rest) (hnm : n ≤ m) : Shallow m rest :=
  fun l hl => (h l hl).trans_le hnm

theorem Entries.head {e : κ × Json} {es : List (κ × Json)} (h : Entries marker b n (e :: es) ls) :
    ∃ s own, ls = (n, s) :: own ∧ (marker s).isSome := by
  obtain ⟨u, v, rfl, ⟨s, after, own, rfl, hmarker, -⟩, -⟩ := h
  exact ⟨s, own ++ v, rfl, by rw [hmarker]; rfl⟩

theorem Entries.length_le {es : List (κ × Json)} (h : Entries marker b n es ls) : es.length ≤ ls.length := by
  induction es generalizing ls with
  | nil => exact Nat.zero_le _
  | cons e es ih =>
    obtain ⟨u, v, rfl, ⟨s, after, own, rfl, -⟩, hv⟩ := h
    have hlen := ih hv
    simp only [List.length_cons, List.length_append]
    omega

/-- After an entry comes another one at its indentation, or a line that is indented less. -/
theorem Entries.shallow {es : List (κ × Json)} (h : Entries marker b n es ls) (hrest : Shallow n rest) :
    Shallow (n + 1) (ls ++ rest) := by
  cases es with
  | nil =>
    obtain rfl : ls = [] := h
    exact hrest.mono (Nat.le_succ n)
  | cons e es =>
    obtain ⟨s, own, rfl, -⟩ := h.head
    intro l hl
    obtain rfl := Option.some.inj hl
    exact Nat.lt_succ_self n

/-- **Entries are read up to the line that is indented less.** -/
theorem entries_append {es : List (κ × Json)} (h : Entries marker b n es ls) (hrest : Shallow n rest)
    (hk : es.length ≤ k) : entries marker b n k (ls ++ rest) = some (es, rest) := by
  induction es generalizing ls k with
  | nil =>
    obtain rfl : ls = [] := h
    cases k with
    | zero => rfl
    | succ k =>
      cases rest with
      | nil => rfl
      | cons l rest =>
        have hl : l.1 < n := hrest l rfl
        rw [List.nil_append, entries, if_neg (Nat.ne_of_lt hl)]
  | cons e es ih =>
    obtain ⟨u, v, rfl, ⟨s, after, own, rfl, hmarker, hheld⟩, hv⟩ := h
    obtain ⟨k, rfl⟩ : ∃ j, k = j + 1 := Nat.exists_eq_succ_of_ne_zero (by simp at hk; omega)
    have hentry := hheld (v ++ rest) (hv.shallow hrest)
    have hrest' := ih hv (k := k) (by simpa using hk)
    rw [List.append_assoc, List.cons_append, entries, if_pos rfl]
    simp only [hmarker, Option.bind_eq_bind, Option.bind_some, hentry, hrest']
    rfl

/-- A quoted key is no dash. -/
theorem dash_of_key {s : List Char} (h : (key s).isSome) : dash s = none := by
  cases s with
  | nil => rfl
  | cons c s =>
    by_cases hc : c = '"'
    · subst hc
      rfl
    · have hread : Json.readString (c :: s) = none := by
        rw [Json.readString]
        rintro r heq
        exact hc (List.cons.inj heq).1
      rw [key, hread] at h
      cases h

/-- **A block sequence is read.** -/
theorem block_array {es : List (Unit × Json)} (h : Entries dash (block depth) n es ls) (hne : es ≠ [])
    (hrest : Shallow n rest) : block (depth + 1) (ls ++ rest) = some (.array (es.map Prod.snd), rest) := by
  obtain ⟨e, es, rfl⟩ := List.exists_cons_of_ne_nil hne
  obtain ⟨s, own, rfl, hmarker⟩ := h.head
  have hlen := h.length_le
  have hread := entries_append (k := (own ++ rest).length + 1) h hrest (by
    rw [List.length_append]
    simp only [List.length_cons] at hlen ⊢
    omega)
  rw [List.cons_append] at hread ⊢
  simp only [block, if_pos hmarker, hread, Option.bind_eq_bind, Option.bind_some]
  rfl

/-- **A block mapping is read.** -/
theorem block_object {es : List (List Char × Json)} (h : Entries key (block depth) n es ls) (hne : es ≠ [])
    (hrest : Shallow n rest) : block (depth + 1) (ls ++ rest) = some (.object es, rest) := by
  obtain ⟨e, es, rfl⟩ := List.exists_cons_of_ne_nil hne
  obtain ⟨s, own, rfl, hmarker⟩ := h.head
  have hdash : ¬ (dash s).isSome = true := by
    rw [dash_of_key hmarker]
    nofun
  have hlen := h.length_le
  have hread := entries_append (k := (own ++ rest).length + 1) h hrest (by
    rw [List.length_append]
    simp only [List.length_cons] at hlen ⊢
    omega)
  rw [List.cons_append] at hread ⊢
  simp only [block, if_neg hdash, if_pos hmarker, hread, Option.bind_eq_bind, Option.bind_some]
  rfl

/-- The text of a value is no marker. -/
theorem not_marker {d : Json} {s : List Char} (h : Json.Value d s) : dash s = none ∧ key s = none := by
  obtain ⟨m, h⟩ := h
  have hother {c : Char} {r : List Char} (hdash : c ≠ '-') (hquote : c ≠ '"') :
      dash (c :: r) = none ∧ key (c :: r) = none := by
    constructor
    · unfold dash
      split
      · exact absurd (List.cons.inj ‹_›).1 hdash
      · exact absurd (List.cons.inj ‹_›).1 hdash
      · rfl
    · have hread : Json.readString (c :: r) = none := by
        rw [Json.readString]
        rintro r heq
        exact hquote (List.cons.inj heq).1
      rw [key, hread]
      rfl
  cases m with
  | zero => cases d <;> exact h.elim
  | succ m =>
    cases d with
    | null =>
      obtain rfl := h
      exact hother (by decide) (by decide)
    | bool v => cases v <;> obtain rfl := h <;> exact hother (by decide) (by decide)
    | number literal =>
      obtain ⟨rfl, hminus, hint, -, -⟩ := h
      obtain ⟨c, t, rfl, hc⟩ := hint.head
      rcases hminus with rfl | rfl
      · apply hother
        · rintro rfl
          cases hc
        · rintro rfl
          cases hc
      · constructor
        · simp only [List.cons_append]
          unfold dash
          split
          · rename_i heq
            cases heq
          · rename_i heq
            rw [(List.cons.inj (List.cons.inj heq).2).1] at hc
            cases hc
          · rfl
        · rfl
    | string cs =>
      have hread := Json.readString_append (r := []) h
      rw [List.append_nil] at hread
      constructor
      · obtain ⟨t, rfl, -⟩ := h
        rfl
      · rw [key, hread]
        rfl
    | array items =>
      obtain ⟨t, rfl, -⟩ := h
      exact hother (by decide) (by decide)
    | object members =>
      obtain ⟨t, rfl, -⟩ := h
      exact hother (by decide) (by decide)

/-- **A value on a line of its own is read.** -/
theorem block_value {d : Json} {s : List Char} (h : Json.Value d s) :
    block (depth + 1) ((n, s) :: rest) = some (d, rest) := by
  obtain ⟨hdash, hkey⟩ := not_marker h
  simp only [block, hdash, hkey, Option.isSome_none, Bool.false_eq_true, if_false, Json.read_of_text h.text,
    Option.bind_eq_bind, Option.bind_some]
  rfl

/-! ## Writing entries -/

/-- The text marks an entry of the key, with something after it or without. -/
structure Marks (marker : List Char → Option (κ × List Char)) (text : List Char) (key : κ) : Prop where
  head : ∃ c s, text = c :: s ∧ c ≠ ' '
  newline : '\n' ∉ text
  bare : marker text = some (key, [])
  followed : ∀ r, marker (text ++ ' ' :: r) = some (key, r)

theorem marks_dash : Marks dash ['-'] () where
  head := ⟨'-', [], rfl, by decide⟩
  newline := by decide
  bare := rfl
  followed _ := rfl

theorem marks_key {cs s : List Char} (h : Json.StringText cs s) : Marks key (s ++ [':']) cs where
  head := by
    obtain ⟨t, rfl, -⟩ := h
    exact ⟨'"', _, rfl, by decide⟩
  newline := by
    intro hmem
    rcases List.mem_append.1 hmem with hmem | hmem
    · exact h.newline hmem
    · cases List.mem_singleton.1 hmem
  bare := by
    rw [key, Json.readString_append h]
    rfl
  followed r := by
    rw [key, List.append_assoc, Json.readString_append h]
    rfl

variable {text : List Char} {key : κ} {d : Json}

theorem Marks.lined {s : List Char} (hm : Marks marker text key) (hs : '\n' ∉ s) :
    Lined (List.replicate n ' ' ++ (text ++ (s ++ ['\n']))) [(n, text ++ s)] := by
  obtain ⟨c, r, rfl, hc⟩ := hm.head
  have hnewline : '\n' ∉ c :: (r ++ s) := by
    intro hmem
    rcases List.mem_append.1 (List.cons_append ▸ hmem) with hmem | hmem
    · exact hm.newline hmem
    · exact hs hmem
  have hone : Lined (List.replicate n ' ' ++ (c :: (r ++ s) ++ ['\n'])) [(n, c :: (r ++ s))] :=
    Lined.one hc hnewline
  rwa [← List.cons_append, List.append_assoc (c :: r)] at hone

/-- An entry that holds a value on its line. -/
theorem Marks.inline {s : List Char} (hm : Marks marker text key) (h : Json.Value d s) :
    Entry marker b n (key, d) [(n, text ++ ' ' :: s)] := by
  have hne : s ≠ [] := by
    obtain ⟨m, hspells⟩ := h
    obtain ⟨c, r, rfl, -⟩ := Json.spells_opens m d s hspells
    nofun
  refine ⟨_, s, [], rfl, hm.followed s, ?_⟩
  intro rest _
  simp only [List.nil_append, held, if_neg hne, Json.read_of_text h.text, Option.bind_eq_bind, Option.bind_some]
  rfl

/-- An entry that holds a block on deeper lines. -/
theorem Marks.block {own : List Line} (hm : Marks marker text key) (hdeep : ∃ m s own', own = (m, s) :: own' ∧ n < m)
    (hread : ∀ rest, Shallow (n + 1) rest → b (own ++ rest) = some (d, rest)) :
    Entry marker b n (key, d) ((n, text) :: own) := by
  refine ⟨text, [], own, rfl, hm.bare, ?_⟩
  intro rest hrest
  obtain ⟨m, s, own', rfl, hnm⟩ := hdeep
  simp only [held, if_true, List.cons_append, if_pos hnm]
  exact hread rest hrest

/-! ## Texts -/

/-- The text is that of the lines of an entry, which nests no deeper than it has lines. -/
def EntryText (marker : List Char → Option (κ × List Char)) (n : Nat) (e : κ × Json) (t : List Char) : Prop :=
  ∃ ls, Lined t ls ∧ ∀ depth, ls.length ≤ depth → Entry marker (Yaml.block depth) n e ls

def EntriesText (marker : List Char → Option (κ × List Char)) (n : Nat) (es : List (κ × Json))
    (t : List Char) : Prop :=
  ∃ ls, Lined t ls ∧ ∀ depth, ls.length ≤ depth → Entries marker (Yaml.block depth) n es ls

theorem EntriesText.nil : EntriesText marker n [] [] := ⟨[], .nil, fun _ _ => rfl⟩

theorem EntriesText.cons {e : κ × Json} {es : List (κ × Json)} {t t' : List Char} (h : EntryText marker n e t)
    (h' : EntriesText marker n es t') : EntriesText marker n (e :: es) (t ++ t') := by
  obtain ⟨u, hu, hentry⟩ := h
  obtain ⟨v, hv, hentries⟩ := h'
  refine ⟨u ++ v, hu.append hv, ?_⟩
  intro depth hdepth
  rw [List.length_append] at hdepth
  exact ⟨u, v, rfl, hentry depth (by omega), hentries depth (by omega)⟩

theorem EntryText.inline {s : List Char} (hm : Marks marker text key) (h : Json.Value d s) (hs : '\n' ∉ s)
    (n : Nat) :
    EntryText marker n (key, d) (List.replicate n ' ' ++ (text ++ (' ' :: s ++ ['\n']))) := by
  have hplain : '\n' ∉ ' ' :: s := by
    rw [List.mem_cons, not_or]
    exact ⟨by decide, hs⟩
  exact ⟨_, hm.lined hplain, fun depth _ => hm.inline h⟩

/-- An entry that holds a block on deeper lines, if each line of it makes it nest one deeper at most. -/
theorem EntryText.block {m : Nat} {t : List Char} (hm : Marks marker text key) (hls : Lined t ls)
    (hdeep : ∃ s own, ls = (m, s) :: own) (hnm : n < m)
    (hread : ∀ depth, ls.length ≤ depth →
      ∀ rest, Shallow m rest → Yaml.block (depth + 1) (ls ++ rest) = some (d, rest)) :
    EntryText marker n (key, d) (List.replicate n ' ' ++ (text ++ '\n' :: t)) := by
  refine ⟨(n, text) :: ls, ?_, ?_⟩
  · have hfirst := (hm.lined (n := n) (s := []) nofun).append hls
    simpa using hfirst
  · intro depth hdepth
    obtain ⟨depth, rfl⟩ : ∃ k, depth = k + 1 := Nat.exists_eq_succ_of_ne_zero (by simp at hdepth; omega)
    obtain ⟨s, own, rfl⟩ := hdeep
    apply hm.block ⟨m, s, own, rfl, hnm⟩
    intro rest hrest
    exact hread depth (by simpa using hdepth) rest (hrest.mono hnm)

theorem Entries.at_head {m : Nat} {es : List (κ × Json)} (h : Entries marker b m es ls) (hne : es ≠ []) :
    ∃ s own, ls = (m, s) :: own := by
  obtain ⟨e, es, rfl⟩ := List.exists_cons_of_ne_nil hne
  obtain ⟨s, own, rfl, -⟩ := h.head
  exact ⟨s, own, rfl⟩

/-- An entry that holds a sequence. -/
theorem EntryText.sequence {m : Nat} {es : List (Unit × Json)} {t : List Char} (hm : Marks marker text key)
    (h : EntriesText dash m es t) (hne : es ≠ []) (hnm : n < m) :
    EntryText marker n (key, .array (es.map Prod.snd)) (List.replicate n ' ' ++ (text ++ '\n' :: t)) := by
  obtain ⟨ls, hls, hentries⟩ := h
  apply EntryText.block hm hls ((hentries ls.length (Nat.le_refl _)).at_head hne) hnm
  intro depth hdepth rest hrest
  exact block_array (hentries depth hdepth) hne hrest

/-- An entry that holds a mapping. -/
theorem EntryText.mapping {m : Nat} {es : List (List Char × Json)} {t : List Char} (hm : Marks marker text key)
    (h : EntriesText Yaml.key m es t) (hne : es ≠ []) (hnm : n < m) :
    EntryText marker n (key, .object es) (List.replicate n ' ' ++ (text ++ '\n' :: t)) := by
  obtain ⟨ls, hls, hentries⟩ := h
  apply EntryText.block hm hls ((hentries ls.length (Nat.le_refl _)).at_head hne) hnm
  intro depth hdepth rest hrest
  exact block_object (hentries depth hdepth) hne hrest

/-! ## Whole texts -/

theorem read_of_block {t : List Char} (hls : Lined t ls) (h : Yaml.block (ls.length + 1) (ls ++ []) = some (d, [])) :
    read t = some d := by
  rw [List.append_nil] at h
  simp only [read, hls.lines_eq, h]

/-- **A sequence is read from its text.** -/
theorem read_sequence {es : List (Unit × Json)} {t : List Char} (h : EntriesText dash n es t) (hne : es ≠ []) :
    read t = some (.array (es.map Prod.snd)) := by
  obtain ⟨ls, hls, hentries⟩ := h
  exact read_of_block hls (block_array (hentries _ (Nat.le_refl _)) hne .nil)

/-- **A mapping is read from its text.** -/
theorem read_mapping {es : List (List Char × Json)} {t : List Char} (h : EntriesText Yaml.key n es t) (hne : es ≠ []) :
    read t = some (.object es) := by
  obtain ⟨ls, hls, hentries⟩ := h
  exact read_of_block hls (block_object (hentries _ (Nat.le_refl _)) hne .nil)

/-- **A value is read from its line.** -/
theorem read_value {s : List Char} (h : Json.Value d s) (hs : '\n' ∉ s) : read (s ++ ['\n']) = some d := by
  have hspells := h
  obtain ⟨m, hspells⟩ := hspells
  obtain ⟨c, r, rfl, hblank, -⟩ := Json.spells_opens m d s hspells
  have hc : c ≠ ' ' := fun hc => hblank (.inl hc)
  exact read_of_block (Lined.one (n := 0) hc hs) (block_value h)

end Blocks

end Yaml
