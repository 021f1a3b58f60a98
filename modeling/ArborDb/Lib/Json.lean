import Mathlib.Data.Char
import Mathlib.Data.List.Basic
import Mathlib.Tactic.Ring

/-!
# JSON texts

The grammar of RFC 8259, as a relation between a document and the texts that spell it, and a reader that
finds the document of a text of the grammar (`Json.read_of_text`). A text spells at most one document
(`Json.text_unique`). A number is kept as its literal. An escape of half a surrogate pair stands for no
character and is not taken.
-/

/-- A JSON document. -/
inductive Json where
  | null
  | bool (b : Bool)
  | number (literal : List Char)
  | string (chars : List Char)
  | array (items : List Json)
  | object (members : List (List Char × Json))

namespace Json

/-! ## Tokens -/

/-- Insignificant white space. -/
def Blank (c : Char) : Prop := c = ' ' ∨ c = '\t' ∨ c = '\n' ∨ c = '\r'

instance (c : Char) : Decidable (Blank c) := inferInstanceAs (Decidable (_ ∨ _ ∨ _ ∨ _))

def Ws (s : List Char) : Prop := ∀ c ∈ s, Blank c

/-- Digits, at least one. -/
def Digits (s : List Char) : Prop := s ≠ [] ∧ ∀ c ∈ s, c.isDigit

/-- An integer part has no leading zero. -/
inductive IntPart : List Char → Prop where
  | zero : IntPart ['0']
  | digits {c : Char} {s : List Char} : c.isDigit → c ≠ '0' → (∀ d ∈ s, d.isDigit) → IntPart (c :: s)

inductive FracPart : List Char → Prop where
  | none : FracPart []
  | some {s : List Char} : Digits s → FracPart ('.' :: s)

inductive ExpPart : List Char → Prop where
  | none : ExpPart []
  | some {c : Char} {sign s : List Char} : c = 'e' ∨ c = 'E' → sign = [] ∨ sign = ['+'] ∨ sign = ['-'] →
      Digits s → ExpPart (c :: (sign ++ s))

/-- `number = [ minus ] int [ frac ] [ exp ]`. -/
inductive Number : List Char → Prop where
  | mk {minus int frac exp : List Char} : minus = [] ∨ minus = ['-'] → IntPart int → FracPart frac →
      ExpPart exp → Number (minus ++ (int ++ (frac ++ exp)))

/-- The character of a two-character escape. -/
def escape : Char → Option Char
  | '"' => some '"'
  | '\\' => some '\\'
  | '/' => some '/'
  | 'b' => some '\x08'
  | 'f' => some '\x0c'
  | 'n' => some '\n'
  | 'r' => some '\r'
  | 't' => some '\t'
  | _ => none

def hexDigit (c : Char) : Option Nat :=
  if '0' ≤ c ∧ c ≤ '9' then some (c.toNat - '0'.toNat)
  else if 'a' ≤ c ∧ c ≤ 'f' then some (c.toNat - 'a'.toNat + 10)
  else if 'A' ≤ c ∧ c ≤ 'F' then some (c.toNat - 'A'.toNat + 10)
  else none

/-- The number of four hexadecimal digits, and what follows them. -/
def hex4 : List Char → Option (Nat × List Char)
  | a :: b :: c :: d :: r => do
    let a ← hexDigit a
    let b ← hexDigit b
    let c ← hexDigit c
    let d ← hexDigit d
    return (((a * 16 + b) * 16 + c) * 16 + d, r)
  | _ => none

/-- The texts of a character in a string. -/
inductive CharText : List Char → Char → Prop where
  | unescaped {c : Char} : 0x20 ≤ c.toNat → c ≠ '"' → c ≠ '\\' → CharText [c] c
  | escaped {e c : Char} : escape e = some c → CharText ['\\', e] c
  | unicode {h : List Char} {c : Char} : hex4 h = some (c.toNat, []) → CharText ('\\' :: 'u' :: h) c
  | surrogates {h l : List Char} {high low : Nat} {c : Char} : hex4 h = some (high, []) → hex4 l = some (low, []) →
      0xd800 ≤ high → high < 0xdc00 → 0xdc00 ≤ low → low < 0xe000 →
      c.toNat = 0x10000 + (high - 0xd800) * 0x400 + (low - 0xdc00) →
      CharText ('\\' :: 'u' :: (h ++ '\\' :: 'u' :: l)) c

def Chars : List Char → List Char → Prop
  | [], t => t = []
  | c :: cs, t => ∃ u v, t = u ++ v ∧ CharText u c ∧ Chars cs v

/-- `string = quotation-mark *char quotation-mark`. -/
def StringText (cs s : List Char) : Prop := ∃ t, s = '"' :: (t ++ ['"']) ∧ Chars cs t

/-! ## The grammar -/

section Grammar

variable {α : Type}

/-- A text with white space around it. -/
def Padded (P : List Char → Prop) (t : List Char) : Prop := ∃ w s w', t = w ++ (s ++ w') ∧ Ws w ∧ P s ∧ Ws w'

/-- The elements after the first, each after a comma. -/
def More (P : α → List Char → Prop) : List α → List Char → Prop
  | [], t => t = []
  | a :: as, t => ∃ u v, t = ',' :: (u ++ v) ∧ Padded (P a) u ∧ More P as v

/-- `[ element *( value-separator element ) ]`. -/
def Listed (P : α → List Char → Prop) : List α → List Char → Prop
  | [], t => Ws t
  | a :: as, t => ∃ u v, t = u ++ v ∧ Padded (P a) u ∧ More P as v

/-- `member = string name-separator value`. -/
def Member (P : Json → List Char → Prop) (m : List Char × Json) (t : List Char) : Prop :=
  ∃ k w w' s, t = k ++ (w ++ ':' :: (w' ++ s)) ∧ StringText m.1 k ∧ Ws w ∧ Ws w' ∧ P m.2 s

/-- The texts that spell a document that nests at most as deep as given. -/
def Spells : Nat → Json → List Char → Prop
  | 0, _, _ => False
  | _ + 1, .null, s => s = ['n', 'u', 'l', 'l']
  | _ + 1, .bool true, s => s = ['t', 'r', 'u', 'e']
  | _ + 1, .bool false, s => s = ['f', 'a', 'l', 's', 'e']
  | _ + 1, .number literal, s => s = literal ∧ Number literal
  | _ + 1, .string cs, s => StringText cs s
  | n + 1, .array items, s => ∃ t, s = '[' :: (t ++ [']']) ∧ Listed (Spells n) items t
  | n + 1, .object members, s => ∃ t, s = '{' :: (t ++ ['}']) ∧ Listed (Member (Spells n)) members t

/-- The texts of a value. -/
def Value (d : Json) (s : List Char) : Prop := ∃ n, Spells n d s

/-- `JSON-text = ws value ws`. -/
def Text (d : Json) (s : List Char) : Prop := Padded (Value d) s

end Grammar

/-! ## A reader -/

/-- Reads something at the start of a text, and leaves the rest. -/
abbrev Reader (α : Type) := List Char → Option (α × List Char)

def skipWs (s : List Char) : List Char := s.dropWhile fun c => decide (Blank c)

/-- What follows some digits. -/
def afterDigits : List Char → Option (List Char)
  | c :: r => if c.isDigit then some (r.dropWhile Char.isDigit) else none
  | [] => none

def afterMinus : List Char → List Char
  | '-' :: r => r
  | s => s

def afterInt : List Char → Option (List Char)
  | '0' :: r => some r
  | s => afterDigits s

def afterFrac : List Char → Option (List Char)
  | '.' :: r => afterDigits r
  | s => some s

def afterSign : List Char → List Char
  | '+' :: r => r
  | '-' :: r => r
  | s => s

def afterExp : List Char → Option (List Char)
  | 'e' :: r => afterDigits (afterSign r)
  | 'E' :: r => afterDigits (afterSign r)
  | s => some s

/-- A number, as long as it goes. -/
def readNumber : Reader (List Char) := fun s => do
  let r ← afterInt (afterMinus s)
  let r ← afterFrac r
  let r ← afterExp r
  return (s.take (s.length - r.length), r)

/-- The character of a code point. -/
def codePoint (n : Nat) : Option Char := if n.isValidChar then some (Char.ofNat n) else none

/-- What stands after `\u`. -/
def readUnicode : Reader Char := fun s => do
  let (high, r) ← hex4 s
  if 0xd800 ≤ high ∧ high < 0xdc00 then
    match r with
    | '\\' :: 'u' :: r => do
      let (low, r) ← hex4 r
      if 0xdc00 ≤ low ∧ low < 0xe000 then
        let c ← codePoint (0x10000 + (high - 0xd800) * 0x400 + (low - 0xdc00))
        return (c, r)
      else none
    | _ => none
  else
    let c ← codePoint high
    return (c, r)

/-- A character of a string. -/
def readChar : Reader Char
  | '\\' :: 'u' :: r => readUnicode r
  | '\\' :: e :: r => (escape e).map (·, r)
  | c :: r => if 0x20 ≤ c.toNat ∧ c ≠ '"' ∧ c ≠ '\\' then some (c, r) else none
  | [] => none

/-- The characters of a string to its quotation mark; there are at most `n`. -/
def readChars : Nat → Reader (List Char)
  | _, '"' :: r => some ([], r)
  | 0, _ => none
  | n + 1, s => do
    let (c, r) ← readChar s
    let (cs, r) ← readChars n r
    return (c :: cs, r)

def readString : Reader (List Char)
  | '"' :: r => readChars r.length r
  | _ => none

section Lists

variable {α : Type}

/-- The elements to the closing bracket; there are at most `n`. -/
def readItems (close : Char) (p : Reader α) : Nat → Reader (List α)
  | 0, _ => none
  | n + 1, s => do
    let (a, r) ← p (skipWs s)
    match skipWs r with
    | ',' :: r => do
      let (as, r) ← readItems close p n r
      return (a :: as, r)
    | c :: r => if c = close then return ([a], r) else none
    | [] => none

def readListed (close : Char) (p : Reader α) : Reader (List α) := fun s =>
  match skipWs s with
  | c :: r => if c = close then some ([], r) else readItems close p s.length s
  | [] => none

def readMember (p : Reader Json) : Reader (List Char × Json) := fun s => do
  let (k, r) ← readString s
  match skipWs r with
  | ':' :: r => do
    let (d, r) ← p (skipWs r)
    return ((k, d), r)
  | _ => none

end Lists

/-- A value that nests at most as deep as given. -/
def readValue : Nat → Reader Json
  | 0 => fun _ => none
  | n + 1 => fun s => match s with
    | 'n' :: 'u' :: 'l' :: 'l' :: r => some (.null, r)
    | 't' :: 'r' :: 'u' :: 'e' :: r => some (.bool true, r)
    | 'f' :: 'a' :: 'l' :: 's' :: 'e' :: r => some (.bool false, r)
    | '"' :: _ => do
      let (cs, r) ← readString s
      return (.string cs, r)
    | '[' :: r => do
      let (ds, r) ← readListed ']' (readValue n) r
      return (.array ds, r)
    | '{' :: r => do
      let (ms, r) ← readListed '}' (readMember (readValue n)) r
      return (.object ms, r)
    | _ => do
      let (literal, r) ← readNumber s
      return (.number literal, r)

/-- The document of a text. -/
def read (s : List Char) : Option Json := do
  let (d, r) ← readValue s.length (skipWs s)
  if skipWs r = [] then some d else none

/-! ## Reading tokens -/

section Tokens

variable {s t r w u : List Char}

/-- No digit comes next. -/
def NoDigit (r : List Char) : Prop := ∀ c ∈ r.head?, c.isDigit = false

/-- Nothing comes next that would go on with a number. -/
def Ends (r : List Char) : Prop := NoDigit r ∧ ∀ c ∈ r.head?, c ≠ '.' ∧ c ≠ 'e' ∧ c ≠ 'E'

theorem skipWs_append (hw : Ws w) : skipWs (w ++ s) = skipWs s :=
  List.dropWhile_append_of_pos fun c hc => decide_eq_true (hw c hc)

theorem skipWs_cons {c : Char} (hw : Ws w) (hc : ¬ Blank c) : skipWs (w ++ c :: r) = c :: r := by
  rw [skipWs_append hw]
  exact List.dropWhile_cons_of_neg (by simpa using hc)

theorem skipWs_ws (hw : Ws w) : skipWs w = [] := by
  have h := skipWs_append (s := []) hw
  rwa [List.append_nil] at h

theorem dropDigits (hs : ∀ c ∈ s, c.isDigit) (hr : NoDigit r) : (s ++ r).dropWhile Char.isDigit = r := by
  rw [List.dropWhile_append_of_pos hs]
  cases r with
  | nil => rfl
  | cons c r => exact List.dropWhile_cons_of_neg (by rw [hr c rfl]; decide)

theorem afterDigits_append (hs : Digits s) (hr : NoDigit r) : afterDigits (s ++ r) = some r := by
  obtain ⟨hne, hall⟩ := hs
  cases s with
  | nil => exact absurd rfl hne
  | cons c s =>
    rw [List.cons_append, afterDigits, if_pos (hall c List.mem_cons_self)]
    rw [dropDigits (fun d hd => hall d (List.mem_cons_of_mem c hd)) hr]

theorem IntPart.head (h : IntPart s) : ∃ c t, s = c :: t ∧ c.isDigit := by
  cases h with
  | zero => exact ⟨'0', [], rfl, rfl⟩
  | @digits c t hc _ _ => exact ⟨c, t, rfl, hc⟩

theorem afterInt_append (h : IntPart s) (hr : NoDigit r) : afterInt (s ++ r) = some r := by
  cases h with
  | zero => rfl
  | @digits c s hc hzero hs =>
    have hdigits : Digits (c :: s) := ⟨by simp, List.forall_mem_cons.2 ⟨hc, hs⟩⟩
    rw [← afterDigits_append hdigits hr, List.cons_append, afterInt]
    rintro r' heq
    exact absurd (List.cons.inj heq).1 hzero

theorem afterFrac_append (h : FracPart s) (hr : NoDigit r) (hpoint : ∀ c ∈ r.head?, c ≠ '.') :
    afterFrac (s ++ r) = some r := by
  cases h with
  | none =>
    rw [List.nil_append, afterFrac]
    rintro r' rfl
    exact hpoint '.' rfl rfl
  | some hs => exact afterDigits_append hs hr

theorem afterSign_append {sign : List Char} (h : sign = [] ∨ sign = ['+'] ∨ sign = ['-']) (hs : Digits s) :
    afterSign (sign ++ (s ++ r)) = s ++ r := by
  rcases h with rfl | rfl | rfl
  · obtain ⟨hne, hall⟩ := hs
    cases s with
    | nil => exact absurd rfl hne
    | cons c s =>
      have hc := hall c List.mem_cons_self
      rw [List.nil_append, List.cons_append, afterSign]
      · rintro r' heq
        rw [(List.cons.inj heq).1] at hc
        cases hc
      · rintro r' heq
        rw [(List.cons.inj heq).1] at hc
        cases hc
  · rfl
  · rfl

theorem afterExp_append (h : ExpPart s) (hr : NoDigit r) (hexp : ∀ c ∈ r.head?, c ≠ 'e' ∧ c ≠ 'E') :
    afterExp (s ++ r) = some r := by
  cases h with
  | none =>
    rw [List.nil_append, afterExp]
    · rintro r' rfl
      exact (hexp 'e' rfl).1 rfl
    · rintro r' rfl
      exact (hexp 'E' rfl).2 rfl
  | @some c sign s hc hsign hs =>
    have hdigits : afterDigits (afterSign (sign ++ s ++ r)) = some r := by
      rw [List.append_assoc, afterSign_append hsign hs, afterDigits_append hs hr]
    rcases hc with rfl | rfl
    · exact hdigits
    · exact hdigits

theorem newline_not_mem_digits (hs : ∀ c ∈ s, c.isDigit) : '\n' ∉ s := fun h => by
  cases hs '\n' h

/-- A number stays on its line. -/
theorem Number.newline (h : Number t) : '\n' ∉ t := by
  obtain ⟨hminus, hint, hfrac, hexp⟩ := h
  simp only [List.mem_append, not_or]
  refine ⟨?_, ?_, ?_, ?_⟩
  · rcases hminus with rfl | rfl <;> decide
  · cases hint with
    | zero => decide
    | @digits c s hc _ hs => exact newline_not_mem_digits (List.forall_mem_cons.2 ⟨hc, hs⟩)
  · cases hfrac with
    | none => nofun
    | some hs =>
      rw [List.mem_cons, not_or]
      exact ⟨by decide, newline_not_mem_digits hs.2⟩
  · cases hexp with
    | none => nofun
    | some hc hsign hs =>
      rw [List.mem_cons, not_or, List.mem_append, not_or]
      refine ⟨?_, ?_, newline_not_mem_digits hs.2⟩
      · rcases hc with rfl | rfl <;> decide
      · rcases hsign with rfl | rfl | rfl <;> decide

/-- **A number is read to its end.** -/
theorem readNumber_append (h : Number t) (hr : Ends r) : readNumber (t ++ r) = some (t, r) := by
  cases h with
  | @mk minus int frac exp hminus hint hfrac hexp =>
    have hnoDigit : NoDigit (exp ++ r) := by
      cases hexp with
      | none => exact hr.1
      | @some c sign s hc _ _ =>
        rintro d hd
        obtain rfl : c = d := Option.some.inj hd
        rcases hc with rfl | rfl <;> rfl
    have hnoPoint : ∀ c ∈ (exp ++ r).head?, c ≠ '.' := by
      cases hexp with
      | none => exact fun c hc => (hr.2 c hc).1
      | @some c sign s hc _ _ =>
        rintro d hd
        obtain rfl : c = d := Option.some.inj hd
        rcases hc with rfl | rfl <;> decide
    have hnoDigit' : NoDigit (frac ++ (exp ++ r)) := by
      cases hfrac with
      | none => exact hnoDigit
      | some _ =>
        rintro d hd
        obtain rfl : '.' = d := Option.some.inj hd
        rfl
    have hsign : afterMinus (minus ++ (int ++ (frac ++ (exp ++ r)))) = int ++ (frac ++ (exp ++ r)) := by
      rcases hminus with rfl | rfl
      · obtain ⟨c, t, rfl, hc⟩ := hint.head
        rw [List.nil_append, List.cons_append, afterMinus]
        rintro r' heq
        rw [(List.cons.inj heq).1] at hc
        cases hc
      · rfl
    have hassoc : minus ++ (int ++ (frac ++ exp)) ++ r = minus ++ (int ++ (frac ++ (exp ++ r))) := by simp
    have hint' := afterInt_append hint hnoDigit'
    have hexp' := afterExp_append hexp hr.1 fun c hc => (hr.2 c hc).2
    have htake (text : List Char) : (text ++ r).take ((text ++ r).length - r.length) = text := by
      rw [List.length_append, Nat.add_sub_cancel, List.take_left]
    simp only [readNumber, hassoc, hsign, hint', Option.bind_eq_bind, Option.bind_some,
      afterFrac_append hfrac hnoDigit hnoPoint, hexp', Option.pure_def]
    rw [← hassoc, htake]

theorem hex4_append {n : Nat} {l : List Char} (h : hex4 s = some (n, l)) : hex4 (s ++ r) = some (n, l ++ r) := by
  unfold hex4 at h
  split at h
  · simp only [Option.bind_eq_bind, Option.bind_eq_some_iff, Option.pure_def, Option.some.injEq, Prod.mk.injEq] at h
    obtain ⟨a, ha, b, hb, c, hc, d, hd, rfl, rfl⟩ := h
    simp [hex4, ha, hb, hc, hd]
  · cases h

theorem codePoint_toNat (c : Char) : codePoint c.toNat = some c := by
  have hvalid : c.toNat.isValidChar := c.valid
  rw [codePoint, if_pos hvalid, Char.ofNat_toNat]

theorem readUnicode_char {h : List Char} {c : Char} (hhex : hex4 h = some (c.toNat, [])) :
    readUnicode (h ++ r) = some (c, r) := by
  have hvalid : c.toNat.isValidChar := c.valid
  have hplain : ¬ (0xd800 ≤ c.toNat ∧ c.toNat < 0xdc00) := by
    unfold Nat.isValidChar at hvalid
    omega
  simp only [readUnicode, hex4_append hhex, Option.bind_eq_bind, Option.bind_some, if_neg hplain, codePoint_toNat,
    List.nil_append, Option.pure_def]

theorem readUnicode_surrogates {h l : List Char} {high low : Nat} {c : Char} (hh : hex4 h = some (high, []))
    (hl : hex4 l = some (low, [])) (hhigh : 0xd800 ≤ high ∧ high < 0xdc00) (hlow : 0xdc00 ≤ low ∧ low < 0xe000)
    (hc : c.toNat = 0x10000 + (high - 0xd800) * 0x400 + (low - 0xdc00)) :
    readUnicode (h ++ '\\' :: 'u' :: l ++ r) = some (c, r) := by
  simp only [readUnicode, List.append_assoc, hex4_append hh, Option.bind_eq_bind, Option.bind_some, if_pos hhigh,
    List.nil_append, List.cons_append, hex4_append hl, if_pos hlow, ← hc, codePoint_toNat, Option.pure_def]

/-- No escape is by the letter `u`. -/
theorem escape_ne {e c : Char} (h : escape e = some c) : e ≠ 'u' := by
  rintro rfl
  cases h

theorem readChar_append {c : Char} (h : CharText u c) : readChar (u ++ r) = some (c, r) := by
  cases h with
  | unescaped hmin hquote hslash =>
    rw [List.singleton_append, readChar, if_pos ⟨hmin, hquote, hslash⟩]
    · rintro r' heq
      exact absurd heq hslash
    · rintro e r' heq
      exact absurd heq hslash
  | @escaped e c h =>
    have hread : readChar ('\\' :: e :: r) = (escape e).map (·, r) := by
      rw [readChar]
      exact escape_ne h
    rw [List.cons_append, List.singleton_append, hread, h]
    rfl
  | unicode h => exact readUnicode_char h
  | surrogates hh hl h₁ h₂ h₃ h₄ hc => exact readUnicode_surrogates hh hl ⟨h₁, h₂⟩ ⟨h₃, h₄⟩ hc

/-- The text of a character does not begin with a quotation mark. -/
theorem CharText.head {c : Char} (h : CharText u c) : ∃ d v, u = d :: v ∧ d ≠ '"' := by
  cases h with
  | unescaped _ hquote _ => exact ⟨c, [], rfl, hquote⟩
  | escaped _ => exact ⟨_, _, rfl, by decide⟩
  | unicode _ => exact ⟨_, _, rfl, by decide⟩
  | surrogates => exact ⟨_, _, rfl, by decide⟩

theorem readChars_append {n : Nat} {cs : List Char} (h : Chars cs t) (hn : t.length ≤ n) :
    readChars n (t ++ '"' :: r) = some (cs, r) := by
  induction cs generalizing n t with
  | nil =>
    obtain rfl : t = [] := h
    rw [List.nil_append, readChars]
  | cons c cs ih =>
    obtain ⟨u, v, rfl, hu, hv⟩ := h
    obtain ⟨d, u', rfl, hd⟩ := hu.head
    rw [List.length_append, List.length_cons] at hn
    obtain ⟨n, rfl⟩ : ∃ m, n = m + 1 := ⟨n - 1, by omega⟩
    have hchar : readChar (d :: u' ++ (v ++ '"' :: r)) = some (c, v ++ '"' :: r) := readChar_append hu
    rw [List.append_assoc, List.cons_append, readChars, ← List.cons_append, hchar]
    · have hrest := ih hv (n := n) (by omega)
      simp only [Option.bind_eq_bind, Option.bind_some, hrest]
      rfl
    · rintro r' heq
      exact absurd (List.cons.inj heq).1 hd

theorem hexDigit_newline : hexDigit '\n' = none := by decide

theorem hex4_newline {n : Nat} (h : hex4 s = some (n, [])) : '\n' ∉ s := by
  unfold hex4 at h
  split at h
  · simp only [Option.bind_eq_bind, Option.bind_eq_some_iff, Option.pure_def, Option.some.injEq, Prod.mk.injEq] at h
    obtain ⟨a, ha, b, hb, c, hc, d, hd, -, rfl⟩ := h
    have hne {x : Char} {v : Nat} (hx : hexDigit x = some v) : '\n' ≠ x := by
      rintro rfl
      rw [hexDigit_newline] at hx
      cases hx
    simp [hne ha, hne hb, hne hc, hne hd]
  · cases h

theorem CharText.newline {c : Char} (h : CharText u c) : '\n' ∉ u := by
  cases h with
  | unescaped hmin _ _ =>
    rw [List.mem_singleton]
    rintro rfl
    exact absurd hmin (by decide)
  | @escaped e _ h =>
    have he : '\n' ≠ e := by
      rintro rfl
      cases h
    simp [he]
  | unicode h =>
    have hhex := hex4_newline h
    simp [hhex]
  | surrogates hh hl =>
    have hhigh := hex4_newline hh
    have hlow := hex4_newline hl
    simp [hhigh, hlow]

/-- A string stays on its line. -/
theorem StringText.newline {cs : List Char} (h : StringText cs s) : '\n' ∉ s := by
  obtain ⟨t, rfl, ht⟩ := h
  have hchars : '\n' ∉ t := by
    induction cs generalizing t with
    | nil =>
      obtain rfl : t = [] := ht
      nofun
    | cons c cs ih =>
      obtain ⟨u, v, rfl, hu, hv⟩ := ht
      intro hmem
      rcases List.mem_append.1 hmem with hmem | hmem
      · exact hu.newline hmem
      · exact ih v hv hmem
  simp [hchars]

/-- **A string is read to its quotation mark.** -/
theorem readString_append {cs : List Char} (h : StringText cs s) : readString (s ++ r) = some (cs, r) := by
  obtain ⟨t, rfl, ht⟩ := h
  rw [List.cons_append, List.append_assoc, List.singleton_append, readString]
  exact readChars_append ht (by simp)

end Tokens

/-! ## Reading values -/

section Values

variable {α : Type} {P Q : α → List Char → Prop} {p : Reader α} {s t r w u v : List Char} {close : Char}

/-- The reader reads what the relation spells. -/
def Reads (P : α → List Char → Prop) (p : Reader α) : Prop :=
  ∀ a u r, P a u → Ends r → p (u ++ r) = some (a, r)

/-- A text does not begin with white space or a closing bracket. -/
def Opens (P : α → List Char → Prop) : Prop :=
  ∀ a u, P a u → ∃ c t, u = c :: t ∧ ¬ Blank c ∧ c ≠ ']' ∧ c ≠ '}'

/-- A separator or a closing bracket. -/
def Separator (c : Char) : Prop := c = ',' ∨ c = ']' ∨ c = '}'

theorem Separator.not_blank {c : Char} (h : Separator c) : ¬ Blank c := by
  rcases h with rfl | rfl | rfl <;> decide

theorem ends_of_head {c : Char} (h : Separator c ∨ Blank c) : Ends (c :: r) := by
  have hone (d : Char) (hd : d.isDigit = false) (hd' : d ≠ '.' ∧ d ≠ 'e' ∧ d ≠ 'E') : Ends (d :: r) := by
    constructor
    · intro c hc
      obtain rfl := Option.some.inj hc
      exact hd
    · intro c hc
      obtain rfl := Option.some.inj hc
      exact hd'
  rcases h with (rfl | rfl | rfl) | rfl | rfl | rfl | rfl <;> exact hone _ (by decide) (by decide)

theorem ends_append {c : Char} (hw : Ws w) (hc : Separator c) : Ends (w ++ c :: r) := by
  cases w with
  | nil => exact ends_of_head (.inl hc)
  | cons d w => exact ends_of_head (.inr (hw d List.mem_cons_self))

theorem ends_ws (hw : Ws w) : Ends w := by
  cases w with
  | nil => exact ⟨nofun, nofun⟩
  | cons d w => exact ends_of_head (.inr (hw d List.mem_cons_self))

/-- What follows an element begins with a separator. -/
theorem More.head {as : List α} (h : More P as v) (hclose : close = ']' ∨ close = '}') :
    ∃ c t, v ++ close :: r = c :: t ∧ Separator c := by
  cases as with
  | nil =>
    obtain rfl : v = [] := h
    exact ⟨close, r, rfl, .inr hclose⟩
  | cons a as =>
    obtain ⟨u, v', rfl, -, -⟩ := h
    exact ⟨',', _, rfl, .inl rfl⟩

/-- An element is read up to the separator that follows it. -/
theorem readPadded (hp : Reads P p) (hopens : Opens P) {a : α} {c : Char} (hu : Padded (P a) u) (hc : Separator c) :
    ∃ w, p (skipWs (u ++ c :: r)) = some (a, w ++ c :: r) ∧ skipWs (w ++ c :: r) = c :: r := by
  obtain ⟨w, s, w', rfl, hw, hs, hw'⟩ := hu
  obtain ⟨d, t, rfl, hd, -⟩ := hopens a s hs
  have hskip : skipWs (w ++ (d :: t ++ w') ++ c :: r) = d :: t ++ (w' ++ c :: r) := by
    rw [List.append_assoc, List.append_assoc]
    exact skipWs_cons hw hd
  refine ⟨w', ?_, skipWs_cons hw' hc.not_blank⟩
  rw [hskip]
  exact hp a _ _ hs (ends_append hw' hc)

theorem readItems_append (hp : Reads P p) (hopens : Opens P) (hclose : close = ']' ∨ close = '}') {a : α}
    {as : List α} {n : Nat} (hu : Padded (P a) u) (hv : More P as v) (hn : v.length < n) :
    readItems close p n (u ++ (v ++ close :: r)) = some (a :: as, r) := by
  induction as generalizing a u v n with
  | nil =>
    obtain rfl : v = [] := hv
    obtain ⟨n, rfl⟩ : ∃ m, n = m + 1 := ⟨n - 1, by omega⟩
    obtain ⟨w, hread, hskip⟩ := readPadded (r := r) hp hopens hu (.inr hclose)
    rw [List.nil_append, readItems, hread]
    simp only [Option.bind_eq_bind, Option.bind_some, hskip]
    have hcomma : close ≠ ',' := by
      rcases hclose with rfl | rfl <;> decide
    split
    · exact absurd (List.cons.inj ‹_›).1 hcomma
    · rename_i heq
      obtain ⟨rfl, rfl⟩ := List.cons.inj heq
      rw [if_pos rfl]
      rfl
    · rename_i heq
      cases heq
  | cons b as ih =>
    obtain ⟨u', v', rfl, hu', hv'⟩ := hv
    rw [List.length_cons, List.length_append] at hn
    obtain ⟨n, rfl⟩ : ∃ m, n = m + 1 := ⟨n - 1, by omega⟩
    have hrest := ih hu' hv' (n := n) (by omega)
    rw [← List.append_assoc] at hrest
    obtain ⟨w, hread, hskip⟩ := readPadded (r := u' ++ v' ++ close :: r) hp hopens hu (.inl rfl)
    rw [List.cons_append, readItems, hread]
    simp only [Option.bind_eq_bind, Option.bind_some, hskip, hrest]
    rfl

/-- **A bracketed list is read to its closing bracket.** -/
theorem readListed_append (hp : Reads P p) (hopens : Opens P) (hclose : close = ']' ∨ close = '}') {as : List α}
    (h : Listed P as t) : readListed close p (t ++ close :: r) = some (as, r) := by
  cases as with
  | nil =>
    simp only [readListed, skipWs_cons h (Separator.not_blank (.inr hclose)), if_true]
  | cons a as =>
    obtain ⟨u, v, rfl, hu, hv⟩ := h
    have hitems : readItems close p (u ++ v ++ close :: r).length (u ++ v ++ close :: r) = some (a :: as, r) := by
      rw [List.append_assoc]
      exact readItems_append hp hopens hclose hu hv (by simp; omega)
    obtain ⟨w, s, w', rfl, hw, hs, hw'⟩ := hu
    obtain ⟨d, t, rfl, hd, hd'⟩ := hopens a s hs
    have hne : d ≠ close := by
      rcases hclose with rfl | rfl
      · exact hd'.1
      · exact hd'.2
    have hskip : skipWs (w ++ (d :: t ++ w') ++ v ++ close :: r) = d :: t ++ w' ++ v ++ close :: r := by
      simp only [List.append_assoc, List.cons_append]
      exact skipWs_cons hw hd
    rw [readListed, hskip]
    simp only [List.cons_append, if_neg hne]
    simpa using hitems

theorem member_opens {P : Json → List Char → Prop} : Opens (Member P) := by
  rintro m u ⟨k, w, w', s, rfl, ⟨t, rfl, -⟩, -⟩
  exact ⟨'"', _, rfl, by decide, by decide, by decide⟩

theorem readMember_append {P : Json → List Char → Prop} {p : Reader Json} (hp : Reads P p) (hopens : Opens P) :
    Reads (Member P) (readMember p) := by
  rintro ⟨name, d⟩ u r ⟨k, w, w', s, rfl, hk, hw, hw', hs⟩ hr
  obtain ⟨c, t, rfl, hc, -⟩ := hopens d s hs
  have hcolon : skipWs (w ++ ':' :: (w' ++ (c :: t)) ++ r) = ':' :: (w' ++ (c :: t ++ r)) := by
    simp only [List.append_assoc, List.cons_append]
    exact skipWs_cons hw (by decide)
  have hvalue : skipWs (w' ++ (c :: t ++ r)) = c :: t ++ r := skipWs_cons hw' hc
  rw [readMember, List.append_assoc, readString_append hk]
  simp only [Option.bind_eq_bind, Option.bind_some, hcolon, hvalue, hp d _ r hs hr]
  rfl

theorem Number.head (h : Number t) : ∃ c r, t = c :: r ∧ (c = '-' ∨ c.isDigit) := by
  obtain ⟨hminus, hint, -, -⟩ := h
  obtain ⟨c, i, rfl, hc⟩ := hint.head
  rcases hminus with rfl | rfl
  · exact ⟨c, _, rfl, .inr hc⟩
  · exact ⟨'-', _, rfl, .inl rfl⟩

theorem opens_of_number {c : Char} (h : c = '-' ∨ c.isDigit) : ¬ Blank c ∧ c ≠ ']' ∧ c ≠ '}' := by
  rcases h with rfl | h
  · decide
  · refine ⟨?_, ?_, ?_⟩
    · rintro (rfl | rfl | rfl | rfl) <;> cases h
    · rintro rfl
      cases h
    · rintro rfl
      cases h

theorem spells_opens (n : Nat) : Opens (Spells n) := by
  intro d s h
  cases n with
  | zero => cases d <;> exact h.elim
  | succ n =>
    cases d with
    | null =>
      obtain rfl := h
      exact ⟨_, _, rfl, by decide, by decide, by decide⟩
    | bool b =>
      cases b <;> obtain rfl := h <;> exact ⟨_, _, rfl, by decide, by decide, by decide⟩
    | number literal =>
      obtain ⟨rfl, hnumber⟩ := h
      obtain ⟨c, r, rfl, hc⟩ := hnumber.head
      exact ⟨c, r, rfl, opens_of_number hc⟩
    | string cs =>
      obtain ⟨t, rfl, -⟩ := h
      exact ⟨_, _, rfl, by decide, by decide, by decide⟩
    | array items =>
      obtain ⟨t, rfl, -⟩ := h
      exact ⟨_, _, rfl, by decide, by decide, by decide⟩
    | object members =>
      obtain ⟨t, rfl, -⟩ := h
      exact ⟨_, _, rfl, by decide, by decide, by decide⟩

theorem readValue_number {n : Nat} {c : Char} (h : c = '-' ∨ c.isDigit) :
    readValue (n + 1) (c :: t) = (do
      let (literal, r) ← readNumber (c :: t)
      return (.number literal, r)) := by
  have hne (d : Char) (hd : d ≠ '-' ∧ d.isDigit = false) : c ≠ d := by
    rintro rfl
    rcases h with h | h
    · exact hd.1 h
    · rw [hd.2] at h
      cases h
  simp only [readValue]
  split <;> first
    | rfl
    | exact absurd (List.cons.inj ‹_›).1 (hne _ (by decide))

/-- **A value is read to its end.** -/
theorem readValue_append (n : Nat) : Reads (Spells n) (readValue n) := by
  induction n with
  | zero =>
    intro d s r h _
    cases d <;> exact h.elim
  | succ n ih =>
    intro d s r h hr
    cases d with
    | null =>
      obtain rfl := h
      rfl
    | bool b => cases b <;> obtain rfl := h <;> rfl
    | number literal =>
      obtain ⟨rfl, hnumber⟩ := h
      obtain ⟨c, t, rfl, hc⟩ := hnumber.head
      rw [List.cons_append, readValue_number hc, ← List.cons_append, readNumber_append hnumber hr]
      rfl
    | string cs =>
      have hread := readString_append (r := r) h
      obtain ⟨t, rfl, -⟩ := h
      rw [List.cons_append] at hread ⊢
      simp only [readValue, hread]
      rfl
    | array items =>
      obtain ⟨t, rfl, ht⟩ := h
      have hread := readListed_append (r := r) ih (spells_opens n) (.inl rfl) ht
      simp only [List.cons_append, List.append_assoc, List.nil_append, readValue, hread]
      rfl
    | object members =>
      obtain ⟨t, rfl, ht⟩ := h
      have hread := readListed_append (r := r) (readMember_append ih (spells_opens n)) member_opens (.inr rfl) ht
      simp only [List.cons_append, List.append_assoc, List.nil_append, readValue, hread]
      rfl

/-! ## Depth -/

theorem Padded.imp {P Q : List Char → Prop} (h : Padded P u) (hPQ : ∀ s, P s → s.length ≤ u.length → Q s) :
    Padded Q u := by
  obtain ⟨w, s, w', rfl, hw, hs, hw'⟩ := h
  exact ⟨w, s, w', rfl, hw, hPQ s hs (by simp; omega), hw'⟩

theorem More.imp {as : List α} (h : More P as v) (hPQ : ∀ a s, P a s → s.length ≤ v.length → Q a s) : More Q as v := by
  induction as generalizing v with
  | nil => exact h
  | cons a as ih =>
    obtain ⟨u, v, rfl, hu, hv⟩ := h
    refine ⟨u, v, rfl, hu.imp fun s hs hlen => hPQ a s hs ?_, ih hv fun b s hs hlen => hPQ b s hs ?_⟩
    · rw [List.length_cons, List.length_append]
      omega
    · rw [List.length_cons, List.length_append]
      omega

theorem Listed.imp {as : List α} (h : Listed P as t) (hPQ : ∀ a s, P a s → s.length ≤ t.length → Q a s) :
    Listed Q as t := by
  cases as with
  | nil => exact h
  | cons a as =>
    obtain ⟨u, v, rfl, hu, hv⟩ := h
    refine ⟨u, v, rfl, hu.imp fun s hs hlen => hPQ a s hs ?_, hv.imp fun b s hs hlen => hPQ b s hs ?_⟩
    · rw [List.length_append]
      omega
    · rw [List.length_append]
      omega

theorem Member.imp {P Q : Json → List Char → Prop} {m : List Char × Json} (h : Member P m t)
    (hPQ : ∀ d s, P d s → s.length ≤ t.length → Q d s) : Member Q m t := by
  obtain ⟨k, w, w', s, rfl, hk, hw, hw', hs⟩ := h
  exact ⟨k, w, w', s, rfl, hk, hw, hw', hPQ m.2 s hs (by simp; omega)⟩

/-- A document nests less deep than its text is long. -/
theorem Spells.of_length {n m : Nat} {d : Json} (h : Spells n d s) (hm : s.length ≤ m) : Spells m d s := by
  induction n generalizing m d s with
  | zero => cases d <;> exact h.elim
  | succ n ih =>
    obtain ⟨c, t, rfl, -⟩ := spells_opens (n + 1) d s h
    rw [List.length_cons] at hm
    obtain ⟨m, rfl⟩ : ∃ k, m = k + 1 := ⟨m - 1, by omega⟩
    cases d with
    | null => exact h
    | bool b => cases b <;> exact h
    | number literal => exact h
    | string cs => exact h
    | array items =>
      obtain ⟨u, heq, hu⟩ := h
      obtain ⟨rfl, rfl⟩ := List.cons.inj heq
      rw [List.length_append] at hm
      exact ⟨u, rfl, hu.imp fun d s hs hlen => ih hs (by simp at hm; omega)⟩
    | object members =>
      obtain ⟨u, heq, hu⟩ := h
      obtain ⟨rfl, rfl⟩ := List.cons.inj heq
      rw [List.length_append] at hm
      exact ⟨u, rfl, hu.imp fun x s hs hlen => hs.imp fun d s' hs' hlen' => ih hs' (by simp at hm; omega)⟩

/-- **The document of a text is read from it.** -/
theorem read_of_text {d : Json} (h : Text d s) : read s = some d := by
  obtain ⟨w, v, w', rfl, hw, ⟨n, hv⟩, hw'⟩ := h
  have hspells : Spells (w ++ (v ++ w')).length d v := hv.of_length (by simp; omega)
  have hread := readValue_append _ d v w' hspells (ends_ws hw')
  obtain ⟨c, t, rfl, hc, -⟩ := spells_opens _ d v hspells
  have hskip : skipWs (w ++ (c :: t ++ w')) = c :: t ++ w' := skipWs_cons hw hc
  rw [read, hskip, hread]
  simp only [Option.bind_eq_bind, Option.bind_some, skipWs_ws hw', if_true]

/-- **A text spells one document.** -/
theorem text_unique {d d' : Json} (h : Text d s) (h' : Text d' s) : d = d' := by
  have hread := read_of_text h
  rw [read_of_text h'] at hread
  exact (Option.some.inj hread).symm

end Values

/-! ## Putting texts together -/

section Texts

variable {α : Type} {P : α → List Char → Prop} {a : α} {as : List α} {d : Json} {s t u v w : List Char}

theorem ws_nil : Ws [] := nofun

theorem Padded.of_ws {P : List Char → Prop} (hw : Ws w) (h : P s) : Padded P (w ++ s) := by
  refine ⟨w, s, [], ?_, hw, h, ws_nil⟩
  rw [List.append_nil]

theorem Padded.of_self {P : List Char → Prop} (h : P s) : Padded P s := Padded.of_ws ws_nil h

theorem Padded.append_ws {P : List Char → Prop} (h : Padded P u) (hw : Ws w) : Padded P (u ++ w) := by
  obtain ⟨w₀, s, w₁, rfl, hw₀, hs, hw₁⟩ := h
  refine ⟨w₀, s, w₁ ++ w, by simp, hw₀, hs, ?_⟩
  intro c hc
  rcases List.mem_append.1 hc with hc | hc
  · exact hw₁ c hc
  · exact hw c hc

theorem Listed.nil : Listed P [] [] := ws_nil

theorem Listed.cons (hu : Padded (P a) u) (hv : More P as v) : Listed P (a :: as) (u ++ v) := ⟨u, v, rfl, hu, hv⟩

theorem More.cons (hu : Padded (P a) u) (hv : More P as v) : More P (a :: as) (',' :: (u ++ v)) := ⟨u, v, rfl, hu, hv⟩

theorem More.append_ws (h : More P (a :: as) v) (hw : Ws w) : More P (a :: as) (v ++ w) := by
  induction as generalizing a v with
  | nil =>
    obtain ⟨u, v', rfl, hu, rfl⟩ := h
    refine ⟨u ++ w, [], by simp, hu.append_ws hw, rfl⟩
  | cons b as ih =>
    obtain ⟨u, v', rfl, hu, hv'⟩ := h
    exact ⟨u, v' ++ w, by simp, hu, ih hv'⟩

/-- White space may follow the last element. -/
theorem Listed.append_ws (h : Listed P as t) (hw : Ws w) : Listed P as (t ++ w) := by
  cases as with
  | nil =>
    intro c hc
    rcases List.mem_append.1 hc with hc | hc
    · exact h c hc
    · exact hw c hc
  | cons a as =>
    obtain ⟨u, v, rfl, hu, hv⟩ := h
    cases as with
    | nil =>
      obtain rfl : v = [] := hv
      exact ⟨u ++ w, [], by simp, hu.append_ws hw, rfl⟩
    | cons b as => exact ⟨u, v ++ w, by simp, hu, hv.append_ws hw⟩

/-- White space may stand before the first element. -/
theorem Listed.ws_append (h : Listed P as t) (hw : Ws w) : Listed P as (w ++ t) := by
  cases as with
  | nil =>
    intro c hc
    rcases List.mem_append.1 hc with hc | hc
    · exact hw c hc
    · exact h c hc
  | cons a as =>
    obtain ⟨u, v, rfl, ⟨w₀, s, w₁, rfl, hw₀, hs, hw₁⟩, hv⟩ := h
    refine ⟨w ++ (w₀ ++ (s ++ w₁)), v, by simp, ⟨w ++ w₀, s, w₁, by simp, ?_, hs, hw₁⟩, hv⟩
    intro c hc
    rcases List.mem_append.1 hc with hc | hc
    · exact hw c hc
    · exact hw₀ c hc

theorem Value.array {items : List Json} (h : Listed Value items t) : Value (.array items) ('[' :: (t ++ [']'])) :=
  ⟨t.length + 1, t, rfl, h.imp fun _ _ hs hlen => hs.choose_spec.of_length hlen⟩

theorem Value.object {members : List (List Char × Json)} (h : Listed (Member Value) members t) :
    Value (.object members) ('{' :: (t ++ ['}'])) := by
  refine ⟨t.length + 1, t, rfl, h.imp fun m s hs hlen => hs.imp fun d s' hs' hlen' => ?_⟩
  exact hs'.choose_spec.of_length (hlen'.trans hlen)

theorem Member.mk {k w' cs : List Char} (hk : StringText cs k) (hw : Ws w') (h : Value d s) :
    Member Value (cs, d) (k ++ ':' :: (w' ++ s)) := ⟨k, [], w', s, rfl, hk, ws_nil, hw, h⟩

theorem Value.text (h : Value d s) : Text d s := ⟨[], s, [], by simp, ws_nil, h, ws_nil⟩

end Texts

end Json
