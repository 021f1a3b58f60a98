import ArborDb.Data.Printers
import ArborDb.Lib.Base64
import ArborDb.Lib.Json

/-!
# The text of a leaf

A leaf is rendered alike in JSON and in YAML: numbers and booleans as they print, `null` for null and for
the floats that are not finite, everything else as a quoted string. Bytes are quoted in base64.
-/

namespace ArborDb.Export

/-! ## Quoting -/

/-- A character in a quoted string. -/
def quoteChar : Char → List Char
  | '"' => ['\\', '"']
  | '\\' => ['\\', '\\']
  | '\n' => ['\\', 'n']
  | '\r' => ['\\', 'r']
  | '\t' => ['\\', 't']
  | '\x08' => ['\\', 'b']
  | '\x0c' => ['\\', 'f']
  | c => if c.toNat < 0x20 then '\\' :: 'u' :: (Nat.toDigits 16 c.toNat).leftpad 4 '0' else [c]

/-- A double-quoted, escaped string. -/
def quote (s : List Char) : List Char := '"' :: s.flatMap quoteChar ++ ['"']

/-! ## Base64 -/

namespace Base64

open Rfc4648 (letter)

/-- The four letters of a chunk of one to three bytes. -/
def encodeChunk (b0 : UInt8) (b1 b2 : Option UInt8) : List Char :=
  let triple := b0.toNat <<< 16 ||| (b1.getD 0).toNat <<< 8 ||| (b2.getD 0).toNat
  [letter (triple >>> 18 &&& 0x3f), letter (triple >>> 12 &&& 0x3f),
    match b1 with
    | some _ => letter (triple >>> 6 &&& 0x3f)
    | none => '=',
    match b2 with
    | some _ => letter (triple &&& 0x3f)
    | none => '=']

/-- A padded base64 text. -/
def encode : Bytes → List Char
  | [] => []
  | [b0] => encodeChunk b0 none none
  | [b0, b1] => encodeChunk b0 (some b1) none
  | b0 :: b1 :: b2 :: rest => encodeChunk b0 (some b1) (some b2) ++ encode rest

end Base64

/-! ## Scalars -/

/-- Whether a 32-bit float is finite: its exponent is not the greatest. -/
def isFinite32 (v : BitVec 32) : Bool := v.toNat / 2 ^ 23 % 2 ^ 8 ≠ 2 ^ 8 - 1

def isFinite64 (v : BitVec 64) : Bool := v.toNat / 2 ^ 52 % 2 ^ 11 ≠ 2 ^ 11 - 1

section Scalars

variable [Externals]

open Externals

/-- A duration as a number of seconds, with a fraction only when there is one. -/
def durationSeconds (d : TimeDelta) : List Char :=
  let secs := (numSeconds d).toInt
  let nanos := (subsecNanos d).toInt
  if nanos = 0 then intChars secs
  else
    let sign := if secs < 0 ∨ nanos < 0 then ['-'] else []
    let fraction := (Nat.toDigits 10 nanos.natAbs).leftpad 9 '0'
    sign ++ (Nat.toDigits 10 secs.natAbs ++ '.' :: fraction.rdropWhile (· = '0'))

variable [Printers]

/-- A big float; the special values share the fallback of floats. -/
def writeBigFloat (v : BigFloat) : List Char :=
  if isNan v || isInfPos v || isInfNeg v then ['n', 'u', 'l', 'l'] else (Printers.bigFloat v).text.toList

/-- The text of a scalar. -/
def writeScalar : Scalar → List Char
  | .null => ['n', 'u', 'l', 'l']
  | .bool true => ['t', 'r', 'u', 'e']
  | .bool false => ['f', 'a', 'l', 's', 'e']
  | .i8 v => intChars v.toInt
  | .i16 v => intChars v.toInt
  | .i32 v => intChars v.toInt
  | .i64 v => intChars v.toInt
  | .i128 v => intChars v.toInt
  | .u8 v => intChars v.toNat
  | .u16 v => intChars v.toNat
  | .u32 v => intChars v.toNat
  | .u64 v => intChars v.toNat
  | .u128 v => intChars v.toNat
  | .f32 v => if isFinite32 v then (Printers.f32 v).text.toList else ['n', 'u', 'l', 'l']
  | .f64 v => if isFinite64 v then (Printers.f64 v).text.toList else ['n', 'u', 'l', 'l']
  | .str v => quote v.text.toList
  | .bytes v => quote (Base64.encode v)
  | .uuid v => quote (Printers.uuid v).text.toList
  | .date v => quote (Printers.date v).text.toList
  | .time v => quote (Printers.time v).text.toList
  | .dateTime v => quote (Printers.dateTime v).text.toList
  | .duration v => durationSeconds v
  | .bigInt v => intChars v
  | .bigFloat v => writeBigFloat v
  | .rational v => quote (intChars v.num ++ '/' :: intChars v.den)

/-- The document of a scalar: null for a float that is not finite, a text for what is neither a number nor
a boolean. -/
def scalarDocument : Scalar → Json
  | .null => .null
  | .bool v => .bool v
  | .i8 v => .number (intChars v.toInt)
  | .i16 v => .number (intChars v.toInt)
  | .i32 v => .number (intChars v.toInt)
  | .i64 v => .number (intChars v.toInt)
  | .i128 v => .number (intChars v.toInt)
  | .u8 v => .number (intChars v.toNat)
  | .u16 v => .number (intChars v.toNat)
  | .u32 v => .number (intChars v.toNat)
  | .u64 v => .number (intChars v.toNat)
  | .u128 v => .number (intChars v.toNat)
  | .f32 v => if isFinite32 v then .number (Printers.f32 v).text.toList else .null
  | .f64 v => if isFinite64 v then .number (Printers.f64 v).text.toList else .null
  | .str v => .string v.text.toList
  | .bytes v => .string (Base64.encode v)
  | .uuid v => .string (Printers.uuid v).text.toList
  | .date v => .string (Printers.date v).text.toList
  | .time v => .string (Printers.time v).text.toList
  | .dateTime v => .string (Printers.dateTime v).text.toList
  | .duration v => .number (durationSeconds v)
  | .bigInt v => .number (intChars v)
  | .bigFloat v => if isNan v || isInfPos v || isInfNeg v then .null else .number (Printers.bigFloat v).text.toList
  | .rational v => .string (intChars v.num ++ '/' :: intChars v.den)

/-- Finite floats print as JSON numbers. -/
class LawfulPrinters : Prop where
  f32_number (v : BitVec 32) : isFinite32 v → Json.Number (Printers.f32 v).text.toList
  f64_number (v : BitVec 64) : isFinite64 v → Json.Number (Printers.f64 v).text.toList

end Scalars

/-! ## Quoted strings are JSON strings -/

theorem hex4_control {n : Nat} (h : n < 0x20) : Json.hex4 ((Nat.toDigits 16 n).leftpad 4 '0') = some (n, []) := by
  have hall : ∀ i : Fin 0x20, Json.hex4 ((Nat.toDigits 16 i.1).leftpad 4 '0') = some (i.1, []) := by decide +kernel
  exact hall ⟨n, h⟩

/-- **An escaped character spells the character.** -/
theorem charText_quoteChar (c : Char) : Json.CharText (quoteChar c) c := by
  unfold quoteChar
  split
  · exact .escaped rfl
  · exact .escaped rfl
  · exact .escaped rfl
  · exact .escaped rfl
  · exact .escaped rfl
  · exact .escaped rfl
  · exact .escaped rfl
  · rename_i hquote hslash _ _ _ _ _
    split
    · rename_i hcontrol
      exact .unicode (hex4_control hcontrol)
    · rename_i hcontrol
      exact .unescaped (Nat.le_of_not_lt hcontrol) hquote hslash

theorem chars_quoteChar (s : List Char) : Json.Chars s (s.flatMap quoteChar) := by
  induction s with
  | nil => rfl
  | cons c s ih => exact ⟨quoteChar c, s.flatMap quoteChar, List.flatMap_cons, charText_quoteChar c, ih⟩

/-- **A quoted string spells the string.** -/
theorem stringText_quote (s : List Char) : Json.StringText s (quote s) := ⟨_, rfl, chars_quoteChar s⟩

/-! ## Base64 texts are decoded -/

namespace Base64

open Rfc4648 (letter decode decode_two decode_three decode_four)

variable {a b c : Nat}

theorem triple_eq (hb : b < 256) (hc : c < 256) : a <<< 16 ||| b <<< 8 ||| c = a * 65536 + b * 256 + c := by
  have hlow : b <<< 8 + c = b <<< 8 ||| c := Nat.shiftLeft_add_eq_or_of_lt (i := 8) (by omega) b
  have hhigh : a <<< 16 + (b <<< 8 + c) = a <<< 16 ||| (b <<< 8 + c) :=
    Nat.shiftLeft_add_eq_or_of_lt (i := 16) (by rw [Nat.shiftLeft_eq]; omega) a
  rw [Nat.or_assoc, ← hlow, ← hhigh, Nat.shiftLeft_eq, Nat.shiftLeft_eq]
  omega

/-- The number of the letter that stands for six bits of three bytes. -/
def sextet (a b c k : Nat) : Nat := (a * 65536 + b * 256 + c) / 2 ^ k % 64

theorem sextet_lt (a b c k : Nat) : sextet a b c k < 64 := Nat.mod_lt _ (by decide)

theorem shift_eq_sextet (hb : b < 256) (hc : c < 256) (k : Nat) :
    (a <<< 16 ||| b <<< 8 ||| c) >>> k &&& 0x3f = sextet a b c k := by
  rw [triple_eq hb hc, Nat.shiftRight_eq_div_pow]
  exact Nat.and_two_pow_sub_one_eq_mod _ 6

/-- Three bytes are put together from their sextets. -/
theorem bytes_of_sextets (ha : a < 256) (hb : b < 256) (hc : c < 256) :
    sextet a b c 18 * 4 + sextet a b c 12 / 16 = a ∧
      sextet a b c 12 % 16 * 16 + sextet a b c 6 / 4 = b ∧
      sextet a b c 6 % 4 * 64 + sextet a b c 0 = c := by
  unfold sextet
  omega

theorem encodeChunk_eq (b0 : UInt8) (b1 b2 : Option UInt8) :
    encodeChunk b0 b1 b2 =
      let s := sextet b0.toNat (b1.getD 0).toNat (b2.getD 0).toNat
      [letter (s 18), letter (s 12), match b1 with | some _ => letter (s 6) | none => '=',
        match b2 with | some _ => letter (s 0) | none => '='] := by
  have hshift := shift_eq_sextet (a := b0.toNat) (b1.getD 0).toNat_lt (b2.getD 0).toNat_lt
  have hlast := hshift 0
  rw [Nat.shiftRight_zero] at hlast
  simp only [encodeChunk, hshift, hlast]

/-- **The text of some bytes is decoded to them,** whatever their number modulo three. -/
theorem decode_encoded (bytes : Bytes) : decode (encode bytes) = some bytes := by
  induction bytes using encode.induct with
  | case1 => rfl
  | case2 b0 =>
    obtain ⟨h0, -, -⟩ := bytes_of_sextets b0.toNat_lt (b := 0) (c := 0) (by decide) (by decide)
    have hrest : sextet b0.toNat 0 0 12 % 16 = 0 := by
      unfold sextet
      omega
    have hdecode := decode_two (sextet_lt b0.toNat 0 0 18) (sextet_lt b0.toNat 0 0 12) hrest
    rw [h0, UInt8.ofNat_toNat] at hdecode
    rw [encode, encodeChunk_eq]
    exact hdecode
  | case3 b0 b1 =>
    obtain ⟨h0, h1, -⟩ := bytes_of_sextets b0.toNat_lt b1.toNat_lt (c := 0) (by decide)
    have hrest : sextet b0.toNat b1.toNat 0 6 % 4 = 0 := by
      unfold sextet
      omega
    have hdecode := decode_three (sextet_lt b0.toNat b1.toNat 0 18) (sextet_lt b0.toNat b1.toNat 0 12)
      (sextet_lt b0.toNat b1.toNat 0 6) hrest
    rw [h0, h1, UInt8.ofNat_toNat, UInt8.ofNat_toNat] at hdecode
    rw [encode, encodeChunk_eq]
    exact hdecode
  | case4 b0 b1 b2 rest ih =>
    obtain ⟨h0, h1, h2⟩ := bytes_of_sextets b0.toNat_lt b1.toNat_lt b2.toNat_lt
    have hlt := sextet_lt b0.toNat b1.toNat b2.toNat
    have hdecode := decode_four (hlt 18) (hlt 12) (hlt 6) (hlt 0) ih
    rw [h0, h1, h2, UInt8.ofNat_toNat, UInt8.ofNat_toNat, UInt8.ofNat_toNat] at hdecode
    rw [encode, encodeChunk_eq]
    exact hdecode

end Base64

/-! ## Numbers are JSON numbers -/

theorem toDigits_head {n : Nat} (h : n ≠ 0) : ∃ c s, Nat.toDigits 10 n = c :: s ∧ c ≠ '0' := by
  induction n using Nat.strongRecOn with
  | _ n ih =>
    by_cases hn : n < 10
    · have hall : ∀ i : Fin 10, i.1 ≠ 0 → i.1.digitChar ≠ '0' := by decide
      exact ⟨n.digitChar, [], Nat.toDigits_of_lt_base hn, hall ⟨n, hn⟩ h⟩
    · obtain ⟨c, s, hs, hc⟩ := ih (n / 10) (by omega) (by omega)
      refine ⟨c, s ++ [(n % 10).digitChar], ?_, hc⟩
      rw [Nat.toDigits_of_base_le (by decide) (by omega), hs, List.cons_append]

theorem digits_toDigits (n : Nat) : Json.Digits (Nat.toDigits 10 n) :=
  ⟨Nat.toDigits_ne_nil, fun _ hc => isDigit_of_mem_toDigits hc⟩

/-- A decimal number has no leading zero. -/
theorem intPart_toDigits (n : Nat) : Json.IntPart (Nat.toDigits 10 n) := by
  by_cases hn : n = 0
  · subst hn
    exact .zero
  · have hdigits := (digits_toDigits n).2
    obtain ⟨c, s, hs, hc⟩ := toDigits_head hn
    rw [hs] at hdigits ⊢
    obtain ⟨hdigit, hrest⟩ := List.forall_mem_cons.1 hdigits
    exact .digits hdigit hc hrest

/-- An integer, with a fraction or without. -/
theorem number_decimal {sign fraction : List Char} (n : Nat) (hsign : sign = [] ∨ sign = ['-'])
    (hfraction : Json.FracPart fraction) : Json.Number (sign ++ (Nat.toDigits 10 n ++ fraction)) := by
  have h := Json.Number.mk hsign (intPart_toDigits n) hfraction .none
  rwa [List.append_nil] at h

theorem number_intChars (n : Int) : Json.Number (intChars n) := by
  unfold intChars
  split
  · simpa using number_decimal n.natAbs (.inr rfl) .none
  · simpa using number_decimal n.natAbs (.inl rfl) .none

/-- The digits of a number that is not zero, without the zeros at the end. -/
theorem digits_trimmed {n : Nat} (k : Nat) (h : n ≠ 0) :
    Json.Digits (((Nat.toDigits 10 n).leftpad k '0').rdropWhile (· = '0')) := by
  constructor
  · rw [ne_eq, List.rdropWhile_eq_nil_iff]
    intro hall
    obtain ⟨c, s, hs, hc⟩ := toDigits_head h
    have hmem : c ∈ (Nat.toDigits 10 n).leftpad k '0' := by
      rw [hs, List.leftpad]
      exact List.mem_append_right _ List.mem_cons_self
    exact hc (of_decide_eq_true (hall c hmem))
  · intro c hc
    have hmem := (List.rdropWhile_prefix _ _).subset hc
    rcases List.mem_append.1 hmem with hpad | hdigit
    · rw [List.eq_of_mem_replicate hpad]
      rfl
    · exact isDigit_of_mem_toDigits hdigit

theorem number_durationSeconds [Externals] (d : Externals.TimeDelta) : Json.Number (durationSeconds d) := by
  simp only [durationSeconds]
  split
  · exact number_intChars _
  · rename_i hnanos
    have hfraction := Json.FracPart.some (digits_trimmed 9 (Int.natAbs_ne_zero.2 hnanos))
    apply number_decimal _ _ hfraction
    split
    · exact .inr rfl
    · exact .inl rfl

/-! ## Scalars -/

section Scalars

variable [Externals] [Printers] [LawfulPrinters]

/-- **The text of a scalar spells its document.** -/
theorem spells_writeScalar {s : Scalar} (h : ∀ v, s ≠ .bigFloat v) (n : Nat) :
    Json.Spells (n + 1) (scalarDocument s) (writeScalar s) := by
  cases s with
  | null => rfl
  | bool v => cases v <;> rfl
  | i8 v => exact ⟨rfl, number_intChars _⟩
  | i16 v => exact ⟨rfl, number_intChars _⟩
  | i32 v => exact ⟨rfl, number_intChars _⟩
  | i64 v => exact ⟨rfl, number_intChars _⟩
  | i128 v => exact ⟨rfl, number_intChars _⟩
  | u8 v => exact ⟨rfl, number_intChars _⟩
  | u16 v => exact ⟨rfl, number_intChars _⟩
  | u32 v => exact ⟨rfl, number_intChars _⟩
  | u64 v => exact ⟨rfl, number_intChars _⟩
  | u128 v => exact ⟨rfl, number_intChars _⟩
  | f32 v =>
    simp only [scalarDocument, writeScalar]
    split
    · exact ⟨rfl, LawfulPrinters.f32_number v ‹_›⟩
    · rfl
  | f64 v =>
    simp only [scalarDocument, writeScalar]
    split
    · exact ⟨rfl, LawfulPrinters.f64_number v ‹_›⟩
    · rfl
  | str v => exact stringText_quote _
  | bytes v => exact stringText_quote _
  | uuid v => exact stringText_quote _
  | date v => exact stringText_quote _
  | time v => exact stringText_quote _
  | dateTime v => exact stringText_quote _
  | duration v => exact ⟨rfl, number_durationSeconds v⟩
  | bigInt v => exact ⟨rfl, number_intChars v⟩
  | bigFloat v => exact absurd rfl (h v)
  | rational v => exact stringText_quote _

end Scalars

/-! ## The reference printers -/

namespace Reference

theorem fracPart_fractionChars (m k : Nat) :
    Json.FracPart (match Reference.fractionChars m k with
      | [] => []
      | fraction => '.' :: fraction) := by
  split
  · exact .none
  · rename_i hne
    refine .some ⟨hne, ?_⟩
    intro c hc
    rcases List.mem_append.1 ((List.rdropWhile_prefix _ _).subset hc) with hpad | hdigit
    · rw [List.eq_of_mem_replicate hpad]
      rfl
    · exact isDigit_of_mem_toDigits hdigit

theorem number_floatChars {expWidth fracWidth bits : Nat}
    (h : bits / 2 ^ fracWidth % 2 ^ expWidth ≠ 2 ^ expWidth - 1) :
    Json.Number (Reference.floatChars expWidth fracWidth bits) := by
  simp only [Reference.floatChars, if_neg h]
  have hsign : (if bits / 2 ^ (fracWidth + expWidth) = 1 then ['-'] else []) = [] ∨
      (if bits / 2 ^ (fracWidth + expWidth) = 1 then ['-'] else []) = ['-'] := by
    split
    · exact .inr rfl
    · exact .inl rfl
  generalize (if bits / 2 ^ (fracWidth + expWidth) = 1 then ['-'] else []) = sign at hsign ⊢
  generalize (if bits / 2 ^ fracWidth % 2 ^ expWidth = 0 then bits % 2 ^ fracWidth
    else 2 ^ fracWidth + bits % 2 ^ fracWidth) = mantissa
  split
  · have hnumber := number_decimal
      (mantissa * 2 ^ (max (bits / 2 ^ fracWidth % 2 ^ expWidth) 1 - (2 ^ (expWidth - 1) - 1 + fracWidth)))
      hsign .none
    rwa [List.append_nil] at hnumber
  · exact number_decimal _ hsign (fracPart_fractionChars _ _)

theorem lawfulPrinters : letI := Reference.externals; letI := Reference.printers; LawfulPrinters :=
  letI := Reference.externals
  letI := Reference.printers
  { f32_number := fun v h => by
      change Json.Number (String.ofList _).toList
      rw [String.toList_ofList]
      exact number_floatChars (of_decide_eq_true h)
    f64_number := fun v h => by
      change Json.Number (String.ofList _).toList
      rw [String.toList_ofList]
      exact number_floatChars (of_decide_eq_true h) }

end Reference

end ArborDb.Export
