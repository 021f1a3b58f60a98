import ArborDb.Data.Scalar
import Mathlib.Data.List.DropRight

/-!
# The texts of scalars

Integers are written in decimal and read back. The texts of floats are the standard library's, and those
of calendar types, identifiers and big floats belong to the crates they come from: `Printers` is the
interface to both.
-/

namespace ArborDb

open Externals in
/-- The texts that the standard library and third-party crates give. -/
class Printers [Externals] where
  f32 : BitVec 32 → Str
  f64 : BitVec 64 → Str
  parseF32 : Str → Option (BitVec 32)
  parseF64 : Str → Option (BitVec 64)
  uuid : BitVec 128 → Str
  date : NaiveDate → Str
  time : NaiveTime → Str
  /-- `DateTime::to_rfc3339`. -/
  dateTime : DateTime → Str
  duration : TimeDelta → Str
  bigFloat : BigFloat → Str

/-! ## Integers -/

/-- An integer in decimal. -/
def intChars (n : Int) : List Char :=
  if n < 0 then '-' :: Nat.toDigits 10 n.natAbs else Nat.toDigits 10 n.natAbs

def intText (n : Int) : Str := ⟨String.ofList (intChars n)⟩

/-- The number that a string of digits spells. -/
def parseNat (digits : List Char) : Option Nat :=
  if digits ≠ [] ∧ digits.all Char.isDigit then some (Nat.ofDigitChars 10 digits 0) else none

/-- An integer as the standard library reads it: digits after an optional sign. -/
def parseInt (signed : Bool) (text : List Char) : Option Int :=
  match text with
  | '+' :: rest => (parseNat rest).map Int.ofNat
  | '-' :: rest => if signed then (parseNat rest).map fun n : Nat => -(n : Int) else none
  | _ => (parseNat text).map Int.ofNat

theorem isDigit_of_mem_toDigits {n : Nat} {c : Char} (h : c ∈ Nat.toDigits 10 n) : c.isDigit = true :=
  Nat.isDigit_of_mem_toDigits (by decide) (by decide) h

theorem parseNat_toDigits (n : Nat) : parseNat (Nat.toDigits 10 n) = some n := by
  have hdigits : (Nat.toDigits 10 n).all Char.isDigit = true :=
    List.all_eq_true.2 fun c hc => isDigit_of_mem_toDigits hc
  rw [parseNat, if_pos ⟨Nat.toDigits_ne_nil, hdigits⟩, Nat.ofDigitChars_ten_toDigits]

theorem parseInt_toDigits (signed : Bool) (n : Nat) : parseInt signed (Nat.toDigits 10 n) = some (n : Int) := by
  have hsign (c : Char) (hc : c.isDigit = false) (rest : List Char) : Nat.toDigits 10 n ≠ c :: rest := by
    intro h
    have hdigit := isDigit_of_mem_toDigits (h ▸ List.mem_cons_self : c ∈ Nat.toDigits 10 n)
    rw [hc] at hdigit
    cases hdigit
  unfold parseInt
  split
  · exact absurd ‹_› (hsign _ (by decide) _)
  · exact absurd ‹_› (hsign _ (by decide) _)
  · rw [parseNat_toDigits]
    rfl

/-- A decimal text reads back; a negative one only where signs are. -/
theorem parseInt_intChars {signed : Bool} {n : Int} (h : signed ∨ 0 ≤ n) : parseInt signed (intChars n) = some n := by
  unfold intChars
  split
  · rename_i hneg
    have hsigned : signed = true := h.resolve_right (by omega)
    have hn : -(n.natAbs : Int) = n := by omega
    rw [parseInt, if_pos hsigned, parseNat_toDigits, Option.map_some, hn]
  · have hn : (n.natAbs : Int) = n := by omega
    rw [parseInt_toDigits, hn]

/-! ## A reference instance -/

namespace Reference

/-- The digits of `m / 2 ^ k` after the point. -/
def fractionChars (m k : Nat) : List Char :=
  ((Nat.toDigits 10 (m % 2 ^ k * 5 ^ k)).leftpad k '0').rdropWhile (· = '0')

/-- `m / 2 ^ k` in decimal. -/
def decimalChars (m k : Nat) : List Char :=
  Nat.toDigits 10 (m / 2 ^ k) ++ match fractionChars m k with
    | [] => []
    | fraction => '.' :: fraction

/-- A binary float in decimal, by the widths of its exponent and of its fraction. -/
def floatChars (expWidth fracWidth bits : Nat) : List Char :=
  let fraction := bits % 2 ^ fracWidth
  let exponent := bits / 2 ^ fracWidth % 2 ^ expWidth
  let sign := if bits / 2 ^ (fracWidth + expWidth) = 1 then ['-'] else []
  if exponent = 2 ^ expWidth - 1 then
    if fraction = 0 then sign ++ ['i', 'n', 'f'] else ['N', 'a', 'N']
  else
    let mantissa := if exponent = 0 then fraction else 2 ^ fracWidth + fraction
    let bias := 2 ^ (expWidth - 1) - 1 + fracWidth
    sign ++ if bias ≤ max exponent 1 then Nat.toDigits 10 (mantissa * 2 ^ (max exponent 1 - bias))
      else decimalChars mantissa (bias - max exponent 1)

/-- Floats by their exact decimal expansion, the other types by a number. -/
@[reducible] def printers : @Printers externals :=
  letI := externals
  { f32 := fun v => ⟨String.ofList (floatChars 8 23 v.toNat)⟩
    f64 := fun v => ⟨String.ofList (floatChars 11 52 v.toNat)⟩
    parseF32 := fun _ => none
    parseF64 := fun _ => none
    uuid := fun v => intText v.toNat
    date := fun v => intText v.toInt
    time := fun v => intText v.1.toNat
    dateTime := fun v => intText v.1.toInt
    duration := fun v => intText v.1
    bigFloat := fun _ => ⟨"0"⟩ }

end Reference

end ArborDb
