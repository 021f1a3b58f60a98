import Mathlib.Data.List.Basic

/-!
# Base64 texts

The decoder of RFC 4648 for the standard alphabet: groups of four letters, the last of them padded, with
no bits left over.
-/

namespace Rfc4648

/-- The standard alphabet. -/
def alphabet : List Char := "ABCDEFGHIJKLMNOPQRSTUVWXYZabcdefghijklmnopqrstuvwxyz0123456789+/".toList

/-- The number of a letter. -/
def digit (c : Char) : Option Nat := alphabet.idxOf? c

/-- The bytes of a padded text. -/
def decode : List Char → Option (List UInt8)
  | [] => some []
  | [a, b, '=', '='] => do
    let a ← digit a
    let b ← digit b
    if b % 16 = 0 then some [.ofNat (a * 4 + b / 16)] else none
  | [a, b, c, '='] => do
    let a ← digit a
    let b ← digit b
    let c ← digit c
    if c % 4 = 0 then some [.ofNat (a * 4 + b / 16), .ofNat (b % 16 * 16 + c / 4)] else none
  | a :: b :: c :: d :: rest => do
    let a ← digit a
    let b ← digit b
    let c ← digit c
    let d ← digit d
    let bytes ← decode rest
    return .ofNat (a * 4 + b / 16) :: .ofNat (b % 16 * 16 + c / 4) :: .ofNat (c % 4 * 64 + d) :: bytes
  | _ => none

/-- A letter of the alphabet by its number. -/
def letter (n : Nat) : Char := alphabet.getD n '='

theorem digit_letter {n : Nat} (h : n < 64) : digit (letter n) = some n := by
  have hall : ∀ i : Fin 64, digit (letter i) = some i.1 := by decide +kernel
  exact hall ⟨n, h⟩

theorem letter_ne {n : Nat} (h : n < 64) : letter n ≠ '=' := by
  have hall : ∀ i : Fin 64, letter i ≠ '=' := by decide +kernel
  exact hall ⟨n, h⟩

section Groups

variable {a b c d : Nat}

theorem decode_two (ha : a < 64) (hb : b < 64) (hrest : b % 16 = 0) :
    decode [letter a, letter b, '=', '='] = some [.ofNat (a * 4 + b / 16)] := by
  simp only [decode, digit_letter ha, digit_letter hb, Option.bind_eq_bind, Option.bind_some, if_pos hrest]

theorem decode_three (ha : a < 64) (hb : b < 64) (hc : c < 64) (hrest : c % 4 = 0) :
    decode [letter a, letter b, letter c, '='] =
      some [.ofNat (a * 4 + b / 16), .ofNat (b % 16 * 16 + c / 4)] := by
  have hpad : letter c ≠ '=' := letter_ne hc
  rw [decode]
  · simp only [digit_letter ha, digit_letter hb, digit_letter hc, Option.bind_eq_bind, Option.bind_some, if_pos hrest]
  · exact hpad

theorem decode_four {rest : List Char} {bytes : List UInt8} (ha : a < 64) (hb : b < 64) (hc : c < 64) (hd : d < 64)
    (hrest : decode rest = some bytes) :
    decode (letter a :: letter b :: letter c :: letter d :: rest) =
      some (.ofNat (a * 4 + b / 16) :: .ofNat (b % 16 * 16 + c / 4) :: .ofNat (c % 4 * 64 + d) :: bytes) := by
  have hpad : letter d ≠ '=' := letter_ne hd
  rw [decode]
  · simp only [digit_letter ha, digit_letter hb, digit_letter hc, digit_letter hd, Option.bind_eq_bind,
      Option.bind_some, hrest, Option.pure_def]
  · exact fun _ heq _ => hpad heq
  · exact fun heq _ => hpad heq

end Groups

end Rfc4648
