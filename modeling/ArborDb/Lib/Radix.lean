import ArborDb.Lib.Bytes
import Mathlib.Algebra.Order.Field.Basic
import Mathlib.Data.Rat.Lemmas
import Mathlib.Tactic.FieldSimp
import Mathlib.Tactic.Linarith

/-!
# Digit strings in scientific form

A digit string, most significant digit first, stands for a number below its base: the point is after
the first digit. Trailing zeros do not count, and strings that end in a digit other than zero
compare as the numbers they stand for, so that with the exponent of the leading digit in front the
order of the strings is the order of the numbers.
-/

namespace ArborDb.Radix

variable {β : Nat}

/-- The number a digit string denotes, with the point after its last digit. -/
def ofDigits (β : Nat) : Bytes → Nat
  | [] => 0
  | d :: l => d.toNat * β ^ l.length + ofDigits β l

/-- The number a digit string denotes, with the point after its first digit. -/
def significand (β : Nat) : Bytes → Rat
  | [] => 0
  | d :: l => d.toNat + significand β l / β

/-- A string of digits of the base. -/
def IsDigits (β : Nat) (l : Bytes) : Prop := ∀ d ∈ l, d.toNat < β

instance (β : Nat) (l : Bytes) : Decidable (IsDigits β l) := List.decidableBAll (fun d : UInt8 => d.toNat < β) l

theorem IsDigits.tail {d : UInt8} {l : Bytes} (h : IsDigits β (d :: l)) : IsDigits β l :=
  fun x hx => h x (List.mem_cons_of_mem _ hx)

theorem significand_nonneg (l : Bytes) : 0 ≤ significand β l := by
  induction l with
  | nil => exact le_rfl
  | cons d l ih =>
    have hβ : (0 : Rat) ≤ β := by positivity
    have := div_nonneg ih hβ
    rw [significand]
    positivity

theorem significand_lt (hβ : 0 < β) {l : Bytes} (h : IsDigits β l) : significand β l < β := by
  induction l with
  | nil =>
    show (0 : Rat) < β
    exact_mod_cast hβ
  | cons d l ih =>
    have hβ0 : (0 : Rat) < β := by exact_mod_cast hβ
    have hrest : significand β l / β < 1 := (div_lt_one hβ0).2 (ih h.tail)
    have hd : (d.toNat : Rat) + 1 ≤ β := by exact_mod_cast h d List.mem_cons_self
    rw [significand]
    linarith

/-- The leading digit is a lower bound. -/
theorem one_le_significand {d : UInt8} {l : Bytes} (hd : d ≠ 0) : 1 ≤ significand β (d :: l) := by
  have hpos : 1 ≤ d.toNat := by
    by_contra hcon
    exact hd (UInt8.toNat_inj.1 (by simp; omega))
  have hd1 : (1 : Rat) ≤ d.toNat := by exact_mod_cast hpos
  have hrest : 0 ≤ significand β l / β := div_nonneg (significand_nonneg l) (by positivity)
  rw [significand]
  linarith

theorem significand_zeros {z : Bytes} (hz : ∀ d ∈ z, d = 0) : significand β z = 0 := by
  induction z with
  | nil => rfl
  | cons d z ih =>
    rw [significand, ih fun x hx => hz x (List.mem_cons_of_mem _ hx), hz d List.mem_cons_self]
    simp

/-- Trailing zeros do not count. -/
theorem significand_append_zeros (l : Bytes) {z : Bytes} (hz : ∀ d ∈ z, d = 0) :
    significand β (l ++ z) = significand β l := by
  induction l with
  | nil => exact significand_zeros hz
  | cons d l ih => rw [List.cons_append, significand, significand, ih]

/-- A string that ends in a digit other than zero is not zero. -/
theorem significand_pos (hβ : 0 < β) {d : UInt8} {l : Bytes}
    (hlast : (d :: l).getLast? ≠ some 0) : 0 < significand β (d :: l) := by
  induction l generalizing d with
  | nil =>
    have hd : d ≠ 0 := by
      rintro rfl
      exact hlast rfl
    exact zero_lt_one.trans_le (one_le_significand hd)
  | cons e l ih =>
    have hrest := ih (d := e) (by rwa [List.getLast?_cons_cons] at hlast)
    have hβ0 : (0 : Rat) < β := by exact_mod_cast hβ
    rw [significand]
    have := div_pos hrest hβ0
    positivity

/-- **Digit strings that do not end in zero compare as their numbers.** -/
theorem significand_lt_of_lt (hβ : 0 < β) {l m : Bytes} (hl : IsDigits β l)
    (hlast : m.getLast? ≠ some 0) (h : l < m) : significand β l < significand β m := by
  have hβ0 : (0 : Rat) < β := by exact_mod_cast hβ
  induction l generalizing m with
  | nil =>
    cases m with
    | nil => exact absurd h (lt_irrefl _)
    | cons e m => exact significand_pos hβ hlast
  | cons d l ih =>
    cases m with
    | nil => exact absurd h (by simp)
    | cons e m =>
      rw [significand, significand]
      rcases List.cons_lt_cons_iff.1 h with hde | ⟨rfl, hlm⟩
      · have hstep : (d.toNat : Rat) + 1 ≤ e.toNat := by
          exact_mod_cast UInt8.lt_iff_toNat_lt.1 hde
        have hfrac : significand β l / β < 1 := (div_lt_one hβ0).2 (significand_lt hβ hl.tail)
        have hrest : 0 ≤ significand β m / β := div_nonneg (significand_nonneg m) hβ0.le
        linarith
      · have hne : m ≠ [] := by
          rintro rfl
          exact absurd hlm (by simp)
        obtain ⟨e, m, rfl⟩ := List.exists_cons_of_ne_nil hne
        have hrest := ih hl.tail (by rwa [List.getLast?_cons_cons] at hlast) hlm
        have := (div_lt_div_iff_of_pos_right hβ0).2 hrest
        linarith

/-- The two readings differ by the place of the point. -/
theorem significand_mul_pow (hβ : 0 < β) (l : Bytes) :
    significand β l * β ^ l.length = β * ofDigits β l := by
  have hβ0 : (β : Rat) ≠ 0 := by exact_mod_cast hβ.ne'
  induction l with
  | nil => simp [significand, ofDigits]
  | cons d l ih =>
    rw [significand, ofDigits, List.length_cons, pow_succ]
    push_cast
    calc ((d.toNat : Rat) + significand β l / β) * (β ^ l.length * β)
        = d.toNat * β ^ l.length * β + significand β l * β ^ l.length := by
          field_simp
      _ = β * (d.toNat * β ^ l.length + ofDigits β l) := by
          rw [ih]
          ring

/-- An integer scaled by a power of the base, by the exponent of its leading digit. -/
theorem ofDigits_mul_zpow (hβ : 0 < β) (l : Bytes) (e : Int) :
    (ofDigits β l : Rat) * (β : Rat) ^ e =
      significand β l * (β : Rat) ^ ((l.length : Int) - 1 + e) := by
  have hβ0 : (β : Rat) ≠ 0 := by exact_mod_cast hβ.ne'
  have hmul := significand_mul_pow hβ l
  rw [show (l.length : Int) - 1 + e = l.length + (e - 1) by ring, zpow_add₀ hβ0, zpow_natCast,
    ← mul_assoc, hmul, zpow_sub_one₀ hβ0]
  field_simp

/-- **Numbers in scientific form compare by exponent, then by significand.** -/
theorem scientific_lt (hβ : 1 < β) {s t : Rat} {d e : Int} (hs : s < β) (ht : 1 ≤ t)
    (h : d < e) : s * (β : Rat) ^ d < t * (β : Rat) ^ e := by
  have hβ1 : (1 : Rat) < β := by exact_mod_cast hβ
  have hd : (0 : Rat) < (β : Rat) ^ d := zpow_pos (by linarith) d
  have he : (0 : Rat) < (β : Rat) ^ e := zpow_pos (by linarith) e
  calc s * (β : Rat) ^ d < β * (β : Rat) ^ d := mul_lt_mul_of_pos_right hs hd
    _ = (β : Rat) ^ (d + 1) := by rw [zpow_add_one₀ (by linarith), mul_comm]
    _ ≤ (β : Rat) ^ e := zpow_le_zpow_right₀ hβ1.le (by omega)
    _ ≤ t * (β : Rat) ^ e := le_mul_of_one_le_left he.le ht

end ArborDb.Radix
