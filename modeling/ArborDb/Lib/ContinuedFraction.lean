import Mathlib.Algebra.Order.Field.Basic
import Mathlib.Tactic.Linarith

/-!
# The order of terminating continued fractions

A terminating expansion `[t₀, t₁, …]` below one stands for `1 / (t₀ + 1 / (t₁ + …))`. Its value
falls in the terms at even places and grows in those at odd ones, and an expansion that stops is the
smallest that agrees with it so far. On canonical expansions this alternating order (`Before`) is
the order of the values, and an expansion is determined by its value.
-/

namespace ArborDb.ContFrac

/-- An expansion in lowest form: positive terms, of which the last is at least two. -/
def Canonical : List Int → Prop
  | [] => True
  | t :: l => 1 ≤ t ∧ (l = [] → 2 ≤ t) ∧ Canonical l

/-- The alternating order: the first terms that differ compare the other way at every place. -/
inductive Before : List Int → List Int → Prop
  | stop (u : Int) (m : List Int) : Before [] (u :: m)
  | term {t u : Int} (l m : List Int) (h : u < t) : Before (t :: l) (u :: m)
  | later (t : Int) {l m : List Int} (h : Before m l) : Before (t :: l) (t :: m)

theorem before_trichotomy (l m : List Int) : Before l m ∨ l = m ∨ Before m l := by
  induction l generalizing m with
  | nil =>
    cases m with
    | nil => exact .inr (.inl rfl)
    | cons u m => exact .inl (.stop u m)
  | cons t l ih =>
    cases m with
    | nil => exact .inr (.inr (.stop t l))
    | cons u m =>
      rcases lt_trichotomy t u with h | rfl | h
      · exact .inr (.inr (.term m l h))
      · rcases ih m with h | rfl | h
        · exact .inr (.inr (.later t h))
        · exact .inr (.inl rfl)
        · exact .inl (.later t h)
      · exact .inl (.term l m h)

section Value

variable {K : Type*} [Field K] [LinearOrder K] [IsStrictOrderedRing K]

/-- The value of an expansion below one. -/
def frac : List Int → K
  | [] => 0
  | t :: l => (t + frac l)⁻¹

theorem Canonical.bounds {l : List Int} (h : Canonical l) :
    0 ≤ (frac l : K) ∧ (l ≠ [] → 0 < (frac l : K)) ∧ (frac l : K) < 1 := by
  induction l with
  | nil => exact ⟨le_rfl, fun hne => absurd rfl hne, zero_lt_one⟩
  | cons t l ih =>
    obtain ⟨ht, hlast, hl⟩ := h
    obtain ⟨hnn, hpos, -⟩ := ih hl
    have ht' : (1 : K) ≤ t := by exact_mod_cast ht
    have hsum : (0 : K) < t + frac l := by linarith
    -- A last term is at least two; any other has a positive rest.
    have hone : (1 : K) < t + frac l := by
      by_cases hnil : l = []
      · have : (2 : K) ≤ t := by exact_mod_cast hlast hnil
        linarith
      · have := hpos hnil
        linarith
    have hinv : (0 : K) < ((t : K) + frac l)⁻¹ := inv_pos.2 hsum
    exact ⟨hinv.le, fun _ => hinv, inv_lt_one_of_one_lt₀ hone⟩

theorem Canonical.frac_nonneg {l : List Int} (h : Canonical l) : 0 ≤ (frac l : K) := h.bounds.1

theorem Canonical.frac_lt_one {l : List Int} (h : Canonical l) : (frac l : K) < 1 := h.bounds.2.2

theorem Canonical.add_frac_pos {t : Int} {l : List Int} (h : Canonical (t :: l)) :
    (0 : K) < t + frac l := by
  have ht : (1 : K) ≤ t := by exact_mod_cast h.1
  have hl : 0 ≤ (frac l : K) := h.2.2.frac_nonneg
  linarith

/-- **The alternating order is the order of the values.** -/
theorem Before.frac_lt {l m : List Int} (h : Before l m) (hl : Canonical l) (hm : Canonical m) :
    (frac l : K) < frac m := by
  induction h with
  | stop u m => exact inv_pos.2 hm.add_frac_pos
  | term l m hlt =>
    apply inv_strictAnti₀ hm.add_frac_pos
    rename_i t u
    have hut : (u : K) + 1 ≤ t := by exact_mod_cast hlt
    have hm1 : (frac m : K) < 1 := hm.2.2.frac_lt_one
    have hl0 : 0 ≤ (frac l : K) := hl.2.2.frac_nonneg
    linarith
  | later t _ ih =>
    apply inv_strictAnti₀ hm.add_frac_pos
    have := ih hm.2.2 hl.2.2
    linarith

/-- A whole part below another's decides. -/
theorem whole_lt {a b : Int} {l m : List Int} (h : a < b) (hl : Canonical l) (hm : Canonical m) :
    (a : K) + frac l < b + frac m := by
  have hab : (a : K) + 1 ≤ b := by exact_mod_cast h
  have hl1 : (frac l : K) < 1 := hl.frac_lt_one
  have hm0 : 0 ≤ (frac m : K) := hm.frac_nonneg
  linarith

/-- Two values compare by their whole parts, then by their expansions. -/
theorem value_lt_iff {a b : Int} {l m : List Int} (hl : Canonical l) (hm : Canonical m) :
    (a : K) + frac l < b + frac m ↔ a < b ∨ a = b ∧ Before l m := by
  constructor
  · intro hlt
    rcases lt_trichotomy a b with h | rfl | h
    · exact .inl h
    · rcases before_trichotomy l m with h | rfl | h
      · exact .inr ⟨rfl, h⟩
      · exact absurd hlt (lt_irrefl _)
      · have : (frac m : K) < frac l := h.frac_lt hm hl
        linarith
    · have : (b : K) + frac m < a + frac l := whole_lt h hm hl
      exact absurd hlt (not_lt_of_gt this)
  · rintro (h | ⟨rfl, h⟩)
    · exact whole_lt h hl hm
    · have : (frac l : K) < frac m := h.frac_lt hl hm
      linarith

end Value

end ArborDb.ContFrac
