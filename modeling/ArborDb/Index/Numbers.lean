import ArborDb.Index.OrderBig
import ArborDb.Lib.ContinuedFraction

/-!
# Index keys of big integers and rationals are order-exact

A key decides the order of two numbers at a byte (`Below`), so the order of the keys, its reversal
by the complement and prefix-freeness follow together. Rationals compare by their continued
fractions, whose order alternates with the place (`ContFrac.Before`); the complement at odd places
and the stop markers follow that order term by term.
-/

namespace ArborDb

open Bytes ContFrac

namespace Ordered

/-! ## Big integers -/

/-- **Big-integer keys are order-exact**, and prefix-free. -/
theorem encodeSignedInt_order (a b : Int) (ha : width a.natAbs < 2 ^ 64)
    (hb : width b.natAbs < 2 ^ 64) :
    (encodeSignedInt a < encodeSignedInt b ↔ a < b) ∧
    (a ≠ b → ¬ encodeSignedInt a <+: encodeSignedInt b ∧
      ¬ encodeSignedInt b <+: encodeSignedInt a) := by
  have hexact := exact_of_below (encodeSignedInt_below ha hb) (encodeSignedInt_below hb ha)
    (congrArg encodeSignedInt)
  exact ⟨hexact.1, hexact.2.2.1⟩

/-- One more byte in the magnitude, below zero. -/
theorem encodeSignedInt_order_across :
    (encodeSignedInt (-256) < encodeSignedInt (-255) ↔ (-256 : Int) < -255) ∧
    ((-256 : Int) ≠ -255 → ¬ encodeSignedInt (-256) <+: encodeSignedInt (-255) ∧
      ¬ encodeSignedInt (-255) <+: encodeSignedInt (-256)) :=
  encodeSignedInt_order (-256) (-255) (by decide) (by decide)

/-! ## The expansion of a fraction -/

/-- The loop runs at most once for every unit of the denominator. -/
theorem length_continuedFraction_le (p : Int) {q : Nat} (hq : 0 < q) :
    (continuedFraction p q).length ≤ q := by
  induction q using Nat.strong_induction_on generalizing p with
  | _ q ih =>
    have hpos : (0 : Int) < q := by omega
    have hnn := Int.emod_nonneg p hpos.ne'
    have hlt := Int.emod_lt_of_pos p hpos
    rw [continuedFraction_step p hq]
    split_ifs with hr
    · exact hq
    · have hrec := ih (p % q).toNat (by omega) (q : Int) (by omega)
      rw [List.length_cons]
      omega

/-- A fraction above one has a canonical expansion. -/
theorem continuedFraction_canonical {p : Int} {q : Nat} (hq : 0 < q) (hp : (q : Int) < p) :
    Canonical (continuedFraction p q) := by
  induction q using Nat.strong_induction_on generalizing p with
  | _ q ih =>
    have hpos : (0 : Int) < q := by omega
    have hnn := Int.emod_nonneg p hpos.ne'
    have hlt := Int.emod_lt_of_pos p hpos
    have hdiv := Int.mul_ediv_add_emod p q
    have hone : 1 ≤ p / q := (Int.le_ediv_iff_mul_le hpos).2 (by omega)
    rw [continuedFraction_step p hq]
    split_ifs with hr
    · -- An exact quotient of a number above the divisor is at least two.
      have htwo : 2 ≤ p / q := by
        by_contra hcon
        have : p / q = 1 := by omega
        rw [this] at hdiv
        omega
      exact ⟨hone, fun _ => htwo, trivial⟩
    · refine ⟨hone, fun hnil => ?_, ih (p % q).toNat (by omega) (by omega) (by omega)⟩
      exact absurd hnil (continuedFraction_ne_nil _ (by omega))

theorem evalTerms_cons (a : Int) (l : List Int) : evalTerms (a :: l) = a + frac l := by
  induction l generalizing a with
  | nil => simp [evalTerms, frac]
  | cons b l ih => rw [evalTerms, ih b, frac]

/-- **The expansion of a fraction**: its floor, then a canonical expansion of the rest. -/
theorem continuedFraction_spec (p : Int) {q : Nat} (hq : 0 < q) :
    ∃ a l, continuedFraction p q = a :: l ∧ Canonical l ∧ (p : Rat) / q = a + frac l := by
  have hpos : (0 : Int) < q := by omega
  have hnn := Int.emod_nonneg p hpos.ne'
  have hlt := Int.emod_lt_of_pos p hpos
  obtain ⟨a, l, hcf⟩ := List.exists_cons_of_ne_nil (continuedFraction_ne_nil p hq)
  refine ⟨a, l, hcf, ?_, ?_⟩
  · rw [continuedFraction_step p hq] at hcf
    split_ifs at hcf with hr
    · obtain ⟨-, rfl⟩ := List.cons.inj hcf
      trivial
    · obtain ⟨-, rfl⟩ := List.cons.inj hcf
      exact continuedFraction_canonical (by omega) (by omega)
  · rw [← evalTerms_cons, ← hcf, evalTerms_continuedFraction p hq]

/-! ## Rationals -/

/-- Every term is at least one, and its magnitude fits the length prefixes. -/
def Fitting (l : List Int) : Prop := ∀ t ∈ l, 0 < t ∧ width t.natAbs < 2 ^ 64

theorem Canonical.fitting {l : List Int} (h : Canonical l)
    (hw : ∀ t ∈ l, width t.natAbs < 2 ^ 64) : Fitting l := by
  induction l with
  | nil => intro t ht; cases ht
  | cons u l ih =>
    intro t ht
    refine ⟨?_, hw t ht⟩
    rcases List.mem_cons.1 ht with rfl | hmem
    · have := h.1
      omega
    · exact (ih h.2.2 (fun t ht => hw t (List.mem_cons_of_mem _ ht)) t hmem).1

theorem Fitting.tail {t : Int} {l : List Int} (h : Fitting (t :: l)) : Fitting l :=
  fun u hu => h u (List.mem_cons_of_mem _ hu)

/-- **The terms encode in the alternating order**: as they come from an odd place on, reversed from
an even one on. -/
theorem encodeTerms_below {l m : List Int} (h : Before l m) {i : Nat} (hl : Fitting l)
    (hm : Fitting m) :
    (i % 2 = 1 → Below (encodeTerms i l) (encodeTerms i m)) ∧
    (i % 2 = 0 → Below (encodeTerms i m) (encodeTerms i l)) := by
  induction h generalizing i with
  | stop u m =>
    constructor
    · intro hi
      simp only [encodeTerms, hi, List.cons_append]
      exact .head (by decide)
    · intro hi
      simp only [encodeTerms, hi, List.cons_append]
      exact .head (by decide)
  | @term t u l m hlt =>
    obtain ⟨ht, htw⟩ := hl t List.mem_cons_self
    obtain ⟨hu, huw⟩ := hm u List.mem_cons_self
    have hbelow := putUintBe_below htw (m := u.natAbs) (n := t.natAbs) (by omega)
    constructor
    · intro hi
      simp only [encodeTerms, hi, List.cons_append]
      exact .tail (hbelow.compl.append _ _)
    · intro hi
      simp only [encodeTerms, hi, List.cons_append]
      exact .tail (hbelow.append _ _)
  | @later t l m h ih =>
    have hrest := ih (i := i + 1) hm.tail hl.tail
    simp only [encodeTerms, List.cons_append]
    constructor
    · intro hi
      exact .tail ((hrest.2 (by omega)).prepend _)
    · intro hi
      exact .tail ((hrest.1 (by omega)).prepend _)

/-- The key of a numerator over a positive denominator. -/
def encodeFraction (p : Int) (q : Nat) : Bytes :=
  match continuedFraction p q with
  | [] => Bytes.be 1 Tag.bigRational
  | a :: rest => Bytes.be 1 Tag.bigRational ++ encodeSignedInt a ++ encodeTerms 1 rest

theorem encodeRational_eq (v : Rat) : encodeRational v = encodeFraction v.num v.den := rfl

/-- The magnitudes of the terms of a fraction have fewer than `2 ^ 64` bytes. -/
def TermsFit (p : Int) (q : Nat) : Prop := ∀ t ∈ continuedFraction p q, width t.natAbs < 2 ^ 64

/-- **The key of a smaller fraction is below.** -/
theorem encodeFraction_below {p p' : Int} {q q' : Nat} (hq : 0 < q) (hq' : 0 < q')
    (hf : TermsFit p q) (hf' : TermsFit p' q') (h : (p : Rat) / q < (p' : Rat) / q') :
    Below (encodeFraction p q) (encodeFraction p' q') := by
  obtain ⟨a, l, hl, hcl, hv⟩ := continuedFraction_spec p hq
  obtain ⟨b, m, hm, hcm, hv'⟩ := continuedFraction_spec p' hq'
  rw [hv, hv', value_lt_iff hcl hcm] at h
  rw [TermsFit, hl] at hf
  rw [TermsFit, hm] at hf'
  have hfl := Canonical.fitting hcl fun t ht => hf t (List.mem_cons_of_mem _ ht)
  have hfm := Canonical.fitting hcm fun t ht => hf' t (List.mem_cons_of_mem _ ht)
  simp only [encodeFraction, hl, hm, List.append_assoc]
  apply Below.prepend
  rcases h with hab | ⟨rfl, hbefore⟩
  · exact (encodeSignedInt_below (hf a List.mem_cons_self) (hf' b List.mem_cons_self) hab).append _ _
  · exact ((encodeTerms_below hbefore hfl hfm).1 rfl).prepend _

/-- Equal fractions have one expansion, whichever terms they are written in. -/
theorem continuedFraction_congr {p p' : Int} {q q' : Nat} (hq : 0 < q) (hq' : 0 < q')
    (h : (p : Rat) / q = (p' : Rat) / q') : continuedFraction p q = continuedFraction p' q' := by
  obtain ⟨a, l, hl, hcl, hv⟩ := continuedFraction_spec p hq
  obtain ⟨b, m, hm, hcm, hv'⟩ := continuedFraction_spec p' hq'
  have heq : (a : Rat) + frac l = b + frac m := by rw [← hv, ← hv', h]
  have hlt := mt (value_lt_iff (K := Rat) (a := a) (b := b) hcl hcm).2 (by rw [heq]; exact lt_irrefl _)
  have hgt := mt (value_lt_iff (K := Rat) (a := b) (b := a) hcm hcl).2 (by rw [heq]; exact lt_irrefl _)
  push Not at hlt hgt
  obtain rfl : a = b := le_antisymm hgt.1 hlt.1
  rcases before_trichotomy l m with hb | rfl | hb
  · exact absurd hb (hlt.2 rfl)
  · rw [hl, hm]
  · exact absurd hb (hgt.2 rfl)

theorem encodeFraction_congr {p p' : Int} {q q' : Nat} (hq : 0 < q) (hq' : 0 < q')
    (h : (p : Rat) / q = (p' : Rat) / q') : encodeFraction p q = encodeFraction p' q' := by
  simp only [encodeFraction, continuedFraction_congr hq hq' h]

/-- **Rational keys are order-exact.** They compare as the rationals, also when complemented, are
equal exactly for equal rationals and otherwise prefix-incomparable. Whichever fraction a rational
is written as, its expansion ends within as many rounds as the denominator has units, and its key is
the same. -/
theorem encodeRational_order (x y : Rat) (hx : TermsFit x.num x.den) (hy : TermsFit y.num y.den) :
    (encodeRational x < encodeRational y ↔ x < y) ∧
    (encodeRational x = encodeRational y ↔ x = y) ∧
    (x ≠ y → ¬ encodeRational x <+: encodeRational y ∧ ¬ encodeRational y <+: encodeRational x) ∧
    (compl (encodeRational y) < compl (encodeRational x) ↔ x < y) ∧
    ∀ (p : Int) (q : Nat), 0 < q → (p : Rat) / q = x →
      (continuedFraction p q).length ≤ q ∧ encodeFraction p q = encodeRational x := by
  have hbelow : ∀ v w : Rat, TermsFit v.num v.den → TermsFit w.num w.den → v < w →
      Below (encodeRational v) (encodeRational w) := by
    intro v w hv hw h
    apply encodeFraction_below v.pos w.pos hv hw
    rwa [Rat.num_div_den, Rat.num_div_den]
  obtain ⟨hlt, heq, hinc, hcompl⟩ := exact_of_below (hbelow x y hx hy) (hbelow y x hy hx)
    (congrArg encodeRational)
  refine ⟨hlt, heq, hinc, hcompl, ?_⟩
  intro p q hq hpq
  refine ⟨length_continuedFraction_le p hq, encodeFraction_congr hq x.pos ?_⟩
  rw [hpq, Rat.num_div_den]

/-- Two neighbours below zero: one expansion stops where the other goes on. -/
theorem encodeRational_order_halves :
    (encodeRational (-1 / 2) < encodeRational (-1 / 3) ↔ (-1 / 2 : Rat) < -1 / 3) ∧
    (encodeRational (-1 / 2) = encodeRational (-1 / 3) ↔ (-1 / 2 : Rat) = -1 / 3) ∧
    ((-1 / 2 : Rat) ≠ -1 / 3 → ¬ encodeRational (-1 / 2) <+: encodeRational (-1 / 3) ∧
      ¬ encodeRational (-1 / 3) <+: encodeRational (-1 / 2)) ∧
    (compl (encodeRational (-1 / 3)) < compl (encodeRational (-1 / 2)) ↔ (-1 / 2 : Rat) < -1 / 3) ∧
    ∀ (p : Int) (q : Nat), 0 < q → (p : Rat) / q = -1 / 2 →
      (continuedFraction p q).length ≤ q ∧ encodeFraction p q = encodeRational (-1 / 2) := by
  have hhalf : continuedFraction (-1) 2 = [-1, 2] := by simp [continuedFraction_step]
  have hthird : continuedFraction (-1) 3 = [-1, 1, 2] := by simp [continuedFraction_step]
  apply encodeRational_order (-1 / 2) (-1 / 3)
  · rw [TermsFit, show (-1 / 2 : Rat).num = -1 by decide +kernel,
      show (-1 / 2 : Rat).den = 2 by decide +kernel, hhalf]
    decide
  · rw [TermsFit, show (-1 / 3 : Rat).num = -1 by decide +kernel,
      show (-1 / 3 : Rat).den = 3 by decide +kernel, hthird]
    decide

end Ordered

end ArborDb
