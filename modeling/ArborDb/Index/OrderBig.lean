import ArborDb.Index.Ordered
import Mathlib.Data.Rat.Lemmas
import Mathlib.Tactic.FieldSimp

/-!
# Index keys of big numbers

A magnitude is written behind its byte length, and that length behind its own, so that longer
magnitudes sort above shorter ones and no encoding is a prefix of another. Rationals are written by
their continued fraction, which determines them.
-/

namespace ArborDb

open Externals Bytes

namespace Ordered

/-! ## Magnitudes -/

/-- The number of bytes of a magnitude. -/
def width (n : Nat) : Nat := n.log2 / 8 + 1

theorem lt_pow_width (n : Nat) : n < 256 ^ width n := by
  have hlog : n < 2 ^ (n.log2 + 1) := Nat.lt_log2_self
  have hle : n.log2 + 1 ≤ 8 * width n := by
    unfold width
    omega
  calc n < 2 ^ (n.log2 + 1) := hlog
    _ ≤ 2 ^ (8 * width n) := Nat.pow_le_pow_right (by norm_num) hle
    _ = 256 ^ width n := by rw [pow_mul]; norm_num

theorem width_mono {m n : Nat} (h : m ≤ n) : width m ≤ width n := by
  have hlog : m.log2 ≤ n.log2 := by
    rcases Nat.eq_zero_or_pos m with rfl | hm
    · simp
    · exact (Nat.le_log2 (by omega)).2 ((Nat.log2_self_le (by omega)).trans h)
  unfold width
  omega

/-- The width is the number of bytes of the leading power. -/
theorem width_eq {n w : Nat} (hlo : 256 ^ w ≤ n) (hhi : n < 256 ^ (w + 1)) : width n = w + 1 := by
  have hn : n ≠ 0 := by
    have : 0 < 256 ^ w := by positivity
    omega
  rw [show (256 : Nat) = 2 ^ 8 by norm_num, ← pow_mul] at hlo hhi
  have h1 : 8 * w ≤ n.log2 := (Nat.le_log2 hn).2 hlo
  have h2 : n.log2 < 8 * (w + 1) := (Nat.log2_lt hn).2 hhi
  unfold width
  omega

theorem toBytesBe_eq (n : Nat) : toBytesBe n = be (width n) n := rfl

@[simp] theorem length_toBytesBe (n : Nat) : (toBytesBe n).length = width n := length_be _ _

/-- Dropping the leading zero bytes leaves the minimal form. -/
theorem dropWhile_be {w n : Nat} (hpos : 0 < n) (hn : n < 256 ^ w) :
    (be w n).dropWhile (· = 0) = toBytesBe n := by
  induction w with
  | zero => simp at hn; omega
  | succ w ih =>
    have hp : 0 < 256 ^ w := by positivity
    rw [be]
    by_cases hlt : n < 256 ^ w
    · rw [Nat.div_eq_of_lt hlt, List.dropWhile_cons_of_pos (by simp)]
      exact ih hlt
    · have hq : n / 256 ^ w < 256 := by
        rw [Nat.div_lt_iff_lt_mul hp]
        rw [pow_succ] at hn
        linarith
      have hq0 : 0 < n / 256 ^ w := Nat.div_pos (by omega) hp
      have hne : UInt8.ofNat (n / 256 ^ w) ≠ 0 := by
        intro h0
        have := congrArg UInt8.toNat h0
        rw [UInt8.toNat_ofNat', Nat.mod_eq_of_lt hq] at this
        simp at this
        omega
      rw [List.dropWhile_cons_of_neg (by simpa using hne), toBytesBe_eq,
        width_eq (by omega) hn, be]

theorem putUintBe_eq {n : Nat} (h : width n < 2 ^ 64) :
    putUintBe (toBytesBe n) = be 1 (width (width n)) ++ toBytesBe (width n) ++ toBytesBe n := by
  have hlen : (be 8 (toBytesBe n).length).dropWhile (· = 0) = toBytesBe (width n) := by
    rw [length_toBytesBe]
    exact dropWhile_be (Nat.succ_pos _) (by norm_num; exact h)
  simp only [putUintBe]
  rw [hlen, length_toBytesBe]

/-- **Length-prefixed magnitudes compare as the numbers.** -/
theorem putUintBe_below {m n : Nat} (hn : width n < 2 ^ 64) (h : m < n) :
    Below (putUintBe (toBytesBe m)) (putUintBe (toBytesBe n)) := by
  have hmn := width_mono h.le
  rw [putUintBe_eq hn, putUintBe_eq (by omega)]
  rcases Nat.lt_or_eq_of_le hmn with hw | hw
  · refine Below.append ?_ _ _
    rcases Nat.lt_or_eq_of_le (width_mono hw.le) with hww | hww
    · have hbyte : width (width n) < 256 ^ 1 := by
        have hlog : (width n).log2 < 64 := (Nat.log2_lt (Nat.succ_ne_zero _)).2 hn
        rw [width]
        omega
      exact (be_below hbyte hww).append _ _
    · rw [hww, toBytesBe_eq, toBytesBe_eq, hww]
      exact (be_below (lt_pow_width _) hw).prepend _
  · rw [hw, toBytesBe_eq m, toBytesBe_eq n, hw]
    exact (be_below (lt_pow_width n) h).prepend _

theorem putUintBe_incomparable {m n : Nat} (hm : width m < 2 ^ 64) (hn : width n < 2 ^ 64)
    (h : m ≠ n) : Incomparable (putUintBe (toBytesBe m)) (putUintBe (toBytesBe n)) := by
  rcases Nat.lt_or_gt_of_ne h with hlt | hgt
  · exact (putUintBe_below hn hlt).incomparable
  · exact (putUintBe_below hm hgt).incomparable.symm

/-! ## Signed integers -/

theorem encodeSignedInt_below {a b : Int} (ha : width a.natAbs < 2 ^ 64)
    (hb : width b.natAbs < 2 ^ 64) (h : a < b) :
    Below (encodeSignedInt a) (encodeSignedInt b) := by
  unfold encodeSignedInt
  rcases lt_trichotomy a 0 with ha0 | rfl | ha0
  · rw [if_neg (by omega), if_neg (by omega)]
    rcases lt_trichotomy b 0 with hb0 | rfl | hb0
    · rw [if_neg (by omega), if_neg (by omega)]
      exact .tail (putUintBe_below ha (by omega)).compl
    · rw [if_pos rfl]
      exact .head (by decide)
    · rw [if_neg (by omega), if_pos hb0]
      exact .head (by decide)
  · rw [if_pos rfl, if_neg (by omega), if_pos h]
    exact .head (by decide)
  · rw [if_neg (by omega), if_pos ha0, if_neg (by omega), if_pos (by omega)]
    exact .tail (putUintBe_below hb (by omega))

theorem encodeSignedInt_incomparable {a b : Int} (ha : width a.natAbs < 2 ^ 64)
    (hb : width b.natAbs < 2 ^ 64) (h : a ≠ b) :
    Incomparable (encodeSignedInt a) (encodeSignedInt b) := by
  rcases lt_or_gt_of_ne h with hlt | hgt
  · exact (encodeSignedInt_below ha hb hlt).incomparable
  · exact (encodeSignedInt_below hb ha hgt).incomparable.symm

/-! ## Rationals -/

/-- One step of the expansion: the floor, and the remainder. -/
theorem continuedFraction_step (p : Int) {q : Nat} (hq : 0 < q) :
    continuedFraction p q =
      if p % q = 0 then [p / q] else p / q :: continuedFraction q (p % q).toNat := by
  have hpos : (0 : Int) < q := by omega
  have hdiv := Int.mul_ediv_add_emod p q
  have hnn := Int.emod_nonneg p hpos.ne'
  have hlt := Int.emod_lt_of_pos p hpos
  have htd := Int.tmod_add_tdiv_mul p q
  have htlt := Int.tmod_lt_of_pos p hpos
  have htgt := Int.lt_tmod_of_pos p hpos
  have hrem : p - p.tdiv q * q = p.tmod q := by omega
  -- Truncation and floor differ by one exactly when the remainder is negative.
  have hfloor : ((if p.tmod q < 0 then p.tdiv q - 1 else p.tdiv q) = p / q) ∧
      ((if p.tmod q < 0 then p.tmod q + q else p.tmod q) = p % q) := by
    split_ifs with hneg
    · have h1 := (Int.ediv_emod_unique hpos (a := p) (r := p.tmod q + q) (q := p.tdiv q - 1)).2
        ⟨by linarith, by omega, by omega⟩
      exact ⟨h1.1.symm, h1.2.symm⟩
    · have h1 := (Int.ediv_emod_unique hpos (a := p) (r := p.tmod q) (q := p.tdiv q)).2
        ⟨by linarith, by omega, by omega⟩
      exact ⟨h1.1.symm, h1.2.symm⟩
  rw [continuedFraction, dif_neg (by omega)]
  simp only [hrem, hfloor.1, hfloor.2]

/-- The value of an expansion. -/
def evalTerms : List Int → Rat
  | [] => 0
  | [a] => a
  | a :: b :: rest => a + (evalTerms (b :: rest))⁻¹

theorem continuedFraction_ne_nil (p : Int) {q : Nat} (hq : 0 < q) : continuedFraction p q ≠ [] := by
  rw [continuedFraction_step p hq]
  split <;> simp

/-- **The expansion of a fraction evaluates to it.** -/
theorem evalTerms_continuedFraction (p : Int) {q : Nat} (hq : 0 < q) :
    evalTerms (continuedFraction p q) = (p : Rat) / q := by
  induction q using Nat.strong_induction_on generalizing p with
  | _ q ih =>
    have hpos : (0 : Int) < q := by omega
    have hnn := Int.emod_nonneg p hpos.ne'
    have hlt := Int.emod_lt_of_pos p hpos
    have hdiv : (p : Rat) = q * (p / q : Int) + (p % q : Int) := by
      exact_mod_cast (Int.mul_ediv_add_emod p q).symm
    have hq0 : (q : Rat) ≠ 0 := by exact_mod_cast hq.ne'
    rw [continuedFraction_step p hq]
    split_ifs with hr
    · rw [hr] at hdiv
      rw [evalTerms, hdiv]
      field_simp
      simp
    · have hrpos : 0 < (p % q).toNat := by omega
      have hcast : (((p % q).toNat : Nat) : Rat) = ((p % q : Int) : Rat) := by
        have : (((p % q).toNat : Nat) : Int) = p % q := Int.toNat_of_nonneg hnn
        exact_mod_cast this
      have hih := ih (p % q).toNat (by omega) (q : Int) hrpos
      have hr0 : ((p % q : Int) : Rat) ≠ 0 := by exact_mod_cast hr
      obtain ⟨b, rest, hrest⟩ := List.exists_cons_of_ne_nil
        (continuedFraction_ne_nil (q : Int) hrpos)
      rw [hrest] at hih ⊢
      rw [evalTerms, hih, hcast, hdiv]
      push_cast
      field_simp

/-- Every term after the first is positive. -/
theorem continuedFraction_pos {p : Int} {q : Nat} (hq : 0 < q) (hp : (q : Int) ≤ p) :
    ∀ t ∈ continuedFraction p q, 0 < t := by
  induction q using Nat.strong_induction_on generalizing p with
  | _ q ih =>
    have hpos : (0 : Int) < q := by omega
    have hnn := Int.emod_nonneg p hpos.ne'
    have hlt := Int.emod_lt_of_pos p hpos
    have hdivpos : 1 ≤ p / q := (Int.le_ediv_iff_mul_le hpos).2 (by omega)
    rw [continuedFraction_step p hq]
    split_ifs with hr
    · intro t ht
      rw [List.mem_singleton.1 ht]
      exact hdivpos
    · intro t ht
      rcases List.mem_cons.1 ht with rfl | hmem
      · exact hdivpos
      · exact ih (p % q).toNat (by omega) (by omega) (by omega) t hmem

/-- The terms of a rational after its floor are positive. -/
theorem continuedFraction_tail_pos {p a : Int} {q : Nat} {rest : List Int} (hq : 0 < q)
    (h : continuedFraction p q = a :: rest) : ∀ t ∈ rest, 0 < t := by
  have hpos : (0 : Int) < q := by omega
  have hnn := Int.emod_nonneg p hpos.ne'
  have hlt := Int.emod_lt_of_pos p hpos
  rw [continuedFraction_step p hq] at h
  split_ifs at h with hr
  · obtain ⟨-, rfl⟩ := List.cons.inj h
    simp
  · obtain ⟨-, rfl⟩ := List.cons.inj h
    exact continuedFraction_pos (by omega) (by omega)

theorem encodeTerms_incomparable {l m : List Int} {i : Nat}
    (hl : ∀ t ∈ l, 0 < t ∧ width t.natAbs < 2 ^ 64) (hm : ∀ t ∈ m, 0 < t ∧ width t.natAbs < 2 ^ 64)
    (h : l ≠ m) : Incomparable (encodeTerms i l) (encodeTerms i m) := by
  -- A stop marker differs from a continuation marker in its only byte.
  have hstop : ∀ (i : Nat) (t : Int) (r : List Int),
      Incomparable (encodeTerms i []) (encodeTerms i (t :: r)) := by
    intro i t r
    simp only [encodeTerms]
    have hne : (if i % 2 = 0 then 2 else 0 : UInt8) ≠ 1 := by split <;> decide
    constructor
    · intro hp
      exact hne (by simpa using (List.cons_prefix_cons.1 hp).1)
    · intro hp
      exact hne (by simpa using (List.cons_prefix_cons.1 hp).1.symm)
  induction l generalizing m i with
  | nil =>
    cases m with
    | nil => exact absurd rfl h
    | cons t r => exact hstop i t r
  | cons t r ih =>
    cases m with
    | nil => exact (hstop i t r).symm
    | cons t' r' =>
      simp only [encodeTerms, List.cons_append]
      obtain ⟨ht, htw⟩ := hl t List.mem_cons_self
      obtain ⟨ht', htw'⟩ := hm t' List.mem_cons_self
      refine Incomparable.prepend [1] ?_
      by_cases htt : t = t'
      · subst htt
        refine Incomparable.prepend _ (ih ?_ ?_ ?_)
        · exact fun u hu => hl u (List.mem_cons_of_mem _ hu)
        · exact fun u hu => hm u (List.mem_cons_of_mem _ hu)
        · rintro rfl
          exact h rfl
      · have hinc := putUintBe_incomparable htw htw' (by omega)
        refine Incomparable.append ?_ _ _
        split
        · exact hinc.compl
        · exact hinc

theorem encodeRational_incomparable {x y : Rat}
    (hx : ∀ t ∈ continuedFraction x.num x.den, width t.natAbs < 2 ^ 64)
    (hy : ∀ t ∈ continuedFraction y.num y.den, width t.natAbs < 2 ^ 64) (h : x ≠ y) :
    Incomparable (encodeRational x) (encodeRational y) := by
  have hex := evalTerms_continuedFraction x.num x.pos
  have hey := evalTerms_continuedFraction y.num y.pos
  rw [Rat.num_div_den] at hex hey
  unfold encodeRational
  obtain ⟨a, l, hl⟩ := List.exists_cons_of_ne_nil (continuedFraction_ne_nil x.num x.pos)
  obtain ⟨b, m, hm⟩ := List.exists_cons_of_ne_nil (continuedFraction_ne_nil y.num y.pos)
  rw [hl] at hex hx
  rw [hm] at hey hy
  simp only [hl, hm, List.append_assoc]
  refine Incomparable.prepend _ ?_
  by_cases hab : a = b
  · subst hab
    refine (encodeTerms_incomparable ?_ ?_ ?_).prepend _
    · exact fun t ht =>
        ⟨continuedFraction_tail_pos x.pos hl t ht, hx t (List.mem_cons_of_mem _ ht)⟩
    · exact fun t ht =>
        ⟨continuedFraction_tail_pos y.pos hm t ht, hy t (List.mem_cons_of_mem _ ht)⟩
    · rintro rfl
      exact h (hex.symm.trans hey)
  · exact (encodeSignedInt_incomparable (hx a List.mem_cons_self) (hy b List.mem_cons_self) hab).append
      _ _

end Ordered

end ArborDb
