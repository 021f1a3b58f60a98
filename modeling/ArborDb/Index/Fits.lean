import ArborDb.Index.Order

/-!
# What is stored fits its index key

A magnitude in a key is prefixed by its length in eight bytes. A stored scalar is shorter than that allows:
its encoding has fewer than `2 ^ 32` bytes, and no term of the continued fraction of a rational is larger
than its numerator or denominator.
-/

namespace ArborDb

open Externals

namespace Ordered

/-- The two's complement form of a number has no fewer bytes than its magnitude. -/
class LawfulMagnitudes [Externals] : Prop where
  width_le (v : Int) : width v.natAbs ≤ (toSignedBytesBe v).length

/-- No term is larger than the fraction's parts. -/
theorem natAbs_le_of_mem_continuedFraction (p : Int) {q : Nat} (hq : 0 < q) {t : Int}
    (ht : t ∈ continuedFraction p q) : t.natAbs ≤ max p.natAbs q := by
  induction q using Nat.strong_induction_on generalizing p with
  | _ q ih =>
    have hnn := Int.emod_nonneg p (show (q : Int) ≠ 0 by omega)
    have hlt := Int.emod_lt_of_pos p (show (0 : Int) < q by omega)
    have hquotient : (p / q).natAbs ≤ p.natAbs := Int.natAbs_ediv_le_natAbs p q
    rw [continuedFraction_step p hq] at ht
    split at ht
    · rw [List.mem_singleton.1 ht]
      omega
    · rcases List.mem_cons.1 ht with rfl | ht
      · omega
      · have hrec := ih (p % q).toNat (by omega) q (by omega) ht
        omega

variable [Externals] [LawfulMagnitudes]

theorem width_lt_of_le {m : Nat} {v : Int} (hle : m ≤ v.natAbs) (h : (toSignedBytesBe v).length < 2 ^ 32) :
    width m < 2 ^ 64 := by
  have hwidth := (width_mono hle).trans (LawfulMagnitudes.width_le v)
  omega

/-- **A scalar that is short enough to be stored fits its key.** -/
theorem fits_of_length {s : Scalar} (h : s.encode.length < 2 ^ 32) : Fits s := by
  cases s with
  | bigInt v =>
    have hbytes : (toSignedBytesBe v).length < 2 ^ 32 := by
      simp [Scalar.encode, Scalar.tagged, putBytes] at h
      omega
    exact width_lt_of_le le_rfl hbytes
  | rational v =>
    have hbytes : (toSignedBytesBe v.num).length < 2 ^ 32 ∧ (toSignedBytesBe v.den).length < 2 ^ 32 := by
      simp [Scalar.encode, Scalar.tagged, putBytes] at h
      omega
    intro t ht
    rcases le_max_iff.1 (natAbs_le_of_mem_continuedFraction v.num v.den_pos ht) with hnum | hden
    · exact width_lt_of_le hnum hbytes.1
    · exact width_lt_of_le (v := v.den) hden hbytes.2
  | _ => trivial

end Ordered

theorem Reference.magnitudes : letI := Reference.externals; Ordered.LawfulMagnitudes :=
  letI := Reference.externals
  { width_le := by
      intro v
      change Ordered.width v.natAbs ≤ (Reference.toSignedBytesBe v).length
      unfold Reference.toSignedBytesBe Ordered.width
      dsimp only
      rw [Bytes.length_be]
      generalize hm : (if 0 ≤ v then v else -v - 1).toNat = m
      have hle : v.natAbs ≤ m + 1 := by
        split at hm <;> omega
      have hlog : v.natAbs.log2 ≤ m.log2 + 1 := by
        have hlt : m < 2 ^ (m.log2 + 1) := Nat.lt_log2_self
        have hmono : v.natAbs.log2 ≤ (2 ^ (m.log2 + 1)).log2 := by
          rcases Nat.eq_zero_or_pos v.natAbs with hzero | hpos
          · rw [hzero]
            exact Nat.zero_le _
          · exact (Nat.le_log2 (by positivity)).2 ((Nat.log2_self_le (by omega)).trans (by omega))
        rw [Nat.log2_two_pow] at hmono
        exact hmono
      omega }

end ArborDb
