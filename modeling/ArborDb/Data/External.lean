import ArborDb.Lib.Bytes
import Mathlib.Data.Rat.Defs

/-!
# Third-party scalar types

The calendar types of `chrono`, the decimal floats of `num_bigfloat` and the byte forms of
`num_bigint` are not part of the repository. `Externals` is the interface through which the codecs
use them: one field per accessor or constructor that is called. `LawfulExternals` states that the
constructors invert the accessors. Machine integers cross the interface as bit vectors.
-/

namespace ArborDb

/-- The third-party types a scalar can hold, with the functions the codecs call on them. -/
class Externals where
  NaiveDate : Type
  NaiveTime : Type
  /-- `DateTime<Utc>`. -/
  DateTime : Type
  TimeDelta : Type
  BigFloat : Type
  decEqNaiveDate : DecidableEq NaiveDate
  decEqNaiveTime : DecidableEq NaiveTime
  decEqDateTime : DecidableEq DateTime
  decEqTimeDelta : DecidableEq TimeDelta
  decEqBigFloat : DecidableEq BigFloat
  numDaysFromCe : NaiveDate → BitVec 32
  fromNumDaysFromCeOpt : BitVec 32 → Option NaiveDate
  numSecondsFromMidnight : NaiveTime → BitVec 32
  nanosecond : NaiveTime → BitVec 32
  fromNumSecondsFromMidnightOpt : BitVec 32 → BitVec 32 → Option NaiveTime
  /-- The date of the naive UTC date-time. -/
  date : DateTime → NaiveDate
  /-- The time of the naive UTC date-time. -/
  time : DateTime → NaiveTime
  /-- `NaiveDateTime::new(date, time).and_utc()`. -/
  andUtc : NaiveDate → NaiveTime → DateTime
  numSeconds : TimeDelta → BitVec 64
  subsecNanos : TimeDelta → BitVec 32
  /-- `TimeDelta::seconds`; `none` where it panics. -/
  seconds : BitVec 64 → Option TimeDelta
  nanoseconds : BitVec 64 → TimeDelta
  /-- Addition of durations; `none` where it panics. -/
  addDelta : TimeDelta → TimeDelta → Option TimeDelta
  /-- `BigInt::to_signed_bytes_be`. -/
  toSignedBytesBe : Int → Bytes
  /-- `BigInt::from_signed_bytes_be`. -/
  fromSignedBytesBe : Bytes → Int
  floatNan : BigFloat
  floatInfPos : BigFloat
  floatInfNeg : BigFloat
  floatZero : BigFloat
  isNan : BigFloat → Bool
  isInfPos : BigFloat → Bool
  isInfNeg : BigFloat → Bool
  isZero : BigFloat → Bool
  isNegative : BigFloat → Bool
  /-- The significant decimal digits, one a byte. -/
  mantissaBytes : BigFloat → Bytes
  exponent : BigFloat → BitVec 8
  /-- `BigFloat::from_bytes(mantissa, sign, exponent)`, the sign being `-1` when `neg`. -/
  fromMantissa (mantissa : Bytes) (neg : Bool) (exponent : BitVec 8) : BigFloat

instance [Externals] : DecidableEq Externals.NaiveDate := Externals.decEqNaiveDate
instance [Externals] : DecidableEq Externals.NaiveTime := Externals.decEqNaiveTime
instance [Externals] : DecidableEq Externals.DateTime := Externals.decEqDateTime
instance [Externals] : DecidableEq Externals.TimeDelta := Externals.decEqTimeDelta
instance [Externals] : DecidableEq Externals.BigFloat := Externals.decEqBigFloat

open Externals in
/-- The constructors invert the accessors. -/
class LawfulExternals [Externals] : Prop where
  date_inv (d : NaiveDate) : fromNumDaysFromCeOpt (numDaysFromCe d) = some d
  time_inv (t : NaiveTime) :
    fromNumSecondsFromMidnightOpt (numSecondsFromMidnight t) (nanosecond t) = some t
  dateTime_inv (v : DateTime) : andUtc (date v) (time v) = v
  delta_inv (v : TimeDelta) :
    (seconds (numSeconds v)).bind (addDelta · (nanoseconds ((subsecNanos v).signExtend 64))) = some v
  signedBytes_inv (n : Int) : fromSignedBytesBe (toSignedBytesBe n) = n
  nan_inv (v : BigFloat) : isNan v = true → v = floatNan
  infPos_inv (v : BigFloat) : isInfPos v = true → v = floatInfPos
  infNeg_inv (v : BigFloat) : isInfNeg v = true → v = floatInfNeg
  zero_inv (v : BigFloat) : isZero v = true → v = floatZero
  /-- A finite, non-zero number is rebuilt from its digits, sign and exponent. -/
  mantissa_inv (v : BigFloat) : isNan v = false → isInfPos v = false → isInfNeg v = false →
    isZero v = false → fromMantissa (mantissaBytes v) (isNegative v) (exponent v) = v

/-! ## A reference instance -/

namespace Reference

/-- The shortest big-endian two's complement form. -/
def toSignedBytesBe (n : Int) : Bytes :=
  let magnitude := (if 0 ≤ n then n else -n - 1).toNat
  let w := (magnitude.log2 + 1) / 8 + 1
  Bytes.be w (n % 256 ^ w).toNat

def fromSignedBytesBe (b : Bytes) : Int :=
  if 2 * Bytes.ofBe b < 256 ^ b.length then Bytes.ofBe b else Bytes.ofBe b - 256 ^ b.length

theorem fromSignedBytesBe_toSignedBytesBe (n : Int) :
    fromSignedBytesBe (toSignedBytesBe n) = n := by
  simp only [toSignedBytesBe]
  generalize hm : (if 0 ≤ n then n else -n - 1).toNat = m
  generalize hw : (m.log2 + 1) / 8 + 1 = w
  -- The width leaves room for the sign bit.
  have hrange : 2 * m + 2 ≤ 256 ^ w := by
    have hlog : m < 2 ^ (m.log2 + 1) := Nat.lt_log2_self
    have hpow : (2 : Nat) ^ (m.log2 + 1) * 2 ≤ 256 ^ w := by
      rw [show (256 : Nat) = 2 ^ 8 by norm_num, ← pow_mul, ← pow_succ]
      exact Nat.pow_le_pow_right (by norm_num) (by omega)
    omega
  have hcast : (256 : Int) ^ w = ((256 ^ w : Nat) : Int) := by push_cast; rfl
  simp only [fromSignedBytesBe, Bytes.length_be, Bytes.ofBe_be, hcast]
  generalize 256 ^ w = N at hrange
  split_ifs at hm with hn
  · have hmod : n % (N : Int) = n := Int.emod_eq_of_lt hn (by omega)
    have hnat : n.toNat % N = n.toNat := Nat.mod_eq_of_lt (by omega)
    rw [hmod, hnat, if_pos (by omega)]
    omega
  · have hmod : n % (N : Int) = n + N := by
      rw [← Int.add_emod_right]
      exact Int.emod_eq_of_lt (by omega) (by omega)
    have hnat : (n + N).toNat % N = (n + N).toNat := Nat.mod_eq_of_lt (by omega)
    rw [hmod, hnat, if_neg (by omega)]
    omega

/-! ### Durations -/

/-- The largest duration, in nanoseconds: `i64::MAX` milliseconds. -/
def maxNanos : Int := (2 ^ 63 - 1) * 1000000

/-- A duration, by its total nanoseconds. -/
abbrev TimeDelta := { n : Int // -maxNanos ≤ n ∧ n ≤ maxNanos }

def TimeDelta.ofNanos (n : Int) : Option TimeDelta :=
  if h : -maxNanos ≤ n ∧ n ≤ maxNanos then some ⟨n, h⟩ else none

def numSeconds (v : TimeDelta) : BitVec 64 := BitVec.ofInt 64 (v.1.tdiv 1000000000)

def subsecNanos (v : TimeDelta) : BitVec 32 := BitVec.ofInt 32 (v.1.tmod 1000000000)

theorem toInt_numSeconds (v : TimeDelta) : (numSeconds v).toInt = v.1.tdiv 1000000000 := by
  obtain ⟨n, hlo, hhi⟩ := v
  have hdiv := Int.tmod_add_tdiv_mul n 1000000000
  have hlt := Int.tmod_lt_of_pos n (b := 1000000000) (by norm_num)
  have hgt := Int.lt_tmod_of_pos n (b := 1000000000) (by norm_num)
  unfold maxNanos at hlo hhi
  apply BitVec.toInt_ofInt_eq_self (by norm_num)
  · norm_num at *
    omega
  · norm_num at *
    omega

theorem toInt_subsecNanos (v : TimeDelta) : (subsecNanos v).toInt = v.1.tmod 1000000000 := by
  have hlt := Int.tmod_lt_of_pos v.1 (b := 1000000000) (by norm_num)
  have hgt := Int.lt_tmod_of_pos v.1 (b := 1000000000) (by norm_num)
  apply BitVec.toInt_ofInt_eq_self (by norm_num)
  · norm_num at *
    omega
  · norm_num at *
    omega

theorem total_eq (v : TimeDelta) :
    (numSeconds v).toInt * 1000000000 + (subsecNanos v).toInt = v.1 := by
  have hdiv := Int.tmod_add_tdiv_mul v.1 1000000000
  rw [toInt_numSeconds, toInt_subsecNanos]
  omega

/-! ### Decimal floats -/

/-- At most forty digits, the last of them not zero. -/
abbrev Digits := { m : Bytes // m.length ≤ 40 ∧ m.getLast? ≠ some 0 }

/-- Decimal floats by sign, digits and exponent. -/
inductive BigFloat where
  | nan
  | infPos
  | infNeg
  | zero
  | num (neg : Bool) (mantissa : Digits) (exponent : BitVec 8)
  deriving DecidableEq

def BigFloat.fromMantissa (mantissa : Bytes) (neg : Bool) (exponent : BitVec 8) : BigFloat :=
  if h : mantissa.length ≤ 40 ∧ mantissa.getLast? ≠ some 0 then .num neg ⟨mantissa, h⟩ exponent
  else .nan

/-- Dates by their day number, times by seconds and nanoseconds. -/
@[reducible] def externals : Externals where
  NaiveDate := BitVec 32
  NaiveTime := BitVec 32 × BitVec 32
  DateTime := BitVec 32 × (BitVec 32 × BitVec 32)
  TimeDelta := TimeDelta
  BigFloat := BigFloat
  decEqNaiveDate := inferInstance
  decEqNaiveTime := inferInstance
  decEqDateTime := inferInstance
  decEqTimeDelta := inferInstance
  decEqBigFloat := inferInstance
  numDaysFromCe d := d
  fromNumDaysFromCeOpt := some
  numSecondsFromMidnight t := t.1
  nanosecond t := t.2
  fromNumSecondsFromMidnightOpt secs nanos := some (secs, nanos)
  date v := v.1
  time v := v.2
  andUtc d t := (d, t)
  numSeconds := numSeconds
  subsecNanos := subsecNanos
  seconds s := TimeDelta.ofNanos (s.toInt * 1000000000)
  nanoseconds n := (TimeDelta.ofNanos n.toInt).getD ⟨0, by decide⟩
  addDelta v w := TimeDelta.ofNanos (v.1 + w.1)
  toSignedBytesBe := toSignedBytesBe
  fromSignedBytesBe := fromSignedBytesBe
  floatNan := .nan
  floatInfPos := .infPos
  floatInfNeg := .infNeg
  floatZero := .zero
  isNan v := v = .nan
  isInfPos v := v = .infPos
  isInfNeg v := v = .infNeg
  isZero v := v = .zero
  isNegative
    | .num neg _ _ => neg
    | _ => false
  mantissaBytes
    | .num _ mantissa _ => mantissa.1
    | _ => []
  exponent
    | .num _ _ exponent => exponent
    | _ => 0
  fromMantissa := BigFloat.fromMantissa

/-- A duration is the sum of its whole seconds and its nanoseconds. -/
theorem delta_inv (v : TimeDelta) :
    (TimeDelta.ofNanos ((numSeconds v).toInt * 1000000000)).bind (fun whole =>
      TimeDelta.ofNanos (whole.1 + ((TimeDelta.ofNanos
        ((subsecNanos v).signExtend 64).toInt).getD ⟨0, by decide⟩).1)) = some v := by
  have htotal := total_eq v
  have hdiv := Int.tmod_add_tdiv_mul v.1 1000000000
  have hlt := Int.tmod_lt_of_pos v.1 (b := 1000000000) (by norm_num)
  have hgt := Int.lt_tmod_of_pos v.1 (b := 1000000000) (by norm_num)
  have hsign := Int.tmod_nonneg (a := v.1) 1000000000
  have hsub : ((subsecNanos v).signExtend 64).toInt = (subsecNanos v).toInt :=
    BitVec.toInt_signExtend_of_le (by norm_num)
  have hmax : maxNanos = (2 ^ 63 - 1) * 1000000 := rfl
  obtain ⟨hlo, hhi⟩ := v.2
  rw [toInt_subsecNanos] at hsub htotal
  rw [hsub]
  have hneg : v.1 ≤ 0 → v.1.tmod 1000000000 ≤ 0 := by
    intro hv
    have := Int.tmod_nonneg (a := -v.1) 1000000000 (by omega)
    rw [Int.neg_tmod] at this
    omega
  have hwhole : -maxNanos ≤ (numSeconds v).toInt * 1000000000 ∧
      (numSeconds v).toInt * 1000000000 ≤ maxNanos := by
    rcases le_total 0 v.1 with hv | hv
    · have := hsign hv
      omega
    · have := hneg hv
      omega
  have hnanos : -maxNanos ≤ v.1.tmod 1000000000 ∧ v.1.tmod 1000000000 ≤ maxNanos := by
    norm_num at hmax
    omega
  simp only [TimeDelta.ofNanos, hwhole, hnanos, and_self, dif_pos, Option.bind_some,
    Option.getD_some, htotal, hlo, hhi]

theorem lawful : letI := externals; LawfulExternals := letI := externals; {
  date_inv _ := rfl
  time_inv _ := rfl
  dateTime_inv _ := rfl
  delta_inv := delta_inv
  signedBytes_inv := fromSignedBytesBe_toSignedBytesBe
  nan_inv _ h := of_decide_eq_true h
  infPos_inv _ h := of_decide_eq_true h
  infNeg_inv _ h := of_decide_eq_true h
  zero_inv _ h := of_decide_eq_true h
  mantissa_inv v hnan hpos hneg hzero := by
    cases v with
    | nan => cases hnan
    | infPos => cases hpos
    | infNeg => cases hneg
    | zero => cases hzero
    | num neg mantissa exponent => exact dif_pos mantissa.2 }

end Reference

end ArborDb
