import ArborDb.Index.Definitions
import ArborDb.Index.OrderBig
import Mathlib.Data.Prod.Lex

/-!
# The index encoding is ordered and prefix-free

Scalars of one variant compare in the order of their type (`Scalar.Lt`), scalars of different
variants by their tag. Below that order the ascending encodings differ at a byte
(`encodeAscending_below`), which gives the order, its reversal by the complement, and
prefix-freeness at once, and carries over to tuples of columns.
-/

namespace ArborDb

open Externals Bytes

/-- The order of the calendar types, by their accessors. -/
class OrderedExternals [Externals] where
  linDate : LinearOrder NaiveDate
  linTime : LinearOrder NaiveTime
  linDateTime : LinearOrder DateTime
  linDelta : LinearOrder TimeDelta
  date_lt (a b : NaiveDate) : a < b ↔ (numDaysFromCe a).toInt < (numDaysFromCe b).toInt
  time_lt (a b : NaiveTime) : a < b ↔ numSecondsFromMidnight a < numSecondsFromMidnight b ∨
    numSecondsFromMidnight a = numSecondsFromMidnight b ∧ nanosecond a < nanosecond b
  dateTime_lt (a b : DateTime) : a < b ↔ date a < date b ∨ date a = date b ∧ time a < time b
  delta_lt (a b : TimeDelta) : a < b ↔
    (numSeconds a).toInt * 1000000000 + (subsecNanos a).toInt <
      (numSeconds b).toInt * 1000000000 + (subsecNanos b).toInt

instance [Externals] [OrderedExternals] : LinearOrder NaiveDate := OrderedExternals.linDate
instance [Externals] [OrderedExternals] : LinearOrder NaiveTime := OrderedExternals.linTime
instance [Externals] [OrderedExternals] : LinearOrder DateTime := OrderedExternals.linDateTime
instance [Externals] [OrderedExternals] : LinearOrder TimeDelta := OrderedExternals.linDelta

/-! ## The order of scalars -/

namespace Scalar

/-- The place of a float in the IEEE total order: negative numbers by decreasing magnitude. -/
def totalOrderKey {w : Nat} (bits : BitVec w) : Int :=
  if bits.msb then -((bits.toNat - 2 ^ (w - 1) : Nat) : Int) - 1 else bits.toNat

variable [Externals]

/-- Two scalars of one base variant. -/
inductive SameBase : Scalar → Scalar → Prop
  | null : SameBase .null .null
  | bool (a b) : SameBase (.bool a) (.bool b)
  | i8 (a b) : SameBase (.i8 a) (.i8 b)
  | i16 (a b) : SameBase (.i16 a) (.i16 b)
  | i32 (a b) : SameBase (.i32 a) (.i32 b)
  | i64 (a b) : SameBase (.i64 a) (.i64 b)
  | i128 (a b) : SameBase (.i128 a) (.i128 b)
  | u8 (a b) : SameBase (.u8 a) (.u8 b)
  | u16 (a b) : SameBase (.u16 a) (.u16 b)
  | u32 (a b) : SameBase (.u32 a) (.u32 b)
  | u64 (a b) : SameBase (.u64 a) (.u64 b)
  | u128 (a b) : SameBase (.u128 a) (.u128 b)
  | f32 (a b) : SameBase (.f32 a) (.f32 b)
  | f64 (a b) : SameBase (.f64 a) (.f64 b)
  | str (a b) : SameBase (.str a) (.str b)
  | bytes (a b) : SameBase (.bytes a) (.bytes b)
  | uuid (a b) : SameBase (.uuid a) (.uuid b)
  | date (a b) : SameBase (.date a) (.date b)
  | time (a b) : SameBase (.time a) (.time b)
  | dateTime (a b) : SameBase (.dateTime a) (.dateTime b)
  | duration (a b) : SameBase (.duration a) (.duration b)

theorem SameBase.symm {a b : Scalar} (h : a.SameBase b) : b.SameBase a := by
  cases h <;> constructor

variable [OrderedExternals]

/-- The order within a base variant. -/
def Lt : Scalar → Scalar → Prop
  | .bool a, .bool b => a < b
  | .i8 a, .i8 b => a.toInt < b.toInt
  | .i16 a, .i16 b => a.toInt < b.toInt
  | .i32 a, .i32 b => a.toInt < b.toInt
  | .i64 a, .i64 b => a.toInt < b.toInt
  | .i128 a, .i128 b => a.toInt < b.toInt
  | .u8 a, .u8 b => a < b
  | .u16 a, .u16 b => a < b
  | .u32 a, .u32 b => a < b
  | .u64 a, .u64 b => a < b
  | .u128 a, .u128 b => a < b
  | .f32 a, .f32 b => totalOrderKey a < totalOrderKey b
  | .f64 a, .f64 b => totalOrderKey a < totalOrderKey b
  | .str a, .str b => a < b
  | .bytes a, .bytes b => a < b
  | .uuid a, .uuid b => a < b
  | .date a, .date b => a < b
  | .time a, .time b => a < b
  | .dateTime a, .dateTime b => a < b
  | .duration a, .duration b => a < b
  | _, _ => False

end Scalar

/-! ## Words -/

namespace Ordered

theorem pow_eq_of_mod {w : Nat} (hw : w % 8 = 0) : (256 : Nat) ^ (w / 8) = 2 ^ w := by
  rw [show (256 : Nat) = 2 ^ 8 by norm_num, ← pow_mul]
  congr 1
  omega

theorem toBeBytes_below {w : Nat} (hw : w % 8 = 0) {a b : BitVec w} (h : a < b) :
    Below (Scalar.toBeBytes a) (Scalar.toBeBytes b) := by
  refine be_below ?_ h
  rw [pow_eq_of_mod hw]
  exact b.isLt

theorem xor_sign (b : UInt8) : b ^^^ 0x80 = b + 0x80 := by
  apply UInt8.toBitVec_inj.1
  rw [UInt8.toBitVec_xor, UInt8.toBitVec_add]
  generalize b.toBitVec = x
  revert x
  decide

/-- Flipping the sign bit adds half the range. -/
theorem pushSigned_be (k n : Nat) : pushSigned (be (k + 1) n) = be (k + 1) (n + 128 * 256 ^ k) := by
  have hpos : 0 < 256 ^ k := by positivity
  rw [be, be, pushSigned, xor_sign]
  congr 1
  · apply UInt8.toNat_inj.1
    rw [UInt8.toNat_add, UInt8.toNat_ofNat', UInt8.toNat_ofNat', Nat.add_mul_div_right _ _ hpos]
    show (n / 256 ^ k % 2 ^ 8 + 128) % 2 ^ 8 = _
    omega
  · rw [← be_mod k (n + 128 * 256 ^ k), Nat.add_mul_mod_self_right, be_mod]

/-- **Sign-flipped words compare as the integers they represent.** -/
theorem pushSigned_below {w : Nat} (hw : w % 8 = 0) (hpos : 0 < w) {a b : BitVec w}
    (h : a.toInt < b.toInt) :
    Below (pushSigned (Scalar.toBeBytes a)) (pushSigned (Scalar.toBeBytes b)) := by
  obtain ⟨k, hk⟩ : ∃ k, w / 8 = k + 1 := ⟨w / 8 - 1, by omega⟩
  have hM : 256 ^ (k + 1) = 2 ^ w := by rw [← hk, pow_eq_of_mod hw]
  have hH : 256 * 256 ^ k = 2 ^ w := by rw [← hM, pow_succ, Nat.mul_comm]
  have ha := a.isLt
  have hb := b.isLt
  rw [BitVec.toInt_eq_toNat_cond, BitVec.toInt_eq_toNat_cond] at h
  rw [Scalar.toBeBytes, Scalar.toBeBytes, hk, pushSigned_be, pushSigned_be, ← be_mod (k + 1),
    ← be_mod (k + 1) (b.toNat + _), hM]
  have hp : (0 : Nat) < 2 ^ w := by positivity
  refine be_below (by rw [hM]; exact Nat.mod_lt _ hp) ?_
  -- Adding half the range wraps around exactly for the negative ones.
  have hshift : ∀ n < 2 ^ w, (n + 128 * 256 ^ k) % 2 ^ w =
      if 2 * n < 2 ^ w then n + 128 * 256 ^ k else n + 128 * 256 ^ k - 2 ^ w := by
    intro n hn
    split_ifs with hlt
    · exact Nat.mod_eq_of_lt (by omega)
    · rw [Nat.mod_eq_sub_mod (by omega)]
      exact Nat.mod_eq_of_lt (by omega)
  rw [hshift _ ha, hshift _ hb]
  generalize 2 ^ w = M at *
  split_ifs at h ⊢ <;> omega

/-- The unsigned word of a float is its place in the total order, shifted. -/
theorem toNat_floatBits {w : Nat} (hpos : 0 < w) (bits : BitVec w) :
    ((floatBits bits).toNat : Int) = 2 ^ (w - 1) + Scalar.totalOrderKey bits := by
  have hpow : 2 ^ w = 2 * 2 ^ (w - 1) := by
    rw [← pow_succ']
    congr 1
    omega
  have hlt := bits.isLt
  have hand : bits &&& (1#w <<< (w - 1)) = if bits.msb then BitVec.twoPow w (w - 1) else 0#w := by
    rw [BitVec.msb_eq_getLsbD_last]
    exact BitVec.and_twoPow bits (w - 1)
  have hmsb := BitVec.msb_eq_decide bits
  have htwo : (BitVec.twoPow w (w - 1)).toNat = 2 ^ (w - 1) :=
    BitVec.toNat_twoPow_of_lt (by omega)
  have hne : BitVec.twoPow w (w - 1) ≠ 0#w := by
    intro h0
    rw [h0] at htwo
    simp at htwo
    have : 0 < 2 ^ (w - 1) := by positivity
    omega
  have hcast : (2 : Int) ^ (w - 1) = ((2 ^ (w - 1) : Nat) : Int) := by push_cast; rfl
  unfold floatBits Scalar.totalOrderKey
  rw [hand, hcast]
  cases hm : bits.msb with
  | true =>
    rw [hm] at hmsb
    have hge := of_decide_eq_true hmsb.symm
    simp only [if_true, ne_eq, hne, not_false_eq_true, BitVec.toNat_not]
    omega
  | false =>
    rw [hm] at hmsb
    have hge := of_decide_eq_false hmsb.symm
    have hor : bits ||| (1#w <<< (w - 1)) = bits + BitVec.twoPow w (w - 1) := by
      refine (BitVec.add_eq_or_of_and_eq_zero bits _ ?_).symm
      rw [hand, hm]
      rfl
    simp only [Bool.false_eq_true, if_false, ne_eq, not_true_eq_false, hor, BitVec.toNat_add, htwo]
    rw [Nat.mod_eq_of_lt (by omega)]
    omega

theorem floatBits_lt {w : Nat} (hpos : 0 < w) {a b : BitVec w}
    (h : Scalar.totalOrderKey a < Scalar.totalOrderKey b) : floatBits a < floatBits b := by
  have ha := toNat_floatBits hpos a
  have hb := toNat_floatBits hpos b
  rw [BitVec.lt_def]
  omega

/-! ## Byte strings -/

/-- **Escaped byte strings compare as the strings themselves.** -/
theorem orderedBytes_below {a b : Bytes} (h : a < b) : Below (orderedBytes a) (orderedBytes b) := by
  induction a generalizing b with
  | nil =>
    cases b with
    | nil => exact absurd h (lt_irrefl _)
    | cons y b =>
      by_cases hy : y = 0
      · subst hy
        exact .tail (.head (by decide))
      · have hy0 : 0 < y := by
          rw [UInt8.lt_iff_toNat_lt]
          exact Nat.pos_of_ne_zero fun h0 => hy (UInt8.toNat_inj.1 h0)
        simp only [orderedBytes, List.flatMap_nil, List.nil_append, List.flatMap_cons, escape, hy,
          if_false, List.cons_append]
        exact .head hy0
  | cons x a ih =>
    cases b with
    | nil => exact absurd h (by simp)
    | cons y b =>
      simp only [orderedBytes, List.flatMap_cons, List.append_assoc] at ih ⊢
      rcases List.cons_lt_cons_iff.1 h with hxy | ⟨rfl, hab⟩
      · have hhead : ∀ (z : UInt8) (t : Bytes), ∃ u, escape z ++ t = z :: u := by
          intro z t
          unfold escape
          split_ifs
          · exact ⟨_, rfl⟩
          · exact ⟨_, rfl⟩
        obtain ⟨u, hu⟩ := hhead x (a.flatMap escape ++ [0x00, 0x01])
        obtain ⟨v, hv⟩ := hhead y (b.flatMap escape ++ [0x00, 0x01])
        rw [hu, hv]
        exact .head hxy
      · exact (ih hab).prepend (escape x)

theorem orderedBytes_incomparable {a b : Bytes} (h : a ≠ b) :
    Incomparable (orderedBytes a) (orderedBytes b) := by
  rcases lt_or_gt_of_ne h with hlt | hgt
  · exact (orderedBytes_below hlt).incomparable
  · exact (orderedBytes_below hgt).incomparable.symm

theorem pushSigned_incomparable {w : Nat} (hw : w % 8 = 0) (hpos : 0 < w) {a b : BitVec w}
    (h : a ≠ b) :
    Incomparable (pushSigned (Scalar.toBeBytes a)) (pushSigned (Scalar.toBeBytes b)) := by
  rcases lt_or_gt_of_ne (fun he => h (BitVec.eq_of_toInt_eq he)) with hlt | hgt
  · exact (pushSigned_below hw hpos hlt).incomparable
  · exact (pushSigned_below hw hpos hgt).incomparable.symm

/-! ## Scalars of one base variant -/

theorem totalOrderKey_inj {w : Nat} {a b : BitVec w}
    (h : Scalar.totalOrderKey a = Scalar.totalOrderKey b) : a = b := by
  have ha := a.isLt
  have hb := b.isLt
  have hma := BitVec.msb_eq_decide a
  have hmb := BitVec.msb_eq_decide b
  apply BitVec.eq_of_toNat_eq
  unfold Scalar.totalOrderKey at h
  rw [hma, hmb] at h
  simp only [decide_eq_true_eq] at h
  split_ifs at h <;> omega

theorem trichotomy_of_key {α β γ : Type} [LinearOrder β] {f : α → β} (hf : Function.Injective f)
    (c : α → γ) (a b : α) : f a < f b ∨ c a = c b ∨ f b < f a := by
  rcases lt_trichotomy (f a) (f b) with h | h | h
  · exact .inl h
  · exact .inr (.inl (congrArg c (hf h)))
  · exact .inr (.inr h)

section Scalars

variable [Externals]

theorem totalNanos_toInt (v : TimeDelta) : (BitVec.ofInt 128 (totalNanos v)).toInt = totalNanos v := by
  have h1 := BitVec.toInt_lt (x := numSeconds v)
  have h2 := BitVec.le_toInt (numSeconds v)
  have h3 := BitVec.toInt_lt (x := subsecNanos v)
  have h4 := BitVec.le_toInt (subsecNanos v)
  apply BitVec.toInt_ofInt_eq_self (by norm_num)
  · unfold totalNanos
    norm_num at *
    omega
  · unfold totalNanos
    norm_num at *
    omega

variable [OrderedExternals]

theorem time_below {a b : NaiveTime} (h : a < b) :
    Below (Scalar.toBeBytes (numSecondsFromMidnight a) ++ Scalar.toBeBytes (nanosecond a))
      (Scalar.toBeBytes (numSecondsFromMidnight b) ++ Scalar.toBeBytes (nanosecond b)) := by
  rcases (OrderedExternals.time_lt a b).1 h with hsecs | ⟨hsecs, hnanos⟩
  · exact (toBeBytes_below (by norm_num) hsecs).append _ _
  · rw [hsecs]
    exact (toBeBytes_below (by norm_num) hnanos).prepend _

/-- **A smaller scalar of the same variant encodes below.** -/
theorem encodeAscending_below {a b : Scalar} (hs : a.SameBase b) (h : a.Lt b) :
    Below (encodeAscending a) (encodeAscending b) := by
  cases hs with
  | null => cases h
  | bool a b =>
    obtain ⟨rfl, rfl⟩ := Bool.lt_iff.1 (show a < b from h)
    exact (be_below (w := 1) (by decide) (by decide)).prepend _
  | i8 a b | i16 a b | i32 a b | i64 a b | i128 a b =>
    exact (pushSigned_below (by norm_num) (by norm_num) h).prepend _
  | u8 a b | u16 a b | u32 a b | u64 a b | u128 a b | uuid a b =>
    exact (toBeBytes_below (by norm_num) h).prepend _
  | f32 a b | f64 a b =>
    exact (toBeBytes_below (by norm_num) (floatBits_lt (by norm_num) h)).prepend _
  | str a b => exact (orderedBytes_below (Str.lt_iff.1 h)).prepend _
  | bytes a b => exact (orderedBytes_below h).prepend _
  | date a b =>
    exact (pushSigned_below (by norm_num) (by norm_num) ((OrderedExternals.date_lt a b).1 h)).prepend _
  | time a b =>
    simp only [encodeAscending, List.append_assoc]
    exact (time_below h).prepend _
  | dateTime a b =>
    simp only [encodeAscending, List.append_assoc]
    refine Below.prepend _ ?_
    rcases (OrderedExternals.dateTime_lt a b).1 h with hdate | ⟨hdate, htime⟩
    · refine (pushSigned_below (by norm_num) (by norm_num) ?_).append _ _
      exact (OrderedExternals.date_lt _ _).1 hdate
    · rw [hdate]
      exact (time_below htime).prepend _
  | duration a b =>
    refine (pushSigned_below (by norm_num) (by norm_num) ?_).prepend _
    rw [totalNanos_toInt, totalNanos_toInt]
    exact (OrderedExternals.delta_lt a b).1 h

theorem lt_trichotomy_of_sameBase {a b : Scalar} (hs : a.SameBase b) : a.Lt b ∨ a = b ∨ b.Lt a := by
  cases hs with
  | null => exact .inr (.inl rfl)
  | i8 a b | i16 a b | i32 a b | i64 a b | i128 a b =>
    exact trichotomy_of_key (fun _ _ => BitVec.eq_of_toInt_eq) _ a b
  | u8 a b | u16 a b | u32 a b | u64 a b | u128 a b | uuid a b =>
    exact trichotomy_of_key (fun _ _ => BitVec.eq_of_toNat_eq) _ a b
  | f32 a b | f64 a b =>
    exact trichotomy_of_key (fun _ _ => totalOrderKey_inj) _ a b
  | bool a b | str a b | bytes a b | date a b | time a b | dateTime a b | duration a b =>
    exact trichotomy_of_key (f := id) Function.injective_id _ a b

end Scalars

/-! ## Scalars of different variants -/

section Variants

variable [Externals]

/-- The leading byte of an encoding. -/
def typeTag : Scalar → Nat
  | .null => Tag.null
  | .bool _ => Tag.bool
  | .i8 _ => Tag.i8
  | .i16 _ => Tag.i16
  | .i32 _ => Tag.i32
  | .i64 _ => Tag.i64
  | .i128 _ => Tag.i128
  | .u8 _ => Tag.u8
  | .u16 _ => Tag.u16
  | .u32 _ => Tag.u32
  | .u64 _ => Tag.u64
  | .u128 _ => Tag.u128
  | .f32 _ => Tag.f32
  | .f64 _ => Tag.f64
  | .str _ => Tag.str
  | .bytes _ => Tag.bytes
  | .uuid _ => Tag.uuid
  | .date _ => Tag.date
  | .time _ => Tag.time
  | .dateTime _ => Tag.dateTime
  | .duration _ => Tag.duration
  | .bigInt _ => Tag.bigInt
  | .bigFloat v =>
    if isNan v then Tag.bigFloatNan
    else if isInfPos v then Tag.bigFloatPosInf
    else if isInfNeg v then Tag.bigFloatNegInf
    else if isZero v then Tag.bigFloatZero
    else if isNegative v then Tag.bigFloatNeg
    else Tag.bigFloatPos
  | .rational _ => Tag.bigRational

theorem typeTag_bigFloat (v : BigFloat) : 22 ≤ typeTag (.bigFloat v) ∧ typeTag (.bigFloat v) ≤ 27 := by
  simp only [typeTag]
  split_ifs <;> decide

theorem typeTag_lt (s : Scalar) : typeTag s < 256 := by
  cases s
  case bigFloat v =>
    have := typeTag_bigFloat v
    omega
  all_goals exact of_decide_eq_true rfl

theorem typeTag_ne_bigFloat {s : Scalar} (v : BigFloat) (h : typeTag s < 22 ∨ 27 < typeTag s) :
    typeTag s ≠ typeTag (.bigFloat v) := by
  have := typeTag_bigFloat v
  omega

/-- Two scalars of one variant. -/
inductive SameVariant : Scalar → Scalar → Prop
  | base {a b} : a.SameBase b → SameVariant a b
  | bigInt (a b) : SameVariant (.bigInt a) (.bigInt b)
  | bigFloat (a b) : SameVariant (.bigFloat a) (.bigFloat b)
  | rational (a b) : SameVariant (.rational a) (.rational b)

/-- Different variants have different tags. -/
theorem typeTag_ne_or_sameVariant (a b : Scalar) : typeTag a ≠ typeTag b ∨ SameVariant a b := by
  cases a <;> cases b
  case bigFloat.bigFloat a b => exact .inr (.bigFloat a b)
  case bigInt.bigInt a b => exact .inr (.bigInt a b)
  case rational.rational a b => exact .inr (.rational a b)
  all_goals first
    | (refine .inr (.base ?_); constructor)
    | (refine .inl ?_; rintro ⟨⟩)
    | exact .inl (typeTag_ne_bigFloat _ (of_decide_eq_true rfl))
    | exact .inl (typeTag_ne_bigFloat _ (of_decide_eq_true rfl)).symm

theorem encodeAscending_eq (s : Scalar) : ∃ body, encodeAscending s = be 1 (typeTag s) ++ body := by
  cases s
  case null => exact ⟨[], rfl⟩
  case bigFloat v =>
    simp only [encodeAscending, encodeBigfloat, typeTag]
    split_ifs
    · exact ⟨[], rfl⟩
    · exact ⟨[], rfl⟩
    · exact ⟨[], rfl⟩
    · exact ⟨[], rfl⟩
    · exact ⟨_, rfl⟩
    · exact ⟨_, rfl⟩
  case rational v =>
    simp only [encodeAscending, encodeRational, typeTag]
    split
    · exact ⟨[], rfl⟩
    · exact ⟨_, List.append_assoc _ _ _⟩
  case time v => exact ⟨_, List.append_assoc _ _ _⟩
  case dateTime v =>
    refine ⟨pushSigned (Scalar.toBeBytes (numDaysFromCe (date v))) ++
      (Scalar.toBeBytes (numSecondsFromMidnight (time v)) ++
        Scalar.toBeBytes (nanosecond (time v))), ?_⟩
    simp only [encodeAscending, typeTag, List.append_assoc]
  all_goals exact ⟨_, rfl⟩

/-- The tag decides between variants. -/
theorem encodeAscending_below_of_tag {a b : Scalar} (h : typeTag a < typeTag b) :
    Below (encodeAscending a) (encodeAscending b) := by
  obtain ⟨u, hu⟩ := encodeAscending_eq a
  obtain ⟨v, hv⟩ := encodeAscending_eq b
  rw [hu, hv]
  exact (be_below (w := 1) (by simpa using typeTag_lt b) h).append u v

/-! ## Prefix-freeness -/

/-- A finite, non-zero decimal float. -/
structure Finite (v : BigFloat) : Prop where
  not_nan : isNan v = false
  not_infPos : isInfPos v = false
  not_infNeg : isInfNeg v = false
  not_zero : isZero v = false

/-- Decimal floats are numbers: at most forty digits, and the sign, the exponent of the leading
digit and the digits without trailing zeros determine a finite non-zero one. -/
class LawfulFloats : Prop where
  length_le (v : BigFloat) : (mantissaBytes v).length ≤ 40
  digits_inj (v w : BigFloat) : Finite v → Finite w → isNegative v = isNegative w →
    ((mantissaBytes v).length : Int) - 1 + (exponent v).toInt =
      (mantissaBytes w).length - 1 + (exponent w).toInt →
    stripZeros (mantissaBytes v) = stripZeros (mantissaBytes w) → v = w

/-- The magnitudes a scalar is encoded with have fewer than `2 ^ 64` bytes. -/
def Fits : Scalar → Prop
  | .bigInt v => width v.natAbs < 2 ^ 64
  | .rational v => ∀ t ∈ continuedFraction v.num v.den, width t.natAbs < 2 ^ 64
  | _ => True

variable [LawfulExternals] [LawfulFloats]

omit [LawfulExternals] [LawfulFloats] in
/-- The exponent of the leading digit fits in sixteen bits. -/
theorem leadingExponent_toInt {v : BigFloat} (h : (mantissaBytes v).length ≤ 40) :
    (BitVec.ofInt 16 ((mantissaBytes v).length - 1 + (exponent v).toInt)).toInt =
      (mantissaBytes v).length - 1 + (exponent v).toInt := by
  have h2 := BitVec.toInt_lt (x := exponent v)
  have h3 := BitVec.le_toInt (exponent v)
  apply BitVec.toInt_ofInt_eq_self (by norm_num)
  · norm_num at *
    omega
  · norm_num at *
    omega

omit [LawfulExternals] in
theorem floatBody_incomparable {v w : BigFloat} (hv : Finite v) (hw : Finite w)
    (hneg : isNegative v = isNegative w) (h : v ≠ w) : Incomparable (floatBody v) (floatBody w) := by
  by_cases hd : ((mantissaBytes v).length : Int) - 1 + (exponent v).toInt =
      (mantissaBytes w).length - 1 + (exponent w).toInt
  · simp only [floatBody, hd]
    refine (orderedBytes_incomparable ?_).prepend _
    intro hdigits
    exact h (LawfulFloats.digits_inj v w hv hw hneg hd hdigits)
  · refine (pushSigned_incomparable (by norm_num) (by norm_num) ?_).append _ _
    intro he
    have := congrArg BitVec.toInt he
    rw [leadingExponent_toInt (LawfulFloats.length_le v),
      leadingExponent_toInt (LawfulFloats.length_le w)] at this
    exact hd this

omit [LawfulFloats] in
/-- The six classes of decimal floats, each with its tag. -/
theorem encodeBigfloat_cases (v : BigFloat) :
    (typeTag (.bigFloat v) = Tag.bigFloatNan ∧ v = floatNan) ∨
    (typeTag (.bigFloat v) = Tag.bigFloatPosInf ∧ v = floatInfPos) ∨
    (typeTag (.bigFloat v) = Tag.bigFloatNegInf ∧ v = floatInfNeg) ∨
    (typeTag (.bigFloat v) = Tag.bigFloatZero ∧ v = floatZero) ∨
    (typeTag (.bigFloat v) = Tag.bigFloatNeg ∧ Finite v ∧ isNegative v = true ∧
      encodeBigfloat v = be 1 Tag.bigFloatNeg ++ compl (floatBody v)) ∨
    (typeTag (.bigFloat v) = Tag.bigFloatPos ∧ Finite v ∧ isNegative v = false ∧
      encodeBigfloat v = be 1 Tag.bigFloatPos ++ floatBody v) := by
  simp only [typeTag, encodeBigfloat]
  cases hnan : isNan v
  · cases hpos : isInfPos v
    · cases hneg : isInfNeg v
      · cases hzero : isZero v
        · cases hsign : isNegative v
          · exact .inr (.inr (.inr (.inr (.inr ⟨rfl, ⟨hnan, hpos, hneg, hzero⟩, rfl, rfl⟩))))
          · exact .inr (.inr (.inr (.inr (.inl ⟨rfl, ⟨hnan, hpos, hneg, hzero⟩, rfl, rfl⟩))))
        · exact .inr (.inr (.inr (.inl ⟨rfl, LawfulExternals.zero_inv v hzero⟩)))
      · exact .inr (.inr (.inl ⟨rfl, LawfulExternals.infNeg_inv v hneg⟩))
    · exact .inr (.inl ⟨rfl, LawfulExternals.infPos_inv v hpos⟩)
  · exact .inl ⟨rfl, LawfulExternals.nan_inv v hnan⟩

theorem encodeBigfloat_incomparable {v w : BigFloat}
    (ht : typeTag (.bigFloat v) = typeTag (.bigFloat w)) (h : v ≠ w) :
    Incomparable (encodeBigfloat v) (encodeBigfloat w) := by
  rcases encodeBigfloat_cases v with
    ⟨tv, hv⟩ | ⟨tv, hv⟩ | ⟨tv, hv⟩ | ⟨tv, hv⟩ | ⟨tv, fv, sv, ev⟩ | ⟨tv, fv, sv, ev⟩ <;>
  rcases encodeBigfloat_cases w with
    ⟨tw, hw⟩ | ⟨tw, hw⟩ | ⟨tw, hw⟩ | ⟨tw, hw⟩ | ⟨tw, fw, sw, ew⟩ | ⟨tw, fw, sw, ew⟩
  all_goals first
    | exact absurd (tv.symm.trans (ht.trans tw)) (by decide)
    | exact absurd (hv.trans hw.symm) h
    | skip
  · rw [ev, ew]
    exact (floatBody_incomparable fv fw (sv.trans sw.symm) h).compl.prepend _
  · rw [ev, ew]
    exact (floatBody_incomparable fv fw (sv.trans sw.symm) h).prepend _

variable [OrderedExternals]

/-- **No encoding of a scalar is a prefix of another's.** -/
theorem encodeAscending_incomparable {a b : Scalar} (ha : Fits a) (hb : Fits b) (h : a ≠ b) :
    Incomparable (encodeAscending a) (encodeAscending b) := by
  by_cases ht : typeTag a = typeTag b
  · rcases typeTag_ne_or_sameVariant a b with hne | hsame
    · exact absurd ht hne
    · cases hsame with
      | base hs =>
        rcases lt_trichotomy_of_sameBase hs with hlt | heq | hgt
        · exact (encodeAscending_below hs hlt).incomparable
        · exact absurd heq h
        · exact (encodeAscending_below hs.symm hgt).incomparable.symm
      | bigInt a b =>
        exact (encodeSignedInt_incomparable ha hb (fun he => h (congrArg _ he))).prepend _
      | bigFloat a b => exact encodeBigfloat_incomparable ht fun he => h (congrArg _ he)
      | rational a b => exact encodeRational_incomparable ha hb fun he => h (congrArg _ he)
  · rcases Nat.lt_or_gt_of_ne ht with hlt | hgt
    · exact (encodeAscending_below_of_tag hlt).incomparable
    · exact (encodeAscending_below_of_tag hgt).incomparable.symm

end Variants

end Ordered

/-! ## Columns -/

section Columns

open Ordered

variable [Externals] [OrderedExternals]

namespace Scalar

/-- Scalars in index order: by type tag, then within the variant. -/
def Before (a b : Scalar) : Prop := typeTag a < typeTag b ∨ typeTag a = typeTag b ∧ a.Lt b

/-- A scalar of a base variant. -/
def IsBase (a : Scalar) : Prop := a.SameBase a

end Scalar

/-- The order of one column. -/
def Direction.Before : Direction → Scalar → Scalar → Prop
  | .asc, a, b => a.Before b
  | .desc, a, b => b.Before a

/-- The order of column tuples: the first column that differs decides. -/
def TupleLt : List Direction → List Scalar → List Scalar → Prop
  | d :: ds, a :: as, b :: bs => d.Before a b ∨ a = b ∧ TupleLt ds as bs
  | _, _, _ => False

omit [OrderedExternals] in
theorem Scalar.sameBase_of_tag {a b : Scalar} (ha : a.IsBase) (h : typeTag a = typeTag b) :
    a.SameBase b := by
  rcases typeTag_ne_or_sameVariant a b with hne | hsame
  · exact absurd h hne
  · cases hsame with
    | base hs => exact hs
    | bigInt x y => cases ha
    | bigFloat x y => cases ha
    | rational x y => cases ha

theorem Scalar.Before.below {a b : Scalar} (ha : a.IsBase) (h : a.Before b) :
    Bytes.Below (encodeAscending a) (encodeAscending b) := by
  rcases h with htag | ⟨htag, hlt⟩
  · exact encodeAscending_below_of_tag htag
  · exact encodeAscending_below (sameBase_of_tag ha htag) hlt

theorem Scalar.before_trichotomy {a b : Scalar} (ha : a.IsBase) :
    a.Before b ∨ a = b ∨ b.Before a := by
  rcases Nat.lt_trichotomy (typeTag a) (typeTag b) with hlt | heq | hgt
  · exact .inl (.inl hlt)
  · rcases lt_trichotomy_of_sameBase (sameBase_of_tag ha heq) with hab | rfl | hba
    · exact .inl (.inr ⟨heq, hab⟩)
    · exact .inr (.inl rfl)
    · exact .inr (.inr (.inr ⟨heq.symm, hba⟩))
  · exact .inr (.inr (.inl hgt))

theorem Direction.Before.below {d : Direction} {a b : Scalar} (ha : a.IsBase) (hb : b.IsBase)
    (h : d.Before a b) : Bytes.Below (d.encode a) (d.encode b) := by
  cases d with
  | asc => exact Scalar.Before.below ha h
  | desc => exact (Scalar.Before.below hb h).compl

theorem Direction.before_trichotomy {d : Direction} {a b : Scalar} (ha : a.IsBase) :
    d.Before a b ∨ a = b ∨ d.Before b a := by
  cases d with
  | asc => exact Scalar.before_trichotomy ha
  | desc =>
    rcases Scalar.before_trichotomy (b := b) ha with h | h | h
    · exact .inr (.inr h)
    · exact .inr (.inl h)
    · exact .inl h

/-- **Smaller tuples encode below.** -/
theorem TupleLt.below {ds : List Direction} {as bs : List Scalar} (ha : ∀ s ∈ as, s.IsBase)
    (hb : ∀ s ∈ bs, s.IsBase) (h : TupleLt ds as bs) :
    Bytes.Below (encodeColumns ds as) (encodeColumns ds bs) := by
  induction ds generalizing as bs with
  | nil => simp [TupleLt] at h
  | cons d ds ih =>
    cases as with
    | nil => simp [TupleLt] at h
    | cons a as =>
      cases bs with
      | nil => simp [TupleLt] at h
      | cons b bs =>
        rw [TupleLt] at h
        rw [encodeColumns, encodeColumns]
        rcases h with hlt | ⟨rfl, hrest⟩
        · exact (hlt.below (ha a List.mem_cons_self) (hb b List.mem_cons_self)).append _ _
        · refine (ih ?_ ?_ hrest).prepend _
          · exact fun s hs => ha s (List.mem_cons_of_mem _ hs)
          · exact fun s hs => hb s (List.mem_cons_of_mem _ hs)

theorem tupleLt_trichotomy {ds : List Direction} {as bs : List Scalar} (hla : as.length = ds.length)
    (hlb : bs.length = ds.length) (ha : ∀ s ∈ as, s.IsBase) :
    TupleLt ds as bs ∨ as = bs ∨ TupleLt ds bs as := by
  induction ds generalizing as bs with
  | nil =>
    rw [List.length_eq_zero_iff.1 hla, List.length_eq_zero_iff.1 hlb]
    exact .inr (.inl rfl)
  | cons d ds ih =>
    obtain ⟨a, as, rfl⟩ := List.exists_cons_of_length_eq_add_one hla
    obtain ⟨b, bs, rfl⟩ := List.exists_cons_of_length_eq_add_one hlb
    rcases Direction.before_trichotomy (d := d) (b := b) (ha a List.mem_cons_self) with h | rfl | h
    · exact .inl (.inl h)
    · rcases ih (by simpa using hla) (by simpa using hlb)
        (fun s hs => ha s (List.mem_cons_of_mem _ hs)) with h | rfl | h
      · exact .inl (.inr ⟨rfl, h⟩)
      · exact .inr (.inl rfl)
      · exact .inr (.inr (.inr ⟨rfl, h⟩))
    · exact .inr (.inr (.inl h))

theorem encodeColumns_lt_iff {ds : List Direction} {as bs : List Scalar}
    (hla : as.length = ds.length) (hlb : bs.length = ds.length) (ha : ∀ s ∈ as, s.IsBase)
    (hb : ∀ s ∈ bs, s.IsBase) : encodeColumns ds as < encodeColumns ds bs ↔ TupleLt ds as bs := by
  refine ⟨fun hlt => ?_, fun h => (h.below ha hb).lt⟩
  rcases tupleLt_trichotomy hla hlb ha with h | rfl | h
  · exact h
  · exact absurd hlt (lt_irrefl _)
  · exact absurd (h.below hb ha).lt (not_lt_of_gt hlt)

section

variable [LawfulExternals] [LawfulFloats]

theorem encodeScalar_incomparable {a b : Scalar} (ha : Fits a) (hb : Fits b) (h : a ≠ b)
    (desc : Bool) : Bytes.Incomparable (encodeScalar a desc) (encodeScalar b desc) := by
  cases desc with
  | false => exact encodeAscending_incomparable ha hb h
  | true => exact (encodeAscending_incomparable ha hb h).compl

/-- Two tuples of the same columns are equal, or their encodings differ at a byte. -/
theorem encodeColumns_incomparable {ds : List Direction} {as bs : List Scalar} (hla : as.length = ds.length)
    (hlb : bs.length = ds.length) (ha : ∀ s ∈ as, Fits s) (hb : ∀ s ∈ bs, Fits s) (h : as ≠ bs) :
    Bytes.Incomparable (encodeColumns ds as) (encodeColumns ds bs) := by
  induction ds generalizing as bs with
  | nil => exact absurd ((List.length_eq_zero_iff.1 hla).trans (List.length_eq_zero_iff.1 hlb).symm) h
  | cons d ds ih =>
    obtain ⟨a, as, rfl⟩ := List.exists_cons_of_length_eq_add_one hla
    obtain ⟨b, bs, rfl⟩ := List.exists_cons_of_length_eq_add_one hlb
    rw [List.forall_mem_cons] at ha hb
    rw [encodeColumns, encodeColumns]
    by_cases hab : a = b
    · subst hab
      refine (ih (by simpa using hla) (by simpa using hlb) ha.2 hb.2 fun heq => h ?_).prepend _
      rw [heq]
    · exact (encodeScalar_incomparable ha.1 hb.1 hab _).append _ _

/-- **Leading columns encode to a start of the key exactly if the tuple starts with them.** -/
theorem encodeColumns_start_iff {ds : List Direction} {ps ss : List Scalar} (hps : ps.length ≤ ds.length)
    (hss : ss.length = ds.length) (hp : ∀ s ∈ ps, Fits s) (hs : ∀ s ∈ ss, Fits s) (tail : Bytes) :
    encodeColumns ds ps <+: encodeColumns ds ss ++ tail ↔ ps <+: ss := by
  induction ds generalizing ps ss with
  | nil =>
    rw [List.length_eq_zero_iff.1 (Nat.le_zero.1 hps)]
    exact iff_of_true List.nil_prefix List.nil_prefix
  | cons d ds ih =>
    obtain ⟨s, ss, rfl⟩ := List.exists_cons_of_length_eq_add_one hss
    cases ps with
    | nil => exact iff_of_true List.nil_prefix List.nil_prefix
    | cons p ps =>
      rw [List.forall_mem_cons] at hp hs
      rw [encodeColumns, encodeColumns, List.append_assoc, List.cons_prefix_cons]
      by_cases hne : p = s
      · subst hne
        rw [List.prefix_append_right_inj, ih (by simpa using hps) (by simpa using hss) hp.2 hs.2]
        exact (and_iff_right rfl).symm
      · have hapart := (encodeScalar_incomparable hp.1 hs.1 hne (d = .desc)).append (encodeColumns ds ps)
          (encodeColumns ds ss ++ tail)
        exact iff_of_false hapart.1 fun h => hne h.1

end

end Columns

/-! ## The reference instance -/

namespace Reference

open Ordered

theorem natKey_inj {w : Nat} : Function.Injective (BitVec.toNat (w := w)) :=
  fun _ _ => BitVec.eq_of_toNat_eq

theorem intKey_inj {w : Nat} : Function.Injective (BitVec.toInt (n := w)) :=
  fun _ _ => BitVec.eq_of_toInt_eq

/-- Dates by day number, times by seconds then nanoseconds, durations by total nanoseconds. -/
@[reducible] def ordered : letI := externals; OrderedExternals :=
  letI := externals
  letI linDate : LinearOrder (BitVec 32) := LinearOrder.lift' BitVec.toInt intKey_inj
  letI linTime : LinearOrder (BitVec 32 × BitVec 32) :=
    LinearOrder.lift' (fun t => toLex (t.1.toNat, t.2.toNat)) fun t u h => by
      obtain ⟨h1, h2⟩ := Prod.mk.inj (toLex.injective h)
      exact Prod.ext (natKey_inj h1) (natKey_inj h2)
  letI linDateTime : LinearOrder (BitVec 32 × (BitVec 32 × BitVec 32)) :=
    LinearOrder.lift' (fun v => toLex (v.1.toInt, toLex (v.2.1.toNat, v.2.2.toNat)))
      fun v w h => by
        obtain ⟨h1, h2⟩ := Prod.mk.inj (toLex.injective h)
        obtain ⟨h3, h4⟩ := Prod.mk.inj (toLex.injective h2)
        exact Prod.ext (intKey_inj h1) (Prod.ext (natKey_inj h3) (natKey_inj h4))
  { linDate := linDate
    linTime := linTime
    linDateTime := linDateTime
    linDelta := inferInstanceAs (LinearOrder TimeDelta)
    date_lt := fun a b => Iff.rfl
    time_lt := by
      intro a b
      show toLex (a.1.toNat, a.2.toNat) < toLex (b.1.toNat, b.2.toNat) ↔ _
      rw [Prod.Lex.toLex_lt_toLex]
      exact or_congr Iff.rfl (and_congr natKey_inj.eq_iff Iff.rfl)
    dateTime_lt := by
      intro a b
      show toLex (a.1.toInt, toLex (a.2.1.toNat, a.2.2.toNat)) <
        toLex (b.1.toInt, toLex (b.2.1.toNat, b.2.2.toNat)) ↔ _
      rw [Prod.Lex.toLex_lt_toLex]
      exact or_congr Iff.rfl (and_congr intKey_inj.eq_iff Iff.rfl)
    delta_lt := by
      intro a b
      show a.1 < b.1 ↔ (numSeconds a).toInt * 1000000000 + (subsecNanos a).toInt <
        (numSeconds b).toInt * 1000000000 + (subsecNanos b).toInt
      rw [total_eq, total_eq] }

theorem stripZeros_digits (m : Digits) : stripZeros m.1 = m.1 := by
  obtain ⟨m, hlen, hlast⟩ := m
  cases m with
  | nil => rfl
  | cons b rest =>
    rcases List.eq_nil_or_concat rest with rfl | ⟨init, last, rfl⟩
    · rfl
    · have hne : last ≠ 0 := by
        intro h0
        apply hlast
        rw [List.concat_eq_append, ← List.cons_append, List.getLast?_concat, h0]
      simp [stripZeros, hne]

theorem lawfulFloats : letI := externals; LawfulFloats :=
  letI := externals
  { length_le := by
      intro v
      cases v with
      | num neg mantissa exponent => exact mantissa.2.1
      | nan | infPos | infNeg | zero => exact Nat.zero_le _
    digits_inj := by
      intro v w hv hw hneg hexp hdigits
      cases v with
      | nan => cases hv.not_nan
      | infPos => cases hv.not_infPos
      | infNeg => cases hv.not_infNeg
      | zero => cases hv.not_zero
      | num n m e =>
        cases w with
        | nan => cases hw.not_nan
        | infPos => cases hw.not_infPos
        | infNeg => cases hw.not_infNeg
        | zero => cases hw.not_zero
        | num n' m' e' =>
          have hm : m.1 = m'.1 := by
            rw [← stripZeros_digits m, ← stripZeros_digits m']
            exact hdigits
          have he : e.toInt = e'.toInt := by
            have hexp' : (m.1.length : Int) - 1 + e.toInt = m'.1.length - 1 + e'.toInt := hexp
            rw [hm] at hexp'
            omega
          rw [show n = n' from hneg, Subtype.ext hm, BitVec.eq_of_toInt_eq he] }

end Reference

end ArborDb
