import ArborDb.Index.Order
import ArborDb.Lib.Radix
import Mathlib.Data.List.TakeWhile
import Mathlib.Tactic.Order

/-!
# Index keys of decimal floats are order-exact

A finite number is keyed by the exponent of its leading digit and its digits without trailing zeros,
which is its scientific form (`Radix.significand`). The class tags put the infinities, the signs and
zero in their places.
-/

namespace ArborDb

open Externals Bytes Radix

namespace Ordered

/-! ## Classes of numbers -/

/-- The class tag that the place of a number gives it. -/
def classTag (x : WithBot (WithTop Rat)) : Nat :=
  if x = ⊥ then Tag.bigFloatNegInf
  else if x < 0 then Tag.bigFloatNeg
  else if x = 0 then Tag.bigFloatZero
  else if x < ⊤ then Tag.bigFloatPos
  else Tag.bigFloatPosInf

theorem classTag_neg {q : Rat} (h : q < 0) : classTag ((q : WithTop Rat)) = Tag.bigFloatNeg := by
  have hlt : ((q : WithTop Rat) : WithBot (WithTop Rat)) < 0 := by exact_mod_cast h
  rw [classTag, if_neg WithBot.coe_ne_bot, if_pos hlt]

theorem classTag_pos {q : Rat} (h : 0 < q) : classTag ((q : WithTop Rat)) = Tag.bigFloatPos := by
  have hlt : (0 : WithBot (WithTop Rat)) < ((q : WithTop Rat) : WithBot (WithTop Rat)) := by
    exact_mod_cast h
  have htop : ((q : WithTop Rat) : WithBot (WithTop Rat)) < ⊤ :=
    WithBot.coe_lt_coe.2 (WithTop.coe_lt_top q)
  rw [classTag, if_neg WithBot.coe_ne_bot, if_neg hlt.not_gt, if_neg hlt.ne', if_pos htop]

/-- The class tags are in the order of the numbers. -/
theorem classTag_mono {x y : WithBot (WithTop Rat)} (h : x ≤ y) : classTag x ≤ classTag y := by
  unfold classTag
  split_ifs
  all_goals first
    | decide
    | order

/-! ## Digits without trailing zeros -/

/-- What is stripped is zeros, and what is left does not end in one. -/
theorem stripZeros_spec {d : UInt8} {l : Bytes} (hd : d ≠ 0) :
    ∃ z, d :: l = stripZeros (d :: l) ++ z ∧ (∀ x ∈ z, x = 0) ∧
      (stripZeros (d :: l)).getLast? ≠ some 0 ∧ ∃ rest, stripZeros (d :: l) = d :: rest := by
  refine ⟨(l.reverse.takeWhile (· = 0)).reverse, ?_, ?_, ?_, ?_⟩
  · simp only [stripZeros, List.take_succ_cons, List.take_zero, List.drop_succ_cons, List.drop_zero,
      List.singleton_append]
    rw [List.cons_append, ← List.reverse_append, List.takeWhile_append_dropWhile,
      List.reverse_reverse]
  · intro x hx
    simpa using List.mem_takeWhile_imp (List.mem_reverse.1 hx)
  · simp only [stripZeros, List.take_succ_cons, List.take_zero, List.drop_succ_cons, List.drop_zero,
      List.singleton_append]
    cases hr : l.reverse.dropWhile (· = 0) with
    | nil => simpa using hd
    | cons e r =>
      have he := List.head_dropWhile_not (p := (· = 0)) (l := l.reverse) (by rw [hr]; simp)
      simp only [hr, List.head_cons] at he
      rw [List.reverse_cons, ← List.cons_append, List.getLast?_concat]
      simpa using he
  · exact ⟨_, rfl⟩

section Decimals

variable [Externals]

/-- What the digits of a finite number are: at most forty decimal digits, most significant first,
the leading one not zero. -/
structure HasDigits (v : BigFloat) : Prop where
  length_le : (mantissaBytes v).length ≤ 40
  digits : IsDigits 10 (mantissaBytes v)
  leading : ∃ d rest, mantissaBytes v = d :: rest ∧ d ≠ 0

/-- The magnitude of a finite number: its digits, scaled by its exponent. -/
def magnitude (v : BigFloat) : Rat :=
  ofDigits 10 (mantissaBytes v) * (10 : Rat) ^ (exponent v).toInt

/-- The number a float stands for, between the two infinities. -/
def number (v : BigFloat) : WithBot (WithTop Rat) :=
  if isInfPos v then ⊤
  else if isInfNeg v then ⊥
  else if isZero v then ((0 : Rat) : WithTop Rat)
  else if isNegative v then ((-magnitude v : Rat) : WithTop Rat)
  else ((magnitude v : Rat) : WithTop Rat)

/-! ## Finite magnitudes -/

/-- The scientific form of a magnitude. -/
theorem magnitude_eq {v : BigFloat} (h : HasDigits v) :
    magnitude v = significand 10 (stripZeros (mantissaBytes v)) *
      ((10 : Nat) : Rat) ^ (((mantissaBytes v).length : Int) - 1 + (exponent v).toInt) := by
  obtain ⟨d, l, hv, hd⟩ := h.leading
  obtain ⟨z, hsplit, hz, -, -⟩ := stripZeros_spec (l := l) hd
  rw [magnitude, show (10 : Rat) = ((10 : Nat) : Rat) by norm_num,
    ofDigits_mul_zpow (by norm_num)]
  congr 1
  rw [hv]
  nth_rewrite 1 [hsplit]
  exact significand_append_zeros _ hz

/-- The scientific form is normal: the significand is between one and ten. -/
theorem stripZeros_normal {v : BigFloat} (h : HasDigits v) :
    IsDigits 10 (stripZeros (mantissaBytes v)) ∧
    (stripZeros (mantissaBytes v)).getLast? ≠ some 0 ∧
    1 ≤ significand 10 (stripZeros (mantissaBytes v)) ∧
    significand 10 (stripZeros (mantissaBytes v)) < (10 : Nat) := by
  obtain ⟨d, l, hv, hd⟩ := h.leading
  obtain ⟨z, hsplit, -, hlast, rest, hrest⟩ := stripZeros_spec (l := l) hd
  have hdigits : IsDigits 10 (stripZeros (mantissaBytes v)) := by
    intro x hx
    apply h.digits
    rw [hv] at hx ⊢
    rw [hsplit]
    exact List.mem_append_left z hx
  refine ⟨hdigits, by rwa [hv], ?_, significand_lt (by norm_num) hdigits⟩
  rw [hv, hrest]
  exact one_le_significand hd

theorem magnitude_pos {v : BigFloat} (h : HasDigits v) : 0 < magnitude v := by
  rw [magnitude_eq h]
  have hone := (stripZeros_normal h).2.2.1
  exact mul_pos (by linarith) (zpow_pos (by norm_num) _)

/-- **The body of a smaller magnitude is below, and equal magnitudes have one body.** -/
theorem floatBody_exact {v w : BigFloat} (hv : HasDigits v) (hw : HasDigits w) :
    (magnitude v < magnitude w → Below (floatBody v) (floatBody w)) ∧
    (magnitude v = magnitude w → floatBody v = floatBody w) := by
  obtain ⟨hdv, hlastv, honev, hltv⟩ := stripZeros_normal hv
  obtain ⟨hdw, hlastw, honew, hltw⟩ := stripZeros_normal hw
  have hev := leadingExponent_toInt hv.length_le
  have hew := leadingExponent_toInt hw.length_le
  rw [magnitude_eq hv, magnitude_eq hw]
  simp only [floatBody]
  generalize ((mantissaBytes v).length : Int) - 1 + (exponent v).toInt = d at *
  generalize ((mantissaBytes w).length : Int) - 1 + (exponent w).toInt = e at *
  generalize stripZeros (mantissaBytes v) = s at *
  generalize stripZeros (mantissaBytes w) = t at *
  have hpos : (0 : Rat) < ((10 : Nat) : Rat) ^ e := zpow_pos (by norm_num) e
  -- The exponents decide where they differ, the digits where they do not.
  rcases lt_trichotomy d e with hde | rfl | hde
  · have hlt := scientific_lt (by norm_num) hltv honew hde
    refine ⟨fun _ => ?_, fun heq => absurd heq hlt.ne⟩
    apply Below.append
    exact pushSigned_below (by norm_num) (by norm_num) (by rwa [hev, hew])
  · rcases lt_trichotomy s t with hst | rfl | hst
    · have hlt := mul_lt_mul_of_pos_right
        (significand_lt_of_lt (by norm_num) hdv hlastw hst) hpos
      exact ⟨fun _ => (orderedBytes_below hst).prepend _, fun heq => absurd heq hlt.ne⟩
    · exact ⟨fun hlt => absurd hlt (lt_irrefl _), fun _ => rfl⟩
    · have hgt := mul_lt_mul_of_pos_right
        (significand_lt_of_lt (by norm_num) hdw hlastv hst) hpos
      exact ⟨fun hlt => absurd hlt hgt.not_gt, fun heq => absurd heq hgt.ne'⟩
  · have hgt := scientific_lt (by norm_num) hltw honev hde
    exact ⟨fun hlt => absurd hlt hgt.not_gt, fun heq => absurd heq hgt.ne'⟩

/-! ## The order of the keys -/

/-- The five classes of floats that are numbers: the tag, the place and the key of each. -/
theorem number_cases {v : BigFloat} (hnan : isNan v = false) (hd : Finite v → HasDigits v) :
    (classTag (number v) = Tag.bigFloatPosInf ∧ number v = ⊤ ∧
      encodeBigfloat v = be 1 Tag.bigFloatPosInf) ∨
    (classTag (number v) = Tag.bigFloatNegInf ∧ number v = ⊥ ∧
      encodeBigfloat v = be 1 Tag.bigFloatNegInf) ∨
    (classTag (number v) = Tag.bigFloatZero ∧ number v = ((0 : Rat) : WithTop Rat) ∧
      encodeBigfloat v = be 1 Tag.bigFloatZero) ∨
    (classTag (number v) = Tag.bigFloatNeg ∧ number v = ((-magnitude v : Rat) : WithTop Rat) ∧
      HasDigits v ∧ encodeBigfloat v = be 1 Tag.bigFloatNeg ++ compl (floatBody v)) ∨
    (classTag (number v) = Tag.bigFloatPos ∧ number v = ((magnitude v : Rat) : WithTop Rat) ∧
      HasDigits v ∧ encodeBigfloat v = be 1 Tag.bigFloatPos ++ floatBody v) := by
  simp only [number, encodeBigfloat, hnan, Bool.false_eq_true, if_false]
  cases hpos : isInfPos v with
  | true => exact .inl ⟨rfl, rfl, rfl⟩
  | false =>
    cases hneg : isInfNeg v with
    | true => exact .inr (.inl ⟨rfl, rfl, rfl⟩)
    | false =>
      cases hzero : isZero v with
      | true => exact .inr (.inr (.inl ⟨rfl, rfl, rfl⟩))
      | false =>
        have hdigits := hd ⟨hnan, hpos, hneg, hzero⟩
        have hmag := magnitude_pos hdigits
        cases isNegative v with
        | true =>
          exact .inr (.inr (.inr (.inl ⟨classTag_neg (neg_neg_of_pos hmag), rfl, hdigits, rfl⟩)))
        | false =>
          exact .inr (.inr (.inr (.inr ⟨classTag_pos hmag, rfl, hdigits, rfl⟩)))

/-- The key starts with the class tag of the number. -/
theorem encodeBigfloat_tag {v : BigFloat} (hnan : isNan v = false) (hd : Finite v → HasDigits v) :
    ∃ body, encodeBigfloat v = be 1 (classTag (number v)) ++ body := by
  rcases number_cases hnan hd with ⟨ht, -, he⟩ | ⟨ht, -, he⟩ | ⟨ht, -, he⟩ | ⟨ht, -, -, he⟩ |
    ⟨ht, -, -, he⟩
  · exact ⟨[], by rw [he, ht, List.append_nil]⟩
  · exact ⟨[], by rw [he, ht, List.append_nil]⟩
  · exact ⟨[], by rw [he, ht, List.append_nil]⟩
  · exact ⟨_, by rw [he, ht]⟩
  · exact ⟨_, by rw [he, ht]⟩

/-- Within a class, the body decides. -/
theorem encodeBigfloat_within {v w : BigFloat} (hv : isNan v = false) (hw : isNan w = false)
    (hdv : Finite v → HasDigits v) (hdw : Finite w → HasDigits w)
    (ht : classTag (number v) = classTag (number w)) :
    (number v < number w → Below (encodeBigfloat v) (encodeBigfloat w)) ∧
    (number v = number w → encodeBigfloat v = encodeBigfloat w) := by
  rcases number_cases hv hdv with
    ⟨tv, nv, ev⟩ | ⟨tv, nv, ev⟩ | ⟨tv, nv, ev⟩ | ⟨tv, nv, dv, ev⟩ | ⟨tv, nv, dv, ev⟩ <;>
  rcases number_cases hw hdw with
    ⟨tw, nw, ew⟩ | ⟨tw, nw, ew⟩ | ⟨tw, nw, ew⟩ | ⟨tw, nw, dw, ew⟩ | ⟨tw, nw, dw, ew⟩
  all_goals first
    | exact absurd (tv.symm.trans (ht.trans tw)) (by decide)
    | exact ⟨fun h => absurd (h.trans_eq (nw.trans nv.symm)) (lt_irrefl _), fun _ => ev.trans ew.symm⟩
    | rw [nv, nw, ev, ew]
  · constructor
    · intro h
      have hmag : magnitude w < magnitude v := by
        have : (-magnitude v : Rat) < -magnitude w := by exact_mod_cast h
        linarith
      exact ((floatBody_exact dw dv).1 hmag).compl.prepend _
    · intro h
      have hmag : magnitude v = magnitude w := by
        have : (-magnitude v : Rat) = -magnitude w := by exact_mod_cast h
        linarith
      rw [(floatBody_exact dv dw).2 hmag]
  · constructor
    · intro h
      have hmag : magnitude v < magnitude w := by exact_mod_cast h
      exact ((floatBody_exact dv dw).1 hmag).prepend _
    · intro h
      have hmag : magnitude v = magnitude w := by exact_mod_cast h
      rw [(floatBody_exact dv dw).2 hmag]

theorem encodeBigfloat_below {v w : BigFloat} (hv : isNan v = false) (hw : isNan w = false)
    (hdv : Finite v → HasDigits v) (hdw : Finite w → HasDigits w) (h : number v < number w) :
    Below (encodeBigfloat v) (encodeBigfloat w) := by
  rcases (classTag_mono h.le).lt_or_eq with hlt | heq
  · obtain ⟨b, hb⟩ := encodeBigfloat_tag hv hdv
    obtain ⟨c, hc⟩ := encodeBigfloat_tag hw hdw
    have hbyte : classTag (number w) < 256 ^ 1 := by
      unfold classTag
      split_ifs <;> decide
    rw [hb, hc]
    exact (be_below hbyte hlt).append b c
  · exact (encodeBigfloat_within hv hw hdv hdw heq).1 h

/-- **Big-float keys are order-exact.** The keys of floats that are numbers, the infinities
included, compare as the numbers, are equal exactly for equal numbers and otherwise
prefix-incomparable. -/
theorem encodeBigfloat_order (v w : BigFloat) (hv : isNan v = false) (hw : isNan w = false)
    (hdv : Finite v → HasDigits v) (hdw : Finite w → HasDigits w) :
    (encodeBigfloat v < encodeBigfloat w ↔ number v < number w) ∧
    (encodeBigfloat v = encodeBigfloat w ↔ number v = number w) ∧
    (number v ≠ number w →
      ¬ encodeBigfloat v <+: encodeBigfloat w ∧ ¬ encodeBigfloat w <+: encodeBigfloat v) := by
  obtain ⟨hlt, heq, hinc, -⟩ := exact_of_below (encodeBigfloat_below hv hw hdv hdw)
    (encodeBigfloat_below hw hv hdw hdv)
    fun h => (encodeBigfloat_within hv hw hdv hdw (congrArg classTag h)).2 h
  exact ⟨hlt, heq, hinc⟩

end Decimals

/-- `1.05` below `1.1`, of different lengths and stored exponents. -/
theorem encodeBigfloat_order_inner_zero : letI := Reference.externals
    letI v : BigFloat := Reference.BigFloat.num false ⟨[1, 0, 5], by decide⟩ (-2)
    letI w : BigFloat := Reference.BigFloat.num false ⟨[1, 1], by decide⟩ (-1)
    (encodeBigfloat v < encodeBigfloat w ↔ number v < number w) ∧
    (encodeBigfloat v = encodeBigfloat w ↔ number v = number w) ∧
    (number v ≠ number w →
      ¬ encodeBigfloat v <+: encodeBigfloat w ∧ ¬ encodeBigfloat w <+: encodeBigfloat v) := by
  let _ := Reference.externals
  apply encodeBigfloat_order
  · rfl
  · rfl
  · intro _
    exact ⟨by decide, by decide, 1, [0, 5], rfl, by decide⟩
  · intro _
    exact ⟨by decide, by decide, 1, [1], rfl, by decide⟩

end Ordered

end ArborDb
