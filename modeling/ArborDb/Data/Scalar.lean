import ArborDb.Data.External
import ArborDb.Codec.Reader
import ArborDb.Lib.Str

/-!
# Scalars and their storage encoding

A scalar is the content of a leaf vnode. `Scalar.encode` writes a tag byte and a body;
`Scalar.decode` reads them back (`Scalar.reads_encode`). Machine integers and floats are the bit
vectors of their representation.
-/

namespace ArborDb

open Externals

/-- A persisted scalar value. -/
inductive Scalar [Externals] where
  | null
  | bool (v : Bool)
  | i8 (v : BitVec 8)
  | i16 (v : BitVec 16)
  | i32 (v : BitVec 32)
  | i64 (v : BitVec 64)
  | i128 (v : BitVec 128)
  | u8 (v : BitVec 8)
  | u16 (v : BitVec 16)
  | u32 (v : BitVec 32)
  | u64 (v : BitVec 64)
  | u128 (v : BitVec 128)
  /-- A 32-bit float, by its bits. -/
  | f32 (v : BitVec 32)
  /-- A 64-bit float, by its bits. -/
  | f64 (v : BitVec 64)
  | str (v : Str)
  | bytes (v : Bytes)
  | uuid (v : BitVec 128)
  | date (v : NaiveDate)
  | time (v : NaiveTime)
  | dateTime (v : DateTime)
  | duration (v : TimeDelta)
  | bigInt (v : Int)
  | bigFloat (v : BigFloat)
  | rational (v : Rat)
  deriving DecidableEq

namespace Scalar

/-! ## Storage tags -/

namespace Tag

def null := 0
def bool := 1
def i8 := 2
def i16 := 3
def i32 := 4
def i64 := 5
def i128 := 6
def u8 := 7
def u16 := 8
def u32 := 9
def u64 := 10
def u128 := 11
def f32 := 12
def f64 := 13
def str := 14
def bytes := 15
def uuid := 16
def date := 17
def time := 18
def dateTime := 19
def duration := 20
def bigInt := 21
def bigFloatZero := 22
def bigFloatPos := 23
def bigFloatNeg := 24
def bigFloatNan := 25
def bigFloatInfPos := 26
def bigFloatInfNeg := 27
def bigRational := 28

end Tag

/-- A tag byte followed by a body. -/
def tagged (tag : Nat) (body : Bytes) : Bytes := Bytes.be 1 tag ++ body

/-- The big-endian bytes of a machine word (`to_be_bytes`). -/
def toBeBytes {w : Nat} (v : BitVec w) : Bytes := Bytes.be (w / 8) v.toNat

@[simp] theorem length_tagged (tag : Nat) (body : Bytes) :
    (tagged tag body).length = body.length + 1 := by
  simp [tagged, Nat.add_comm]

section Encode

variable [Externals]

/-! ## Encoding -/

/-- The storage encoding of a decimal float: the special values have their own tags. -/
def encodeFloat (v : BigFloat) : Bytes :=
  if isNan v then tagged Tag.bigFloatNan []
  else if isInfPos v then tagged Tag.bigFloatInfPos []
  else if isInfNeg v then tagged Tag.bigFloatInfNeg []
  else if isZero v then tagged Tag.bigFloatZero []
  else
    tagged (if isNegative v then Tag.bigFloatNeg else Tag.bigFloatPos)
      (toBeBytes (exponent v) ++ putBytes (mantissaBytes v))

/-- The exact storage encoding of a scalar. -/
def encode : Scalar → Bytes
  | .null => tagged Tag.null []
  | .bool v => tagged Tag.bool (Bytes.be 1 v.toNat)
  | .i8 v => tagged Tag.i8 (toBeBytes v)
  | .i16 v => tagged Tag.i16 (toBeBytes v)
  | .i32 v => tagged Tag.i32 (toBeBytes v)
  | .i64 v => tagged Tag.i64 (toBeBytes v)
  | .i128 v => tagged Tag.i128 (toBeBytes v)
  | .u8 v => tagged Tag.u8 (toBeBytes v)
  | .u16 v => tagged Tag.u16 (toBeBytes v)
  | .u32 v => tagged Tag.u32 (toBeBytes v)
  | .u64 v => tagged Tag.u64 (toBeBytes v)
  | .u128 v => tagged Tag.u128 (toBeBytes v)
  | .f32 v => tagged Tag.f32 (toBeBytes v)
  | .f64 v => tagged Tag.f64 (toBeBytes v)
  | .str v => tagged Tag.str (putBytes v.bytes)
  | .bytes v => tagged Tag.bytes (putBytes v)
  | .uuid v => tagged Tag.uuid (toBeBytes v)
  | .date v => tagged Tag.date (toBeBytes (numDaysFromCe v))
  | .time v => tagged Tag.time (toBeBytes (numSecondsFromMidnight v) ++ toBeBytes (nanosecond v))
  | .dateTime v =>
    tagged Tag.dateTime (toBeBytes (numDaysFromCe (Externals.date v)) ++
      (toBeBytes (numSecondsFromMidnight (Externals.time v)) ++
        toBeBytes (nanosecond (Externals.time v))))
  | .duration v => tagged Tag.duration (toBeBytes (numSeconds v) ++ toBeBytes (subsecNanos v))
  | .bigInt v => tagged Tag.bigInt (putBytes (toSignedBytesBe v))
  | .bigFloat v => encodeFloat v
  | .rational v =>
    tagged Tag.bigRational (putBytes (toSignedBytesBe v.num) ++ putBytes (toSignedBytesBe v.den))

end Encode

/-! ## Decoding -/

/-- A machine word read big-endian (`from_be_bytes`). -/
def readWord (w : Nat) : ReadM (BitVec w) := do
  let n ← Reader.word (w / 8)
  return BitVec.ofNat w n

/-- An optional result, or an error. -/
def orError {α : Type} (o : Option α) (e : AdbError) : ReadM α :=
  match o with
  | some a => pure a
  | none => throw e

theorem reads_word {w : Nat} (hw : w % 8 = 0) (v : BitVec w) :
    Reads (readWord w) (toBeBytes v) v := by
  have hv : v.toNat < 256 ^ (w / 8) := by
    have h256 : (256 : Nat) ^ (w / 8) = 2 ^ w := by
      rw [show (256 : Nat) = 2 ^ 8 by norm_num, ← pow_mul]
      congr 1
      omega
    rw [h256]
    exact v.isLt
  have h := (Reads.word hv).map (f := BitVec.ofNat w)
  rwa [BitVec.ofNat_toNat, BitVec.setWidth_eq] at h

theorem reads_orError {α : Type} {o : Option α} {a : α} {e : AdbError} (h : o = some a) :
    Reads (orError o e) [] a := by
  subst h
  exact Reads.pure a

/-- `BigRational::new`: panics on a zero denominator, reduces otherwise. -/
def newRational (num den : Int) : Option Rat :=
  if den = 0 then none else some (Rat.divInt num den)

theorem newRational_num_den (q : Rat) : newRational q.num q.den = some q := by
  have hden : (q.den : Int) ≠ 0 := by exact_mod_cast q.den_nz
  rw [newRational, if_neg hden, Rat.num_divInt_den]

variable [Externals]

def decodeTime : ReadM NaiveTime := do
  let secs ← readWord 32
  let nanos ← readWord 32
  orError (fromNumSecondsFromMidnightOpt secs nanos) (.corrupt "out-of-range time scalar")

/-- Decodes the body of a scalar whose tag byte has been read. -/
def decodeBody (tag : Nat) : ReadM Scalar :=
  if tag = Tag.null then return .null
  else if tag = Tag.bool then do return .bool ((← Reader.u8) != 0)
  else if tag = Tag.i8 then do return .i8 (← readWord 8)
  else if tag = Tag.i16 then do return .i16 (← readWord 16)
  else if tag = Tag.i32 then do return .i32 (← readWord 32)
  else if tag = Tag.i64 then do return .i64 (← readWord 64)
  else if tag = Tag.i128 then do return .i128 (← readWord 128)
  else if tag = Tag.u8 then do return .u8 (← readWord 8)
  else if tag = Tag.u16 then do return .u16 (← readWord 16)
  else if tag = Tag.u32 then do return .u32 (← readWord 32)
  else if tag = Tag.u64 then do return .u64 (← readWord 64)
  else if tag = Tag.u128 then do return .u128 (← readWord 128)
  else if tag = Tag.f32 then do return .f32 (← readWord 32)
  else if tag = Tag.f64 then do return .f64 (← readWord 64)
  else if tag = Tag.str then do
    let b ← Reader.bytes
    let s ← orError (Str.fromUtf8 b) (.corrupt "invalid utf-8 in string scalar")
    return .str s
  else if tag = Tag.bytes then do return .bytes (← Reader.bytes)
  else if tag = Tag.uuid then do return .uuid (← readWord 128)
  else if tag = Tag.date then do
    let days ← readWord 32
    let d ← orError (fromNumDaysFromCeOpt days) (.corrupt "out-of-range date scalar")
    return .date d
  else if tag = Tag.time then do return .time (← decodeTime)
  else if tag = Tag.dateTime then do
    let days ← readWord 32
    let d ← orError (fromNumDaysFromCeOpt days) (.corrupt "out-of-range datetime scalar")
    let t ← decodeTime
    return .dateTime (andUtc d t)
  else if tag = Tag.duration then do
    let secs ← readWord 64
    let nanos ← readWord 32
    let whole ← orError (seconds secs) (.panic "TimeDelta::seconds out of bounds")
    let sum ← orError (addDelta whole (nanoseconds (nanos.signExtend 64)))
      (.panic "`TimeDelta + TimeDelta` overflowed")
    return .duration sum
  else if tag = Tag.bigInt then do return .bigInt (fromSignedBytesBe (← Reader.bytes))
  else if tag = Tag.bigFloatZero then return .bigFloat floatZero
  else if tag = Tag.bigFloatNan then return .bigFloat floatNan
  else if tag = Tag.bigFloatInfPos then return .bigFloat floatInfPos
  else if tag = Tag.bigFloatInfNeg then return .bigFloat floatInfNeg
  else if tag = Tag.bigFloatPos then do
    let exponent ← readWord 8
    let mantissa ← Reader.bytes
    return .bigFloat (fromMantissa mantissa false exponent)
  else if tag = Tag.bigFloatNeg then do
    let exponent ← readWord 8
    let mantissa ← Reader.bytes
    return .bigFloat (fromMantissa mantissa true exponent)
  else if tag = Tag.bigRational then do
    let num ← Reader.bytes
    let den ← Reader.bytes
    let q ← orError (newRational (fromSignedBytesBe num) (fromSignedBytesBe den))
      (.panic "denominator == 0")
    return .rational q
  else throw (.corrupt ("unknown scalar tag " ++ toString tag))

/-- Decodes a scalar previously written by `encode`. -/
def decode : ReadM Scalar := do
  let tag ← Reader.u8
  decodeBody tag

/-! ## Reading back what was written -/

theorem reads_tagged {tag : Nat} {body : Bytes} {s : Scalar} (ht : tag < 256)
    (h : Reads (decodeBody tag) body s) : Reads decode (tagged tag body) s :=
  (Reads.word (w := 1) (by simpa using ht)).bind h

/-- A scalar that a format of plain data has: not an identifier, a calendar type or a big number. -/
def Native : Scalar → Prop
  | uuid _ | date _ | time _ | dateTime _ | duration _ | bigInt _ | bigFloat _ | rational _ => False
  | _ => True

/-- Such a scalar is read back without the third-party crates. -/
theorem reads_native {s : Scalar} (hs : s.Native) (hlen : s.encode.length < 2 ^ 32) : Reads decode s.encode s := by
  cases s with
  | null => exact reads_tagged (by decide) (Reads.pure _)
  | bool v =>
    refine reads_tagged (by decide) ?_
    cases v
    · exact (Reads.word (w := 1) (n := 0) (by decide)).map (f := fun n => Scalar.bool (n != 0))
    · exact (Reads.word (w := 1) (n := 1) (by decide)).map (f := fun n => Scalar.bool (n != 0))
  | i8 v | i16 v | i32 v | i64 v | i128 v | u8 v | u16 v | u32 v | u64 v | u128 v | f32 v | f64 v =>
    exact reads_tagged (by decide) ((reads_word (by norm_num) v).bind_nil (Reads.pure _))
  | str v =>
    simp only [encode, length_tagged, length_putBytes] at hlen
    refine reads_tagged (by decide) ((Reads.bytes (by omega)).bind_nil ?_)
    exact (reads_orError (Str.fromUtf8_bytes v)).bind_nil (Reads.pure _)
  | bytes v =>
    simp only [encode, length_tagged, length_putBytes] at hlen
    exact reads_tagged (by decide) ((Reads.bytes (by omega)).bind_nil (Reads.pure _))
  | _ => exact hs.elim

variable [LawfulExternals]

theorem reads_decodeTime (t : NaiveTime) :
    Reads decodeTime (toBeBytes (numSecondsFromMidnight t) ++ toBeBytes (nanosecond t)) t := by
  refine (reads_word (by norm_num) _).bind ?_
  refine (reads_word (by norm_num) _).bind_nil ?_
  exact reads_orError (LawfulExternals.time_inv t)

theorem reads_encodeFloat {v : BigFloat} (hlen : (encodeFloat v).length < 2 ^ 32) :
    Reads decode (encodeFloat v) (.bigFloat v) := by
  unfold encodeFloat at hlen ⊢
  split_ifs at hlen ⊢ with hnan hpos hneg hzero
  · rw [LawfulExternals.nan_inv v hnan]
    exact reads_tagged (by decide) (Reads.pure _)
  · rw [LawfulExternals.infPos_inv v hpos]
    exact reads_tagged (by decide) (Reads.pure _)
  · rw [LawfulExternals.infNeg_inv v hneg]
    exact reads_tagged (by decide) (Reads.pure _)
  · rw [LawfulExternals.zero_inv v hzero]
    exact reads_tagged (by decide) (Reads.pure _)
  all_goals
    simp only [length_tagged, List.length_append, length_putBytes] at hlen
    simp only [Bool.not_eq_true] at hnan hpos hneg hzero
    have hv := LawfulExternals.mantissa_inv v hnan hpos hneg hzero
    refine reads_tagged (by decide) ?_
    refine (reads_word (by norm_num) (exponent v)).bind ?_
    refine (Reads.bytes (b := mantissaBytes v) (by omega)).bind_nil ?_
  · rename_i hs
    rw [hs] at hv
    rw [hv]
    exact Reads.pure _
  · rename_i hs
    rw [Bool.not_eq_true] at hs
    rw [hs] at hv
    rw [hv]
    exact Reads.pure _

/-- **A scalar is read back from exactly the bytes it was written with.** -/
theorem reads_encode {s : Scalar} (hlen : s.encode.length < 2 ^ 32) : Reads decode s.encode s := by
  cases s with
  | null | bool v | i8 v | i16 v | i32 v | i64 v | i128 v | u8 v | u16 v | u32 v | u64 v | u128 v | f32 v
  | f64 v | str v | bytes v => exact reads_native trivial hlen
  | uuid v => exact reads_tagged (by decide) ((reads_word (by norm_num) v).bind_nil (Reads.pure _))
  | date v =>
    refine reads_tagged (by decide) ((reads_word (by norm_num) _).bind_nil ?_)
    exact (reads_orError (LawfulExternals.date_inv v)).bind_nil (Reads.pure _)
  | time v => exact reads_tagged (by decide) ((reads_decodeTime v).bind_nil (Reads.pure _))
  | dateTime v =>
    refine reads_tagged (by decide) ((reads_word (by norm_num) _).bind ?_)
    refine (reads_orError (LawfulExternals.date_inv _)).nil_bind ?_
    refine (reads_decodeTime _).bind_nil ?_
    rw [LawfulExternals.dateTime_inv]
    exact Reads.pure _
  | duration v =>
    obtain ⟨whole, hw, hs⟩ := Option.bind_eq_some_iff.1 (LawfulExternals.delta_inv v)
    refine reads_tagged (by decide) ((reads_word (by norm_num) _).bind ?_)
    refine (reads_word (by norm_num) _).bind_nil ?_
    exact (reads_orError hw).bind_nil ((reads_orError hs).bind_nil (Reads.pure _))
  | bigInt v =>
    simp only [encode, length_tagged, length_putBytes] at hlen
    refine reads_tagged (by decide) ((Reads.bytes (by omega)).bind_nil ?_)
    rw [LawfulExternals.signedBytes_inv]
    exact Reads.pure _
  | bigFloat v => exact reads_encodeFloat hlen
  | rational v =>
    simp only [encode, length_tagged, List.length_append, length_putBytes] at hlen
    have hq : newRational (fromSignedBytesBe (toSignedBytesBe v.num))
        (fromSignedBytesBe (toSignedBytesBe v.den)) = some v := by
      rw [LawfulExternals.signedBytes_inv, LawfulExternals.signedBytes_inv, newRational_num_den]
    refine reads_tagged (by decide) ((Reads.bytes (by omega)).bind ?_)
    refine (Reads.bytes (by omega)).bind_nil ?_
    exact (reads_orError hq).bind_nil (Reads.pure _)

end Scalar

end ArborDb
