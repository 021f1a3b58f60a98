import ArborDb.Data.Scalar

/-!
# The order-preserving encoding of index columns

Each encoding is a type tag followed by a body whose byte order is the order of the values. A
descending column is the bitwise complement of its ascending encoding. Nothing is decoded back:
a lookup returns the entity stored beside the key.
-/

namespace ArborDb

open Externals

namespace Ordered

/-! ## Type tags -/

namespace Tag

def null := 0
def bool := 1
def i8 := 2
def i16 := 3
def i32 := 4
def i64 := 5
def i128 := 6
def u8 := 7
def u16 := 8
def u32 := 9
def u64 := 10
def u128 := 11
def f32 := 12
def f64 := 13
def str := 14
def bytes := 15
def uuid := 16
def date := 17
def time := 18
def dateTime := 19
def duration := 20
def bigInt := 21
def bigFloatNegInf := 22
def bigFloatNeg := 23
def bigFloatZero := 24
def bigFloatPos := 25
def bigFloatPosInf := 26
def bigFloatNan := 27
def bigRational := 28

end Tag

/-! ## Bodies -/

/-- Flips the sign bit of a big-endian word. -/
def pushSigned : Bytes → Bytes
  | [] => []
  | b :: rest => (b ^^^ 0x80) :: rest

/-- The total order of IEEE floats as an unsigned word: negatives flip every bit, the others only
the sign bit. -/
def floatBits {w : Nat} (bits : BitVec w) : BitVec w :=
  if bits &&& (1#w <<< (w - 1)) ≠ 0#w then ~~~bits else bits ||| (1#w <<< (w - 1))

def float64 (v : BitVec 64) : BitVec 64 := floatBits v

def float32 (v : BitVec 32) : BitVec 32 := floatBits v

/-- One byte of content: a zero byte is escaped. -/
def escape (b : UInt8) : Bytes := if b = 0 then [b, 0xFF] else [b]

/-- A self-delimiting byte string: zero bytes are escaped, the whole ends in `00 01`. -/
def orderedBytes (bytes : Bytes) : Bytes := bytes.flatMap escape ++ [0x00, 0x01]

/-- The minimal big-endian bytes of a magnitude. -/
def toBytesBe (n : Nat) : Bytes := Bytes.be (n.log2 / 8 + 1) n

/-- A magnitude behind its own byte length, which is length-prefixed in turn. -/
def putUintBe (mag : Bytes) : Bytes :=
  let len := (Bytes.be 8 mag.length).dropWhile (· = 0)
  Bytes.be 1 len.length ++ len ++ mag

def compl (b : Bytes) : Bytes := b.map (~~~ ·)

/-- A sign class, then the magnitude, inverted for negatives. -/
def encodeSignedInt (v : Int) : Bytes :=
  if v = 0 then [1]
  else if 0 < v then 2 :: putUintBe (toBytesBe v.natAbs)
  else 0 :: compl (putUintBe (toBytesBe v.natAbs))

/-- The continued-fraction terms of `p / q`, for a positive `q`. -/
def continuedFraction (p : Int) (q : Nat) : List Int :=
  if _h : q = 0 then []
  else
    let trunc := p.tdiv q
    let rem := p - trunc * q
    let a := if rem < 0 then trunc - 1 else trunc
    let r := if rem < 0 then rem + q else rem
    if r = 0 then [a] else a :: continuedFraction q r.toNat
termination_by q
decreasing_by
  have hq : (0 : Int) < q := by omega
  have hrem : p - p.tdiv q * q = p.tmod q := by
    have := Int.tmod_add_tdiv_mul p q
    omega
  have hlt := Int.tmod_lt_of_pos p hq
  have hgt := Int.lt_tmod_of_pos p hq
  rw [hrem]
  split
  · omega
  · omega

/-- The terms after the first: each behind a continuation marker, inverted at odd positions. -/
def encodeTerms : Nat → List Int → Bytes
  | i, [] => [if i % 2 = 0 then 2 else 0]
  | i, term :: rest =>
    let body := putUintBe (toBytesBe term.natAbs)
    1 :: (if i % 2 = 1 then compl body else body) ++ encodeTerms (i + 1) rest

/-- Drops trailing zero digits, which do not change the value; one digit stays. -/
def stripZeros (digits : Bytes) : Bytes :=
  digits.take 1 ++ ((digits.drop 1).reverse.dropWhile (· = 0)).reverse

section Encode

variable [Externals]

/-- The decimal exponent of the leading digit, then the significant digits. -/
def floatBody (v : BigFloat) : Bytes :=
  let mantissa := mantissaBytes v
  let d := BitVec.ofInt 16 (mantissa.length - 1 + (exponent v).toInt)
  pushSigned (Scalar.toBeBytes d) ++ orderedBytes (stripZeros mantissa)

/-- The class tag orders the special values and the sign; a finite non-zero number is keyed by its
magnitude, inverted for negatives. -/
def encodeBigfloat (v : BigFloat) : Bytes :=
  if isNan v then Bytes.be 1 Tag.bigFloatNan
  else if isInfPos v then Bytes.be 1 Tag.bigFloatPosInf
  else if isInfNeg v then Bytes.be 1 Tag.bigFloatNegInf
  else if isZero v then Bytes.be 1 Tag.bigFloatZero
  else if isNegative v then Bytes.be 1 Tag.bigFloatNeg ++ compl (floatBody v)
  else Bytes.be 1 Tag.bigFloatPos ++ floatBody v

/-- The continued fraction of a rational, term by term. -/
def encodeRational (v : Rat) : Bytes :=
  match continuedFraction v.num v.den with
  | [] => Bytes.be 1 Tag.bigRational
  | a :: rest => Bytes.be 1 Tag.bigRational ++ encodeSignedInt a ++ encodeTerms 1 rest

def signed {w : Nat} (tag : Nat) (v : BitVec w) : Bytes :=
  Bytes.be 1 tag ++ pushSigned (Scalar.toBeBytes v)

def unsigned {w : Nat} (tag : Nat) (v : BitVec w) : Bytes := Bytes.be 1 tag ++ Scalar.toBeBytes v

/-- The total nanoseconds of a duration. -/
def totalNanos (v : TimeDelta) : Int := (numSeconds v).toInt * 1000000000 + (subsecNanos v).toInt

def encodeAscending : Scalar → Bytes
  | .null => Bytes.be 1 Tag.null
  | .bool v => Bytes.be 1 Tag.bool ++ Bytes.be 1 v.toNat
  | .i8 v => signed Tag.i8 v
  | .i16 v => signed Tag.i16 v
  | .i32 v => signed Tag.i32 v
  | .i64 v => signed Tag.i64 v
  | .i128 v => signed Tag.i128 v
  | .u8 v => unsigned Tag.u8 v
  | .u16 v => unsigned Tag.u16 v
  | .u32 v => unsigned Tag.u32 v
  | .u64 v => unsigned Tag.u64 v
  | .u128 v => unsigned Tag.u128 v
  | .f32 v => unsigned Tag.f32 (float32 v)
  | .f64 v => unsigned Tag.f64 (float64 v)
  | .str v => Bytes.be 1 Tag.str ++ orderedBytes v.bytes
  | .bytes v => Bytes.be 1 Tag.bytes ++ orderedBytes v
  | .uuid v => unsigned Tag.uuid v
  | .date v => signed Tag.date (numDaysFromCe v)
  | .time v =>
    Bytes.be 1 Tag.time ++ Scalar.toBeBytes (numSecondsFromMidnight v) ++
      Scalar.toBeBytes (nanosecond v)
  | .dateTime v =>
    Bytes.be 1 Tag.dateTime ++ pushSigned (Scalar.toBeBytes (numDaysFromCe (date v))) ++
      Scalar.toBeBytes (numSecondsFromMidnight (time v)) ++ Scalar.toBeBytes (nanosecond (time v))
  | .duration v => signed Tag.duration (BitVec.ofInt 128 (totalNanos v))
  | .bigInt v => Bytes.be 1 Tag.bigInt ++ encodeSignedInt v
  | .bigFloat v => encodeBigfloat v
  | .rational v => encodeRational v

/-- The encoding of one column, inverted when it is descending. -/
def encodeScalar (s : Scalar) (descending : Bool) : Bytes :=
  if descending then compl (encodeAscending s) else encodeAscending s

end Encode

end Ordered

end ArborDb
