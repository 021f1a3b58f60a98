import ArborDb.Codec.Archived
import ArborDb.Data.Printers

/-!
# Serialising into a value blob

What a value hands to its serialiser is a `Data`: a primitive, a sequence, a map, a struct or a variant
of an enum. The serialiser writes it into the blob children first and answers each call with the offset
of the vnode it wrote. A map key becomes the name of a field, as text.
-/

namespace ArborDb.Serde

open Codec

/-! ## The data model -/

/-- The integers of the data model, by their width. -/
inductive IntKind where
  | i8 | i16 | i32 | i64 | i128 | u8 | u16 | u32 | u64 | u128
  deriving DecidableEq

namespace IntKind

def width : IntKind → Nat
  | i8 | u8 => 8
  | i16 | u16 => 16
  | i32 | u32 => 32
  | i64 | u64 => 64
  | i128 | u128 => 128

def signed : IntKind → Bool
  | i8 | i16 | i32 | i64 | i128 => true
  | u8 | u16 | u32 | u64 | u128 => false

def name : IntKind → String
  | i8 => "i8"
  | i16 => "i16"
  | i32 => "i32"
  | i64 => "i64"
  | i128 => "i128"
  | u8 => "u8"
  | u16 => "u16"
  | u32 => "u32"
  | u64 => "u64"
  | u128 => "u128"

/-- The number that a word stands for. -/
def toInt (k : IntKind) (v : BitVec k.width) : Int := if k.signed then v.toInt else v.toNat

/-- The least number of the type, and the first one above it. -/
def bounds (k : IntKind) : Int × Int := if k.signed then (-2 ^ (k.width - 1), 2 ^ (k.width - 1)) else (0, 2 ^ k.width)

/-- The text of a number. -/
def display (k : IntKind) (v : BitVec k.width) : Str := intText (k.toInt v)

/-- The number of a text, if it is one of the type. -/
def parse (k : IntKind) (s : Str) : Option (BitVec k.width) :=
  match parseInt k.signed s.text.toList with
  | some n => if k.bounds.1 ≤ n ∧ n < k.bounds.2 then some (BitVec.ofInt k.width n) else none
  | none => none

end IntKind

/-- A primitive value; floats by their bits. -/
inductive Primitive where
  | unit
  | bool (v : Bool)
  | int (k : IntKind) (v : BitVec k.width)
  | f32 (v : BitVec 32)
  | f64 (v : BitVec 64)
  | char (v : Char)
  | str (v : Str)
  | bytes (v : Bytes)
  deriving DecidableEq

/-- A key of a map, as it is handed to the key serialiser. -/
inductive Key where
  | prim (p : Primitive)
  | some (k : Key)
  | newtypeStruct (k : Key)
  | unitVariant (variant : Str)
  /-- Any other shape. -/
  | structural
  deriving DecidableEq

/-- A value, as it is handed to its serialiser. The entries of a map are in the order in which it
iterates, the fields of a struct in the order of their declaration. -/
inductive Data where
  | prim (p : Primitive)
  | none
  | some (d : Data)
  | seq (items : List Data)
  /-- A tuple, an array or a tuple struct. -/
  | tuple (items : List Data)
  | map (entries : List (Key × Data))
  | unitStruct
  | newtypeStruct (d : Data)
  | struct (fields : List (Str × Data))
  | unitVariant (variant : Str)
  | newtypeVariant (variant : Str) (d : Data)
  | tupleVariant (variant : Str) (items : List Data)
  | structVariant (variant : Str) (fields : List (Str × Data))

def Key.badKey : AdbError := .serde "a map key must serialize to a string or a scalar"

/-! ## Serialising -/

variable [Externals]

/-- The integer as a scalar. -/
def IntKind.scalar : (k : IntKind) → BitVec k.width → Scalar
  | .i8, v => .i8 v
  | .i16, v => .i16 v
  | .i32, v => .i32 v
  | .i64, v => .i64 v
  | .i128, v => .i128 v
  | .u8, v => .u8 v
  | .u16, v => .u16 v
  | .u32, v => .u32 v
  | .u64, v => .u64 v
  | .u128, v => .u128 v

/-- The scalar that a primitive is stored as. -/
def Primitive.scalar : Primitive → Scalar
  | .unit => .null
  | .bool v => .bool v
  | .int k v => k.scalar v
  | .f32 v => .f32 v
  | .f64 v => .f64 v
  | .char v => .str ⟨String.singleton v⟩
  | .str v => .str v
  | .bytes v => .bytes v

/-- Writes the entries of a sorted map as an object. -/
def finishObject (buf : Bytes) (entries : List (Str × Nat)) : Nat × Bytes := pushObject buf entries

/-- Wraps a payload as an object of one field. -/
def wrapVariant (buf : Bytes) (variant : Str) (payload : Nat) : Nat × Bytes := pushObject buf [(variant, payload)]

variable [Printers]

/-- The field name that a map key becomes. -/
def Key.text : Key → AdbResult Str
  | .prim (.str v) => .ok v
  | .prim (.char v) => .ok ⟨String.singleton v⟩
  | .prim (.bool v) => .ok ⟨toString v⟩
  | .prim (.int k v) => .ok (k.display v)
  | .prim (.f32 v) => .ok (Printers.f32 v)
  | .prim (.f64 v) => .ok (Printers.f64 v)
  | .unitVariant variant => .ok variant
  | .newtypeStruct k => k.text
  | .some k => k.text
  | .prim .unit => .error badKey
  | .prim (.bytes _) => .error badKey
  | .structural => .error badKey

mutual

/-- Writes a value: the offset of its vnode, and the grown buffer. -/
def serialize : Data → Bytes → AdbResult (Nat × Bytes)
  | .prim p, buf => .ok (pushLeaf buf p.scalar)
  | .none, buf => .ok (pushLeaf buf .null)
  | .some d, buf => serialize d buf
  | .seq items, buf => do
    let (offsets, buf) ← serializeItems items buf
    return pushList buf offsets
  | .tuple items, buf => do
    let (offsets, buf) ← serializeItems items buf
    return pushList buf offsets
  | .map entries, buf => do
    let (entries, buf) ← serializeEntries entries [] buf
    return finishObject buf entries
  | .unitStruct, buf => .ok (pushLeaf buf .null)
  | .newtypeStruct d, buf => serialize d buf
  | .struct fields, buf => do
    let (entries, buf) ← serializeFields fields [] buf
    return finishObject buf entries
  | .unitVariant variant, buf => .ok (pushLeaf buf (.str variant))
  | .newtypeVariant variant d, buf => do
    let (payload, buf) ← serialize d buf
    return wrapVariant buf variant payload
  | .tupleVariant variant items, buf => do
    let (offsets, buf) ← serializeItems items buf
    let (list, buf) := pushList buf offsets
    return wrapVariant buf variant list
  | .structVariant variant fields, buf => do
    let (entries, buf) ← serializeFields fields [] buf
    let (object, buf) := finishObject buf entries
    return wrapVariant buf variant object

/-- The elements of a sequence, one after the other: their offsets. -/
def serializeItems : List Data → Bytes → AdbResult (List Nat × Bytes)
  | [], buf => .ok ([], buf)
  | d :: rest, buf => do
    let (off, buf) ← serialize d buf
    let (offs, buf) ← serializeItems rest buf
    return (off :: offs, buf)

/-- The fields of a struct, gathered by name. -/
def serializeFields : List (Str × Data) → List (Str × Nat) → Bytes → AdbResult (List (Str × Nat) × Bytes)
  | [], entries, buf => .ok (entries, buf)
  | (key, d) :: rest, entries, buf => do
    let (off, buf) ← serialize d buf
    serializeFields rest (Assoc.insert key off entries) buf

/-- The entries of a map, gathered by the text of their keys. -/
def serializeEntries : List (Key × Data) → List (Str × Nat) → Bytes → AdbResult (List (Str × Nat) × Bytes)
  | [], entries, buf => .ok (entries, buf)
  | (key, d) :: rest, entries, buf => do
    let key ← key.text
    let (off, buf) ← serialize d buf
    serializeEntries rest (Assoc.insert key off entries) buf

end

/-- Serialises a value into a blob, header included. -/
def toBlob (d : Data) : AdbResult Bytes := do
  let (root, buf) ← serialize d beginBlob
  return patchRoot buf root

/-! ## The dynamic value -/

/-- What a scalar hands to its serialiser: the ones that have no primitive, their text. -/
def scalarData : Scalar → Primitive
  | .null => .unit
  | .bool v => .bool v
  | .i8 v => .int .i8 v
  | .i16 v => .int .i16 v
  | .i32 v => .int .i32 v
  | .i64 v => .int .i64 v
  | .i128 v => .int .i128 v
  | .u8 v => .int .u8 v
  | .u16 v => .int .u16 v
  | .u32 v => .int .u32 v
  | .u64 v => .int .u64 v
  | .u128 v => .int .u128 v
  | .f32 v => .f32 v
  | .f64 v => .f64 v
  | .str v => .str v
  | .bytes v => .bytes v
  | .uuid v => .str (Printers.uuid v)
  | .date v => .str (Printers.date v)
  | .time v => .str (Printers.time v)
  | .dateTime v => .str (Printers.dateTime v)
  | .duration v => .str (Printers.duration v)
  | .bigInt v => .str (intText v)
  | .bigFloat v => .str (Printers.bigFloat v)
  | .rational v =>
    .str (if v.den = 1 then intText v.num else ⟨(intText v.num).text ++ "/" ++ (intText v.den).text⟩)

mutual

/-- What a value hands to its serialiser: its structure, without tags. -/
def valueData : Value → Data
  | .leaf s => .prim (scalarData s)
  | .list items => .seq (valueItems items)
  | .node fields => .map (valueFields fields)

def valueItems : List Value → List Data
  | [] => []
  | v :: vs => valueData v :: valueItems vs

def valueFields : List (Str × Value) → List (Key × Data)
  | [] => []
  | (name, v) :: fs => (.prim (.str name), valueData v) :: valueFields fs

end

end ArborDb.Serde
