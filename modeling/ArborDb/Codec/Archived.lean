import ArborDb.Lib.BinarySearch
import ArborDb.Value

/-!
# The value blob

A value is laid out children first: a leaf is its scalar's bytes, a list is a count and a table of
child offsets, an object is a count and a name-sorted table of `(name, name length, child)`
records. Offsets count from the start of the blob; a five-byte header holds the format version and
the offset of the root. `ArchivedNode` reads the blob in place.
-/

namespace ArborDb

namespace Codec

def formatVersion := 1
def headerLen := 5

/-! ## Node discriminants -/

def leafTag := 0
def listTag := 1
def nodeTag := 2

/-! ## Writing -/

/-- The current write position as a `u32`. -/
def offset (buf : Bytes) : Nat := buf.length % 2 ^ 32

/-- The version byte and a placeholder for the root offset. -/
def beginBlob : Bytes := Bytes.be 1 formatVersion ++ putU32 0

/-- Back-patches the header's root offset. -/
def patchRoot (buf : Bytes) (root : Nat) : Bytes :=
  buf.take 1 ++ putU32 root ++ buf.drop headerLen

/-- Appends a list vnode over the offsets of its children. -/
def pushList (buf : Bytes) (children : List Nat) : Nat × Bytes :=
  (offset buf,
    buf ++ Bytes.be 1 listTag ++ putU32 children.length ++ children.flatMap putU32)

/-- Appends the field names of an object; the records are `(name, name length, child)`. -/
def pushNames : Bytes → List (Str × Nat) → List (Nat × Nat × Nat) × Bytes
  | buf, [] => ([], buf)
  | buf, (name, child) :: rest =>
    let (records, buf') := pushNames (buf ++ name.bytes) rest
    ((offset buf, name.bytes.length % 2 ^ 32, child) :: records, buf')

def putRecord (record : Nat × Nat × Nat) : Bytes :=
  putU32 record.1 ++ putU32 record.2.1 ++ putU32 record.2.2

/-- Appends an object vnode over its named children. -/
def pushObject (buf : Bytes) (entries : List (Str × Nat)) : Nat × Bytes :=
  let (records, buf) := pushNames buf entries
  (offset buf,
    buf ++ Bytes.be 1 nodeTag ++ putU32 records.length ++ records.flatMap putRecord)

variable [Externals]

/-- Appends a leaf vnode. -/
def pushLeaf (buf : Bytes) (s : Scalar) : Nat × Bytes :=
  (offset buf, buf ++ Bytes.be 1 leafTag ++ s.encode)

mutual

/-- Appends a subtree, children first: the offset of its root, and the grown buffer. -/
def pushValue : Value → Bytes → Nat × Bytes
  | .leaf s, buf => pushLeaf buf s
  | .list items, buf =>
    let (children, buf) := pushItems items buf
    pushList buf children
  | .node fields, buf =>
    let (entries, buf) := pushFields fields buf
    pushObject buf entries

def pushItems : List Value → Bytes → List Nat × Bytes
  | [], buf => ([], buf)
  | v :: vs, buf =>
    let (off, buf) := pushValue v buf
    let (offs, buf) := pushItems vs buf
    (off :: offs, buf)

def pushFields : List (Str × Value) → Bytes → List (Str × Nat) × Bytes
  | [], buf => ([], buf)
  | (name, v) :: fs, buf =>
    let (off, buf) := pushValue v buf
    let (entries, buf) := pushFields fs buf
    ((name, off) :: entries, buf)

end

/-- Serialises a value into a self-contained blob. -/
def encode (value : Value) : Bytes :=
  let (root, buf) := pushValue value beginBlob
  patchRoot buf root

end Codec

/-! ## Reading -/

/-- A cursor at one vnode inside a value blob. -/
structure ArchivedNode where
  blob : Bytes
  off : Nat
  deriving DecidableEq

namespace ArchivedNode

open Codec

def kind (n : ArchivedNode) : AdbResult NodeKind := do
  let tag ← readU8 n.blob n.off
  if tag = leafTag then return .leaf
  else if tag = listTag then return .list
  else if tag = nodeTag then return .object
  else throw (.corrupt ("unknown value vnode tag " ++ toString tag))

/-- The bytes after the discriminant. -/
def body (n : ArchivedNode) : AdbResult Bytes :=
  if n.off + 1 ≤ n.blob.length then .ok (n.blob.drop (n.off + 1))
  else .error (.corrupt "value blob is truncated")

/-- The number of elements, if this is a list vnode. -/
def len (n : ArchivedNode) : AdbResult Nat := do
  let tag ← readU8 n.blob n.off
  if tag ≠ listTag then throw (.corrupt "the length of a non-list vnode was requested")
  else readU32 n.blob (n.off + 1)

/-- The list element at `index`. -/
def at? (n : ArchivedNode) (index : Nat) : AdbResult (Option ArchivedNode) := do
  let tag ← readU8 n.blob n.off
  if tag ≠ listTag then return none
  else
    let count ← readU32 n.blob (n.off + 1)
    if index ≥ count then return none
    else
      let child ← readU32 n.blob (n.off + 5 + index * 4)
      return some ⟨n.blob, child⟩

/-- A list element that has to be there. -/
def element (n : ArchivedNode) (index : Nat) : AdbResult ArchivedNode := do
  match ← n.at? index with
  | some c => return c
  | none => throw (.corrupt "list element missing")

/-- The raw name bytes of the object entry whose record starts at `entry`. -/
def entryNameBytes (n : ArchivedNode) (entry : Nat) : AdbResult Bytes := do
  let nameOff ← readU32 n.blob entry
  let nameLen ← readU32 n.blob (entry + 4)
  slice n.blob nameOff nameLen

def entryName (n : ArchivedNode) (entry : Nat) : AdbResult Str := do
  let b ← n.entryNameBytes entry
  match Str.fromUtf8 b with
  | some name => return name
  | none => throw (.corrupt "invalid utf-8 in a field name")

/-- The object field named `name`, by binary search over the entry table. -/
def get (n : ArchivedNode) (name : Str) : AdbResult (Option ArchivedNode) := do
  let tag ← readU8 n.blob n.off
  if tag ≠ nodeTag then return none
  else
    let count ← readU32 n.blob (n.off + 1)
    let table := n.off + 5
    let probe (i : Nat) : AdbResult Ordering := do
      let entryName ← n.entryNameBytes (table + i * 12)
      return cmp entryName name.bytes
    match ← binarySearch probe count 0 count with
    | none => return none
    | some i =>
      let child ← readU32 n.blob (table + i * 12 + 8)
      return some ⟨n.blob, child⟩

/-- Every field of this object with its child, in name order. -/
def entries (n : ArchivedNode) : AdbResult (List (Str × ArchivedNode)) := do
  let tag ← readU8 n.blob n.off
  if tag ≠ nodeTag then throw (.corrupt "the entries of a non-object vnode were requested")
  else
    let count ← readU32 n.blob (n.off + 1)
    let table := n.off + 5
    (List.range count).mapM fun i => do
      let entry := table + i * 12
      let name ← n.entryName entry
      let child ← readU32 n.blob (entry + 8)
      return (name, ⟨n.blob, child⟩)

def objectKeys (n : ArchivedNode) : AdbResult (List Str) := do
  let es ← n.entries
  return es.map Prod.fst

/-- The child a segment leads to. -/
def child (n : ArchivedNode) : Segment → AdbResult (Option ArchivedNode)
  | .name name => n.get name
  | .index i => n.at? i.toNat

/-- Follows a chain of segments. -/
def descend : ArchivedNode → List Segment → AdbResult (Option ArchivedNode)
  | n, [] => return some n
  | n, seg :: rest => do
    match ← n.child seg with
    | some c => descend c rest
    | none => return none

/-- Follows a path from this vnode; `none` if a segment leads nowhere. -/
def navigate (n : ArchivedNode) (path : VPath) : AdbResult (Option ArchivedNode) :=
  n.descend path.segments

variable [Externals]

/-- Decodes this leaf's scalar. -/
def scalar (n : ArchivedNode) : AdbResult Scalar := do
  let tag ← readU8 n.blob n.off
  if tag ≠ leafTag then throw (.corrupt "a scalar was read from a non-leaf vnode")
  else
    let b ← n.body
    let (s, _) ← Scalar.decode (Reader.new b)
    return s

/-- This leaf's scalar, or `none` if it is not a leaf. -/
def scalarIfLeaf (n : ArchivedNode) : AdbResult (Option Scalar) := do
  let tag ← readU8 n.blob n.off
  if tag ≠ leafTag then return none
  else
    let b ← n.body
    let (s, _) ← Scalar.decode (Reader.new b)
    return some s

/-- The offset and length of the encoded scalar of this leaf. -/
def leafScalarSpan (n : ArchivedNode) : AdbResult (Option (Nat × Nat)) := do
  let tag ← readU8 n.blob n.off
  if tag ≠ leafTag then return none
  else
    let b ← n.body
    let (_, reader) ← Scalar.decode (Reader.new b)
    return some (n.off + 1, reader.pos)

/-- Materialises this vnode's subtree; the first argument bounds the depth of the recursion. -/
def toValue : Nat → ArchivedNode → AdbResult Value
  | 0, _ => throw .stackOverflow
  | fuel + 1, n => do
    match ← n.kind with
    | .leaf => return .leaf (← n.scalar)
    | .list =>
      let count ← n.len
      let items ← (List.range count).mapM fun i => do
        let c ← n.element i
        toValue fuel c
      return .list items
    | .object =>
      let es ← n.entries
      let fields ← es.foldlM (fun fields e => do
        let v ← toValue fuel e.2
        return Assoc.insert e.1 v fields) []
      return .node fields

end ArchivedNode

/-- A view over a value blob whose header has been validated. -/
structure ArchivedValue where
  blob : Bytes
  rootOffset : Nat

namespace ArchivedValue

/-- Validates the header and captures the root offset. -/
def new (blob : Bytes) : AdbResult ArchivedValue :=
  match blob with
  | [] => throw (.corrupt "empty value blob")
  | version :: _ =>
    if version.toNat ≠ Codec.formatVersion then
      throw (.schemaMismatch ("value blob format version " ++ toString version.toNat ++
        ", expected " ++ toString Codec.formatVersion))
    else do
      let root ← readU32 blob 1
      return ⟨blob, root⟩

def root (a : ArchivedValue) : ArchivedNode := ⟨a.blob, a.rootOffset⟩

variable [Externals]

/-- Materialises the whole blob. A chain of more vnodes than the blob has bytes visits one offset
twice, so the recursion of the source ends exactly when this bound is enough. -/
def toValue (a : ArchivedValue) : AdbResult Value := a.root.toValue (a.blob.length + 1)

/-- Where the scalar of the leaf at a path is encoded, if the path lands on a leaf. -/
def leafScalarSpan (a : ArchivedValue) (path : VPath) : AdbResult (Option (Nat × Nat)) := do
  match ← a.root.navigate path with
  | some node => node.leafScalarSpan
  | none => return none

end ArchivedValue

/-- Decodes a whole blob. -/
def Codec.decode [Externals] (blob : Bytes) : AdbResult Value := do
  let a ← ArchivedValue.new blob
  a.toValue

end ArborDb
