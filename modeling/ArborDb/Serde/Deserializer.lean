import ArborDb.Data.Definition
import ArborDb.Serde.Serializer

/-!
# Deserialising from a value blob

The deserialiser walks the blob in place and hands what it finds to a visitor: a primitive, the elements
of a list, the entries of an object. A type is read by its visitor; the named types may refer to each
other. What a primitive type makes of a primitive is serde's own (`PrimitiveVisitors`).
-/

namespace ArborDb.Serde

/-! ## Types -/

/-- A primitive type. -/
inductive Kind where
  | unit | bool | int (k : IntKind) | f32 | f64 | char | str | bytes
  deriving DecidableEq

def Primitive.kind : Primitive → Kind
  | .unit => .unit
  | .bool _ => .bool
  | .int k _ => .int k
  | .f32 _ => .f32
  | .f64 _ => .f64
  | .char _ => .char
  | .str _ => .str
  | .bytes _ => .bytes

/-- A type, with the named ones by number. -/
inductive Ty where
  | prim (k : Kind)
  | option (t : Ty)
  | seq (t : Ty)
  | tuple (ts : List Ty)
  | map (key t : Ty)
  | named (n : Nat)

/-- What a variant of an enum carries. -/
inductive Payload where
  | unit
  | newtype (t : Ty)
  | tuple (ts : List Ty)
  | struct (fields : List (Str × Ty))

/-- A named type. -/
inductive Decl where
  | unitStruct
  | newtypeStruct (t : Ty)
  | tupleStruct (ts : List Ty)
  | struct (fields : List (Str × Ty))
  | enum (variants : List (Str × Payload))

/-- The visitors of the primitive types. -/
class PrimitiveVisitors where
  /-- What a type makes of a primitive. -/
  accept : Kind → Primitive → AdbResult Primitive

/-- A type takes its own primitives, and a character a text of one. -/
class LawfulVisitors [PrimitiveVisitors] : Prop where
  accept_self (p : Primitive) : PrimitiveVisitors.accept p.kind p = .ok p
  accept_char (c : Char) : PrimitiveVisitors.accept .char (.str ⟨String.singleton c⟩) = .ok (.char c)

def invalidType : AdbError := .serde "invalid type"
def invalidLength : AdbError := .serde "invalid length"
def unknownVariant (variant : Str) : AdbError := .serde ("unknown variant " ++ variant.text)
def duplicateField (field : Str) : AdbError := .serde ("duplicate field " ++ field.text)
def missingField (field : Str) : AdbError := .serde ("missing field " ++ field.text)
def needsPayload (shape : String) : AdbError := .serde ("a " ++ shape ++ " variant needs a payload")

/-- Visitors that take only what they must. -/
@[reducible] def Reference.visitors : PrimitiveVisitors where
  accept
    | .char, .str s => match s.text.toList with
      | [c] => .ok (.char c)
      | _ => .error invalidType
    | k, p => if p.kind = k then .ok p else .error invalidType

theorem Reference.lawfulVisitors : @LawfulVisitors Reference.visitors :=
  letI := Reference.visitors
  { accept_self := by
      intro p
      cases p <;> exact if_pos rfl
    accept_char := fun c => by
      simp [PrimitiveVisitors.accept, String.toList_singleton] }

/-! ## Readers -/

/-- The elements of a list that are still to be read. -/
structure SeqReader where
  node : ArchivedNode
  index : Nat
  len : Nat

/-- The entries of an object that are still to be read. -/
abbrev MapReader := List (Str × ArchivedNode)

namespace SeqReader

variable {α β : Type}

/-- The next element, and the reader after it. -/
def next (r : SeqReader) (f : ArchivedNode → AdbResult α) : AdbResult (Option (α × SeqReader)) :=
  if r.index ≥ r.len then .ok none
  else do
    match ← r.node.at? r.index with
    | none => throw (.corrupt "a list element is missing")
    | some child =>
      let a ← f child
      return some (a, { r with index := r.index + 1 })

/-- Reads elements until there are no more; there are at most `n`. -/
def readAll (f : ArchivedNode → AdbResult α) : Nat → SeqReader → AdbResult (List α)
  | 0, _ => .ok []
  | n + 1, r => do
    match ← r.next f with
    | none => return []
    | some (a, r) =>
      let rest ← readAll f n r
      return a :: rest

/-- Reads one element for each of some types. -/
def readTuple (f : β → ArchivedNode → AdbResult α) : List β → SeqReader → AdbResult (List α)
  | [], _ => .ok []
  | t :: ts, r => do
    match ← r.next (f t) with
    | none => throw invalidLength
    | some (a, r) =>
      let rest ← readTuple f ts r
      return a :: rest

end SeqReader

/-- What is done with a primitive, a list and an object. -/
structure Visitor (α : Type) where
  prim : Primitive → AdbResult α
  seq : SeqReader → AdbResult α
  map : MapReader → AdbResult α

/-- A visitor that takes nothing. -/
def Visitor.reject (α : Type) : Visitor α where
  prim _ := .error invalidType
  seq _ := .error invalidType
  map _ := .error invalidType

/-! ## Dispatch -/

section Dispatch

variable [Externals] {α : Type}

/-- Hands a scalar to the visitor; the ones that are no primitive are rejected. -/
def scalarInto (s : Scalar) (visitor : Visitor α) : AdbResult α :=
  match s with
  | .null => visitor.prim .unit
  | .bool v => visitor.prim (.bool v)
  | .i8 v => visitor.prim (.int .i8 v)
  | .i16 v => visitor.prim (.int .i16 v)
  | .i32 v => visitor.prim (.int .i32 v)
  | .i64 v => visitor.prim (.int .i64 v)
  | .i128 v => visitor.prim (.int .i128 v)
  | .u8 v => visitor.prim (.int .u8 v)
  | .u16 v => visitor.prim (.int .u16 v)
  | .u32 v => visitor.prim (.int .u32 v)
  | .u64 v => visitor.prim (.int .u64 v)
  | .u128 v => visitor.prim (.int .u128 v)
  | .f32 v => visitor.prim (.f32 v)
  | .f64 v => visitor.prim (.f64 v)
  | .str v => visitor.prim (.str v)
  | .bytes v => visitor.prim (.bytes v)
  | other => .error (.serde ("cannot deserialize a scalar of type " ++ other.typeStr ++ " via serde"))

/-- Hands a vnode to the visitor. -/
def deserializeAny (node : ArchivedNode) (visitor : Visitor α) : AdbResult α := do
  match ← node.kind with
  | .leaf => scalarInto (← node.scalar) visitor
  | .list => visitor.seq ⟨node, 0, ← node.len⟩
  | .object => visitor.map (← node.entries)

/-- An option is nothing where a `null` is stored. -/
def deserializeOption (node : ArchivedNode) (visitNone : AdbResult α) (visitSome : ArchivedNode → AdbResult α) :
    AdbResult α := do
  match ← node.kind with
  | .leaf =>
    match ← node.scalar with
    | .null => visitNone
    | _ => visitSome node
  | _ => visitSome node

/-- An enum is the bare name of a unit variant, or an object of one field. -/
def deserializeEnum (node : ArchivedNode) (visit : Str → Option ArchivedNode → AdbResult α) : AdbResult α := do
  match ← node.kind with
  | .leaf =>
    match ← node.scalar with
    | .str name => visit name none
    | _ => throw (.serde "expected an enum: a string or a one-field object")
  | .object =>
    match ← node.entries with
    | [(name, payload)] => visit name (some payload)
    | _ => throw (.serde "expected a one-field object for an enum variant")
  | .list => throw (.serde "expected an enum, found a list")

end Dispatch

/-! ## Visitors -/

section Visitors

/-- The visitor of a primitive type. -/
def primVisitor [PrimitiveVisitors] (k : Kind) : Visitor Data :=
  { Visitor.reject Data with prim := fun p => do return .prim (← PrimitiveVisitors.accept k p) }

def unitStructVisitor : Visitor Data :=
  { Visitor.reject Data with prim := fun p => if p = .unit then .ok .unitStruct else .error invalidType }

/-- The visitor of a sequence. -/
def seqVisitor {α : Type} (f : ArchivedNode → AdbResult α) : Visitor (List α) :=
  { Visitor.reject (List α) with seq := fun r => r.readAll f (r.len - r.index) }

/-- The visitor of a tuple, or of the elements of a tuple struct or variant. -/
def tupleVisitor (f : Ty → ArchivedNode → AdbResult Data) (ts : List Ty) : Visitor (List Data) :=
  { Visitor.reject (List Data) with seq := SeqReader.readTuple f ts }

/-- Binds a key in the entries of a map. -/
def putEntry (key : Key) (d : Data) : List (Key × Data) → List (Key × Data)
  | [] => [(key, d)]
  | (key', d') :: rest => if key = key' then (key, d) :: rest else (key', d') :: putEntry key d rest

/-- Reads the entries of a map. -/
def readEntries (key : Str → AdbResult Key) (value : ArchivedNode → AdbResult Data) :
    MapReader → List (Key × Data) → AdbResult (List (Key × Data))
  | [], acc => .ok acc
  | (name, node) :: rest, acc => do
    let k ← key name
    let d ← value node
    readEntries key value rest (putEntry k d acc)

/-- The visitor of a map. -/
def mapVisitor (key : Str → AdbResult Key) (value : ArchivedNode → AdbResult Data) : Visitor (List (Key × Data)) :=
  { Visitor.reject (List (Key × Data)) with map := fun r => readEntries key value r [] }

/-- Reads the entries of a struct: its fields, each once, and others that are ignored. -/
def readFields (f : Ty → ArchivedNode → AdbResult Data) (ignore : ArchivedNode → AdbResult Unit)
    (fields : List (Str × Ty)) : MapReader → List (Str × Data) → AdbResult (List (Str × Data))
  | [], found => .ok found
  | (name, node) :: rest, found =>
    match Assoc.find name fields with
    | none => do
      ignore node
      readFields f ignore fields rest found
    | some t =>
      if (Assoc.find name found).isSome then .error (duplicateField name)
      else do
        let d ← f t node
        readFields f ignore fields rest ((name, d) :: found)

/-- A field that was read; one that was not is nothing if it is an option. -/
def takeField (found : List (Str × Data)) (field : Str × Ty) : AdbResult (Str × Data) :=
  match Assoc.find field.1 found with
  | some d => .ok (field.1, d)
  | none => match field.2 with
    | .option _ => .ok (field.1, .none)
    | _ => .error (missingField field.1)

/-- The visitor of the fields of a struct, from an object or in the order of their declaration. -/
def structVisitor (f : Ty → ArchivedNode → AdbResult Data) (ignore : ArchivedNode → AdbResult Unit)
    (fields : List (Str × Ty)) : Visitor (List (Str × Data)) where
  prim _ := .error invalidType
  seq r := do
    let ds ← r.readTuple f (fields.map Prod.snd)
    return (fields.map Prod.fst).zip ds
  map r := do
    let found ← readFields f ignore fields r []
    fields.mapM (takeField found)

/-- The visitor of what is not wanted. -/
def ignoreVisitor (ignore : ArchivedNode → AdbResult Unit) : Visitor Unit where
  prim _ := .ok ()
  seq r := do
    let _ ← r.readAll ignore (r.len - r.index)
    return ()
  map r := do
    let _ ← r.mapM fun e => ignore e.2
    return ()

end Visitors

/-! ## Reading a type -/

variable [Externals] [Printers] [PrimitiveVisitors] (decls : Nat → Decl)

/-- A key that is parsed from a field name. -/
def parseKey (name : Str) (type : String) (k : Kind) (parsed : Option Primitive) : AdbResult Key :=
  match parsed with
  | some p => do return .prim (← PrimitiveVisitors.accept k p)
  | none => .error (.serde ("map key '" ++ name.text ++ "' is not a valid " ++ type))

/-- A truth value as the standard library reads it. -/
def parseBool (s : Str) : Option Bool :=
  if s.text = "true" then some true else if s.text = "false" then some false else none

/-- Reads a map key from a field name; the first argument bounds the depth of the recursion. -/
def deserializeKey : Nat → Ty → Str → AdbResult Key
  | 0, _, _ => .error .stackOverflow
  | fuel + 1, t, name => match t with
    | .prim .bool => parseKey name "bool" .bool ((parseBool name).map .bool)
    | .prim (.int k) => parseKey name k.name (.int k) ((k.parse name).map (.int k))
    | .prim .f32 => parseKey name "f32" .f32 ((Printers.parseF32 name).map .f32)
    | .prim .f64 => parseKey name "f64" .f64 ((Printers.parseF64 name).map .f64)
    | .prim k => do return .prim (← PrimitiveVisitors.accept k (.str name))
    | .option t => do return .some (← deserializeKey fuel t name)
    | .named n => match decls n with
      | .newtypeStruct t => do return .newtypeStruct (← deserializeKey fuel t name)
      | .enum variants => match Assoc.find name variants with
        | some .unit => .ok (.unitVariant name)
        | some (.newtype _) => .error (needsPayload "newtype")
        | some (.tuple _) => .error (needsPayload "tuple")
        | some (.struct _) => .error (needsPayload "struct")
        | none => .error (unknownVariant name)
      | _ => .error invalidType
    | _ => .error invalidType

/-- Reads a vnode of any kind and drops it. -/
def ignoreAny : Nat → ArchivedNode → AdbResult Unit
  | 0, _ => .error .stackOverflow
  | fuel + 1, node => deserializeAny node (ignoreVisitor (ignoreAny fuel))

/-- Reads the payload of a variant. -/
def readVariant (f : Ty → ArchivedNode → AdbResult Data) (ignore : ArchivedNode → AdbResult Unit)
    (variants : List (Str × Payload)) (variant : Str) (payload : Option ArchivedNode) : AdbResult Data :=
  match Assoc.find variant variants, payload with
  | none, _ => .error (unknownVariant variant)
  | some .unit, _ => .ok (.unitVariant variant)
  | some (.newtype t), some node => do return .newtypeVariant variant (← f t node)
  | some (.newtype _), none => .error (needsPayload "newtype")
  | some (.tuple ts), some node => do return .tupleVariant variant (← deserializeAny node (tupleVisitor f ts))
  | some (.tuple _), none => .error (needsPayload "tuple")
  | some (.struct fields), some node => do
    return .structVariant variant (← deserializeAny node (structVisitor f ignore fields))
  | some (.struct _), none => .error (needsPayload "struct")

/-- Reads a value of a type from a vnode; the first argument bounds the depth of the recursion. -/
def deserialize : Nat → Ty → ArchivedNode → AdbResult Data
  | 0, _, _ => .error .stackOverflow
  | fuel + 1, t, node => match t with
    | .prim k => deserializeAny node (primVisitor k)
    | .option t => deserializeOption node (.ok .none) fun node => do return .some (← deserialize fuel t node)
    | .seq t => do return .seq (← deserializeAny node (seqVisitor (deserialize fuel t)))
    | .tuple ts => do return .tuple (← deserializeAny node (tupleVisitor (deserialize fuel) ts))
    | .map key t => do
      return .map (← deserializeAny node (mapVisitor (deserializeKey decls fuel key) (deserialize fuel t)))
    | .named n => match decls n with
      | .unitStruct => deserializeAny node unitStructVisitor
      | .newtypeStruct t => do return .newtypeStruct (← deserialize fuel t node)
      | .tupleStruct ts => do return .tuple (← deserializeAny node (tupleVisitor (deserialize fuel) ts))
      | .struct fields => do
        return .struct (← deserializeAny node (structVisitor (deserialize fuel) (ignoreAny fuel) fields))
      | .enum variants => deserializeEnum node (readVariant (deserialize fuel) (ignoreAny fuel) variants)

/-- Reconstructs a value of a type from a blob. -/
def fromBlob (fuel : Nat) (t : Ty) (blob : Bytes) : AdbResult Data := do
  let archived ← ArchivedValue.new blob
  deserialize decls fuel t archived.root

/-! ## The dynamic value -/

/-- The visitor of a dynamic value. -/
def valueVisitor (f : ArchivedNode → AdbResult Value) : Visitor Value where
  prim p := .ok (.leaf p.scalar)
  seq r := do return .list (← r.readAll f (r.len - r.index))
  map r := do
    let fields ← r.foldlM (fun fields e => do
      let v ← f e.2
      return Assoc.insert e.1 v fields) []
    return .node fields

/-- Reads a dynamic value from a vnode. -/
def deserializeValue : Nat → ArchivedNode → AdbResult Value
  | 0, _ => .error .stackOverflow
  | fuel + 1, node => deserializeAny node (valueVisitor (deserializeValue fuel))

/-- Reconstructs a dynamic value from a blob; the recursion is bounded as for `ArchivedValue.toValue`. -/
def valueFromBlob (blob : Bytes) : AdbResult Value := do
  let archived ← ArchivedValue.new blob
  deserializeValue (archived.blob.length + 1) archived.root

end ArborDb.Serde
