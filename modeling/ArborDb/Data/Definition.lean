import ArborDb.Value

/-!
# Typed data

The types that decompose into a tree of vnodes: scalars, options, lists, maps, and the structs and
enums of the derive macro, which may refer to each other. A value of any of them is a `Data`; which
type it has is `Of`.
-/

namespace ArborDb

variable [Externals]

/-! ## Scalar types -/

/-- A short label of a scalar's variant. -/
def Scalar.typeStr : Scalar → String
  | .null => "null"
  | .bool _ => "bool"
  | .i8 _ => "i8"
  | .i16 _ => "i16"
  | .i32 _ => "i32"
  | .i64 _ => "i64"
  | .i128 _ => "i128"
  | .u8 _ => "u8"
  | .u16 _ => "u16"
  | .u32 _ => "u32"
  | .u64 _ => "u64"
  | .u128 _ => "u128"
  | .f32 _ => "f32"
  | .f64 _ => "f64"
  | .str _ => "str"
  | .bytes _ => "bytes"
  | .uuid _ => "uuid"
  | .date _ => "date"
  | .time _ => "time"
  | .dateTime _ => "datetime"
  | .duration _ => "duration"
  | .bigInt _ => "bigint"
  | .bigFloat _ => "bigfloat"
  | .rational _ => "rational"

/-- A type that is stored as one leaf. A platform-dependent integer has a fixed width in storage. -/
inductive ScalarType where
  | bool | i8 | i16 | i32 | i64 | i128 | u8 | u16 | u32 | u64 | u128 | f32 | f64 | usize | isize
  | string | bytes | uuid | date | time | dateTime | duration | bigInt | bigFloat | rational
  deriving DecidableEq

namespace ScalarType

/-- The label of the variant that the type is stored as. -/
def stored : ScalarType → String
  | .bool => "bool"
  | .i8 => "i8"
  | .i16 => "i16"
  | .i32 => "i32"
  | .i64 => "i64"
  | .i128 => "i128"
  | .u8 => "u8"
  | .u16 => "u16"
  | .u32 => "u32"
  | .u64 => "u64"
  | .u128 => "u128"
  | .f32 => "f32"
  | .f64 => "f64"
  | .usize => "u64"
  | .isize => "i64"
  | .string => "str"
  | .bytes => "bytes"
  | .uuid => "uuid"
  | .date => "date"
  | .time => "time"
  | .dateTime => "datetime"
  | .duration => "duration"
  | .bigInt => "bigint"
  | .bigFloat => "bigfloat"
  | .rational => "rational"

/-- The name of the type in an error. -/
def name : ScalarType → String
  | .usize => "usize"
  | .isize => "isize"
  | t => t.stored

/-- The value of a scalar, which is the scalar itself if it is of the type's variant. -/
def fromScalar (t : ScalarType) (s : Scalar) : AdbResult Scalar :=
  if s.typeStr = t.stored then .ok s else .error (.typeMismatch t.name s.typeStr)

omit [Externals] in
theorem stored_ne_null (t : ScalarType) : t.stored ≠ "null" := by
  cases t <;> decide

end ScalarType

/-! ## Types and their values -/

/-- A type, with the derived ones by number. -/
inductive DataType where
  | scalar (t : ScalarType)
  | option (t : DataType)
  | vec (t : DataType)
  /-- A map from strings, in key order. -/
  | map (t : DataType)
  | derived (n : Nat)
  deriving DecidableEq

/-- A value; a scalar by what it is stored as, the fields of a struct and the payload of an enum in
the order of their declaration. -/
inductive Data where
  | scalar (s : Scalar)
  | none
  | some (inner : Data)
  | vec (items : List Data)
  | map (entries : List (Str × Data))
  | struct (fields : List Data)
  | variant (index : Nat) (payload : List Data)

/-- A field of a derived struct: its stored name, the names it is also read from, and what it is if
nothing is stored. -/
structure Field where
  name : Str
  aliases : List Str
  default : Option Data
  ty : DataType

/-- What a variant carries. -/
inductive Fields where
  | unit
  | unnamed (types : List DataType)
  | named (fields : List (Str × DataType))

/-- A variant: the tag it is stored under, the tags it is also read from, and whether it is read for
every other tag. -/
structure Variant where
  tag : Str
  aliases : List Str
  other : Bool
  fields : Fields

/-- Where an enum keeps its tag: as the name of the payload, in a field beside it, or among the
fields of the payload itself. -/
inductive EnumRepr where
  | external
  | adjacent (tag content : Str)
  | internal (tag : Str)

/-- A derived type. An enum may have a message of its own for a tag it does not know. -/
inductive Definition where
  | struct (fields : List Field)
  | enum (repr : EnumRepr) (expecting : Option String) (variants : List Variant)

/-- The name of the element at an index of a flattened tuple. -/
def decimal (index : Nat) : Str := ⟨index.repr⟩

namespace Fields

def types : Fields → List DataType
  | .unit => []
  | .unnamed types => types
  | .named fields => fields.map Prod.snd

/-- The fields of a payload that is flattened into an object. -/
def flattened : Fields → List (Str × DataType)
  | .unit => []
  | .unnamed types => types.zipIdx.map fun x => (decimal x.2, x.1)
  | .named fields => fields

end Fields

/-- The named fields of a struct. -/
def Field.entry (f : Field) : Str × DataType := (f.name, f.ty)

/-! ## Typing -/

section Typing

variable (defs : Nat → Definition)

mutual

/-- The value has the type; no key of a map in it is one of the two reserved names. -/
def Of : DataType → Data → Prop
  | .scalar t, .scalar s => s.typeStr = t.stored
  | .option _, .none => True
  | .option t, .some d => Of t d
  | .vec t, .vec items => items.length < 2 ^ 64 ∧ OfItems t items
  | .map t, .map entries => Assoc.Sorted entries ∧ OfEntries t entries
  | .derived n, .struct fields =>
    match defs n with
    | .struct fs => OfFields (fs.map Field.ty) fields
    | .enum _ _ _ => False
  | .derived n, .variant index payload =>
    match defs n with
    | .struct _ => False
    | .enum _ _ variants =>
      match variants[index]? with
      | some v => OfFields v.fields.types payload
      | none => False
  | _, _ => False

def OfItems (t : DataType) : List Data → Prop
  | [] => True
  | d :: ds => Of t d ∧ OfItems t ds

def OfEntries (t : DataType) : List (Str × Data) → Prop
  | [] => True
  | (name, d) :: es => ¬ VPath.Reserved name ∧ Of t d ∧ OfEntries t es

def OfFields : List DataType → List Data → Prop
  | [], [] => True
  | t :: ts, d :: ds => Of t d ∧ OfFields ts ds
  | _, _ => False

end

end Typing

section Members

variable {defs : Nat → Definition} {t : DataType}

theorem ofItems_iff {items : List Data} : OfItems defs t items ↔ ∀ d ∈ items, Of defs t d := by
  induction items with
  | nil => simp [OfItems]
  | cons d ds ih => simp [OfItems, ih]

theorem ofEntries_iff {entries : List (Str × Data)} :
    OfEntries defs t entries ↔ ∀ x ∈ entries, ¬ VPath.Reserved x.1 ∧ Of defs t x.2 := by
  induction entries with
  | nil => simp [OfEntries]
  | cons x xs ih => simp [OfEntries, ih, and_assoc]

theorem ofFields_iff {types : List DataType} {ds : List Data} :
    OfFields defs types ds ↔ List.Forall₂ (Of defs) types ds := by
  induction types generalizing ds with
  | nil =>
    cases ds with
    | nil => exact ⟨fun _ => .nil, fun _ => trivial⟩
    | cons d ds => exact ⟨False.elim, fun h => nomatch h⟩
  | cons t ts ih =>
    cases ds with
    | nil => exact ⟨False.elim, fun h => nomatch h⟩
    | cons d ds => rw [OfFields, List.forall₂_cons, ih]

end Members

/-! ## Well-formed types -/

/-- A value of the type is never stored as a `null` leaf. -/
def DataType.NeverNull : DataType → Prop
  | .option _ => False
  | _ => True

/-- An option is over a type that is never stored as `null`. -/
def DataType.WF : DataType → Prop
  | .scalar _ | .derived _ => True
  | .option t => t.NeverNull ∧ t.WF
  | .vec t | .map t => t.WF

/-- Names that are stored beside each other: distinct, and none of the reserved ones. -/
def StoredNames (names : List Str) : Prop := names.Nodup ∧ ∀ name ∈ names, ¬ VPath.Reserved name

/-- The variant is stored under the tag, or read from it. -/
def Variant.Claims (v : Variant) (tag : Str) : Prop := v.tag = tag ∨ v.other = false ∧ tag ∈ v.aliases

structure Variant.WF (repr : EnumRepr) (v : Variant) : Prop where
  tag : ¬ VPath.Reserved v.tag
  other : v.other = true → v.fields = .unit
  arity : v.fields.types.length < 2 ^ 64
  types : ∀ t ∈ v.fields.types, t.WF
  /-- The names of the payload are distinct; flattened, they differ from the tag field too. -/
  names : match repr with
    | .internal tag => StoredNames (tag :: v.fields.flattened.map Prod.fst)
    | _ => StoredNames (v.fields.flattened.map Prod.fst)

omit [Externals] in
theorem Variant.WF.stored {repr : EnumRepr} {v : Variant} (h : v.WF repr) :
    StoredNames (v.fields.flattened.map Prod.fst) := by
  match repr, h with
  | .internal tag, h =>
    obtain ⟨hnodup, hreserved⟩ := h.names
    exact ⟨(List.nodup_cons.1 hnodup).2, fun name hname => hreserved name (List.mem_cons_of_mem _ hname)⟩
  | .external, h => exact h.names
  | .adjacent _ _, h => exact h.names

/-- The tag field and the payload have different names. -/
def EnumRepr.WF : EnumRepr → Prop
  | .adjacent tag content => StoredNames [tag, content]
  | .internal _ | .external => True

/-- A derived type with distinct stored names, or with distinct tags. -/
def Definition.WF : Definition → Prop
  | .struct fields => StoredNames (fields.map Field.name) ∧ ∀ f ∈ fields, f.ty.WF
  | .enum repr _ variants =>
    repr.WF ∧ (∀ v ∈ variants, v.WF repr) ∧
    variants.Pairwise (fun v w => ¬ v.Claims w.tag ∧ ¬ w.Claims v.tag ∧ ¬ (v.other = true ∧ w.other = true))

end ArborDb
