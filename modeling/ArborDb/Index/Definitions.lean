import ArborDb.Index.Ordered

/-!
# Index definitions

A definition names the pattern of the entities it indexes and the columns of its sort key, each
with a direction.
-/

namespace ArborDb

inductive Direction where
  | asc
  | desc
  deriving DecidableEq

/-- One sort-key column: a path relative to a matched entity, and a direction. -/
structure IndexColumn where
  path : VPath
  direction : Direction
  deriving DecidableEq

structure IndexDef where
  /-- The index name, unique per table. -/
  name : Str
  /-- The text of the path pattern that selects the indexed entities. -/
  pattern : Str
  columns : List IndexColumn
  /-- Whether the column tuple must be unique across entities. -/
  unique : Bool
  deriving DecidableEq

variable [Externals]

/-- One column value in the direction of its column. -/
def Direction.encode (d : Direction) (s : Scalar) : Bytes := Ordered.encodeScalar s (d = .desc)

/-- Encodes column values into the byte prefix an index key starts with. -/
def encodeColumns : List Direction → List Scalar → Bytes
  | d :: ds, s :: ss => d.encode s ++ encodeColumns ds ss
  | _, _ => []

def IndexDef.directions (d : IndexDef) : List Direction := d.columns.map IndexColumn.direction

def IndexDef.encodeColumns (d : IndexDef) (values : List Scalar) : Bytes :=
  ArborDb.encodeColumns d.directions values

end ArborDb
