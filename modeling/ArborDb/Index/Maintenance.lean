import ArborDb.Index.Definitions
import ArborDb.Index.Pattern

/-!
# Index entries and their maintenance

Every entry of the shared index table begins with its index's id. A non-unique index appends the
entity's key after the encoded columns; a unique index keeps it in the value, so that the columns
alone form the key. A mutation is bracketed: the entries of the entities on its line are deleted
before it and inserted again after it.
-/

namespace ArborDb

/-- The compact id of an index. -/
abbrev IndexId := Fin (2 ^ 32)

/-- A registered index. -/
structure IndexEntry where
  id : IndexId
  definition : IndexDef
  deriving DecidableEq

/-! ## Physical keys -/

/-- The bytes every entry of an index begins with. -/
def idPrefix (id : IndexId) : Bytes := Bytes.be 4 id.val

def entryKey (id : IndexId) (cols : Bytes) (entity : Option AKey) : Bytes :=
  idPrefix id ++ cols ++ (entity.map AKey.intoBytes).getD []

section

variable [Externals]

/-- The scalar at a column of an entity, `null` when the entity is absent or a directory, or the
path is absent or not a leaf. -/
def columnScalar (data : SortedMap AKey Entry) (entity : AKey) (column : VPath) :
    AdbResult Scalar :=
  match data.get entity with
  | some (.file blob) => do
    let a ← ArchivedValue.new blob
    match ← a.root.navigate column with
    | none => return .null
    | some node =>
      match ← node.kind with
      | .leaf => node.scalar
      | _ => return .null
  | _ => .ok .null

/-- The values of the columns of a definition. -/
def columnValues (data : SortedMap AKey Entry) (columns : List IndexColumn) (entity : AKey) :
    AdbResult (List Scalar) :=
  columns.mapM fun column => columnScalar data entity column.path

/-- The key and the value of an entity's entry. -/
def indexKey (data : SortedMap AKey Entry) (id : IndexId) (d : IndexDef) (entity : AKey) :
    AdbResult (Bytes × Bytes) := do
  let values ← columnValues data d.columns entity
  let cols := d.encodeColumns values
  if d.unique then return (entryKey id cols none, entity.intoBytes)
  else return (entryKey id cols (some entity), [])

/-- The entries of the entities an index matches on a path's line. -/
def entriesFor (data : SortedMap AKey Entry) (entry : IndexEntry) (scope : APath) :
    AdbResult (List (Bytes × Bytes)) := do
  let pattern ← Pattern.parse entry.definition.pattern
  (pattern.affectedEntities data scope).mapM (indexKey data entry.id entry.definition)

/-! ## Maintenance -/

/-- Fails if a key already maps to another entity. -/
def guardUnique (index : SortedMap Bytes Bytes) (key value : Bytes) (name : Str) : AdbResult Unit :=
  match index.get key with
  | some existing => if existing ≠ value then .error (.uniqueViolation name) else .ok ()
  | none => .ok ()

def removeKey (key : Bytes) : TxM Unit :=
  modify (fun _ s => { s with index := s.index.erase key }) fun _ _ => rfl

def insertKey (key value : Bytes) : TxM Unit :=
  modify (fun _ s => { s with index := s.index.insert key value }) fun _ _ => rfl

/-- Removes the entries the affected entities currently have. -/
def deleteEntries (indexes : List IndexEntry) (scope : APath) : TxM Unit :=
  Prog.forEach (fun entry => do
    let entries ← inspect fun _ s => entriesFor s.data entry scope
    Prog.forEach (fun kv => removeKey kv.1) entries) indexes

/-- Inserts the entries the affected entities now imply; a unique index rejects an entry whose
columns already map to another entity. -/
def insertEntries (indexes : List IndexEntry) (scope : APath) : TxM Unit :=
  Prog.forEach (fun entry => do
    let entries ← inspect fun _ s => entriesFor s.data entry scope
    Prog.forEach (fun kv => do
      if entry.definition.unique then
        inspect fun _ s => guardUnique s.index kv.1 kv.2 entry.definition.name
      insertKey kv.1 kv.2) entries) indexes

end

/-! ## Scanning -/

/-- Every entity of an index whose encoded columns start with `colsPrefix`, in ascending key order:
the keys from the lower bound on, until the first one without the common start. -/
def scanPrefix (index : SortedMap Bytes Bytes) (id : IndexId) (colsPrefix : Bytes) (unique : Bool) :
    AdbResult (List AKey) :=
  let lower := idPrefix id ++ colsPrefix
  ((index.entries.dropWhile fun kv => kv.1 < lower).takeWhile fun kv => lower.isPrefixOf kv.1).mapM
    fun kv =>
      if unique then AKey.tryFromBytes kv.2
      else AKey.tryFromBytes (kv.1.drop (kv.1.length - 16))

end ArborDb
