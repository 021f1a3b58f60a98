import ArborDb.Db.InodeCaches
import ArborDb.Index.Maintenance
import ArborDb.Txn.Grab

/-!
# The read surface

The two kinds of transaction share their reads. What differs is a handful of primitives, collected in a
`GrabSource`: a reader answers them from its snapshot, a writer from its own tables and buffer. The reads
are written once over the primitives, the index queries among them.
-/

namespace ArborDb

/-- The primitives of a transaction. -/
structure GrabSource where
  resolve : APath → AdbResult (Option AKey)
  entryBlob : AKey → Option Entry
  lookupIndex : Str → Option IndexEntry
  scanIndex : IndexEntry → Bytes → AdbResult (List AKey)
  affectedUnder : Pattern → APath → List AKey
  /-- Checks that the principal may access an a-node. -/
  authorize : AKey → AdbResult Unit
  verify : AKey → Entry → AdbResult Unit
  aclOf : AKey → Option Acl
  gidOf : Str → Option Id32
  userName : Id32 → Option Str
  groupName : Id32 → Option Str

/-- A pending query. -/
structure IndexQuery [Externals] where
  index : Str
  /-- The leading column values to match. -/
  leading : List Scalar
  /-- Whether the hits come in reverse order. -/
  reverse : Bool
  /-- Only what is at or under it is kept. -/
  root : APath

namespace IndexQuery

variable [Externals]

def new (index : Str) : IndexQuery := ⟨index, [], false, .root⟩

def prefixed (q : IndexQuery) (values : List Scalar) : IndexQuery := { q with leading := values }

def reversed (q : IndexQuery) : IndexQuery := { q with reverse := true }

def under (q : IndexQuery) (root : APath) : IndexQuery := { q with root := root }

end IndexQuery

namespace GrabSource

variable (src : GrabSource) {α : Type} (load : Bytes → AdbResult α)

/-! ## Reads of a path -/

/-- Reads the entry at a path, with the checks every read makes. -/
def read (path : APath) : AdbResult (Option Entry) := do
  match ← src.resolve path with
  | none => return none
  | some akey =>
    src.authorize akey
    match src.entryBlob akey with
    | none => return none
    | some entry =>
      src.verify akey entry
      return some entry

/-- Loads the file at a path. -/
def loadAt (path : APath) : AdbResult (Option α) := do
  match ← src.read path with
  | none => return none
  | some (.file blob) => return some (← load blob)
  | some (.dir _) => throw (Grab.isADirectory path)

/-- Reads the scalar at `vpath` inside the file at a path. -/
def get [Externals] (path : APath) (vpath : VPath) : AdbResult (Option Scalar) := do
  match ← src.read path with
  | some (.file blob) =>
    let a ← ArchivedValue.new blob
    match ← a.root.navigate vpath with
    | none => return none
    | some node => node.scalarIfLeaf
  | _ => return none

/-- The kind of the a-node at a path, or `none` if it is absent. -/
def kind (path : APath) : AdbResult (Option EntryKind) := do
  return (← src.read path).map Entry.kind

/-- Whether a file or directory exists at a path. -/
def exists? (path : APath) : AdbResult Bool := do
  return (← src.kind path).isSome

/-- The kind of each child of a listing, without a check of the child. -/
def listing : List (Str × AKey) → AdbResult (List (Str × EntryKind))
  | [] => .ok []
  | (name, c) :: rest => do
    match src.entryBlob c with
    | none => throw (.corrupt "a directory entry points at a missing a-node")
    | some entry => return (name, entry.kind) :: (← listing rest)

/-- Lists the children of the directory at a path, in name order. -/
def ls (path : APath) : AdbResult (List (Str × EntryKind)) := do
  match ← src.resolve path with
  | none => throw (.valueNotFound path)
  | some akey =>
    src.authorize akey
    match src.entryBlob akey with
    | none => return []
    | some entry =>
      src.verify akey entry
      match entry with
      | .file _ => throw (.cannotAccess ("'" ++ path.display ++ "' is a file, not a directory"))
      | .dir children => src.listing children.entries

/-! ## Reads of a list -/

/-- The rights that a class has at a path. -/
def getAcl (path : APath) (cls : AclClass) : AdbResult Rights := do
  match ← src.resolve path with
  | none => throw (.valueNotFound path)
  | some akey =>
    match src.aclOf akey with
    | none => return .none
    | some acl =>
      match cls with
      | .user => return acl.owner
      | .other => return acl.other
      | .group name =>
        match src.gidOf name with
        | some gid => return (acl.group.get gid).getD .none
        | none => return .none

/-- The name of the owner at a path, or the number of one that is no longer known. -/
def owner (path : APath) : AdbResult (Option Str) := do
  match ← src.resolve path with
  | none => return none
  | some akey =>
    match src.aclOf akey with
    | none => return none
    | some acl => return some ((src.userName acl.ownerUid).getD ⟨toString acl.ownerUid.val⟩)

/-- The names of the groups at a path, sorted. -/
def groups (path : APath) : AdbResult (List Str) := do
  match ← src.resolve path with
  | none => return []
  | some akey =>
    match src.aclOf akey with
    | none => return []
    | some acl => return (acl.group.entries.filterMap fun g => src.groupName g.1).mergeSort (· ≤ ·)

/-! ## Queries -/

/-- Loads the file stored under a key. There is none if nothing is stored, or a directory, or if the
principal may not access it. -/
def loadEntity (entity : AKey) : AdbResult (Option α) :=
  match src.authorize entity with
  | .error (.permissionDenied _) => .ok none
  | .error err => .error err
  | .ok () =>
    match src.entryBlob entity with
    | none => .ok none
    | some entry => do
      src.verify entity entry
      match entry with
      | .file blob => return some (← load blob)
      | .dir _ => return none

/-- Loads what is found, in turn. -/
def loadAll : List AKey → AdbResult (List α)
  | [] => .ok []
  | entity :: entities => do
    match ← src.loadEntity load entity with
    | some value => return value :: (← loadAll entities)
    | none => loadAll entities

/-- Keeps the entities at or under a root. -/
def underRoot (x : IndexEntry) (root : APath) (entities : List AKey) : AdbResult (List AKey) :=
  if root.names = [] then .ok entities
  else do
    let pattern ← Pattern.parse x.definition.pattern
    if pattern.depth < root.names.length then return []
    let under := src.affectedUnder pattern root
    return entities.filter (· ∈ under)

/-- Scans an index for the keys that start with the leading columns, and loads each file. -/
def executeQuery [Externals] (q : IndexQuery) : AdbResult (List α) :=
  match src.lookupIndex q.index with
  | none => .error (.indexNotFound q.index)
  | some x =>
    if x.definition.columns.length < q.leading.length then
      .error (.indexArity q.index x.definition.columns.length q.leading.length)
    else do
      let found ← src.scanIndex x (x.definition.encodeColumns q.leading)
      let entities ← src.underRoot x q.root found
      src.loadAll load (if q.reverse then entities.reverse else entities)

/-- The files of an index under a value of its columns. -/
def find [Externals] (index : Str) (values : List Scalar) : AdbResult (List α) :=
  src.executeQuery load ((IndexQuery.new index).prefixed values)

end GrabSource

/-! ## The two transactions -/

/-- A read transaction answers from its snapshot. -/
def ReadTxn.source (c : TagScheme) (t : ReadTxn) : GrabSource where
  resolve path :=
    if t.enforced then t.resolveStored c path
    else if t.opens then .ok (t.walk path)
    else .ok (if path.isRoot then some .root else none)
  entryBlob k := t.data.get k
  lookupIndex index := t.db.registry.lookup t.table index
  scanIndex x cols := scanPrefix t.db.index x.id cols x.definition.unique
  affectedUnder pattern root := if t.opens then pattern.affectedEntities t.data root else []
  authorize k := if t.enforced then t.authorizeStored k else .ok ()
  verify k entry := if t.enforced then t.tagResult c k entry else .ok ()
  aclOf k := (t.storedMeta k).1
  gidOf name := (t.db.control.loadGroups.named name).map GroupRecord.gid
  userName uid := (t.db.control.loadUsers.users.find? (·.uid = uid)).map UserRecord.name
  groupName gid := (t.db.control.loadGroups.groups.find? (·.gid = gid)).map GroupRecord.name

theorem ReadTxn.storedMeta_eq {t : ReadTxn} {k : AKey} {inode : Inode} (h : t.inodes.get k = some inode) :
    t.storedMeta k = decodeMeta inode := by
  unfold storedMeta
  rw [h]
  rfl

theorem ReadTxn.source_entryBlob (c : TagScheme) (t : ReadTxn) (k : AKey) :
    (t.source c).entryBlob k = t.data.get k := rfl

theorem ReadTxn.source_verify (c : TagScheme) {t : ReadTxn} (h : t.enforced = true) (k : AKey) (entry : Entry) :
    (t.source c).verify k entry = t.tagResult c k entry := if_pos h

/-- Without access control everything is permitted anyway. -/
theorem ReadTxn.source_authorize (c : TagScheme) (t : ReadTxn) (k : AKey) :
    (t.source c).authorize k = t.authorizeStored k := by
  change (if t.enforced then t.authorizeStored k else .ok ()) = _
  split
  · rfl
  · rename_i hopen
    have hp : t.principal = .unrestricted := by simpa [ReadTxn.enforced] using hopen
    rw [ReadTxn.authorizeStored, hp, authorize_unrestricted]

/-- A write transaction answers from its own state. -/
def Grab.source (e : Env) (control : Control) (registry : Registry) (s : TxState) : GrabSource where
  resolve path := Grab.resolve e s path
  entryBlob k := Grab.entryBlob s k
  lookupIndex index := registry.lookup e.table index
  scanIndex x cols := scanPrefix s.index x.id cols x.definition.unique
  affectedUnder pattern root := pattern.affectedEntities s.data root
  authorize k := Grab.authorize e s k .access
  verify k entry := Grab.verify e s k entry
  aclOf k := s.inodes.readAcl k
  gidOf name := (control.loadGroups.named name).map GroupRecord.gid
  userName uid := (control.loadUsers.users.find? (·.uid = uid)).map UserRecord.name
  groupName gid := (control.loadGroups.groups.find? (·.gid = gid)).map GroupRecord.name

section Writer

variable (e : Env) (control : Control) (registry : Registry) (s : TxState)

/-- A writer loads, and lists, as the shared reads do. -/
theorem Grab.loadAt_source [Externals] (path : APath) :
    (Grab.source e control registry s).loadAt Codec.decode path = Grab.loadValue e s path := rfl

theorem Grab.kind_source (path : APath) : (Grab.source e control registry s).kind path = Grab.kind e s path := rfl

end Writer

end ArborDb
