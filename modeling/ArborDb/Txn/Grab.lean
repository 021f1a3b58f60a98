import ArborDb.Access.Reader
import ArborDb.Txn.Write

/-!
# Reads of a write transaction

A writer reads its own uncommitted state. `Grab` is what the shared read functions are built on:
how a path resolves, what an a-node's entry is, and the checks of a protected database. The mutable
cursor has a path of its own (`loadValueAt`), which does not look for buffered directories.
-/

namespace ArborDb

variable (e : Env) (s : TxState)

/-! ## Primitives -/

/-- Follows names through the buffered directories and the table, without access checks. -/
def resolveBufferedFrom : AKey → List Str → Option AKey
  | akey, [] => some akey
  | akey, name :: names =>
    let next := match s.buffer.dirGet akey with
      | some children => children.get name
      | none => childOf s.data akey name
    match next with
    | some c => resolveBufferedFrom c names
    | none => none

def resolveBuffered (path : APath) : Option AKey := resolveBufferedFrom s .root path.names

/-- Follows names with an access check and an integrity check on every directory. -/
def resolveEnforcedFrom : AKey → List Str → AdbResult (Option AKey)
  | akey, [] => .ok (some akey)
  | akey, name :: names => do
    authorize e.principal akey (s.inodes.readAcl akey) .access
    match s.buffer.dirGet akey with
    | some children =>
      match children.get name with
      | some c => resolveEnforcedFrom c names
      | none => return none
    | none =>
      match ← readTable e s akey with
      | some (.dir children) =>
        match children.get name with
        | some c => resolveEnforcedFrom c names
        | none => return none
      | _ => return none

namespace Grab

/-- Whether access control applies. -/
def enforced : Bool := e.principal ≠ .unrestricted

def resolve (path : APath) : AdbResult (Option AKey) :=
  if enforced e then resolveEnforcedFrom e s .root path.names
  else .ok (resolveBuffered s path)

/-- An a-node's entry: a buffered directory, a buffered file, or the table's. -/
def entryBlob (akey : AKey) : Option Entry :=
  match s.buffer.dirGet akey with
  | some children => some (.dir children)
  | none => match s.buffer.fileGet akey with
    | some blob => some (.file blob)
    | none => s.data.get akey

def authorize (akey : AKey) (needed : Rights) : AdbResult Unit :=
  if enforced e then ArborDb.authorize e.principal akey (s.inodes.readAcl akey) needed else .ok ()

/-- A buffered entry is the transaction's own state; any other is verified. -/
def verify (akey : AKey) (entry : Entry) : AdbResult Unit :=
  if (s.buffer.dirGet akey).isSome then .ok ()
  else if (s.buffer.fileGet akey).isSome then .ok ()
  else verifyIntegrity e s akey entry

/-- Reads the entry at a path, with the checks every read makes. -/
def read (path : APath) : AdbResult (Option Entry) := do
  match ← resolve e s path with
  | none => return none
  | some akey =>
    authorize e s akey .access
    match entryBlob s akey with
    | none => return none
    | some entry =>
      verify e s akey entry
      return some entry

/-! ## The read functions -/

def isADirectory (path : APath) : AdbError :=
  .cannotAccess ("'" ++ path.display ++ "' is a directory, not a file")

/-- Loads the value of the file at a path, or `none` if there is nothing there. -/
def loadValue [Externals] (path : APath) : AdbResult (Option Value) := do
  match ← read e s path with
  | none => return none
  | some (.file blob) => return some (← Codec.decode blob)
  | some (.dir _) => throw (isADirectory path)

/-- Reads the scalar at `vpath` inside the file at a path. -/
def get [Externals] (path : APath) (vpath : VPath) : AdbResult (Option Scalar) := do
  match ← read e s path with
  | some (.file blob) =>
    let a ← ArchivedValue.new blob
    match ← a.root.navigate vpath with
    | none => return none
    | some node => node.scalarIfLeaf
  | _ => return none

/-- The kind of the a-node at a path, or `none` if it is absent. -/
def kind (path : APath) : AdbResult (Option EntryKind) := do
  return (← read e s path).map Entry.kind

/-- Whether a file or directory exists at a path. -/
def exists? (path : APath) : AdbResult Bool := do
  return (← kind e s path).isSome

/-- The kind of each child of a listing. -/
def listing : List (Str × AKey) → AdbResult (List (Str × EntryKind))
  | [] => .ok []
  | (name, c) :: rest => do
    match entryBlob s c with
    | none => throw (.corrupt "a directory entry points at a missing a-node")
    | some entry => return (name, entry.kind) :: (← listing rest)

/-- Lists the children of the directory at a path, in name order. -/
def ls (path : APath) : AdbResult (List (Str × EntryKind)) := do
  match ← resolve e s path with
  | none => throw (.valueNotFound path)
  | some akey =>
    authorize e s akey .access
    match entryBlob s akey with
    | none => return []
    | some entry =>
      verify e s akey entry
      match entry with
      | .file _ => throw (.cannotAccess ("'" ++ path.display ++ "' is a file, not a directory"))
      | .dir children => listing s children.entries

end Grab

/-! ## The mutable cursor -/

section Cursor

variable [Externals]

/-- Loads the value of the file at a path for a cursor: the walk sees buffered directories, the
read of the entry does not. -/
def loadValueAt (path : APath) : AdbResult (Option Value) :=
  match resolveBuffered s path with
  | none => .ok none
  | some akey => do
    match ← readVerified e s akey with
    | none => return none
    | some (.file blob) => return some (← Codec.decode blob)
    | some (.dir _) => throw (Grab.isADirectory path)

/-- The path and the kind an accessor opens at. -/
def resolveWithKind (path : APath) : Option (AKey × Option EntryKind) :=
  match resolveBuffered s path with
  | none => none
  | some akey =>
    if (s.buffer.dirGet akey).isSome then some (akey, some .dir)
    else some (akey, (s.data.get akey).map Entry.kind)

/-- A cursor: the path it edits, the key found there, and the count of structural changes then. -/
structure Cursor where
  path : APath
  akey : AKey
  epoch : UInt64
  deriving DecidableEq

/-- Opens a cursor over the file at a path, or `none` if it is absent. -/
def fetchMut (path : APath) : AdbResult (Option Cursor) :=
  match resolveWithKind s path with
  | some (akey, some .file) => .ok (some ⟨path, akey, s.buffer.epoch⟩)
  | some (_, some .dir) => .error (Grab.isADirectory path)
  | _ => .ok none

namespace Cursor

variable (c : Cursor) (indexes : List IndexEntry)

/-- The file's current value, an empty default if it has vanished. -/
def value : AdbResult Value := MutCursor.value (loadValueAt e s c.path)

def putScalar (vpath : VPath) (scalar : Scalar) : TxM Unit :=
  putScalarAt indexes c.path (some (c.akey, c.epoch)) vpath scalar

/-- Makes the vnode at `vpath` a list or an object, keeping one that already is. -/
def ensureContainer (vpath : VPath) (list : Bool) : TxM Unit := do
  let value ← inspect (value · · c)
  let fits := match value.subtree vpath with
    | some (.list _) => list
    | some (.node _) => !list
    | _ => false
  if fits then storeValueAt indexes c.path value
  else
    let empty := if list then Value.list [] else Value.node []
    storeValueAt indexes c.path (value.setValue vpath empty).1

/-- Removes the vnode at `vpath`; whether there was one. -/
def remove (vpath : VPath) : TxM Bool := do
  let value ← inspect (value · · c)
  let (rest, removed) := value.removeValue vpath
  storeValueAt indexes c.path rest
  return removed

end Cursor

end Cursor

end ArborDb
