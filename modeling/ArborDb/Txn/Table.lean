import ArborDb.Txn.Context

/-!
# Mutations of a table

The functions that store, edit, remove, move and copy a-nodes. Each one is written over the reads
and writes of the context; the recursive ones are bounded by the number of a-nodes, which only a
cycle of directories can exceed.
-/

namespace ArborDb

/-! ## Directories -/

/-- Ensures the root directory exists. -/
def ensureRoot : TxM Unit := do
  if ← inspect (fun _ s => .ok (hasEntry s .root)) then return ()
  else putDir .root .empty

/-- Ensures every directory along the names exists below `akey`; the deepest one's key. -/
def ensureDirFrom : AKey → List Str → TxM AKey
  | akey, [] => return akey
  | akey, name :: names => do
    inspect (check · · akey .access)
    match ← inspect (child · · akey name) with
    | some c =>
      if (← inspect (kind · · c)) ≠ some .dir then
        fail (.cannotAccess ("'" ++ name.text ++ "' is a file, not a directory"))
      else ensureDirFrom c names
    | none =>
      inspect (check · · akey .modify)
      let c ← generate
      putDir c .empty
      linkChild akey name c
      ensureDirFrom c names

/-- Ensures every directory along a path exists. -/
def ensureDir (path : APath) : TxM AKey := do
  ensureRoot
  ensureDirFrom .root path.names

/-- Removes an a-node and, if it is a directory, its whole subtree. -/
def cascadeDelete : Nat → AKey → TxM Unit
  | 0, _ => fail .stackOverflow
  | fuel + 1, akey => do
    match ← inspect (cascadeChildren · · akey) with
    | none => return ()
    | some children =>
      Prog.forEach (cascadeDelete fuel) children
      removeEntry akey

/-- Copies the children of a directory one by one. -/
def copyChildren (copy : AKey → TxM AKey) :
    List (Str × AKey) → SortedMap Str AKey → TxM (SortedMap Str AKey)
  | [], copied => return copied
  | (name, c) :: rest, copied => do
    let fresh ← copy c
    copyChildren copy rest (copied.insert name fresh)

/-- Copies an a-node, a directory recursively, under fresh keys. -/
def deepCopy : Nat → AKey → TxM AKey
  | 0, _ => fail .stackOverflow
  | fuel + 1, akey => do
    inspect (check · · akey .access)
    let fresh ← generate
    match ← inspect (kind · · akey) with
    | none => fail (.corrupt "copying a missing a-node")
    | some .file =>
      match ← inspect (readVerified · · akey) with
      | none => fail (.corrupt "copying a missing a-node")
      | some entry =>
        putEntry fresh entry
        return fresh
    | some .dir =>
      let children ← inspect (dirChildren · · akey)
      let copied ← copyChildren (deepCopy fuel) children.entries .empty
      putDir fresh copied
      return fresh

/-- Runs a recursive mutation with the bound the state gives. -/
def bounded {α : Type} (f : Nat → TxM α) : TxM α := do
  let size ← inspect (fun _ s => .ok s.size)
  f (size + 1)

/-! ## Storing -/

def splitLastOrPanic (path : APath) : AdbResult (APath × Str) :=
  match path.splitLast with
  | some split => .ok split
  | none => .error (.panic "a non-root path has a parent and a name")

/-- Stores an encoded value as a file at a path, creating parents and replacing what was there. -/
def storeBlobInto (path : APath) (valueBlob : Bytes) : TxM Unit := do
  let (parentPath, name) ← inspect fun _ _ => splitLastOrPanic path
  let parent ← ensureDir parentPath
  inspect (check · · parent .access)
  match ← inspect (child · · parent name) with
  | some node =>
    if (← inspect (kind · · node)) = some .file then
      inspect (check · · node .modify)
      putEntry node (.file valueBlob)
    else
      inspect (fun e s => checkDeletable e s (s.size + 1) node)
      inspect (check · · parent .modify)
      bounded (cascadeDelete · node)
      let fresh ← generate
      linkChild parent name fresh
      putEntry fresh (.file valueBlob)
  | none =>
    inspect (check · · parent .modify)
    let fresh ← generate
    linkChild parent name fresh
    putEntry fresh (.file valueBlob)

/-! ## Removing, moving, copying -/

/-- Removes the a-node at a path and its subtree; whether anything was removed. -/
def rmInto (path : APath) : TxM Bool := do
  let (parentPath, name) ← inspect fun _ _ => splitLastOrPanic path
  match ← inspect (resolve · · parentPath) with
  | none => return false
  | some parent =>
    inspect (check · · parent .access)
    match ← inspect (child · · parent name) with
    | none => return false
    | some akey =>
      inspect (fun e s => checkDeletable e s (s.size + 1) akey)
      bounded (cascadeDelete · akey)
      unlinkChild parent name
      return true

/-- Deletes what a mutation is about to replace. -/
def clearSlot (parent : AKey) (name : Str) : TxM Unit := do
  match ← inspect (child · · parent name) with
  | none => return ()
  | some existing =>
    inspect (fun e s => checkDeletable e s (s.size + 1) existing)
    bounded (cascadeDelete · existing)

/-- Relinks the a-node at `src` to `dst`, keeping its key. -/
def mvInto (src dst : APath) : TxM Unit := do
  let (srcParentPath, srcName) ← inspect fun _ _ => splitLastOrPanic src
  let (dstParentPath, dstName) ← inspect fun _ _ => splitLastOrPanic dst
  match ← inspect (resolve · · srcParentPath) with
  | none => fail (.valueNotFound src)
  | some srcParent =>
    inspect (check · · srcParent .access)
    match ← inspect (child · · srcParent srcName) with
    | none => fail (.valueNotFound src)
    | some akey =>
      inspect (check · · akey .delete)
      let dstParent ← ensureDir dstParentPath
      inspect (check · · dstParent .modify)
      clearSlot dstParent dstName
      linkChild dstParent dstName akey
      unlinkChild srcParent srcName

/-- Copies the subtree at `src` to `dst` under fresh keys. -/
def cpInto (src dst : APath) : TxM Unit := do
  let (dstParentPath, dstName) ← inspect fun _ _ => splitLastOrPanic dst
  match ← inspect (resolve · · src) with
  | none => fail (.valueNotFound src)
  | some srcAkey =>
    let dstParent ← ensureDir dstParentPath
    inspect (check · · dstParent .modify)
    clearSlot dstParent dstName
    let copy ← bounded (deepCopy · srcAkey)
    linkChild dstParent dstName copy

/-! ## Reaping -/

/-- The links to the a-nodes a user owns below a directory. An owned directory is taken whole. -/
def collectOwned (e : Env) (s : TxState) (uid : Id32) : Nat → AKey → AdbResult (List (AKey × Str))
  | 0, _ => .error .stackOverflow
  | fuel + 1, dir => do
    let children ← dirChildren e s dir
    let found ← children.entries.mapM fun x => do
      if (s.inodes.readAcl x.2).map Acl.ownerUid = some uid then return [(dir, x.1)]
      else if (← kind e s x.2) = some .dir then collectOwned e s uid fuel x.2
      else return []
    return found.flatten

/-- Removes one owned a-node, unless an earlier removal took it along. -/
def reapVictim (victim : AKey × Str) : TxM Unit := do
  match ← inspect (child · · victim.1 victim.2) with
  | none => return ()
  | some c =>
    bounded (cascadeDelete · c)
    unlinkChild victim.1 victim.2

/-- Deletes every a-node a user owns, without access checks. -/
def reapOwned (uid : Id32) : TxM Unit := do
  let victims ← inspect fun e s => collectOwned e s uid (s.size + 1) .root
  Prog.forEach reapVictim victims

/-! ## Scalars -/

section Scalars

variable [Externals]

/-- Stores a value as a file at a path. -/
def storeValueInto (path : APath) (value : Value) : TxM Unit :=
  storeBlobInto path (Codec.encode value)

/-- Resolves a path and reads the entry there. -/
def resolveAndRead (e : Env) (s : TxState) (path : APath) : AdbResult (Option (AKey × Entry)) := do
  match ← resolve e s path with
  | none => return none
  | some akey => return (← readVerified e s akey).map fun entry => (akey, entry)

/-- The file a scalar write edits. A build without permissions trusts a key captured at an
unchanged count of structural changes. -/
def resolveTarget (e : Env) (s : TxState) (path : APath) (hint : Option (AKey × UInt64)) :
    AdbResult (Option (AKey × Entry)) := do
  if e.build ≠ .permissions then
    match hint with
    | some (key, epoch) =>
      if epoch = s.buffer.epoch then
        match ← readVerified e s key with
        | some entry => return some (key, entry)
        | none => resolveAndRead e s path
      else resolveAndRead e s path
    | none => resolveAndRead e s path
  else resolveAndRead e s path

/-- The blob with the leaf at `vpath` overwritten, if the new scalar keeps the leaf's width. -/
def patchScalar (entry : Entry) (vpath : VPath) (scalar : Scalar) : AdbResult (Option Bytes) :=
  match entry with
  | .dir _ => .ok none
  | .file blob => do
    let a ← ArchivedValue.new blob
    match ← a.leafScalarSpan vpath with
    | none => return none
    | some (off, len) =>
      if scalar.encode.length ≠ len then return none
      else return some (blob.take off ++ scalar.encode ++ blob.drop (off + len))

/-- The blob of a file with the scalar at `vpath` set, decoded and encoded again. -/
def rewriteScalar (path : APath) (entry : Entry) (vpath : VPath) (scalar : Scalar) :
    AdbResult Bytes :=
  match entry with
  | .file blob => do
    let value ← Codec.decode blob
    return Codec.encode (value.setValue vpath (.leaf scalar)).1
  | .dir _ => .error (.cannotAccess ("'" ++ path.display ++ "' is a directory, not a file"))

/-- Sets the scalar at `vpath` inside the file at a path, patched in place where the width allows;
creates the file when there is none. -/
def putScalarInto (path : APath) (hint : Option (AKey × UInt64)) (vpath : VPath) (scalar : Scalar) :
    TxM Unit := do
  match ← inspect (resolveTarget · · path hint) with
  | some (akey, entry) =>
    inspect (check · · akey .modify)
    match ← inspect fun _ _ => patchScalar entry vpath scalar with
    | some blob => putFileEdit akey blob
    | none =>
      let blob ← inspect fun _ _ => rewriteScalar path entry vpath scalar
      putFileEdit akey blob
  | none => storeValueInto path (Value.default.setValue vpath (.leaf scalar)).1

end Scalars

end ArborDb
