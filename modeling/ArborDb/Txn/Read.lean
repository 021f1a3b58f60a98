import ArborDb.Db.Database
import ArborDb.Txn.Cache

/-!
# The read transaction

A read transaction reads one snapshot of the database on behalf of a principal. Its reads go through
the caches of its table: a path resolves from the path cache on an unprotected handle, and under
access control by a walk that authorizes and verifies every directory it descends through. The
functions after them say what the snapshot alone answers.
-/

namespace ArborDb

/-- The primitives of the tags, with the verification of a signature under a public key. -/
structure TagScheme extends Crypto where
  verify : Bytes → Bytes → Bytes → Bool

/-- A table opened through a handle. A guest's handle carries the public key. -/
structure Handle where
  table : Str
  principal : Principal
  pubkey : Bytes

/-- A read transaction: its snapshot, and the generation captured with it. -/
structure ReadTxn extends Handle where
  db : Db
  generation : UInt64

def tampered (table : Str) : AdbError :=
  .tampered ("integrity check failed for an a-node in table '" ++ table.text ++ "'")

namespace ReadTxn

variable (c : TagScheme) (t : ReadTxn)

/-- The entries of the table, none if it was never written. -/
def data : SortedMap AKey Entry := (t.db.tx t.table).data

def inodes : InodeTable := (t.db.tx t.table).inodes

/-- Whether the table exists in the snapshot. -/
def opens : Bool := t.db.tables.contains t.table

/-- Whether access control applies. -/
def enforced : Bool := t.principal ≠ .unrestricted

/-! ## Reads through the caches -/

/-- An a-node's entry, from the blob cache or read once and cached. -/
def blobAt (akey : AKey) : CachedM (Option Entry) := do
  match ← consult (.getBlob akey) with
  | some entry => return some entry
  | none =>
    match t.data.get akey with
    | some entry =>
      consult (.putBlob akey entry)
      return some entry
    | none => return none

/-- An a-node's list and tags, from the inode cache or read once and cached. -/
def metaOf (akey : AKey) : CachedM Meta := do
  match ← consult (.getInode akey) with
  | some inode => return decodeMeta inode
  | none =>
    match t.inodes.get akey with
    | some inode =>
      consult (.putInode akey inode)
      return decodeMeta inode
    | none => return (none, none, none)

/-- The tags verify over the entry: a guest checks the signature, a user the keyed tag. -/
def tagHolds (akey : AKey) (entry : Entry) (m : Meta) : Bool :=
  let acl := (m.1.map Acl.encode).getD []
  match t.principal with
  | .user session => m.2.1 = some (macValue c.toCrypto session.key t.table akey entry.toBytes acl)
  | .guest => m.2.2.any fun sig =>
      c.verify t.pubkey (c.hash (absorbValue t.table akey entry.toBytes acl)) sig
  | .unrestricted => true

/-- Checks an a-node's tag over its entry. A user's success is remembered for the generation. -/
def checkTag (akey : AKey) (entry : Entry) (m : Meta) : CachedM Unit := do
  match t.principal with
  | .user _ =>
    if ← consult (.getMacVerified akey) then return ()
    else if t.tagHolds c akey entry m then consult (.putMacVerified akey)
    else throw (tampered t.table)
  | _ => if t.tagHolds c akey entry m then return () else throw (tampered t.table)

/-- Follows names with an access check and an integrity check on every directory. -/
def resolveEnforced : AKey → List Str → CachedM (Option AKey)
  | akey, [] => return some akey
  | akey, name :: names => do
    let m ← t.metaOf akey
    ArborDb.authorize t.principal akey m.1 .access
    match ← t.blobAt akey with
    | none => return none
    | some entry =>
      t.checkTag c akey entry m
      match entry with
      | .file _ => return none
      | .dir children =>
        match children.get name with
        | some child => resolveEnforced child names
        | none => return none

/-- Follows names. -/
def resolveWalk : AKey → List Str → CachedM (Option AKey)
  | akey, [] => return some akey
  | akey, name :: names => do
    match ← t.blobAt akey with
    | some (.dir children) =>
      match children.get name with
      | some child => resolveWalk child names
      | none => return none
    | _ => return none

/-- Resolves a path to an a-node's key. -/
def resolve (path : APath) : CachedM (Option AKey) := do
  if t.enforced then
    match ← consult (.enforcedPath path) with
    | some akey => return some akey
    | none =>
      if t.opens then
        match ← t.resolveEnforced c .root path.names with
        | some akey =>
          consult (.memoPath path akey)
          return some akey
        | none => return none
      else return if path.isRoot then some .root else none
  else
    match ← consult (.getPath path) with
    | some akey => return some akey
    | none =>
      if t.opens then
        match ← t.resolveWalk .root path.names with
        | some akey =>
          consult (.putPath path akey)
          return some akey
        | none => return none
      else return if path.isRoot then some .root else none

def entryBlob (akey : AKey) : CachedM (Option Entry) := do
  match ← consult (.getBlob akey) with
  | some entry => return some entry
  | none => if t.opens then t.blobAt akey else return none

/-- Checks that the principal may access an a-node. -/
def authorize (akey : AKey) : CachedM Unit := do
  if t.enforced then
    if ← consult (.accessMemoed akey) then return ()
    else
      let m ← t.metaOf akey
      ArborDb.authorize t.principal akey m.1 .access
      consult (.memoAccess akey)
  else return ()

/-- Verifies the tag of an a-node over the entry read for it. -/
def verify (akey : AKey) (entry : Entry) : CachedM Unit := do
  if t.enforced then
    if ← consult (.verifyMemoed akey) then return ()
    else
      let m ← t.metaOf akey
      t.checkTag c akey entry m
      consult (.memoVerified akey)
  else return ()

/-! ## What the snapshot answers -/

def storedMeta (akey : AKey) : Meta := ((t.inodes.get akey).map decodeMeta).getD (none, none, none)

/-- Follows names in the snapshot. -/
def walk (path : APath) : Option AKey := Layout.walk t.data.get .root path.names

/-- Checks that the principal may access an a-node of the snapshot. -/
def authorizeStored (akey : AKey) : AdbResult Unit :=
  ArborDb.authorize t.principal akey (t.storedMeta akey).1 .access

/-- Follows names in the snapshot, checking every directory. -/
def walkEnforced : AKey → List Str → AdbResult (Option AKey)
  | akey, [] => .ok (some akey)
  | akey, name :: names => do
    t.authorizeStored akey
    match t.data.get akey with
    | none => return none
    | some entry =>
      if t.tagHolds c akey entry (t.storedMeta akey) then
        match entry with
        | .file _ => return none
        | .dir children =>
          match children.get name with
          | some child => walkEnforced child names
          | none => return none
      else throw (tampered t.table)

end ReadTxn

/-! ## The calls -/

/-- The primitives every read function is made of. A verification is of the entry that was read. -/
inductive ReadCall where
  | resolve (path : APath)
  | entryBlob (akey : AKey)
  | metaOf (akey : AKey)
  | authorize (akey : AKey)
  | verify (akey : AKey)

inductive Answer where
  | key (found : Option AKey)
  | entry (found : Option Entry)
  | stored (m : Meta)
  | passed

def ReadCall.prog (c : TagScheme) (t : ReadTxn) : ReadCall → CachedM Answer
  | .resolve path => return .key (← t.resolve c path)
  | .entryBlob akey => return .entry (← t.entryBlob akey)
  | .metaOf akey => return .stored (← t.metaOf akey)
  | .authorize akey => do
    t.authorize akey
    return .passed
  | .verify akey => do
    match ← t.entryBlob akey with
    | none => return .passed
    | some entry =>
      t.verify c akey entry
      return .passed

end ArborDb
