import ArborDb.Index.Registry
import ArborDb.Lib.Except
import ArborDb.Perm.Store
import ArborDb.Txn.Permissions

/-!
# The database

The committed state of a database: its user tables with their inodes, the index table and the
registry, and the permission store. A transaction of the engine works on a copy and replaces it at
its commit; a failed one is dropped. Write transactions exclude each other, so an operation is a
function of the state committed when it begins. What it read in an earlier snapshot is an argument.
-/

namespace ArborDb

/-- The committed state. A table that was never opened for writing is missing. -/
structure Db where
  tables : SortedMap Str (SortedMap AKey Entry)
  inodes : SortedMap Str InodeTable
  index : SortedMap Bytes Bytes
  registry : Registry
  control : Control
  drawn : Nat

/-- The environment of a transaction on another table. -/
def Env.on (e : Env) (table : Str) : Env := { e with table := table }

namespace Db

def empty : Db := ⟨.empty, .empty, .empty, .empty, ⟨none, none, none, none, none, []⟩, 0⟩

variable (db : Db)

/-- The user tables, in name order. -/
def listTables : List Str := db.tables.entries.map Prod.fst

/-- One table as a transaction sees it. -/
def tx (table : Str) : TxState :=
  ⟨(db.tables.get table).getD .empty, (db.inodes.get table).getD .empty, db.index, .new false,
    db.drawn⟩

/-- The database after a transaction on one table. -/
def put (table : Str) (s : TxState) : Db :=
  { db with
    tables := db.tables.insert table s.data
    inodes := db.inodes.insert table s.inodes
    index := s.index
    drawn := s.drawn }

theorem data_put (table t : Str) (s : TxState) :
    ((db.put table s).tx t).data = if t = table then s.data else (db.tx t).data := by
  change ((db.tables.insert table s.data).get t).getD .empty = _
  rw [SortedMap.get_insert]
  split <;> rfl

theorem inodes_put (table t : Str) (s : TxState) :
    ((db.put table s).tx t).inodes = if t = table then s.inodes else (db.tx t).inodes := by
  change ((db.inodes.insert table s.inodes).get t).getD .empty = _
  rw [SortedMap.get_insert]
  split <;> rfl

/-! ## Writers -/

section Writers

variable [Externals]

/-- The database after a write transaction. -/
def write (txn : OpTxn) : Db := db.put txn.env.table (txn.run (db.tx txn.env.table))

/-- The database after some write transactions. -/
def writeAll (txns : List OpTxn) : Db := txns.foldl (fun db txn => db.write txn) db

/-! ## Indexes -/

/-- Registers an index on a table and back-fills it. -/
def createIndex (e : Env) (d : IndexDef) : AdbResult Db := do
  let (registry, created) ← db.registry.create e.table d
  let db := { db with registry := registry }
  if created then
    match registry.lookup e.table d.name with
    | none => return db
    | some entry =>
      match (backfill entry).run e (db.tx e.table) with
      | (.ok _, s) => return db.put e.table s
      | (.error err, _) => throw err
  else return db

/-- Registers an index unless the table has one of that name. -/
def ensureIndex (e : Env) (d : IndexDef) : AdbResult Db :=
  if (db.registry.lookup e.table d.name).isSome then .ok db else db.createIndex e d

/-- Drops an index and its entries; whether there was one. -/
def deleteIndex (table name : Str) : AdbResult (Db × Bool) := do
  let (registry, removed) ← db.registry.delete table name
  let db := { db with registry := registry }
  match removed with
  | none => return (db, false)
  | some entry => return ({ db with index := deleteAll db.index entry }, true)

end Writers

/-! ## Promotion -/

/-- Stamps the master's default list on an a-node and seals it. -/
def sealRow (c : Crypto) (key seed : Bytes) (table : Str) (inodes : InodeTable)
    (row : AKey × Entry) : InodeTable :=
  let inodes := if row.1 = .root then inodes else inodes.setDefaultAcl row.1 masterUid
  let acl := ((inodes.readAcl row.1).map Acl.encode).getD []
  (inodes.sealMac row.1 (macValue c key table row.1 row.2.toBytes acl)).sealSig row.1
    (signValue c seed table row.1 row.2.toBytes acl)

/-- Seals every a-node of a table. -/
def sealTable (c : Crypto) (key seed : Bytes) (table : Str) : Db :=
  let s := db.tx table
  db.put table { s with inodes := s.data.entries.foldl (sealRow c key seed table) s.inodes }

/-- Promotes an unprotected database: the secrets are new, and `listed` are the user tables that an
earlier snapshot held. -/
def promoteToMaster (c : Crypto) (p : Primitives) (key seed : Bytes) (w : Wrapping) (password : Str)
    (listed : List Str) : AdbResult (Db × Session) := do
  let entry ← wrapSecrets p w password key seed
  let control ← db.control.promote c key p seed entry
  return (listed.foldl (fun db table => db.sealTable c key seed table) { db with control := control },
    ⟨masterUid, [masterGid], key, seed⟩)

/-! ## Administration -/

/-- The inode after a group is dropped from its list. -/
def stripInode (gid : Id32) (inode : Inode) : Inode :=
  match inode.acl with
  | some acl => if acl.hasGroup gid then { inode with acl := some (acl.removeGroup gid) } else inode
  | none => inode

/-- Drops a group from every list. -/
def stripGroup (gid : Id32) : Db :=
  { db with inodes := db.inodes.mapValues fun inodes => inodes.mapValues (stripInode gid) }

theorem stripInode_eq {gid : Id32} {inode : Inode}
    (h : ∀ acl, inode.acl = some acl → acl.hasGroup gid = false) : stripInode gid inode = inode := by
  unfold stripInode
  cases hacl : inode.acl with
  | none => rfl
  | some acl => simp [h acl hacl]

theorem inodes_stripGroup (gid : Id32) (table : Str) :
    ((db.stripGroup gid).tx table).inodes = (db.tx table).inodes.mapValues (stripInode gid) := by
  unfold tx stripGroup
  rw [SortedMap.get_mapValues]
  cases db.inodes.get table <;> rfl

/-- Deletes what a user owns in one table. -/
def reapOwnedIn (e : Env) (uid : Id32) (table : Str) : AdbResult Db :=
  match (reapOwned uid).run (e.on table) (db.tx table) with
  | (.ok _, s) => .ok (db.put table s)
  | (.error err, _) => .error err

/-- Deletes what a user owns, table by table. -/
def reapAll (e : Env) (uid : Id32) : List Str → Db → AdbResult Db
  | [], db => .ok db
  | table :: tables, db => do
    let db ← db.reapOwnedIn e uid table
    reapAll e uid tables db

end Db

/-- Whether the permission system is installed. -/
def Db.isProtected (db : Db) : Bool := ⟨"permissions"⟩ ∈ db.control.requirements

/-- The session of an administrator. -/
def adminCreds (principal : Principal) : AdbResult Session :=
  match principal with
  | .user session =>
    if session.isMaster || session.inMasterGroup then .ok session
    else .error (.permissionDenied
      "administration requires the master user or a master-group member")
  | _ => .error (.permissionDenied
      "administration requires the master user or a master-group member")

/-- An administrative call. A removal of a user has looked the name up in one earlier snapshot and
listed the user tables in another. -/
inductive Admin where
  | addUser (name password : Str) (w : Wrapping) (createGroup : Bool)
  | addGroup (name : Str)
  | renameUser (old new : Str)
  | renameGroup (old new : Str)
  | assign (user group : Str)
  | unassign (user group : Str)
  | changePassword (password : Str) (w : Wrapping)
  | removeGroup (name : Str)
  | removeUser (name : Str) (before : Control) (listed : List Str)

/-- The call, made through a handle of the environment's principal. -/
def Admin.exec (e : Env) (p : Primitives) (db : Db) : Admin → AdbResult Db
  | .addUser name password w createGroup => do
    let s ← adminCreds e.principal
    let entry ← wrapSecrets p w password s.key s.signSeed
    let control ← db.control.addUser e.crypto s.key name entry createGroup
    return { db with control := control }
  | .addGroup name => do
    let s ← adminCreds e.principal
    let control ← db.control.addGroup e.crypto s.key name
    return { db with control := control }
  | .renameUser old new => do
    let s ← adminCreds e.principal
    let control ← db.control.renameUser e.crypto s.key old new
    return { db with control := control }
  | .renameGroup old new => do
    let s ← adminCreds e.principal
    let control ← db.control.renameGroup e.crypto s.key old new
    return { db with control := control }
  | .assign user group => do
    let s ← adminCreds e.principal
    let control ← db.control.assign e.crypto s.key user group
    return { db with control := control }
  | .unassign user group => do
    let s ← adminCreds e.principal
    let control ← db.control.unassign e.crypto s.key user group
    return { db with control := control }
  | .changePassword password w =>
    match e.principal with
    | .user s => do
      let entry ← wrapSecrets p w password s.key s.signSeed
      let control ← db.control.changeUserPassword e.crypto s.key s.uid entry
      return { db with control := control }
    -- an unrestricted handle does not come here: it promotes the database
    | _ => .error (.permissionDenied "the guest user has no password to change")
  | .removeGroup name => do
    let s ← adminCreds e.principal
    let (gid, control) ← db.control.removeGroup e.crypto s.key name
    return { db with control := control }.stripGroup gid
  | .removeUser name before listed => do
    let s ← adminCreds e.principal
    let user ← requireUser before.loadUsers name
    if isProtectedUser user.uid then
      throw (.permissionDenied ("the built-in user '" ++ name.text ++ "' cannot be removed"))
    else
      let db ← Db.reapAll e user.uid listed db
      return { db with control := db.control.forgetUser e.crypto s.key user.uid }

/-- The removal of a user advances the generation of the database. -/
def Admin.bumps : Admin → Bool
  | .removeUser _ _ _ => true
  | _ => false

theorem Control.removeGroup_gid {c : Crypto} {key : Bytes} {control control' : Control} {name : Str}
    {gid : Id32} (h : control.removeGroup c key name = .ok (gid, control')) :
    ∃ group, control.loadGroups.named name = some group ∧ group.gid = gid := by
  unfold Control.removeGroup requireGroup at h
  obtain ⟨group, hgroup, h⟩ := Except.bind_eq_ok.1 h
  split at hgroup
  · cases hgroup
    split at h
    · cases h
    · cases h
      exact ⟨_, ‹_›, rfl⟩
  · cases hgroup

/-- What a call of administration changes: the permission store, and the tables only to drop a group
from the lists or to remove a user. -/
theorem Admin.exec_cases {db db' : Db} {e : Env} {p : Primitives} {op : Admin}
    (h : op.exec e p db = .ok db') :
    (∃ control, db' = { db with control := control } ∧ op.bumps = false ∧
      ∀ name, op ≠ .removeGroup name) ∨
    (∃ name group control, op = .removeGroup name ∧ db.control.loadGroups.named name = some group ∧
      db' = ({ db with control := control } : Db).stripGroup group.gid) ∨
    ∃ name before listed uid control mid, op = .removeUser name before listed ∧
      Db.reapAll e uid listed db = .ok mid ∧ db' = { mid with control := control } := by
  have hstore : ∀ {result : AdbResult Control}, (do
      let control ← result
      return { db with control := control }) = Except.ok db' →
        ∃ control, db' = { db with control := control } := by
    intro result hresult
    obtain ⟨control, _, hresult⟩ := Except.bind_eq_ok.1 hresult
    cases hresult
    exact ⟨control, rfl⟩
  have hsession : ∀ {f : Session → AdbResult Db}, adminCreds e.principal >>= f = .ok db' →
      ∃ s, adminCreds e.principal = .ok s ∧ f s = .ok db' := Except.bind_eq_ok.1
  cases op with
  | addUser name password w createGroup =>
    obtain ⟨s, _, h⟩ := hsession h
    obtain ⟨entry, _, h⟩ := Except.bind_eq_ok.1 h
    exact .inl ((hstore h).imp fun _ h => ⟨h, rfl, nofun⟩)
  | addGroup name =>
    obtain ⟨s, _, h⟩ := hsession h
    exact .inl ((hstore h).imp fun _ h => ⟨h, rfl, nofun⟩)
  | renameUser old new =>
    obtain ⟨s, _, h⟩ := hsession h
    exact .inl ((hstore h).imp fun _ h => ⟨h, rfl, nofun⟩)
  | renameGroup old new =>
    obtain ⟨s, _, h⟩ := hsession h
    exact .inl ((hstore h).imp fun _ h => ⟨h, rfl, nofun⟩)
  | assign user group =>
    obtain ⟨s, _, h⟩ := hsession h
    exact .inl ((hstore h).imp fun _ h => ⟨h, rfl, nofun⟩)
  | unassign user group =>
    obtain ⟨s, _, h⟩ := hsession h
    exact .inl ((hstore h).imp fun _ h => ⟨h, rfl, nofun⟩)
  | changePassword password w =>
    simp only [Admin.exec] at h
    split at h
    · obtain ⟨entry, _, h⟩ := Except.bind_eq_ok.1 h
      exact .inl ((hstore h).imp fun _ h => ⟨h, rfl, nofun⟩)
    · cases h
  | removeGroup name =>
    obtain ⟨s, _, h⟩ := hsession h
    obtain ⟨⟨gid, control⟩, hremove, h⟩ := Except.bind_eq_ok.1 h
    cases h
    obtain ⟨group, hgroup, rfl⟩ := Control.removeGroup_gid hremove
    exact .inr (.inl ⟨name, group, control, rfl, hgroup, rfl⟩)
  | removeUser name before listed =>
    obtain ⟨s, _, h⟩ := hsession h
    obtain ⟨user, _, h⟩ := Except.bind_eq_ok.1 h
    split at h
    · cases h
    · obtain ⟨mid, hreap, h⟩ := Except.bind_eq_ok.1 h
      cases h
      exact .inr (.inr ⟨name, before, listed, user.uid, _, mid, rfl, hreap, rfl⟩)

end ArborDb
