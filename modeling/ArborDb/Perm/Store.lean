import ArborDb.Perm.Access

/-!
# The users and groups of a protected database

The permission store keeps the users, each with its groups and its wrapped copy of the secrets, and
the groups. A change seals the store: it advances the epoch and computes the control tag over the
two encoded lists and the public key. A failed change is dropped with its transaction.
-/

namespace ArborDb

/-! ## Records -/

/-- The random salt and nonce of one wrapping. -/
structure Wrapping where
  salt : Bytes
  nonce : Bytes
  salt_length : salt.length = 16
  nonce_length : nonce.length = 24
  deriving DecidableEq

/-- The database secrets wrapped under one user's password. -/
structure KeyringEntry extends Wrapping where
  wrapped : Bytes
  deriving DecidableEq

structure UserRecord where
  name : Str
  uid : Id32
  /-- Whether the user is kept but can neither authenticate nor be changed. -/
  frozen : Bool
  gids : List Id32
  /-- `none` for a user without a password. -/
  keyring : Option KeyringEntry
  deriving DecidableEq

/-- Every user and the next id to allocate. -/
structure Users where
  nextUid : Id32
  users : List UserRecord
  deriving DecidableEq

structure GroupRecord where
  name : Str
  gid : Id32
  deriving DecidableEq

/-- Every group and the next id to allocate. -/
structure Groups where
  nextGid : Id32
  groups : List GroupRecord
  deriving DecidableEq

def superGid : Id32 := 1

def masterUser : Str := ⟨"master"⟩
def guestUser : Str := ⟨"guest"⟩
def masterGroup : Str := ⟨"master"⟩
def superGroup : Str := ⟨"super"⟩

def KeyringEntry.encode : Option KeyringEntry → Bytes
  | none => Bytes.be 1 0
  | some entry => Bytes.be 1 1 ++ entry.salt ++ entry.nonce ++ putBytes entry.wrapped

def UserRecord.encode (user : UserRecord) : Bytes :=
  putBytes user.name.bytes ++ putU32 user.uid.val ++ Bytes.be 1 user.frozen.toNat ++
    putU32 user.gids.length ++ (user.gids.flatMap fun gid => putU32 gid.val) ++
    KeyringEntry.encode user.keyring

def Users.encode (u : Users) : Bytes :=
  putU32 u.nextUid.val ++ putU32 u.users.length ++ u.users.flatMap UserRecord.encode

def Groups.encode (g : Groups) : Bytes :=
  putU32 g.nextGid.val ++ putU32 g.groups.length ++
    g.groups.flatMap fun group => putBytes group.name.bytes ++ putU32 group.gid.val

def Users.named (u : Users) (name : Str) : Option UserRecord := u.users.find? (·.name = name)

def Groups.named (g : Groups) (name : Str) : Option GroupRecord := g.groups.find? (·.name = name)

/-- Edits the first element that satisfies a predicate. -/
def editFirst {α : Type} (p : α → Bool) (f : α → α) : List α → List α
  | [] => []
  | a :: l => if p a then f a :: l else a :: editFirst p f l

/-- Edits the first user of a name. -/
def Users.edit (u : Users) (name : Str) (f : UserRecord → UserRecord) : Users :=
  { u with users := editFirst (·.name = name) f u.users }

/-! ## The control plane -/

/-- The primitives behind a password, which are not part of the library. -/
structure Primitives where
  /-- The verification key of a signing seed. -/
  publicKey : Bytes → Bytes
  /-- Encrypts the secrets under a password, with the salt and the nonce. -/
  wrapKey : Str → Wrapping → Bytes → AdbResult Bytes

/-- What the metadata table keeps of the permission system. -/
structure Control where
  users : Option Users
  groups : Option Groups
  pubkey : Option Bytes
  epoch : Option UInt64
  controlMac : Option Bytes
  requirements : List Str
  deriving DecidableEq

/-- Wraps the integrity key and the signing seed under a password. -/
def wrapSecrets (p : Primitives) (w : Wrapping) (password : Str) (key seed : Bytes) :
    AdbResult KeyringEntry := do
  let wrapped ← p.wrapKey password w (key ++ seed)
  return ⟨w, wrapped⟩

def macControl (c : Crypto) (key : Bytes) (epoch : UInt64) (users groups pubkey : Bytes) : Bytes :=
  c.keyedHash key
    (Bytes.be 1 2 ++ Bytes.be 8 epoch.toNat ++ field users ++ field groups ++ field pubkey)

/-- A built-in user can be neither removed nor renamed. -/
def isProtectedUser (uid : Id32) : Bool := uid = masterUid || uid = guestUid

/-- A built-in group can be neither removed nor renamed. -/
def isProtectedGroup (gid : Id32) : Bool := gid = masterGid || gid = superGid

def requireUser (u : Users) (name : Str) : AdbResult UserRecord :=
  match u.named name with
  | some user => .ok user
  | none => .error (.cannotAccess ("no user named '" ++ name.text ++ "'"))

def requireGroup (g : Groups) (name : Str) : AdbResult GroupRecord :=
  match g.named name with
  | some group => .ok group
  | none => .error (.cannotAccess ("no group named '" ++ name.text ++ "'"))

def requireNoUser (u : Users) (name : Str) : AdbResult Unit :=
  if (u.named name).isSome then
    .error (.cannotAccess ("a user named '" ++ name.text ++ "' already exists"))
  else .ok ()

def requireNoGroup (g : Groups) (name : Str) : AdbResult Unit :=
  if (g.named name).isSome then
    .error (.cannotAccess ("a group named '" ++ name.text ++ "' already exists"))
  else .ok ()

namespace Control

variable (c : Crypto) (key : Bytes) (control : Control)

def loadUsers : Users := control.users.getD ⟨2, []⟩

def loadGroups : Groups := control.groups.getD ⟨2, []⟩

def storeUsers (users : Users) : Control := { control with users := some users }

def storeGroups (groups : Groups) : Control := { control with groups := some groups }

/-- Advances the epoch and rewrites the tag over what is stored. -/
def sealControl : Control :=
  let epoch := control.epoch.getD 0 + 1
  { control with
    epoch := some epoch
    controlMac := some (macControl c key epoch ((control.users.map Users.encode).getD [])
      ((control.groups.map Groups.encode).getD []) (control.pubkey.getD [])) }

/-- Records a feature that a reader must have. -/
def require (feature : Str) : Control :=
  if feature ∈ control.requirements then control
  else { control with requirements := control.requirements ++ [feature] }

/-! ## The operations -/

/-- The store of a database that is being promoted. -/
def promote (p : Primitives) (seed : Bytes) (entry : KeyringEntry) : AdbResult Control :=
  if control.users.isSome then .error (.cannotAccess "the database is already protected")
  else
    let users : Users := ⟨2, [⟨masterUser, masterUid, false, [masterGid], some entry⟩,
      ⟨guestUser, guestUid, true, [], none⟩]⟩
    let groups : Groups := ⟨2, [⟨masterGroup, masterGid⟩, ⟨superGroup, superGid⟩]⟩
    let control := ((control.storeUsers users).storeGroups groups).require ⟨"permissions"⟩
    .ok ({ control with pubkey := some (p.publicKey seed) }.sealControl c key)

def changeUserPassword (uid : Id32) (entry : KeyringEntry) : AdbResult Control :=
  let users := control.loadUsers
  if users.users.any (·.uid = uid) then
    let users := { users with
      users := editFirst (·.uid = uid) (fun user => { user with keyring := some entry }) users.users }
    .ok ((control.storeUsers users).sealControl c key)
  else .error (.corrupt "the authenticated user is missing from the store")

def addUser (name : Str) (entry : KeyringEntry) (createGroup : Bool) : AdbResult Control := do
  let users := control.loadUsers
  requireNoUser users name
  let add (gids : List Id32) : Users :=
    ⟨users.nextUid + 1, users.users ++ [⟨name, users.nextUid, false, gids, some entry⟩]⟩
  if createGroup then
    let groups := control.loadGroups
    requireNoGroup groups name
    let control := control.storeGroups
      ⟨groups.nextGid + 1, groups.groups ++ [⟨name, groups.nextGid⟩]⟩
    return (control.storeUsers (add [groups.nextGid])).sealControl c key
  else return (control.storeUsers (add [])).sealControl c key

def addGroup (name : Str) : AdbResult Control := do
  let groups := control.loadGroups
  requireNoGroup groups name
  return (control.storeGroups
    ⟨groups.nextGid + 1, groups.groups ++ [⟨name, groups.nextGid⟩]⟩).sealControl c key

def renameUser (old new : Str) : AdbResult Control := do
  let users := control.loadUsers
  requireNoUser users new
  let user ← requireUser users old
  if isProtectedUser user.uid then
    throw (.permissionDenied ("the built-in user '" ++ old.text ++ "' cannot be renamed"))
  else return (control.storeUsers (users.edit old fun user => { user with name := new })).sealControl c key

def renameGroup (old new : Str) : AdbResult Control := do
  let groups := control.loadGroups
  requireNoGroup groups new
  let group ← requireGroup groups old
  if isProtectedGroup group.gid then
    throw (.permissionDenied ("the built-in group '" ++ old.text ++ "' cannot be renamed"))
  else
    let renamed := editFirst (·.name = old) (fun group => { group with name := new }) groups.groups
    return (control.storeGroups { groups with groups := renamed }).sealControl c key

/-- Adds a user to a group. -/
def assign (user group : Str) : AdbResult Control := do
  let users := control.loadUsers
  let found ← requireGroup control.loadGroups group
  let record ← requireUser users user
  if record.frozen then throw (.frozen user)
  else if found.gid ∈ record.gids then return control
  else
    return (control.storeUsers
      (users.edit user fun r => { r with gids := r.gids ++ [found.gid] })).sealControl c key

/-- Removes a user from a group. -/
def unassign (user group : Str) : AdbResult Control := do
  let users := control.loadUsers
  let found ← requireGroup control.loadGroups group
  let record ← requireUser users user
  if found.gid ∈ record.gids then
    return (control.storeUsers
      (users.edit user fun r => { r with gids := r.gids.filter (· ≠ found.gid) })).sealControl c key
  else return control

/-- Removes a group and its members' memberships; the id that is to be stripped from the lists. -/
def removeGroup (name : Str) : AdbResult (Id32 × Control) := do
  let groups := control.loadGroups
  let group ← requireGroup groups name
  if isProtectedGroup group.gid then
    throw (.permissionDenied ("the built-in group '" ++ name.text ++ "' cannot be removed"))
  else
    let users := control.loadUsers
    let left := users.users.map fun user => { user with gids := user.gids.filter (· ≠ group.gid) }
    let control := control.storeUsers { users with users := left }
    let control := control.storeGroups
      { groups with groups := groups.groups.filter (·.gid ≠ group.gid) }
    return (group.gid, control.sealControl c key)

/-- Removes a user's record. -/
def forgetUser (uid : Id32) : Control :=
  let users := control.loadUsers
  (control.storeUsers { users with users := users.users.filter (·.uid ≠ uid) }).sealControl c key

end Control

end ArborDb
