import ArborDb.Codec.Dir
import ArborDb.Lib.Layout
import ArborDb.Lib.Prog
import ArborDb.Perm.Access

/-!
# The tables and the write-back buffer behind a mutation

A write transaction keeps the a-nodes of its table (`data`), their metadata (`inodes`), the shared
index table, and a write-back buffer of the directories and files edited since the last flush. The
reads below consult the buffer and the table in the order the source does, which is not the same
for all of them; under an authenticated user a read of the table checks the entry's integrity tag.

A write cannot fail and a failed program keeps what it wrote, so a mutation is a `TxM` program over
the whole state. The memo of a-nodes already verified in one mutation is left out: it skips a check
that would pass again.
-/

namespace ArborDb

open Layout (Cell)

/-! ## Entries -/

/-- Whether an a-node is a directory or a file. -/
inductive EntryKind where
  | dir
  | file
  deriving DecidableEq

/-- An a-node's stored entry: a directory's children, or a file's value blob. -/
abbrev Entry := Cell AKey Str Bytes

namespace Entry

@[match_pattern] abbrev file (blob : Bytes) : Entry := Cell.leaf blob

@[match_pattern] abbrev dir (children : SortedMap Str AKey) : Entry := Cell.branch children

def kind : Entry → EntryKind
  | .dir _ => .dir
  | .file _ => .file

/-- The tagged blob the data table holds. -/
def toBytes : Entry → Bytes
  | .dir children => Bytes.be 1 0 ++ Codec.encodeDir children
  | .file blob => Bytes.be 1 1 ++ blob

end Entry

/-! ## The write-back buffer -/

/-- The dirty a-nodes of one write transaction. A clear flag promises an empty map. -/
structure WriteBuffer where
  /-- Whether writes buffer here at all. -/
  buffering : Bool
  dirsDirty : Bool
  dirs : SortedMap AKey (SortedMap Str AKey)
  filesDirty : Bool
  files : SortedMap AKey Bytes
  /-- The count of structural changes. -/
  epoch : UInt64
  dirs_clean : dirsDirty = false → dirs = .empty
  files_clean : filesDirty = false → files = .empty

namespace WriteBuffer

def new (buffering : Bool) : WriteBuffer :=
  ⟨buffering, false, .empty, false, .empty, 0, fun _ => rfl, fun _ => rfl⟩

/-- The buffered children of a directory; the flag is looked at first. -/
def dirGet (b : WriteBuffer) (akey : AKey) : Option (SortedMap Str AKey) :=
  if b.dirsDirty then b.dirs.get akey else none

/-- Buffers a directory's children. -/
def dirPut (b : WriteBuffer) (akey : AKey) (children : SortedMap Str AKey) : WriteBuffer :=
  { b with dirs := b.dirs.insert akey children, dirsDirty := true, dirs_clean := nofun }

def fileGet (b : WriteBuffer) (akey : AKey) : Option Bytes :=
  if b.filesDirty then b.files.get akey else none

def filePut (b : WriteBuffer) (akey : AKey) (blob : Bytes) : WriteBuffer :=
  { b with files := b.files.insert akey blob, filesDirty := true, files_clean := nofun }

/-- Drops a file from the buffer: a direct write supersedes it. -/
def fileForget (b : WriteBuffer) (akey : AKey) : WriteBuffer :=
  { b with
    files := if b.filesDirty then b.files.erase akey else b.files
    files_clean := fun h => by simp [h, b.files_clean h] }

/-- Drops an a-node from the buffer. -/
def forget (b : WriteBuffer) (akey : AKey) : WriteBuffer :=
  { b.fileForget akey with
    dirs := if b.dirsDirty then b.dirs.erase akey else b.dirs
    dirs_clean := fun h => by
      have hd : b.dirsDirty = false := h
      simp [hd, b.dirs_clean hd] }

def bumpStructure (b : WriteBuffer) : WriteBuffer := { b with epoch := b.epoch + 1 }

/-- Takes every buffered entry out: what is left buffers nothing. -/
def clear (b : WriteBuffer) : WriteBuffer :=
  { b with
    dirsDirty := false, dirs := .empty, filesDirty := false, files := .empty
    dirs_clean := fun _ => rfl, files_clean := fun _ => rfl }

/-- Turns buffering off for the rest of the transaction. -/
def disable (b : WriteBuffer) : WriteBuffer := { b with buffering := false }

@[simp] theorem dirGet_eq (b : WriteBuffer) (akey : AKey) : b.dirGet akey = b.dirs.get akey := by
  unfold dirGet
  cases h : b.dirsDirty with
  | true => rfl
  | false => rw [b.dirs_clean h]; rfl

@[simp] theorem fileGet_eq (b : WriteBuffer) (akey : AKey) : b.fileGet akey = b.files.get akey := by
  unfold fileGet
  cases h : b.filesDirty with
  | true => rfl
  | false => rw [b.files_clean h]; rfl

@[simp] theorem dirs_fileForget (b : WriteBuffer) (akey : AKey) :
    (b.fileForget akey).dirs = b.dirs := rfl

theorem get_files_fileForget (b : WriteBuffer) (akey k : AKey) :
    (b.fileForget akey).files.get k = if k = akey then none else b.files.get k := by
  change (if b.filesDirty then b.files.erase akey else b.files).get k = _
  cases h : b.filesDirty with
  | true => exact SortedMap.get_erase ..
  | false => simp [b.files_clean h]

theorem get_dirs_forget (b : WriteBuffer) (akey k : AKey) :
    (b.forget akey).dirs.get k = if k = akey then none else b.dirs.get k := by
  change (if b.dirsDirty then b.dirs.erase akey else b.dirs).get k = _
  cases h : b.dirsDirty with
  | true => exact SortedMap.get_erase ..
  | false => simp [b.dirs_clean h]

theorem get_files_forget (b : WriteBuffer) (akey k : AKey) :
    (b.forget akey).files.get k = if k = akey then none else b.files.get k :=
  get_files_fileForget b akey k

end WriteBuffer

/-! ## Environment and state -/

/-- Which of the optional features a build has. Permissions imply timestamps. -/
inductive Build where
  | plain
  | timestamps
  | permissions
  deriving DecidableEq

/-- What a mutation works under and does not change. A guest opens no write transaction, and only
a build with permissions has any other identity than the unrestricted one. -/
structure Env where
  build : Build
  table : Str
  principal : Principal
  /-- The time shared by every a-node the mutation touches. -/
  now : Int
  /-- The keys in the order they are generated. -/
  gen : Nat → AKey
  crypto : Crypto
  writer : principal ≠ .guest
  unprotected : build ≠ .permissions → principal = .unrestricted

/-- The tables of one write transaction, its buffer, and the number of keys generated. -/
structure TxState where
  data : SortedMap AKey Entry
  inodes : InodeTable
  index : SortedMap Bytes Bytes
  buffer : WriteBuffer
  drawn : Nat

instance : Supply TxState := ⟨TxState.drawn⟩

/-- The number of a-nodes in the table and the buffer, a bound on the depth of every directory. -/
def TxState.size (s : TxState) : Nat :=
  (s.data.entries.map Prod.fst ++ s.buffer.dirs.entries.map Prod.fst).toFinset.card

/-- A mutation. -/
abbrev TxM := Prog Env TxState AdbError

export Prog (inspect modify fail)

variable (e : Env) (s : TxState)

/-! ## Reads -/

/-- Verifies an a-node's integrity tag over its entry and its access-control list. Only a user
holds the key; for everyone else this is a no-op. -/
def verifyIntegrity (akey : AKey) (entry : Entry) : AdbResult Unit :=
  match e.principal with
  | .user session =>
    let (acl, mac) := s.inodes.readMeta akey
    let expected := macValue e.crypto session.key e.table akey entry.toBytes
      ((acl.map Acl.encode).getD [])
    if mac = some expected then .ok ()
    else .error (.tampered ("integrity check failed for an a-node in table '" ++ e.table.text ++ "'"))
  | _ => .ok ()

/-- Reads an entry of the table, verified. -/
def readTable (akey : AKey) : AdbResult (Option Entry) :=
  match s.data.get akey with
  | none => .ok none
  | some entry => do
    verifyIntegrity e s akey entry
    return some entry

/-- An edited file from the buffer, or the verified entry of the table. Buffered directories are
not looked at. -/
def readVerified (akey : AKey) : AdbResult (Option Entry) :=
  match s.buffer.fileGet akey with
  | some blob => .ok (some (.file blob))
  | none => readTable e s akey

/-- Whether an a-node exists. -/
def hasEntry (akey : AKey) : Bool := (s.buffer.dirGet akey).isSome || s.data.contains akey

/-- The child of a directory named `name`; `none` if the parent is absent, is a file, or has no
such child. -/
def child (parent : AKey) (name : Str) : AdbResult (Option AKey) :=
  match s.buffer.dirGet parent with
  | some children => .ok (children.get name)
  | none => do
    match ← readVerified e s parent with
    | some (.dir children) => return children.get name
    | _ => return none

/-- The kind of an a-node, or `none` if it is absent. -/
def kind (akey : AKey) : AdbResult (Option EntryKind) :=
  match s.buffer.dirGet akey with
  | some _ => .ok (some .dir)
  | none => do return (← readVerified e s akey).map Entry.kind

/-- A directory's children, empty if it is absent. -/
def dirChildren (akey : AKey) : AdbResult (SortedMap Str AKey) :=
  match s.buffer.dirGet akey with
  | some children => .ok children
  | none => do
    match ← readVerified e s akey with
    | some (.dir children) => return children
    | some (.file _) => throw (.cannotAccess "a path component is a file, not a directory")
    | none => return .empty

/-- The children to delete with an a-node: `none` if it is absent, none of them for a file. -/
def cascadeChildren (akey : AKey) : AdbResult (Option (List AKey)) :=
  match s.buffer.dirGet akey with
  | some children => .ok (some children.values)
  | none => do
    match ← readVerified e s akey with
    | some (.dir children) => return some children.values
    | some (.file _) => return some []
    | none => return none

/-- Checks that the principal holds the `needed` grade on an a-node. -/
def check (akey : AKey) (needed : Rights) : AdbResult Unit :=
  authorize e.principal akey (s.inodes.readAcl akey) needed

/-- Checks that the principal may delete an a-node and everything beneath it. -/
def checkDeletable : Nat → AKey → AdbResult Unit
  | 0, _ => .error .stackOverflow
  | fuel + 1, akey => do
    check e s akey .delete
    if (← kind e s akey) = some .dir then
      let children ← dirChildren e s akey
      children.values.forM (checkDeletable fuel)

/-- Follows names from a directory, checking access on every directory traversed. -/
def resolveFrom : AKey → List Str → AdbResult (Option AKey)
  | akey, [] => .ok (some akey)
  | akey, name :: names => do
    check e s akey .access
    match ← child e s akey name with
    | some c => resolveFrom c names
    | none => return none

/-- Resolves a path to an a-node's key. -/
def resolve (path : APath) : AdbResult (Option AKey) := resolveFrom e s .root path.names

/-! ## Writes -/

/-- A fresh key. -/
def generate : TxM AKey :=
  ⟨fun e s => (.ok (e.gen s.drawn), { s with drawn := s.drawn + 1 }), fun _ s => Nat.le_succ s.drawn⟩

/-- The inodes after an entry is written: a user stamps and seals it, anyone else records the
time, and a build without timestamps keeps no inodes. -/
def Env.record (inodes : InodeTable) (akey : AKey) (entry : Entry) : InodeTable :=
  match e.build with
  | .plain => inodes
  | .timestamps => inodes.touch akey e.now
  | .permissions => match e.principal with
    | .user session =>
      inodes.stampAndSeal akey e.now (if akey = .root then none else some session.uid) fun acl =>
        (macValue e.crypto session.key e.table akey entry.toBytes acl,
          signValue e.crypto session.signSeed e.table akey entry.toBytes acl)
    | _ => inodes.touch akey e.now

def TxState.putEntry (akey : AKey) (entry : Entry) : TxState :=
  { s with
    data := s.data.insert akey entry
    buffer := s.buffer.fileForget akey
    inodes := e.record s.inodes akey entry }

/-- Writes an entry straight to the table, superseding a buffered edit. -/
def putEntry (akey : AKey) (entry : Entry) : TxM Unit :=
  modify (fun e s => s.putEntry e akey entry) fun _ _ => rfl

/-- Writes an existing file's edited blob: buffered, or straight to the table. -/
def putFileEdit (akey : AKey) (blob : Bytes) : TxM Unit :=
  modify (fun e s => if s.buffer.buffering then { s with buffer := s.buffer.filePut akey blob }
    else s.putEntry e akey (.file blob)) fun _ _ => by split <;> rfl

def TxState.removeEntry (akey : AKey) : TxState :=
  { s with
    data := s.data.erase akey
    inodes := if e.build = .plain then s.inodes else s.inodes.forget akey
    buffer := s.buffer.forget akey }

/-- Removes an a-node's entry together with its inode and its buffered copy. -/
def removeEntry (akey : AKey) : TxM Unit :=
  modify (fun e s => s.removeEntry e akey) fun _ _ => rfl

/-- Stamps a fresh directory's default list at once; its blob is sealed at the flush. -/
def Env.stampNewDirAcl (inodes : InodeTable) (akey : AKey) : InodeTable :=
  match e.principal with
  | .user session => if akey = .root then inodes else inodes.setDefaultAcl akey session.uid
  | _ => inodes

/-- Writes a directory's children: buffered, or straight to the table. -/
def putDir (akey : AKey) (children : SortedMap Str AKey) : TxM Unit :=
  modify (fun e s => if s.buffer.buffering then
      { s with inodes := e.stampNewDirAcl s.inodes akey, buffer := s.buffer.dirPut akey children }
    else s.putEntry e akey (.dir children)) fun _ _ => by split <;> rfl

/-- Counts a structural change. -/
def bumpStructure : TxM Unit :=
  modify (fun _ s => { s with buffer := s.buffer.bumpStructure }) fun _ _ => rfl

/-- Edits a directory's children. While buffering, the buffered map is edited in place, loaded on
the first touch, and keeps the directory's inode; otherwise the directory is rewritten. -/
def editDir (parent : AKey) (edit : SortedMap Str AKey → SortedMap Str AKey) : TxM Unit := do
  bumpStructure
  let children ← inspect (dirChildren · · parent)
  if ← inspect (fun _ s => .ok s.buffer.buffering) then
    modify (fun _ s => { s with buffer := s.buffer.dirPut parent (edit children) }) fun _ _ => rfl
  else
    putDir parent (edit children)

/-- Adds or replaces a link of a directory. -/
def linkChild (parent : AKey) (name : Str) (c : AKey) : TxM Unit :=
  editDir parent fun children => children.insert name c

/-- Removes a link of a directory. -/
def unlinkChild (parent : AKey) (name : Str) : TxM Unit :=
  editDir parent fun children => children.erase name

/-- Writes buffered directories and files to the table. -/
def flushBuffered (dirs : List (AKey × SortedMap Str AKey)) (files : List (AKey × Bytes)) :
    TxM Unit := do
  Prog.forEach (fun d => putEntry d.1 (.dir d.2)) dirs
  Prog.forEach (fun f => putEntry f.1 (.file f.2)) files

/-- Takes the buffer out and flushes it. -/
def flush : TxM Unit := do
  let buffer ← inspect (fun _ s => .ok s.buffer)
  modify (fun _ s => { s with buffer := s.buffer.clear }) fun _ _ => rfl
  flushBuffered buffer.dirs.entries buffer.files.entries

end ArborDb
