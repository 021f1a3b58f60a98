import ArborDb.Lib.Consult
import ArborDb.Txn.Context

/-!
# The caches of a table and the memo of a read transaction

The read transactions of a table share four bounded caches. Every binding is tagged with the
generation it was filled under; the path cache keeps that tag in the value, so that a later fill
under another generation replaces it. A transaction on a protected database also has a memo of its
own. Which bindings a full cache drops is left open.
-/

namespace ArborDb

/-- An a-node's list, keyed tag and signature. -/
abbrev Meta := Option Acl × Option Bytes × Option Bytes

def decodeMeta (inode : Inode) : Meta := (inode.acl, inode.mac, inode.sig)

/-- The caches of one table. -/
structure PathCache where
  paths : APath → Option (UInt64 × AKey)
  blobs : UInt64 × AKey → Option Entry
  inodes : UInt64 × AKey → Option Inode
  /-- The a-nodes whose keyed tag a user has already verified. -/
  verifiedMacs : UInt64 × AKey → Bool

/-- What one read transaction remembers: the paths it resolved under access control, the a-nodes it
may access, and the a-nodes it verified. -/
structure Memo where
  enforcedPaths : APath → Option AKey
  accessOk : AKey → Bool
  verified : AKey → Bool

namespace PathCache

def new : PathCache := ⟨fun _ => none, fun _ => none, fun _ => none, fun _ => false⟩

variable (cache : PathCache) (generation : UInt64)

/-- The key a path resolved to, if that is cached and current. -/
def getPath (path : APath) : Option AKey :=
  match cache.paths path with
  | some (stored, akey) => if stored = generation then some akey else none
  | none => none

def putPath (path : APath) (akey : AKey) : PathCache :=
  { cache with paths := Function.update cache.paths path (some (generation, akey)) }

def getBlob (akey : AKey) : Option Entry := cache.blobs (generation, akey)

def putBlob (akey : AKey) (entry : Entry) : PathCache :=
  { cache with blobs := Function.update cache.blobs (generation, akey) (some entry) }

def getInode (akey : AKey) : Option Inode := cache.inodes (generation, akey)

def putInode (akey : AKey) (inode : Inode) : PathCache :=
  { cache with inodes := Function.update cache.inodes (generation, akey) (some inode) }

def getMacVerified (akey : AKey) : Bool := cache.verifiedMacs (generation, akey)

def putMacVerified (akey : AKey) : PathCache :=
  { cache with verifiedMacs := Function.update cache.verifiedMacs (generation, akey) true }

end PathCache

def Memo.new : Memo := ⟨fun _ => none, fun _ => false, fun _ => false⟩

/-- One access to the caches or to the memo. -/
inductive CacheOp where
  | getPath (path : APath)
  | putPath (path : APath) (akey : AKey)
  | getBlob (akey : AKey)
  | putBlob (akey : AKey) (entry : Entry)
  | getInode (akey : AKey)
  | putInode (akey : AKey) (inode : Inode)
  | getMacVerified (akey : AKey)
  | putMacVerified (akey : AKey)
  | enforcedPath (path : APath)
  | memoPath (path : APath) (akey : AKey)
  | accessMemoed (akey : AKey)
  | memoAccess (akey : AKey)
  | verifyMemoed (akey : AKey)
  | memoVerified (akey : AKey)

/-- What an access returns. -/
abbrev CacheOp.Result : CacheOp → Type
  | .getPath _ => Option AKey
  | .getBlob _ => Option Entry
  | .getInode _ => Option Inode
  | .getMacVerified _ => Bool
  | .enforcedPath _ => Option AKey
  | .accessMemoed _ => Bool
  | .verifyMemoed _ => Bool
  | _ => Unit

/-- Performs an access under a generation; each one holds the lock of what it touches. -/
def CacheOp.exec (g : UInt64) (cache : PathCache) (memo : Memo) :
    (op : CacheOp) → op.Result × PathCache × Memo
  | .getPath path => (cache.getPath g path, cache, memo)
  | .putPath path akey => ((), cache.putPath g path akey, memo)
  | .getBlob akey => (cache.getBlob g akey, cache, memo)
  | .putBlob akey entry => ((), cache.putBlob g akey entry, memo)
  | .getInode akey => (cache.getInode g akey, cache, memo)
  | .putInode akey inode => ((), cache.putInode g akey inode, memo)
  | .getMacVerified akey => (cache.getMacVerified g akey, cache, memo)
  | .putMacVerified akey => ((), cache.putMacVerified g akey, memo)
  | .enforcedPath path => (memo.enforcedPaths path, cache, memo)
  | .memoPath path akey =>
    ((), cache, { memo with enforcedPaths := Function.update memo.enforcedPaths path (some akey) })
  | .accessMemoed akey => (memo.accessOk akey, cache, memo)
  | .memoAccess akey => ((), cache, { memo with accessOk := Function.update memo.accessOk akey true })
  | .verifyMemoed akey => (memo.verified akey, cache, memo)
  | .memoVerified akey =>
    ((), cache, { memo with verified := Function.update memo.verified akey true })

/-- A program over the caches and the memo. -/
abbrev CachedM := ExceptT AdbError (Consult CacheOp CacheOp.Result)

def consult (op : CacheOp) : CachedM op.Result := Consult.consult op

/-- One binding of a cache, dropped to make room. -/
inductive Eviction where
  | path (path : APath)
  | blob (key : UInt64 × AKey)
  | inode (key : UInt64 × AKey)
  | verifiedMac (key : UInt64 × AKey)

def PathCache.evict (cache : PathCache) : Eviction → PathCache
  | .path path => { cache with paths := Function.update cache.paths path none }
  | .blob key => { cache with blobs := Function.update cache.blobs key none }
  | .inode key => { cache with inodes := Function.update cache.inodes key none }
  | .verifiedMac key => { cache with verifiedMacs := Function.update cache.verifiedMacs key false }

end ArborDb
