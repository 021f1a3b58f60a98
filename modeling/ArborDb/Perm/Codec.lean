import ArborDb.Index.Repository
import ArborDb.Perm.Store

/-!
# Reading the permission blobs

The users, the groups and the access-control lists are read back field by field. Where the lengths
fit their prefixes, what was encoded is what is read, so that the tags over the encoded forms are the
same before and after.
-/

namespace ArborDb

/-- Reads a 32-bit id. -/
def readId : ReadM Id32 := do
  let n ← Reader.u32
  return Fin.ofNat (2 ^ 32) n

theorem reads_readId (id : Id32) : Reads readId (putU32 id.val) id := by
  have hread := (Reads.u32 id.isLt).map (f := Fin.ofNat (2 ^ 32))
  rwa [Fin.ofNat_eq_cast, Fin.cast_val_eq_self] at hread

/-! ## Access-control lists -/

namespace Rights

/-- The strongest grade whose bits are all present. -/
def fromBits (bits : Nat) : Rights :=
  if bits &&& 7 = 7 then .delete
  else if bits &&& 3 = 3 then .modify
  else if bits &&& 1 = 1 then .access
  else .none

theorem fromBits_toBits (r : Rights) : fromBits r.toBits = r := by
  cases r <;> rfl

/-- Reads a grade. -/
def read : ReadM Rights := do
  let bits ← Reader.u8
  return fromBits bits

theorem reads_read (r : Rights) : Reads read (Bytes.be 1 r.toBits) r := by
  have hlt : r.toBits < 256 ^ 1 := by
    cases r <;> decide
  have hread := (Reads.word hlt).map (f := fromBits)
  rwa [fromBits_toBits] at hread

end Rights

namespace Acl

/-- Reads the grade of one group. -/
def readGroup : ReadM (Id32 × Rights) := do
  let gid ← readId
  let rights ← Rights.read
  return (gid, rights)

def read : ReadM Acl := do
  let ownerUid ← readId
  let owner ← Rights.read
  let other ← Rights.read
  let count ← Reader.u32
  let groups ← Reader.times readGroup count
  return ⟨ownerUid, owner, groups.foldl (fun group e => group.insert e.1 e.2) .empty, other⟩

def decode (body : Bytes) : AdbResult Acl := (read.run (Reader.new body)).map Prod.fst

theorem length_encode (acl : Acl) : acl.encode.length = 10 + 5 * acl.group.entries.length := by
  simp [encode, List.length_flatMap]
  omega

theorem reads_readGroup (e : Id32 × Rights) : Reads readGroup (putU32 e.1.val ++ Bytes.be 1 e.2.toBits) e :=
  (reads_readId e.1).bind ((Rights.reads_read e.2).map (f := (e.1, ·)))

theorem reads_read {acl : Acl} (h : acl.group.entries.length < 2 ^ 32) : Reads read acl.encode acl := by
  have hgroups : Reads (Reader.times readGroup acl.group.entries.length)
      (acl.group.entries.flatMap fun e => putU32 e.1.val ++ Bytes.be 1 e.2.toBits) (acl.group.entries.map id) :=
    Reads.times fun e _ => reads_readGroup e
  rw [List.map_id] at hgroups
  simp only [encode, List.append_assoc]
  apply (reads_readId acl.ownerUid).bind
  apply (Rights.reads_read acl.owner).bind
  apply (Rights.reads_read acl.other).bind
  apply (Reads.u32 h).bind
  apply hgroups.bind_nil
  rw [SortedMap.foldl_insert_entries]
  exact Reads.pure acl

theorem decode_encoded {acl : Acl} (h : acl.group.entries.length < 2 ^ 32) : decode acl.encode = .ok acl := by
  rw [decode]
  exact congrArg (Except.map Prod.fst) (reads_read h).run_new

end Acl

/-! ## Users -/

/-- Reads the wrapped secrets of a user, if there are any. -/
def KeyringEntry.read : ReadM (Option KeyringEntry) := do
  if (← Reader.u8) = 0 then return none
  else
    let salt ← Reader.array 16
    let nonce ← Reader.array 24
    let wrapped ← Reader.bytes
    return some ⟨⟨salt.1, nonce.1, salt.2, nonce.2⟩, wrapped⟩

theorem KeyringEntry.reads_read {keyring : Option KeyringEntry}
    (h : ∀ entry, keyring = some entry → entry.wrapped.length < 2 ^ 32) :
    Reads read (encode keyring) keyring := by
  cases keyring with
  | none => exact (Reads.word (w := 1) (n := 0) (by decide)).bind_nil (Reads.pure none)
  | some entry =>
    simp only [encode, List.append_assoc]
    apply (Reads.word (w := 1) (n := 1) (by decide)).bind
    rw [if_neg (by decide)]
    apply (Reads.array ⟨entry.salt, entry.salt_length⟩).bind
    apply (Reads.array ⟨entry.nonce, entry.nonce_length⟩).bind
    apply (Reads.bytes (h entry rfl)).bind_nil
    exact Reads.pure (some entry)

/-- Reads a text of the permission store. -/
def readName : ReadM Str := readText "invalid utf-8 in the permission store"

namespace UserRecord

def read : ReadM UserRecord := do
  let name ← readName
  let uid ← readId
  let frozen ← Reader.u8
  let count ← Reader.u32
  let gids ← Reader.times readId count
  let keyring ← KeyringEntry.read
  return ⟨name, uid, frozen ≠ 0, gids, keyring⟩

/-- The lengths of a record fit their prefixes. -/
structure Fits (user : UserRecord) : Prop where
  name : user.name.bytes.length < 2 ^ 32
  gids : user.gids.length < 2 ^ 32
  wrapped : ∀ entry, user.keyring = some entry → entry.wrapped.length < 2 ^ 32

theorem reads_read {user : UserRecord} (h : user.Fits) : Reads read user.encode user := by
  have hfrozen : user.frozen.toNat < 256 ^ 1 := by
    cases user.frozen <;> decide
  have hgids : Reads (Reader.times readId user.gids.length) (user.gids.flatMap fun gid => putU32 gid.val)
      (user.gids.map id) := Reads.times fun gid _ => reads_readId gid
  rw [List.map_id] at hgids
  have hflag : decide (user.frozen.toNat ≠ 0) = user.frozen := by
    cases user.frozen <;> rfl
  simp only [encode, List.append_assoc]
  apply (reads_readText _ h.name).bind
  apply (reads_readId user.uid).bind
  apply (Reads.word hfrozen).bind
  apply (Reads.u32 h.gids).bind
  apply hgids.bind
  apply (KeyringEntry.reads_read h.wrapped).bind_nil
  rw [hflag]
  exact Reads.pure user

end UserRecord

namespace Users

def read : ReadM Users := do
  let nextUid ← readId
  let count ← Reader.u32
  let users ← Reader.times UserRecord.read count
  return ⟨nextUid, users⟩

def decode (bytes : Bytes) : AdbResult Users := (read.run (Reader.new bytes)).map Prod.fst

/-- The lengths in a store fit their prefixes. -/
structure Fits (u : Users) : Prop where
  count : u.users.length < 2 ^ 32
  users : ∀ user ∈ u.users, user.Fits

theorem reads_read {u : Users} (h : u.Fits) : Reads read u.encode u := by
  have husers : Reads (Reader.times UserRecord.read u.users.length) (u.users.flatMap UserRecord.encode)
      (u.users.map id) := Reads.times fun user huser => UserRecord.reads_read (h.users user huser)
  rw [List.map_id] at husers
  rw [encode, List.append_assoc]
  apply (reads_readId u.nextUid).bind
  apply (Reads.u32 h.count).bind
  apply husers.bind_nil
  exact Reads.pure u

end Users

/-! ## Groups -/

def GroupRecord.read : ReadM GroupRecord := do
  let name ← readName
  let gid ← readId
  return ⟨name, gid⟩

namespace Groups

def read : ReadM Groups := do
  let nextGid ← readId
  let count ← Reader.u32
  let groups ← Reader.times GroupRecord.read count
  return ⟨nextGid, groups⟩

def decode (bytes : Bytes) : AdbResult Groups := (read.run (Reader.new bytes)).map Prod.fst

/-- The lengths in a store fit their prefixes. -/
structure Fits (g : Groups) : Prop where
  count : g.groups.length < 2 ^ 32
  names : ∀ group ∈ g.groups, group.name.bytes.length < 2 ^ 32

theorem reads_read {g : Groups} (h : g.Fits) : Reads read g.encode g := by
  have hgroups : Reads (Reader.times GroupRecord.read g.groups.length)
      (g.groups.flatMap fun group => putBytes group.name.bytes ++ putU32 group.gid.val) (g.groups.map id) := by
    apply Reads.times
    intro group hgroup
    apply (reads_readText _ (h.names group hgroup)).bind
    apply (reads_readId group.gid).bind_nil
    exact Reads.pure group
  rw [List.map_id] at hgroups
  rw [encode, List.append_assoc]
  apply (reads_readId g.nextGid).bind
  apply (Reads.u32 h.count).bind
  apply hgroups.bind_nil
  exact Reads.pure g

end Groups

/-! ## Loading what was stored -/

/-- **The permission blobs are read back exactly**, so that encoding what was loaded gives the bytes the
tags were computed over. -/
theorem permission_blobs_read_back :
    (∀ u : Users, u.Fits → Users.decode u.encode = .ok u) ∧
    (∀ g : Groups, g.Fits → Groups.decode g.encode = .ok g) ∧
    ∀ acl : Acl, acl.group.entries.length < 2 ^ 32 → Acl.decode acl.encode = .ok acl := by
  refine ⟨?_, ?_, ?_⟩
  · intro u h
    exact congrArg (Except.map Prod.fst) (Users.reads_read h).run_new
  · intro g h
    exact congrArg (Except.map Prod.fst) (Groups.reads_read h).run_new
  · intro acl h
    exact Acl.decode_encoded h

/-- A frozen user without a password, one with a password, and a list with a group. -/
theorem permission_blobs_read_back_sample :
    let wrapping : Wrapping := ⟨List.replicate 16 1, List.replicate 24 2, rfl, rfl⟩
    let u : Users := ⟨3, [⟨guestUser, 1, true, [], none⟩, ⟨⟨"ann"⟩, 2, false, [0, 1], some ⟨wrapping, [7]⟩⟩]⟩
    let acl : Acl := (Acl.defaultFor 2).setGroupRights 5 .modify
    Users.decode u.encode = .ok u ∧ Acl.decode acl.encode = .ok acl := by
  intro wrapping u acl
  refine ⟨permission_blobs_read_back.1 u ⟨by decide, ?_⟩, permission_blobs_read_back.2.2 acl (by decide)⟩
  intro user huser
  have husers := List.mem_cons.1 huser
  rcases husers with rfl | huser
  · exact ⟨by decide, by decide, nofun⟩
  · cases List.mem_singleton.1 huser
    refine ⟨by decide, by decide, ?_⟩
    intro entry hentry
    cases hentry
    decide

end ArborDb
