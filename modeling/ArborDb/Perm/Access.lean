import ArborDb.Lib.SortedMap
import ArborDb.Codec.Reader
import ArborDb.Key

/-!
# Access control and integrity tags

Rights are graded: each grade includes every weaker one. An a-node's access-control list grants a
grade to its owner, to its groups and to everyone else, and `authorize` decides whether a principal
holds the grade that an operation needs. An a-node's inode carries its timestamps, its
access-control list and the two tags computed over the stored entry and that list.
-/

namespace ArborDb

/-- A 32-bit user or group id. -/
abbrev Id32 := Fin (2 ^ 32)

instance Id32.neZero : NeZero (2 ^ 32) := ⟨by decide⟩

instance Id32.lawfulBEq : LawfulBEq Id32 := inferInstance

/-- A graded access right. -/
inductive Rights where
  | none
  | access
  | modify
  | delete
  deriving DecidableEq

namespace Rights

/-- The position of a grade in the order of the grades. -/
def grade : Rights → Nat
  | none => 0
  | access => 1
  | modify => 2
  | delete => 3

/-- The 3-bit cumulative encoding. -/
def toBits : Rights → Nat
  | none => 0
  | access => 1
  | modify => 3
  | delete => 7

def includes (r needed : Rights) : Bool := needed.grade ≤ r.grade

def max (a b : Rights) : Rights := if a.grade ≤ b.grade then b else a

def name : Rights → String
  | none => "None"
  | access => "Access"
  | modify => "Modify"
  | delete => "Delete"

theorem be_toBits_inj {r r' : Rights} (h : Bytes.be 1 r.toBits = Bytes.be 1 r'.toBits) : r = r' := by
  have hlt : ∀ r : Rights, r.toBits < 256 ^ 1 := by
    intro r
    cases r <;> decide
  have hbits : r.toBits = r'.toBits := Bytes.be_inj (hlt r) (hlt r') h
  cases r <;> cases r' <;> first | rfl | cases hbits

end Rights

/-- An a-node's access-control list. -/
structure Acl where
  ownerUid : Id32
  owner : Rights
  group : SortedMap Id32 Rights
  other : Rights
  deriving DecidableEq

namespace Acl

/-- The list of a freshly created a-node: the owner may delete it, everyone else may access it. -/
def defaultFor (ownerUid : Id32) : Acl := ⟨ownerUid, .delete, .empty, .access⟩

/-- The strongest grade of a list, if it has one. -/
def strongest : List Rights → Option Rights
  | [] => none
  | r :: rs => match strongest rs with
    | none => some r
    | some r' => some (r.max r')

/-- The owner's rights for the owner, else the strongest grade of a shared group, else what
everyone has. -/
def effectiveRights (acl : Acl) (uid : Id32) (gids : List Id32) : Rights :=
  if uid = acl.ownerUid then acl.owner
  else (strongest (gids.filterMap acl.group.get)).getD acl.other

def encode (acl : Acl) : Bytes :=
  Bytes.be 4 acl.ownerUid.val ++ Bytes.be 1 acl.owner.toBits ++ Bytes.be 1 acl.other.toBits ++
    Bytes.be 4 acl.group.entries.length ++
    acl.group.entries.flatMap fun e => Bytes.be 4 e.1.val ++ Bytes.be 1 e.2.toBits

/-- Reassigns the owning user. -/
def setOwnerUid (acl : Acl) (uid : Id32) : Acl := { acl with ownerUid := uid }

def setOwnerRights (acl : Acl) (rights : Rights) : Acl := { acl with owner := rights }

def setOtherRights (acl : Acl) (rights : Rights) : Acl := { acl with other := rights }

/-- Grants a grade to a group; granting nothing removes the group. -/
def setGroupRights (acl : Acl) (gid : Id32) (rights : Rights) : Acl :=
  { acl with group := if rights = .none then acl.group.erase gid else acl.group.insert gid rights }

/-- Adds a group with access, keeping the grade of one that is already there. -/
def addGroup (acl : Acl) (gid : Id32) : Acl :=
  { acl with group := if acl.group.contains gid then acl.group else acl.group.insert gid .access }

def removeGroup (acl : Acl) (gid : Id32) : Acl := { acl with group := acl.group.erase gid }

def hasGroup (acl : Acl) (gid : Id32) : Bool := acl.group.contains gid

end Acl

/-- The class of an access-control list that an operation sets. -/
inductive AclClass where
  | user
  | group (name : Str)
  | other
  deriving DecidableEq

/-! ## Principals -/

def masterUid : Id32 := 0
def guestUid : Id32 := 1
def masterGid : Id32 := 0

/-- An authenticated session: who the caller is, the integrity key and the signing seed. -/
structure Session where
  uid : Id32
  gids : List Id32
  key : Bytes
  signSeed : Bytes
  deriving DecidableEq

def Session.isMaster (s : Session) : Bool := s.uid = masterUid

def Session.inMasterGroup (s : Session) : Bool := s.gids.contains masterGid

/-- The identity a handle acts as. -/
inductive Principal where
  | unrestricted
  | guest
  | user (session : Session)
  deriving DecidableEq

theorem Principal.unrestricted_ne_guest : Principal.unrestricted ≠ .guest := by
  intro h
  cases h

theorem Principal.user_ne_guest (session : Session) : Principal.user session ≠ .guest := by
  intro h
  cases h

/-- The integrity key a principal holds. -/
def Principal.key : Principal → Option Bytes
  | .user session => some session.key
  | _ => none

def denied (needed : Rights) : AdbError :=
  .permissionDenied (needed.name ++ " access is not permitted here")

/-- Checks that a principal may exercise the `needed` grade on an a-node. -/
def authorize (principal : Principal) (akey : AKey) (acl : Option Acl) (needed : Rights) :
    AdbResult Unit :=
  if principal = .guest ∧ Rights.access.grade < needed.grade then .error (denied needed)
  else if akey = .root then .ok ()
  else match principal with
    | .unrestricted => .ok ()
    | .guest => match acl with
      | none => .error (denied needed)
      | some acl =>
        if (acl.effectiveRights guestUid []).includes needed then .ok () else .error (denied needed)
    | .user session =>
      if session.isMaster then .ok ()
      else match acl with
        | none => if session.inMasterGroup then .ok () else .error (denied needed)
        | some acl =>
          if (acl.effectiveRights session.uid session.gids).includes needed then .ok ()
          else .error (denied needed)

/-- A check fails in one way. -/
theorem authorize_error {principal : Principal} {akey : AKey} {acl : Option Acl} {needed : Rights} {err : AdbError}
    (h : authorize principal akey acl needed = .error err) : ∃ msg, err = .permissionDenied msg := by
  refine ⟨needed.name ++ " access is not permitted here", ?_⟩
  unfold authorize denied at h
  split_ifs at h
  · exact (Except.error.inj h).symm
  · repeat' split at h
    all_goals cases h
    all_goals rfl

/-- Checks that a principal may give an a-node away. -/
def authorizeChown (principal : Principal) (acl : Acl) : AdbResult Unit :=
  let allowed := match principal with
    | .unrestricted => true
    | .user session => session.isMaster || session.inMasterGroup || session.uid = acl.ownerUid
    | .guest => false
  if allowed then .ok ()
  else .error (.permissionDenied "changing the owner requires ownership or administration")

theorem authorize_root_user (session : Session) (acl : Option Acl) (needed : Rights) :
    authorize (.user session) .root acl needed = .ok () := by
  simp [authorize]

@[simp] theorem authorize_unrestricted (akey : AKey) (acl : Option Acl) (needed : Rights) :
    authorize .unrestricted akey acl needed = .ok () := by
  simp [authorize]

/-- A stronger grade includes access. -/
theorem Rights.includes_access {r needed : Rights} (h : r.includes needed = true)
    (hneeded : needed ≠ .none) : r.includes .access = true := by
  have hle : Rights.access.grade ≤ needed.grade := by cases needed <;> simp_all [Rights.grade]
  exact decide_eq_true (hle.trans (of_decide_eq_true h))

/-- A user who holds a grade has access. -/
theorem authorize_access {session : Session} {akey : AKey} {acl : Option Acl} {needed : Rights}
    (h : authorize (.user session) akey acl needed = .ok ()) (hneeded : needed ≠ .none) :
    authorize (.user session) akey acl .access = .ok () := by
  unfold authorize at h ⊢
  by_cases hroot : akey = .root
  · simp [hroot]
  · by_cases hmaster : session.isMaster
    · simp [hmaster]
    · cases acl with
      | none =>
        by_cases hgroup : session.inMasterGroup
        · simp [hgroup]
        · simp [hroot, hmaster, hgroup] at h
      | some acl =>
        by_cases hincludes : (acl.effectiveRights session.uid session.gids).includes needed
        · simp [Rights.includes_access hincludes hneeded]
        · simp [hroot, hmaster, hincludes] at h

/-- The owner may do everything to an a-node that has the default list. -/
theorem authorize_owner (session : Session) (akey : AKey) (needed : Rights) :
    authorize (.user session) akey (some (.defaultFor session.uid)) needed = .ok () := by
  have hincludes : Rights.delete.includes needed = true := by cases needed <;> rfl
  simp [authorize, Acl.defaultFor, Acl.effectiveRights, hincludes]

/-- Every user may access an a-node that has the default list of some owner. -/
theorem authorize_access_default (session : Session) (akey : AKey) (uid : Id32) :
    authorize (.user session) akey (some (.defaultFor uid)) .access = .ok () := by
  have hget : ∀ gids : List Id32, gids.filterMap (SortedMap.empty : SortedMap Id32 Rights).get = [] := by
    intro gids
    simp [SortedMap.get_empty]
  unfold authorize
  rw [if_neg (by simp)]
  by_cases hroot : akey = .root
  · rw [if_pos hroot]
  · simp only [hroot, if_false]
    by_cases hm : session.isMaster
    · rw [if_pos hm]
    · rw [if_neg hm]
      by_cases hu : session.uid = uid
      · simp [Acl.effectiveRights, Acl.defaultFor, hu, Rights.includes, Rights.grade]
      · simp [Acl.effectiveRights, Acl.defaultFor, hu, hget, Acl.strongest, Rights.includes,
          Rights.grade]

/-! ## Integrity tags -/

/-- The cryptographic primitives, which are not part of the library. -/
structure Crypto where
  /-- The keyed hash of a message. -/
  keyedHash : Bytes → Bytes → Bytes
  hash : Bytes → Bytes
  /-- The signature of a message under a signing seed. -/
  sign : Bytes → Bytes → Bytes

/-- A length-delimited field of a hashed message. -/
def field (bytes : Bytes) : Bytes := Bytes.be 8 bytes.length ++ bytes

/-- The bytes a value tag binds: the table name, the key, the entry and the encoded list. -/
def absorbValue (table : Str) (akey : AKey) (blob acl : Bytes) : Bytes :=
  Bytes.be 1 1 ++ field table.bytes ++ akey.intoBytes ++ field blob ++ field acl

def macValue (c : Crypto) (key : Bytes) (table : Str) (akey : AKey) (blob acl : Bytes) : Bytes :=
  c.keyedHash key (absorbValue table akey blob acl)

def signValue (c : Crypto) (seed : Bytes) (table : Str) (akey : AKey) (blob acl : Bytes) : Bytes :=
  c.sign seed (c.hash (absorbValue table akey blob acl))

/-! ### What a tag determines -/

namespace Acl

/-- Records of five bytes are told apart by their bytes. -/
theorem encodeGroups_inj {l m : List (Id32 × Rights)}
    (h : (l.flatMap fun e => Bytes.be 4 e.1.val ++ Bytes.be 1 e.2.toBits) =
      m.flatMap fun e => Bytes.be 4 e.1.val ++ Bytes.be 1 e.2.toBits) : l = m := by
  induction l generalizing m with
  | nil =>
    cases m with
    | nil => rfl
    | cons y m =>
      have hlen := congrArg List.length h
      simp at hlen
      omega
  | cons x l ih =>
    cases m with
    | nil =>
      have hlen := congrArg List.length h
      simp at hlen
    | cons y m =>
      simp only [List.flatMap_cons, List.append_assoc] at h
      obtain ⟨hgid, h⟩ := List.append_inj h (by simp)
      obtain ⟨hrights, h⟩ := List.append_inj h (by simp)
      refine congrArg₂ _ (Prod.ext ?_ ?_) (ih h)
      · exact Fin.ext (Bytes.be_inj x.1.isLt y.1.isLt hgid)
      · exact Rights.be_toBits_inj hrights

theorem encode_inj {a b : Acl} (h : a.encode = b.encode) : a = b := by
  obtain ⟨uid, owner, group, other⟩ := a
  obtain ⟨uid', owner', group', other'⟩ := b
  simp only [encode, List.append_assoc] at h
  obtain ⟨huid, h⟩ := List.append_inj h (by simp)
  obtain ⟨howner, h⟩ := List.append_inj h (by simp)
  obtain ⟨hother, h⟩ := List.append_inj h (by simp)
  obtain ⟨_, h⟩ := List.append_inj h (by simp)
  have hgroup : group = group' := by
    obtain ⟨l, hl⟩ := group
    obtain ⟨m, hm⟩ := group'
    cases (encodeGroups_inj h : l = m)
    rfl
  rw [Fin.ext (Bytes.be_inj uid.isLt uid'.isLt huid), Rights.be_toBits_inj howner,
    Rights.be_toBits_inj hother, hgroup]

/-- A missing list is told apart from every list. -/
theorem encodeOption_inj {a b : Option Acl}
    (h : (a.map encode).getD [] = (b.map encode).getD []) : a = b := by
  have hne : ∀ acl : Acl, acl.encode ≠ [] := by
    intro acl hnil
    have hlen := congrArg List.length hnil
    simp [encode] at hlen
  cases a with
  | none =>
    cases b with
    | none => rfl
    | some b => exact absurd h.symm (hne b)
  | some a =>
    cases b with
    | none => exact absurd h (hne a)
    | some b => exact congrArg some (encode_inj h)

end Acl

/-- Over one entry, the message determines the encoded list. -/
theorem absorbValue_acl_inj {table : Str} {akey : AKey} {blob acl acl' : Bytes}
    (h : absorbValue table akey blob acl = absorbValue table akey blob acl') : acl = acl' := by
  have hfield : field acl = field acl' := List.append_cancel_left h
  exact (List.append_inj hfield (by simp)).2

/-! ## Inodes -/

structure Timestamps where
  created : Int
  modified : Int
  accessed : Int
  deriving DecidableEq

/-- The metadata kept beside an a-node's entry. -/
structure Inode where
  timestamps : Option Timestamps
  acl : Option Acl
  mac : Option Bytes
  sig : Option Bytes
  deriving DecidableEq

def Inode.default : Inode := ⟨none, none, none, none⟩

/-- The inodes of one table. -/
abbrev InodeTable := SortedMap AKey Inode

namespace InodeTable

/-- The inode of an a-node, or a fresh one. -/
def load (inodes : InodeTable) (akey : AKey) : Inode := (inodes.get akey).getD .default

/-- The timestamps after a write at `now`: only a first write sets the creation time. -/
def stamp (times : Option Timestamps) (now : Int) : Timestamps :=
  match times with
  | some t => ⟨t.created, now, t.accessed⟩
  | none => ⟨now, now, now⟩

/-- Records a write of an a-node at `now`. -/
def touch (inodes : InodeTable) (akey : AKey) (now : Int) : InodeTable :=
  let inode := inodes.load akey
  SortedMap.insert inodes akey { inode with timestamps := some (stamp inode.timestamps now) }

/-- Records a write and seals it: the timestamps, the default list of `owner` if the a-node has no
list yet, and the two tags over the list that is then in place. -/
def stampAndSeal (inodes : InodeTable) (akey : AKey) (now : Int) (owner : Option Id32)
    (tags : Bytes → Bytes × Bytes) : InodeTable :=
  let inode := inodes.load akey
  let acl := inode.acl.or (owner.map .defaultFor)
  let (mac, sig) := tags ((acl.map Acl.encode).getD [])
  SortedMap.insert inodes akey
    ⟨some (stamp inode.timestamps now), acl, some mac, some sig⟩

/-- Drops an a-node's inode. -/
def forget (inodes : InodeTable) (akey : AKey) : InodeTable := SortedMap.erase inodes akey

def readAcl (inodes : InodeTable) (akey : AKey) : Option Acl := (inodes.get akey).bind Inode.acl

/-- An a-node's list and its keyed tag. -/
def readMeta (inodes : InodeTable) (akey : AKey) : Option Acl × Option Bytes :=
  match inodes.get akey with
  | none => (none, none)
  | some inode => (inode.acl, inode.mac)

/-- Stamps the default list of `owner` on an a-node that has none. -/
def setDefaultAcl (inodes : InodeTable) (akey : AKey) (owner : Id32) : InodeTable :=
  let inode := inodes.load akey
  match inode.acl with
  | some _ => inodes
  | none => SortedMap.insert inodes akey { inode with acl := some (.defaultFor owner) }

/-- Replaces an a-node's list. -/
def setAcl (inodes : InodeTable) (akey : AKey) (acl : Acl) : InodeTable :=
  SortedMap.insert inodes akey { inodes.load akey with acl := some acl }

/-- Stores an a-node's keyed tag. -/
def sealMac (inodes : InodeTable) (akey : AKey) (mac : Bytes) : InodeTable :=
  SortedMap.insert inodes akey { inodes.load akey with mac := some mac }

/-- Stores an a-node's signature. -/
def sealSig (inodes : InodeTable) (akey : AKey) (sig : Bytes) : InodeTable :=
  SortedMap.insert inodes akey { inodes.load akey with sig := some sig }

end InodeTable

end ArborDb
