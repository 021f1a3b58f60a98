import ArborDb.Inode.Sections

/-!
# Updates of the inode table

Each update decodes one inode, changes the sections it is about and writes the whole inode back. A build
without permissions only stamps times. What either build does not change comes back as it was, also where
the other build wrote it.
-/

namespace ArborDb

/-- The inode blobs by their composite keys. -/
abbrev InodeBlobs := SortedMap Bytes Bytes

/-- The composite key of an a-node in a table. -/
def inodeKey (table : Str) (akey : AKey) : Bytes := putBytes table.bytes ++ akey.intoBytes

namespace SectionedInode

/-- Records a write: the first one also creates the inode. -/
def stamp (now : BitVec 64) (inode : SectionedInode) : SectionedInode :=
  match inode.timestamps with
  | some times => inode.setTimestamps ⟨times.created, now, times.accessed⟩
  | none => inode.setTimestamps ⟨now, now, now⟩

/-- Gives an inode without a list its owner's default one. -/
def own (owner : Option Id32) (inode : SectionedInode) : SectionedInode :=
  match owner, inode.acl with
  | some owner, none => inode.setAcl (Acl.defaultFor owner)
  | _, _ => inode

/-- Stores the tags over the current list. -/
def sealWith (tags : Bytes → { b : Bytes // b.length = 32 } × { b : Bytes // b.length = 64 })
    (inode : SectionedInode) : SectionedInode :=
  let acl := (inode.acl.map Acl.encode).getD []
  (inode.setMac (tags acl).1).setSig (tags acl).2

end SectionedInode

namespace InodeBlobs

/-- The inode under a key, or an empty one. -/
def load (permissions : Bool) (inodes : InodeBlobs) (key : Bytes) : AdbResult SectionedInode :=
  match inodes.get key with
  | some blob => SectionedInode.decode permissions blob
  | none => .ok .default

/-- Decodes an inode, changes it and writes it back. -/
def update (permissions : Bool) (inodes : InodeBlobs) (key : Bytes) (f : SectionedInode → SectionedInode) :
    AdbResult InodeBlobs := do
  let inode ← load permissions inodes key
  return inodes.insert key (f inode).encode

/-- Records that an a-node was just written. -/
def touch (permissions : Bool) (inodes : InodeBlobs) (table : Str) (akey : AKey) (now : BitVec 64) :
    AdbResult InodeBlobs :=
  inodes.update permissions (inodeKey table akey) (SectionedInode.stamp now)

/-- Records a write of an a-node and seals it. -/
def stampAndSeal (inodes : InodeBlobs) (table : Str) (akey : AKey) (now : BitVec 64) (owner : Option Id32)
    (tags : Bytes → { b : Bytes // b.length = 32 } × { b : Bytes // b.length = 64 }) : AdbResult InodeBlobs :=
  inodes.update true (inodeKey table akey) fun inode => ((inode.stamp now).own owner).sealWith tags

/-- Advances the access time of an a-node, never backwards. An a-node without an inode has none after. -/
def bumpAccess (permissions : Bool) (inodes : InodeBlobs) (table : Str) (akey : AKey) (time : BitVec 64) :
    AdbResult InodeBlobs :=
  match inodes.get (inodeKey table akey) with
  | none => .ok inodes
  | some blob => do
    let inode ← SectionedInode.decode permissions blob
    match inode.timestamps with
    | some times =>
      if times.accessed.slt time then
        return inodes.insert (inodeKey table akey) (inode.setTimestamps { times with accessed := time }).encode
      else return inodes
    | none => return inodes.insert (inodeKey table akey) (inode.setTimestamps ⟨time, time, time⟩).encode

/-- Stamps the default list on an a-node that has none. -/
def setDefaultAcl (inodes : InodeBlobs) (table : Str) (akey : AKey) (owner : Id32) : AdbResult InodeBlobs := do
  let inode ← load true inodes (inodeKey table akey)
  if inode.acl.isSome then return inodes
  else return inodes.insert (inodeKey table akey) (inode.setAcl (Acl.defaultFor owner)).encode

/-- Replaces the list of an a-node. -/
def setAcl (inodes : InodeBlobs) (table : Str) (akey : AKey) (acl : Acl) : AdbResult InodeBlobs :=
  inodes.update true (inodeKey table akey) (·.setAcl acl)

/-- Stores the keyed tag of an a-node. -/
def sealMac (inodes : InodeBlobs) (table : Str) (akey : AKey) (mac : { b : Bytes // b.length = 32 }) :
    AdbResult InodeBlobs :=
  inodes.update true (inodeKey table akey) (·.setMac mac)

/-- Stores the signature of an a-node. -/
def sealSig (inodes : InodeBlobs) (table : Str) (akey : AKey) (sig : { b : Bytes // b.length = 64 }) :
    AdbResult InodeBlobs :=
  inodes.update true (inodeKey table akey) (·.setSig sig)

end InodeBlobs

/-! ## Steps -/

/-- An update of an inode. -/
inductive InodeCall where
  | touch (now : BitVec 64)
  | bumpAccess (time : BitVec 64)
  | stampAndSeal (now : BitVec 64) (owner : Option Id32)
      (tags : Bytes → { b : Bytes // b.length = 32 } × { b : Bytes // b.length = 64 })
  | setDefaultAcl (owner : Id32)
  /-- The encoded list fits the length of its section. -/
  | setAcl (acl : { acl : Acl // acl.encode.length < 2 ^ 32 })
  | sealMac (mac : { b : Bytes // b.length = 32 })
  | sealSig (sig : { b : Bytes // b.length = 64 })

namespace InodeCall

/-- The build without permissions has two of the calls. -/
def Offered (permissions : Bool) : InodeCall → Prop
  | touch _ => True
  | bumpAccess _ => True
  | _ => permissions = true

/-- The tags of the sections that a call is about. -/
def names (before : List TaggedSection) : InodeCall → List Nat
  | touch _ => [sectionTimestamps]
  | bumpAccess _ => [sectionTimestamps]
  | stampAndSeal _ owner _ =>
    sectionTimestamps :: (if owner.isSome ∧ bodyOf before sectionAcl = none then [sectionAcl] else []) ++
      [sectionMac, sectionSig]
  | setDefaultAcl _ => if bodyOf before sectionAcl = none then [sectionAcl] else []
  | setAcl _ => [sectionAcl]
  | sealMac _ => [sectionMac]
  | sealSig _ => [sectionSig]

end InodeCall

/-- A call of one of the builds on one a-node. -/
structure InodeStep where
  permissions : Bool
  table : Str
  akey : AKey
  call : InodeCall
  offered : call.Offered permissions

namespace InodeStep

/-- The key of the inode that a step is about. -/
def key (step : InodeStep) : Bytes := inodeKey step.table step.akey

def run (inodes : InodeBlobs) (step : InodeStep) : AdbResult InodeBlobs :=
  match step.call with
  | .touch now => inodes.touch step.permissions step.table step.akey now
  | .bumpAccess time => inodes.bumpAccess step.permissions step.table step.akey time
  | .stampAndSeal now owner tags => inodes.stampAndSeal step.table step.akey now owner tags
  | .setDefaultAcl owner => inodes.setDefaultAcl step.table step.akey owner
  | .setAcl acl => inodes.setAcl step.table step.akey acl.1
  | .sealMac mac => inodes.sealMac step.table step.akey mac
  | .sealSig sig => inodes.sealSig step.table step.akey sig

end InodeStep

/-! ## What a step changes -/

namespace SectionedInode

/-- One inode comes from another by changing the sections of some tags. -/
structure Changes (permissions : Bool) (tags : List Nat) (inode next : SectionedInode) : Prop where
  extra : next.extra = inode.extra
  others : ∀ tag, tag ∉ tags → next.body tag = inode.body tag
  known : ∀ tag ∈ tags, recognises permissions tag = true
  bodies : ∀ tag ∈ tags, ∀ body, next.body tag = some body → TaggedSection.Fits (tag, body) ∧ Written tag body

section Changes

variable {permissions : Bool} {tags tags' : List Nat} {inode next last : SectionedInode}

theorem Changes.refl : Changes permissions [] inode inode := ⟨rfl, fun _ _ => rfl, nofun, nofun⟩

theorem Changes.trans (h : Changes permissions tags inode next) (h' : Changes permissions tags' next last) :
    Changes permissions (tags ++ tags') inode last where
  extra := h'.extra.trans h.extra
  others tag htag := by
    rw [List.mem_append, not_or] at htag
    exact (h'.others tag htag.2).trans (h.others tag htag.1)
  known tag htag := (List.mem_append.1 htag).elim (h.known tag) (h'.known tag)
  bodies tag htag body hbody := by
    by_cases hlast : tag ∈ tags'
    · exact h'.bodies tag hlast body hbody
    · rw [h'.others tag hlast] at hbody
      exact h.bodies tag ((List.mem_append.1 htag).resolve_right hlast) body hbody

/-- A setter changes the section of its tag. -/
theorem Changes.one {tag : Nat} {body : Bytes} (hextra : next.extra = inode.extra)
    (hbody : ∀ t, next.body t = if t = tag then some body else inode.body t)
    (hknown : recognises permissions tag = true) (hfits : TaggedSection.Fits (tag, body))
    (hwritten : Written tag body) : Changes permissions [tag] inode next where
  extra := hextra
  others t ht := by
    rw [hbody, if_neg (fun heq => ht (List.mem_singleton.2 heq))]
  known t ht := by
    cases List.mem_singleton.1 ht
    exact hknown
  bodies t ht b hb := by
    cases List.mem_singleton.1 ht
    rw [hbody, if_pos rfl] at hb
    cases hb
    exact ⟨hfits, hwritten⟩

theorem Changes.ready (h : Changes permissions tags inode next) (hready : Ready permissions inode) :
    Ready permissions next where
  unread tag htag := by
    have hmem : tag ∉ tags := by
      intro hmem
      rw [h.known tag hmem] at htag
      cases htag
    rw [h.others tag hmem, hready.unread tag htag]
  bodies tag body hbody := by
    by_cases hmem : tag ∈ tags
    · exact h.bodies tag hmem body hbody
    · rw [h.others tag hmem] at hbody
      exact hready.bodies tag body hbody
  kept := by
    rw [h.extra]
    exact hready.kept
  extra := by
    rw [h.extra]
    exact hready.extra

theorem changes_setTimestamps (times : UnderlyingTimestamps) :
    Changes permissions [sectionTimestamps] inode (inode.setTimestamps times) := by
  have htag : sectionTimestamps < 256 := by decide
  refine Changes.one rfl (fun _ => body_setTimestamps) ?_ ⟨htag, ?_⟩ ⟨fun _ => ⟨times, rfl⟩, nofun, nofun, nofun⟩
  · simp [recognises]
  · simp

theorem changes_stamp (now : BitVec 64) : Changes permissions [sectionTimestamps] inode (inode.stamp now) := by
  unfold stamp
  split
  · exact changes_setTimestamps _
  · exact changes_setTimestamps _

theorem changes_setAcl {acl : Acl} (h : acl.encode.length < 2 ^ 32) :
    Changes true [sectionAcl] inode (inode.setAcl acl) := by
  have htag : sectionAcl < 256 := by decide
  refine Changes.one rfl (fun _ => body_setAcl) rfl ⟨htag, h⟩ ⟨nofun, fun _ => ⟨acl, ?_, rfl⟩, nofun, nofun⟩
  have hlength := acl.length_encode
  omega

theorem changes_setMac (mac : { b : Bytes // b.length = 32 }) :
    Changes true [sectionMac] inode (inode.setMac mac) := by
  have htag : sectionMac < 256 := by decide
  refine Changes.one rfl (fun _ => body_setMac) rfl ⟨htag, ?_⟩ ⟨nofun, nofun, fun _ => mac.2, nofun⟩
  simp [mac.2]

theorem changes_setSig (sig : { b : Bytes // b.length = 64 }) :
    Changes true [sectionSig] inode (inode.setSig sig) := by
  have htag : sectionSig < 256 := by decide
  refine Changes.one rfl (fun _ => body_setSig) rfl ⟨htag, ?_⟩ ⟨nofun, nofun, nofun, fun _ => sig.2⟩
  simp [sig.2]

theorem changes_own (owner : Option Id32) :
    Changes true (if owner.isSome ∧ inode.acl = none then [sectionAcl] else []) inode (inode.own owner) := by
  unfold own
  cases owner with
  | none => exact Changes.refl
  | some uid =>
    cases hacl : inode.acl with
    | none =>
      apply changes_setAcl
      simp [Acl.length_encode, Acl.defaultFor]
    | some acl => exact Changes.refl

theorem changes_sealWith (tags : Bytes → { b : Bytes // b.length = 32 } × { b : Bytes // b.length = 64 }) :
    Changes true [sectionMac, sectionSig] inode (inode.sealWith tags) :=
  (changes_setMac (tags ((inode.acl.map Acl.encode).getD [])).1).trans (changes_setSig _)

end Changes

end SectionedInode

/-! ## Runs -/

namespace InodeBlobs

/-- Every inode of a table holds sound sections. -/
def SoundTable (inodes : InodeBlobs) : Prop :=
  ∀ key blob, inodes.get key = some blob → ∃ sections, SoundBlob blob sections

/-- The sections under a key. -/
def sectionsAt (inodes : InodeBlobs) (key : Bytes) : List TaggedSection :=
  match inodes.get key with
  | some blob => match readSections (Reader.new blob) with
    | .ok (sections, _) => sections
    | .error _ => []
  | none => []

/-- What a step of a build changes: some sections of one inode. -/
structure Frame (permissions : Bool) (key : Bytes) (tags : List Nat) (inodes next : InodeBlobs) : Prop where
  others : ∀ other, other ≠ key → next.get other = inodes.get other
  bodies : ∀ tag, tag ∉ tags → bodyOf (next.sectionsAt key) tag = bodyOf (inodes.sectionsAt key) tag
  unread : (next.sectionsAt key).filter (fun x => !recognises permissions x.1) =
    (inodes.sectionsAt key).filter fun x => !recognises permissions x.1

theorem Frame.refl {permissions : Bool} {key : Bytes} {tags : List Nat} {inodes : InodeBlobs} :
    Frame permissions key tags inodes inodes := ⟨fun _ _ => rfl, fun _ _ => rfl, rfl⟩

theorem sectionsAt_eq {inodes : InodeBlobs} {key blob : Bytes} {sections : List TaggedSection}
    (hget : inodes.get key = some blob) (h : SoundBlob blob sections) : inodes.sectionsAt key = sections := by
  obtain ⟨-, r, hr⟩ := h
  rw [sectionsAt, hget]
  simp only [hr]

/-- What a build loads from a sound table. -/
theorem load_spells {inodes : InodeBlobs} (h : inodes.SoundTable) (permissions : Bool) (key : Bytes) :
    ∃ inode, inodes.load permissions key = .ok inode ∧ inode.Ready permissions ∧
      inode.Spells permissions (inodes.sectionsAt key) := by
  unfold load
  cases hget : inodes.get key with
  | none =>
    refine ⟨.default, rfl, .default permissions, ?_⟩
    have hnone : inodes.sectionsAt key = [] := by rw [sectionsAt, hget]
    rw [hnone]
    exact .default permissions
  | some blob =>
    obtain ⟨sections, hsound⟩ := h key blob hget
    obtain ⟨inode, hdecode, hspells⟩ := @SectionedInode.spells_decode permissions blob sections hsound
    rw [sectionsAt_eq hget hsound]
    exact ⟨inode, hdecode, hspells.ready hsound.1, hspells⟩

/-- Writing back a changed inode. -/
theorem frame_insert {permissions : Bool} {inodes : InodeBlobs} {key : Bytes} {tags : List Nat}
    {inode next : SectionedInode} (h : inodes.SoundTable) (hready : inode.Ready permissions)
    (hspells : inode.Spells permissions (inodes.sectionsAt key)) (hchanges : inode.Changes permissions tags next) :
    SoundTable (inodes.insert key next.encode) ∧
      Frame permissions key tags inodes (inodes.insert key next.encode) := by
  have hblob := (hchanges.ready hready).soundBlob
  have hat := sectionsAt_eq (inodes.get_insert_self key next.encode) hblob
  refine ⟨?_, ?_, ?_, ?_⟩
  · intro other blob hget
    rw [SortedMap.get_insert] at hget
    split at hget
    · cases hget
      exact ⟨next.sections, hblob⟩
    · exact h other blob hget
  · intro other hne
    exact inodes.get_insert_ne _ hne
  · intro tag htag
    rw [hat, ← hspells.bodyOf_sections, next.bodyOf_sections, inode.bodyOf_sections, hchanges.others tag htag,
      hchanges.extra]
  · rw [hat, (hchanges.ready hready).filter_sections, hchanges.extra, hspells.extra]

/-- What an update changes. -/
theorem update_frame {permissions : Bool} {inodes : InodeBlobs} {key : Bytes} {tags : List Nat}
    {f : SectionedInode → SectionedInode} (h : inodes.SoundTable)
    (hf : ∀ inode : SectionedInode, inode.Spells permissions (inodes.sectionsAt key) →
      inode.Changes permissions tags (f inode)) :
    ∃ next, inodes.update permissions key f = .ok next ∧ next.SoundTable ∧
      Frame permissions key tags inodes next := by
  obtain ⟨inode, hload, hready, hspells⟩ := load_spells h permissions key
  refine ⟨_, ?_, frame_insert h hready hspells (hf inode hspells)⟩
  rw [update, hload]
  rfl

/-- What advancing an access time changes. -/
theorem bumpAccess_frame {permissions : Bool} {inodes : InodeBlobs} {table : Str} {akey : AKey} {time : BitVec 64}
    (h : inodes.SoundTable) :
    ∃ next, inodes.bumpAccess permissions table akey time = .ok next ∧ next.SoundTable ∧
      Frame permissions (inodeKey table akey) [sectionTimestamps] inodes next := by
  obtain ⟨inode, hload, hready, hspells⟩ := load_spells h permissions (inodeKey table akey)
  have hset (times : UnderlyingTimestamps) := frame_insert h hready hspells (inode.changes_setTimestamps times)
  unfold load at hload
  unfold bumpAccess
  split at hload
  · rename_i blob hget
    simp only [hget, hload, Except.ok_bind]
    split
    · split
      · exact ⟨_, rfl, hset _⟩
      · exact ⟨inodes, rfl, h, Frame.refl⟩
    · exact ⟨_, rfl, hset _⟩
  · rename_i hget
    simp only [hget]
    exact ⟨inodes, rfl, h, Frame.refl⟩

/-- The list that a build with permissions decodes. -/
theorem acl_eq_none {sections : List TaggedSection} {inode : SectionedInode} (h : inode.Spells true sections) :
    inode.acl = none ↔ bodyOf sections sectionAcl = none := by
  have hbody : bodyOf sections sectionAcl = inode.acl.map Acl.encode := (h.body sectionAcl).symm
  rw [hbody, Option.map_eq_none_iff]

theorem setDefaultAcl_frame {inodes : InodeBlobs} {table : Str} {akey : AKey} {owner : Id32}
    (h : inodes.SoundTable) :
    ∃ next, inodes.setDefaultAcl table akey owner = .ok next ∧ next.SoundTable ∧
      Frame true (inodeKey table akey)
        (if bodyOf (inodes.sectionsAt (inodeKey table akey)) sectionAcl = none then [sectionAcl] else [])
        inodes next := by
  obtain ⟨inode, hload, hready, hspells⟩ := load_spells h true (inodeKey table akey)
  simp only [setDefaultAcl, hload, Except.ok_bind, ← acl_eq_none hspells]
  cases hacl : inode.acl with
  | none =>
    refine ⟨_, rfl, frame_insert h hready hspells ?_⟩
    rw [if_pos rfl]
    apply SectionedInode.changes_setAcl
    simp [Acl.length_encode, Acl.defaultFor]
  | some acl => exact ⟨inodes, rfl, h, Frame.refl⟩

end InodeBlobs

namespace InodeStep

open InodeBlobs

/-- What a step changes. -/
theorem run_frame {inodes : InodeBlobs} (h : inodes.SoundTable) (step : InodeStep) :
    ∃ next, run inodes step = .ok next ∧ next.SoundTable ∧
      Frame step.permissions step.key (step.call.names (inodes.sectionsAt step.key)) inodes next := by
  obtain ⟨permissions, table, akey, call, hoffered⟩ := step
  unfold run
  cases call with
  | touch now => exact update_frame h fun inode _ => inode.changes_stamp now
  | bumpAccess time => exact bumpAccess_frame h
  | stampAndSeal now owner tags =>
    obtain rfl : permissions = true := hoffered
    apply update_frame h
    intro inode hspells
    have hacl : (inode.stamp now).acl = inode.acl := by
      unfold SectionedInode.stamp
      split <;> rfl
    have howned := (inode.stamp now).changes_own owner
    simp only [hacl, acl_eq_none hspells] at howned
    exact ((inode.changes_stamp now).trans howned).trans (SectionedInode.changes_sealWith tags)
  | setDefaultAcl owner =>
    obtain rfl : permissions = true := hoffered
    exact setDefaultAcl_frame h
  | setAcl acl =>
    obtain rfl : permissions = true := hoffered
    exact update_frame h fun inode _ => SectionedInode.changes_setAcl acl.2
  | sealMac mac =>
    obtain rfl : permissions = true := hoffered
    exact update_frame h fun inode _ => inode.changes_setMac mac
  | sealSig sig =>
    obtain rfl : permissions = true := hoffered
    exact update_frame h fun inode _ => inode.changes_setSig sig

/-- Runs steps one after the other. -/
def runAll (inodes : InodeBlobs) : List InodeStep → AdbResult InodeBlobs
  | [] => .ok inodes
  | step :: rest => do
    let next ← run inodes step
    runAll next rest

/-- What no build recognises stays as it is. -/
theorem unrecognised_frame {permissions : Bool} {key : Bytes} {tags : List Nat} {inodes next : InodeBlobs}
    (h : Frame permissions key tags inodes next) (other : Bytes) :
    unrecognised (next.sectionsAt other) = unrecognised (inodes.sectionsAt other) := by
  by_cases heq : other = key
  · subst heq
    have hsub (l : List TaggedSection) :
        unrecognised (l.filter fun x => !recognises permissions x.1) = unrecognised l := by
      rw [unrecognised, unrecognised, List.filter_filter]
      apply List.filter_congr
      intro x _
      cases hread : recognises permissions x.1 with
      | false => simp
      | true => simpa using SectionedInode.recognises_le hread
    rw [← hsub, h.unread, hsub]
  · rw [sectionsAt, h.others other heq]
    rfl

theorem runAll_sound {inodes : InodeBlobs} (h : inodes.SoundTable) (steps : List InodeStep) :
    ∃ after, runAll inodes steps = .ok after ∧ after.SoundTable ∧
      ∀ key, unrecognised (after.sectionsAt key) = unrecognised (inodes.sectionsAt key) := by
  induction steps generalizing inodes with
  | nil => exact ⟨inodes, rfl, h, fun _ => rfl⟩
  | cons step rest ih =>
    obtain ⟨next, hrun, hnext, hframe⟩ := run_frame h step
    obtain ⟨after, hafter, hsound, hkept⟩ := ih hnext
    refine ⟨after, ?_, hsound, ?_⟩
    · rw [runAll, hrun]
      exact hafter
    · intro key
      rw [hkept, unrecognised_frame hframe]

/-- **Inode sections survive every update.** From a table of sound inodes, any steps of either build leave
sound inodes with the same unrecognised sections, and a further step changes only the sections of its inode
that it names: it keeps the body of each other one, and what its build does not recognise stays as it is, in
its order. -/
theorem inode_sections_survive (inodes : InodeBlobs) (h : inodes.SoundTable) (steps : List InodeStep) :
    ∃ after, runAll inodes steps = .ok after ∧ after.SoundTable ∧
      (∀ key, unrecognised (after.sectionsAt key) = unrecognised (inodes.sectionsAt key)) ∧
      ∀ step : InodeStep, ∃ next, run after step = .ok next ∧ next.SoundTable ∧
        Frame step.permissions step.key (step.call.names (after.sectionsAt step.key)) after next := by
  obtain ⟨after, hafter, hsound, hkept⟩ := runAll_sound h steps
  exact ⟨after, hafter, hsound, hkept, run_frame hsound⟩

end InodeStep

/-- The build without permissions stamps an inode that holds a list, a signature and an unknown section. -/
theorem inode_sections_survive_unread :
    let sections : List TaggedSection := [(sectionAcl, (Acl.defaultFor 2).encode), (sectionSig, List.replicate 64 7),
      (9, [1, 2])]
    let key := inodeKey ⟨"t"⟩ (.ofNat 5)
    let inodes : InodeBlobs := SortedMap.empty.insert key (encodeSections sections)
    let step : InodeStep := ⟨false, ⟨"t"⟩, .ofNat 5, .touch 1000, trivial⟩
    ∃ next, InodeStep.run inodes step = .ok next ∧
      (next.sectionsAt key).filter (fun x => !recognises false x.1) =
        (inodes.sectionsAt key).filter fun x => !recognises false x.1 := by
  intro sections key inodes step
  have hsound : SoundSections sections := by
    refine ⟨by unfold TaggedSection.Fits; decide, by decide, ?_, by decide⟩
    intro x hx
    simp only [sections, List.mem_cons, List.not_mem_nil, or_false] at hx
    rcases hx with rfl | rfl | rfl
    · exact ⟨nofun, fun _ => ⟨Acl.defaultFor 2, by decide, rfl⟩, nofun, nofun⟩
    · exact ⟨nofun, nofun, nofun, fun _ => rfl⟩
    · exact ⟨nofun, nofun, nofun, nofun⟩
  have htable : inodes.SoundTable := by
    intro other blob hget
    rw [SortedMap.get_insert, SortedMap.get_empty] at hget
    split at hget
    · cases hget
      exact ⟨sections, hsound.soundBlob⟩
    · cases hget
  obtain ⟨after, hafter, -, -, hstep⟩ := InodeStep.inode_sections_survive inodes htable []
  cases hafter
  obtain ⟨next, hrun, -, hframe⟩ := hstep step
  exact ⟨next, hrun, hframe.unread⟩

end ArborDb
