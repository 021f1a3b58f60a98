import ArborDb.Perm.Codec

/-!
# Inode blobs

The metadata of an a-node is a blob of tagged sections: a count, and for each section its tag and its
body behind a length. A build decodes the sections it recognises and keeps the others as they are, so
that it can rewrite an inode that a build with other features wrote.
-/

namespace ArborDb

/-! ## Tagged sections -/

def sectionTimestamps := 0
def sectionAcl := 1
def sectionMac := 2
def sectionSig := 3

/-- A section: its tag and its body. -/
abbrev TaggedSection := Nat × Bytes

/-- The layout of an inode blob. -/
def encodeSections (sections : List TaggedSection) : Bytes :=
  Bytes.be 1 sections.length ++ sections.flatMap fun x => Bytes.be 1 x.1 ++ putBytes x.2

def readSection : ReadM TaggedSection := do
  let tag ← Reader.u8
  let body ← Reader.bytes
  return (tag, body)

/-- The sections of a blob, undecoded. -/
def readSections : ReadM (List TaggedSection) := do
  let count ← Reader.u8
  Reader.times readSection count

/-- The tag and the length of a section fit their fields. -/
def TaggedSection.Fits (x : TaggedSection) : Prop := x.1 < 256 ∧ x.2.length < 2 ^ 32

theorem reads_readSections {sections : List TaggedSection} (hcount : sections.length < 256)
    (hfits : ∀ x ∈ sections, x.Fits) : Reads readSections (encodeSections sections) sections := by
  have hsections : Reads (Reader.times readSection sections.length)
      (sections.flatMap fun x => Bytes.be 1 x.1 ++ putBytes x.2) (sections.map id) := by
    apply Reads.times
    intro x hx
    apply (Reads.word (w := 1) (hfits x hx).1).bind
    apply (Reads.bytes (hfits x hx).2).bind_nil
    exact Reads.pure x
  rw [List.map_id] at hsections
  exact (Reads.word (w := 1) hcount).bind hsections

theorem gives_readSections : Gives readSections fun sections => ∀ x ∈ sections, x.Fits := by
  have hsection : Gives readSection TaggedSection.Fits := by
    refine Gives.bind (Gives.word 1) ?_
    intro tag htag
    refine Gives.bind Gives.bytes ?_
    intro body hbody
    exact Gives.pure ⟨htag, hbody⟩
  apply Gives.after
  intro count
  exact hsection.times count

/-! ## Timestamps -/

/-- The three timestamps as they are stored, in milliseconds of the Unix epoch. -/
structure UnderlyingTimestamps where
  created : BitVec 64
  modified : BitVec 64
  accessed : BitVec 64
  deriving DecidableEq

namespace UnderlyingTimestamps

def encode (t : UnderlyingTimestamps) : Bytes :=
  Scalar.toBeBytes t.created ++ Scalar.toBeBytes t.modified ++ Scalar.toBeBytes t.accessed

def read : ReadM UnderlyingTimestamps := do
  let created ← Scalar.readWord 64
  let modified ← Scalar.readWord 64
  let accessed ← Scalar.readWord 64
  return ⟨created, modified, accessed⟩

def decode (body : Bytes) : AdbResult UnderlyingTimestamps := (read.run (Reader.new body)).map Prod.fst

theorem decode_encoded (t : UnderlyingTimestamps) : decode t.encode = .ok t := by
  have hread : Reads read t.encode t := by
    rw [encode, List.append_assoc]
    apply (Scalar.reads_word (by norm_num) t.created).bind
    apply (Scalar.reads_word (by norm_num) t.modified).bind
    apply (Scalar.reads_word (by norm_num) t.accessed).bind_nil
    exact Reads.pure t
  exact congrArg (Except.map Prod.fst) hread.run_new

@[simp] theorem length_encode (t : UnderlyingTimestamps) : t.encode.length = 24 := by
  simp [encode, Scalar.toBeBytes]

end UnderlyingTimestamps

/-! ## Decoded inodes -/

/-- An inode as a build decodes it. A build without permissions recognises the timestamps alone: its
list and its tags are always missing, and their sections are among the others. -/
structure SectionedInode where
  timestamps : Option UnderlyingTimestamps
  acl : Option Acl
  mac : Option { b : Bytes // b.length = 32 }
  sig : Option { b : Bytes // b.length = 64 }
  /-- The sections that the build does not recognise, in their order. -/
  extra : List TaggedSection

/-- Whether a build recognises a tag. -/
def recognises (permissions : Bool) (tag : Nat) : Bool :=
  tag = sectionTimestamps || permissions && (tag = sectionAcl || tag = sectionMac || tag = sectionSig)

namespace SectionedInode

def default : SectionedInode := ⟨none, none, none, none, []⟩

/-- Sets (or replaces) the timestamps section. -/
def setTimestamps (inode : SectionedInode) (times : UnderlyingTimestamps) : SectionedInode :=
  { inode with timestamps := some times }

/-- Sets (or replaces) the access-control section. -/
def setAcl (inode : SectionedInode) (acl : Acl) : SectionedInode := { inode with acl := some acl }

/-- Sets (or replaces) the keyed tag. -/
def setMac (inode : SectionedInode) (mac : { b : Bytes // b.length = 32 }) : SectionedInode :=
  { inode with mac := some mac }

/-- Sets (or replaces) the signature. -/
def setSig (inode : SectionedInode) (sig : { b : Bytes // b.length = 64 }) : SectionedInode :=
  { inode with sig := some sig }

/-- Decodes one section, or keeps it. -/
def absorb (permissions : Bool) (inode : SectionedInode) (tag : Nat) (body : Bytes) : AdbResult SectionedInode :=
  if tag = sectionTimestamps then do
    let times ← UnderlyingTimestamps.decode body
    return inode.setTimestamps times
  else if permissions ∧ tag = sectionAcl then do
    let acl ← Acl.decode body
    return inode.setAcl acl
  else if permissions ∧ tag = sectionMac then
    if h : body.length = 32 then .ok (inode.setMac ⟨body, h⟩)
    else .error (.corrupt "inode MAC section has a bad length")
  else if permissions ∧ tag = sectionSig then
    if h : body.length = 64 then .ok (inode.setSig ⟨body, h⟩)
    else .error (.corrupt "inode signature section has a bad length")
  else .ok { inode with extra := inode.extra ++ [(tag, body)] }

/-- Decodes the next sections into an inode. -/
def decodeNext (permissions : Bool) : Nat → SectionedInode → ReadM SectionedInode
  | 0, inode => pure inode
  | n + 1, inode => do
    let tag ← Reader.u8
    let body ← Reader.bytes
    let inode ← ReadM.lift (inode.absorb permissions tag body)
    decodeNext permissions n inode

/-- Decodes an inode blob. -/
def decode (permissions : Bool) (bytes : Bytes) : AdbResult SectionedInode :=
  (do
    let count ← Reader.u8
    decodeNext permissions count default : ReadM SectionedInode).run (Reader.new bytes) |>.map Prod.fst

/-- The sections that an inode has decoded. -/
def decoded (inode : SectionedInode) : List TaggedSection :=
  (inode.timestamps.map fun times => (sectionTimestamps, times.encode)).toList ++
    (inode.acl.map fun acl => (sectionAcl, acl.encode)).toList ++
    (inode.mac.map fun mac => (sectionMac, mac.1)).toList ++
    (inode.sig.map fun sig => (sectionSig, sig.1)).toList

/-- The sections of an inode: those that are decoded, and then the others. -/
def sections (inode : SectionedInode) : List TaggedSection := inode.decoded ++ inode.extra

/-- Serialises an inode. -/
def encode (inode : SectionedInode) : Bytes := encodeSections inode.sections

/-- The body of a decoded section. -/
def body (inode : SectionedInode) (tag : Nat) : Option Bytes :=
  if tag = sectionTimestamps then inode.timestamps.map UnderlyingTimestamps.encode
  else if tag = sectionAcl then inode.acl.map Acl.encode
  else if tag = sectionMac then inode.mac.map Subtype.val
  else if tag = sectionSig then inode.sig.map Subtype.val
  else none

section Setters

variable {inode : SectionedInode} {tag : Nat}

theorem body_setTimestamps {times : UnderlyingTimestamps} :
    (inode.setTimestamps times).body tag = if tag = sectionTimestamps then some times.encode else inode.body tag := by
  unfold body setTimestamps
  split <;> rfl

theorem body_setAcl {acl : Acl} :
    (inode.setAcl acl).body tag = if tag = sectionAcl then some acl.encode else inode.body tag := by
  unfold body setAcl
  by_cases h : tag = sectionAcl
  · cases h
    rfl
  · simp only [if_neg h]

theorem body_setMac {mac : { b : Bytes // b.length = 32 }} :
    (inode.setMac mac).body tag = if tag = sectionMac then some mac.1 else inode.body tag := by
  unfold body setMac
  by_cases h : tag = sectionMac
  · cases h
    rfl
  · simp only [if_neg h]

theorem body_setSig {sig : { b : Bytes // b.length = 64 }} :
    (inode.setSig sig).body tag = if tag = sectionSig then some sig.1 else inode.body tag := by
  unfold body setSig
  by_cases h : tag = sectionSig
  · cases h
    rfl
  · simp only [if_neg h]

end Setters

end SectionedInode

/-! ## What a blob holds -/

/-- The body of the first section of a tag. -/
def bodyOf (sections : List TaggedSection) (tag : Nat) : Option Bytes := Assoc.find tag sections

/-- The sections that no build recognises, in their order. -/
def unrecognised (sections : List TaggedSection) : List TaggedSection :=
  sections.filter fun x => sectionSig < x.1

theorem bodyOf_append {l m : List TaggedSection} {tag : Nat} :
    bodyOf (l ++ m) tag = (bodyOf l tag).or (bodyOf m tag) := by
  induction l with
  | nil => rfl
  | cons y l ih =>
    simp only [bodyOf, List.cons_append, Assoc.find] at ih ⊢
    split
    · rfl
    · exact ih

theorem bodyOf_filter {p : Nat → Bool} {l : List TaggedSection} {tag : Nat} :
    bodyOf (l.filter fun x => p x.1) tag = if p tag then bodyOf l tag else none := by
  induction l with
  | nil =>
    split <;> rfl
  | cons y l ih =>
    by_cases htag : tag = y.1
    · subst htag
      by_cases hp : p y.1 = true
      · simp [hp, bodyOf, Assoc.find]
      · rw [List.filter_cons_of_neg (by simpa using hp), ih, if_neg hp, if_neg hp]
    · have hskip : bodyOf (y :: l) tag = bodyOf l tag := if_neg htag
      rw [hskip, ← ih, List.filter_cons]
      split
      · exact if_neg htag
      · rfl

theorem mem_of_bodyOf {l : List TaggedSection} {tag : Nat} {body : Bytes} (h : bodyOf l tag = some body) :
    (tag, body) ∈ l := Assoc.mem_of_find h

/-- A body that the library writes under a tag. -/
structure Written (tag : Nat) (body : Bytes) : Prop where
  timestamps : tag = sectionTimestamps → ∃ times : UnderlyingTimestamps, body = times.encode
  acl : tag = sectionAcl → ∃ acl : Acl, acl.group.entries.length < 2 ^ 32 ∧ body = acl.encode
  mac : tag = sectionMac → body.length = 32
  sig : tag = sectionSig → body.length = 64

/-- Sections as the builds write them: at most one for each recognised tag, and room for those beside the
others. -/
structure SoundSections (sections : List TaggedSection) : Prop where
  fits : ∀ x ∈ sections, x.Fits
  once : ((sections.filter fun x => x.1 ≤ sectionSig).map Prod.fst).Nodup
  written : ∀ x ∈ sections, Written x.1 x.2
  room : (unrecognised sections).length ≤ 251

/-- An inode blob with such sections. -/
def SoundBlob (blob : Bytes) (sections : List TaggedSection) : Prop :=
  SoundSections sections ∧ ∃ r, readSections (Reader.new blob) = .ok (sections, r)

theorem SoundSections.filter {sections : List TaggedSection} (h : SoundSections sections)
    (p : TaggedSection → Bool) : SoundSections (sections.filter p) where
  fits x hx := h.fits x (List.mem_of_mem_filter hx)
  once := h.once.sublist ((List.filter_sublist.filter _).map _)
  written x hx := h.written x (List.mem_of_mem_filter hx)
  room := (List.filter_sublist.filter _).length_le.trans h.room

theorem SoundSections.length_lt {sections : List TaggedSection} (h : SoundSections sections) :
    sections.length < 256 := by
  have hsplit : sections.length =
      (sections.filter fun x => x.1 ≤ sectionSig).length + (unrecognised sections).length := by
    rw [List.length_eq_countP_add_countP fun x : TaggedSection => decide (x.1 ≤ sectionSig),
      List.countP_eq_length_filter, List.countP_eq_length_filter, unrecognised]
    congr 3
    funext x
    simp
  have hknown : (sections.filter fun x => x.1 ≤ sectionSig).length ≤ 4 := by
    rw [← List.length_map (f := Prod.fst)]
    have hsub : ((sections.filter fun x => x.1 ≤ sectionSig).map Prod.fst) ⊆ List.range 4 := by
      intro tag htag
      obtain ⟨x, hx, rfl⟩ := List.mem_map.1 htag
      have hle : x.1 ≤ sectionSig := of_decide_eq_true (List.mem_filter.1 hx).2
      exact List.mem_range.2 (Nat.lt_succ_of_le hle)
    exact (h.once.subperm hsub).length_le
  have hroom := h.room
  omega

theorem SoundSections.soundBlob {sections : List TaggedSection} (h : SoundSections sections) :
    SoundBlob (encodeSections sections) sections :=
  ⟨h, _, (reads_readSections h.length_lt h.fits).run_new⟩

/-! ## Decoding -/

namespace SectionedInode

/-- Decodes one section after the other. -/
def absorbAll (permissions : Bool) (inode : SectionedInode) : List TaggedSection → AdbResult SectionedInode
  | [] => .ok inode
  | x :: rest => do
    let inode ← inode.absorb permissions x.1 x.2
    absorbAll permissions inode rest

/-- Sections are decoded as they are read. -/
theorem decodeNext_eq {permissions : Bool} {n : Nat} {inode : SectionedInode} {r r' : Reader}
    {sections : List TaggedSection} (h : Reader.times readSection n r = .ok (sections, r')) :
    decodeNext permissions n inode r = (inode.absorbAll permissions sections).map (·, r') := by
  induction n generalizing inode r sections with
  | zero =>
    cases h
    rfl
  | succ n ih =>
    change (readSection r >>= fun x => Reader.times readSection n x.2 >>= fun y => Except.ok (x.1 :: y.1, y.2)) = _ at h
    obtain ⟨⟨x, r₁⟩, hsection, h⟩ := Except.bind_eq_ok.1 h
    obtain ⟨⟨rest, r₂⟩, hrest, h⟩ := Except.bind_eq_ok.1 h
    cases h
    change (Reader.u8 r >>= fun y => Reader.bytes y.2 >>= fun z => Except.ok ((y.1, z.1), z.2)) = _ at hsection
    obtain ⟨⟨tag, r₃⟩, htag, hsection⟩ := Except.bind_eq_ok.1 hsection
    obtain ⟨⟨body, r₄⟩, hbody, hsection⟩ := Except.bind_eq_ok.1 hsection
    cases hsection
    change (Reader.u8 r >>= fun y => Reader.bytes y.2 >>= fun z =>
      ReadM.lift (inode.absorb permissions y.1 z.1) z.2 >>= fun w => decodeNext permissions n w.1 w.2) = _
    rw [htag, Except.ok_bind, hbody, Except.ok_bind, absorbAll, ReadM.lift]
    cases inode.absorb permissions tag body with
    | error e => rfl
    | ok next => exact ih hrest

theorem decode_eq {permissions : Bool} {blob : Bytes} {sections : List TaggedSection} {r : Reader}
    (h : readSections (Reader.new blob) = .ok (sections, r)) :
    decode permissions blob = default.absorbAll permissions sections := by
  change (Reader.u8 (Reader.new blob) >>= fun x => Reader.times readSection x.1 x.2) = _ at h
  obtain ⟨⟨count, r₁⟩, hcount, h⟩ := Except.bind_eq_ok.1 h
  change Except.map Prod.fst (Reader.u8 (Reader.new blob) >>= fun x => decodeNext permissions x.1 default x.2) = _
  rw [hcount, Except.ok_bind, decodeNext_eq h]
  cases default.absorbAll permissions sections <;> rfl

/-- What decoding one section changes. -/
theorem absorb_written {permissions : Bool} {inode : SectionedInode} {x : TaggedSection} (h : Written x.1 x.2) :
    ∃ next, inode.absorb permissions x.1 x.2 = .ok next ∧
      (∀ tag, next.body tag = if tag = x.1 ∧ recognises permissions x.1 then some x.2 else inode.body tag) ∧
      next.extra = inode.extra ++ if recognises permissions x.1 then [] else [x] := by
  obtain ⟨tag, body⟩ := x
  unfold absorb
  by_cases htimes : tag = sectionTimestamps
  · obtain ⟨times, rfl⟩ := h.timestamps htimes
    subst htimes
    rw [if_pos rfl, UnderlyingTimestamps.decode_encoded]
    exact ⟨inode.setTimestamps times, rfl, fun t => by simp [body_setTimestamps, recognises],
      by simp [recognises, setTimestamps]⟩
  rw [if_neg htimes]
  by_cases hacl : permissions ∧ tag = sectionAcl
  · obtain ⟨acl, hcount, rfl⟩ := h.acl hacl.2
    obtain ⟨rfl, rfl⟩ := hacl
    rw [if_pos ⟨rfl, rfl⟩, Acl.decode_encoded hcount]
    exact ⟨inode.setAcl acl, rfl, fun t => by simp [body_setAcl, recognises], by simp [recognises, setAcl]⟩
  rw [if_neg hacl]
  by_cases hmac : permissions ∧ tag = sectionMac
  · have hlen : body.length = 32 := h.mac hmac.2
    obtain ⟨rfl, rfl⟩ := hmac
    rw [if_pos ⟨rfl, rfl⟩, dif_pos hlen]
    exact ⟨inode.setMac ⟨body, hlen⟩, rfl, fun t => by simp [body_setMac, recognises],
      by simp [recognises, setMac]⟩
  rw [if_neg hmac]
  by_cases hsig : permissions ∧ tag = sectionSig
  · have hlen : body.length = 64 := h.sig hsig.2
    obtain ⟨rfl, rfl⟩ := hsig
    rw [if_pos ⟨rfl, rfl⟩, dif_pos hlen]
    exact ⟨inode.setSig ⟨body, hlen⟩, rfl, fun t => by simp [body_setSig, recognises],
      by simp [recognises, setSig]⟩
  rw [if_neg hsig]
  have hunread : recognises permissions tag = false := by
    unfold recognises
    cases permissions <;> simp_all
  refine ⟨_, rfl, ?_, ?_⟩
  · intro t
    rw [hunread, if_neg (by simp)]
    rfl
  · rw [hunread]
    rfl

/-- The inode that a build decodes some sections to. -/
structure Spells (permissions : Bool) (sections : List TaggedSection) (inode : SectionedInode) : Prop where
  body : ∀ tag, inode.body tag = if recognises permissions tag then bodyOf sections tag else none
  extra : inode.extra = sections.filter fun x => !recognises permissions x.1

theorem Spells.default (permissions : Bool) : Spells permissions [] default where
  body tag := by
    have hbody : SectionedInode.default.body tag = none := by
      unfold SectionedInode.body
      split_ifs <;> rfl
    rw [hbody]
    split <;> rfl
  extra := rfl

theorem Spells.absorb {permissions : Bool} {sections : List TaggedSection} {inode : SectionedInode}
    {x : TaggedSection} (h : Spells permissions sections inode) (hx : Written x.1 x.2)
    (hnew : recognises permissions x.1 → bodyOf sections x.1 = none) :
    ∃ next, inode.absorb permissions x.1 x.2 = .ok next ∧ Spells permissions (sections ++ [x]) next := by
  obtain ⟨next, hnext, hbody, hextra⟩ : ∃ next, inode.absorb permissions x.1 x.2 = .ok next ∧ _ ∧ _ :=
    absorb_written hx
  refine ⟨next, hnext, ⟨?_, ?_⟩⟩
  · intro tag
    rw [hbody, h.body, bodyOf_append]
    by_cases htag : tag = x.1
    · subst htag
      by_cases hknown : recognises permissions x.1 = true
      · rw [hnew hknown]
        simp [hknown, bodyOf, Assoc.find]
      · simp [hknown]
    · have hnone : bodyOf [x] tag = none := if_neg htag
      rw [if_neg (fun hc => htag hc.1), hnone, Option.or_none]
  · rw [hextra, h.extra, List.filter_append]
    cases hknown : recognises permissions x.1 <;> simp [hknown]

theorem recognises_le {permissions : Bool} {tag : Nat} (h : recognises permissions tag) : tag ≤ sectionSig := by
  unfold recognises at h
  unfold sectionTimestamps sectionAcl sectionMac sectionSig at *
  grind

/-- A section of a recognised tag comes after none of the same tag. -/
theorem bodyOf_eq_none {permissions : Bool} {l rest : List TaggedSection} {x : TaggedSection}
    (h : (((l ++ x :: rest).filter fun x => x.1 ≤ sectionSig).map Prod.fst).Nodup)
    (hx : recognises permissions x.1) : bodyOf l x.1 = none := by
  have hle := recognises_le hx
  rw [List.filter_append, List.filter_cons_of_pos (by simpa using hle), List.map_append, List.map_cons] at h
  apply Assoc.find_eq_none.2
  intro y hy htag
  have hmem : y.1 ∈ (l.filter fun x => x.1 ≤ sectionSig).map Prod.fst :=
    List.mem_map_of_mem (List.mem_filter.2 ⟨hy, by simpa [htag] using hle⟩)
  exact (List.nodup_append.1 h).2.2 y.1 hmem x.1 List.mem_cons_self htag

theorem Spells.absorbAll {permissions : Bool} {rest : List TaggedSection} {l : List TaggedSection}
    {inode : SectionedInode} (h : Spells permissions l inode) (hwritten : ∀ x ∈ rest, Written x.1 x.2)
    (honce : (((l ++ rest).filter fun x => x.1 ≤ sectionSig).map Prod.fst).Nodup) :
    ∃ last, inode.absorbAll permissions rest = .ok last ∧ Spells permissions (l ++ rest) last := by
  induction rest generalizing l inode with
  | nil => exact ⟨inode, rfl, by rwa [List.append_nil]⟩
  | cons x rest ih =>
    obtain ⟨next, hnext, hspells⟩ := h.absorb (hwritten x List.mem_cons_self) (bodyOf_eq_none honce)
    have hassoc : l ++ x :: rest = l ++ [x] ++ rest := by simp
    rw [hassoc] at honce ⊢
    obtain ⟨last, hlast, hall⟩ := ih hspells (fun y hy => hwritten y (List.mem_cons_of_mem x hy)) honce
    exact ⟨last, by rw [SectionedInode.absorbAll, hnext]; exact hlast, hall⟩

/-- Sound sections are decoded. -/
theorem spells_decode {permissions : Bool} {blob : Bytes} {sections : List TaggedSection}
    (h : SoundBlob blob sections) :
    ∃ inode, decode permissions blob = .ok inode ∧ Spells permissions sections inode := by
  obtain ⟨hsound, r, hr⟩ := h
  rw [decode_eq hr]
  exact (Spells.default permissions).absorbAll hsound.written hsound.once

/-- An inode that a build can write back: it has decoded nothing that it does not recognise, and its
sections fit. -/
structure Ready (permissions : Bool) (inode : SectionedInode) : Prop where
  unread : ∀ tag, recognises permissions tag = false → inode.body tag = none
  bodies : ∀ tag body, inode.body tag = some body → TaggedSection.Fits (tag, body) ∧ Written tag body
  kept : ∀ x ∈ inode.extra, recognises permissions x.1 = false
  extra : SoundSections inode.extra

theorem Ready.default (permissions : Bool) : Ready permissions default where
  unread tag _ := by
    rw [(Spells.default permissions).body]
    split <;> rfl
  bodies tag body h := by
    rw [(Spells.default permissions).body] at h
    split at h <;> cases h
  kept := nofun
  extra := ⟨nofun, List.nodup_nil, nofun, Nat.zero_le _⟩

theorem Spells.ready {permissions : Bool} {sections : List TaggedSection} {inode : SectionedInode}
    (h : Spells permissions sections inode) (hsound : SoundSections sections) : Ready permissions inode where
  unread tag htag := by
    rw [h.body, if_neg (by simp [htag])]
  bodies tag body hbody := by
    rw [h.body] at hbody
    split at hbody
    · exact ⟨hsound.fits _ (mem_of_bodyOf hbody), hsound.written _ (mem_of_bodyOf hbody)⟩
    · cases hbody
  kept x hx := by
    rw [h.extra] at hx
    simpa using (List.mem_filter.1 hx).2
  extra := by
    rw [h.extra]
    exact hsound.filter _

theorem body_of_mem_decoded {inode : SectionedInode} {x : TaggedSection} (h : x ∈ inode.decoded) :
    inode.body x.1 = some x.2 := by
  simp only [decoded, List.mem_append, Option.mem_toList, Option.map_eq_some_iff] at h
  rcases h with ((⟨a, ha, rfl⟩ | ⟨a, ha, rfl⟩) | ⟨a, ha, rfl⟩) | ⟨a, ha, rfl⟩
  · simp [body, ha]
  · simp [body, ha, sectionTimestamps, sectionAcl]
  · simp [body, ha, sectionTimestamps, sectionAcl, sectionMac]
  · simp [body, ha, sectionTimestamps, sectionAcl, sectionMac, sectionSig]

/-- An inode decodes one section for a tag. -/
theorem nodup_decoded (inode : SectionedInode) : (inode.decoded.map Prod.fst).Nodup := by
  have htag {α : Type} (o : Option α) (t : Nat) (f : α → Bytes) :
      ((o.map fun a => (t, f a)).toList.map Prod.fst).Sublist [t] := by
    cases o with
    | none => exact List.nil_sublist _
    | some a => exact List.Sublist.refl _
  have htags : (inode.decoded.map Prod.fst).Sublist [sectionTimestamps, sectionAcl, sectionMac, sectionSig] := by
    simp only [decoded, List.map_append]
    exact (((htag _ _ _).append (htag _ _ _)).append (htag _ _ _)).append (htag _ _ _)
  exact List.Nodup.sublist htags (by decide)

theorem bodyOf_toList {α : Type} {o : Option α} {f : α → Bytes} {t tag : Nat} :
    bodyOf (o.map fun a => (t, f a)).toList tag = if tag = t then o.map f else none := by
  cases o with
  | none =>
    split <;> rfl
  | some a => rfl

theorem bodyOf_sections (inode : SectionedInode) (tag : Nat) :
    bodyOf inode.sections tag = (inode.body tag).or (bodyOf inode.extra tag) := by
  simp only [sections, decoded, bodyOf_append, bodyOf_toList, body, Option.or_assoc]
  split_ifs <;> simp_all [sectionTimestamps, sectionAcl, sectionMac, sectionSig]

section Ready

variable {permissions : Bool} {inode : SectionedInode}

theorem Ready.recognises_decoded (h : Ready permissions inode) {x : TaggedSection} (hx : x ∈ inode.decoded) :
    recognises permissions x.1 = true := by
  rcases hread : recognises permissions x.1 with _ | _
  · have hbody := body_of_mem_decoded hx
    rw [h.unread x.1 hread] at hbody
    cases hbody
  · rfl

/-- What a build does not recognise comes last, as it was. -/
theorem Ready.filter_sections (h : Ready permissions inode) :
    (inode.sections.filter fun x => !recognises permissions x.1) = inode.extra := by
  have hdecoded : (inode.decoded.filter fun x => !recognises permissions x.1) = [] := by
    apply List.filter_eq_nil_iff.2
    intro x hx
    simp [h.recognises_decoded hx]
  have hextra : (inode.extra.filter fun x => !recognises permissions x.1) = inode.extra := by
    apply List.filter_eq_self.2
    intro x hx
    simp [h.kept x hx]
  rw [sections, List.filter_append, hdecoded, hextra, List.nil_append]

theorem Ready.sound (h : Ready permissions inode) : SoundSections inode.sections where
  fits x hx := by
    rcases List.mem_append.1 hx with hx | hx
    · exact (h.bodies x.1 x.2 (body_of_mem_decoded hx)).1
    · exact h.extra.fits x hx
  once := by
    rw [sections, List.filter_append, List.map_append]
    refine List.nodup_append.2 ⟨?_, h.extra.once, ?_⟩
    · exact (nodup_decoded inode).sublist (List.filter_sublist.map _)
    · intro tag htag tag' htag' heq
      obtain ⟨x, hx, rfl⟩ := List.mem_map.1 htag
      obtain ⟨y, hy, rfl⟩ := List.mem_map.1 htag'
      have hread := h.recognises_decoded (List.mem_of_mem_filter hx)
      rw [heq, h.kept y (List.mem_of_mem_filter hy)] at hread
      cases hread
  written x hx := by
    rcases List.mem_append.1 hx with hx | hx
    · exact (h.bodies x.1 x.2 (body_of_mem_decoded hx)).2
    · exact h.extra.written x hx
  room := by
    have hdecoded : unrecognised inode.decoded = [] := by
      apply List.filter_eq_nil_iff.2
      intro x hx
      simpa using recognises_le (h.recognises_decoded hx)
    rw [unrecognised, sections, List.filter_append]
    change (unrecognised inode.decoded ++ unrecognised inode.extra).length ≤ 251
    rw [hdecoded]
    exact h.extra.room

/-- What such an inode encodes to. -/
theorem Ready.soundBlob (h : Ready permissions inode) : SoundBlob inode.encode inode.sections := h.sound.soundBlob

end Ready

/-- Writing back what was decoded keeps every body. -/
theorem Spells.bodyOf_sections {permissions : Bool} {l : List TaggedSection} {inode : SectionedInode}
    (h : Spells permissions l inode) (tag : Nat) : bodyOf inode.sections tag = bodyOf l tag := by
  rw [SectionedInode.bodyOf_sections, h.body, h.extra, bodyOf_filter (p := fun tag => !recognises permissions tag)]
  cases recognises permissions tag <;> simp

end SectionedInode

end ArborDb
