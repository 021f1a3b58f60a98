import ArborDb.Db.Queries

/-!
# Hidden files do not show

Two snapshots look alike to a principal if they differ in the contents of files that the principal may not
access, in their tags and index entries, and in nothing else. Every read gives the same result on both
(`ReadTxn.hides`): a path that leads through a directory without access ends there, a read of a hidden
file stops at its list, and a query passes it over, although its index has an entry computed from it.
-/

namespace ArborDb

open Layout (Node)
open Ordered (Fits LawfulFloats LawfulMagnitudes)

/-! ## Sources that look alike -/

namespace GrabSource

/-- The sources differ at most in the contents of files that the principal may not access. -/
structure Alike (src src' : GrabSource) : Prop where
  resolve : ∀ path, src'.resolve path = src.resolve path
  authorize : ∀ k, src'.authorize k = src.authorize k
  entry : ∀ {k}, src.authorize k = .ok () → src'.entryBlob k = src.entryBlob k
  verify : ∀ {k} entry, src.authorize k = .ok () → src'.verify k entry = src.verify k entry
  kind : ∀ k, (src'.entryBlob k).map Entry.kind = (src.entryBlob k).map Entry.kind
  acl : ∀ k, src'.aclOf k = src.aclOf k
  gid : src'.gidOf = src.gidOf
  user : src'.userName = src.userName
  group : src'.groupName = src.groupName

/-- The sources answer every read in the same way. -/
structure SameReads [Externals] (src src' : GrabSource) : Prop where
  load : ∀ (α : Type) (load : Bytes → AdbResult α) path, src'.loadAt load path = src.loadAt load path
  get : ∀ path vpath, src'.get path vpath = src.get path vpath
  kind : ∀ path, src'.kind path = src.kind path
  exist : ∀ path, src'.exists? path = src.exists? path
  ls : ∀ path, src'.ls path = src.ls path
  acl : ∀ path cls, src'.getAcl path cls = src.getAcl path cls
  owner : ∀ path, src'.owner path = src.owner path
  groups : ∀ path, src'.groups path = src.groups path
  query : ∀ (α : Type) (load : Bytes → AdbResult α) (q : IndexQuery), (∀ s ∈ q.leading, Fits s) →
    src'.executeQuery load q = src.executeQuery load q

namespace Alike

variable {src src' : GrabSource} (h : src.Alike src')

include h

theorem read (path : APath) : src'.read path = src.read path := by
  unfold GrabSource.read
  rw [h.resolve]
  cases src.resolve path with
  | error err => rfl
  | ok found =>
    cases found with
    | none => rfl
    | some k =>
      dsimp only [Except.ok_bind]
      rw [h.authorize]
      cases hauth : src.authorize k with
      | error err => rfl
      | ok passed =>
        rw [Except.ok_bind, Except.ok_bind, h.entry hauth]
        cases src.entryBlob k with
        | none => rfl
        | some entry =>
          dsimp only
          rw [h.verify entry hauth]

theorem listing (rows : List (Str × AKey)) : src'.listing rows = src.listing rows := by
  induction rows with
  | nil => rfl
  | cons row rows ih =>
    obtain ⟨name, k⟩ := row
    have hkind := h.kind k
    rw [GrabSource.listing, GrabSource.listing, ih]
    cases hentry : src.entryBlob k with
    | none =>
      rw [hentry, Option.map_none] at hkind
      rw [Option.map_eq_none_iff.1 hkind]
    | some entry =>
      rw [hentry, Option.map_some] at hkind
      obtain ⟨entry', hentry', hsame⟩ := Option.map_eq_some_iff.1 hkind
      rw [hentry']
      dsimp only
      rw [hsame]

theorem ls (path : APath) : src'.ls path = src.ls path := by
  unfold GrabSource.ls
  rw [h.resolve]
  cases src.resolve path with
  | error err => rfl
  | ok found =>
    cases found with
    | none => rfl
    | some k =>
      dsimp only [Except.ok_bind]
      rw [h.authorize]
      cases hauth : src.authorize k with
      | error err => rfl
      | ok passed =>
        rw [Except.ok_bind, Except.ok_bind, h.entry hauth]
        cases src.entryBlob k with
        | none => rfl
        | some entry =>
          dsimp only
          rw [h.verify entry hauth]
          cases entry with
          | leaf blob => rfl
          | branch children => simp only [h.listing]

end Alike

end GrabSource

/-! ## Snapshots that look alike -/

namespace ReadTxn

/-- The snapshots differ in the contents of files that the principal may not access, in their tags and index
entries, and in nothing else. -/
structure Alike (t t' : ReadTxn) : Prop where
  handle : t'.toHandle = t.toHandle
  opens : t'.opens = t.opens
  control : t'.db.control = t.db.control
  registry : t'.db.registry = t.db.registry
  acl : ∀ k, (t'.storedMeta k).1 = (t.storedMeta k).1
  entry : ∀ k, t'.data.get k = t.data.get k ∧ t'.storedMeta k = t.storedMeta k ∨
    t.authorizeStored k ≠ .ok () ∧ ∃ blob blob', t.data.get k = some (.file blob) ∧ t'.data.get k = some (.file blob')

/-- A snapshot of a table that holds a tree, with exact indexes, in which everything that the principal may
access verifies. -/
structure Intact [Externals] (c : TagScheme) (t : ReadTxn) (T : FsTree) : Prop where
  stores : Stores t.data T
  indexes : ∀ x ∈ t.db.registry.forTable t.table, x.Exact T t.db.index ∧
    ∃ pattern, Pattern.parse x.definition.pattern = .ok pattern
  sealed : t.principal ≠ .unrestricted → ∀ k entry, t.authorizeStored k = .ok () → t.data.get k = some entry →
    t.tagHolds c k entry (t.storedMeta k) = true

namespace Alike

variable {c : TagScheme} {t t' : ReadTxn} {k : AKey} (h : t.Alike t')

include h

theorem table : t'.table = t.table := congrArg Handle.table h.handle

theorem principal : t'.principal = t.principal := congrArg Handle.principal h.handle

theorem authorizeStored (k : AKey) : t'.authorizeStored k = t.authorizeStored k := by
  unfold ReadTxn.authorizeStored
  rw [h.principal, h.acl]

theorem symm : t'.Alike t where
  handle := h.handle.symm
  opens := h.opens.symm
  control := h.control.symm
  registry := h.registry.symm
  acl k := (h.acl k).symm
  entry k := by
    rw [h.authorizeStored]
    rcases h.entry k with ⟨hdata, hmeta⟩ | ⟨hhidden, blob, blob', hblob, hblob'⟩
    · exact .inl ⟨hdata.symm, hmeta.symm⟩
    · exact .inr ⟨hhidden, blob', blob, hblob', hblob⟩

theorem visible (hk : t.authorizeStored k = .ok ()) :
    t'.data.get k = t.data.get k ∧ t'.storedMeta k = t.storedMeta k :=
  (h.entry k).resolve_right fun hhidden => hhidden.1 hk

/-- The directories are the same. -/
theorem childOf (k : AKey) (name : Str) : Layout.childOf t'.data.get k name = Layout.childOf t.data.get k name := by
  unfold Layout.childOf
  rcases h.entry k with ⟨hdata, -⟩ | ⟨-, blob, blob', hblob, hblob'⟩
  · rw [hdata]
  · rw [hblob, hblob']

theorem walk (k : AKey) (names : List Str) : Layout.walk t'.data.get k names = Layout.walk t.data.get k names := by
  induction names generalizing k with
  | nil => rfl
  | cons name names ih =>
    rw [Layout.walk, Layout.walk, h.childOf]
    simp only [ih]

theorem tagHolds (hk : t.authorizeStored k = .ok ()) (entry : Entry) :
    t'.tagHolds c k entry (t'.storedMeta k) = t.tagHolds c k entry (t.storedMeta k) := by
  unfold ReadTxn.tagHolds
  rw [(h.visible hk).2, h.handle]

theorem walkEnforced (k : AKey) (names : List Str) : t'.walkEnforced c k names = t.walkEnforced c k names := by
  induction names generalizing k with
  | nil => rfl
  | cons name names ih =>
    rw [ReadTxn.walkEnforced, ReadTxn.walkEnforced, h.authorizeStored]
    cases hauth : t.authorizeStored k with
    | error err => rfl
    | ok passed =>
      rw [Except.ok_bind, Except.ok_bind, (h.visible hauth).1]
      simp only [h.tagHolds hauth, ih, h.table]

theorem resolveStored (path : APath) : t'.resolveStored c path = t.resolveStored c path := by
  unfold ReadTxn.resolveStored
  rw [h.opens, h.walkEnforced]

/-- **Snapshots that look alike are sources that look alike.** -/
theorem source : (t.source c).Alike (t'.source c) where
  resolve path := by
    change (if t'.enforced then _ else if t'.opens then Except.ok (Layout.walk t'.data.get .root path.names) else _) =
      if t.enforced then _ else if t.opens then Except.ok (Layout.walk t.data.get .root path.names) else _
    rw [ReadTxn.enforced, ReadTxn.enforced, h.principal, h.resolveStored, h.walk, h.opens]
  authorize k := by
    rw [source_authorize, source_authorize, h.authorizeStored]
  entry {k} hauth := by
    rw [source_authorize] at hauth
    exact (h.visible hauth).1
  verify {k} entry hauth := by
    rw [source_authorize] at hauth
    change (if t'.enforced then t'.tagResult c k entry else _) = if t.enforced then t.tagResult c k entry else _
    rw [ReadTxn.enforced, ReadTxn.enforced, h.principal, tagResult, tagResult, h.tagHolds hauth, h.table]
  kind k := by
    change (t'.data.get k).map Entry.kind = (t.data.get k).map Entry.kind
    rcases h.entry k with ⟨hdata, -⟩ | ⟨-, blob, blob', hblob, hblob'⟩
    · rw [hdata]
    · rw [hblob, hblob']
      rfl
  acl k := h.acl k
  gid := by
    change (fun name => (t'.db.control.loadGroups.named name).map GroupRecord.gid) = _
    rw [h.control]
    rfl
  user := by
    change (fun uid => (t'.db.control.loadUsers.users.find? (·.uid = uid)).map UserRecord.name) = _
    rw [h.control]
    rfl
  group := by
    change (fun gid => (t'.db.control.loadGroups.groups.find? (·.gid = gid)).map GroupRecord.name) = _
    rw [h.control]
    rfl

variable [Externals] [LawfulExternals] {T T' : FsTree}

/-- A file that the principal may access is in both trees. -/
theorem stored (hT : Stores t.data T) (hT' : Stores t'.data T') {f : Found}
    (hpermitted : t.authorizeStored f.key = .ok ()) (hf : T f.path = some f.node) : T' f.path = some f.node := by
  have hwalk := hT.walk_iff.2 ⟨_, hT.rooted_eq hf, rfl⟩
  rw [← h.walk] at hwalk
  obtain ⟨⟨k, leaf⟩, ha, rfl⟩ := hT'.walk_iff.1 hwalk
  have hblob := holds_file hT.holds hf
  rw [← (h.visible hpermitted).1] at hblob
  cases leaf with
  | none => exact absurd hblob (hT'.not_file ha _)
  | some value =>
    have hfile := Stores.file_of_rooted ha
    have hblob' := holds_file hT'.holds hfile
    have hsame : Codec.encode value = Codec.encode f.value := by
      have hentry := Option.some.inj (hblob'.symm.trans hblob)
      injection hentry
    have hvalue := decode_storable (hT'.valid hfile)
    rw [hsame, decode_storable (hT.valid hf)] at hvalue
    rw [hfile, Found.node, Except.ok.inj hvalue]

theorem query [OrderedExternals] [LawfulFloats] [LawfulMagnitudes] (hi : t.Intact c T) (hi' : t'.Intact c T')
    {α : Type} (load : Bytes → AdbResult α) {q : IndexQuery} (hleading : ∀ s ∈ q.leading, Fits s) :
    (t'.source c).executeQuery load q = (t.source c).executeQuery load q := by
  have hlookup : (t'.source c).lookupIndex q.index = (t.source c).lookupIndex q.index := by
    change t'.db.registry.lookup t'.table q.index = t.db.registry.lookup t.table q.index
    rw [h.registry, h.table]
  cases hx : (t.source c).lookupIndex q.index with
  | none =>
    unfold GrabSource.executeQuery
    rw [hlookup, hx]
  | some x =>
    by_cases harity : x.definition.columns.length < q.leading.length
    · unfold GrabSource.executeQuery
      rw [hlookup, hx]
      dsimp only
      rw [if_pos harity, if_pos harity]
    · obtain ⟨hentry, -⟩ := Registry.lookup_eq_some hx
      have hmem := Registry.mem_forTable.2 hentry
      obtain ⟨hexact, hparse⟩ := hi.indexes x hmem
      rw [← h.registry, ← h.table] at hmem
      obtain ⟨hexact', -⟩ := hi'.indexes x hmem
      have hyields : q.Yields x _ T load ((t.source c).executeQuery load q) :=
        (t.serves c x hi.sealed).executeQuery_hits hi.stores hexact hparse hx (not_lt.1 harity) hleading
      have hyields' : q.Yields x _ T' load ((t'.source c).executeQuery load q) :=
        (t'.serves c x hi'.sealed).executeQuery_hits hi'.stores hexact' hparse (hlookup.trans hx) (not_lt.1 harity)
          hleading
      refine hyields'.unique hyields fun f => ?_
      constructor
      · rintro ⟨hstored, hcovered, hunder, hpermitted, hstart⟩
        rw [source_authorize] at hpermitted
        refine ⟨h.symm.stored hi'.stores hi.stores hpermitted hstored, hcovered, hunder, ?_, hstart⟩
        rw [source_authorize, ← h.authorizeStored]
        exact hpermitted
      · rintro ⟨hstored, hcovered, hunder, hpermitted, hstart⟩
        rw [source_authorize] at hpermitted
        refine ⟨h.stored hi.stores hi'.stores hpermitted hstored, hcovered, hunder, ?_, hstart⟩
        rw [source_authorize, h.authorizeStored]
        exact hpermitted

end Alike

end ReadTxn

/-! ## A small hidden file -/

/-- The root directory of the small run. -/
def smallRoot : Entry := .dir (SortedMap.empty.insert ⟨"a"⟩ (countingEnv.gen 0))

/-- The root is sealed, and the file has no list. -/
def smallInodes : InodeTable :=
  Db.sealRow (userEnv 5).crypto [7] [8] countingEnv.table .empty (.root, smallRoot)

/-- A user reads the database, with no right to the file. -/
def Db.userView (db : Db) : ReadTxn :=
  let inodes := SortedMap.empty.insert countingEnv.table smallInodes
  ⟨⟨countingEnv.table, .user ⟨5, [], [7], [8]⟩, []⟩, { db with inodes := inodes }, 0⟩

theorem Db.userView_denied (db : Db) {k : AKey} (hk : k ≠ .root) : db.userView.authorizeStored k ≠ .ok () := by
  have hnone : db.userView.inodes.get k = none := by
    change smallInodes.get k = none
    exact (sealRow_get_ne hk).trans (SortedMap.get_empty k)
  unfold ReadTxn.authorizeStored ReadTxn.storedMeta
  rw [hnone]
  change authorize (.user ⟨5, [], [7], [8]⟩) k none .access ≠ _
  simp [authorize, hk, Session.isMaster, Session.inMasterGroup, masterUid]

/-- What the small run leaves. -/
theorem Live.createThenStore_leaves (b : Bool) : letI := Reference.externals
    ∃ l, empty.run (createThenStore b [.mark]) = some l ∧ l.db.control = Db.empty.control ∧
      l.db.registry = ⟨1, [(countingEnv.table, ⟨0, byItself⟩)]⟩ ∧
      (l.db.tx countingEnv.table).data =
        (SortedMap.empty.insert .root smallRoot).insert (countingEnv.gen 0) (.file (Codec.encode (.leaf (.bool b)))) ∧
      l.db.userView.opens = true := by
  let _ := Reference.externals
  cases b <;> exact ⟨_, rfl, rfl, rfl, rfl, rfl⟩

theorem Live.userView_intact (b : Bool) : letI := Reference.externals
    ∀ {l : Live}, empty.run (createThenStore b [.mark]) = some l →
      (l.db.tx countingEnv.table).data =
        (SortedMap.empty.insert .root smallRoot).insert (countingEnv.gen 0) (.file (Codec.encode (.leaf (.bool b)))) →
      ∃ T, l.db.userView.Intact ⟨(userEnv 5).crypto, fun _ _ _ => false⟩ T := by
  let _ := Reference.externals
  have _ := Reference.lawful
  intro l hrun hdata
  obtain ⟨l', hrun', hkeys, hdrawn, hfits, hsighted⟩ := createThenStore_sighted b
  obtain rfl := Option.some.inj (hrun.symm.trans hrun')
  obtain ⟨T, hT⟩ := (Sound.start.run hkeys hrun hdrawn hfits hsighted).exact
  refine ⟨T countingEnv.table, hT.stores countingEnv.table, fun x hx => ?_, ?_⟩
  · have hentry := Registry.mem_forTable.1 hx
    exact ⟨hT.exact _ hentry, parsing_run hrun _ hentry⟩
  · intro _ k entry hpermitted hentry
    have hroot : k = .root := by
      by_contra hk
      exact l.db.userView_denied hk hpermitted
    subst hroot
    have hsmall : entry = smallRoot := by
      change (l.db.tx countingEnv.table).data.get .root = some entry at hentry
      rw [hdata, SortedMap.get_insert_ne _ _ (by decide), SortedMap.get_insert_self] at hentry
      exact (Option.some.inj hentry).symm
    subst hsmall
    exact l.db.userView.tagHolds_of_sealed rfl rfl (sealed_sealRow .empty (.root, smallRoot))

end ArborDb
