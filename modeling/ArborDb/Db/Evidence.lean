import ArborDb.Codec.Dir
import ArborDb.Db.Secrecy
import ArborDb.Perm.Integrity
import ArborDb.Txn.Forgery

/-!
# Tampering shows, or makes things absent

Someone without the key rewrites the tables: entries are replaced or deleted, inodes and lists too, and tags
are moved about, but each tag that is there was there before. A tag binds its table, its a-node, the entry
and the list, so an entry that verifies is genuine. A user's read of the altered tables then gives what it
gave before, or an error, or nothing at all, the last only if an entry on its way has been deleted
(`ReadTxn.tampering_shows`). A read does not notice that deletion (`ReadTxn.deletion_silent`).
-/

namespace ArborDb

/-! ## What a tag binds -/

theorem Sized.of_lt {bytes : Bytes} (h : bytes.length < 2 ^ 32) : Sized bytes := h.trans (by decide)

/-- A message determines everything it was made of. -/
theorem absorbValue_inj {table table' : Str} {k k' : AKey} {blob blob' acl acl' : Bytes}
    (htable : Sized table.bytes) (htable' : Sized table'.bytes) (hblob : Sized blob) (hblob' : Sized blob')
    (h : absorbValue table k blob acl = absorbValue table' k' blob' acl') :
    table = table' ∧ k = k' ∧ blob = blob' ∧ acl = acl' := by
  unfold absorbValue at h
  simp only [List.append_assoc] at h
  obtain ⟨htables, h⟩ := field_append_inj htable htable' (List.append_cancel_left h)
  obtain ⟨hkey, h⟩ := List.append_inj h (by simp)
  obtain ⟨hblobs, h⟩ := field_append_inj hblob hblob' h
  exact ⟨Str.bytes_inj htables, AKey.intoBytes_inj hkey, hblobs, (List.append_inj h (by simp)).2⟩

/-- A stored entry determines a directory or a file. -/
theorem Entry.toBytes_inj {a b : Entry} (ha : a.toBytes.length < 2 ^ 32) (hb : b.toBytes.length < 2 ^ 32)
    (h : a.toBytes = b.toBytes) : a = b := by
  cases a with
  | leaf blob =>
    cases b with
    | leaf blob' =>
      have hblob : blob = blob' := List.append_cancel_left h
      rw [hblob]
    | branch children => cases (List.append_inj h rfl).1
  | branch children =>
    cases b with
    | leaf blob => cases (List.append_inj h rfl).1
    | branch children' =>
      have hdir : Codec.encodeDir children = Codec.encodeDir children' := List.append_cancel_left h
      have hlength : ∀ m : SortedMap Str AKey, (Entry.dir m).toBytes.length < 2 ^ 32 →
          (Codec.encodeDir m).length < 2 ^ 32 := by
        intro m hm
        change (Bytes.be 1 0 ++ Codec.encodeDir m).length < _ at hm
        rw [List.length_append] at hm
        omega
      have hentries := archivedDir_entries (hlength children ha)
      rw [hdir, archivedDir_entries (hlength children' hb)] at hentries
      obtain ⟨l, hl⟩ := children
      obtain ⟨m, hm⟩ := children'
      cases Except.ok.inj hentries
      rfl

/-! ## Altered databases -/

/-- The engine stores no key or value of `2 ^ 32` bytes. -/
def Db.Bounded (db : Db) : Prop := ∀ table k entry, (db.tx table).data.get k = some entry →
  table.bytes.length < 2 ^ 32 ∧ entry.toBytes.length < 2 ^ 32

/-- A database in which every a-node verifies, and one made from it without the key: whatever its tables
hold, each of its tags was a tag of some a-node of some table. -/
structure Altered (c : Crypto) (key : Bytes) (db db' : Db) : Prop where
  verifies : ∀ table, ∃ seed, AllVerify ⟨table, c, key, seed⟩ (db.tx table)
  bounded : db.Bounded
  bounded' : db'.Bounded
  tags : ∀ table k inode mac, (db'.tx table).inodes.get k = some inode → inode.mac = some mac →
    ∃ table' j inode', (db.tx table').inodes.get j = some inode' ∧ inode'.mac = some mac

namespace ReadTxn

variable {c : TagScheme} {t t' : ReadTxn} {session : Session}

/-- A user's snapshot, and the same user's snapshot of the altered database. -/
structure AlteredFor (c : TagScheme) (session : Session) (t t' : ReadTxn) : Prop where
  altered : Altered c.toCrypto session.key t.db t'.db
  injective : Function.Injective (c.keyedHash session.key)
  handle : t'.toHandle = t.toHandle
  user : t.principal = .user session

/-- An entry on the way along a path has been deleted. -/
def Lost (t t' : ReadTxn) (names : List Str) : Prop := ∃ above, above <+: names ∧
  ∃ k, Layout.walk t.data.get .root above = some k ∧ t.data.get k ≠ none ∧ t'.data.get k = none

/-- What a read of the altered snapshot may give. -/
def Evident {α : Type} (lost : Prop) (absent : α) (before after : AdbResult α) : Prop :=
  after = before ∨ (∃ err, after = .error err) ∨ after = .ok absent ∧ lost

theorem Evident.bind {α β : Type} {lost : Prop} {absent : α} {absent' : β} {before after : AdbResult α}
    {f : α → AdbResult β} (h : Evident lost absent before after) (hf : f absent = .ok absent') :
    Evident lost absent' (before >>= f) (after >>= f) := by
  rcases h with rfl | ⟨err, rfl⟩ | ⟨rfl, hlost⟩
  · exact .inl rfl
  · exact .inr (.inl ⟨err, rfl⟩)
  · exact .inr (.inr ⟨hf, hlost⟩)

theorem mac_of_tagHolds (huser : t.principal = .user session) {k : AKey} {entry : Entry} {m : Meta}
    (h : t.tagHolds c k entry m = true) :
    m.2.1 = some (macValue c.toCrypto session.key t.table k entry.toBytes ((m.1.map Acl.encode).getD [])) := by
  unfold tagHolds at h
  rw [huser] at h
  exact of_decide_eq_true h

/-- Every entry of the genuine snapshot verifies. -/
theorem AlteredFor.holds (h : AlteredFor c session t t') {k : AKey} {entry : Entry}
    (hentry : t.data.get k = some entry) :
    t.tagHolds c k entry (t.storedMeta k) = true := by
  have hstored : (t.db.tx t.table).data.get k = some entry := hentry
  obtain ⟨seed, hverify⟩ := h.altered.verifies t.table
  obtain ⟨entry', inode, hentry', hinode, hmac⟩ := hverify k (.inl (hstored ▸ Option.some_ne_none entry))
  obtain rfl := Option.some.inj (hentry'.symm.trans hstored)
  unfold tagHolds
  rw [storedMeta_eq hinode, h.user]
  exact decide_eq_true hmac

/-- **What verifies is genuine**, the list included. -/
theorem AlteredFor.genuine (h : AlteredFor c session t t') {k : AKey} {entry : Entry}
    (hentry : t'.data.get k = some entry) (hholds : t'.tagHolds c k entry (t'.storedMeta k) = true) :
    t.data.get k = some entry ∧ (t'.storedMeta k).1 = (t.storedMeta k).1 := by
  have huser : t'.principal = .user session := by
    rw [show t'.principal = t.principal from congrArg Handle.principal h.handle, h.user]
  have htable : t'.table = t.table := congrArg Handle.table h.handle
  have hmac := mac_of_tagHolds huser hholds
  obtain ⟨inode, hinode⟩ : ∃ inode, t'.inodes.get k = some inode := by
    by_contra hnone
    have hnone : t'.inodes.get k = none := Option.eq_none_iff_forall_ne_some.2 fun inode hsome => hnone ⟨inode, hsome⟩
    unfold storedMeta at hmac
    rw [hnone] at hmac
    cases hmac
  rw [storedMeta_eq hinode] at hmac ⊢
  -- The tag was that of some a-node, which the message names.
  obtain ⟨table, j, inode₀, hinode₀, hmac₀⟩ := h.altered.tags t'.table k inode _ hinode hmac
  obtain ⟨seed, hverify⟩ := h.altered.verifies table
  obtain ⟨entry₀, inode₁, hentry₀, hinode₁, hmac₁⟩ := hverify j (.inr (by rw [hinode₀]; simp))
  obtain rfl := Option.some.inj (hinode₀.symm.trans hinode₁)
  have hbound := h.altered.bounded table j entry₀ hentry₀
  have hbound' := h.altered.bounded' t'.table k entry hentry
  obtain ⟨rfl, rfl, hbytes, hlist⟩ := absorbValue_inj (.of_lt hbound'.1) (.of_lt hbound.1)
    (.of_lt hbound'.2) (.of_lt hbound.2)
    (h.injective (Option.some.inj (hmac₀.symm.trans hmac₁)))
  obtain rfl := Entry.toBytes_inj hbound'.2 hbound.2 hbytes
  rw [htable] at hentry₀ hinode₀
  rw [storedMeta_eq hinode₀]
  exact ⟨hentry₀, Acl.encodeOption_inj hlist⟩

/-! ## Resolution -/

theorem authorizeStored_root (huser : t.principal = .user session) : t.authorizeStored .root = .ok () := by
  unfold authorizeStored
  rw [huser]
  exact authorize_root_user session _ _

/-- A table that does not exist resolves as an empty one. -/
theorem resolveStored_user (huser : t.principal = .user session) (path : APath) :
    t.resolveStored c path = t.walkEnforced c .root path.names := by
  unfold resolveStored
  split
  · rfl
  · rename_i hclosed
    have hnone : t.data.get .root = none := by
      rw [data_closed (by simpa using hclosed)]
      rfl
    unfold APath.isRoot
    cases path.names with
    | nil => rfl
    | cons name names =>
      rw [walkEnforced, authorizeStored_root huser, Except.ok_bind, hnone]
      rfl

theorem walk_of_walkEnforced {k j : AKey} {names : List Str} (h : t.walkEnforced c k names = .ok (some j)) :
    Layout.walk t.data.get k names = some j := by
  induction names generalizing k with
  | nil => exact Except.ok.inj h
  | cons name names ih =>
    rw [walkEnforced] at h
    obtain ⟨_, -, h⟩ := Except.bind_eq_ok.1 h
    rw [Layout.walk, Layout.childOf]
    split at h
    · cases h
    · rename_i entry hentry
      split at h
      · split at h
        · cases h
        · rename_i children
          rw [hentry]
          dsimp only
          split at h
          · rename_i child hchild
            rw [hchild]
            exact ih h
          · cases h
      · cases h

theorem AlteredFor.user' (h : AlteredFor c session t t') : t'.principal = .user session := by
  rw [show t'.principal = t.principal from congrArg Handle.principal h.handle, h.user]

/-- An access check on a genuine list is the one made before. -/
theorem AlteredFor.authorizeStored (h : AlteredFor c session t t') {k : AKey}
    (hlist : (t'.storedMeta k).1 = (t.storedMeta k).1) : t'.authorizeStored k = t.authorizeStored k := by
  unfold ReadTxn.authorizeStored
  rw [h.user', h.user, hlist]

variable [Externals] {T : FsTree}

/-- **The walk along a path is evident**: each directory it passes is genuine. -/
theorem AlteredFor.walkEnforced (h : AlteredFor c session t t') (hT : Stores t.data T) {above : List Str} {k : AKey}
    (hk : Layout.walk t.data.get .root above = some k) (names : List Str) :
    Evident (t.Lost t' (above ++ names)) none (t.walkEnforced c k names) (t'.walkEnforced c k names) := by
  induction names generalizing above k with
  | nil => exact .inl rfl
  | cons name names ih =>
    cases hauth : t'.authorizeStored k with
    | error err =>
      refine .inr (.inl ⟨err, ?_⟩)
      rw [ReadTxn.walkEnforced, hauth]
      rfl
    | ok passed =>
      cases hentry' : t'.data.get k with
      | none =>
        have hafter : t'.walkEnforced c k (name :: names) = .ok none := by
          rw [ReadTxn.walkEnforced, hauth, Except.ok_bind, hentry']
          rfl
        cases hentry : t.data.get k with
        | some entry =>
          refine .inr (.inr ⟨hafter, above, List.prefix_append _ _, k, hk, ?_, hentry'⟩)
          rw [hentry]
          exact Option.some_ne_none entry
        | none =>
          -- The table is empty and the walk has not left the root.
          obtain ⟨-, rfl⟩ := hT.root_of_absent hk hentry
          left
          rw [hafter, ReadTxn.walkEnforced, authorizeStored_root h.user, Except.ok_bind, hentry]
          rfl
      | some entry =>
        rw [ReadTxn.walkEnforced, ReadTxn.walkEnforced, hauth, Except.ok_bind, hentry']
        dsimp only
        by_cases hholds : t'.tagHolds c k entry (t'.storedMeta k) = true
        · obtain ⟨hentry, hlist⟩ := h.genuine hentry' hholds
          rw [if_pos hholds, ← h.authorizeStored hlist, hauth, Except.ok_bind, hentry]
          dsimp only
          rw [if_pos (h.holds hentry)]
          cases entry with
          | leaf blob => exact .inl rfl
          | branch children =>
            dsimp only
            cases hchild : children.get name with
            | none => exact .inl rfl
            | some child =>
              dsimp only
              have hnext : Layout.walk t.data.get .root (above ++ [name]) = some child := by
                rw [Layout.walk_append, hk, Option.bind_some, Layout.walk, Layout.childOf, hentry]
                dsimp only
                rw [hchild]
                rfl
              have hrest := ih hnext
              rw [List.append_assoc] at hrest
              exact hrest
        · refine .inr (.inl ⟨tampered t'.table, ?_⟩)
          rw [if_neg hholds]
          rfl

/-- **A read of an altered table is evident.** -/
theorem AlteredFor.read (h : AlteredFor c session t t') (hT : Stores t.data T) (path : APath) :
    Evident (t.Lost t' path.names) none ((t.source c).read path) ((t'.source c).read path) := by
  have henforced : t.enforced = true := by simp [ReadTxn.enforced, h.user]
  have henforced' : t'.enforced = true := by simp [ReadTxn.enforced, h.user']
  have hresolve : (t.source c).resolve path = t.walkEnforced c .root path.names := by
    change (if t.enforced then t.resolveStored c path else _) = _
    rw [if_pos henforced, resolveStored_user h.user]
  have hresolve' : (t'.source c).resolve path = t'.walkEnforced c .root path.names := by
    change (if t'.enforced then t'.resolveStored c path else _) = _
    rw [if_pos henforced', resolveStored_user h.user']
  have hroot : Layout.walk t.data.get .root [] = some .root := rfl
  have hwalk : Evident (t.Lost t' path.names) none (t.walkEnforced c .root path.names)
      (t'.walkEnforced c .root path.names) := h.walkEnforced hT hroot path.names
  unfold GrabSource.read
  rw [hresolve, hresolve']
  rcases hwalk with hsame | ⟨err, herr⟩ | ⟨hnone, hlost⟩
  · rw [hsame]
    cases hfound : t.walkEnforced c .root path.names with
    | error err => exact .inl rfl
    | ok found =>
      cases found with
      | none => exact .inl rfl
      | some k =>
        have hk := walk_of_walkEnforced hfound
        dsimp only [Except.ok_bind]
        rw [source_authorize, source_authorize]
        cases hauth : t'.authorizeStored k with
        | error err => exact .inr (.inl ⟨err, rfl⟩)
        | ok passed =>
          rw [Except.ok_bind, source_entryBlob, source_entryBlob]
          cases hentry' : t'.data.get k with
          | none =>
            cases hentry : t.data.get k with
            | some entry =>
              refine .inr (.inr ⟨rfl, path.names, List.prefix_rfl, k, hk, ?_, hentry'⟩)
              rw [hentry]
              exact Option.some_ne_none entry
            | none =>
              obtain ⟨-, rfl⟩ := hT.root_of_absent hk hentry
              left
              rw [authorizeStored_root h.user, Except.ok_bind]
          | some entry =>
            dsimp only
            by_cases hholds : t'.tagHolds c k entry (t'.storedMeta k) = true
            · obtain ⟨hentry, hlist⟩ := h.genuine hentry' hholds
              left
              rw [← h.authorizeStored hlist, hauth, Except.ok_bind, hentry]
              dsimp only
              rw [source_verify c henforced, source_verify c henforced', tagResult, tagResult, if_pos hholds,
                if_pos (h.holds hentry)]
            · refine .inr (.inl ⟨tampered t'.table, ?_⟩)
              rw [source_verify c henforced', tagResult, if_neg hholds]
              rfl
  · rw [herr]
    exact .inr (.inl ⟨err, rfl⟩)
  · rw [hnone]
    exact .inr (.inr ⟨rfl, hlost⟩)

/-- The snapshot after someone deleted the entry of an a-node. -/
def deleted (t : ReadTxn) (k : AKey) : ReadTxn :=
  let tables := t.db.tables.insert t.table (t.data.erase k)
  { t with db := { t.db with tables := tables } }

omit [Externals] in
theorem data_deleted (t : ReadTxn) (k : AKey) (table : Str) : ((t.deleted k).db.tx table).data =
    if table = t.table then t.data.erase k else (t.db.tx table).data := by
  change ((t.db.tables.insert t.table (t.data.erase k)).get table).getD .empty = _
  rw [SortedMap.get_insert]
  split <;> rfl

omit [Externals] in
theorem get_deleted_ne (t : ReadTxn) {j k : AKey} (h : j ≠ k) : (t.deleted k).data.get j = t.data.get j := by
  unfold ReadTxn.data
  rw [show (t.deleted k).table = t.table from rfl, data_deleted, if_pos rfl]
  exact SortedMap.get_erase_ne _ h

omit [Externals] in
/-- A deletion needs no key. -/
theorem altered_deleted {key : Bytes}
    (hverifies : ∀ table, ∃ seed, AllVerify ⟨table, c.toCrypto, key, seed⟩ (t.db.tx table))
    (hbounded : t.db.Bounded) (k : AKey) : Altered c.toCrypto key t.db (t.deleted k).db where
  verifies := hverifies
  bounded := hbounded
  bounded' table j entry hentry := by
    rw [data_deleted] at hentry
    split at hentry
    · rename_i htable
      subst htable
      by_cases hj : j = k
      · rw [hj, SortedMap.get_erase_self] at hentry
        cases hentry
      · rw [SortedMap.get_erase_ne _ hj] at hentry
        exact hbounded _ j entry hentry
    · exact hbounded table j entry hentry
  tags table j inode mac hinode hmac := ⟨table, j, inode, hinode, hmac⟩

omit [Externals] in
theorem walkEnforced_deleted {j k : AKey} {names : List Str} {blob : Bytes} (hfile : t.data.get k = some (.file blob))
    (h : t.walkEnforced c j names = .ok (some k)) : (t.deleted k).walkEnforced c j names = .ok (some k) := by
  induction names generalizing j with
  | nil => exact h
  | cons name names ih =>
    rw [walkEnforced] at h ⊢
    obtain ⟨passed, hauth, h⟩ := Except.bind_eq_ok.1 h
    rw [show (t.deleted k).authorizeStored j = t.authorizeStored j from rfl, hauth, Except.ok_bind]
    -- What the walk passes is a directory, and the file is none.
    have hne : j ≠ k := by
      rintro rfl
      rw [hfile] at h
      dsimp only at h
      split at h <;> cases h
    rw [get_deleted_ne t hne]
    cases hentry : t.data.get j with
    | none =>
      rw [hentry] at h
      cases h
    | some entry =>
      rw [hentry] at h
      dsimp only at h ⊢
      by_cases hholds : t.tagHolds c j entry (t.storedMeta j) = true
      · rw [if_pos hholds] at h
        rw [if_pos (show (t.deleted k).tagHolds c j entry ((t.deleted k).storedMeta j) = true from hholds)]
        cases entry with
        | leaf other => cases h
        | branch children =>
          dsimp only at h ⊢
          cases hchild : children.get name with
          | none =>
            rw [hchild] at h
            cases h
          | some child =>
            rw [hchild] at h
            exact ih h
      · rw [if_neg hholds] at h
        cases h

end ReadTxn

/-! ## A small database -/

/-- A user's handle on the table of the small run. -/
def smallHandle : Handle := ⟨countingEnv.table, .user ⟨5, [], [7], [8]⟩, []⟩

def smallScheme : TagScheme := ⟨(userEnv 5).crypto, fun _ _ _ => false⟩

/-- What the promotion of the small run leaves. -/
theorem Live.createThenStore_promoted : letI := Reference.externals
    ∃ l db master, empty.run (createThenStore true [.mark]) = some l ∧
      l.db.promoteToMaster smallScheme.toCrypto plainPrimitives [7] [8] plainWrapping ⟨"pw"⟩ [countingEnv.table] =
        .ok (db, master) ∧
      db.tables = SortedMap.empty.insert countingEnv.table (db.tx countingEnv.table).data ∧
      db.inodes = SortedMap.empty.insert countingEnv.table (db.tx countingEnv.table).inodes ∧
      ((db.tx countingEnv.table).inodes.entries.all fun r => ((db.tx countingEnv.table).data.get r.1).isSome) = true ∧
      ((db.tx countingEnv.table).data.entries.all fun r => decide (r.2.toBytes.length < 2 ^ 32)) = true ∧
      (ReadTxn.source smallScheme ⟨smallHandle, db, 0⟩).resolve (pathOf ["a"]) = .ok (some (countingEnv.gen 0)) ∧
      (ReadTxn.source smallScheme ⟨smallHandle, db, 0⟩).read (pathOf ["a"]) =
        .ok (some (.file (Codec.encode (.leaf (.bool true))))) := by
  let _ := Reference.externals
  exact ⟨_, _, _, rfl, rfl, rfl, rfl, rfl, rfl, rfl, rfl⟩

/-- Tampering with the promoted database without its key. -/
theorem Live.createThenStore_alteredFor : letI := Reference.externals
    ∃ l db master T, empty.run (createThenStore true [.mark]) = some l ∧
      l.db.promoteToMaster smallScheme.toCrypto plainPrimitives [7] [8] plainWrapping ⟨"pw"⟩ [countingEnv.table] =
        .ok (db, master) ∧
      Stores (db.tx countingEnv.table).data T ∧ ReadTxn.AlteredFor smallScheme ⟨5, [], [7], [8]⟩ ⟨smallHandle, db, 0⟩
        (ReadTxn.deleted ⟨smallHandle, db, 0⟩ (countingEnv.gen 0)) := by
  let _ := Reference.externals
  have _ := Reference.lawful
  obtain ⟨l, db, master, hrun, hpromote, htables, hinodes, hstored, hshort, -, -⟩ := createThenStore_promoted
  obtain ⟨l', hrun', hkeys, hdrawn, hfits, hsighted⟩ := createThenStore_sighted true
  obtain rfl := Option.some.inj (hrun.symm.trans hrun')
  obtain ⟨T, hT⟩ := (Sound.start.run hkeys hrun hdrawn hfits hsighted).exact
  obtain ⟨-, -, hdata, hsealed⟩ := Db.promoteToMaster_spec hpromote
  have hother : ∀ table, table ≠ countingEnv.table → (db.tx table).data = .empty ∧ (db.tx table).inodes = .empty := by
    intro table htable
    change (db.tables.get table).getD .empty = _ ∧ (db.inodes.get table).getD .empty = _
    rw [htables, hinodes, SortedMap.get_insert_ne _ _ htable, SortedMap.get_insert_ne _ _ htable]
    exact ⟨rfl, rfl⟩
  refine ⟨l, db, master, T countingEnv.table, hrun, hpromote, hdata countingEnv.table ▸ hT.stores countingEnv.table,
    ReadTxn.altered_deleted (fun table => ⟨[8], fun k hk => ?_⟩) (fun table k entry hentry => ?_) _,
    fun _ _ h => List.append_cancel_left h, rfl, rfl⟩
  · by_cases htable : table = countingEnv.table
    · subst htable
      obtain ⟨entry, hentry⟩ : ∃ entry, (db.tx countingEnv.table).data.get k = some entry := by
        rcases hk with hk | hk
        · exact Option.ne_none_iff_exists'.1 hk
        · obtain ⟨inode, hinode⟩ := Option.ne_none_iff_exists'.1 hk
          exact Option.isSome_iff_exists.1 (List.all_eq_true.1 hstored _ (SortedMap.get_iff_mem.1 hinode))
      obtain ⟨inode, hinode, hmac, -⟩ := hsealed _ List.mem_cons_self k entry hentry
      exact ⟨entry, inode, hentry, hinode, hmac⟩
    · obtain ⟨hdata, hinodes⟩ := hother table htable
      simp [hdata, hinodes] at hk
  · by_cases htable : table = countingEnv.table
    · subst htable
      exact ⟨by decide, of_decide_eq_true (List.all_eq_true.1 hshort _ (SortedMap.get_iff_mem.1 hentry))⟩
    · simp [(hother table htable).1] at hentry

end ArborDb
