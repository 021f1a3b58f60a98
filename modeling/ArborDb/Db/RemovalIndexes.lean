import ArborDb.Db.Removal
import ArborDb.Index.Agree

/-!
# Removing a user and the indexes

The sweep that removes a user deletes a-nodes without maintaining the indexes. The files that stay
keep their entries; the entries of the files that go stay too, and a unique one keeps its column
tuple taken. So the indexes still agree with the data exactly if nothing that is swept has an entry.
-/

namespace ArborDb

open Layout (Thins)

/-! ## The index table -/

theorem cascadeDelete_index (fuel : Nat) (k : AKey) : Prog.Keeps TxState.index (cascadeDelete fuel k) := by
  induction fuel generalizing k with
  | zero => exact .fail _
  | succ fuel ih =>
    refine .bind (.inspect _) fun children => ?_
    cases children with
    | none => exact .pure _
    | some children => exact .bind (.forEach ih children) fun _ _ _ => rfl

theorem editDir_index (k : AKey) (edit : SortedMap Str AKey → SortedMap Str AKey) :
    Prog.Keeps TxState.index (editDir k edit) := by
  refine .bind (fun _ _ => rfl) fun _ => .bind (.inspect _) fun children => .bind (.inspect _) fun buffering => ?_
  split
  · exact fun _ _ => rfl
  · intro e s
    change (if s.buffer.buffering then _ else _ : TxState).index = s.index
    split <;> rfl

/-- Reaping leaves the index table alone. -/
theorem reapOwned_index (uid : Id32) : Prog.Keeps TxState.index (reapOwned uid) := by
  refine .bind (.inspect _) fun victims => .forEach (fun victim => .bind (.inspect _) fun found => ?_) victims
  cases found with
  | none => exact .pure _
  | some c =>
    refine .bind (.bind (.inspect _) fun size => cascadeDelete_index _ c) fun _ => ?_
    exact editDir_index victim.1 _

theorem Db.reapAll_index {db db' : Db} {e : Env} {uid : Id32} {tables : List Str}
    (h : Db.reapAll e uid tables db = .ok db') : db'.index = db.index ∧ db'.registry = db.registry := by
  induction tables generalizing db with
  | nil =>
    cases h
    exact ⟨rfl, rfl⟩
  | cons table tables ih =>
    obtain ⟨mid, hmid, h⟩ := Except.bind_eq_ok.1 h
    obtain ⟨hindex, hregistry⟩ := ih h
    rw [hindex, hregistry]
    unfold Db.reapOwnedIn at hmid
    split at hmid
    · rename_i s hrun
      cases hmid
      have hkept := reapOwned_index uid (e.on table) (db.tx table)
      rw [hrun] at hkept
      exact ⟨hkept, rfl⟩
    · cases hmid

/-! ## What the entries name -/

section Entries

variable [Externals]

/-- Every index agrees with the data of its table. -/
def Db.IndexesAgree (db : Db) : Prop :=
  ∀ x ∈ db.registry.entries, Agrees (db.tx x.1).data db.index x.2

/-- No index entry names an a-node that is gone since `db`. -/
def Db.NamesNoneGone (db after : Db) : Prop :=
  ∀ x ∈ after.registry.entries, ∀ key value k, after.index.get key = some value → idPrefix x.2.id <+: key →
    entryEntity x.2 key value = .ok k → (db.tx x.1).data.get k ≠ none → (after.tx x.1).data.get k ≠ none

/-- Every matched file has its entry. -/
def Db.FilesIndexed (db : Db) : Prop :=
  ∀ x ∈ db.registry.entries, ∀ k kv, MatchedFile (db.tx x.1).data x.2 k →
    indexKey (db.tx x.1).data x.2.id x.2.definition k = .ok kv → db.index.get kv.1 = some kv.2

/-- A unique index lets a file be stored whose column tuple no matched a-node has. -/
def Db.FreesTuples (db : Db) : Prop :=
  ∀ x ∈ db.registry.entries, ∀ key value, x.2.definition.unique = true → idPrefix x.2.id <+: key →
    (∀ k v, Matched (db.tx x.1).data x.2 k → indexKey (db.tx x.1).data x.2.id x.2.definition k ≠ .ok (key, v)) →
    guardUnique db.index key value x.2.definition.name = .ok ()

/-- Nothing that is swept has an index entry. -/
def Db.SweepsNoneIndexed (db : Db) (uid : Id32) (listed : List Str) : Prop :=
  ∀ x ∈ db.registry.entries, x.1 ∈ listed → ∀ k kv, Matched (db.tx x.1).data x.2 k →
    indexKey (db.tx x.1).data x.2.id x.2.definition k = .ok kv → db.index.get kv.1 = some kv.2 →
    ¬ (db.tx x.1).Reaped uid k

variable {db after : Db} {e : Env} {uid : Id32} {listed : List Str}

omit [Externals] in
/-- What a sweep does to one table. -/
theorem Db.reapAll_thins (hnodup : listed.Nodup) (h : Db.reapAll e uid listed db = .ok after) (table : Str) :
    Thins (db.tx table).data.get (after.tx table).data.get ∧
      ∀ k, (db.tx table).data.get k ≠ none →
        ((after.tx table).data.get k = none ↔ table ∈ listed ∧ (db.tx table).Reaped uid k) := by
  obtain ⟨hin, hout⟩ := Db.reapAll_spec hnodup h table
  by_cases ht : table ∈ listed
  · exact ⟨(hin ht).thins, fun k hk => ((hin ht).gone_iff hk).trans ⟨fun h => ⟨ht, h⟩, And.right⟩⟩
  · rw [(hout ht).1]
    exact ⟨.refl _, fun k hk => ⟨fun h => absurd h hk, fun h => absurd h.1 ht⟩⟩

theorem Db.reapAll_indexes_iff (hnodup : listed.Nodup) (hagree : db.IndexesAgree)
    (h : Db.reapAll e uid listed db = .ok after) :
    db.NamesNoneGone after ∧ after.FilesIndexed ∧ after.FreesTuples ↔ db.SweepsNoneIndexed uid listed := by
  obtain ⟨hindex, hregistry⟩ := Db.reapAll_index h
  constructor
  · rintro ⟨hnames, -, -⟩ x hx ht k kv hmatched hkv hentry hreaped
    rw [← hregistry] at hx
    rw [← hindex] at hentry
    refine hnames x hx kv.1 kv.2 k hentry (idPrefix_indexKey hkv) (entryEntity_indexKey hkv) hmatched.1 ?_
    exact ((Db.reapAll_thins hnodup h x.1).2 k hmatched.1).2 ⟨ht, hreaped⟩
  · intro hspares
    -- An entry is of an a-node that stays, which is matched as before.
    have hstays : ∀ x ∈ after.registry.entries, ∀ key value, after.index.get key = some value →
        idPrefix x.2.id <+: key → ∃ k, entryEntity x.2 key value = .ok k ∧
          (after.tx x.1).data.get k ≠ none ∧ Matched (after.tx x.1).data x.2 k ∧
          indexKey (after.tx x.1).data x.2.id x.2.definition k = .ok (key, value) := by
      intro x hx key value hentry hprefix
      rw [hregistry] at hx
      rw [hindex] at hentry
      obtain ⟨hthins, hgone⟩ := Db.reapAll_thins hnodup h x.1
      obtain ⟨k, hmatched, hkey⟩ := (hagree x hx).only hentry hprefix
      have hkept : (after.tx x.1).data.get k ≠ none := by
        intro hnone
        obtain ⟨ht, hreaped⟩ := (hgone k hmatched.1).1 hnone
        exact hspares x hx ht k _ hmatched hkey hentry hreaped
      exact ⟨k, entryEntity_indexKey hkey, hkept, (matched_thinned hthins hkept).2 hmatched,
        (indexKey_thinned hthins hkept _ _).trans hkey⟩
    refine ⟨?_, ?_, ?_⟩
    · intro x hx key value k hentry hprefix hname _
      obtain ⟨k', hname', hkept, -⟩ := hstays x hx key value hentry hprefix
      cases hname.symm.trans hname'
      exact hkept
    · intro x hx k kv hmatched hkv
      obtain ⟨hthins, -⟩ := Db.reapAll_thins hnodup h x.1
      obtain ⟨hmatch, blob, hblob⟩ := hmatched
      rw [hregistry] at hx
      rw [hindex]
      refine (hagree x hx).has ⟨(matched_thinned hthins hmatch.1).1 hmatch, blob, hthins.leaf hblob⟩ ?_
      rw [← indexKey_thinned hthins hmatch.1]
      exact hkv
    · intro x hx key value _ hprefix hfree
      unfold guardUnique
      cases hentry : after.index.get key with
      | none => rfl
      | some existing =>
        obtain ⟨k, -, -, hmatched, hkey⟩ := hstays x hx key existing hentry hprefix
        exact absurd hkey (hfree k existing hmatched)

/-- **When removing a user keeps the indexes.** After a successful removal on a database whose
indexes agree with the data, no index entry names a deleted a-node, every remaining matched file has
its entry, and a column tuple that no matched a-node has is free again, exactly if no a-node that is
swept has an index entry. -/
theorem removeUser_indexes_iff (db₀ db after : Db) (e : Env) (p : Primitives) (name : Str) (before : Control)
    (user : UserRecord) (huser : before.loadUsers.named name = some user) (hagree : db.IndexesAgree)
    (hexec : (Admin.removeUser name before db₀.listTables).exec e p db = .ok after) :
    db.NamesNoneGone after ∧ after.FilesIndexed ∧ after.FreesTuples ↔
      db.SweepsNoneIndexed user.uid db₀.listTables := by
  obtain ⟨user', mid, control, huser', hreap, rfl⟩ := Admin.removeUser_ok hexec
  cases huser.symm.trans huser'
  have hindexes := Db.reapAll_indexes_iff db₀.nodup_listTables hagree hreap
  exact hindexes

end Entries

/-! ## A small database -/

section Small

/-- A unique index without columns on one path. -/
def pathIndex (pattern : String) : IndexDef := ⟨⟨"i"⟩, ⟨pattern⟩, [], true⟩

/-- The small database with a unique index on the shared file. -/
def indexedDb : Db :=
  letI := Reference.externals
  ((sharedDb.createIndex (userEnv 0) (pathIndex "a/b")).toOption).getD sharedDb

theorem indexedDb_agrees : @Db.IndexesAgree Reference.externals indexedDb := by
  let _ := Reference.externals
  have hregistry : indexedDb.registry.entries = [(⟨"t"⟩, ⟨0, pathIndex "a/b"⟩)] := by decide
  have hparse : Pattern.parse ⟨"a/b"⟩ = .ok ⟨[.lit ⟨"a"⟩, .lit ⟨"b"⟩]⟩ := by decide
  have hentities : Pattern.affectedEntities (indexedDb.tx ⟨"t"⟩).data ⟨[.lit ⟨"a"⟩, .lit ⟨"b"⟩]⟩ .root =
      [.ofNat 2] := by decide
  have hkey : indexKey (indexedDb.tx ⟨"t"⟩).data 0 (pathIndex "a/b") (.ofNat 2) =
      .ok (idPrefix 0, (AKey.ofNat 2).intoBytes) := by rfl
  have hindex : indexedDb.index.entries = [(idPrefix 0, (AKey.ofNat 2).intoBytes)] := by decide
  intro x hx
  rw [hregistry, List.mem_singleton] at hx
  subst hx
  constructor
  · rintro k kv ⟨⟨-, p, hp, hk⟩, -⟩ hkv
    cases hparse.symm.trans hp
    rw [hentities, List.mem_singleton] at hk
    subst hk
    cases hkey.symm.trans hkv
    exact SortedMap.get_iff_mem.2 (by rw [hindex]; exact List.mem_singleton.2 rfl)
  · intro key value hentry _
    have hmem := SortedMap.get_iff_mem.1 hentry
    rw [hindex, List.mem_singleton] at hmem
    cases hmem
    refine ⟨.ofNat 2, ⟨by decide, _, hparse, ?_⟩, hkey⟩
    rw [hentities]
    exact List.mem_singleton.2 rfl

/-- The store in which a user who owns nothing is looked up. -/
def otherControl : Control :=
  { Db.empty.control with users := some ⟨7, [⟨⟨"v"⟩, 6, false, [], none⟩]⟩ }

/-- Another user's removal sweeps nothing, and the index stays as it is. -/
theorem removeUser_indexes_iff_other : letI := Reference.externals
    ∃ after, (Admin.removeUser ⟨"v"⟩ otherControl indexedDb.listTables).exec (userEnv 0) plainPrimitives
        indexedDb = .ok after ∧
      (indexedDb.NamesNoneGone after ∧ after.FilesIndexed ∧ after.FreesTuples ↔
        indexedDb.SweepsNoneIndexed 6 indexedDb.listTables) := by
  let _ := Reference.externals
  refine ⟨_, rfl, ?_⟩
  exact removeUser_indexes_iff indexedDb indexedDb _ (userEnv 0) plainPrimitives ⟨"v"⟩ otherControl
    ⟨⟨"v"⟩, 6, false, [], none⟩ (by decide) indexedDb_agrees rfl

/-- The owner's removal deletes the file and leaves its entry, which rejects a new file at its place. -/
theorem removeUser_leaves_entry : letI := Reference.externals
    indexedDb.IndexesAgree ∧ ∃ after, (Admin.removeUser ⟨"u"⟩ ownerControl indexedDb.listTables).exec (userEnv 0)
        plainPrimitives indexedDb = .ok after ∧ ¬ indexedDb.NamesNoneGone after ∧
      guardUnique after.index (idPrefix 0) (AKey.ofNat 9).intoBytes ⟨"i"⟩ = .error (.uniqueViolation ⟨"i"⟩) := by
  let _ := Reference.externals
  refine ⟨indexedDb_agrees, _, rfl, ?_, by decide⟩
  intro hnames
  refine hnames (⟨"t"⟩, ⟨0, pathIndex "a/b"⟩) (by decide) (idPrefix 0) (AKey.ofNat 2).intoBytes (.ofNat 2)
    (by decide) ⟨[], List.append_nil _⟩ (by decide) (by decide) (by decide)

end Small

end ArborDb
