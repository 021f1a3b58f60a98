import ArborDb.Db.Seals
import ArborDb.Txn.Reap

/-!
# Removing a user

The removal lists the user tables in one snapshot and sweeps them in a later one. What it deletes is
owned by the user or lies below a directory that is. It leaves nothing the user owns exactly if
every a-node the user owns by then lies in a table that was listed, where the root leads to it.
-/

namespace ArborDb

open Layout (Thins)

/-- The table `s₀` after what a user owns is reaped. -/
structure ReapedTable (e : Env) (uid : Id32) (s₀ s : TxState) : Prop where
  thins : Thins s₀.data.get s.data.get
  gone_iff : ∀ {x}, s₀.data.get x ≠ none → (s.data.get x = none ↔ s₀.Reaped uid x)
  acl : ∀ {x}, s.data.get x ≠ none → s.inodes.readAcl x = s₀.inodes.readAcl x ∨
    s₀.inodes.readAcl x = none ∧ s.inodes.readAcl x = e.ownAcl x

theorem ReapedTable.congr {e : Env} {uid : Id32} {s₀ s₁ s s' : TxState} (h : ReapedTable e uid s₁ s')
    (hdata₀ : s₀.data = s₁.data) (hinodes₀ : s₀.inodes = s₁.inodes) (hdata : s.data = s'.data)
    (hinodes : s.inodes = s'.inodes) : ReapedTable e uid s₀ s := by
  obtain ⟨_, _, _, _, _⟩ := s₀
  obtain ⟨_, _, _, _, _⟩ := s
  subst hdata₀ hinodes₀ hdata hinodes
  exact ⟨h.thins, h.gone_iff, h.acl⟩

section Reap

variable {db db' : Db} {e : Env} {uid : Id32}

theorem Db.reapOwnedIn_spec {table : Str} (h : db.reapOwnedIn e uid table = .ok db') :
    ∃ s, db' = db.put table s ∧ ReapedTable (e.on table) uid (db.tx table) s := by
  unfold Db.reapOwnedIn at h
  split at h
  · rename_i s hrun
    cases h
    refine ⟨s, rfl, ?_⟩
    have hspec := (reapOwned_spec (e := e.on table) uid (db.tx_idle table)).returned rfl (Nat.le_refl _)
      (a := ()) (by rw [hrun])
    rw [hrun] at hspec
    exact ⟨hspec.1.thins, fun hx => ⟨hspec.1.reaped hx, hspec.2 _⟩, hspec.1.acl⟩
  · cases h

/-- A sweep reaps the tables it is given and leaves the others alone. -/
theorem Db.reapAll_spec {tables : List Str} (hnodup : tables.Nodup) (h : Db.reapAll e uid tables db = .ok db')
    (table : Str) :
    (table ∈ tables → ReapedTable (e.on table) uid (db.tx table) (db'.tx table)) ∧
      (table ∉ tables → (db'.tx table).data = (db.tx table).data ∧
        (db'.tx table).inodes = (db.tx table).inodes) := by
  induction tables generalizing db with
  | nil =>
    cases h
    exact ⟨nofun, fun _ => ⟨rfl, rfl⟩⟩
  | cons first tables ih =>
    obtain ⟨mid, hmid, h⟩ := Except.bind_eq_ok.1 h
    obtain ⟨s, rfl, hreaped⟩ := Db.reapOwnedIn_spec hmid
    rw [List.nodup_cons] at hnodup
    have hrest := ih hnodup.2 h
    by_cases ht : table = first
    · subst ht
      refine ⟨fun _ => ?_, fun hnot => absurd (List.mem_cons_self ..) hnot⟩
      have hkept := hrest.2 hnodup.1
      rw [Db.data_put, Db.inodes_put, if_pos rfl, if_pos rfl] at hkept
      exact hreaped.congr rfl rfl hkept.1 hkept.2
    · rw [Db.data_put, Db.inodes_put, if_neg ht, if_neg ht] at hrest
      refine ⟨fun hmem => ?_, fun hnot => hrest.2 fun hmem => hnot (List.mem_cons_of_mem _ hmem)⟩
      refine (hrest.1 ((List.mem_cons.1 hmem).resolve_left ht)).congr ?_ ?_ rfl rfl
      · exact ((db.data_put _ _ s).trans (if_neg ht)).symm
      · exact ((db.inodes_put _ _ s).trans (if_neg ht)).symm

theorem Db.nodup_listTables (db : Db) : db.listTables.Nodup :=
  db.tables.sorted.imp fun h => ne_of_lt h

theorem Admin.removeUser_ok {p : Primitives} {name : Str} {before : Control} {listed : List Str}
    (h : (Admin.removeUser name before listed).exec e p db = .ok db') :
    ∃ user mid control, before.loadUsers.named name = some user ∧
      Db.reapAll e user.uid listed db = .ok mid ∧ db' = { mid with control := control } := by
  obtain ⟨session, _, h⟩ := Except.bind_eq_ok.1 h
  obtain ⟨user, huser, h⟩ := Except.bind_eq_ok.1 h
  unfold requireUser at huser
  split at huser
  · cases huser
    split at h
    · cases h
    · obtain ⟨mid, hmid, h⟩ := Except.bind_eq_ok.1 h
      cases h
      exact ⟨_, mid, _, ‹_›, hmid, rfl⟩
  · cases huser

end Reap

/-! ## What is left -/

/-- An a-node of a table is owned by a user. -/
def Db.Owns (db : Db) (uid : Id32) (table : Str) (k : AKey) : Prop :=
  (db.tx table).data.get k ≠ none ∧ (db.tx table).inodes.Owns uid k

/-- The a-nodes a user owns lie in the listed tables, below the root. -/
def Db.OwnsListed (db : Db) (uid : Id32) (listed : List Str) : Prop :=
  ∀ table k, db.Owns uid table k →
    table ∈ listed ∧ ∃ names ≠ [], Layout.walk (db.tx table).data.get .root names = some k

/-- If the administrator is the user, every a-node but the root has a list of its own already. -/
def Db.KeepsLists (db : Db) (e : Env) (uid : Id32) : Prop :=
  ∀ session, e.principal = .user session → session.uid = uid →
    ∀ table k, (db.tx table).data.get k ≠ none → k ≠ .root → (db.tx table).inodes.readAcl k ≠ none

section Left

variable {db db' : Db} {e : Env} {uid : Id32} {tables : List Str}

theorem Db.reapAll_leaves_iff (hnodup : tables.Nodup) (hlists : db.KeepsLists e uid)
    (h : Db.reapAll e uid tables db = .ok db') :
    (∀ table k, ¬ db'.Owns uid table k) ↔ db.OwnsListed uid tables := by
  constructor
  · intro hnone table k howns
    obtain ⟨hin, hout⟩ := Db.reapAll_spec hnodup h table
    have hlisted : table ∈ tables := by
      by_contra hnot
      obtain ⟨hdata, hinodes⟩ := hout hnot
      refine hnone table k ?_
      rw [Db.Owns, hdata, hinodes]
      exact howns
    have hgone : (db'.tx table).data.get k = none := by
      by_contra hstays
      refine hnone table k ⟨hstays, ?_⟩
      rcases (hin hlisted).acl hstays with hsame | ⟨hnoacl, -⟩
      · rw [InodeTable.Owns, hsame]
        exact howns.2
      · have hacl := howns.2
        rw [InodeTable.Owns, hnoacl] at hacl
        cases hacl
    obtain ⟨q, c, p, hq, hc, -, hp⟩ := ((hin hlisted).gone_iff howns.1).1 hgone
    refine ⟨hlisted, q ++ p, by simp [hq], ?_⟩
    rw [Layout.walk_append, hc]
    exact hp
  · intro hlisted table k howns
    obtain ⟨hin, hout⟩ := Db.reapAll_spec hnodup h table
    by_cases ht : table ∈ tables
    · have hreaped := hin ht
      have hstored : (db.tx table).data.get k ≠ none := fun hnone => howns.1 (hreaped.thins.absent hnone)
      rcases hreaped.acl howns.1 with hsame | ⟨hnoacl, hown⟩
      · have hbefore : (db.tx table).inodes.Owns uid k := by
          rw [InodeTable.Owns, ← hsame]
          exact howns.2
        obtain ⟨-, names, hnames, hwalk⟩ := hlisted table k ⟨hstored, hbefore⟩
        exact howns.1 ((hreaped.gone_iff hstored).2 ⟨names, k, [], hnames, hwalk, hbefore, rfl⟩)
      · have hacl := howns.2
        rw [InodeTable.Owns, hown] at hacl
        unfold Env.ownAcl at hacl
        split at hacl
        · rename_i session hsession
          split at hacl
          · cases hacl
          · rename_i hroot
            exact hlists session hsession (Option.some.inj hacl) table k hstored hroot hnoacl
        · cases hacl
    · obtain ⟨hdata, hinodes⟩ := hout ht
      rw [Db.Owns, hdata, hinodes] at howns
      exact ht (hlisted table k howns).1

/-- What a sweep deletes is owned, or lies below something owned. -/
theorem Db.reapAll_deletes (hnodup : tables.Nodup) (h : Db.reapAll e uid tables db = .ok db') {table : Str}
    {k : AKey} (hstored : (db.tx table).data.get k ≠ none) (hgone : (db'.tx table).data.get k = none) :
    ∃ owned names, (db.tx table).inodes.Owns uid owned ∧
      Layout.walk (db.tx table).data.get owned names = some k := by
  obtain ⟨hin, hout⟩ := Db.reapAll_spec hnodup h table
  by_cases ht : table ∈ tables
  · obtain ⟨q, c, p, -, -, howns, hp⟩ := ((hin ht).gone_iff hstored).1 hgone
    exact ⟨c, p, howns, hp⟩
  · rw [(hout ht).1] at hgone
    exact absurd hgone hstored

end Left

/-- **When removing a user leaves nothing orphaned.** The tables are listed, other users' write
transactions commit, and then the removal's own transaction begins. If it succeeds, what it commits
holds nothing the user owns exactly if each a-node that the user owns by then lies below the root of
a table that was listed; and whatever it deletes was owned by the user, or lay below something that
was. -/
theorem removeUser_leaves_iff [Externals] (db after : Db) (txns : List OpTxn) (e : Env) (p : Primitives)
    (name : Str) (before : Control) (user : UserRecord)
    (huser : before.loadUsers.named name = some user) (hlists : (db.writeAll txns).KeepsLists e user.uid)
    (hexec : (Admin.removeUser name before db.listTables).exec e p (db.writeAll txns) = .ok after) :
    ((∀ table k, ¬ after.Owns user.uid table k) ↔
      (db.writeAll txns).OwnsListed user.uid db.listTables) ∧
    ∀ table k, ((db.writeAll txns).tx table).data.get k ≠ none → (after.tx table).data.get k = none →
      ∃ owned names, ((db.writeAll txns).tx table).inodes.Owns user.uid owned ∧
        Layout.walk ((db.writeAll txns).tx table).data.get owned names = some k := by
  obtain ⟨user', mid, control, huser', hreap, rfl⟩ := Admin.removeUser_ok hexec
  cases huser.symm.trans huser'
  have hleaves := Db.reapAll_leaves_iff db.nodup_listTables hlists hreap
  exact ⟨hleaves, fun table k hstored hgone => Db.reapAll_deletes db.nodup_listTables hreap hstored hgone⟩

/-! ## A small database -/

section Small

/-- The store in which the owner of the shared file is looked up. -/
def ownerControl : Control :=
  { Db.empty.control with users := some ⟨6, [⟨⟨"u"⟩, 5, false, [], none⟩]⟩ }

/-- The owner stores a file in a table that did not exist. -/
def storeInNewTable : @OpTxn Reference.externals :=
  letI := Reference.externals
  ⟨(userEnv 5).on ⟨"n"⟩, ⟨fun _ => none, fun _ => none⟩, true, [⟨0, [], .call (.store (pathOf ["c"]) [])⟩]⟩

theorem userEnv_keepsLists (db : Db) : db.KeepsLists (userEnv 0) 5 := by
  rintro _ ⟨⟩ h
  exact absurd h (by decide)

/-- Removing the owner deletes the shared file and the directory it lies in. -/
theorem removeUser_leaves_iff_shared : letI := Reference.externals
    ∃ after, (Admin.removeUser ⟨"u"⟩ ownerControl sharedDb.listTables).exec (userEnv 0) plainPrimitives
        (sharedDb.writeAll []) = .ok after ∧ (after.tx ⟨"t"⟩).data.get (.ofNat 1) = none ∧
      ((∀ table k, ¬ after.Owns 5 table k) ↔ sharedDb.OwnsListed 5 sharedDb.listTables) := by
  let _ := Reference.externals
  refine ⟨_, rfl, by decide, ?_⟩
  exact (removeUser_leaves_iff sharedDb _ [] (userEnv 0) plainPrimitives ⟨"u"⟩ ownerControl
    ⟨⟨"u"⟩, 5, false, [], none⟩ (by decide) (userEnv_keepsLists _) rfl).1

/-- A table that the owner creates between the listing and the sweep is left to it. -/
theorem removeUser_misses_table : letI := Reference.externals
    ∃ after, (Admin.removeUser ⟨"u"⟩ ownerControl sharedDb.listTables).exec (userEnv 0) plainPrimitives
        (sharedDb.writeAll [storeInNewTable]) = .ok after ∧ ∃ k, after.Owns 5 ⟨"n"⟩ k := by
  let _ := Reference.externals
  refine ⟨_, rfl, .ofNat 3, ?_⟩
  unfold Db.Owns InodeTable.Owns
  decide

end Small

end ArborDb
