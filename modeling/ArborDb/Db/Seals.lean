import ArborDb.Db.Database
import ArborDb.Txn.Reap
import ArborDb.Txn.Seals

/-!
# Administration and the seals

An administrative call changes the permission store and, in two cases, the tables: removing a user
deletes what the user owns through the write context, which seals every directory it edits again,
while removing a group changes the lists of a-nodes whose tags bind them. Promotion seals the
tables that an earlier snapshot listed.
-/

namespace ArborDb

open Prog (Maintains)

/-- Every a-node of every user table is sealed. -/
def Db.Sealed (c : Crypto) (key seed : Bytes) (db : Db) : Prop :=
  ∀ table, AllSealed ⟨table, c, key, seed⟩ (db.tx table)

/-- No a-node of a user table has a list that names the group. -/
def Db.Unlisted (gid : Id32) (db : Db) : Prop :=
  ∀ table k entry acl, (db.tx table).data.get k = some entry →
    (db.tx table).inodes.readAcl k = some acl → acl.hasGroup gid = false

/-- The call removes no group that some list names. -/
def Admin.Spares (db : Db) : Admin → Prop
  | .removeGroup name =>
    ∀ group, db.control.loadGroups.named name = some group → db.Unlisted group.gid
  | _ => True

/-- No inode carries a keyed tag. -/
def Db.Untagged (db : Db) : Prop :=
  ∀ table k inode, (db.tx table).inodes.get k = some inode → inode.mac = none

/-! ## Tables of a database -/

section Tables

variable (db : Db) (s : TxState) {table t : Str}

theorem AllSealed.congr {v : Vault} {s s' : TxState} (h : AllSealed v s) (hdata : s'.data = s.data)
    (hinodes : s'.inodes = s.inodes) : AllSealed v s' := by
  intro k entry hentry
  rw [hdata] at hentry
  rw [hinodes]
  exact h k entry hentry

variable {db s} {c : Crypto} {key seed : Bytes}

/-- Replacing a table by a sealed one keeps the database sealed. -/
theorem Db.Sealed.put (h : db.Sealed c key seed) (hs : AllSealed ⟨table, c, key, seed⟩ s) :
    (db.put table s).Sealed c key seed := by
  intro t
  by_cases ht : t = table
  · subst ht
    exact hs.congr ((db.data_put _ _ s).trans (if_pos rfl)) ((db.inodes_put _ _ s).trans (if_pos rfl))
  · exact (h t).congr ((db.data_put _ _ s).trans (if_neg ht)) ((db.inodes_put _ _ s).trans (if_neg ht))

end Tables

/-! ## Removing a user -/

section Reap

variable {e : Env}

theorem Db.tx_idle (db : Db) (table : Str) : (db.tx table).buffer.Idle := by
  refine ⟨rfl, ?_⟩
  rintro k (h | h)
  · exact h rfl
  · exact h rfl

/-- Reaping keeps a sealed table sealed. -/
theorem AllSealed.reapOwned {v : Vault} (he : e.Authenticated v) {s : TxState} (h : AllSealed v s)
    (hidle : s.buffer.Idle) (uid : Id32) : AllSealed v ((reapOwned uid).run e s).2 := by
  have hbut : SealedBut v s.buffer.Holds s := fun k entry hentry _ => h k entry hentry
  have hafter := (sealedBut_guard he _).reapOwned uid s hbut (Nat.le_refl _)
  have hclean := @reapOwned_idle e _ uid s hidle (Nat.le_refl _)
  exact fun k entry hentry => hafter k entry hentry (hclean.2 k)

variable {c : Crypto} {key seed : Bytes}

/-- An authenticated environment stays so on every table. -/
theorem Env.authenticated_on {session : Session} (hcrypto : e.crypto = c)
    (hsession : e.principal = .user session) (hkey : session.key = key)
    (hseed : session.signSeed = seed) (table : Str) :
    (e.on table).Authenticated ⟨table, c, key, seed⟩ :=
  ⟨rfl, hcrypto, session, hsession, hkey, hseed⟩

theorem Db.Sealed.reapAll (he : ∀ table, (e.on table).Authenticated ⟨table, c, key, seed⟩)
    (uid : Id32) {listed : List Str} {db db' : Db} (h : db.Sealed c key seed)
    (hreap : Db.reapAll e uid listed db = .ok db') : db'.Sealed c key seed := by
  induction listed generalizing db with
  | nil =>
    cases hreap
    exact h
  | cons table listed ih =>
    obtain ⟨mid, hmid, hreap⟩ := Except.bind_eq_ok.1 hreap
    refine ih ?_ hreap
    unfold Db.reapOwnedIn at hmid
    have hreaped := (h table).reapOwned (he table) (db.tx_idle table) uid
    split at hmid
    · rename_i hrun
      cases hmid
      rw [hrun] at hreaped
      exact h.put hreaped
    · cases hmid

end Reap

/-! ## Removing a group -/

section Strip

variable {v : Vault} {inodes : InodeTable} {k : AKey} {entry : Entry} {gid : Id32}

theorem Acl.hasGroup_removeGroup (acl : Acl) (gid : Id32) : (acl.removeGroup gid).hasGroup gid = false := by
  simp [Acl.hasGroup, Acl.removeGroup, SortedMap.contains]

/-- Dropping a group from the lists spoils the seal of an a-node exactly if its list names it. -/
theorem sealed_strip_iff (hmac : Function.Injective (v.crypto.keyedHash v.key))
    (h : Sealed v inodes k entry) : Sealed v (inodes.mapValues (Db.stripInode gid)) k entry ↔
      ∀ acl, inodes.readAcl k = some acl → acl.hasGroup gid = false := by
  obtain ⟨inode, hget, htag, hsig⟩ := h
  have hafter : (inodes.mapValues (Db.stripInode gid)).get k = some (Db.stripInode gid inode) := by
    rw [SortedMap.get_mapValues, hget]
    rfl
  have hacl : inodes.readAcl k = inode.acl := by
    unfold InodeTable.readAcl
    rw [hget]
    rfl
  rw [hacl]
  constructor
  · rintro ⟨inode', hget', htag', _⟩ acl hsome
    cases hafter.symm.trans hget'
    by_contra hgroup
    rw [Bool.not_eq_false] at hgroup
    have hstrip : Db.stripInode gid inode = { inode with acl := some (acl.removeGroup gid) } := by
      simp [Db.stripInode, hsome, hgroup]
    rw [hstrip] at htag'
    rw [hsome] at htag
    have hhash := hmac (Option.some.inj (htag.symm.trans htag'))
    have hsame : some acl = some (acl.removeGroup gid) :=
      Acl.encodeOption_inj (absorbValue_acl_inj hhash)
    have hnone := acl.hasGroup_removeGroup gid
    rw [← Option.some.inj hsame, hgroup] at hnone
    cases hnone
  · intro hnone
    exact ⟨inode, by rw [hafter, Db.stripInode_eq hnone], htag, hsig⟩

variable {c : Crypto} {key seed : Bytes}

theorem Db.Sealed.stripGroup_iff {db : Db} (h : db.Sealed c key seed) (gid : Id32)
    (hmac : Function.Injective (c.keyedHash key)) : (db.stripGroup gid).Sealed c key seed ↔ db.Unlisted gid := by
  constructor
  · intro hafter table k entry acl hentry
    have hsealed := hafter table k entry hentry
    rw [Db.inodes_stripGroup] at hsealed
    exact (sealed_strip_iff hmac (h table k entry hentry)).1 hsealed acl
  · intro hunlisted table k entry hentry
    rw [Db.inodes_stripGroup]
    exact (sealed_strip_iff hmac (h table k entry hentry)).2 fun acl => hunlisted table k entry acl hentry

end Strip

/-! ## Promotion -/

section Promote

variable {c : Crypto} {key seed : Bytes} {table : Str}

theorem sealRow_get_ne {inodes : InodeTable} {row : AKey × Entry} {k : AKey} (h : k ≠ row.1) :
    (Db.sealRow c key seed table inodes row).get k = inodes.get k := by
  unfold Db.sealRow
  refine (SortedMap.get_insert_ne _ _ h).trans ((SortedMap.get_insert_ne _ _ h).trans ?_)
  split
  · rfl
  · unfold InodeTable.setDefaultAcl
    dsimp only
    split
    · rfl
    · exact SortedMap.get_insert_ne _ _ h

theorem sealed_sealRow (inodes : InodeTable) (row : AKey × Entry) :
    Sealed ⟨table, c, key, seed⟩ (Db.sealRow c key seed table inodes row) row.1 row.2 := by
  unfold Db.sealRow
  generalize (if row.1 = .root then inodes else inodes.setDefaultAcl row.1 masterUid) = stamped
  refine ⟨_, SortedMap.get_insert_self _ _ _, ?_, ?_⟩
  · simp only [InodeTable.sealMac, InodeTable.load, SortedMap.get_insert_self, Option.getD_some,
      InodeTable.readAcl]
    cases stamped.get row.1 <;> rfl
  · simp only [InodeTable.sealMac, InodeTable.load, SortedMap.get_insert_self, Option.getD_some,
      InodeTable.readAcl]
    cases stamped.get row.1 <;> rfl

/-- Sealing row by row seals the rows and spoils no seal. -/
theorem sealed_sealRows {data : SortedMap AKey Entry} {rows : List (AKey × Entry)}
    (hrows : ∀ row ∈ rows, data.get row.1 = some row.2) {inodes : InodeTable} {k : AKey}
    {entry : Entry} (hentry : data.get k = some entry)
    (h : (k, entry) ∈ rows ∨ Sealed ⟨table, c, key, seed⟩ inodes k entry) :
    Sealed ⟨table, c, key, seed⟩ (rows.foldl (Db.sealRow c key seed table) inodes) k entry := by
  induction rows generalizing inodes with
  | nil => exact h.resolve_left List.not_mem_nil
  | cons row rows ih =>
    refine ih (fun x hx => hrows x (List.mem_cons_of_mem row hx)) ?_
    by_cases hk : k = row.1
    · subst hk
      obtain rfl : entry = row.2 :=
        Option.some.inj (hentry.symm.trans (hrows row List.mem_cons_self))
      exact .inr (sealed_sealRow inodes row)
    · refine h.imp ?_ fun hs => hs.congr (sealRow_get_ne hk)
      intro hmem
      refine (List.mem_cons.1 hmem).resolve_left ?_
      rintro rfl
      exact hk rfl

/-- After its tables are sealed one by one, a listed table is sealed and any other is as before. -/
theorem sealTables_spec (listed : List Str) (db : Db) :
    let after := listed.foldl (fun db table => db.sealTable c key seed table) db
    ∀ table, (after.tx table).data = (db.tx table).data ∧
      (table ∈ listed ∨ AllSealed ⟨table, c, key, seed⟩ (db.tx table) →
        AllSealed ⟨table, c, key, seed⟩ (after.tx table)) ∧
      (table ∉ listed → (after.tx table).inodes = (db.tx table).inodes) := by
  induction listed generalizing db with
  | nil => exact fun table => ⟨rfl, fun h => h.resolve_left List.not_mem_nil, fun _ => rfl⟩
  | cons first listed ih =>
    intro after table
    have hrest := ih (db.sealTable c key seed first) table
    have hdata : ((db.sealTable c key seed first).tx table).data = (db.tx table).data := by
      refine (db.data_put _ _ _).trans ?_
      split
      · rename_i h
        rw [h]
      · rfl
    have hsealed : AllSealed ⟨first, c, key, seed⟩ ((db.sealTable c key seed first).tx first) := by
      intro k entry hentry
      have hfirst : ((db.sealTable c key seed first).tx first).data = (db.tx first).data :=
        (db.data_put _ _ _).trans (if_pos rfl)
      have hinodes : ((db.sealTable c key seed first).tx first).inodes =
          (db.tx first).data.entries.foldl (Db.sealRow c key seed first) (db.tx first).inodes :=
        (db.inodes_put _ _ _).trans (if_pos rfl)
      rw [hfirst] at hentry
      rw [hinodes]
      refine sealed_sealRows (fun row hrow => SortedMap.get_iff_mem.2 hrow) hentry ?_
      exact .inl (SortedMap.get_iff_mem.1 hentry)
    refine ⟨hrest.1.trans hdata, ?_, ?_⟩
    · intro h
      refine hrest.2.1 ?_
      by_cases ht : table = first
      · subst ht
        exact .inr hsealed
      · refine h.imp (fun hmem => (List.mem_cons.1 hmem).resolve_left ht) fun hall => ?_
        exact hall.congr hdata ((db.inodes_put _ _ _).trans (if_neg ht))
    · intro hnot
      rw [List.mem_cons, not_or] at hnot
      exact (hrest.2.2 hnot.2).trans ((db.inodes_put _ _ _).trans (if_neg hnot.1))

/-! ### Writers without a session -/

/-- The inodes of one table carry no keyed tag. -/
def Untagged (s : TxState) : Prop := ∀ k inode, s.inodes.get k = some inode → inode.mac = none

theorem untagged_insert {inodes : InodeTable} {k : AKey} {inode : Inode}
    (h : ∀ k inode, inodes.get k = some inode → inode.mac = none) (hinode : inode.mac = none) :
    ∀ j x, (SortedMap.insert inodes k inode).get j = some x → x.mac = none := by
  intro j x hx
  rw [SortedMap.get_insert] at hx
  split at hx
  · cases hx
    exact hinode
  · exact h j x hx

theorem untagged_erase {inodes : InodeTable} {k : AKey}
    (h : ∀ k inode, inodes.get k = some inode → inode.mac = none) :
    ∀ j x, (SortedMap.erase inodes k).get j = some x → x.mac = none := by
  intro j x hx
  rw [SortedMap.get_erase] at hx
  split at hx
  · cases hx
  · exact h j x hx

theorem untagged_load {inodes : InodeTable} (k : AKey)
    (h : ∀ k inode, inodes.get k = some inode → inode.mac = none) : (inodes.load k).mac = none := by
  unfold InodeTable.load
  cases hget : inodes.get k with
  | none => rfl
  | some inode => exact h k inode hget

variable {e : Env}

theorem Untagged.putEntry (he : e.principal = .unrestricted) {s : TxState} (h : Untagged s) (k : AKey)
    (entry : Entry) : Untagged (s.putEntry e k entry) := by
  change ∀ j x, (e.record s.inodes k entry).get j = some x → x.mac = none
  unfold Env.record
  cases e.build with
  | plain => exact h
  | timestamps => exact untagged_insert h (untagged_load k h)
  | permissions =>
    rw [he]
    exact untagged_insert h (untagged_load k h)

/-- A writer without a session leaves no tag. -/
theorem untagged_guard (he : e.principal = .unrestricted) (n : Nat) :
    Guard e n (fun _ => True) Untagged where
  read _ _ := trivial
  dirty _ _ := trivial
  fresh _ _ := trivial
  draw h := h
  unindexed _ _ h := h
  bump h := h
  putEntry {s k entry} _ h := h.putEntry he k entry
  removeEntry {s k} _ h := by
    change ∀ j x, (if e.build = .plain then s.inodes else s.inodes.forget k).get j = some x → _
    split
    · exact h
    · exact untagged_erase h
  filePut _ h := h
  dirPut _ h := h
  newDir {s k m} _ h := by
    change ∀ j x, (e.stampNewDirAcl s.inodes k).get j = some x → x.mac = none
    unfold Env.stampNewDirAcl
    rw [he]
    exact h
  relist {s k acl} _ h := by
    unfold TxState.relist Env.reseal
    rw [he]
    exact untagged_insert h (untagged_load k h)
  flushed {s} buffering h := by
    rw [TxState.flushed_eq]
    unfold TxState.putAll
    generalize s.buffer.pending = pending
    have hclear : Untagged
        { s with buffer := { s.buffer.clear with buffering := buffering } } := h
    generalize ({ s with buffer := { s.buffer.clear with buffering := buffering } } : TxState) = t
      at hclear
    induction pending generalizing t with
    | nil => exact hclear
    | cons x pending ih => exact ih _ (hclear.putEntry he x.1 x.2)

variable [Externals]

theorem Untagged.txn {txn : OpTxn} (he : txn.env.principal = .unrestricted) {s : TxState}
    (h : Untagged s) : Untagged (txn.run s) := by
  have hafter : Untagged (txn.after s txn.steps) := by
    unfold OpTxn.after
    have hbegin : Untagged (s.begin txn.buffering) := h
    generalize s.begin txn.buffering = s₀ at hbegin
    induction txn.steps generalizing s₀ with
    | nil => exact hbegin
    | cons step steps ih =>
      refine ih _ ?_
      exact (untagged_guard (e := { txn.env with now := step.now }) he _).op txn.names step.indexes
        step.op s₀ hbegin (Nat.le_refl _)
  exact (untagged_guard he _).flush _ hafter (Nat.le_refl _)

theorem Db.Untagged.writeAll {txns : List OpTxn} (he : ∀ txn ∈ txns, txn.env.principal = .unrestricted)
    {db : Db} (h : db.Untagged) : (db.writeAll txns).Untagged := by
  unfold Db.writeAll
  induction txns generalizing db with
  | nil => exact h
  | cons txn txns ih =>
    refine ih (fun x hx => he x (List.mem_cons_of_mem txn hx)) ?_
    intro table k inode hget
    unfold Db.write at hget
    rw [Db.inodes_put] at hget
    split at hget
    · exact ArborDb.Untagged.txn (he txn List.mem_cons_self) (h txn.env.table) k inode hget
    · exact h table k inode hget

omit [Externals] in
/-- Promotion seals every a-node exactly if each table that holds one was listed. -/
theorem Db.promote_seals_iff {p : Primitives} {w : Wrapping} {password : Str} {listed : List Str}
    {db db' : Db} {session : Session} (h : db.Untagged)
    (hrun : db.promoteToMaster c p key seed w password listed = .ok (db', session)) :
    db'.Sealed c key seed ↔
      ∀ table k entry, (db.tx table).data.get k = some entry → table ∈ listed := by
  unfold Db.promoteToMaster at hrun
  obtain ⟨entry, _, hrun⟩ := Except.bind_eq_ok.1 hrun
  obtain ⟨control, _, hrun⟩ := Except.bind_eq_ok.1 hrun
  cases hrun
  have hspec := @sealTables_spec c key seed listed { db with control := control }
  constructor
  · intro hsealed table k entry hentry
    by_contra hnot
    obtain ⟨hdata, _, hinodes⟩ := hspec table
    obtain ⟨inode, hget, hmac, _⟩ := hsealed table k entry (by rw [hdata]; exact hentry)
    rw [hinodes hnot] at hget
    rw [h table k inode hget] at hmac
    cases hmac
  · intro hlisted table k entry hentry
    obtain ⟨hdata, hseals, _⟩ := hspec table
    have hmem : table ∈ listed := by
      rw [hdata] at hentry
      exact hlisted table k entry hentry
    exact hseals (.inl hmem) k entry hentry

end Promote

/-! ## The calls -/

section Calls

variable {c : Crypto} {key seed : Bytes}

/-- A call of an administrator keeps the seals exactly if it removes no group that a list names. -/
theorem Admin.seals_iff (hmac : Function.Injective (c.keyedHash key)) {e : Env} {p : Primitives}
    {op : Admin} {db db' : Db} (he : ∀ table, (e.on table).Authenticated ⟨table, c, key, seed⟩)
    (h : db.Sealed c key seed) (hrun : op.exec e p db = .ok db') :
    db'.Sealed c key seed ↔ op.Spares db := by
  rcases Admin.exec_cases hrun with ⟨control, rfl, hop, hname⟩ | ⟨name, group, control, rfl, hgroup, rfl⟩ |
    ⟨name, before, listed, uid, control, mid, rfl, hreap, rfl⟩
  · cases op with
    | removeGroup name => exact absurd rfl (hname name)
    | removeUser name before listed => cases hop
    | _ => exact iff_of_true h trivial
  · have hsealed : Db.Sealed c key seed { db with control := control } := h
    have hstrip := hsealed.stripGroup_iff group.gid hmac
    refine hstrip.trans ⟨?_, fun hspares => hspares group hgroup⟩
    intro hunlisted other hother
    cases hgroup.symm.trans hother
    exact hunlisted
  · have hmid : mid.Sealed c key seed := h.reapAll he uid hreap
    exact iff_of_true hmid trivial

/-- **When administration keeps the seals.** A successful call of an administrator on a sealed
database leaves every remaining a-node sealed exactly if it removes no group that some list names.
Promotion, after any writers that hold no session have committed, seals every a-node exactly if each
table that then holds one was among the tables listed beforehand. -/
theorem administration_seals_iff [Externals] (hmac : Function.Injective (c.keyedHash key)) :
    (∀ (e : Env) (p : Primitives) (session : Session) (op : Admin) (db db' : Db),
      e.crypto = c → e.principal = .user session → session.key = key → session.signSeed = seed →
      db.Sealed c key seed → op.exec e p db = .ok db' →
        (db'.Sealed c key seed ↔ op.Spares db)) ∧
    ∀ (p : Primitives) (w : Wrapping) (password : Str) (listed : List Str) (db db' : Db)
      (txns : List OpTxn) (session : Session), db.Untagged →
      (∀ txn ∈ txns, txn.env.principal = .unrestricted) →
      (db.writeAll txns).promoteToMaster c p key seed w password listed = .ok (db', session) →
        (db'.Sealed c key seed ↔
          ∀ table k entry, ((db.writeAll txns).tx table).data.get k = some entry → table ∈ listed) := by
  constructor
  · intro e p session op db db' hcrypto hsession hkey hseed h hrun
    exact Admin.seals_iff hmac (Env.authenticated_on hcrypto hsession hkey hseed) h hrun
  · intro p w password listed db db' txns session h htxns hrun
    exact Db.promote_seals_iff (h.writeAll htxns) hrun

end Calls

/-! ## A small database -/

section Small

/-- A writer's transaction keeps a database sealed. -/
theorem Db.Sealed.write [Externals] {c : Crypto} {key seed : Bytes} {db : Db} {txn : OpTxn}
    (he : txn.env.Authenticated ⟨txn.env.table, c, key, seed⟩) (h : db.Sealed c key seed) :
    (db.write txn).Sealed c key seed := h.put ((h txn.env.table).txn he)

/-- Passwords that wrap nothing. -/
def plainPrimitives : Primitives := ⟨fun seed => seed, fun _ _ secret => .ok secret⟩

/-- A protected database with a group `g`, and a file shared with it. -/
def sharedDb : Db :=
  letI := Reference.externals
  let control := { Db.empty.control with
    groups := some ⟨10, [⟨masterGroup, masterGid⟩, ⟨superGroup, superGid⟩, ⟨⟨"g"⟩, 9⟩]⟩ }
  { Db.empty with control := control }.writeAll storeAndShare

theorem sharedDb_sealed : sharedDb.Sealed (userEnv 5).crypto [7] [8] := by
  let _ := Reference.externals
  have hempty : ∀ control, ({ Db.empty with control := control } : Db).Sealed (userEnv 5).crypto [7]
      [8] := fun _ _ _ _ h => by cases h
  exact ((hempty _).write (userEnv_authenticated 5)).write (userEnv_authenticated 5)

/-- An unprotected database's only writer, who stores a file. -/
def storeBeforePromotion : @OpTxn Reference.externals :=
  letI := Reference.externals
  ⟨{ userEnv 5 with principal := .unrestricted, writer := Principal.unrestricted_ne_guest, unprotected := fun _ => rfl },
    ⟨fun _ => none, fun _ => none⟩, true,
    [⟨0, [], .call (.store (pathOf ["a"]) [])⟩]⟩

/-- The removal of the user who owns the file. -/
def removeOwner : Admin :=
  .removeUser ⟨"u"⟩ { Db.empty.control with users := some ⟨6, [⟨⟨"u"⟩, 5, false, [], none⟩]⟩ } [⟨"t"⟩]

/-- Removing the owner leaves the root, sealed again. -/
theorem administration_seals_iff_remove : letI := Reference.externals
    ∃ after, removeOwner.exec (userEnv 0) plainPrimitives sharedDb = .ok after ∧
      (after.tx ⟨"t"⟩).data.get .root = some (.dir .empty) ∧
      after.Sealed (userEnv 5).crypto [7] [8] := by
  let _ := Reference.externals
  have hmac : Function.Injective ((userEnv 5).crypto.keyedHash [7]) := fun _ _ h => List.append_cancel_left h
  refine ⟨_, rfl, by decide, ?_⟩
  exact ((administration_seals_iff hmac).1 (userEnv 0) plainPrimitives _ removeOwner sharedDb _ rfl rfl
    rfl rfl sharedDb_sealed rfl).2 trivial

/-- A session of the master removes the group: the shared file keeps tags over the list that named
it. And a table written after the listing is promoted unsealed. -/
theorem administration_breaks_seals : letI := Reference.externals
    (sharedDb.Sealed (userEnv 5).crypto [7] [8] ∧
      ∃ after, (Admin.removeGroup ⟨"g"⟩).exec (userEnv 0) plainPrimitives sharedDb = .ok after ∧
        ¬ after.Sealed (userEnv 5).crypto [7] [8]) ∧
    ∀ w, ∃ after, (Db.empty.writeAll [storeBeforePromotion]).promoteToMaster (userEnv 5).crypto plainPrimitives
        [7] [8] w ⟨"pw"⟩ Db.empty.listTables = .ok after ∧
      ¬ after.1.Sealed (userEnv 5).crypto [7] [8] := by
  let _ := Reference.externals
  have hmac : Function.Injective ((userEnv 5).crypto.keyedHash [7]) := fun _ _ h => List.append_cancel_left h
  refine ⟨⟨sharedDb_sealed, _, rfl, ?_⟩, ?_⟩
  · intro hafter
    have hunlisted := (sharedDb_sealed.stripGroup_iff _ hmac).1 hafter
    have hgroup := hunlisted ⟨"t"⟩ (.ofNat 2) (.file []) _ (by decide) rfl
    revert hgroup
    decide
  · intro w
    obtain ⟨⟨after, session⟩, hrun⟩ : ∃ after, (Db.empty.writeAll [storeBeforePromotion]).promoteToMaster
        (userEnv 5).crypto plainPrimitives [7] [8] w ⟨"pw"⟩ Db.empty.listTables = .ok after := ⟨_, rfl⟩
    refine ⟨_, hrun, ?_⟩
    intro hafter
    have huntagged : (Db.empty.writeAll [storeBeforePromotion]).Untagged := by
      refine Db.Untagged.writeAll ?_ (fun _ _ _ h => by cases h)
      intro txn htxn
      cases List.mem_singleton.1 htxn
      rfl
    have hlisted := (Db.promote_seals_iff huntagged hrun).1 hafter ⟨"t"⟩ (.ofNat 1) (.file [])
      (by decide)
    cases hlisted

end Small

end ArborDb
