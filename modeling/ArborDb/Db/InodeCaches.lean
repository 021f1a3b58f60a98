import ArborDb.Db.PathCaches
import ArborDb.Db.Seals

/-!
# The inode and verification caches of a protected database

A protected transaction uses the lists and the tags of its own snapshot, and takes an entry for
verified only if the snapshot's tag holds over it, as long as equal generations mean equal data
tables and equal inodes. Removing a group changes the lists of the inodes that name it without
advancing the generation, and is the one operation that breaks this.
-/

namespace ArborDb

open Consult (Contract Sound Yields)

namespace ReadTxn

/-- The verdict of the tags that the snapshot stores. -/
def tagResult (c : TagScheme) (t : ReadTxn) (akey : AKey) (entry : Entry) : AdbResult Unit :=
  if t.tagHolds c akey entry (t.storedMeta akey) then .ok () else .error (tampered t.table)

/-- The resolution of a path in the snapshot, with every check. -/
def resolveStored (c : TagScheme) (t : ReadTxn) (path : APath) : AdbResult (Option AKey) :=
  if t.opens then t.walkEnforced c .root path.names
  else .ok (if path.isRoot then some .root else none)

end ReadTxn

/-- The result a call of a protected transaction has on the snapshot alone. -/
def ReadCall.onSnapshot (c : TagScheme) (t : ReadTxn) : ReadCall → AdbResult Answer
  | .resolve path => (t.resolveStored c path).map .key
  | .entryBlob akey => .ok (.entry (t.data.get akey))
  | .metaOf akey => .ok (.stored (t.storedMeta akey))
  | .authorize akey => (t.authorizeStored akey).map fun _ => .passed
  | .verify akey =>
    match t.data.get akey with
    | none => .ok .passed
    | some entry => (t.tagResult c akey entry).map fun _ => .passed

/-- The sessions of a handle hold the database's key. -/
def Handle.HoldsKey (key : Bytes) (handle : Handle) : Prop :=
  ∀ session, handle.principal = .user session → session.key = key

/-- The keyed tag an inode carries holds over the entry and the list. -/
def MacHolds (c : TagScheme) (key : Bytes) (table : Str) (akey : AKey) (entry : Entry) (m : Meta) : Prop :=
  m.2.1 = some (macValue c.toCrypto key table akey entry.toBytes ((m.1.map Acl.encode).getD []))

/-- The view is the data tables and the inodes. -/
def inodeMeaning (c : TagScheme) (key : Bytes) : Meaning (Str → SortedMap AKey Entry × InodeTable) where
  view db table := ((db.tx table).data, (db.tx table).inodes)
  admits := Handle.HoldsKey key
  path view table path akey := Layout.walk (view table).1.get .root path.names = some akey
  blob view table akey entry := (view table).1.get akey = some entry
  inode view table akey inode := (view table).2.get akey = some inode
  macVerified view table akey := ∃ entry inode, (view table).1.get akey = some entry ∧
    (view table).2.get akey = some inode ∧ MacHolds c key table akey entry (decodeMeta inode)
  enforcedPath t path akey := t.resolveStored c path = .ok (some akey)
  accessOk t akey := t.authorizeStored akey = .ok ()
  verified t akey := ∃ entry, t.data.get akey = some entry ∧ t.tagResult c akey entry = .ok ()
  answer t call result := t.enforced = true → result = call.onSnapshot c t

theorem inodeMeaning_readsData (c : TagScheme) (key : Bytes) : (inodeMeaning c key).ReadsData :=
  ⟨Iff.rfl, Iff.rfl⟩

namespace ReadTxn

variable {c : TagScheme} {key : Bytes} (t : ReadTxn)

theorem metaOf_yields (akey : AKey) :
    Yields ((inodeMeaning c key).contract t) (t.metaOf akey) (· = .ok (t.storedMeta akey)) := by
  refine Yields.ask trivial fun found hfound => ?_
  unfold storedMeta
  cases found with
  | some inode =>
    have hget : t.inodes.get akey = some inode := hfound inode rfl
    rw [hget]
    exact Yields.pure rfl
  | none =>
    cases hget : t.inodes.get akey with
    | some inode => exact Yields.ask hget fun _ _ => Yields.pure rfl
    | none => exact Yields.pure rfl

/-- The check of a tag, made on an entry and a list of the snapshot. -/
theorem checkTag_yields (hkey : t.toHandle.HoldsKey key) {akey : AKey} {entry : Entry}
    (hentry : t.data.get akey = some entry) :
    Yields ((inodeMeaning c key).contract t) (t.checkTag c akey entry (t.storedMeta akey))
      (· = t.tagResult c akey entry) := by
  unfold checkTag tagResult
  cases hprincipal : t.principal with
  | user session =>
    have hsession : session.key = key := hkey session hprincipal
    have hholds : t.tagHolds c akey entry (t.storedMeta akey) = true ↔
        MacHolds c key t.table akey entry (t.storedMeta akey) := by
      simp [tagHolds, hprincipal, hsession, MacHolds]
    refine Yields.ask trivial fun found hfound => ?_
    split
    · rename_i hmarked
      obtain ⟨entry', inode, hentry', hinode, hmac⟩ := hfound hmarked
      cases hentry.symm.trans hentry'
      have hstored : t.storedMeta akey = decodeMeta inode := by
        unfold storedMeta
        rw [show t.inodes.get akey = some inode from hinode]
        rfl
      rw [if_pos (hholds.2 (by rw [hstored]; exact hmac))]
      exact Yields.pure rfl
    · split
      · rename_i htag
        have hmac := hholds.1 htag
        cases hinode : t.inodes.get akey with
        | none =>
          rw [storedMeta, hinode] at hmac
          cases hmac
        | some inode =>
          have hstored : t.storedMeta akey = decodeMeta inode := by
            rw [storedMeta, hinode]
            rfl
          refine Yields.ask ⟨entry, inode, hentry, hinode, ?_⟩ fun _ _ => rfl
          rwa [hstored] at hmac
      · exact Yields.throw rfl
  | guest =>
    dsimp only
    split
    · exact Yields.pure rfl
    · exact Yields.throw rfl
  | unrestricted =>
    dsimp only
    split
    · exact Yields.pure rfl
    · exact Yields.throw rfl

theorem resolveEnforced_yields (hkey : t.toHandle.HoldsKey key) (akey : AKey) (names : List Str) :
    Yields ((inodeMeaning c key).contract t) (t.resolveEnforced c akey names)
      (· = t.walkEnforced c akey names) := by
  induction names generalizing akey with
  | nil => exact Yields.pure rfl
  | cons name names ih =>
    refine Yields.bind (t.metaOf_yields akey) ?_ nofun
    rintro _ ⟨⟩
    refine Yields.bind_eq (Yields.lift rfl) fun _ _ => ?_
    refine Yields.bind (t.blobAt_yields (inodeMeaning_readsData c key) akey) ?_ nofun
    rintro _ ⟨⟩
    cases hentry : t.data.get akey with
    | none => exact Yields.pure rfl
    | some entry =>
      refine Yields.bind (t.checkTag_yields hkey hentry) (fun _ hok => ?_) fun e herror => ?_
      · unfold tagResult at hok
        split at hok
        · rename_i htag
          dsimp only
          rw [if_pos htag]
          cases entry with
          | leaf blob => exact Yields.pure rfl
          | branch children =>
            dsimp only
            cases children.get name with
            | none => exact Yields.pure rfl
            | some child => exact ih child
        · cases hok
      · unfold tagResult at herror
        dsimp only
        split at herror
        · cases herror
        · rename_i htag
          rw [if_neg htag]
          cases herror
          rfl

theorem resolve_stored_yields (hkey : t.toHandle.HoldsKey key) (henforced : t.enforced = true)
    (path : APath) : Yields ((inodeMeaning c key).contract t) (t.resolve c path)
      (· = t.resolveStored c path) := by
  unfold resolve
  rw [if_pos henforced]
  refine Yields.ask trivial fun found hfound => ?_
  cases found with
  | some akey => exact Yields.pure (hfound akey rfl).symm
  | none =>
    unfold resolveStored
    dsimp only
    split
    · rename_i hopens
      refine Yields.bind (t.resolveEnforced_yields hkey .root path.names) (fun found hwalk => ?_)
        fun e herror => herror
      rw [← hwalk]
      cases found with
      | none => exact Yields.pure rfl
      | some akey =>
        refine Yields.ask ?_ fun _ _ => Yields.pure rfl
        change t.resolveStored c path = .ok (some akey)
        rw [resolveStored, if_pos hopens]
        exact hwalk.symm
    · exact Yields.pure rfl

theorem authorize_yields (henforced : t.enforced = true) (akey : AKey) :
    Yields ((inodeMeaning c key).contract t) (t.authorize akey) (· = t.authorizeStored akey) := by
  unfold authorize
  rw [if_pos henforced]
  refine Yields.ask trivial fun found hfound => ?_
  split
  · rename_i hmemo
    exact Yields.pure (hfound hmemo).symm
  · refine Yields.bind (t.metaOf_yields akey) ?_ nofun
    rintro _ ⟨⟩
    refine Yields.bind (Yields.lift rfl : Yields _ _ (· = t.authorizeStored akey)) (fun _ hok => ?_)
      fun _ herror => herror
    exact Yields.ask hok.symm fun _ _ => hok

theorem verify_yields (hkey : t.toHandle.HoldsKey key) (henforced : t.enforced = true) {akey : AKey}
    {entry : Entry} (hentry : t.data.get akey = some entry) :
    Yields ((inodeMeaning c key).contract t) (t.verify c akey entry) (· = t.tagResult c akey entry) := by
  unfold verify
  rw [if_pos henforced]
  refine Yields.ask trivial fun found hfound => ?_
  split
  · rename_i hmemo
    obtain ⟨entry', hentry', hverified⟩ := hfound hmemo
    cases hentry.symm.trans hentry'
    exact Yields.pure hverified.symm
  · refine Yields.bind (t.metaOf_yields akey) ?_ nofun
    rintro _ ⟨⟩
    refine Yields.bind (t.checkTag_yields hkey hentry) (fun _ hok => ?_) fun _ herror => herror
    exact Yields.ask ⟨entry, hentry, hok.symm⟩ fun _ _ => hok

end ReadTxn

/-- Every call keeps to the caches' contract, and a protected one answers from the snapshot. -/
theorem inodeMeaning_calls {c : TagScheme} {key : Bytes} (t : ReadTxn) (call : ReadCall)
    (hkey : t.toHandle.HoldsKey key) :
    Sound ((inodeMeaning c key).contract t) ((inodeMeaning c key).answer t call) (call.prog c t).run := by
  change Yields _ (call.prog c t) _
  cases call with
  | resolve path =>
    by_cases henforced : t.enforced = true
    · refine Yields.bind (t.resolve_stored_yields hkey henforced path) (fun _ hok => ?_) fun _ herror _ => ?_
      · refine Yields.pure fun _ => ?_
        rw [ReadCall.onSnapshot, ← hok]
        rfl
      · rw [ReadCall.onSnapshot, ← herror]
        rfl
    · have hunrestricted : t.principal = .unrestricted := by simpa [ReadTxn.enforced] using henforced
      refine Yields.bind (t.resolve_yields (inodeMeaning_readsData c key) c hunrestricted path)
        (fun _ _ => ?_) (by intro _ herror; cases herror)
      exact Yields.pure fun h => absurd h henforced
  | entryBlob akey =>
    refine Yields.bind (t.entryBlob_yields (inodeMeaning_readsData c key) akey) ?_ (by intro _ herror; cases herror)
    rintro _ ⟨⟩
    exact Yields.pure fun _ => rfl
  | metaOf akey =>
    refine Yields.bind (t.metaOf_yields akey) ?_ (by intro _ herror; cases herror)
    rintro _ ⟨⟩
    exact Yields.pure fun _ => rfl
  | authorize akey =>
    by_cases henforced : t.enforced = true
    · refine Yields.bind (t.authorize_yields henforced akey) (fun _ hok => ?_) fun _ herror _ => ?_
      · refine Yields.pure fun _ => ?_
        rw [ReadCall.onSnapshot, ← hok]
        rfl
      · rw [ReadCall.onSnapshot, ← herror]
        rfl
    · change Yields _ (t.authorize akey >>= _) _
      unfold ReadTxn.authorize
      rw [if_neg henforced]
      exact Yields.pure fun h => absurd h henforced
  | verify akey =>
    refine Yields.bind (t.entryBlob_yields (inodeMeaning_readsData c key) akey) ?_ (by intro _ herror; cases herror)
    rintro _ ⟨⟩
    cases hentry : t.data.get akey with
    | none =>
      refine Yields.pure fun _ => ?_
      rw [ReadCall.onSnapshot, hentry]
    | some entry =>
      by_cases henforced : t.enforced = true
      · refine Yields.bind (t.verify_yields hkey henforced hentry) (fun _ hok => ?_) fun _ herror _ => ?_
        · refine Yields.pure fun _ => ?_
          rw [ReadCall.onSnapshot, hentry]
          dsimp only
          rw [← hok]
          rfl
        · rw [ReadCall.onSnapshot, hentry]
          dsimp only
          rw [← herror]
          rfl
      · change Yields _ (t.verify c akey entry >>= _) _
        unfold ReadTxn.verify
        rw [if_neg henforced]
        exact Yields.pure fun h => absurd h henforced

/-! ## Runs -/

/-- No inode of a user table has a list that names the group. -/
def Db.NoneNames (gid : Id32) (db : Db) : Prop :=
  ∀ table k inode acl, (db.tx table).inodes.get k = some inode → inode.acl = some acl →
    acl.hasGroup gid = false

theorem Db.NoneNames.inodes_stripGroup {gid : Id32} {db : Db} (h : db.NoneNames gid) (table : Str) :
    ((db.stripGroup gid).tx table).inodes = (db.tx table).inodes := by
  rw [Db.inodes_stripGroup]
  refine SortedMap.ext fun k => ?_
  rw [SortedMap.get_mapValues]
  cases hget : (db.tx table).inodes.get k with
  | none => rfl
  | some inode => exact congrArg some (Db.stripInode_eq (h table k inode · hget))

/-- A removal of a group finds none of the inodes naming it. -/
def Event.SparesLists (s : Sys) : Event → Prop
  | .quiet (.admin _ _ (.removeGroup name)) =>
    ∀ group, s.db.control.loadGroups.named name = some group → s.db.NoneNames group.gid
  | _ => True

def Event.HoldsKey (key : Bytes) : Event → Prop
  | .lockRead _ handle => handle.HoldsKey key
  | _ => True

section Runs

variable [Externals]

/-- What commits without advancing the generation leaves the inodes alone too, unless it removes a
group that one of them names. -/
theorem Quiet.inodes_eq {s : Sys} {db' : Db} {op : Quiet} (hspares : (Event.quiet op).SparesLists s)
    (h : op.apply s.db = some db') (table : Str) :
    (db'.tx table).inodes = (s.db.tx table).inodes := by
  by_cases hgroup : ∃ e p name, op = .admin e p (.removeGroup name)
  · obtain ⟨e, p, name, rfl⟩ := hgroup
    rcases Admin.exec_cases (Except.toOption_eq_some.1 h) with ⟨_, _, _, hne⟩ |
      ⟨_, group, control, ⟨⟩, hgroup, rfl⟩ | ⟨_, _, _, _, _, _, ⟨⟩, _⟩
    · exact absurd rfl (hne name)
    · have hnone : Db.NoneNames group.gid { s.db with control := control } := hspares group hgroup
      exact hnone.inodes_stripGroup table
  · exact (op.tables_eq h table).2 fun e p name heq => hgroup ⟨e, p, name, heq⟩

theorem Sys.Along.and_mem {c : TagScheme} {s : Sys} {P : Sys → Event → Prop} {Q : Event → Prop}
    {events : List Event} (h : s.Along c P events) (hQ : ∀ event ∈ events, Q event) :
    s.Along c (fun s event => P s event ∧ Q event) events := by
  induction events generalizing s with
  | nil => trivial
  | cons event events ih =>
    refine ⟨⟨h.1, hQ event (List.mem_cons_self ..)⟩, fun mid hmid => ih (h.2 mid hmid) ?_⟩
    exact fun event' hmem => hQ event' (List.mem_cons_of_mem _ hmem)

/-- **When the inode and verification caches change no answer.** In every run of any threads from a
protected database that was just opened, in which no group is removed while some inode names it and
fewer than `2 ^ 64` commits advance the generation, a protected transaction answers as its own
snapshot does: it uses the lists and tags stored there, and passes an entry only if the stored tag
holds over it. -/
theorem protected_reads_agree (c : TagScheme) (key : Bytes) (db : Db) (events : List Event) (s : Sys)
    (hkey : ∀ event ∈ events, event.HoldsKey key)
    (hgroups : (Sys.opened db).Along c (fun s event => event.SparesLists s) events)
    (hbumps : (events.filter Event.bumps).length < 2 ^ 64) (hrun : (Sys.opened db).run c events = some s)
    (i n : Nat) (call : ReadCall) (result : AdbResult Answer)
    (hanswered : s.thread i = .answered n call result) :
    ∃ t memo, s.txns.get n = some (t, memo) ∧
      (t.enforced = true → result = call.onSnapshot c t) := by
  have halong : (Sys.opened db).Along c (·.Permits (inodeMeaning c key)) events := by
    refine Sys.Along.permits ?_ (hgroups.and_mem hkey) ?_
    · intro s event hevent hquiet
      cases event with
      | bump i => cases hquiet
      | lockRead i handle => exact hevent.2
      | quiet op =>
        intro db' h
        exact funext fun table => Prod.ext (op.tables_eq h table).1 (op.inodes_eq hevent.1 h table)
      | _ => trivial
    · change 0 + (events.filter Event.bumps).length < 2 ^ 64
      omega
  exact Sys.run_answers (fun t call hkey => inodeMeaning_calls t call hkey) (Sys.opened_coherent db) halong
    hrun hanswered

end Runs

/-! ## Small runs -/

section Small

/-- The table of the small database, opened by its user. -/
def userHandle : Handle := ⟨⟨"t"⟩, (userEnv 5).principal, []⟩

/-- A transaction verifies the shared file: it reads the entry and the inode, and remembers the mark. -/
def verifyShared (n : Nat) (k : Nat) : List Event :=
  openRead 0 n userHandle ++ callRead 0 n (.verify (.ofNat 2)) k

/-- The master removes the group that the shared file's list names. -/
def dropGroup : Event := .quiet (.admin (userEnv 0) plainPrimitives (.removeGroup ⟨"g"⟩))

/-- A reader that verified the shared file finds the database emptied by a writer. -/
theorem protected_reads_agree_emptied : letI := Reference.externals
    ∃ s, (Sys.opened sharedDb).run plainTags (verifyShared 0 9 ++ [.return 0] ++ commitRun 1 Db.empty ++
        verifyShared 1 1) = some s ∧
      ∃ result, s.thread 0 = .answered 1 (.verify (.ofNat 2)) result ∧
        ∃ t memo, s.txns.get 1 = some (t, memo) ∧
          (t.enforced = true → result = (ReadCall.verify (.ofNat 2)).onSnapshot plainTags t) := by
  let _ := Reference.externals
  have hkey : ∀ event ∈ verifyShared 0 9 ++ [.return 0] ++ commitRun 1 Db.empty ++ verifyShared 1 1,
      event.HoldsKey [7] := by
    have hhandle : userHandle.HoldsKey [7] := by
      rintro session ⟨⟩
      rfl
    simp [verifyShared, openRead, callRead, commitRun, Event.HoldsKey, hhandle]
  have hgroups : (Sys.opened sharedDb).Along plainTags (fun s event => event.SparesLists s)
      (verifyShared 0 9 ++ [.return 0] ++ commitRun 1 Db.empty ++ verifyShared 1 1) := by
    apply Sys.along_of_mem
    simp [verifyShared, openRead, callRead, commitRun, Event.SparesLists]
  refine ⟨_, rfl, _, rfl, ?_⟩
  exact protected_reads_agree plainTags [7] sharedDb
    (verifyShared 0 9 ++ [.return 0] ++ commitRun 1 Db.empty ++ verifyShared 1 1) _ hkey hgroups (by decide)
    rfl 0 1 _ _ rfl

/-- The reader's successors at the same generation still see the list as it was, and take the mark
for a tag that no longer holds. -/
theorem protected_reads_stale : letI := Reference.externals
    (∃ s m, (Sys.opened sharedDb).run plainTags (verifyShared 0 9 ++ [.return 0, dropGroup] ++
        openRead 0 1 userHandle ++ callRead 0 1 (.metaOf (.ofNat 2)) 1) = some s ∧
      s.thread 0 = .answered 1 (.metaOf (.ofNat 2)) (.ok (.stored m)) ∧
      ∃ t memo, s.txns.get 1 = some (t, memo) ∧ t.enforced = true ∧ m.1 ≠ (t.storedMeta (.ofNat 2)).1) ∧
    ∃ s, (Sys.opened sharedDb).run plainTags (verifyShared 0 9 ++ [.return 0, dropGroup] ++
        verifyShared 1 5) = some s ∧
      s.thread 0 = .answered 1 (.verify (.ofNat 2)) (.ok .passed) ∧
      ∃ t memo, s.txns.get 1 = some (t, memo) ∧ t.enforced = true ∧
        t.data.get (.ofNat 2) = some (.file []) ∧
        ¬ MacHolds plainTags [7] t.table (.ofNat 2) (.file []) (t.storedMeta (.ofNat 2)) := by
  let _ := Reference.externals
  refine ⟨⟨_, _, rfl, rfl, _, _, rfl, rfl, by decide⟩, _, rfl, rfl, _, _, rfl, rfl, by decide, ?_⟩
  unfold MacHolds
  decide

end Small

end ArborDb
