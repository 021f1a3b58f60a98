import ArborDb.Db.Coherence
import ArborDb.Txn.Bracket

/-!
# The path and blob caches never change an answer

On an unprotected handle a path resolves to what the walk of the snapshot finds, and an a-node's
entry is the snapshot's, whatever the caches held when the transaction began and whatever other
threads do to them meanwhile. What makes it so is that equal generations mean equal data tables,
which holds until the counter of generations comes round.
-/

namespace ArborDb

open Consult (Contract Sound Yields)

/-! ## Reads of entries -/

/-- Cached entries and paths tell what the data table holds. -/
structure Meaning.ReadsData {V : Type} (M : Meaning V) : Prop where
  blob : ∀ {t : ReadTxn} {akey entry}, M.blob (M.view t.db) t.table akey entry ↔ t.data.get akey = some entry
  path : ∀ {t : ReadTxn} {path akey}, M.path (M.view t.db) t.table path akey ↔ t.walk path = some akey

namespace ReadTxn

variable {V : Type} {M : Meaning V} (hM : M.ReadsData) (c : TagScheme) (t : ReadTxn)
include hM

theorem blobAt_yields (akey : AKey) :
    Yields (M.contract t) (t.blobAt akey) (· = .ok (t.data.get akey)) := by
  refine Yields.ask trivial fun found hfound => ?_
  cases found with
  | some entry => exact congrArg Except.ok (hM.blob.1 (hfound entry rfl)).symm
  | none =>
    cases hget : t.data.get akey with
    | some entry => exact Yields.ask (hM.blob.2 hget) fun _ _ => Yields.pure rfl
    | none => exact Yields.pure rfl

omit hM in
theorem data_of_not_opens (h : t.opens = false) : t.data = .empty := by
  unfold data Db.tx
  unfold opens SortedMap.contains at h
  cases hget : t.db.tables.get t.table with
  | none => rfl
  | some data => simp [hget] at h

theorem entryBlob_yields (akey : AKey) :
    Yields (M.contract t) (t.entryBlob akey) (· = .ok (t.data.get akey)) := by
  refine Yields.ask trivial fun found hfound => ?_
  cases found with
  | some entry => exact congrArg Except.ok (hM.blob.1 (hfound entry rfl)).symm
  | none =>
    dsimp only
    split
    · exact t.blobAt_yields hM akey
    · rename_i hopens
      rw [t.data_of_not_opens (by simpa using hopens)]
      exact Yields.pure rfl

theorem resolveWalk_yields (akey : AKey) (names : List Str) :
    Yields (M.contract t) (t.resolveWalk akey names) (· = .ok (Layout.walk t.data.get akey names)) := by
  induction names generalizing akey with
  | nil => exact Yields.pure rfl
  | cons name names ih =>
    refine Yields.bind (t.blobAt_yields hM akey) ?_ nofun
    rintro _ ⟨⟩
    rw [Layout.walk, Layout.childOf]
    cases t.data.get akey with
    | none => exact Yields.pure rfl
    | some entry =>
      cases entry with
      | leaf blob => exact Yields.pure rfl
      | branch children =>
        dsimp only
        cases hchild : children.get name with
        | none => exact Yields.pure rfl
        | some child => exact ih child

/-- On an unprotected handle a path resolves as the snapshot's walk does. -/
theorem resolve_yields (hunrestricted : t.principal = .unrestricted) (path : APath) :
    Yields (M.contract t) (t.resolve c path) (· = .ok (t.walk path)) := by
  unfold resolve
  rw [if_neg (by simp [enforced, hunrestricted])]
  refine Yields.ask trivial fun found hfound => ?_
  cases found with
  | some akey => exact congrArg Except.ok (hM.path.1 (hfound akey rfl)).symm
  | none =>
    dsimp only
    split
    · refine Yields.bind (t.resolveWalk_yields hM .root path.names) ?_ nofun
      rintro _ ⟨⟩
      cases hwalk : Layout.walk t.data.get .root path.names with
      | none => exact Yields.pure (congrArg Except.ok hwalk.symm)
      | some akey =>
        refine Yields.ask (hM.path.2 hwalk) fun _ _ => ?_
        exact Yields.pure (congrArg Except.ok hwalk.symm)
    · rename_i hopens
      unfold walk
      rw [t.data_of_not_opens (by simpa using hopens)]
      obtain ⟨names⟩ := path
      cases names with
      | nil => exact Yields.pure rfl
      | cons name names => exact Yields.pure rfl

end ReadTxn

/-! ## The meaning of the path and blob caches -/

/-- The result a call of an unprotected transaction has without any cache. -/
def ReadCall.Uncached (t : ReadTxn) (result : AdbResult Answer) : ReadCall → Prop
  | .resolve path => result = .ok (.key (t.walk path))
  | .entryBlob akey => result = .ok (.entry (t.data.get akey))
  | _ => True

/-- The view is the data tables; nothing is said of the caches that only protected reads use. -/
def pathMeaning : Meaning (Str → SortedMap AKey Entry) where
  view db table := (db.tx table).data
  admits _ := True
  path data table path akey := Layout.walk (data table).get .root path.names = some akey
  blob data table akey entry := (data table).get akey = some entry
  inode _ _ _ _ := True
  macVerified _ _ _ := True
  enforcedPath _ _ _ := True
  accessOk _ _ := True
  verified _ _ := True
  answer t call result := t.principal = .unrestricted → call.Uncached t result

theorem pathMeaning_readsData : pathMeaning.ReadsData := ⟨Iff.rfl, Iff.rfl⟩

namespace ReadTxn

variable (c : TagScheme) (t : ReadTxn)

/-! Protected reads fill the blob cache too. -/

theorem metaOf_keeps (akey : AKey) : Yields (pathMeaning.contract t) (t.metaOf akey) fun _ => True := by
  refine Yields.ask trivial fun found _ => ?_
  cases found with
  | some inode => exact Yields.pure trivial
  | none =>
    dsimp only
    split
    · exact Yields.ask trivial fun _ _ => Yields.pure trivial
    · exact Yields.pure trivial

theorem checkTag_keeps (akey : AKey) (entry : Entry) (m : Meta) :
    Yields (pathMeaning.contract t) (t.checkTag c akey entry m) fun _ => True := by
  unfold checkTag
  split
  · refine Yields.ask trivial fun found _ => ?_
    split
    · exact Yields.pure trivial
    · split
      · exact Yields.ask trivial fun _ _ => Yields.pure trivial
      · exact Yields.throw trivial
  · split
    · exact Yields.pure trivial
    · exact Yields.throw trivial

theorem resolveEnforced_keeps (akey : AKey) (names : List Str) :
    Yields (pathMeaning.contract t) (t.resolveEnforced c akey names) fun _ => True := by
  induction names generalizing akey with
  | nil => exact Yields.pure trivial
  | cons name names ih =>
    refine Yields.bind (t.metaOf_keeps akey) (fun m _ => ?_) fun _ _ => trivial
    refine Yields.bind (Yields.lift (R := fun _ => True) trivial) (fun _ _ => ?_) fun _ _ => trivial
    refine Yields.bind (t.blobAt_yields pathMeaning_readsData akey) (fun found _ => ?_) fun _ _ => trivial
    cases found with
    | none => exact Yields.pure trivial
    | some entry =>
      refine Yields.bind (t.checkTag_keeps c akey entry m) (fun _ _ => ?_) fun _ _ => trivial
      cases entry with
      | leaf blob => exact Yields.pure trivial
      | branch children =>
        dsimp only
        split
        · exact ih _
        · exact Yields.pure trivial

theorem resolve_keeps (path : APath) :
    Yields (pathMeaning.contract t) (t.resolve c path) fun _ => True := by
  by_cases hprincipal : t.principal = .unrestricted
  · exact (t.resolve_yields pathMeaning_readsData c hprincipal path).mono fun _ _ => trivial
  · unfold resolve
    rw [if_pos (by simp [enforced, hprincipal])]
    refine Yields.ask trivial fun found _ => ?_
    cases found with
    | some akey => exact Yields.pure trivial
    | none =>
      dsimp only
      split
      · refine Yields.bind (t.resolveEnforced_keeps c .root path.names) (fun found _ => ?_) fun _ _ => trivial
        cases found with
        | some akey => exact Yields.ask trivial fun _ _ => Yields.pure trivial
        | none => exact Yields.pure trivial
      · exact Yields.pure trivial

theorem authorize_keeps (akey : AKey) :
    Yields (pathMeaning.contract t) (t.authorize akey) fun _ => True := by
  unfold authorize
  split
  · refine Yields.ask trivial fun found _ => ?_
    split
    · exact Yields.pure trivial
    · refine Yields.bind (t.metaOf_keeps akey) (fun m _ => ?_) fun _ _ => trivial
      refine Yields.bind (Yields.lift (R := fun _ => True) trivial) (fun _ _ => ?_) fun _ _ => trivial
      exact Yields.ask trivial fun _ _ => Yields.pure trivial
  · exact Yields.pure trivial

theorem verify_keeps (akey : AKey) (entry : Entry) :
    Yields (pathMeaning.contract t) (t.verify c akey entry) fun _ => True := by
  unfold verify
  split
  · refine Yields.ask trivial fun found _ => ?_
    split
    · exact Yields.pure trivial
    · refine Yields.bind (t.metaOf_keeps akey) (fun m _ => ?_) fun _ _ => trivial
      refine Yields.bind (t.checkTag_keeps c akey entry m) (fun _ _ => ?_) fun _ _ => trivial
      exact Yields.ask trivial fun _ _ => Yields.pure trivial
  · exact Yields.pure trivial

end ReadTxn

/-- Every call keeps to the caches' contract and answers from the snapshot. -/
theorem pathMeaning_calls (c : TagScheme) (t : ReadTxn) (call : ReadCall) :
    Sound (pathMeaning.contract t) (pathMeaning.answer t call) (call.prog c t).run := by
  change Yields _ (call.prog c t) _
  cases call with
  | resolve path =>
    by_cases hprincipal : t.principal = .unrestricted
    · refine Yields.bind (t.resolve_yields pathMeaning_readsData c hprincipal path) ?_ nofun
      rintro _ ⟨⟩
      exact Yields.pure fun _ => rfl
    · refine Yields.bind (t.resolve_keeps c path) (fun _ _ => ?_) fun _ _ h => absurd h hprincipal
      exact Yields.pure fun h => absurd h hprincipal
  | entryBlob akey =>
    refine Yields.bind (t.entryBlob_yields pathMeaning_readsData akey) ?_ nofun
    rintro _ ⟨⟩
    exact Yields.pure fun _ => rfl
  | metaOf akey =>
    exact Yields.bind (t.metaOf_keeps akey) (fun _ _ => Yields.pure fun _ => trivial) fun _ _ _ => trivial
  | authorize akey =>
    exact Yields.bind (t.authorize_keeps akey) (fun _ _ => Yields.pure fun _ => trivial) fun _ _ _ => trivial
  | verify akey =>
    refine Yields.bind (t.entryBlob_yields pathMeaning_readsData akey) (fun found _ => ?_) fun _ _ _ => trivial
    cases found with
    | none => exact Yields.pure fun _ => trivial
    | some entry =>
      exact Yields.bind (t.verify_keeps c akey entry) (fun _ _ => Yields.pure fun _ => trivial)
        fun _ _ _ => trivial

/-! ## Runs -/

section Runs

variable [Externals]

/-- An index is back-filled from the data tables without changing them. -/
theorem Db.createIndex_tables {db db' : Db} {e : Env} {d : IndexDef} (h : db.createIndex e d = .ok db')
    (table : Str) : (db'.tx table).data = (db.tx table).data ∧
      (db'.tx table).inodes = (db.tx table).inodes := by
  unfold Db.createIndex at h
  obtain ⟨⟨registry, created⟩, _, h⟩ := Except.bind_eq_ok.1 h
  dsimp only at h
  split at h
  · split at h
    · cases h
      exact ⟨rfl, rfl⟩
    · rename_i entry _
      have hkept : ((backfill entry).run e (db.tx e.table)).2.data = (db.tx e.table).data ∧
          ((backfill entry).run e (db.tx e.table)).2.inodes = (db.tx e.table).inodes :=
        (insertEntries_keeps (I := fun s => s.data = (db.tx e.table).data ∧
          s.inodes = (db.tx e.table).inodes) fun _ _ hs => hs).reached ⟨rfl, rfl⟩ (Nat.le_refl _)
      split at h
      · rename_i hrun
        change (backfill entry).run e (db.tx e.table) = _ at hrun
        rw [hrun] at hkept
        cases h
        rw [Db.data_put, Db.inodes_put]
        by_cases ht : table = e.table
        · rw [if_pos ht, if_pos ht, ht]
          exact hkept
        · rw [if_neg ht, if_neg ht]
          exact ⟨rfl, rfl⟩
      · cases h
  · cases h
    exact ⟨rfl, rfl⟩

omit [Externals] in
theorem Db.deleteIndex_tables {db : Db} {table name : Str} {x : Db × Bool}
    (h : db.deleteIndex table name = .ok x) (t : Str) :
    (x.1.tx t).data = (db.tx t).data ∧ (x.1.tx t).inodes = (db.tx t).inodes := by
  unfold Db.deleteIndex at h
  obtain ⟨⟨registry, removed⟩, _, h⟩ := Except.bind_eq_ok.1 h
  cases removed with
  | none =>
    cases h
    exact ⟨rfl, rfl⟩
  | some entry =>
    cases h
    exact ⟨rfl, rfl⟩

/-- Indexing and administration leave the data tables alone, and the inodes unless a group is
removed. -/
theorem Quiet.tables_eq {db db' : Db} {op : Quiet} (h : op.apply db = some db') (table : Str) :
    (db'.tx table).data = (db.tx table).data ∧
      ((∀ e p name, op ≠ .admin e p (.removeGroup name)) →
        (db'.tx table).inodes = (db.tx table).inodes) := by
  cases op with
  | createIndex e d =>
    have hok : db.createIndex e d = .ok db' := Except.toOption_eq_some.1 h
    exact (Db.createIndex_tables hok table).imp_right fun h _ => h
  | deleteIndex t name =>
    obtain ⟨x, hx, rfl⟩ := Option.map_eq_some_iff.1 h
    exact (Db.deleteIndex_tables (Except.toOption_eq_some.1 hx) table).imp_right fun h _ => h
  | admin e p op =>
    simp only [Quiet.apply] at h
    split at h
    · cases h
    · rename_i hop
      rcases Admin.exec_cases (Except.toOption_eq_some.1 h) with ⟨control, rfl, _⟩ |
        ⟨name, group, control, rfl, _, rfl⟩ | ⟨_, _, _, _, _, _, rfl, _⟩
      · exact ⟨rfl, fun _ => rfl⟩
      · exact ⟨rfl, fun hne => absurd rfl (hne e p name)⟩
      · exact absurd rfl hop

namespace Sys

variable {V : Type} {M : Meaning V} {c : TagScheme} {s s' : Sys} {event : Event} {events : List Event}

/-- Only a bump advances the generation. -/
theorem step_generation (h : s.step c event = some s') :
    s'.generation = if event.bumps then s.generation + 1 else s.generation := by
  cases event with
  | access i =>
    simp only [step] at h
    split at h
    · obtain ⟨x, _, rfl⟩ := Option.map_eq_some_iff.1 h
      rfl
    · cases h
  | quiet op =>
    obtain ⟨db', _, rfl⟩ := Option.map_eq_some_iff.1 h
    rfl
  | evict table eviction =>
    cases h
    rfl
  | _ =>
    simp only [step] at h
    split at h <;> (try split at h) <;> cases h <;> rfl

/-- A run with too few bumps to come round uses no generation twice. -/
theorem Along.permits {P : Sys → Event → Prop}
    (hP : ∀ s event, P s event → event.bumps = false → s.Permits M event) (h : s.Along c P events)
    (hbound : s.generation.toNat + (events.filter Event.bumps).length < 2 ^ 64) :
    s.Along c (·.Permits M) events := by
  induction events generalizing s with
  | nil => trivial
  | cons event events ih =>
    rw [List.filter_cons] at hbound
    refine ⟨?_, fun mid hmid => ih (h.2 mid hmid) ?_⟩
    · cases hbumps : event.bumps with
      | false => exact hP s event h.1 hbumps
      | true =>
        rw [hbumps, if_pos rfl, List.length_cons] at hbound
        cases event <;> cases hbumps
        change s.generation.toNat + 1 < 2 ^ 64
        omega
    · rw [step_generation hmid]
      split
      · rename_i hbumps
        rw [if_pos hbumps, List.length_cons] at hbound
        rw [UInt64.toNat_add, Nat.mod_eq_of_lt]
        · change s.generation.toNat + 1 + _ < _
          omega
        · change s.generation.toNat + 1 < 2 ^ 64
          omega
      · rename_i hbumps
        rwa [if_neg hbumps] at hbound

theorem along_of_mem {P : Sys → Event → Prop} (s : Sys) (h : ∀ event ∈ events, ∀ s, P s event) :
    s.Along c P events := by
  induction events generalizing s with
  | nil => trivial
  | cons event events ih =>
    refine ⟨h event (List.mem_cons_self ..) s, fun mid _ => ih mid ?_⟩
    exact fun event' hmem => h event' (List.mem_cons_of_mem _ hmem)

end Sys

/-- **The path and blob caches never change an answer.** In every run of any threads from a database
that was just opened, as long as fewer than `2 ^ 64` commits advance the generation, an unprotected
transaction resolves a path as the walk of its own snapshot does and reads the entries of its own
snapshot. -/
theorem cached_reads_agree (c : TagScheme) (db : Db) (events : List Event) (s : Sys)
    (hbumps : (events.filter Event.bumps).length < 2 ^ 64) (hrun : (Sys.opened db).run c events = some s)
    (i n : Nat) (call : ReadCall) (result : AdbResult Answer)
    (hanswered : s.thread i = .answered n call result) :
    ∃ t memo, s.txns.get n = some (t, memo) ∧
      (t.principal = .unrestricted → call.Uncached t result) := by
  have halong : (Sys.opened db).Along c (·.Permits pathMeaning) events := by
    refine Sys.Along.permits (P := fun _ _ => True) ?_ (Sys.along_of_mem _ fun _ _ _ => trivial) ?_
    · intro s event _ hquiet
      cases event with
      | bump i => cases hquiet
      | quiet op => exact fun db' h => funext fun table => (op.tables_eq h table).1
      | _ => trivial
    · change 0 + (events.filter Event.bumps).length < 2 ^ 64
      omega
  exact Sys.run_answers (fun t call _ => pathMeaning_calls c t call) (Sys.opened_coherent db) halong hrun
    hanswered

end Runs

/-! ## Small runs -/

section Small

/-- Opening transaction `n` in thread `i`. -/
def openRead (i n : Nat) (handle : Handle) : List Event :=
  [.lockRead i handle, .beginRead i, .loadGeneration i, .unlockRead i n]

/-- A call with `k` accesses to the caches. -/
def callRead (i n : Nat) (call : ReadCall) (k : Nat) : List Event :=
  .call i n call :: (List.replicate k (.access i) ++ [.return i])

/-- A writer's commit. -/
def commitRun (i : Nat) (db : Db) : List Event := [.lockWrite i, .commit i db, .bump i, .unlockWrite i]

/-- The tags of the small runs. -/
def plainTags : TagScheme := ⟨(userEnv 5).crypto, fun _ message sig => sig = message⟩

def unprotectedHandle : Handle := ⟨⟨"t"⟩, .unrestricted, []⟩

/-- The root links `a` to the key with number `k`. -/
def linkedDb (k : Nat) : Db :=
  Db.empty.put ⟨"t"⟩ ⟨SortedMap.empty.insert .root (.dir (SortedMap.empty.insert ⟨"a"⟩ (.ofNat k))), .empty,
    .empty, .new false, 0⟩

/-- Resolves `a` in a fresh transaction, which fills the caches. -/
def firstResolve : List Event :=
  openRead 0 0 unprotectedHandle ++ callRead 0 0 (.resolve (pathOf ["a"])) 4

/-- A reader that resolved `a`, while a writer relinked it, resolves it again in its own snapshot. -/
theorem cached_reads_agree_relinked : letI := Reference.externals
    ∃ s, (Sys.opened (linkedDb 1)).run plainTags (firstResolve ++ [.return 0] ++ commitRun 1 (linkedDb 2) ++
        callRead 0 0 (.resolve (pathOf ["a"])) 1) = some s ∧
      ∃ result, s.thread 0 = .answered 0 (.resolve (pathOf ["a"])) result ∧
        ∃ t memo, s.txns.get 0 = some (t, memo) ∧
          (t.principal = .unrestricted → result = .ok (.key (t.walk (pathOf ["a"])))) := by
  let _ := Reference.externals
  refine ⟨_, rfl, _, rfl, ?_⟩
  exact cached_reads_agree plainTags (linkedDb 1) (firstResolve ++ [.return 0] ++ commitRun 1 (linkedDb 2) ++
    callRead 0 0 (.resolve (pathOf ["a"])) 1) _ (by decide) rfl 0 0 _ _ rfl

/-! ### A counter that came round -/

variable {c : TagScheme} {s : Sys} {db : Db}

theorem Sys.run_append [Externals] (s : Sys) (events events' : List Event) :
    s.run c (events ++ events') = (s.run c events).bind (·.run c events') := by
  induction events generalizing s with
  | nil => rfl
  | cons event events ih =>
    change (s.step c event).bind _ = ((s.step c event).bind _).bind _
    rw [Option.bind_assoc]
    exact congrArg _ (funext fun mid => ih mid)

/-- Nobody holds a lock where every thread is idle. -/
theorem Sys.unlocked (hidle : ∀ i, s.thread i = .idle) :
    s.readLocked = false ∧ s.writeLocked = false := by
  have hvalues : ∀ th ∈ s.threads.values, th = .idle := by
    intro th hth
    obtain ⟨⟨i, th'⟩, hmem, rfl⟩ := List.mem_map.1 hth
    have hthread := hidle i
    rwa [Sys.thread, SortedMap.get_iff_mem.2 hmem] at hthread
  constructor
  · exact List.any_eq_false.2 fun th hth => by simp [hvalues th hth, Thread.holdsRead]
  · exact List.any_eq_false.2 fun th hth => by simp [hvalues th hth, Thread.holdsWrite]

/-- A commit among idle threads replaces the state and advances the generation. -/
theorem Sys.run_commitRun [Externals] (hidle : ∀ i, s.thread i = .idle)
    (hone : s.threads.get 1 = some .idle) :
    s.run c (commitRun 1 db) = some { s with db := db, generation := s.generation + 1 } := by
  have hset : s.threads.insert 1 .idle = s.threads := by
    ext j
    rw [SortedMap.get_insert]
    split
    · rename_i hj
      rw [hj, hone]
    · rfl
  have hlock : s.step c (.lockWrite 1) = some (s.set 1 .writing) := by
    simp [Sys.step, hidle 1, Sys.unlocked hidle]
  change (s.step c (.lockWrite 1)).bind _ = _
  rw [hlock]
  simp only [Option.bind_some, Sys.run, Sys.step, Sys.set]
  simp [Sys.thread, SortedMap.insert_insert, hset]

theorem Sys.run_commitRuns [Externals] (hidle : ∀ i, s.thread i = .idle)
    (hone : s.threads.get 1 = some .idle) (n : Nat) :
    s.run c (List.replicate (n + 1) (commitRun 1 db)).flatten =
      some { s with db := db, generation := s.generation + UInt64.ofNat (n + 1) } := by
  induction n generalizing s with
  | zero => simpa using Sys.run_commitRun hidle hone
  | succ n ih =>
    rw [List.replicate_succ, List.flatten_cons, Sys.run_append, Sys.run_commitRun hidle hone]
    refine (ih (s := { s with db := db, generation := s.generation + 1 }) hidle hone).trans ?_
    congr 2
    rw [UInt64.ofNat_add (n + 1) 1, UInt64.add_assoc, UInt64.add_comm 1]
    rfl

/-- What the first reader leaves behind: `a` is cached at generation 0, and all threads are idle. -/
def staleSys : Sys :=
  letI := Reference.externals
  ((Sys.opened (linkedDb 1)).run plainTags
    (firstResolve ++ [.return 0, .lockWrite 1, .abort 1])).getD (.opened .empty)

theorem staleSys_idle (i : Nat) : staleSys.thread i = .idle := by
  rcases i with _ | _ | i <;> rfl

/-- Once the counter has come round, a reader at generation 0 finds the first reader's binding. -/
theorem stale_resolve (g : UInt64) (hg : g = 0) : letI := Reference.externals
    ∃ s, Sys.run plainTags { staleSys with db := linkedDb 2, generation := g }
        (openRead 0 1 unprotectedHandle ++ callRead 0 1 (.resolve (pathOf ["a"])) 1) = some s ∧
      s.thread 0 = .answered 1 (.resolve (pathOf ["a"])) (.ok (.key (some (.ofNat 1)))) ∧
      ∃ memo, s.txns.get 1 = some (⟨unprotectedHandle, linkedDb 2, g⟩, memo) := by
  subst hg
  exact ⟨_, rfl, rfl, _, rfl⟩

/-- `2 ^ 64` commits bring the counter round: `a` resolves to where a snapshot of long ago linked it. -/
theorem cached_read_stale : letI := Reference.externals
    ∃ events s, (Sys.opened (linkedDb 1)).run plainTags events = some s ∧
      s.thread 0 = .answered 1 (.resolve (pathOf ["a"])) (.ok (.key (some (.ofNat 1)))) ∧
      ∃ t memo, s.txns.get 1 = some (t, memo) ∧ t.principal = .unrestricted ∧
        t.walk (pathOf ["a"]) = some (.ofNat 2) := by
  let _ := Reference.externals
  have hfirst : (Sys.opened (linkedDb 1)).run plainTags
      (firstResolve ++ [.return 0, .lockWrite 1, .abort 1]) = some staleSys := rfl
  have hround : ∃ n, staleSys.generation + UInt64.ofNat (n + 1) = 0 :=
    ⟨2 ^ 64 - 1, by
      change UInt64.ofNat 0 + UInt64.ofNat (2 ^ 64) = UInt64.ofNat 0
      decide⟩
  obtain ⟨n, hn⟩ := hround
  obtain ⟨s, hlast, hanswered, memo, htxn⟩ := stale_resolve _ hn
  refine ⟨firstResolve ++ [.return 0, .lockWrite 1, .abort 1] ++
    ((List.replicate (n + 1) (commitRun 1 (linkedDb 2))).flatten ++
      (openRead 0 1 unprotectedHandle ++ callRead 0 1 (.resolve (pathOf ["a"])) 1)), s, ?_, hanswered,
    _, memo, htxn, rfl, rfl⟩
  rw [Sys.run_append, hfirst, Option.bind_some, Sys.run_append,
    Sys.run_commitRuns staleSys_idle rfl, Option.bind_some]
  exact hlast

end Small

end ArborDb
