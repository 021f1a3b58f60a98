import ArborDb.Db.Database
import ArborDb.Txn.Indexed

/-!
# Indexes over whole runs

The threads of a process share the committed state, the engine's one write transaction, and a flag that
tells whether any index might exist. A mutation looks at the flag first and reads the registry only if it
is set. Creating an index commits and sets the flag afterwards. In between, a writer may find the flag
clear and leave the new index alone. As long as no mutation does, every index is exact for the tree of its
table, whatever the order of the steps (`Live.run_exact`), and the flag deceives only while a creation has
committed and not set it yet (`Live.blind_while_marking`).
-/

namespace ArborDb

open Prog (Keeps Triple)

/-! ## The process -/

/-- The engine's write transaction: begun, and then the transaction of a table built on it. -/
inductive Writer where
  | begun (e : Env)
  | running (e : Env) (s : TxState)

/-- What the threads of a process share. -/
structure Live where
  db : Db
  /-- Whether any index might exist. -/
  hasIndexes : Bool
  /-- The number of creations that have committed and not set the flag yet. -/
  marks : Nat
  writer : Option Writer

/-- A step of a thread. -/
inductive Act [Externals] where
  | begin (e : Env)
  | new
  | call (c : Call)
  | commit
  | drop
  | create (e : Env) (d : IndexDef)
  | ensure (e : Env) (d : IndexDef)
  | delete (table name : Str)
  | mark
  | reopen

namespace Live

/-- A new database. -/
def empty : Live := ⟨.empty, false, 0, none⟩

section Model

variable [Externals] (l : Live)

/-- The number of keys generated. -/
def drawn : Nat :=
  match l.writer with
  | some (.running _ s) => s.drawn
  | _ => l.db.drawn

/-- The write transaction is dropped. The keys it drew are not generated again. -/
def dropped (drawn : Nat) : Live := { l with db := { l.db with drawn := drawn }, writer := none }

/-- The indexes a mutation maintains. -/
def indexes (table : Str) : List IndexEntry :=
  if l.hasIndexes then l.db.registry.forTable table else []

/-- An index creation that committed has the flag to set. -/
def registered (result : AdbResult Db) : Live :=
  match result with
  | .ok db => { l with db := db, marks := l.marks + 1 }
  | .error _ => l

/-- A step. There is none where a thread has to wait, or there is nothing to do. A call that fails ends
its transaction, and what that did is dropped. -/
def step : Act → Option Live
  | .begin e => if l.writer.isSome then none else some { l with writer := some (.begun e) }
  | .new =>
    match l.writer with
    | some (.begun e) =>
      some { l with writer := some (.running e ((l.db.tx e.table).begin (!l.hasIndexes))) }
    | _ => none
  | .call c =>
    match l.writer with
    | some (.running e s) =>
      match (c.prog (l.indexes e.table)).run e s with
      | (.ok _, s') => some { l with writer := some (.running e s') }
      | (.error _, s') => some (l.dropped s'.drawn)
    | _ => none
  | .commit =>
    match l.writer with
    | some (.running e s) =>
      match ArborDb.commit.run e s with
      | (.ok _, s') => some { l with db := l.db.put e.table s', writer := none }
      | (.error _, s') => some (l.dropped s'.drawn)
    | _ => none
  | .drop => if l.writer.isSome then some (l.dropped l.drawn) else none
  | .create e d => if l.writer.isSome then none else some (l.registered (l.db.createIndex e d))
  | .ensure e d => if l.writer.isSome then none else some (l.registered (l.db.ensureIndex e d))
  | .delete table name =>
    if l.writer.isSome then none
    else match l.db.deleteIndex table name with
      | .ok (db, _) => some { l with db := db }
      | .error _ => some l
  | .mark => if l.marks = 0 then none else some { l with hasIndexes := true, marks := l.marks - 1 }
  -- Opening the database again sets the flag from the registry.
  | .reopen => some ⟨(l.dropped l.drawn).db, l.db.registry.any, 0, none⟩

/-- Steps one after the other. -/
def run : Live → List Act → Option Live
  | l, [] => some l
  | l, act :: acts => do
    let l ← l.step act
    run l acts

/-! ## What a run has to respect -/

/-- Whenever a run takes a step, the condition holds of the state and the step. -/
def Throughout (P : Live → Act → Prop) : Live → List Act → Prop
  | _, [] => True
  | l, act :: acts => P l act ∧ ∀ l', l.step act = some l' → Throughout P l' acts

/-- A mutation that finds the flag clear although its table has an index. -/
def Blind : Act → Prop
  | .call _ => ∃ e s, l.writer = some (.running e s) ∧ l.hasIndexes = false ∧ l.db.registry.forTable e.table ≠ []
  | _ => False

end Model

/-- What is asked of a step: the database is unprotected and has one source of keys, and a mutation fits
the tree that its transaction represents, in which no unique index confuses a file with a directory. -/
def Fitting [Externals] (gen : Nat → AKey) (n : Nat) (l : Live) : Act → Prop
  | .begin e => e.principal = .unrestricted ∧ e.gen = gen
  | .call c => ∀ e s T, l.writer = some (.running e s) → Represents e n s T →
    c.Fits s T ∧ ∀ x ∈ l.db.registry.forTable e.table, x.Apart T
  | _ => True

/-! ## What a step can do -/

section Steps

variable [Externals]

/-- What a step leads to. -/
inductive Step (l : Live) : Act → Live → Prop
  | begun {e : Env} (h : l.writer = none) : Step l (.begin e) { l with writer := some (.begun e) }
  | built {e : Env} (h : l.writer = some (.begun e)) :
    Step l .new { l with writer := some (.running e ((l.db.tx e.table).begin (!l.hasIndexes))) }
  | called {c : Call} {e : Env} {s s' : TxState} (h : l.writer = some (.running e s))
    (hrun : (c.prog (l.indexes e.table)).run e s = (.ok (), s')) :
    Step l (.call c) { l with writer := some (.running e s') }
  | failed {act : Act} {d : Nat} (h : l.drawn ≤ d) : Step l act (l.dropped d)
  | committed {e : Env} {s s' : TxState} (h : l.writer = some (.running e s))
    (hrun : ArborDb.commit.run e s = (.ok (), s')) :
    Step l .commit { l with db := l.db.put e.table s', writer := none }
  | created {e : Env} {d : IndexDef} {db : Db} (h : l.writer = none) (hcreate : l.db.createIndex e d = .ok db) :
    Step l (.create e d) { l with db := db, marks := l.marks + 1 }
  | ensured {e : Env} {d : IndexDef} {db : Db} (h : l.writer = none) (hensure : l.db.ensureIndex e d = .ok db) :
    Step l (.ensure e d) { l with db := db, marks := l.marks + 1 }
  | deleted {table name : Str} {db : Db} {found : Bool} (h : l.writer = none)
    (hdelete : l.db.deleteIndex table name = .ok (db, found)) : Step l (.delete table name) { l with db := db }
  | refused {act : Act} : Step l act l
  | marked : Step l .mark { l with hasIndexes := true, marks := l.marks - 1 }
  | reopened : Step l .reopen ⟨(l.dropped l.drawn).db, l.db.registry.any, 0, none⟩

/-- A program of the transaction that fails drops the transaction, with the keys that it drew. -/
theorem Step.failed_of_run {l : Live} {act : Act} {e : Env} {s s' : TxState} {α : Type} {m : TxM α} {err : AdbError}
    (hw : l.writer = some (.running e s)) (hrun : m.run e s = (.error err, s')) : l.Step act (l.dropped s'.drawn) := by
  have hle := m.drawn_le e s
  rw [hrun] at hle
  refine .failed ?_
  unfold drawn
  rw [hw]
  exact hle

theorem step_cases {l l' : Live} {act : Act} (h : l.step act = some l') : l.Step act l' := by
  have hnone : ∀ {next}, (if l.writer.isSome then none else some next) = some l' →
      l.writer = none ∧ next = l' := by
    intro next hnext
    cases hw : l.writer with
    | none =>
      rw [hw] at hnext
      exact ⟨rfl, Option.some.inj hnext⟩
    | some writer =>
      rw [hw] at hnext
      cases hnext
  cases act with
  | «begin» e =>
    obtain ⟨hw, rfl⟩ := hnone h
    exact .begun hw
  | new =>
    rw [step] at h
    split at h
    · rename_i e hw
      cases h
      exact .built hw
    · cases h
  | call c =>
    rw [step] at h
    split at h
    · rename_i e s hw
      split at h
      · rename_i s' hrun
        cases h
        exact .called hw hrun
      · rename_i err s' hrun
        cases h
        exact .failed_of_run hw hrun
    · cases h
  | commit =>
    rw [step] at h
    split at h
    · rename_i e s hw
      split at h
      · rename_i s' hrun
        cases h
        exact .committed hw hrun
      · rename_i err s' hrun
        cases h
        exact .failed_of_run hw hrun
    · cases h
  | drop =>
    rw [step] at h
    split at h
    · cases h
      exact .failed le_rfl
    · cases h
  | create e d =>
    obtain ⟨hw, rfl⟩ := hnone h
    unfold registered
    split
    · exact .created hw ‹_›
    · exact .refused
  | ensure e d =>
    obtain ⟨hw, rfl⟩ := hnone h
    unfold registered
    split
    · exact .ensured hw ‹_›
    · exact .refused
  | delete table name =>
    rw [step] at h
    split at h
    · cases h
    · rename_i hw
      have hw : l.writer = none := Option.not_isSome_iff_eq_none.1 hw
      split at h
      · cases h
        exact .deleted hw ‹_›
      · cases h
        exact .refused
  | mark =>
    rw [step] at h
    split at h
    · cases h
    · cases h
      exact .marked
  | reopen =>
    cases h
    exact .reopened

end Steps

/-! ## The flag -/

section Flag

variable [Externals] {l l' : Live} {act : Act} {acts : List Act}

/-- The flag is set, or a creation has yet to set it, or there is no index. -/
def Flagged (l : Live) : Prop := l.hasIndexes = true ∨ 0 < l.marks ∨ l.db.registry.entries = []

theorem Flagged.step (h : l.Flagged) (hstep : l.Step act l') : l'.Flagged := by
  cases hstep with
  | begun => exact h
  | built => exact h
  | called => exact h
  | failed => exact h
  | committed => exact h
  | created => exact .inr (.inl (Nat.succ_pos _))
  | ensured => exact .inr (.inl (Nat.succ_pos _))
  | deleted _ hdelete =>
    refine h.imp_right (Or.imp_right fun hempty => ?_)
    obtain ⟨⟨registry, removed⟩, hregistry, hdelete⟩ := Except.bind_eq_ok.1 hdelete
    have hentries : registry.entries = [] := by
      rcases Registry.delete_cases hregistry with ⟨-, -, rfl⟩ | ⟨entry, -, -, rfl⟩
      · exact hempty
      · simp [hempty]
    cases removed <;> cases hdelete <;> exact hentries
  | refused => exact h
  | marked => exact .inl rfl
  | reopened =>
    cases hentries : l.db.registry.entries with
    | nil => exact .inr (.inr hentries)
    | cons x entries =>
      refine .inl ?_
      rw [Registry.any, hentries]
      rfl

/-- A property that every step keeps holds after every run. -/
theorem run_keeps {I : Live → Prop} (hstep : ∀ {l act l'}, I l → Step l act l' → I l') (h : I l)
    (hrun : l.run acts = some l') : I l' := by
  induction acts generalizing l with
  | nil =>
    cases hrun
    exact h
  | cons act acts ih =>
    obtain ⟨mid, hmid, hrun⟩ := Option.bind_eq_some_iff.1 hrun
    exact ih (hstep h (step_cases hmid)) hrun

/-- **When the flag deceives.** In whatever order the threads take their steps, a clear flag means that no
index is registered, unless a creation has committed and not set the flag yet; and a mutation leaves an
index of its table alone only then. -/
theorem blind_while_marking (hrun : empty.run acts = some l) :
    (l.hasIndexes = false → l.marks = 0 → l.db.registry.entries = []) ∧
    ∀ act, l.Blind act → l.hasIndexes = false ∧ 0 < l.marks := by
  have hflagged : l.Flagged := run_keeps (I := Flagged) Flagged.step (.inr (.inr rfl)) hrun
  constructor
  · intro hclear hmarks
    rcases hflagged with hset | hpos | hempty
    · rw [hclear] at hset
      cases hset
    · omega
    · exact hempty
  · intro act hblind
    cases act with
    | call c =>
      obtain ⟨e, s, -, hclear, hindexed⟩ := hblind
      refine ⟨hclear, ?_⟩
      rcases hflagged with hset | hpos | hempty
      · rw [hclear] at hset
        cases hset
      · exact hpos
      · refine absurd ?_ hindexed
        rw [Registry.forTable, hempty]
        rfl
    | _ => exact hblind.elim

end Flag

end Live

/-! ## Databases with exact indexes -/

section Exact

variable [Externals]

/-- Each table holds a tree, in which the keys up to the `n`-th are still unused; every index is exact for
the tree of its table; and the blocks of the ids to come are empty. -/
structure Db.Exact (gen : Nat → AKey) (n : Nat) (db : Db) (T : Str → FsTree) : Prop where
  stores : ∀ table, Stores (db.tx table).data (T table)
  unused : ∀ table i, db.drawn ≤ i → i < n → (db.tx table).data.get (gen i) = none
  registry : db.registry.Valid
  exact : ∀ x ∈ db.registry.entries, x.2.Exact (T x.1) db.index
  spare : ∀ id, db.registry.nextId ≤ id → ∀ key, idPrefix id <+: key → db.index.get key = none

variable {gen : Nat → AKey} {n : Nat} {db db' : Db} {T : Str → FsTree} {T' : FsTree} {e : Env} {s s' : TxState}
  {d : IndexDef} {table name : Str} {found : Bool} {index : SortedMap Bytes Bytes} {x : IndexEntry}

theorem IndexEntry.Exact.congr (h : x.Exact T' index) {index' : SortedMap Bytes Bytes}
    (hsame : ∀ key, x.Owns key → index'.get key = index.get key) : x.Exact T' index' := by
  refine Derived.Tracks.foreign h ?_ hsame
  rintro r ⟨p, k, v, -, -, rfl⟩
  exact x.owns_rowOf _

theorem Db.Exact.empty : Db.empty.Exact gen n fun _ _ => none where
  stores _ := ⟨Layout.holds_empty, fun h => by cases h⟩
  unused _ _ _ _ := rfl
  registry := .empty
  exact := List.forall_mem_nil _
  spare _ _ _ _ := rfl

namespace Db.Exact

variable (h : db.Exact gen n T)

include h

/-- Keys that were drawn for nothing do not matter. -/
theorem skip {drawn : Nat} (hle : db.drawn ≤ drawn) : Db.Exact gen n { db with drawn := drawn } T where
  stores := h.stores
  unused table i hi hn := h.unused table i (hle.trans hi) hn
  registry := h.registry
  exact := h.exact
  spare := h.spare

/-- A transaction that begins represents the tree of its table. -/
theorem represents (hp : e.principal = .unrestricted) (hgen : e.gen = gen) (buffering : Bool) :
    Represents e n ((db.tx table).begin buffering) (T table) := by
  refine represents_table hp (h.stores table).holds (h.stores table).valid ?_ _ _ _
  rw [hgen]
  exact h.unused table

/-- The database after a transaction that keeps the indexes of its table. -/
theorem put (hgen : e.gen = gen) (hle : db.drawn ≤ s.drawn) (hT : Represents e n (s.begin false) T')
    (hkept : Maintained (db.registry.forTable table) T' db.index s.index) :
    (db.put table s).Exact gen n (Function.update T table T') where
  stores t := by
    rw [Db.data_put]
    by_cases ht : t = table
    · rw [if_pos ht, ht, Function.update_self]
      exact hT.stores rfl
    · rw [if_neg ht, Function.update_of_ne ht]
      exact h.stores t
  unused t i hi hn := by
    rw [Db.data_put]
    by_cases ht : t = table
    · rw [if_pos ht]
      obtain ⟨⟨v, hs, -⟩, -⟩ := hT
      have hview := hs.data_get (hs.coherent.off rfl) (gen i)
      have hfree := hs.fresh i hi hn
      rw [hgen] at hfree
      exact hview.trans hfree
    · rw [if_neg ht]
      exact h.unused t i (hle.trans hi) hn
  registry := h.registry
  exact := by
    rintro ⟨t, x⟩ hx
    by_cases ht : t = table
    · subst ht
      rw [Function.update_self]
      exact hkept.exact x (Registry.mem_forTable.2 hx)
    · rw [Function.update_of_ne ht]
      refine (h.exact _ hx).congr fun key hkey => hkept.others key fun y hy hother => ht ?_
      -- Two indexes of two tables have different blocks.
      have hsame := List.inj_on_of_nodup_map h.registry.ids hx (Registry.mem_forTable.1 hy) (idPrefix_inj hkey hother)
      exact (Prod.mk.inj hsame).1
  spare id hid key hkey := by
    change s.index.get key = none
    rw [hkept.others key, h.spare id hid key hkey]
    intro y hy hother
    have hlt := h.registry.below _ (Registry.mem_forTable.1 hy)
    rw [idPrefix_inj hother hkey] at hlt
    exact absurd hid (not_le_of_gt hlt)

/-- Another registry, and another index table that differs in the blocks of new ids alone. -/
theorem register {db' : Db} (hdata : ∀ table, (db'.tx table).data = (db.tx table).data) (hdrawn : db'.drawn = db.drawn)
    (hvalid : db'.registry.Valid) (hnext : db.registry.nextId ≤ db'.registry.nextId)
    (hold : ∀ x ∈ db'.registry.entries, x ∈ db.registry.entries ∨ x.2.Exact (T x.1) db'.index)
    (hindex : ∀ key, (∃ x ∈ db'.registry.entries, x ∈ db.registry.entries ∧ x.2.Owns key) ∨
      (∃ id, db'.registry.nextId ≤ id ∧ idPrefix id <+: key) → db'.index.get key = db.index.get key) :
    db'.Exact gen n T where
  stores table := by
    rw [hdata]
    exact h.stores table
  unused table i hi hn := by
    rw [hdata]
    exact h.unused table i (hdrawn ▸ hi) hn
  registry := hvalid
  exact x hx := by
    rcases hold x hx with hmem | hexact
    · exact (h.exact x hmem).congr fun key hkey => hindex key (.inl ⟨x, hx, hmem, hkey⟩)
    · exact hexact
  spare id hid key hkey := by
    rw [hindex key (.inr ⟨id, hid, hkey⟩)]
    exact h.spare id (hnext.trans hid) key hkey

theorem deleteIndex (hrun : db.deleteIndex table name = .ok (db', found)) : db'.Exact gen n T := by
  obtain ⟨⟨registry, removed⟩, hregistry, hrun⟩ := Except.bind_eq_ok.1 hrun
  have hvalid := h.registry.delete hregistry
  rcases Registry.delete_cases hregistry with ⟨rfl, -, rfl⟩ | ⟨entry, rfl, hlookup, rfl⟩
  · cases hrun
    exact h
  · cases hrun
    have hmem : ∀ x ∈ db.registry.entries.eraseP (Registry.isNamed table name), x ∈ db.registry.entries :=
      fun x hx => List.eraseP_subset hx
    refine h.register (fun _ => rfl) rfl hvalid le_rfl (fun x hx => .inl (hmem x hx)) ?_
    intro key hkey
    obtain ⟨hentry, hname⟩ := Registry.lookup_eq_some hlookup
    change (deleteAll db.index entry).get key = _
    rw [get_deleteAll, if_neg]
    intro hown
    rcases hkey with ⟨x, hx, -, hblock⟩ | ⟨id, hid, hblock⟩
    · -- What is left has another id than what was removed.
      obtain rfl : x = (table, entry) :=
        List.inj_on_of_nodup_map h.registry.ids (hmem x hx) hentry (idPrefix_inj hblock hown)
      exact h.registry.not_named hx (by rw [hname])
    · have hlt := h.registry.below _ hentry
      rw [idPrefix_inj hown hblock] at hlt
      exact absurd hid (not_le_of_gt hlt)

variable [LawfulExternals]

theorem createIndex (hrun : db.createIndex e d = .ok db') : db'.Exact gen n T := by
  obtain ⟨⟨registry, created⟩, hregistry, hrun⟩ := Except.bind_eq_ok.1 hrun
  have hvalid := h.registry.create hregistry
  rcases Registry.create_cases hregistry with ⟨rfl, rfl, -⟩ | ⟨rfl, -, hnext, hentries⟩
  · cases hrun
    exact h
  · simp only [reduceIte, Registry.lookup_created hregistry] at hrun
    split at hrun
    · rename_i s hbackfill
      cases hrun
      let x : IndexEntry := ⟨db.registry.nextId, d⟩
      have hrun : (backfill x).run e (db.tx e.table) = (.ok (), s) := hbackfill
      have hspec := (backfill_exact (e := e) (x := x) (h.stores e.table) (h.spare _ le_rfl)).returned
        (a := ()) rfl (n := s.drawn) (by rw [hrun]; rfl) (by rw [hrun])
      rw [hrun] at hspec
      obtain ⟨hframe, hexact, hothers⟩ := hspec
      have hs : s = { db.tx e.table with index := s.index } := hframe
      have hdata : s.data = (db.tx e.table).data := by rw [hs]
      have hdrawn : s.drawn = db.drawn := by
        rw [hs]
        rfl
      refine h.register ?_ hdrawn hvalid ?_ ?_ ?_
      · intro t
        rw [Db.data_put, hdata]
        split
        · rename_i ht
          rw [ht]
        · rfl
      · rw [Fin.le_def]
        exact hnext ▸ Nat.le_succ _
      · intro y hy
        rcases List.mem_append.1 (hentries ▸ hy) with hy | hy
        · exact .inl hy
        · rw [List.mem_singleton.1 hy]
          exact .inr hexact
      · intro key hkey
        refine hothers key fun hown => ?_
        rcases hkey with ⟨y, -, hy, hblock⟩ | ⟨id, hid, hblock⟩
        · have hlt := h.registry.below y hy
          rw [idPrefix_inj hblock hown] at hlt
          exact lt_irrefl _ hlt
        · rw [idPrefix_inj hblock hown] at hid
          have hle : registry.nextId.val ≤ db.registry.nextId.val := hid
          omega
    · cases hrun

theorem ensureIndex (hrun : db.ensureIndex e d = .ok db') : db'.Exact gen n T := by
  unfold Db.ensureIndex at hrun
  split at hrun
  · cases hrun
    exact h
  · exact h.createIndex hrun

end Db.Exact

/-! ## Runs -/

omit [Externals] in
theorem flushBuffered_index (dirs : List (AKey × SortedMap Str AKey)) (files : List (AKey × Bytes)) :
    Keeps TxState.index (flushBuffered dirs files) :=
  .bind (.forEach (fun _ _ _ => rfl) dirs) fun _ => .forEach (fun _ _ _ => rfl) files

omit [Externals] in
theorem commit_index : Keeps TxState.index commit :=
  .bind (.inspect _) fun _ => .bind (fun _ _ => rfl) fun _ => flushBuffered_index _ _

theorem Db.drawn_createIndex (h : db.createIndex e d = .ok db') : db.drawn ≤ db'.drawn := by
  obtain ⟨⟨registry, created⟩, -, h⟩ := Except.bind_eq_ok.1 h
  dsimp only at h
  split at h
  · split at h
    · cases h
      exact le_rfl
    · rename_i entry _
      have hle := (backfill entry).drawn_le e (({ db with registry := registry } : Db).tx e.table)
      split at h
      · rename_i s hrun
        cases h
        rw [hrun] at hle
        exact hle
      · cases h
  · cases h
    exact le_rfl

theorem Db.drawn_ensureIndex (h : db.ensureIndex e d = .ok db') : db.drawn ≤ db'.drawn := by
  unfold Db.ensureIndex at h
  split at h
  · cases h
    exact le_rfl
  · exact drawn_createIndex h

omit [Externals] in
theorem Db.drawn_deleteIndex (h : db.deleteIndex table name = .ok (db', found)) : db'.drawn = db.drawn := by
  obtain ⟨⟨registry, removed⟩, -, h⟩ := Except.bind_eq_ok.1 h
  cases removed <;> cases h <;> rfl

/-- The first `n` keys differ from each other and from the root. -/
def DistinctKeys (gen : Nat → AKey) (n : Nat) : Prop :=
  ∀ i, i < n → gen i ≠ .root ∧ ∀ j, j < n → gen i = gen j → i = j

/-- The write transaction represents a tree for which the indexes of its table are exact. -/
def Writer.Maintains (gen : Nat → AKey) (n : Nat) (db : Db) : Writer → Prop
  | .begun e => e.principal = .unrestricted ∧ e.gen = gen
  | .running e s => e.principal = .unrestricted ∧ e.gen = gen ∧ db.drawn ≤ s.drawn ∧
    ∃ T, Represents e n s T ∧ Maintained (db.registry.forTable e.table) T db.index s.index

namespace Live

/-- What every step keeps. -/
structure Sound (gen : Nat → AKey) (n : Nat) (l : Live) : Prop where
  exact : ∃ T, l.db.Exact gen n T
  writer : ∀ writer, l.writer = some writer → writer.Maintains gen n l.db

variable {l l' : Live} {act : Act} {acts : List Act}

theorem Sound.le_drawn (h : l.Sound gen n) : l.db.drawn ≤ l.drawn := by
  unfold drawn
  split
  · rename_i e s hw
    exact (h.writer _ hw).2.2.1
  · exact le_rfl

theorem Sound.idle (hT : l.db.Exact gen n T) (hw : l.writer = none) : l.Sound gen n := by
  refine ⟨⟨T, hT⟩, fun writer hwriter => ?_⟩
  rw [hw] at hwriter
  cases hwriter

/-- No step takes a drawn key back. -/
theorem Step.drawn_le (h : l.Step act l') : l.drawn ≤ l'.drawn := by
  cases h with
  | begun hw =>
    unfold drawn
    rw [hw]
  | built hw =>
    unfold drawn
    rw [hw]
    exact le_rfl
  | @called c e s s' hw hrun =>
    have hle := (c.prog (l.indexes e.table)).drawn_le e s
    rw [hrun] at hle
    unfold drawn
    rw [hw]
    exact hle
  | failed hd => exact hd
  | @committed e s s' hw hrun =>
    have hcount := commit_drawn e s
    rw [hrun] at hcount
    unfold drawn
    rw [hw]
    exact hcount.ge
  | @created e d db hw hcreate =>
    have hle : l.db.drawn ≤ db.drawn := Db.drawn_createIndex hcreate
    unfold drawn
    rw [hw]
    exact hle
  | @ensured e d db hw hensure =>
    have hle : l.db.drawn ≤ db.drawn := Db.drawn_ensureIndex hensure
    unfold drawn
    rw [hw]
    exact hle
  | @deleted table name db found hw hdelete =>
    have hsame : db.drawn = l.db.drawn := Db.drawn_deleteIndex hdelete
    unfold drawn
    rw [hw]
    exact hsame.ge
  | refused => exact le_rfl
  | marked => exact le_rfl
  | reopened => exact le_rfl

variable [LawfulExternals]

theorem Sound.step (hkeys : DistinctKeys gen n) (h : l.Sound gen n) (hstep : l.Step act l') (hdrawn : l'.drawn ≤ n)
    (hfits : l.Fitting gen n act) (hsighted : ¬ l.Blind act) : l'.Sound gen n := by
  obtain ⟨T, hT⟩ := h.exact
  cases hstep with
  | @begun e hw =>
    refine ⟨⟨T, hT⟩, fun writer hwriter => ?_⟩
    cases hwriter
    exact hfits
  | @built e hw =>
    obtain ⟨hp, hgen⟩ := h.writer _ hw
    refine ⟨⟨T, hT⟩, fun writer hwriter => ?_⟩
    cases hwriter
    refine ⟨hp, hgen, le_rfl, T e.table, hT.represents hp hgen _, ?_, fun _ _ => rfl⟩
    exact fun x hx => hT.exact _ (Registry.mem_forTable.1 hx)
  | @called c e s s' hw hrun =>
    obtain ⟨hp, hgen, hle, T', hT', hkept⟩ := h.writer _ hw
    obtain ⟨hfit, hapart⟩ := hfits e s T' hw hT'
    have hindexes : l.indexes e.table = l.db.registry.forTable e.table := by
      unfold indexes
      split
      · rfl
      · by_contra hne
        exact hsighted ⟨e, s, hw, Bool.eq_false_iff.2 ‹_›, Ne.symm hne⟩
    rw [hindexes] at hrun
    have hdist : Distinct e n := by
      subst hgen
      exact hkeys
    have hspec := (c.keeps_exact hp hdist hT' hfit (hT.registry.nodup_forTable _) hkept.exact hapart).returned
      (a := ()) rfl (by rw [hrun]; exact hdrawn) (by rw [hrun])
    rw [hrun] at hspec
    obtain ⟨T'', hT'', -, hkept'⟩ := hspec
    have hgrown := (c.prog (l.db.registry.forTable e.table)).drawn_le e s
    rw [hrun] at hgrown
    refine ⟨⟨T, hT⟩, fun writer hwriter => ?_⟩
    cases hwriter
    refine ⟨hp, hgen, hle.trans hgrown, T'', hT'', hkept'.exact, fun key hkey => ?_⟩
    exact (hkept'.others key hkey).trans (hkept.others key hkey)
  | @failed act d hd => exact .idle (hT.skip (h.le_drawn.trans hd)) rfl
  | @committed e s s' hw hrun =>
    obtain ⟨hp, hgen, hle, T', hT', hkept⟩ := h.writer _ hw
    have hcommit := hT'.commit false
    have hindex := commit_index e s
    have hcount := commit_drawn e s
    rw [hrun] at hcommit hindex hcount
    refine .idle (hT.put hgen (hle.trans hcount.ge) hcommit ?_) rfl
    have hsame : s'.index = s.index := hindex
    rw [hsame]
    exact hkept
  | created hw hcreate => exact .idle (hT.createIndex hcreate) hw
  | ensured hw hensure => exact .idle (hT.ensureIndex hensure) hw
  | deleted hw hdelete => exact .idle (hT.deleteIndex hdelete) hw
  | refused => exact h
  | marked => exact ⟨⟨T, hT⟩, h.writer⟩
  | reopened => exact .idle (hT.skip h.le_drawn) rfl

theorem Sound.run (hkeys : DistinctKeys gen n) (h : l.Sound gen n) (hrun : l.run acts = some l') (hdrawn : l'.drawn ≤ n)
    (hfits : Throughout (Fitting gen n) l acts) (hsighted : Throughout (fun l act => ¬ l.Blind act) l acts) :
    l'.Sound gen n := by
  induction acts generalizing l with
  | nil =>
    cases hrun
    exact h
  | cons act acts ih =>
    obtain ⟨mid, hmid, hrun⟩ := Option.bind_eq_some_iff.1 hrun
    have hstep := step_cases hmid
    have hle : mid.drawn ≤ l'.drawn :=
      run_keeps (I := fun l => mid.drawn ≤ l.drawn) (fun hI hstep => hI.trans hstep.drawn_le) le_rfl hrun
    exact ih (h.step hkeys hstep (hle.trans hdrawn) hfits.1 hsighted.1) hrun (hfits.2 _ hmid) (hsighted.2 _ hmid)

omit [LawfulExternals] in
theorem Sound.start : empty.Sound gen n := .idle Db.Exact.empty rfl

end Live

end Exact

/-! ## A small run -/

/-- An index on the children of the root by their own scalars. -/
def byItself : IndexDef := ⟨⟨"i"⟩, ⟨"*"⟩, [⟨VPath.root, .asc⟩], false⟩

/-- A thread creates the index, and another one stores a file, after other steps. -/
def createThenStore (b : Bool) (between : List (@Act Reference.externals)) : List (@Act Reference.externals) :=
  letI := Reference.externals
  .create countingEnv byItself :: (between ++ [.begin countingEnv, .new,
    .call (.storeValue (pathOf ["a"]) (.leaf (.bool b))), .commit])

/-- What holds of a step and throughout what follows holds throughout. -/
theorem Live.Throughout.cons [Externals] {P : Live → Act → Prop} {l : Live} {act : Act} {acts : List Act} (h : P l act)
    (hrest : Throughout P ((l.step act).getD l) acts) : Throughout P l (act :: acts) := by
  refine ⟨h, fun l' hstep => ?_⟩
  rw [hstep] at hrest
  exact hrest

theorem Registry.not_unique {registry : Registry} {table : Str} {x : IndexEntry}
    (hall : registry.entries.all (fun y => !y.2.definition.unique) = true) (hx : x ∈ registry.forTable table) :
    x.definition.unique = false := by
  simpa using List.all_eq_true.1 hall _ (mem_forTable.1 hx)

/-- If the flag is set before the other thread begins, the run is as it has to be. -/
theorem Live.createThenStore_sighted (b : Bool) : letI := Reference.externals
    ∃ l, empty.run (createThenStore b [.mark]) = some l ∧ DistinctKeys countingEnv.gen 1 ∧ l.drawn ≤ 1 ∧
      Throughout (Fitting countingEnv.gen 1) empty (createThenStore b [.mark]) ∧
      Throughout (fun l act => ¬ l.Blind act) empty (createThenStore b [.mark]) := by
  let _ := Reference.externals
  obtain ⟨l, hrun⟩ : ∃ l, empty.run (createThenStore b [.mark]) = some l :=
    Option.isSome_iff_exists.1 (by cases b <;> decide)
  have hdrawn : (empty.run (createThenStore b [.mark])).map drawn = some 1 := by cases b <;> decide
  rw [hrun] at hdrawn
  refine ⟨l, hrun, ?_, (Option.some.inj hdrawn).le, ?_, ?_⟩
  · unfold DistinctKeys
    decide
  · refine .cons trivial (.cons trivial (.cons ⟨rfl, rfl⟩ (.cons trivial (.cons ?_ (.cons trivial trivial)))))
    intro e s T _ _
    refine ⟨by cases b <;> exact ⟨by decide, by decide⟩, fun x hx hunique => ?_⟩
    rw [Registry.not_unique (by cases b <;> decide) hx] at hunique
    cases hunique
  · refine .cons id (.cons id (.cons id (.cons id (.cons ?_ (.cons id trivial)))))
    rintro ⟨e, s, -, hclear, -⟩
    exact absurd hclear (by cases b <;> decide)

/-- Between the commit of a creation and the flag, a writer that has begun is blind to the index. -/
theorem Live.blind_while_marking_small : letI := Reference.externals
    ∃ l act, empty.run [.create countingEnv byItself, .begin countingEnv, .new] = some l ∧ l.Blind act ∧
      l.hasIndexes = false ∧ 0 < l.marks := by
  let _ := Reference.externals
  obtain ⟨l, hrun, hblind⟩ : ∃ l, empty.run [.create countingEnv byItself, .begin countingEnv, .new] = some l ∧
      l.Blind (.call (.rm (pathOf ["a"]))) := ⟨_, rfl, countingEnv, _, rfl, rfl, by decide⟩
  exact ⟨l, _, hrun, hblind, (blind_while_marking hrun).2 _ hblind⟩

/-- A writer that stores its file before the flag is set leaves the index without an entry. -/
example : letI := Reference.externals
    (Live.empty.run (createThenStore true [] ++ [.mark])).map
        (fun l => (l.db.registry.entries.length, l.db.index.entries)) =
      some (1, []) := by decide

end ArborDb
