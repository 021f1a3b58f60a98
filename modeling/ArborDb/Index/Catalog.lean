import ArborDb.Index.Repository

/-!
# Calls on indexes

A table registers, ensures and drops indexes, each in one write transaction on the stored registry and
the shared index table; a call that fails leaves both as they were. Over any calls on any tables the
registry stays valid, its three readers agree and no id is given twice (`Catalog.run_keeps_registry`), provided
that every definition is read back from what is stored of it.
-/

namespace ArborDb

section Catalog

variable [Externals]

/-- What the calls on indexes keep: the stored registry and the index table. -/
structure Catalog where
  registry : RegistryBlob
  index : SortedMap Bytes Bytes

namespace Catalog

section Calls

variable (limit : Nat) (c : Catalog)

/-- The index table after the back-fill of a fresh index from the data of its table. -/
def backfill (e : Env) (data : SortedMap AKey Entry) : Option IndexEntry → AdbResult (SortedMap Bytes Bytes)
  | none => .ok c.index
  | some entry =>
    match (ArborDb.backfill entry).run e ⟨data, .empty, c.index, .new false, 0⟩ with
    | (.ok _, s) => .ok s.index
    | (.error err, _) => .error err

/-- The entry of an index, recovered if it was created just now. -/
def newEntry (registry : RegistryBlob) (created : Bool) (table name : Str) : AdbResult (Option IndexEntry) :=
  if created then RegistryRepository.lookup registry table name else .ok none

/-- Registers an index on a table and back-fills it; its entry, if it is new. -/
def createIndex (e : Env) (data : SortedMap AKey Entry) (d : IndexDef) : AdbResult (Catalog × Option IndexEntry) := do
  let (registry, created) ← RegistryRepository.create limit c.registry e.table d
  let entry ← newEntry registry created e.table d.name
  let index ← c.backfill e data entry
  return (⟨registry, index⟩, entry)

/-- Registers an index unless the table has one of that name. -/
def ensureIndex (e : Env) (data : SortedMap AKey Entry) (d : IndexDef) : AdbResult (Catalog × Option IndexEntry) := do
  if ← RegistryRepository.has c.registry e.table d.name then
    let index ← c.backfill e data none
    return (⟨c.registry, index⟩, none)
  else
    let (registry, _) ← RegistryRepository.create limit c.registry e.table d
    let entry ← RegistryRepository.lookup registry e.table d.name
    let index ← c.backfill e data entry
    return (⟨registry, index⟩, entry)

/-- Drops the index of a name and its entries; whether there was one. -/
def deleteIndex (table name : Str) : AdbResult (Catalog × Bool) := do
  let (registry, removed) ← RegistryRepository.delete limit c.registry table name
  match removed with
  | none => return (⟨registry, c.index⟩, false)
  | some entry => return (⟨registry, deleteAll c.index entry⟩, true)

end Calls

/-- A transaction on the catalog: a call on the indexes of a table, which holds `data`, or a write that
leaves the index table with other entries. -/
inductive Call where
  | create (e : Env) (data : SortedMap AKey Entry) (d : IndexDef)
  | ensure (e : Env) (data : SortedMap AKey Entry) (d : IndexDef)
  | delete (table name : Str)
  | write (index : SortedMap Bytes Bytes)

/-- The catalog after a call, and the entry of an index it created. -/
def Call.exec (limit : Nat) (c : Catalog) : Call → AdbResult (Catalog × Option IndexEntry)
  | .create e data d => c.createIndex limit e data d
  | .ensure e data d => c.ensureIndex limit e data d
  | .delete table name => do
    let (c, _) ← c.deleteIndex limit table name
    return (c, none)
  | .write index => .ok (⟨c.registry, index⟩, none)

/-- The catalog after some calls, and the entries of the indexes they created. A call that fails is
dropped with its transaction. -/
def run (limit : Nat) : List Call → Catalog → Catalog × List IndexEntry
  | [], c => (c, [])
  | call :: calls, c =>
    match call.exec limit c with
    | .error _ => run limit calls c
    | .ok (after, entry) => ((run limit calls after).1, entry.toList ++ (run limit calls after).2)

/-- The definitions of a call. -/
def Call.definitions : Call → List IndexDef
  | .create _ _ d => [d]
  | .ensure _ _ d => [d]
  | .delete _ _ => []
  | .write _ => []

/-! ## One call -/

/-- What a call does to the registry: nothing, or it gives the next id to a new index. -/
structure Step (before after : Registry) (entry : Option IndexEntry) : Prop where
  valid : before.Valid → after.Valid
  next : after.nextId.val = before.nextId.val + entry.toList.length
  id : ∀ x, entry = some x → x.id = before.nextId

omit [Externals] in
theorem Step.refl (registry : Registry) : Step registry registry none where
  valid hv := hv
  next := rfl
  id := nofun

omit [Externals] in
theorem Step.of_create {before after : Registry} {table : Str} {d : IndexDef}
    (h : before.create table d = .ok (after, true)) : Step before after (after.lookup table d.name) := by
  rw [Registry.lookup_created h]
  rcases Registry.create_cases h with ⟨hfalse, -⟩ | ⟨-, -, hnext, -⟩
  · cases hfalse
  · refine ⟨fun hv => hv.create h, hnext, ?_⟩
    rintro x ⟨⟩
    rfl

variable {limit : Nat} (hlimit : limit < 2 ^ 32) {c after : Catalog} {registry : Registry}
  (h : HoldsRegistry c.registry registry) {entry : Option IndexEntry} {e : Env} {data : SortedMap AKey Entry}
  {d : IndexDef}

include hlimit h

theorem createIndex_step (hd : d.Readable) (hrun : c.createIndex limit e data d = .ok (after, entry)) :
    ∃ registry', HoldsRegistry after.registry registry' ∧ Step registry registry' entry := by
  obtain ⟨⟨blob, created⟩, hcreate, hrun⟩ := Except.bind_eq_ok.1 hrun
  obtain ⟨registry', hregistry, hholds⟩ := h.create hlimit hd hcreate
  obtain ⟨found, hfound, hrun⟩ := Except.bind_eq_ok.1 hrun
  obtain ⟨index, -, hrun⟩ := Except.bind_eq_ok.1 hrun
  cases hrun
  refine ⟨registry', hholds, ?_⟩
  cases created with
  | false =>
    cases hfound
    rcases Registry.create_cases hregistry with ⟨-, rfl, -⟩ | ⟨hfalse, -⟩
    · exact Step.refl _
    · cases hfalse
  | true =>
    have hlookup : entry = registry'.lookup e.table d.name := by
      rw [newEntry, if_pos rfl, hholds.lookup_eq] at hfound
      exact (Except.ok.inj hfound).symm
    rw [hlookup]
    exact Step.of_create hregistry

theorem ensureIndex_step (hd : d.Readable) (hrun : c.ensureIndex limit e data d = .ok (after, entry)) :
    ∃ registry', HoldsRegistry after.registry registry' ∧ Step registry registry' entry := by
  unfold ensureIndex at hrun
  rw [h.has_eq, Except.ok_bind] at hrun
  split at hrun
  · obtain ⟨index, -, hrun⟩ := Except.bind_eq_ok.1 hrun
    cases hrun
    exact ⟨registry, h, Step.refl _⟩
  · rename_i hnone
    obtain ⟨⟨blob, created⟩, hcreate, hrun⟩ := Except.bind_eq_ok.1 hrun
    obtain ⟨registry', hregistry, hholds⟩ := h.create hlimit hd hcreate
    obtain ⟨found, hfound, hrun⟩ := Except.bind_eq_ok.1 hrun
    obtain ⟨index, -, hrun⟩ := Except.bind_eq_ok.1 hrun
    cases hrun
    rw [hholds.lookup_eq] at hfound
    cases hfound
    rcases Registry.create_cases hregistry with ⟨-, -, found, hfound, -⟩ | ⟨rfl, -⟩
    · rw [hfound] at hnone
      exact absurd rfl hnone
    · exact ⟨registry', hholds, Step.of_create hregistry⟩

omit [Externals] in
/-- What a removal leaves. -/
theorem deleteIndex_spec {table name : Str} {found : Bool}
    (hrun : c.deleteIndex limit table name = .ok (after, found)) :
    ∃ registry', HoldsRegistry after.registry registry' ∧ Step registry registry' none ∧
      match registry.lookup table name with
      | none => found = false ∧ after.index = c.index
      | some entry => found = true ∧ after.index = deleteAll c.index entry := by
  obtain ⟨⟨blob, removed⟩, hdelete, hrun⟩ := Except.bind_eq_ok.1 hrun
  obtain ⟨registry', hregistry, hholds⟩ := h.delete hlimit hdelete
  refine ⟨registry', ?_⟩
  rcases Registry.delete_cases hregistry with ⟨rfl, hnone, rfl⟩ | ⟨entry, rfl, hsome, rfl⟩
  · cases hrun
    rw [hnone]
    exact ⟨hholds, Step.refl _, rfl, rfl⟩
  · cases hrun
    rw [hsome]
    exact ⟨hholds, ⟨fun hv => hv.delete hregistry, rfl, nofun⟩, rfl, rfl⟩

theorem exec_step {call : Call} (hread : ∀ d ∈ call.definitions, d.Readable)
    (hrun : call.exec limit c = .ok (after, entry)) :
    ∃ registry', HoldsRegistry after.registry registry' ∧ Step registry registry' entry := by
  cases call with
  | create e data d => exact createIndex_step hlimit h (hread d (List.mem_singleton.2 rfl)) hrun
  | ensure e data d => exact ensureIndex_step hlimit h (hread d (List.mem_singleton.2 rfl)) hrun
  | delete table name =>
    obtain ⟨⟨mid, found⟩, hdelete, hrun⟩ := Except.bind_eq_ok.1 hrun
    cases hrun
    obtain ⟨registry', hholds, hstep, -⟩ := deleteIndex_spec hlimit h hdelete
    exact ⟨registry', hholds, hstep⟩
  | write index =>
    cases hrun
    exact ⟨registry, h, Step.refl _⟩

/-! ## A run of calls -/

/-- Over a run the ids that are given lie between the two allocators, each given once. -/
theorem run_step {calls : List Call} (hread : ∀ call ∈ calls, ∀ d ∈ call.definitions, d.Readable)
    (hv : registry.Valid) :
    ∃ registry', HoldsRegistry (run limit calls c).1.registry registry' ∧ registry'.Valid ∧
      registry.nextId ≤ registry'.nextId ∧
      (∀ x ∈ (run limit calls c).2, registry.nextId ≤ x.id ∧ x.id < registry'.nextId) ∧
      ((run limit calls c).2.map IndexEntry.id).Nodup := by
  induction calls generalizing c registry with
  | nil => exact ⟨registry, h, hv, le_rfl, List.forall_mem_nil _, List.nodup_nil⟩
  | cons call calls ih =>
    have hrest : ∀ call ∈ calls, ∀ d ∈ call.definitions, d.Readable :=
      fun call hcall => hread call (List.mem_cons_of_mem _ hcall)
    rw [run]
    split
    · exact ih h hrest hv
    · rename_i mid entry hexec
      obtain ⟨between, hholds, hstep⟩ := exec_step hlimit h (hread call List.mem_cons_self) hexec
      obtain ⟨registry', hholds', hv', hle, hids, hnodup⟩ := ih hholds hrest (hstep.valid hv)
      have hnext := hstep.next
      rw [Fin.le_def] at hle
      cases entry with
      | none =>
        have hsame : between.nextId = registry.nextId := Fin.ext hnext
        rw [hsame] at hids hle
        exact ⟨registry', hholds', hv', hle, hids, hnodup⟩
      | some x =>
        have hx : x.id = registry.nextId := hstep.id x rfl
        have hlt : registry.nextId.val < between.nextId.val := by
          rw [hnext]
          exact Nat.lt_succ_self _
        refine ⟨registry', hholds', hv', ?_, ?_, ?_⟩
        · rw [Fin.le_def]
          omega
        · intro y hy
          rcases List.mem_cons.1 hy with rfl | hy
          · rw [hx, Fin.lt_def]
            exact ⟨le_rfl, by omega⟩
          · obtain ⟨hfrom, hto⟩ := hids y hy
            rw [Fin.le_def] at hfrom ⊢
            exact ⟨by omega, hto⟩
        · refine List.nodup_cons.2 ⟨?_, hnodup⟩
          intro hmem
          obtain ⟨y, hy, heq⟩ := List.mem_map.1 hmem
          obtain ⟨hfrom, -⟩ := hids y hy
          rw [heq, hx, Fin.le_def] at hfrom
          omega

/-- What every catalog promises of the registry it holds: the full reader, the walk of the names and the
count answer from the same entries. -/
structure ReadersAgree (blob : RegistryBlob) (registry : Registry) : Prop where
  load : RegistryRepository.load blob = .ok registry
  lookup : ∀ table name, RegistryRepository.lookup blob table name = .ok (registry.lookup table name)
  has : ∀ table name, RegistryRepository.has blob table name = .ok (registry.lookup table name).isSome
  any : RegistryRepository.any blob = .ok (!registry.entries.isEmpty)
  found : ∀ table name entry, registry.lookup table name = some entry ↔
    (table, entry) ∈ registry.entries ∧ entry.definition.name = name

/-- A removal purges the block of the index it drops, and no entry of another one. -/
def PurgesOwnBlock (limit : Nat) (c : Catalog) (registry : Registry) : Prop :=
  ∀ table name after found, c.deleteIndex limit table name = .ok (after, found) →
    match registry.lookup table name with
    | none => found = false ∧ after.index = c.index
    | some entry => found = true ∧
      (∀ key, after.index.get key = if idPrefix entry.id <+: key then none else c.index.get key) ∧
      ∀ x ∈ registry.entries, x ≠ (table, entry) → ∀ key, idPrefix x.2.id <+: key →
        after.index.get key = c.index.get key

omit [Externals] hlimit in
theorem readersAgree (hv : registry.Valid) : ReadersAgree c.registry registry where
  load := h.load_eq
  lookup := h.lookup_eq
  has := h.has_eq
  any := h.any_eq
  found table name entry := by
    constructor
    · exact Registry.lookup_eq_some
    · rintro ⟨hmem, rfl⟩
      cases hlookup : registry.lookup table entry.definition.name with
      | none => exact absurd rfl (Registry.lookup_eq_none.1 hlookup _ hmem)
      | some other =>
        obtain ⟨hother, hname⟩ := Registry.lookup_eq_some hlookup
        have hkey : (table, other.definition.name) = (table, entry.definition.name) := by rw [hname]
        have hsame := List.inj_on_of_nodup_map hv.names hother hmem hkey
        rw [(Prod.mk.inj hsame).2]

omit [Externals] in
theorem purgesOwnBlock (hv : registry.Valid) : PurgesOwnBlock limit c registry := by
  intro table name after found hrun
  obtain ⟨registry', -, -, hresult⟩ := deleteIndex_spec hlimit h hrun
  cases hlookup : registry.lookup table name with
  | none =>
    rw [hlookup] at hresult
    exact hresult
  | some entry =>
    rw [hlookup] at hresult
    obtain ⟨hfound, hindex⟩ := hresult
    refine ⟨hfound, ?_, ?_⟩
    · intro key
      rw [hindex, get_deleteAll]
    · intro x hx hne key hprefix
      rw [hindex, get_deleteAll, if_neg]
      intro hown
      have hid : x.2.id = entry.id := idPrefix_inj hprefix hown
      exact hne (List.inj_on_of_nodup_map hv.ids hx (Registry.lookup_eq_some hlookup).1 hid)

end Catalog

/-- **The registry over a run.** After any calls on any tables, with columns that were parsed, the indexes
have distinct tables and names and distinct ids below the next one, no id was given to two new indexes,
every reader of the stored registry answers from its entries, and a removal purges its own block. -/
theorem Catalog.run_keeps_registry {limit : Nat} (hlimit : limit < 2 ^ 32) {calls : List Call}
    (hparsed : ∀ call ∈ calls, ∀ d ∈ call.definitions, ∀ column ∈ d.columns, ∃ s, VPath.parse s = .ok column.path)
    (index : SortedMap Bytes Bytes) :
    ∃ registry, registry.Valid ∧
      ReadersAgree (run limit calls ⟨none, index⟩).1.registry registry ∧
      ((run limit calls ⟨none, index⟩).2.map IndexEntry.id).Nodup ∧
      (∀ x ∈ (run limit calls ⟨none, index⟩).2, x.id < registry.nextId) ∧
      PurgesOwnBlock limit (run limit calls ⟨none, index⟩).1 registry := by
  have hread : ∀ call ∈ calls, ∀ d ∈ call.definitions, d.Readable := by
    intro call hcall d hd column hcolumn
    obtain ⟨s, hs⟩ := hparsed call hcall d hd column hcolumn
    exact VPath.names_parse hs
  have hempty : HoldsRegistry (Catalog.mk none index).registry .empty := .absent
  obtain ⟨registry, hholds, hv, -, hids, hnodup⟩ := run_step hlimit hempty hread Registry.Valid.empty
  exact ⟨registry, hv, readersAgree hholds hv, hnodup, fun x hx => (hids x hx).2, purgesOwnBlock hlimit hholds hv⟩

/-! ## Definitions that are kept -/

/-- A definition is read back as it is; once it is registered it is registered again without a change,
and the maintenance and the queries of its table find it as it is. -/
structure IndexDef.Kept (d : IndexDef) : Prop where
  decoded : (IndexDef.decode (Reader.new d.encode)).map Prod.fst = .ok d
  registered : ∀ (limit : Nat) (calls : List Catalog.Call) (index : SortedMap Bytes Bytes) (e : Env)
    (data : SortedMap AKey Entry) (after : Catalog) (entry : Option IndexEntry), limit < 2 ^ 32 →
    (∀ call ∈ calls, ∀ d ∈ call.definitions, d.Readable) →
    (Catalog.run limit calls ⟨none, index⟩).1.createIndex limit e data d = .ok (after, entry) →
    (∀ data, after.createIndex limit e data d = .ok (after, none)) ∧
    ∃ id indexes, RegistryRepository.lookup after.registry e.table d.name = .ok (some ⟨id, d⟩) ∧
      RegistryRepository.forTable after.registry e.table = .ok indexes ∧ ⟨id, d⟩ ∈ indexes

theorem Catalog.createIndex_kept {limit : Nat} (hlimit : limit < 2 ^ 32) {c after : Catalog} {registry : Registry}
    (h : HoldsRegistry c.registry registry) {e : Env} {data : SortedMap AKey Entry} {d : IndexDef}
    {entry : Option IndexEntry} (hd : d.Readable) (hrun : c.createIndex limit e data d = .ok (after, entry)) :
    (∀ data, after.createIndex limit e data d = .ok (after, none)) ∧
    ∃ id indexes, RegistryRepository.lookup after.registry e.table d.name = .ok (some ⟨id, d⟩) ∧
      RegistryRepository.forTable after.registry e.table = .ok indexes ∧ ⟨id, d⟩ ∈ indexes := by
  obtain ⟨⟨blob, created⟩, hcreate, hrun⟩ := Except.bind_eq_ok.1 hrun
  obtain ⟨registry', hregistry, hholds⟩ := h.create hlimit hd hcreate
  obtain ⟨found, -, hrun⟩ := Except.bind_eq_ok.1 hrun
  obtain ⟨index, -, hrun⟩ := Except.bind_eq_ok.1 hrun
  cases hrun
  obtain ⟨id, hlookup⟩ : ∃ id, registry'.lookup e.table d.name = some ⟨id, d⟩ := by
    rcases Registry.create_cases hregistry with ⟨-, rfl, ⟨id, _⟩, hfound, rfl⟩ | ⟨rfl, -⟩
    · exact ⟨id, hfound⟩
    · exact ⟨registry.nextId, Registry.lookup_created hregistry⟩
  constructor
  · intro data
    have hagain : registry'.create e.table d = .ok (registry', false) := by
      rw [Registry.create, hlookup]
      exact if_pos rfl
    have hblob : RegistryRepository.create limit blob e.table d = .ok (blob, false) := by
      rw [RegistryRepository.create, hholds.load_eq, Except.ok_bind, hagain]
      rfl
    rw [createIndex, hblob]
    rfl
  · refine ⟨id, registry'.forTable e.table, ?_, hholds.forTable_eq _, ?_⟩
    · rw [hholds.lookup_eq, hlookup]
    · have hmem := (Registry.lookup_eq_some hlookup).1
      exact List.mem_map.2 ⟨_, List.mem_filter.2 ⟨hmem, decide_eq_true rfl⟩, rfl⟩

/-- **A definition is kept exactly if the names of its columns are not empty and have no character of the
path syntax.** -/
theorem IndexDef.round_trips_iff {d : IndexDef} (hbuilt : ∀ column ∈ d.columns, column.path.Built) (hfits : d.Fits) :
    d.Kept ↔ ∀ column ∈ d.columns, column.path.Printable := by
  have hreadable : d.Readable ↔ ∀ column ∈ d.columns, column.path.Printable :=
    forall₂_congr fun column hcolumn => (hbuilt column hcolumn).names_iff
  rw [← hreadable]
  constructor
  · intro hkept
    have hdecoded := hkept.decoded
    cases hrun : decode (Reader.new d.encode) with
    | error err =>
      rw [hrun] at hdecoded
      cases hdecoded
    | ok result =>
      rw [hrun] at hdecoded
      cases hdecoded
      exact readable_decode _ _ _ hrun
  · intro hread
    refine ⟨?_, ?_⟩
    · rw [(reads_decode hfits hread).run_new, Except.map]
    · intro limit calls index e data after entry hlimit hcalls hrun
      have hempty : HoldsRegistry (Catalog.mk none index).registry .empty := .absent
      obtain ⟨registry, hholds, -⟩ := Catalog.run_step hlimit hempty hcalls Registry.Valid.empty
      exact Catalog.createIndex_kept hlimit hholds hread hrun

end Catalog

/-! ## Two definitions -/

/-- An index on the ages of the entities below the root. -/
def byAge : IndexDef := ⟨⟨"by_age"⟩, ⟨"*"⟩, [⟨VPath.root.childName ⟨"age"⟩, .asc⟩], false⟩

/-- An index on a field whose stored name has a slash. -/
def byRate : IndexDef := ⟨⟨"by_rate"⟩, ⟨"*"⟩, [⟨VPath.root.childName ⟨"km/h"⟩, .asc⟩], false⟩

theorem byAge_built : ∀ column ∈ byAge.columns, column.path.Built :=
  List.forall_mem_singleton.2 (.childName ⟨"age"⟩ .root)

theorem byAge_fits : byAge.Fits where
  name := by decide
  pattern := by decide
  count := by decide
  paths := by decide

/-- The column is read back as two names, and registering the definition again finds another one. -/
theorem byRate_misread :
    (∀ column ∈ byRate.columns, column.path.Built) ∧ byRate.Fits ∧
    (IndexDef.decode (Reader.new byRate.encode)).map Prod.fst =
      .ok ⟨⟨"by_rate"⟩, ⟨"*"⟩, [⟨⟨[.name ⟨"km"⟩, .name ⟨"h"⟩]⟩, .asc⟩], false⟩ ∧
    (IndexDef.decode (Reader.new byRate.encode)).map Prod.fst ≠ .ok byRate ∧
    (RegistryRepository.create 1000 none ⟨"t"⟩ byRate).map Prod.snd = .ok true ∧
    (RegistryRepository.create 1000 none ⟨"t"⟩ byRate >>= fun x => RegistryRepository.create 1000 x.1 ⟨"t"⟩ byRate) =
      .error (.schemaMismatch "index 'by_rate' on table 't' already exists with a different definition") := by
  refine ⟨List.forall_mem_singleton.2 (.childName ⟨"km/h"⟩ .root), ?_, ?_, ?_, ?_, ?_⟩
  · exact ⟨by decide, by decide, by decide, by decide⟩
  · decide +kernel
  · decide +kernel
  · decide +kernel
  · decide +kernel

theorem IndexDef.round_trips_iff_byAge : letI := Reference.externals
    byAge.Kept ↔ ∀ column ∈ byAge.columns, column.path.Printable :=
  let _ := Reference.externals
  IndexDef.round_trips_iff byAge_built byAge_fits

/-- Registering, dropping and registering again. -/
def byAgeCalls : List Catalog.Call :=
  [.create countingEnv .empty byAge, .create countingEnv .empty byAge, .delete ⟨"t"⟩ ⟨"by_age"⟩,
    .ensure countingEnv .empty byAge]

theorem Catalog.run_keeps_registry_byAge : letI := Reference.externals
    ∃ registry, registry.Valid ∧
      ReadersAgree (run (3 * 2 ^ 30) byAgeCalls ⟨none, .empty⟩).1.registry registry ∧
      ((run (3 * 2 ^ 30) byAgeCalls ⟨none, .empty⟩).2.map IndexEntry.id).Nodup ∧
      (∀ x ∈ (run (3 * 2 ^ 30) byAgeCalls ⟨none, .empty⟩).2, x.id < registry.nextId) ∧
      PurgesOwnBlock (3 * 2 ^ 30) (run (3 * 2 ^ 30) byAgeCalls ⟨none, .empty⟩).1 registry := by
  let _ := Reference.externals
  apply Catalog.run_keeps_registry (by decide)
  have hparsed : VPath.parse ⟨"age"⟩ = .ok (VPath.root.childName ⟨"age"⟩) := by
    decide +kernel
  intro call hcall d hd column hcolumn
  refine ⟨⟨"age"⟩, hparsed.trans ?_⟩
  have hmem : d ∈ [byAge, byAge, byAge] := List.mem_flatMap.2 ⟨call, hcall, hd⟩
  obtain rfl : d = byAge := by
    simpa using hmem
  rw [List.mem_singleton.1 hcolumn]

end ArborDb
