import ArborDb.Txn.Write

/-!
# The index registry

Every index of the database with the table it belongs to, and the next id to allocate. Ids are
never reused, so that a leftover entry of the shared index table cannot collide with a new index.
-/

namespace ArborDb

structure Registry where
  nextId : IndexId
  entries : List (Str × IndexEntry)
  deriving DecidableEq

namespace Registry

variable (registry : Registry) (table name : Str)

def empty : Registry := ⟨0, []⟩

/-- Persists the registry. -/
def store : AdbResult Registry :=
  if registry.entries.length < 2 ^ 32 then .ok registry
  else .error (.corrupt "index registry exceeds u32::MAX entries")

def isNamed (x : Str × IndexEntry) : Bool := x.1 = table && x.2.definition.name = name

def lookup : Option IndexEntry := (registry.entries.find? (isNamed table name)).map Prod.snd

def forTable : List IndexEntry := (registry.entries.filter (·.1 = table)).map Prod.snd

/-- Whether any index is registered, on whichever table. -/
def any : Bool := !registry.entries.isEmpty

/-- Registers a definition; whether it is a new index. -/
def create (d : IndexDef) : AdbResult (Registry × Bool) :=
  match registry.lookup table d.name with
  | some entry =>
    if entry.definition = d then .ok (registry, false)
    else .error (.schemaMismatch ("index '" ++ d.name.text ++ "' on table '" ++ table.text ++
      "' already exists with a different definition"))
  | none => do
    if registry.nextId.val + 1 < 2 ^ 32 then
      let registry ← store
        ⟨registry.nextId + 1, registry.entries ++ [(table, ⟨registry.nextId, d⟩)]⟩
      return (registry, true)
    else throw (.corrupt "index registry id counter overflow")

/-- Removes the index of a name; its entry, if there was one. -/
def delete : AdbResult (Registry × Option IndexEntry) :=
  match registry.lookup table name with
  | none => .ok (registry, none)
  | some entry => do
    let registry ← store
      { registry with entries := registry.entries.eraseP (isNamed table name) }
    return (registry, some entry)

/-! ## What holds of every registry -/

/-- No two indexes have one table and name, or one id, and the next id is not in use. -/
structure Valid : Prop where
  names : (registry.entries.map fun x => (x.1, x.2.definition.name)).Nodup
  ids : (registry.entries.map fun x => x.2.id).Nodup
  below : ∀ x ∈ registry.entries, x.2.id < registry.nextId

theorem Valid.empty : Valid empty where
  names := List.nodup_nil
  ids := List.nodup_nil
  below := List.forall_mem_nil _

variable {registry table name}

theorem isNamed_iff {x : Str × IndexEntry} :
    isNamed table name x = true ↔ (x.1, x.2.definition.name) = (table, name) := by
  simp [isNamed]

theorem mem_forTable {x : IndexEntry} : x ∈ registry.forTable table ↔ (table, x) ∈ registry.entries := by
  simp [forTable]

theorem Valid.nodup_forTable (h : registry.Valid) (table : Str) :
    ((registry.forTable table).map IndexEntry.id).Nodup := by
  rw [forTable, List.map_map]
  exact h.ids.sublist (List.filter_sublist.map _)

theorem lookup_eq_none :
    registry.lookup table name = none ↔ ∀ x ∈ registry.entries, (x.1, x.2.definition.name) ≠ (table, name) := by
  simp [lookup, isNamed_iff]

theorem lookup_eq_some {entry : IndexEntry} (h : registry.lookup table name = some entry) :
    (table, entry) ∈ registry.entries ∧ entry.definition.name = name := by
  obtain ⟨⟨t, x⟩, hfind, rfl⟩ := Option.map_eq_some_iff.1 h
  have hnamed := isNamed_iff.1 (List.find?_some hfind)
  cases hnamed
  exact ⟨List.mem_of_find?_eq_some hfind, rfl⟩

/-- What a registration does. -/
theorem create_cases {d : IndexDef} {after : Registry} {created : Bool}
    (h : registry.create table d = .ok (after, created)) :
    (created = false ∧ after = registry ∧ ∃ entry, registry.lookup table d.name = some entry ∧ entry.definition = d) ∨
    (created = true ∧ registry.lookup table d.name = none ∧ after.nextId.val = registry.nextId.val + 1 ∧
      after.entries = registry.entries ++ [(table, ⟨registry.nextId, d⟩)]) := by
  unfold create at h
  split at h
  · rename_i entry hlookup
    split at h
    · rename_i hsame
      cases h
      exact .inl ⟨rfl, rfl, entry, hlookup, hsame⟩
    · cases h
  · rename_i hlookup
    split at h
    · rename_i hnext
      obtain ⟨stored, hstore, h⟩ := Except.bind_eq_ok.1 h
      cases h
      unfold store at hstore
      split at hstore
      · cases hstore
        refine .inr ⟨rfl, hlookup, ?_, rfl⟩
        have hone : ((1 : IndexId) : Nat) = 1 := rfl
        rw [Fin.val_add, hone, Nat.mod_eq_of_lt hnext]
      · cases hstore
    · cases h

/-- What a removal does. -/
theorem delete_cases {after : Registry} {removed : Option IndexEntry}
    (h : registry.delete table name = .ok (after, removed)) :
    (removed = none ∧ registry.lookup table name = none ∧ after = registry) ∨
    ∃ entry, removed = some entry ∧ registry.lookup table name = some entry ∧
      after = { registry with entries := registry.entries.eraseP (isNamed table name) } := by
  unfold delete at h
  split at h
  · rename_i hlookup
    cases h
    exact .inl ⟨rfl, hlookup, rfl⟩
  · rename_i entry hlookup
    obtain ⟨stored, hstore, h⟩ := Except.bind_eq_ok.1 h
    cases h
    unfold store at hstore
    split at hstore
    · cases hstore
      exact .inr ⟨entry, rfl, hlookup, rfl⟩
    · cases hstore

theorem Valid.create {d : IndexDef} {after : Registry} {created : Bool} (hv : registry.Valid)
    (h : registry.create table d = .ok (after, created)) : after.Valid := by
  rcases create_cases h with ⟨-, rfl, -⟩ | ⟨-, hnone, hnext, hentries⟩
  · exact hv
  · have hlt : registry.nextId < after.nextId := by
      rw [Fin.lt_def]
      omega
    refine ⟨?_, ?_, ?_⟩
    · rw [hentries, List.map_append]
      refine List.Nodup.append hv.names (List.nodup_singleton _) ?_
      intro key hkey hnew
      obtain ⟨x, hx, rfl⟩ := List.mem_map.1 hkey
      exact lookup_eq_none.1 hnone x hx (List.mem_singleton.1 hnew)
    · rw [hentries, List.map_append]
      refine List.Nodup.append hv.ids (List.nodup_singleton _) ?_
      intro id hid hnew
      obtain ⟨x, hx, rfl⟩ := List.mem_map.1 hid
      exact absurd (List.mem_singleton.1 hnew) (ne_of_lt (hv.below x hx))
    · rw [hentries]
      intro x hx
      rcases List.mem_append.1 hx with hx | hx
      · exact (hv.below x hx).trans hlt
      · cases List.mem_singleton.1 hx
        exact hlt

theorem Valid.delete {after : Registry} {removed : Option IndexEntry} (hv : registry.Valid)
    (h : registry.delete table name = .ok (after, removed)) : after.Valid := by
  rcases delete_cases h with ⟨-, -, rfl⟩ | ⟨entry, -, -, rfl⟩
  · exact hv
  · have hsub : (registry.entries.eraseP (isNamed table name)).Sublist registry.entries := List.eraseP_sublist
    exact ⟨hv.names.sublist (hsub.map _), hv.ids.sublist (hsub.map _), fun x hx => hv.below x (hsub.subset hx)⟩

/-- A removal leaves no index of the name. -/
theorem Valid.not_named (hv : registry.Valid) {x : Str × IndexEntry}
    (hx : x ∈ registry.entries.eraseP (isNamed table name)) : (x.1, x.2.definition.name) ≠ (table, name) := by
  intro hnamed
  have hp : isNamed table name x = true := isNamed_iff.2 hnamed
  obtain ⟨y, before, after, -, hy, hentries, herased⟩ := List.exists_of_eraseP (List.eraseP_subset hx) hp
  have hnames := hv.names
  rw [hentries, List.map_append, List.map_cons, List.nodup_middle, List.nodup_cons, ← List.map_append] at hnames
  rw [herased] at hx
  refine hnames.1 (List.mem_map.2 ⟨x, hx, ?_⟩)
  rw [hnamed, isNamed_iff.1 hy]

/-- A new index is found under its name. -/
theorem lookup_created {d : IndexDef} {after : Registry} (h : registry.create table d = .ok (after, true)) :
    after.lookup table d.name = some ⟨registry.nextId, d⟩ := by
  rcases create_cases h with ⟨hfalse, -⟩ | ⟨-, hnone, -, hentries⟩
  · cases hfalse
  · have hfind : registry.entries.find? (isNamed table d.name) = none := by
      rw [List.find?_eq_none]
      intro x hx hnamed
      exact lookup_eq_none.1 hnone x hx (isNamed_iff.1 hnamed)
    have hlast : isNamed table d.name (table, ⟨registry.nextId, d⟩) = true := isNamed_iff.2 rfl
    rw [lookup, hentries, List.find?_append, hfind, Option.none_or, List.find?_cons_of_pos hlast]
    rfl

end Registry

/-- The keys of an index's block: from its id on, until the first one of another id. -/
def blockKeys (index : SortedMap Bytes Bytes) (id : IndexId) : List Bytes :=
  let lower := idPrefix id
  ((index.entries.dropWhile fun kv => kv.1 < lower).takeWhile fun kv =>
    lower.isPrefixOf kv.1).map Prod.fst

/-- Removes every entry of a dropped index. -/
def deleteAll (index : SortedMap Bytes Bytes) (entry : IndexEntry) : SortedMap Bytes Bytes :=
  (blockKeys index entry.id).foldl SortedMap.erase index

/-- Two blocks share no key. -/
theorem idPrefix_inj {i j : IndexId} {key : Bytes} (hi : idPrefix i <+: key) (hj : idPrefix j <+: key) : i = j := by
  have hlen : (idPrefix i).length = (idPrefix j).length := by
    rw [idPrefix, idPrefix, Bytes.length_be, Bytes.length_be]
  have heq : idPrefix i = idPrefix j := (List.prefix_of_prefix_length_le hi hj hlen.le).eq_of_length hlen
  exact Fin.ext (Bytes.be_inj i.isLt j.isLt heq)

theorem mem_blockKeys {index : SortedMap Bytes Bytes} {id : IndexId} {key : Bytes} :
    key ∈ blockKeys index id ↔ index.get key ≠ none ∧ idPrefix id <+: key := by
  rw [blockKeys, List.mem_map]
  constructor
  · rintro ⟨kv, hkv, rfl⟩
    obtain ⟨hmem, hprefix⟩ := (Bytes.mem_scan index.sorted _).1 hkv
    exact ⟨ne_of_eq_of_ne (SortedMap.get_iff_mem.2 hmem) (Option.some_ne_none _), hprefix⟩
  · rintro ⟨hkey, hprefix⟩
    obtain ⟨value, hvalue⟩ := Option.ne_none_iff_exists'.1 hkey
    exact ⟨(key, value), (Bytes.mem_scan index.sorted _).2 ⟨SortedMap.get_iff_mem.1 hvalue, hprefix⟩, rfl⟩

theorem get_foldl_erase (keys : List Bytes) (index : SortedMap Bytes Bytes) (key : Bytes) :
    (keys.foldl SortedMap.erase index).get key = if key ∈ keys then none else index.get key := by
  induction keys generalizing index with
  | nil => rfl
  | cons k keys ih =>
    rw [List.foldl_cons, ih, SortedMap.get_erase]
    by_cases hkey : key = k
    · simp [hkey]
    · simp [hkey]

/-- Dropping an index removes the keys of its block, and no others. -/
theorem get_deleteAll (index : SortedMap Bytes Bytes) (entry : IndexEntry) (key : Bytes) :
    (deleteAll index entry).get key = if idPrefix entry.id <+: key then none else index.get key := by
  rw [deleteAll, get_foldl_erase]
  by_cases hprefix : idPrefix entry.id <+: key
  · rw [if_pos hprefix]
    split
    · rfl
    · rename_i hkey
      by_contra hsome
      exact hkey (mem_blockKeys.2 ⟨hsome, hprefix⟩)
  · rw [if_neg hprefix, if_neg fun hkey => hprefix (mem_blockKeys.1 hkey).2]

end ArborDb
